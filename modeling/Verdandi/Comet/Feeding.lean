import Verdandi.Comet.Installer

/-! What an installer makes of the pages of one batch. A batch that leads from the installed
content to another is taken row by row: after some rows the candidate has the new record of
the keys they name and the old record of all others, so it is never larger than both contents
together. The number of rows that a batch may have is bounded separately.
-/

namespace Comet

open Astra Support Proto

variable {Change Record : Type}

/-- The candidate has the new records of the keys in `done`. -/
def Mixed (base goal : Assoc Bytes Record) (done : List Bytes) (draft : Assoc Bytes Record)
    : Prop :=
  ∀ key, draft.get? key = if key ∈ done then goal.get? key else base.get? key

/-- Each row of a batch gives its key the record it has in `goal`, other keys agree with
`base`, and both contents are within the limits of the view.
-/
structure Leading (policy : Policy Change Record) (start : Installer Record) (mode : Mode)
    (base goal : Assoc Bytes Record) (changes : List Change)
    : Prop where
  distinct : (changes.map policy.key).Nodup
  valid : ∀ change ∈ changes, policy.valid (policy.key change) = true
  relevant
    : ∀ change ∈ changes, (!start.target.isEmpty && start.target != policy.key change) = false
  installs
    : ∀ change ∈ changes,
        policy.install mode (start.current.bind (·.data.get? (policy.key change))) change
        = .ok (goal.get? (policy.key change))
  rest : ∀ key, key ∉ changes.map policy.key → goal.get? key = base.get? key
  records : base.size ≤ start.records ∧ goal.size ≤ start.records
  bytes : weigh policy base ≤ start.bytes ∧ weigh policy goal ≤ start.bytes

/-- A stream may deliver this batch: how it starts, who serves it, and where it leads. -/
structure Admits (policy : Policy Change Record) (start : Installer Record) (mode : Mode)
    (version : Nat) (serving : Bytes) (changes : List Change)
    : Prop where
  valid : start.valid = true
  starts
    : (mode = .reset ∧ start.first = true)
      ∨ (mode = .apply ∧ start.fresh = false ∧ start.current.isSome = true)
  served : Scope.text serving 128 = true ∧ (start.expected = [] ∨ start.expected = serving)
  order
    : ∀ held, start.current = some held → policy.crossing = true ∨ held.instance = serving
      → held.version ≤ version
  continued
    : mode = .apply → ∀ held, start.current = some held → held.instance = serving
        ∧ (version = held.version → start.first = true ∧ changes = [])

/-- The byte budgets hold for every candidate between the two contents while keys in `names`
are remembered, and for the content that the batch leads to.
-/
structure Roomy (room : Room Record) (base goal : Assoc Bytes Record) (names : List Bytes)
    : Prop where
  prepared
    : ∀ draft done seen, Mixed base goal done draft → seen.Nodup → (∀ key ∈ seen, key ∈ names)
      → room.prepared draft seen = true
  published : ∀ data : Assoc Bytes Record, data.get? = goal.get? → room.published data = true

def Installer.collecting (start : Installer Record) (mode : Mode) (work : Work Record)
    : Installer Record :=
  { start with mode, draft := some work.draft, seen := work.seen }

def Installer.installed (start : Installer Record) (data : Assoc Bytes Record)
    (serving : Bytes) (version : Nat)
    : Installer Record :=
  { start with
    current := some { data, «instance» := serving, version }
    draft := none
    seen := []
    expected := serving
    mode := .unspecified
    first := false
    fresh := false }

-- Rows

section

variable {policy : Policy Change Record} {start : Installer Record} {mode : Mode}
  {base goal draft : Assoc Bytes Record} {done : List Bytes} {changes taken : List Change}
  {change : Change} {track : Bool} {work before : Work Record}

theorem Mixed.nil (base goal : Assoc Bytes Record) : Mixed base goal [] base := by
  intro key
  simp

theorem Mixed.amend (mixed : Mixed base goal done draft) (key : Bytes)
    : Mixed base goal (key :: done) (draft.amend key (goal.get? key)) := by
  intro name
  rw [Assoc.get?_amend, mixed name]
  by_cases same : name = key
  · simp [same]
  · simp [same]

/-- A candidate is never larger than both contents together. -/
theorem Mixed.bounded (mixed : Mixed base goal done draft)
    (leading : Leading policy start mode base goal changes)
    : draft.size ≤ start.records * 2 ∧ weigh policy draft ≤ start.bytes * 2 := by
  have either : ∀ key record, draft.get? key = some record
      → base.get? key = some record ∨ goal.get? key = some record := by
    intro key record found
    rw [mixed key] at found
    split at found
    · exact .inr found
    · exact .inl found
  have size := Assoc.weight_le_add (fun _ _ => 1) either
  have bytes := Assoc.weight_le_add (fun key record => key.length + policy.measure record) either
  simp only [← Assoc.size_eq_weight] at size
  have records := leading.records
  have budget := leading.bytes
  unfold weigh at budget ⊢
  omega

/-- A row of the batch is taken, if the keys that are remembered leave room for its key. -/
theorem row_taken (leading : Leading policy start mode base goal changes)
    (member : change ∈ changes) (mixed : Mixed base goal done work.draft)
    (room : track = true → policy.key change ∉ work.seen ∧ work.seen.length < start.records * 2)
    : (start.collecting mode before).row policy track work change = .ok
          { draft := work.draft.amend (policy.key change) (goal.get? (policy.key change))
            seen := if track then policy.key change :: work.seen else work.seen } := by
  have bounded := (mixed.amend (policy.key change)).bounded leading
  have installs := leading.installs change member
  have checked : (!policy.valid (policy.key change)
      || (!start.target.isEmpty && start.target != policy.key change)) = false := by
    rw [leading.valid change member, leading.relevant change member]
    rfl
  have unseen : (track && work.seen.contains (policy.key change)) = false := by
    cases track with
    | false => rfl
    | true => simpa using (room rfl).1
  have space : (track && work.seen.length == start.records * 2) = false := by
    cases track with
    | false => rfl
    | true =>
        have := (room rfl).2
        simp only [Bool.true_and, beq_eq_false_iff_ne, ne_eq]
        omega
  have fits : ¬ ((work.draft.amend (policy.key change)
        (goal.get? (policy.key change))).size > start.records * 2
      ∨ weigh policy (work.draft.amend (policy.key change)
        (goal.get? (policy.key change))) > start.bytes * 2) := by omega
  simp only [Installer.row, Installer.collecting, checked, unseen, space, installs,
    Bool.false_eq_true, if_false]
  exact if_neg fits

/-- Some rows of the batch are taken in order. Witness: induction over the rows. -/
theorem rows_taken (leading : Leading policy start mode base goal changes)
    (inside : ∀ change ∈ taken, change ∈ changes) (distinct : (taken.map policy.key).Nodup)
    (mixed : Mixed base goal done work.draft)
    (room : track = true
      → (∀ change ∈ taken, policy.key change ∉ work.seen)
        ∧ work.seen.length + taken.length ≤ start.records * 2)
    : ∃ draft, taken.foldlM ((start.collecting mode before).row policy track) work = .ok
              { draft
                seen := if track then (taken.map policy.key).reverse ++ work.seen
                  else work.seen }
        ∧ Mixed base goal ((taken.map policy.key).reverse ++ done) draft := by
  induction taken generalizing work done with
  | nil =>
      refine ⟨work.draft, ?_, mixed⟩
      simp only [List.foldlM_nil, List.map_nil, List.reverse_nil, List.nil_append, ite_self]
      rfl
  | cons change rest ih =>
      obtain ⟨apart, distinctRest⟩ := List.nodup_cons.mp distinct
      have first : (start.collecting mode before).row policy track work change = .ok _ :=
        row_taken leading (inside change List.mem_cons_self) mixed fun tracked => by
          obtain ⟨fresh, space⟩ := room tracked
          rw [List.length_cons] at space
          exact ⟨fresh change List.mem_cons_self, by omega⟩
      have amended : Mixed base goal (policy.key change :: done)
          (Work.mk (work.draft.amend (policy.key change) (goal.get? (policy.key change)))
            (if track then policy.key change :: work.seen else work.seen)).draft :=
        mixed.amend (policy.key change)
      obtain ⟨draft, filled, mixedRest⟩ := ih
        (fun other member => inside other (List.mem_cons_of_mem _ member)) distinctRest amended
        fun tracked => by
          obtain ⟨fresh, space⟩ := room tracked
          simp only [tracked, if_true, List.mem_cons, not_or, List.length_cons] at space ⊢
          refine ⟨fun other member => ⟨?_, fresh other (List.mem_cons_of_mem _ member)⟩,
            by omega⟩
          intro same
          exact apart (List.mem_map.mpr ⟨other, member, same⟩)
      refine ⟨draft, ?_, by simpa using mixedRest⟩
      rw [List.foldlM_cons, first]
      change List.foldlM _ _ rest = _
      rw [filled]
      cases track <;> simp

end

-- Pages

def Installer.base (start : Installer Record) (mode : Mode) : Assoc Bytes Record :=
  if mode = .reset then ∅ else start.current.elim ∅ Contents.data

/-- The installer before the next page of a batch that `start` is to take: nothing but the
candidate differs from `start`, and the page finds `work`.
-/
structure Stands (start : Installer Record) (mode : Mode) (now : Installer Record)
    (work : Work Record)
    : Prop where
  same : ∃ mode draft seen, now = { start with mode, draft, seen }
  opens : now.open' mode = .ok (start.collecting mode work)

section

variable {policy : Policy Change Record} {room : Room Record} {start now : Installer Record}
  {mode : Mode} {version : Nat} {serving : Bytes} {base goal : Assoc Bytes Record}
  {changes taken : List Change} {pages : List (WatchReply Change)} {work : Work Record}

/-- Before the first page. -/
theorem stands_start (admits : Admits policy start mode version serving changes)
    (clean : start.draft = none ∧ start.seen = [])
    : Stands start mode start { draft := start.base mode, seen := [] } := by
  refine ⟨⟨_, _, _, rfl⟩, ?_⟩
  have allowed : ¬ ((mode = .reset ∧ start.first = false)
      ∨ (mode = .apply ∧ (start.current.isNone ∨ start.fresh = true))) := by
    rcases admits.starts with ⟨rfl, first⟩ | ⟨rfl, fresh, present⟩
    · simp [first]
    · simp [fresh, Option.isSome_iff_ne_none.mp present]
  rw [Installer.open', clean.1]
  simp only [if_neg allowed, Installer.collecting, Installer.base, clean.2]

/-- Before a later page. -/
theorem stands_collecting (start : Installer Record) (mode : Mode) (work : Work Record)
    : Stands start mode (start.collecting mode work) work :=
  ⟨⟨_, _, _, rfl⟩, by simp [Installer.open', Installer.collecting]⟩

structure Progress (policy : Policy Change Record) (base goal : Assoc Bytes Record)
    (done : List Change) (work : Work Record)
    : Prop where
  mixed : Mixed base goal (done.map policy.key).reverse work.draft
  seen : work.seen = (done.map policy.key).reverse

section

variable {done rest : List Change} {page : WatchReply Change}

/-- The rows of one page of the batch are taken. -/
theorem page_taken (leading : Leading policy start mode base goal (done ++ taken ++ rest))
    (progress : Progress policy base goal done work) (track : Bool)
    (few : (done ++ taken ++ rest).length ≤ start.records * 2)
    : ∃ draft, taken.foldlM ((start.collecting mode work).row policy track) work
          = .ok { draft, seen := if track then ((done ++ taken).map policy.key).reverse
                    else work.seen }
        ∧ Mixed base goal ((done ++ taken).map policy.key).reverse draft := by
  have keys := leading.distinct
  rw [List.map_append, List.map_append, List.append_assoc, List.nodup_append'] at keys
  obtain ⟨_, later, apart⟩ := keys
  rw [List.length_append, List.length_append] at few
  obtain ⟨draft, filled, mixed⟩ := rows_taken leading (fun change member => by simp [member])
    (List.nodup_append'.mp later).1 progress.mixed fun tracked => by
      rw [progress.seen]
      refine ⟨fun change member inside => ?_, by simp; omega⟩
      rw [List.mem_reverse] at inside
      exact apart inside (List.mem_append_left _ (List.mem_map.mpr ⟨change, member, rfl⟩))
  refine ⟨draft, ?_, by simpa using mixed⟩
  rw [filled, progress.seen]
  simp

/-- A page of the batch passes the checks before its rows. -/
theorem wellFormed_of_stands (admits : Admits policy start mode version serving changes)
    (stands : Stands start mode now work) (same : page.mode = mode)
    (shaped : page.complete = page.version.isSome ∧ page.complete = !page.instance.isEmpty
      ∧ (page.complete = true ∨ page.changes ≠ []))
    (size : policy.size page ≤ 8 * 1024 * 1024)
    : now.wellFormed policy page = true := by
  obtain ⟨_, _, _, rfl⟩ := stands.same
  have known : (mode == .reset || mode == .apply) = true := by
    rcases admits.starts with ⟨rfl, _⟩ | ⟨rfl, _⟩ <;> rfl
  have nonempty : (page.complete || !page.changes.isEmpty) = true := by
    rcases shaped.2.2 with last | some
    · simp [last]
    · simp [some]
  simp only [Installer.wellFormed, admits.valid, same, known, nonempty, Bool.true_and,
    Bool.and_true, Bool.and_eq_true, beq_iff_eq, decide_eq_true_eq]
  exact ⟨⟨shaped.1, shaped.2.1⟩, size⟩

/-- A page that is not the last one is taken. -/
theorem attempt_more (leading : Leading policy start mode base goal (done ++ taken ++ rest))
    (admits : Admits policy start mode version serving changes)
    (roomy : Roomy room base goal ((done ++ taken ++ rest).map policy.key))
    (stands : Stands start mode now work)
    (progress : Progress policy base goal done work) (nonempty : taken ≠ [])
    (size : policy.size { mode, changes := taken } ≤ 8 * 1024 * 1024)
    (few : (done ++ taken ++ rest).length ≤ start.records * 2)
    : ∃ next, now.attempt policy room { mode, changes := taken } = .ok (start.collecting mode next)
        ∧ Progress policy base goal (done ++ taken) next := by
  have formed : now.wellFormed policy { mode, changes := taken } = true :=
    wellFormed_of_stands admits stands rfl ⟨rfl, rfl, .inr nonempty⟩ size
  obtain ⟨draft, filled, mixed⟩ := page_taken leading progress true few
  have held : room.prepared draft ((done ++ taken).map policy.key).reverse = true := by
    have keys := leading.distinct
    rw [List.map_append] at keys
    refine roomy.prepared draft _ _ mixed
      (List.nodup_reverse.mpr (List.nodup_append'.mp keys).1) fun key member => ?_
    rw [List.map_append]
    exact List.mem_append_left _ (List.mem_reverse.mp member)
  refine ⟨{ draft, seen := ((done ++ taken).map policy.key).reverse }, ?_, mixed, rfl⟩
  simp only [Installer.attempt, formed, stands.opens, Bool.not_true, Bool.false_eq_true,
    if_false, Bool.false_and, Bool.not_false, Bool.true_or]
  erw [filled]
  simp only [if_true, held, Bool.not_true, Bool.false_eq_true, if_false]
  rfl

/-- All rows of the batch lead to the new content. -/
theorem Mixed.complete {data : Assoc Bytes Record}
    (mixed : Mixed base goal (changes.map policy.key).reverse data)
    (leading : Leading policy start mode base goal changes)
    : data.get? = goal.get? := by
  funext key
  rw [mixed key]
  split
  · rfl
  rename_i absent
  rw [List.mem_reverse] at absent
  exact (leading.rest key absent).symm

/-- The last page names who served the batch and where it leads, as the stream expects. -/
theorem continues_of_stands (admits : Admits policy start mode version serving changes)
    (stands : Stands start mode now work)
    (named : page.instance = serving ∧ page.version = some version)
    : now.continues policy page = true := by
  obtain ⟨_, _, _, rfl⟩ := stands.same
  have expected : (start.expected.isEmpty || start.expected == serving) = true := by
    rcases admits.served.2 with none | same
    · simp [none]
    · simp [same]
  simp only [Installer.continues, named.1, named.2, admits.served.1, expected, Bool.true_and,
    Option.getD_some]
  cases installed : start.current with
  | none => rfl
  | some held =>
      have ordered := admits.order held installed
      simp only [Option.all_some, Bool.or_eq_true, Bool.and_eq_true, Bool.not_eq_true',
        bne_iff_ne, ne_eq, decide_eq_true_eq]
      by_cases known : policy.crossing = true ∨ held.instance = serving
      · exact .inr (ordered known)
      · rw [not_or, Bool.not_eq_true] at known
        exact .inl known

/-- Changes end where the installed content came from, and move its version. -/
theorem advances_of_progress (admits : Admits policy start mode version serving (done ++ taken))
    (progress : Progress policy base goal done work)
    : (mode == .apply && !(start.collecting mode work).advances
        { mode, changes := taken, complete := true, version := some version
          «instance» := serving }) = false := by
  by_cases apply : mode = .apply
  · have continued := admits.continued apply
    subst apply
    simp only [Installer.advances, Installer.collecting, progress.seen, Option.getD_some,
      BEq.rfl, Bool.true_and, Bool.not_eq_false']
    cases installed : start.current with
    | none => rfl
    | some held =>
        obtain ⟨same, unmoved⟩ := continued held installed
        simp only [Option.all_some, same, BEq.rfl, Bool.true_and, Bool.or_eq_true, bne_iff_ne,
          ne_eq, Bool.and_eq_true]
        by_cases moved : version = held.version
        · obtain ⟨first, nothing⟩ := unmoved moved
          rw [List.append_eq_nil_iff] at nothing
          exact .inr (by simp [first, nothing.1, nothing.2])
        · exact .inl moved
  · simp [apply]

/-- The last page of the batch installs the content. -/
theorem attempt_last (leading : Leading policy start mode base goal (done ++ taken))
    (admits : Admits policy start mode version serving (done ++ taken))
    (roomy : Roomy room base goal ((done ++ taken).map policy.key))
    (stands : Stands start mode now work) (progress : Progress policy base goal done work)
    (size : policy.size
      { mode, changes := taken, complete := true, version := some version, «instance» := serving }
      ≤ 8 * 1024 * 1024)
    (few : (done ++ taken).length ≤ start.records * 2)
    (empty : version = 0 → goal.size = 0)
    : ∃ data, now.attempt policy room
            { mode, changes := taken, complete := true, version := some version
              «instance» := serving }
          = .ok (start.installed data serving version)
        ∧ data.get? = goal.get? := by
  have nonempty : serving.isEmpty = false := by
    have positive := (Scope.text_bounds admits.served.1).1
    simpa using List.length_pos_iff.mp positive
  have formed : now.wellFormed policy
      { mode, changes := taken, complete := true, version := some version
        «instance» := serving } = true :=
    wellFormed_of_stands admits stands rfl ⟨rfl, by rw [nonempty]; rfl, .inl rfl⟩ size
  have continues : now.continues policy
      { mode, changes := taken, complete := true, version := some version
        «instance» := serving } = true :=
    continues_of_stands admits stands ⟨rfl, rfl⟩
  have advances := advances_of_progress admits progress
  rw [← List.append_nil (done ++ taken)] at leading few
  obtain ⟨draft, filled, mixed⟩ := page_taken leading progress
    (taken.length != 1 || !work.seen.isEmpty) few
  rw [List.append_nil] at leading few
  have reached := mixed.complete leading
  have held : room.prepared draft
      (if (taken.length != 1 || !work.seen.isEmpty) = true
        then ((done ++ taken).map policy.key).reverse else work.seen) = true := by
    have keys := leading.distinct
    split
    · exact roomy.prepared draft _ _ mixed (List.nodup_reverse.mpr keys)
        fun key member => List.mem_reverse.mp member
    · rw [List.map_append] at keys
      refine roomy.prepared draft _ _ mixed ?_ fun key member => ?_
      · rw [progress.seen]
        exact List.nodup_reverse.mpr (List.nodup_append'.mp keys).1
      · rw [progress.seen, List.mem_reverse] at member
        rw [List.map_append]
        exact List.mem_append_left _ member
  have within : ¬ (draft.size > now.records ∨ weigh policy draft > now.bytes) := by
    obtain ⟨_, _, _, rfl⟩ := stands.same
    have records := leading.records.2
    have bytes := leading.bytes.2
    rw [weigh, Assoc.weight_congr _ reached, Assoc.size_congr reached, ← weigh]
    exact not_or.mpr ⟨Nat.not_lt.mpr records, Nat.not_lt.mpr bytes⟩
  have rooted : ¬ (version = 0 ∧ draft.size ≠ 0) := by
    rintro ⟨zero, some⟩
    rw [Assoc.size_congr reached] at some
    exact some (empty zero)
  refine ⟨draft, ?_, reached⟩
  simp only [Installer.attempt, formed, continues, stands.opens, Bool.not_true,
    Bool.false_eq_true, if_false, Bool.and_false, Bool.true_and, Bool.false_or]
  rw [show (start.collecting mode work).mode = mode from rfl, advances]
  simp only [Bool.false_eq_true, if_false]
  erw [filled]
  simp only [held, Bool.not_true, Bool.false_eq_true, if_false, if_neg within, Option.getD_some,
    if_neg rooted, roomy.published draft reached]
  rfl

end

variable {page : WatchReply Change} {next : Installer Record}

/-- Pages are fed one after the other. -/
theorem feed_cons (taken : now.attempt policy room page = .ok next)
    : now.feed policy room (page :: pages) = next.feed policy room pages := by
  simp only [Installer.feed, Installer.accept, taken]

variable {last : Installer Record}

/-- Every page of a batch that was taken as a whole was taken. -/
theorem feed_cons_ok (fed : now.feed policy room (page :: pages) = (last, .ok ()))
    : ∃ next, now.attempt policy room page = .ok next
        ∧ next.feed policy room pages = (last, .ok ()) := by
  cases attempted : now.attempt policy room page with
  | error code =>
      simp only [Installer.feed, Installer.accept, attempted] at fed
      cases fed
  | ok next =>
      rw [feed_cons attempted] at fed
      exact ⟨next, rfl, fed⟩

/-- A batch with few enough rows is taken page by page and installs its content. Witness:
induction along the pages; `done` are the rows of the pages before.
-/
theorem feed_pages {done : List Change} (batched : Batched mode version serving changes pages)
    (leading : Leading policy start mode base goal (done ++ changes))
    (admits : Admits policy start mode version serving (done ++ changes))
    (roomy : Roomy room base goal ((done ++ changes).map policy.key))
    (stands : Stands start mode now work) (progress : Progress policy base goal done work)
    (sizes : ∀ page ∈ pages, policy.size page ≤ 8 * 1024 * 1024)
    (few : (done ++ changes).length ≤ start.records * 2)
    (empty : version = 0 → goal.size = 0)
    : ∃ data, now.feed policy room pages = (start.installed data serving version, .ok ())
        ∧ data.get? = goal.get? := by
  induction batched generalizing now work done with
  | last changes =>
      obtain ⟨data, taken, reached⟩ := attempt_last leading admits roomy stands progress
        (sizes _ List.mem_cons_self) few empty
      exact ⟨data, feed_cons taken, reached⟩
  | @more changes rest pages nonempty continued ih =>
      rw [← List.append_assoc] at leading admits roomy few
      obtain ⟨next, taken, further⟩ := attempt_more leading admits roomy stands progress
        nonempty (sizes _ List.mem_cons_self) few
      obtain ⟨data, fed, reached⟩ := ih leading admits roomy (stands_collecting start mode next)
        further (fun page member => sizes page (List.mem_cons_of_mem _ member)) few
      exact ⟨data, (feed_cons taken).trans fed, reached⟩

-- The number of rows

variable {track : Bool} {opened : Installer Record}

/-- A tracked row is remembered, and no more than twice the records of a view are. -/
theorem row_tracked {next : Work Record} {change : Change}
    (taken : opened.row policy track work change = .ok next) (tracked : track = true)
    (within : work.seen.length ≤ opened.records * 2)
    : next.seen.length = work.seen.length + 1 ∧ next.seen.length ≤ opened.records * 2 := by
  subst tracked
  unfold Installer.row at taken
  dsimp only at taken
  split at taken
  · cases taken
  split at taken
  · cases taken
  rename_i space
  split at taken
  · cases taken
  split at taken
  · cases taken
  split at taken
  · cases taken
  · cases taken
    simp only [Bool.true_and, beq_iff_eq] at space
    rw [if_pos rfl, List.length_cons]
    exact ⟨rfl, by omega⟩

/-- Tracked rows are all remembered. Witness: induction over the rows. -/
theorem rows_tracked {last : Work Record}
    (filled : taken.foldlM (opened.row policy track) work = .ok last) (tracked : track = true)
    (within : work.seen.length ≤ opened.records * 2)
    : last.seen.length = work.seen.length + taken.length
      ∧ last.seen.length ≤ opened.records * 2 := by
  induction taken generalizing work with
  | nil =>
      cases filled
      exact ⟨rfl, within⟩
  | cons change rest ih =>
      rw [List.foldlM_cons] at filled
      cases first : opened.row policy track work change with
      | error code =>
          rw [first] at filled
          cases filled
      | ok next =>
          rw [first] at filled
          obtain ⟨counted, space⟩ := row_tracked first tracked within
          obtain ⟨all, bounded⟩ := ih filled space
          rw [List.length_cons]
          exact ⟨by omega, bounded⟩

/-- What an accepted page remembers of a batch of several rows. -/
theorem attempt_tracked (taken : now.attempt policy room page = .ok next)
    (stands : Stands start mode now work) (same : page.mode = mode)
    (within : work.seen.length ≤ start.records * 2)
    (several : page.complete = false ∨ 2 ≤ work.seen.length + page.changes.length)
    : work.seen.length + page.changes.length ≤ start.records * 2
      ∧ (page.complete = false
        → ∃ draft seen,
            next = start.collecting mode { draft, seen }
            ∧ seen.length = work.seen.length + page.changes.length) := by
  unfold Installer.attempt at taken
  rw [same, stands.opens] at taken
  split at taken
  · cases taken
  split at taken
  · cases taken
  dsimp only at taken
  split at taken
  · cases taken
  have tracked : (!page.complete || page.changes.length != 1
      || !(start.collecting mode work).seen.isEmpty) = true := by
    rcases several with more | many
    · simp [more]
    · simp only [Installer.collecting, Bool.or_eq_true, bne_iff_ne, ne_eq, Bool.not_eq_true',
        List.isEmpty_eq_false_iff]
      by_cases none : work.seen = []
      · rw [none, List.length_nil] at many
        exact .inl (.inr (by omega))
      · exact .inr none
  split at taken
  · cases taken
  rename_i last filled
  have counted := rows_tracked filled tracked within
  refine ⟨by have := counted.2; rw [counted.1] at this; exact this, fun more => ?_⟩
  split at taken
  · cases taken
  · rw [more] at taken
    simp only [Bool.not_false, if_true] at taken
    cases taken
    exact ⟨last.draft, last.seen, rfl, counted.1⟩

/-- Every row of a batch of several rows that was taken as a whole was remembered. Witness:
induction along the pages.
-/
theorem feed_tracked (batched : Batched mode version serving changes pages)
    (fed : now.feed policy room pages = (last, .ok ())) (stands : Stands start mode now work)
    (within : work.seen.length ≤ start.records * 2)
    (several : 2 ≤ work.seen.length + changes.length)
    : work.seen.length + changes.length ≤ start.records * 2 := by
  induction batched generalizing now work with
  | last changes =>
      obtain ⟨next, taken, _⟩ := feed_cons_ok fed
      exact (attempt_tracked taken stands rfl within (.inr several)).1
  | @more changes rest pages nonempty continued ih =>
      obtain ⟨next, taken, further⟩ := feed_cons_ok fed
      obtain ⟨bounded, remembered⟩ := attempt_tracked taken stands rfl within (.inl rfl)
      obtain ⟨draft, seen, rfl, counted⟩ := remembered rfl
      rw [List.length_append] at several ⊢
      have all := ih further (stands_collecting start mode { draft, seen })
        (by simp only [counted]; exact bounded) (by simp only [counted]; omega)
      simp only [counted] at all
      omega

end

end Comet
