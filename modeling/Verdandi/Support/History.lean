import Verdandi.Support.Collected
import Verdandi.Support.Runs

/-! A bounded history of items beside a timeline. The items that are kept name the newest
commits without a gap, so what a history still has from some version on leads from there to
the newest content.
-/

namespace Support

universe u v w

variable {K : Type u} {V : Type v} {A : Type w}

section

variable (act : A → Option V → Option V) (final : A → Option V) (key : A → K) (version : A → Nat)

/-- The items, newest first, name the commits that lead from `past` to `timeline`, and each
acts on the value that its commit found.
-/
inductive Logged (past : List (Commit K V)) : List A → List (Commit K V) → Prop where
  | nil : Logged past [] past
  | cons {items : List A} {timeline : List (Commit K V)} {item : A} {commit : Commit K V}
      (earlier : Logged past items timeline) (stamped : commit.version = version item)
      (change : commit.change = some (key item, final item))
      (acts : act item (Timeline.contentAt timeline (Timeline.version timeline) (key item))
        = final item)
      : Logged past (item :: items) (commit :: timeline)

end

namespace Logged

variable {act : A → Option V → Option V} {final : A → Option V} {key : A → K}
  {version : A → Nat} {past timeline : List (Commit K V)} {items : List A}

/-- The newest items alone lead from a later start. -/
theorem evict (logged : Logged act final key version past items timeline) {kept : List A}
    (prefix' : kept <+: items)
    : ∃ start, Logged act final key version start kept timeline := by
  induction logged generalizing kept with
  | nil =>
      rw [List.prefix_nil.mp prefix']
      exact ⟨past, .nil⟩
  | @cons items timeline item commit earlier stamped change acts ih =>
      rcases List.prefix_cons_iff.mp prefix' with empty | ⟨shorter, split, inside⟩
      · rw [empty]
        exact ⟨_, .nil⟩
      · obtain ⟨start, continued⟩ := ih inside
        rw [split]
        exact ⟨start, .cons continued stamped change acts⟩

variable [DecidableEq K]

variable {item : A}

/-- Items are at or below the newest version. -/
theorem le_version (logged : Logged act final key version past items timeline)
    (valid : Timeline.Valid timeline) (member : item ∈ items)
    : version item ≤ Timeline.version timeline := by
  induction logged with
  | nil => cases member
  | cons earlier stamped change acts ih =>
      rcases List.mem_cons.mp member with same | older
      · rw [same, Timeline.version_cons, stamped]
      · exact Nat.le_trans (ih valid.2.2 older) (Timeline.version_le_cons valid)

/-- Versions descend. -/
theorem descending (logged : Logged act final key version past items timeline)
    (valid : Timeline.Valid timeline)
    : items.Pairwise fun left right => version right < version left := by
  induction logged with
  | nil => exact List.Pairwise.nil
  | @cons items timeline item commit earlier stamped change acts ih =>
      refine List.pairwise_cons.mpr ⟨fun other member => ?_, ih valid.2.2⟩
      have bounded := earlier.le_version valid.2.2 member
      obtain ⟨before, rest, split, follows, _⟩ := valid.2.1 _ _ change
      rw [split, Timeline.version_cons] at bounded
      omega

/-- The oldest item follows the start without a gap. -/
theorem oldest (logged : Logged act final key version past items timeline)
    (valid : Timeline.Valid timeline) {first : A} (last : items.getLast? = some first)
    : version first = Timeline.version past + 1 := by
  induction logged with
  | nil => cases last
  | @cons items timeline item commit earlier stamped change acts ih =>
      cases earlier with
      | nil =>
          rw [List.getLast?_singleton, Option.some.injEq] at last
          obtain ⟨before, rest, split, follows, _⟩ := valid.2.1 _ _ change
          rw [← last, ← stamped, follows, split, Timeline.version_cons]
      | cons older =>
          rw [List.getLast?_cons_cons] at last
          exact ih valid.2.2 last

/-- The items above a version that the history reaches lead from there. Witness: induction
along the history; once the newest version is not above, nothing is.
-/
theorem since (logged : Logged act final key version past items timeline)
    (valid : Timeline.Valid timeline) {since : Nat} (reaches : Timeline.version past ≤ since)
    : ∃ start, Logged act final key version start (items.filter (since < version ·)) timeline
        ∧ Timeline.version start ≤ since := by
  induction logged with
  | nil => exact ⟨past, .nil, reaches⟩
  | @cons items timeline item commit earlier stamped change acts ih =>
      by_cases above : since < version item
      · obtain ⟨start, continued, low⟩ := ih valid.2.2
        rw [List.filter_cons_of_pos (by simpa using above)]
        exact ⟨start, .cons continued stamped change acts, low⟩
      · have none : (item :: items).filter (since < version ·) = [] := by
          rw [List.filter_eq_nil_iff]
          intro other member
          have bounded := (Logged.cons earlier stamped change acts).le_version valid member
          rw [Timeline.version_cons, stamped] at bounded
          simp only [decide_eq_true_eq]
          omega
        rw [none]
        refine ⟨_, .nil, ?_⟩
        rw [Timeline.version_cons]
        omega

/-- Skipping the old items of an ordered list keeps exactly the newer ones. -/
theorem dropWhile_eq_filter {items : List A} {since : Nat}
    (ordered : items.Pairwise fun left right => version left < version right)
    : items.dropWhile (version · ≤ since) = items.filter (since < version ·) := by
  induction items with
  | nil => rfl
  | cons first rest ih =>
      obtain ⟨above, tail⟩ := List.pairwise_cons.mp ordered
      by_cases old : version first ≤ since
      · have skipped : ¬ since < version first := by omega
        rw [List.dropWhile_cons_of_pos (by simpa using old),
          List.filter_cons_of_neg (by simpa using skipped)]
        exact ih tail
      · have kept : since < version first := by omega
        rw [List.dropWhile_cons_of_neg (by simpa using old)]
        refine (List.filter_eq_self.mpr fun item member => ?_).symm
        rcases List.mem_cons.mp member with same | later
        · simpa [same] using kept
        · have := above item later
          simp only [decide_eq_true_eq]
          omega

/-- A replay from a version that the history reaches: skip what is not newer. The history is
stored with the oldest item first.
-/
theorem replay {oldest : A} {rest : List A}
    (logged : Logged act final key version past (oldest :: rest).reverse timeline)
    (valid : Timeline.Valid timeline) {since : Nat} (retained : version oldest - 1 ≤ since)
    : ∃ start, Logged act final key version start
          ((oldest :: rest).dropWhile (version · ≤ since)).reverse timeline
        ∧ Timeline.version start ≤ since
        ∧ ∀ item ∈ (oldest :: rest).dropWhile (version · ≤ since), since < version item := by
  have first := logged.oldest valid (show _ = some oldest by simp)
  have ascending := List.pairwise_reverse.mp (logged.descending valid)
  rw [dropWhile_eq_filter ascending, ← List.filter_reverse]
  obtain ⟨start, continued, low⟩ := logged.since valid (show Timeline.version past ≤ since by omega)
  exact ⟨start, continued, low, fun item member => by simpa using (List.mem_filter.mp member).2⟩

/-- Commits above the start are patches. -/
theorem patched (logged : Logged act final key version past items timeline)
    (valid : Timeline.Valid timeline) {since high : Nat}
    (reaches : Timeline.version past ≤ since)
    : Timeline.Patched timeline since high := by
  induction logged with
  | nil =>
      intro commit member above
      have := Timeline.le_version valid member
      omega
  | cons earlier stamped change acts ih =>
      intro other member above below
      rcases List.mem_cons.mp member with same | older
      · rw [same, change]
        exact Option.some_ne_none _
      · exact ih valid.2.2 other older above below

variable {merge : A → A → A}

/-- The items, merged by key, are what a subscriber since the start collects. Witness:
induction along the history, one item at a time.
-/
theorem collected (lawful : Mergeable act final version merge)
    (logged : Logged act final key version past items timeline) (valid : Timeline.Valid timeline)
    (rooted : Timeline.Rooted timeline) {since : Nat} (reaches : Timeline.version past ≤ since)
    : Collected act version (merged key merge items.reverse) timeline (fun _ => True) since := by
  induction logged with
  | nil =>
      have none : merged key merge ([] : List A).reverse = fun _ => none := rfl
      rw [none]
      exact .empty valid reaches
  | @cons items timeline item commit earlier stamped change acts ih =>
      have continued := ih valid.2.2 fun other member =>
        rooted other (List.mem_cons_of_mem _ member)
      have inserted := continued.insert lawful valid rooted change trivial stamped.symm acts
      convert inserted using 1
      funext name
      rw [List.reverse_cons, merged_append_singleton]
      by_cases hit : key item = name
      · subst hit
        rw [if_pos rfl, Function.update_self]
        cases merged key merge items.reverse (key item) <;> rfl
      · rw [if_neg hit, Function.update_of_ne (Ne.symm hit)]

/-- The newest content, key by key: the merged item of the key acts on the value at the
start, and a key without one keeps its value.
-/
theorem settled (lawful : Mergeable act final version merge)
    (logged : Logged act final key version past items timeline) (valid : Timeline.Valid timeline)
    (rooted : Timeline.Rooted timeline) {since : Nat} (reaches : Timeline.version past ≤ since)
    (within : since ≤ Timeline.version timeline) (above : ∀ item ∈ items, since < version item)
    (name : K)
    : Timeline.contentAt timeline (Timeline.version timeline) name
      = (merged key merge items.reverse name).elim (Timeline.contentAt timeline since name)
          (act · (Timeline.contentAt timeline since name)) := by
  have collected := logged.collected lawful valid rooted reaches
  have kept : (merged key merge items.reverse name).filter (since < version ·)
      = merged key merge items.reverse name := by
    cases found : merged key merge items.reverse name with
    | none => rfl
    | some item =>
        have newer : since < version item := by
          obtain ⟨source, member, _, same⟩ := merged_source lawful.version found
          rw [same]
          exact above source (List.mem_reverse.mp member)
        simp [Option.filter_some, newer]
  rw [collected.settled valid (Nat.le_refl _) within (logged.patched valid reaches) trivial, kept]
  cases merged key merge items.reverse name <;> rfl

end Logged

-- Stores with a bounded history

section

variable [DecidableEq K] (act : A → Option V → Option V) (final : A → Option V) (key : A → K)
  (version : A → Nat)

/-- A store that is what its timeline says: its content is the newest one, and its history,
oldest item first, names the newest commits.
-/
structure Recorded (current : Nat) (content : K → Option V) (history : List A)
    (timeline : List (Commit K V))
    : Prop where
  valid : Timeline.Valid timeline
  head : ∃ last past, timeline = last :: past ∧ last.version = current ∧ last.content = content
  history : ∃ past, Logged act final key version past history.reverse timeline
  rooted : Timeline.Rooted timeline

structure Replayed (items : List A) (timeline : List (Commit K V)) (since : Nat) : Prop where
  within : since ≤ Timeline.version timeline
  logged
    : ∃ past, Logged act final key version past items.reverse timeline
      ∧ Timeline.version past ≤ since
  newer : ∀ item ∈ items, since < version item

end

variable {act : A → Option V → Option V} {final : A → Option V} {key : A → K}
  {version : A → Nat} {current : Nat} {content : K → Option V} {history items : List A}
  {timeline : List (Commit K V)} {since : Nat} [DecidableEq K]

namespace Recorded

theorem version_eq (recorded : Recorded act final key version current content history timeline)
    : Timeline.version timeline = current := by
  obtain ⟨last, past, split, at', _⟩ := recorded.head
  rw [split, Timeline.version_cons, at']

theorem contentAt_eq (recorded : Recorded act final key version current content history timeline)
    : Timeline.contentAt timeline current = content := by
  obtain ⟨last, past, split, at', held⟩ := recorded.head
  rw [split, ← at', Timeline.contentAt_head, held]

/-- Nothing is there at version zero. -/
theorem content_zero (recorded : Recorded act final key version current content history timeline)
    (zero : current = 0)
    : content = fun _ => none := by
  obtain ⟨last, past, split, at', held⟩ := recorded.head
  rw [← held]
  exact recorded.rooted last (by rw [split]; exact List.mem_cons_self) (at'.trans zero)

variable {commit : Commit K V}

/-- A new item is the next patch. Witness: the kept history is a suffix of the old one with
the item appended, so reversed it is a prefix.
-/
theorem patch (recorded : Recorded act final key version current content history timeline)
    {item : A} {kept : List A} (follows : commit.version = current + 1)
    (stamped : version item = commit.version) (change : commit.change = some (key item, final item))
    (acts : act item (content (key item)) = final item)
    (updated : commit.content = Function.update content (key item) (final item))
    (suffix : kept <:+ history ++ [item])
    : Recorded act final key version (current + 1) commit.content kept (commit :: timeline) := by
  obtain ⟨last, past, split, lastVersion, lastContent⟩ := recorded.head
  obtain ⟨older, logged⟩ := recorded.history
  refine ⟨⟨?_, ?_, recorded.valid⟩, ⟨_, _, rfl, follows, rfl⟩, ?_, ?_⟩
  · intro before member
    have bounded := Timeline.le_version recorded.valid member
    rw [recorded.version_eq] at bounded
    omega
  · intro name new changed
    rw [change, Option.some.injEq, Prod.mk.injEq] at changed
    refine ⟨last, past, split, by omega, ?_⟩
    rw [updated, lastContent, changed.1, changed.2]
  · have kept' : kept.reverse <+: item :: history.reverse := by
      have reversed := List.reverse_prefix.mpr suffix
      simpa using reversed
    refine Logged.evict (.cons logged stamped.symm change ?_) kept'
    rw [recorded.version_eq, recorded.contentAt_eq]
    exact acts
  · intro other member isZero
    rcases List.mem_cons.mp member with same | old
    · rw [same] at isZero
      omega
    · exact recorded.rooted other old isZero

/-- A new content that is not a patch starts the history anew. -/
theorem replace (valid : Timeline.Valid timeline) (rooted : Timeline.Rooted timeline)
    (whole : commit.change = none) (newer : ∀ other ∈ timeline, other.version < commit.version)
    (empty : commit.version = 0 → commit.content = fun _ => none)
    : Recorded act final key version commit.version commit.content [] (commit :: timeline) := by
  refine ⟨⟨newer, ?_, valid⟩, ⟨_, _, rfl, rfl, rfl⟩, ⟨_, .nil⟩, ?_⟩
  · intro name new changed
    rw [whole] at changed
    cases changed
  · intro other member isZero
    rcases List.mem_cons.mp member with same | old
    · rw [same] at isZero ⊢
      exact empty isZero
    · exact rooted other old isZero

/-- At the newest version there is nothing to replay. -/
theorem replay_current (recorded : Recorded act final key version current content history timeline)
    : Replayed act final key version [] timeline current :=
  ⟨by rw [recorded.version_eq], ⟨timeline, .nil, by rw [recorded.version_eq]⟩, by simp⟩

/-- A history that reaches back to a version is replayed from there. -/
theorem replay (recorded : Recorded act final key version current content history timeline)
    {oldest : A} {rest : List A} (stored : history = oldest :: rest)
    (retained : version oldest - 1 ≤ since) (within : since ≤ current)
    : Replayed act final key version (history.dropWhile (version · ≤ since)) timeline since := by
  obtain ⟨past, logged⟩ := recorded.history
  rw [stored] at logged ⊢
  obtain ⟨start, continued, low, newer⟩ := logged.replay recorded.valid retained
  exact ⟨by rw [recorded.version_eq]; exact within, ⟨start, continued, low⟩, newer⟩

end Recorded

namespace Replayed

theorem patched (replayed : Replayed act final key version items timeline since)
    (valid : Timeline.Valid timeline) {high : Nat}
    : Timeline.Patched timeline since high := by
  obtain ⟨past, logged, low⟩ := replayed.logged
  exact logged.patched valid low

theorem ascending (replayed : Replayed act final key version items timeline since)
    (valid : Timeline.Valid timeline)
    : items.Pairwise fun left right => version left < version right := by
  obtain ⟨past, logged, _⟩ := replayed.logged
  exact List.pairwise_reverse.mp (logged.descending valid)

variable {item : A}

theorem le_version (replayed : Replayed act final key version items timeline since)
    (valid : Timeline.Valid timeline) (member : item ∈ items)
    : version item ≤ Timeline.version timeline := by
  obtain ⟨past, logged, _⟩ := replayed.logged
  exact logged.le_version valid (List.mem_reverse.mpr member)

variable {merge : A → A → A}

/-- The newest content, key by key: the merged item of the key acts on the value at the start,
and a key without one keeps its value.
-/
theorem settled (lawful : Mergeable act final version merge)
    (replayed : Replayed act final key version items timeline since)
    (valid : Timeline.Valid timeline) (rooted : Timeline.Rooted timeline) (name : K)
    : Timeline.contentAt timeline (Timeline.version timeline) name
      = (merged key merge items name).elim (Timeline.contentAt timeline since name)
          (act · (Timeline.contentAt timeline since name)) := by
  obtain ⟨past, logged, low⟩ := replayed.logged
  have settled := logged.settled lawful valid rooted low replayed.within
    (fun item member => replayed.newer item (List.mem_reverse.mp member)) name
  rwa [List.reverse_reverse] at settled

end Replayed

end Support
