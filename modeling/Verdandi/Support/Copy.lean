import Verdandi.Support.Assoc
import Verdandi.Support.Timeline

/-! The copy that a subscriber keeps of one part of a versioned content: it applies the pages
it is sent in order, and the last page of a batch makes the batch visible. What a sender has
to keep so that every visible copy is the content at the version it names.
-/

namespace Support

universe u v w x

variable {K : Type u} {V : Type v} {E : Type w} {R : Type x}

-- Pages and copies

/-- A page: whether its batch starts from nothing, its rows, and whether it is the last. -/
structure Page (K : Type u) (E : Type w) where
  reset : Bool
  rows : List (K × E)
  complete : Bool

/-- What a message carries: a page, and on the last page of a batch the version. -/
structure Format (R : Type x) (K : Type u) (E : Type w) where
  page : R → Page K E
  stamp : R → Option Nat

/-- A message with the version that its batch leads to, which only the last page names. -/
structure Sent (R : Type x) where
  reply : R
  through : Nat

structure Copy (K : Type u) (V : Type v) where
  content : K → Option V
  draft : Option (K → Option V) := none

def restrict (concerned : K → Bool) (content : K → Option V) : K → Option V :=
  fun key => if concerned key then content key else none

structure Listed (rows : List (K × E)) (row? : K → Option E) : Prop where
  distinct : (rows.map Prod.fst).Nodup
  exact : ∀ key row, (key, row) ∈ rows ↔ row? key = some row

variable {rows : List (K × E)} {row? : K → Option E}

theorem Listed.mem_keys (listed : Listed rows row?) {key : K}
    : key ∈ rows.map Prod.fst ↔ ∃ row, row? key = some row := by
  constructor
  · intro member
    obtain ⟨⟨name, row⟩, inside, rfl⟩ := List.mem_map.mp member
    exact ⟨row, (listed.exact name row).mp inside⟩
  · rintro ⟨row, found⟩
    exact List.mem_map.mpr ⟨(key, row), (listed.exact key row).mpr found, rfl⟩

/-- Rows lead from one content to another if each acts as the other content says and keys
without a row agree.
-/
theorem Listed.leads [DecidableEq K] {act : E → Option V → Option V}
    (listed : Listed rows row?) {concerned : K → Bool}
    {before after : K → Option V}
    (relevant : ∀ key row, row? key = some row → concerned key = true)
    (settled : ∀ key, concerned key = true
      → after key = (row? key).elim (before key) (act · (before key)))
    : overlay act rows (restrict concerned before) = restrict concerned after := by
  funext key
  cases found : row? key with
  | none =>
      have absent : key ∉ rows.map Prod.fst := by
        rw [listed.mem_keys, found]
        simp
      rw [overlay_of_notMem act absent]
      unfold restrict
      split
      next concernedKey => rw [settled key concernedKey, found, Option.elim_none]
      · rfl
  | some row =>
      have concernedKey := relevant key row found
      rw [overlay_of_mem act listed.distinct ((listed.exact key row).mpr found)]
      unfold restrict
      rw [if_pos concernedKey, if_pos concernedKey, settled key concernedKey, found,
        Option.elim_some]

/-- Rows of a whole content lead there from nothing. -/
theorem Listed.whole [DecidableEq K] {act : E → Option V → Option V} {content : K → Option V}
    {row : V → E} (listed : Listed rows fun key => (content key).map row)
    (acts : ∀ value, act (row value) none = some value)
    : overlay act rows (fun _ => none) = content := by
  have everywhere (held : K → Option V) : restrict (fun _ => true) held = held := rfl
  rw [← everywhere fun _ => none, ← everywhere content]
  refine listed.leads (fun _ _ _ => rfl) fun key _ => ?_
  cases content key with
  | none => rfl
  | some value => exact (acts value).symm

/-- The entries of a map, one row each. -/
theorem Assoc.listed [DecidableEq K] (map : Assoc K V) (row : V → E)
    : Listed (map.toPairs.map fun entry => (entry.1, row entry.2))
        fun key => (map.get? key).map row := by
  constructor
  · have names : (map.toPairs.map fun entry => (entry.1, row entry.2)).map Prod.fst = map.keys := by
      simp [Assoc.toPairs, Assoc.keys, Function.comp_def]
    rw [names]
    exact map.nodup_keys
  · intro key value
    simp only [List.mem_map, Prod.mk.injEq, Prod.exists, Option.map_eq_some_iff, Assoc.mem_toPairs]
    constructor
    · rintro ⟨name, held, found, rfl, rfl⟩
      exact ⟨held, found, rfl⟩
    · rintro ⟨held, found, rfl⟩
      exact ⟨key, held, found, rfl, rfl⟩

/-- The single row of one concerned key, or none. -/
theorem Listed.point [DecidableEq K] {concerned : K → Bool} {target : K}
    (only : ∀ key, concerned key = true ↔ key = target) (content : K → Option V) (row : V → E)
    : Listed ((content target).toList.map fun value => (target, row value))
        fun key => (restrict concerned content key).map row := by
  constructor
  · cases content target <;> simp
  · intro key value
    simp only [restrict, List.mem_map, Option.mem_toList, Prod.mk.injEq]
    constructor
    · rintro ⟨held, found, rfl, rfl⟩
      rw [if_pos ((only target).mpr rfl), found, Option.map_some]
    · split
      next relevant =>
        rw [(only key).mp relevant, Option.map_eq_some_iff]
        rintro ⟨held, found, rfl⟩
        exact ⟨held, found, rfl, rfl⟩
      · nofun

namespace Copy

def base (copy : Copy K V) (reset : Bool) : K → Option V :=
  copy.draft.getD (if reset then fun _ => none else copy.content)

variable [DecidableEq K]

def take (act : E → Option V → Option V) (copy : Copy K V) (page : Page K E) : Copy K V :=
  let filled := overlay act page.rows (copy.base page.reset)
  if page.complete then { content := filled } else { copy with draft := some filled }

def play (act : E → Option V → Option V) (format : Format R K E) (held : K → Option V)
    (sent : List (Sent R))
    : Copy K V :=
  sent.foldl (fun copy item => copy.take act (format.page item.reply)) { content := held }

theorem play_append_singleton (act : E → Option V → Option V) (format : Format R K E)
    (held : K → Option V) (sent : List (Sent R)) (item : Sent R)
    : play act format held (sent ++ [item])
      = (play act format held sent).take act (format.page item.reply) := by
  simp [play, List.foldl_append]

end Copy

/-- The version a subscriber knows: the last one named, or the one it came with. -/
def position (format : Format R K E) (start : Option Nat) (sent : List (Sent R)) : Option Nat :=
  sent.foldl (fun last item => (format.stamp item.reply).or last) start

theorem position_append_singleton (format : Format R K E) (start : Option Nat)
    (sent : List (Sent R)) (item : Sent R)
    : position format start (sent ++ [item])
      = (format.stamp item.reply).or (position format start sent) := by
  simp [position, List.foldl_append]

-- What was sent, and what is being sent

/-- A subscriber that came with a version holds the content at it. -/
def Starts (timeline : List (Commit K V)) (concerned : K → Bool) (start : Option Nat)
    (held : K → Option V)
    : Prop :=
  ∀ version, start = some version → held = restrict concerned (Timeline.contentAt timeline version)

section

variable [DecidableEq K] (act : E → Option V → Option V) (format : Format R K E)
  (timeline : List (Commit K V)) (concerned : K → Bool) (start : Option Nat)

/-- Everything that was sent follows the timeline: whenever a batch became visible, the copy
was the content at the version named; versions do not decrease; and no batch of changes leads
across a replacement of the whole content.
-/
structure Follows (sent : List (Sent R)) : Prop where
  within : ∀ item ∈ sent, item.through ≤ Timeline.version timeline
  stamped
    : ∀ item ∈ sent, format.stamp item.reply
        = if (format.page item.reply).complete then some item.through else none
  ordered : sent.Pairwise fun left right => left.through ≤ right.through
  patched
    : ∀ before item after, sent = before ++ item :: after → (format.page item.reply).reset = false
      → ∃ base, position format start before = some base ∧ base ≤ item.through
          ∧ Timeline.Patched timeline base item.through
  exact
    : ∀ before item after, sent = before ++ item :: after → (format.page item.reply).complete = true
      → ∀ held, Starts timeline concerned start held
      → (Copy.play act format held (before ++ [item])).content
        = restrict concerned (Timeline.contentAt timeline item.through)

structure Reached (sent : List (Sent R)) (version : Nat) : Prop where
  within : version ≤ Timeline.version timeline
  newest : ∀ item ∈ sent, item.through ≤ version
  known : position format start sent = some version
  copy
    : ∀ held, Starts timeline concerned start held → Copy.play act format held sent
        = { content := restrict concerned (Timeline.contentAt timeline version) }

/-- Within a batch that leads to `through`: the remaining rows complete the copy. -/
structure Underway (sent : List (Sent R)) (reset : Bool) (rows : List (K × E)) (through : Nat)
    : Prop where
  within : through ≤ Timeline.version timeline
  newest : ∀ item ∈ sent, item.through ≤ through
  patched
    : reset = false → ∃ base, position format start sent = some base ∧ base ≤ through
          ∧ Timeline.Patched timeline base through
  owed
    : ∀ held, Starts timeline concerned start held
      → overlay act rows ((Copy.play act format held sent).base reset)
        = restrict concerned (Timeline.contentAt timeline through)

end

variable [DecidableEq K] {act : E → Option V → Option V} {format : Format R K E}
  {timeline : List (Commit K V)} {concerned : K → Bool} {start : Option Nat}
  {sent : List (Sent R)}

theorem Follows.nil : Follows act format timeline concerned start [] := by
  refine ⟨by simp, by simp, .nil, ?_, ?_⟩ <;> simp

variable {through : Nat}

/-- A batch of the whole content. -/
theorem Underway.fresh (within : through ≤ Timeline.version timeline)
    (whole : overlay act rows (fun _ => none)
      = restrict concerned (Timeline.contentAt timeline through))
    : Underway act format timeline concerned start [] true rows through :=
  ⟨within, by simp, by simp, fun _ _ => whole⟩

/-- A batch of changes for a subscriber that came with a version. -/
theorem Underway.resumed {since : Nat} (came : start = some since) (ordered : since ≤ through)
    (within : through ≤ Timeline.version timeline)
    (patched : Timeline.Patched timeline since through)
    (leads : overlay act rows (restrict concerned (Timeline.contentAt timeline since))
      = restrict concerned (Timeline.contentAt timeline through))
    : Underway act format timeline concerned start [] false rows through := by
  refine ⟨within, by simp, fun _ => ⟨since, came, ordered, patched⟩, fun held starts => ?_⟩
  rw [← leads, ← starts since came]
  rfl

/-- A batch of changes after a complete one. -/
theorem Reached.continued {version : Nat}
    (reached : Reached act format timeline concerned start sent version)
    (ordered : version ≤ through) (within : through ≤ Timeline.version timeline)
    (patched : Timeline.Patched timeline version through)
    (leads : overlay act rows (restrict concerned (Timeline.contentAt timeline version))
      = restrict concerned (Timeline.contentAt timeline through))
    : Underway act format timeline concerned start sent false rows through := by
  refine ⟨within, fun item member => Nat.le_trans (reached.newest item member) ordered,
    fun _ => ⟨version, reached.known, ordered, patched⟩, fun held starts => ?_⟩
  rw [reached.copy held starts, ← leads]
  rfl

section

variable {reset : Bool} {rows rest : List (K × E)} {through : Nat} {item : Sent R}

/-- A page that is not the last one takes its rows from those that remained. -/
theorem Underway.page
    (underway : Underway act format timeline concerned start sent reset rows through)
    (mode : (format.page item.reply).reset = reset) (reaches : item.through = through)
    (taken : rows = (format.page item.reply).rows ++ rest)
    (isOpen : (format.page item.reply).complete = false)
    (unnamed : format.stamp item.reply = none)
    : Underway act format timeline concerned start (sent ++ [item]) reset rest through := by
  refine ⟨underway.within, ?_, ?_, ?_⟩
  · intro other member
    rcases List.mem_append.mp member with old | new
    · exact underway.newest other old
    · rw [List.mem_singleton.mp new]
      exact Nat.le_of_eq reaches
  · rw [position_append_singleton, unnamed, Option.none_or]
    exact underway.patched
  · intro held starts
    have owed := underway.owed held starts
    rw [taken, overlay_append] at owed
    rw [Copy.play_append_singleton, Copy.take, isOpen, mode]
    exact owed

/-- The last page completes the copy. -/
theorem Underway.last
    (underway : Underway act format timeline concerned start sent reset rows through)
    (mode : (format.page item.reply).reset = reset) (reaches : item.through = through)
    (taken : rows = (format.page item.reply).rows)
    (isLast : (format.page item.reply).complete = true)
    (named : format.stamp item.reply = some through)
    : Reached act format timeline concerned start (sent ++ [item]) through := by
  refine ⟨underway.within, ?_, ?_, ?_⟩
  · intro other member
    rcases List.mem_append.mp member with old | new
    · exact underway.newest other old
    · rw [List.mem_singleton.mp new]
      exact Nat.le_of_eq reaches
  · rw [position_append_singleton, named, Option.some_or]
  · intro held starts
    have owed := underway.owed held starts
    rw [taken] at owed
    rw [Copy.play_append_singleton, Copy.take, isLast, mode, ← owed]
    rfl

/-- A page of the batch under way extends what was sent. Witness: a split of the longer list
ends either at the new page or inside the old list.
-/
theorem Follows.page (follows : Follows act format timeline concerned start sent)
    (underway : Underway act format timeline concerned start sent reset rows through)
    (mode : (format.page item.reply).reset = reset) (reaches : item.through = through)
    (taken : rows = (format.page item.reply).rows ++ rest)
    (exhausted : (format.page item.reply).complete = true → rest = [])
    (named : format.stamp item.reply
      = if (format.page item.reply).complete then some through else none)
    : Follows act format timeline concerned start (sent ++ [item]) := by
  have split {before after : List (Sent R)} {other : Sent R}
      (whole : sent ++ [item] = before ++ other :: after)
      : (before = sent ∧ other = item) ∨ ∃ shorter, sent = before ++ other :: shorter := by
    rcases List.eq_nil_or_concat after with none | ⟨shorter, last, same⟩
    · subst none
      have equal := List.append_inj_left' whole rfl
      have tail := List.append_inj_right' whole rfl
      simp only [List.cons.injEq, and_true] at tail
      exact .inl ⟨equal.symm, tail.symm⟩
    · subst same
      rw [List.concat_eq_append, ← List.cons_append, ← List.append_assoc] at whole
      exact .inr ⟨shorter, List.append_inj_left' whole rfl⟩
  constructor
  · intro other member
    rcases List.mem_append.mp member with old | new
    · exact follows.within other old
    · rw [List.mem_singleton.mp new, reaches]
      exact underway.within
  · intro other member
    rcases List.mem_append.mp member with old | new
    · exact follows.stamped other old
    · rw [List.mem_singleton.mp new, reaches]
      exact named
  · refine List.pairwise_append.mpr ⟨follows.ordered, List.pairwise_singleton _ _, ?_⟩
    intro other old new isNew
    rw [List.mem_singleton.mp isNew, reaches]
    exact underway.newest other old
  · intro before other after whole apply
    rcases split whole with ⟨rfl, rfl⟩ | ⟨shorter, inside⟩
    · rw [reaches]
      exact underway.patched (mode ▸ apply)
    · exact follows.patched before other shorter inside apply
  · intro before other after whole complete held starts
    rcases split whole with ⟨rfl, rfl⟩ | ⟨shorter, inside⟩
    · rw [exhausted complete, List.append_nil] at taken
      rw [complete, if_pos rfl] at named
      have reached := underway.last mode reaches taken complete named
      rw [reached.copy held starts, reaches]
    · exact follows.exact before other shorter inside complete held starts

end

-- Newer commits

section

variable {past : List (Commit K V)}

/-- A known start stays what it was when commits are added. -/
theorem Starts.of_suffix {held : K → Option V} (valid : Timeline.Valid timeline)
    (rooted : Timeline.Rooted timeline) (suffix : past <:+ timeline)
    (known : ∀ version, start = some version → version ≤ Timeline.version past)
    (starts : Starts timeline concerned start held)
    : Starts past concerned start held := by
  intro version came
  rw [starts version came, Timeline.contentAt_of_suffix valid rooted suffix (known version came)]

theorem Follows.grow (follows : Follows act format past concerned start sent)
    (valid : Timeline.Valid timeline) (rooted : Timeline.Rooted timeline)
    (suffix : past <:+ timeline) (longer : Timeline.version past ≤ Timeline.version timeline)
    (known : sent ≠ [] → ∀ version, start = some version → version ≤ Timeline.version past)
    : Follows act format timeline concerned start sent := by
  have inside {before after : List (Sent R)} {item : Sent R}
      (whole : sent = before ++ item :: after)
      : item.through ≤ Timeline.version past :=
    follows.within item (by rw [whole]; simp)
  constructor
  · intro item member
    exact Nat.le_trans (follows.within item member) longer
  · exact follows.stamped
  · exact follows.ordered
  · intro before item after whole apply
    obtain ⟨base, at', ordered, patched⟩ := follows.patched before item after whole apply
    exact ⟨base, at', ordered, Timeline.patched_of_suffix valid suffix (inside whole) patched⟩
  · intro before item after whole complete held starts
    rw [Timeline.contentAt_of_suffix valid rooted suffix (inside whole)]
    have notEmpty : sent ≠ [] := by simp [whole]
    exact follows.exact before item after whole complete held
      (starts.of_suffix valid rooted suffix (known notEmpty))

theorem Reached.grow {version : Nat}
    (reached : Reached act format past concerned start sent version)
    (valid : Timeline.Valid timeline) (rooted : Timeline.Rooted timeline)
    (suffix : past <:+ timeline) (longer : Timeline.version past ≤ Timeline.version timeline)
    (known : ∀ version, start = some version → version ≤ Timeline.version past)
    : Reached act format timeline concerned start sent version := by
  refine ⟨Nat.le_trans reached.within longer, reached.newest, reached.known, fun held starts => ?_⟩
  rw [Timeline.contentAt_of_suffix valid rooted suffix reached.within]
  exact reached.copy held (starts.of_suffix valid rooted suffix known)

theorem Underway.grow {reset : Bool} {rows : List (K × E)} {through : Nat}
    (underway : Underway act format past concerned start sent reset rows through)
    (valid : Timeline.Valid timeline) (rooted : Timeline.Rooted timeline)
    (suffix : past <:+ timeline) (longer : Timeline.version past ≤ Timeline.version timeline)
    (known : ∀ version, start = some version → version ≤ Timeline.version past)
    : Underway act format timeline concerned start sent reset rows through := by
  refine ⟨Nat.le_trans underway.within longer, underway.newest, ?_, fun held starts => ?_⟩
  · intro apply
    obtain ⟨base, at', ordered, patched⟩ := underway.patched apply
    exact ⟨base, at', ordered, Timeline.patched_of_suffix valid suffix underway.within patched⟩
  · rw [Timeline.contentAt_of_suffix valid rooted suffix underway.within]
    exact underway.owed held (starts.of_suffix valid rooted suffix known)

end

end Support
