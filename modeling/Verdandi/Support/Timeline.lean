import Mathlib

/-! Versioned contents: a history of commits, newest first, in which a version has one
content and a patch advances the version by one and changes one key. Rows carry a content
from one version to another, whatever they do to a single value.
-/

namespace Support

universe u v w

variable {K : Type u} {V : Type v} {E : Type w}

-- Commits

/-- One commit: its version, the key and value it sets, or `none` where it replaces the
whole content, and the content it leaves.
-/
structure Commit (K : Type u) (V : Type v) where
  version : Nat
  change : Option (K × Option V)
  content : K → Option V

namespace Timeline

def version (timeline : List (Commit K V)) : Nat :=
  (timeline.head?.map Commit.version).getD 0

/-- The content at `version`; a version without a commit has none. -/
def contentAt (timeline : List (Commit K V)) (version : Nat) : K → Option V :=
  match timeline.find? (·.version = version) with
  | none => fun _ => none
  | some commit => commit.content

/-- No whole replacement lies in `(low, high]`. -/
def Patched (timeline : List (Commit K V)) (low high : Nat) : Prop :=
  ∀ commit ∈ timeline, low < commit.version → commit.version ≤ high → commit.change ≠ none

theorem version_cons (commit : Commit K V) (past : List (Commit K V))
    : version (commit :: past) = commit.version := rfl

/-- The newest content is the content at the newest version. -/
theorem contentAt_head (last : Commit K V) (past : List (Commit K V))
    : contentAt (last :: past) last.version = last.content := by
  simp [contentAt]

variable {last : Commit K V} {past : List (Commit K V)}

/-- A newer commit does not change what the content at an older version was. -/
theorem contentAt_cons {version : Nat} (older : last.version ≠ version)
    : contentAt (last :: past) version = contentAt past version := by
  simp [contentAt, older]

variable [DecidableEq K]

/-- Versions increase strictly, and a patch follows its predecessor without a gap and
changes one key of its content.
-/
def Valid : List (Commit K V) → Prop
  | [] => True
  | last :: past =>
      (∀ before ∈ past, before.version < last.version)
      ∧ (∀ key value, last.change = some (key, value)
          → ∃ before rest,
              past = before :: rest
              ∧ last.version = before.version + 1
              ∧ last.content = Function.update before.content key value)
      ∧ Valid past

variable {timeline : List (Commit K V)} {commit : Commit K V}

/-- Every commit is at or below the newest version. -/
theorem le_version (valid : Valid timeline) (member : commit ∈ timeline)
    : commit.version ≤ version timeline := by
  cases timeline with
  | nil => cases member
  | cons last past =>
      rcases List.mem_cons.mp member with same | older
      · exact Nat.le_of_eq (by rw [same, version_cons])
      · exact Nat.le_of_lt (valid.1 commit older)

/-- A commit does not lower the version. -/
theorem version_le_cons (valid : Valid (last :: past))
    : version past ≤ version (last :: past) := by
  cases past with
  | nil => exact Nat.zero_le _
  | cons before rest => exact Nat.le_of_lt (valid.1 before List.mem_cons_self)

/-- Versions descend along a timeline. Witness: induction over the commits. -/
theorem descending (valid : Valid timeline)
    : timeline.Pairwise fun left right => right.version < left.version := by
  induction timeline with
  | nil => exact List.Pairwise.nil
  | cons last past ih => exact List.pairwise_cons.mpr ⟨valid.1, ih valid.2.2⟩

/-- Without a patch of the key and without a replacement its value stays. Witness: induction
over the timeline; the newest patch's predecessor is at or above the older version.
-/
theorem contentAt_version_of_untouched (valid : Valid timeline)
    {since : Nat} (within : since ≤ version timeline)
    (patched : Patched timeline since (version timeline)) {key : K}
    (untouched : ∀ commit ∈ timeline, ∀ value, commit.change = some (key, value)
      → commit.version ≤ since)
    : contentAt timeline (version timeline) key = contentAt timeline since key := by
  induction timeline with
  | nil => rfl
  | cons last past ih =>
      rw [version_cons] at within patched ⊢
      rcases Nat.eq_or_lt_of_le within with same | above
      · rw [same]
      · have isPatch := patched last List.mem_cons_self above (Nat.le_refl _)
        obtain ⟨⟨changed, value⟩, change⟩ := Option.ne_none_iff_exists'.mp isPatch
        obtain ⟨before, rest, split, follows, content⟩ := valid.2.1 changed value change
        subst split
        have earlier : since ≤ version (before :: rest) := by
          rw [version_cons]
          omega
        have narrower : Patched (before :: rest) since (version (before :: rest)) := by
          intro commit member low high
          rw [version_cons] at high
          exact patched commit (List.mem_cons_of_mem _ member) low (by omega)
        have continued := ih valid.2.2 earlier narrower fun commit member =>
          untouched commit (List.mem_cons_of_mem _ member)
        have different : changed ≠ key := by
          rintro rfl
          have := untouched last List.mem_cons_self value change
          omega
        rw [contentAt_head, contentAt_cons (by omega), content,
          Function.update_of_ne (Ne.symm different), ← continued, version_cons, contentAt_head]

def Rooted (timeline : List (Commit K V)) : Prop :=
  ∀ commit ∈ timeline, commit.version = 0 → commit.content = fun _ => none

/-- An earlier state of a timeline is valid as well. Witness: induction over the newer
commits.
-/
theorem valid_of_suffix (valid : Valid timeline) (suffix : past <:+ timeline)
    : Valid past := by
  obtain ⟨newer, rfl⟩ := suffix
  induction newer with
  | nil => exact valid
  | cons last rest ih => exact ih valid.2.2

/-- Commits that an earlier state does not have are newer than all it has. -/
theorem newer_of_suffix {newer : List (Commit K V)} (valid : Valid (newer ++ past))
    (member : commit ∈ newer)
    : past = [] ∨ version past < commit.version := by
  cases past with
  | nil => exact .inl rfl
  | cons last rest =>
      have order := (List.pairwise_append.mp (descending valid)).2.2
      exact .inr (order commit member last List.mem_cons_self)

theorem version_le_of_suffix (valid : Valid timeline) (suffix : past <:+ timeline)
    : version past ≤ version timeline := by
  obtain ⟨newer, rfl⟩ := suffix
  induction newer with
  | nil => exact Nat.le_refl _
  | cons last rest ih => exact Nat.le_trans (ih valid.2.2) (version_le_cons valid)

/-- What the content at a version was does not depend on newer commits. -/
theorem contentAt_of_suffix (valid : Valid timeline) (rooted : Rooted timeline)
    (suffix : past <:+ timeline) {version : Nat} (within : version ≤ Timeline.version past)
    : contentAt timeline version = contentAt past version := by
  obtain ⟨newer, rfl⟩ := suffix
  induction newer with
  | nil => rfl
  | cons last rest ih =>
      by_cases same : last.version = version
      · -- Only version zero can be newer than an empty timeline, and it is empty itself.
        have isNewer : last ∈ last :: rest := List.mem_cons_self
        rcases newer_of_suffix valid isNewer with none | above
        · subst none
          have isZero : version = 0 := Nat.le_zero.mp within
          subst isZero
          rw [← same, List.cons_append, contentAt_head, rooted last (by simp) same]
          rfl
        · omega
      · rw [List.cons_append, contentAt_cons same]
        exact ih valid.2.2 fun commit member => rooted commit (List.mem_cons_of_mem _ member)

/-- Newer commits do not replace anything up to the version of an earlier state. -/
theorem patched_of_suffix (valid : Valid timeline) (suffix : past <:+ timeline) {low high : Nat}
    (within : high ≤ version past) (patched : Patched past low high)
    : Patched timeline low high := by
  obtain ⟨newer, rfl⟩ := suffix
  intro commit member above below
  rcases List.mem_append.mp member with isNewer | old
  · rcases newer_of_suffix valid isNewer with none | beyond
    · subst none
      have isZero : high = 0 := Nat.le_zero.mp within
      omega
    · omega
  · exact patched commit old above below

end Timeline

-- Rows

variable [DecidableEq K]

def overlay (act : E → Option V → Option V) (rows : List (K × E)) (content : K → Option V)
    : K → Option V :=
  rows.foldl (fun current row => Function.update current row.1 (act row.2 (current row.1))) content

@[simp]
theorem overlay_nil (act : E → Option V → Option V) (content : K → Option V)
    : overlay act [] content = content := rfl

theorem overlay_cons (act : E → Option V → Option V) (row : K × E) (rows : List (K × E))
    (content : K → Option V)
    : overlay act (row :: rows) content
      = overlay act rows (Function.update content row.1 (act row.2 (content row.1))) := rfl

theorem overlay_append (act : E → Option V → Option V) (first second : List (K × E))
    (content : K → Option V)
    : overlay act (first ++ second) content = overlay act second (overlay act first content) := by
  simp [overlay, List.foldl_append]

variable {rows : List (K × E)} {content : K → Option V} {key : K}

/-- A key without a row keeps its value. -/
theorem overlay_of_notMem (act : E → Option V → Option V) (absent : key ∉ rows.map Prod.fst)
    : overlay act rows content key = content key := by
  induction rows generalizing content with
  | nil => rfl
  | cons row rest ih =>
      simp only [List.map_cons, List.mem_cons, not_or] at absent
      rw [overlay_cons, ih absent.2, Function.update_of_ne absent.1]

/-- With one row for each key, a key's row acts on its original value. Witness: induction
over the rows; the rows after the key's own one leave it alone.
-/
theorem overlay_of_mem (act : E → Option V → Option V) {row : E}
    (distinct : (rows.map Prod.fst).Nodup) (member : (key, row) ∈ rows)
    : overlay act rows content key = act row (content key) := by
  induction rows generalizing content with
  | nil => cases member
  | cons first rest ih =>
      rw [List.map_cons, List.nodup_cons] at distinct
      rw [overlay_cons]
      rcases List.mem_cons.mp member with same | later
      · subst same
        rw [overlay_of_notMem act distinct.1, Function.update_self]
      · have different : key ≠ first.1 := by
          rintro rfl
          exact distinct.1 (List.mem_map.mpr ⟨_, later, rfl⟩)
        rw [ih distinct.2 later, Function.update_of_ne different]

end Support
