import Mathlib

/-! A log of entries, each of which gives one key a value or takes it, and a mirror of the content
that it leads to. The mirror has confirmed a prefix of the log and is known to be further for
single keys: what arrives in order, what is repaired out of order and what is installed for many
keys at once each move it on in their own way.
-/

namespace Support

universe u v

variable {K : Type u} {V : Type v}

structure Entry (K : Type u) (V : Type v) where
  key : K
  value : Option V

variable [DecidableEq K]

def contentAfter (log : List (Entry K V)) (position : Nat) : K → Option V :=
  (log.take position).foldl
    (fun content entry => Function.update content entry.key entry.value) fun _ => none

variable {log more : List (Entry K V)} {position : Nat}

/-- What is appended changes nothing before it. -/
theorem contentAfter_append (within : position ≤ log.length)
    : contentAfter (log ++ more) position = contentAfter log position := by
  rw [contentAfter, contentAfter, List.take_append_of_le_length within]

/-- One more entry. -/
theorem contentAfter_succ {entry : Entry K V} (isEntry : log[position]? = some entry)
    : contentAfter log (position + 1)
      = Function.update (contentAfter log position) entry.key entry.value := by
  rw [contentAfter, List.take_add_one, isEntry, Option.toList_some, List.foldl_append]
  rfl

/-- The whole content after one more entry. -/
theorem contentAfter_concat (entry : Entry K V)
    : contentAfter (log ++ [entry]) (log.length + 1)
      = Function.update (contentAfter log log.length) entry.key entry.value := by
  rw [@contentAfter_succ _ _ _ (log ++ [entry]) log.length entry (by simp), contentAfter_append le_rfl]

variable {key : K}

/-- A content that is there comes from an entry. Witness: induction over the position. -/
theorem exists_of_contentAfter {value : V} (found : contentAfter log position key = some value)
    : ∃ entry ∈ log, entry.key = key ∧ entry.value = some value := by
  induction position with
  | zero => cases found
  | succ position ih =>
      cases isEntry : log[position]? with
      | none =>
          have short : log.length ≤ position := List.getElem?_eq_none_iff.mp isEntry
          rw [contentAfter, List.take_of_length_le (Nat.le_succ_of_le short)] at found
          rw [contentAfter, List.take_of_length_le short] at ih
          exact ih found
      | some entry =>
          rw [contentAfter_succ isEntry, Function.update_apply] at found
          split at found
          next same => exact ⟨entry, List.mem_of_getElem? isEntry, same.symm, found⟩
          · exact ih found

/-- Where nothing is ever taken, what is there stays there. Witness: induction over the distance. -/
theorem contentAfter_isSome {later : Nat} (lasting : ∀ entry ∈ log, entry.value.isSome)
    (found : (contentAfter log position key).isSome = true) (onwards : position ≤ later)
    : (contentAfter log later key).isSome = true := by
  induction later, onwards using Nat.le_induction with
  | base => exact found
  | succ later _ ih =>
      cases isEntry : log[later]? with
      | none =>
          have short : log.length ≤ later := List.getElem?_eq_none_iff.mp isEntry
          rw [contentAfter, List.take_of_length_le (Nat.le_succ_of_le short)]
          rw [contentAfter, List.take_of_length_le short] at ih
          exact ih
      | some entry =>
          rw [contentAfter_succ isEntry, Function.update_apply]
          split
          · exact lasting entry (List.mem_of_getElem? isEntry)
          · exact ih

-- Mirrors

/-- A mirror holds, up to a relation, what each key had where it was confirmed or covered. -/
structure Mirrors (related : Option V → Option V → Prop) (log : List (Entry K V))
    (confirmed : Nat) (covered : K → Nat) (held : K → Option V)
    : Prop where
  reached : confirmed ≤ log.length
  bounded : ∀ key, covered key ≤ log.length
  equal : ∀ key, related (contentAfter log (max confirmed (covered key)) key) (held key)

namespace Mirrors

variable {related other : Option V → Option V → Prop} {confirmed : Nat} {covered : K → Nat}
  {held : K → Option V}

/-- Nothing is known of an empty prefix. -/
theorem empty (same : related none none) : Mirrors related log 0 (fun _ => 0) (fun _ => none) where
  reached := Nat.zero_le _
  bounded _ := Nat.zero_le _
  equal _ := same

/-- The log goes on. -/
theorem append (mirrors : Mirrors related log confirmed covered held)
    : Mirrors related (log ++ more) confirmed covered held where
  reached := mirrors.reached.trans (by simp)
  bounded key := (mirrors.bounded key).trans (by simp)
  equal key := by
    rw [contentAfter_append (max_le mirrors.reached (mirrors.bounded key))]
    exact mirrors.equal key

/-- What is held changes within the relation. -/
theorem fade (mirrors : Mirrors related log confirmed covered held) {later : K → Option V}
    (fades : ∀ key truth, related truth (held key) → other truth (later key))
    : Mirrors other log confirmed covered later :=
  { mirrors with equal := fun key => fades key _ (mirrors.equal key) }

/-- The position of one key that an entry of another key does not move. -/
theorem content_of_other {entry : Entry K V} (isEntry : log[confirmed]? = some entry) {key : K}
    (differs : key ≠ entry.key)
    : contentAfter log (max (confirmed + 1) (covered key)) key
      = contentAfter log (max confirmed (covered key)) key := by
  rcases Nat.lt_or_ge confirmed (covered key) with further | level
  · rw [max_eq_right further, max_eq_right (Nat.le_of_lt further)]
  · rw [max_eq_left (Nat.le_succ_of_le level), max_eq_left level, contentAfter_succ isEntry,
      Function.update_of_ne differs]

/-- The next entry arrives, and its key is not known to be further. -/
theorem next (mirrors : Mirrors related log confirmed covered held) {entry : Entry K V}
    (isEntry : log[confirmed]? = some entry) {value : Option V}
    (isValue : related entry.value value) (unknown : covered entry.key ≤ confirmed)
    {left : K → Nat} (passed : ∀ key, max (confirmed + 1) (left key)
      = max (confirmed + 1) (covered key))
    (least : ∀ key, left key ≤ covered key)
    : Mirrors related log (confirmed + 1) left (Function.update held entry.key value) where
  reached := List.getElem?_eq_some_iff.mp isEntry |>.1
  bounded key := (least key).trans (mirrors.bounded key)
  equal key := by
    rw [passed, Function.update_apply]
    split
    next same =>
      rw [same, max_eq_left (Nat.le_succ_of_le unknown), contentAfter_succ isEntry,
        Function.update_self]
      exact isValue
    rename_i differs
    rw [content_of_other isEntry differs]
    exact mirrors.equal key

/-- The next entry arrives, and its key is known to be at least that far. -/
theorem skip (mirrors : Mirrors related log confirmed covered held) {entry : Entry K V}
    (isEntry : log[confirmed]? = some entry) (known : confirmed + 1 ≤ covered entry.key)
    {left : K → Nat} (passed : ∀ key, max (confirmed + 1) (left key)
      = max (confirmed + 1) (covered key))
    (least : ∀ key, left key ≤ covered key)
    : Mirrors related log (confirmed + 1) left held where
  reached := List.getElem?_eq_some_iff.mp isEntry |>.1
  bounded key := (least key).trans (mirrors.bounded key)
  equal key := by
    rw [passed]
    by_cases same : key = entry.key
    · have equal := mirrors.equal key
      rw [same] at equal ⊢
      rw [max_eq_right known]
      rw [max_eq_right (Nat.le_of_succ_le known)] at equal
      exact equal
    · rw [content_of_other isEntry same]
      exact mirrors.equal key

/-- Some keys are set to what they had at a position beyond what was confirmed. -/
theorem install (mirrors : Mirrors related log confirmed covered held) {place : Nat}
    (onwards : confirmed ≤ place) (within : place ≤ log.length) {chosen : K → Prop}
    [DecidablePred chosen] {values : K → Option V}
    (isValue : ∀ key, chosen key → related (contentAfter log place key) (values key))
    {marked : K → Nat} (marks : ∀ key, marked key = if chosen key then place else covered key)
    : Mirrors related log confirmed marked fun key =>
        if chosen key then values key else held key where
  reached := mirrors.reached
  bounded key := by
    rw [marks]
    split
    · exact within
    · exact mirrors.bounded key
  equal key := by
    rw [marks]
    split
    next isChosen =>
      rw [max_eq_right onwards]
      exact isValue key isChosen
    · exact mirrors.equal key

/-- The whole prefix up to a position is confirmed: no key is further, and those that are not known
to be as far have not changed.
-/
theorem finish (mirrors : Mirrors related log confirmed covered held) {place : Nat}
    (within : place ≤ log.length)
    (whole : ∀ key, max confirmed (covered key) = place
      ∨ contentAfter log place key = contentAfter log (max confirmed (covered key)) key)
    : Mirrors related log place (fun _ => 0) held where
  reached := within
  bounded _ := Nat.zero_le _
  equal key := by
    rw [Nat.max_zero]
    have equal := mirrors.equal key
    rcases whole key with same | same
    · rwa [same] at equal
    · rwa [← same] at equal

end Mirrors

end Support
