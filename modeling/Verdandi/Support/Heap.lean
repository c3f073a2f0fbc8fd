import Mathlib

/-! Binary heaps in a list: the children of a place are at twice the place plus one and plus two, and
no item is less than its parent. One item that is out of place goes up or down until it is not.
-/

namespace Support.Heap

universe u v

variable {A : Type u} {K : Type v} [LinearOrder K]

def parent (place : Nat) : Nat := (place - 1) / 2

variable {place : Nat}

theorem parent_lt (positive : 0 < place) : parent place < place := by
  unfold parent
  omega

def rank (key : A → K) (items : List A) (place : Nat) : WithTop K :=
  items[place]?.elim ⊤ fun item => (key item : WithTop K)

def swap (items : List A) (one other : Nat) : List A :=
  match items[one]?, items[other]? with
  | some first, some second => (items.set one second).set other first
  | _, _ => items

def Ordered (key : A → K) (items : List A) : Prop :=
  ∀ place, 0 < place → rank key items (parent place) ≤ rank key items place

def siftUp (key : A → K) : Nat → List A → Nat → List A
  | 0, items, _ => items
  | fuel + 1, items, place =>
      if 0 < place ∧ rank key items place < rank key items (parent place) then
        siftUp key fuel (swap items place (parent place)) (parent place)
      else
        items

def lesser (key : A → K) (items : List A) (place : Nat) : Nat :=
  if rank key items (2 * place + 2) < rank key items (2 * place + 1) then
    2 * place + 2
  else
    2 * place + 1

def siftDown (key : A → K) : Nat → List A → Nat → List A
  | 0, items, _ => items
  | fuel + 1, items, place =>
      if rank key items (lesser key items place) < rank key items place then
        siftDown key fuel (swap items (lesser key items place) place) (lesser key items place)
      else
        items

variable {key : A → K} {items : List A}

-- Exchanges

omit [LinearOrder K] in
theorem rank_of_lt (inside : place < items.length)
    : rank key items place = (key items[place] : WithTop K) := by
  simp [rank, inside]

omit [LinearOrder K] in
theorem rank_of_le (outside : items.length ≤ place)
    : rank key items place = ⊤ := by
  simp [rank, outside]

variable {other : Nat}

theorem lt_length_of_rank_lt (less : rank key items place < rank key items other)
    : place < items.length := by
  by_contra outside
  rw [rank_of_le (Nat.le_of_not_lt outside)] at less
  exact not_top_lt less

@[simp]
theorem length_swap (items : List A) (one other : Nat)
    : (swap items one other).length = items.length := by
  unfold swap
  split
  · simp
  · rfl

theorem swap_perm (items : List A) (one other : Nat) : (swap items one other).Perm items := by
  unfold swap
  split
  next first second here there =>
    obtain ⟨inside, rfl⟩ := List.getElem?_eq_some_iff.mp here
    obtain ⟨within, rfl⟩ := List.getElem?_eq_some_iff.mp there
    exact List.set_set_perm inside within
  · exact List.Perm.refl _

variable {one : Nat}

theorem getElem?_swap (inside : one < items.length) (within : other < items.length) (place : Nat)
    : (swap items one other)[place]?
      = if place = other then items[one]? else if place = one then items[other]?
        else items[place]? := by
  unfold swap
  rw [List.getElem?_eq_getElem inside, List.getElem?_eq_getElem within]
  simp only [List.getElem?_set, List.length_set]
  rcases eq_or_ne other place with rfl | last
  · simp [within]
  · rw [if_neg last, if_neg last.symm]
    rcases eq_or_ne one place with rfl | first
    · simp [inside]
    · rw [if_neg first, if_neg first.symm]

omit [LinearOrder K] in
theorem rank_swap (key : A → K) (inside : one < items.length) (within : other < items.length)
    (place : Nat)
    : rank key (swap items one other) place
      = if place = other then rank key items one else if place = one then rank key items other
        else rank key items place := by
  unfold rank
  rw [getElem?_swap inside within]
  split
  · rfl
  · split
    · rfl
    · rfl

-- One item out of place

/-- The first item is the least. -/
theorem Ordered.root_le (ordered : Ordered key items) (place : Nat)
    : rank key items 0 ≤ rank key items place := by
  induction place using Nat.strong_induction_on with
  | h place ih =>
      rcases Nat.eq_zero_or_pos place with zero | positive
      · exact le_of_eq (by rw [zero])
      · exact le_trans (ih _ (parent_lt positive)) (ordered place positive)

/-- All is in order but what touches one place, and its neighbours are in order among
themselves.
-/
structure Around (key : A → K) (items : List A) (hole : Nat) : Prop where
  apart
    : ∀ place, 0 < place → place ≠ hole → parent place ≠ hole →
          rank key items (parent place) ≤ rank key items place
  bridge
    : 0 < hole → ∀ child, 0 < child → parent child = hole →
        rank key items (parent hole) ≤ rank key items child

def Below (key : A → K) (items : List A) (hole : Nat) : Prop :=
  ∀ child, 0 < child → parent child = hole → rank key items hole ≤ rank key items child

def Above (key : A → K) (items : List A) (hole : Nat) : Prop :=
  0 < hole → rank key items (parent hole) ≤ rank key items hole

variable {hole : Nat}

theorem Around.ordered (around : Around key items hole) (below : Below key items hole)
    (above : Above key items hole)
    : Ordered key items := by
  intro place positive
  by_cases same : place = hole
  · subst same
    exact above positive
  · by_cases child : parent place = hole
    · rw [child]
      exact below place positive child
    · exact around.apart place positive same child

/-- Rising keeps all in order but the item. -/
theorem Around.rise (around : Around key items hole) (below : Below key items hole)
    (inside : hole < items.length) (positive : 0 < hole)
    (less : rank key items hole < rank key items (parent hole))
    : Around key (swap items hole (parent hole)) (parent hole)
      ∧ Below key (swap items hole (parent hole)) (parent hole) := by
  have lower := parent_lt positive
  have within : parent hole < items.length := lower.trans inside
  have value := rank_swap key inside within
  have sibling {place : Nat} (higher : 0 < place) (other : place ≠ hole)
      (child : parent place = parent hole)
      : rank key items (parent hole) ≤ rank key items place := by
    have differ : parent place ≠ hole := by omega
    rw [← child]
    exact around.apart place higher other differ
  refine ⟨⟨?_, ?_⟩, ?_⟩
  · intro place higher other foreign
    rw [value, value, if_neg foreign, if_neg other]
    by_cases same : place = hole
    · subst same
      exact absurd rfl foreign
    · rw [if_neg same]
      split
      next child => exact around.bridge positive place higher child
      next child => exact around.apart place higher same child
  · intro above child higher under
    have further := parent_lt above
    rw [value, value, if_neg (by omega), if_neg (by omega), if_neg (by
      have := parent_lt higher
      omega)]
    split
    next same =>
      subst same
      exact around.apart _ above (by omega) (by omega)
    rename_i same
    exact le_trans (around.apart _ above (by omega) (by omega)) (sibling higher same under)
  · intro child higher under
    rw [value, value, if_pos rfl, if_neg (by
      have := parent_lt higher
      omega)]
    split
    · exact le_of_lt less
    next same => exact le_of_lt (lt_of_lt_of_le less (sibling higher same under))

variable {fuel : Nat}

/-- An item that rises as far as it can ends in order. Witness: induction on the fuel, of which the
place is enough.
-/
theorem siftUp_ordered (around : Around key items hole) (below : Below key items hole)
    (inside : hole < items.length) (enough : hole ≤ fuel)
    : Ordered key (siftUp key fuel items hole) := by
  induction fuel generalizing items hole with
  | zero =>
      have zero : hole = 0 := by omega
      exact around.ordered below fun positive => absurd positive (by omega)
  | succ fuel ih =>
      unfold siftUp
      split
      next rises =>
        obtain ⟨positive, less⟩ := rises
        obtain ⟨next, under⟩ := around.rise below inside positive less
        have lower := parent_lt positive
        exact ih next under (by rw [length_swap]; omega) (by omega)
      rename_i stays
      apply around.ordered below
      intro positive
      exact le_of_not_gt fun less => stays ⟨positive, less⟩

theorem siftUp_perm (fuel : Nat) (items : List A) (hole : Nat)
    : (siftUp key fuel items hole).Perm items := by
  induction fuel generalizing items hole with
  | zero => exact List.Perm.refl _
  | succ fuel ih =>
      unfold siftUp
      split
      · exact (ih _ _).trans (swap_perm _ _ _)
      · exact List.Perm.refl _

theorem parent_lesser (key : A → K) (items : List A) (place : Nat)
    : parent (lesser key items place) = place ∧ 0 < lesser key items place := by
  unfold lesser parent
  split <;> omega

/-- No child is less than the lesser one. -/
theorem lesser_le {child : Nat} (positive : 0 < child) (under : parent child = place)
    : rank key items (lesser key items place) ≤ rank key items child := by
  have either : child = 2 * place + 1 ∨ child = 2 * place + 2 := by
    unfold parent at under
    omega
  unfold lesser
  split
  next right =>
    rcases either with rfl | rfl
    · exact le_of_lt right
    · exact le_rfl
  rename_i left
  rcases either with rfl | rfl
  · exact le_rfl
  · exact le_of_not_gt left

/-- An item above no child of its is in order below. -/
theorem below_of_lesser (stays : ¬ rank key items (lesser key items place) < rank key items place)
    : Below key items place :=
  fun _ positive under => le_trans (le_of_not_gt stays) (lesser_le positive under)

/-- An item above a child of its is in order above. -/
theorem Around.above (around : Around key items hole)
    (sinks : rank key items (lesser key items hole) < rank key items hole)
    : Above key items hole := by
  intro positive
  obtain ⟨under, higher⟩ := parent_lesser key items hole
  exact le_of_lt (lt_of_le_of_lt (around.bridge positive _ higher under) sinks)

/-- Sinking keeps all in order but the item. -/
theorem Around.sink (around : Around key items hole) (inside : hole < items.length)
    (less : rank key items (lesser key items hole) < rank key items hole)
    : Around key (swap items (lesser key items hole) hole) (lesser key items hole)
      ∧ Above key (swap items (lesser key items hole) hole) (lesser key items hole) := by
  obtain ⟨under, higher⟩ := parent_lesser key items hole
  have above := around.above less
  have least (child : Nat) (positive : 0 < child) (below : parent child = hole)
      : rank key items (lesser key items hole) ≤ rank key items child :=
    lesser_le positive below
  have within : lesser key items hole < items.length := lt_length_of_rank_lt less
  generalize lesser key items hole = child at *
  have lower : hole < child := by
    have := parent_lt higher
    omega
  have value := rank_swap key within inside
  refine ⟨⟨?_, ?_⟩, ?_⟩
  · intro place positive other foreign
    rw [value, value, if_neg foreign, if_neg other]
    by_cases same : place = hole
    · subst same
      have further := parent_lt positive
      rw [if_pos rfl, if_neg (by omega)]
      exact around.bridge positive child higher under
    · rw [if_neg same]
      split
      next sibling => exact least place positive sibling
      next sibling => exact around.apart place positive same sibling
  · intro _ grand positive below
    rw [value, value, under, if_pos rfl, if_neg (by
      have := parent_lt positive
      omega), if_neg (by
      have := parent_lt positive
      omega)]
    have ordered := around.apart grand positive (by
      have := parent_lt positive
      omega) (by omega)
    rw [below] at ordered
    exact ordered
  · intro _
    rw [value, value, under, if_pos rfl, if_neg (by omega), if_pos rfl]
    exact le_of_lt less

/-- An item that sinks as far as it can ends in order. Witness: induction on the fuel, of which the
places behind the item are enough.
-/
theorem siftDown_ordered (around : Around key items hole) (above : Above key items hole)
    (inside : hole < items.length) (enough : items.length ≤ fuel + hole)
    : Ordered key (siftDown key fuel items hole) := by
  induction fuel generalizing items hole with
  | zero => omega
  | succ fuel ih =>
      unfold siftDown
      split
      next sinks =>
        obtain ⟨next, over'⟩ := around.sink inside sinks
        obtain ⟨under, higher⟩ := parent_lesser key items hole
        have lower := parent_lt higher
        have within := lt_length_of_rank_lt sinks
        exact ih next over' (by rw [length_swap]; exact within) (by rw [length_swap]; omega)
      next stays => exact around.ordered (below_of_lesser stays) above

theorem siftDown_perm (fuel : Nat) (items : List A) (hole : Nat)
    : (siftDown key fuel items hole).Perm items := by
  induction fuel generalizing items hole with
  | zero => exact List.Perm.refl _
  | succ fuel ih =>
      unfold siftDown
      split
      · exact (ih _ _).trans (swap_perm _ _ _)
      · exact List.Perm.refl _

-- One item more, less or changed

omit [LinearOrder K] in
theorem rank_set (inside : hole < items.length) (item : A) (place : Nat)
    : rank key (items.set hole item) place
      = if place = hole then (key item : WithTop K) else rank key items place := by
  unfold rank
  rw [List.getElem?_set]
  rcases eq_or_ne hole place with rfl | differ
  · simp [inside]
  · rw [if_neg differ, if_neg differ.symm]

omit [LinearOrder K] in
theorem rank_take (count place : Nat)
    : rank key (items.take count) place = if place < count then rank key items place else ⊤ := by
  unfold rank
  rw [List.getElem?_take]
  split
  · rfl
  · rfl

omit [LinearOrder K] in
theorem rank_push (item : A) (place : Nat)
    : rank key (items ++ [item]) place
      = if place = items.length then (key item : WithTop K) else rank key items place := by
  unfold rank
  rw [List.getElem?_append]
  split
  next before => rw [if_neg (Nat.ne_of_lt before)]
  rename_i behind
  split
  next last => simp [last]
  rename_i past
  have beyond : items.length ≤ place := Nat.le_of_not_lt behind
  rw [List.getElem?_eq_none beyond, List.getElem?_eq_none (by simp; omega)]

/-- A change of one item leaves the others in order. -/
theorem Ordered.set {hole : Nat} (ordered : Ordered key items) (inside : hole < items.length)
    (item : A)
    : Around key (items.set hole item) hole where
  apart place positive other foreign := by
    rw [rank_set inside, rank_set inside, if_neg foreign, if_neg other]
    exact ordered place positive
  bridge positive child higher under := by
    have lower := parent_lt positive
    have above := parent_lt higher
    rw [rank_set inside, rank_set inside, if_neg (by omega), if_neg (by omega)]
    exact le_trans (ordered hole positive) (under ▸ ordered child higher)

variable {item : A}

/-- A lesser item may rise. -/
theorem Ordered.below_set (ordered : Ordered key items) (inside : hole < items.length)
    (less : key item ≤ key items[hole])
    : Below key (items.set hole item) hole := by
  intro child positive under
  have above := parent_lt positive
  rw [rank_set inside, rank_set inside, if_pos rfl, if_neg (by omega)]
  have old := ordered child positive
  rw [under, rank_of_lt inside] at old
  exact le_trans (WithTop.coe_le_coe.mpr less) old

/-- A greater item may sink. -/
theorem Ordered.above_set (ordered : Ordered key items) (inside : hole < items.length)
    (more : key items[hole] ≤ key item)
    : Above key (items.set hole item) hole := by
  intro positive
  have lower := parent_lt positive
  rw [rank_set inside, rank_set inside, if_pos rfl, if_neg (by omega)]
  have old := ordered hole positive
  rw [rank_of_lt inside] at old
  exact le_trans old (WithTop.coe_le_coe.mpr more)

theorem Ordered.push (ordered : Ordered key items) (item : A)
    : Around key (items ++ [item]) items.length ∧ Below key (items ++ [item]) items.length := by
  have beyond {child : Nat} (positive : 0 < child) (under : parent child = items.length)
      : rank key (items ++ [item]) child = ⊤ := by
    have := parent_lt positive
    rw [rank_push, if_neg (by omega), rank_of_le (by omega)]
  refine ⟨⟨?_, ?_⟩, ?_⟩
  · intro place positive other foreign
    rw [rank_push, rank_push, if_neg foreign, if_neg other]
    exact ordered place positive
  · intro _ child positive under
    rw [beyond positive under]
    exact le_top
  · intro child positive under
    rw [beyond positive under]
    exact le_top

theorem Ordered.take (ordered : Ordered key items) (count : Nat)
    : Ordered key (items.take count) := by
  intro place positive
  have lower := parent_lt positive
  rw [rank_take, rank_take]
  split
  · split
    · exact ordered place positive
    · exact le_top
  · rw [if_neg (by omega)]

theorem Around.take {hole : Nat} (around : Around key items hole) (count : Nat)
    : Around key (items.take count) hole where
  apart place positive other foreign := by
    have lower := parent_lt positive
    rw [rank_take, rank_take]
    split
    · split
      · exact around.apart place positive other foreign
      · exact le_top
    · rw [if_neg (by omega)]
  bridge positive child higher under := by
    have lower := parent_lt positive
    have above := parent_lt higher
    rw [rank_take, rank_take]
    split
    · split
      · exact around.bridge positive child higher under
      · exact le_top
    · rw [if_neg (by omega)]

end Support.Heap
