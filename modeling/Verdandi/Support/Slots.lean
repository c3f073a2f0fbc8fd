import Mathlib

/-! Sums over a fixed number of slots, and lists, when one place of them changes. -/

namespace Support

variable {n : Nat} {A : Type}

/-- What a changed slot adds to a sum is what it had there taken off. -/
theorem sum_update_add (weigh : A → Nat) (slots : Fin n → A) (slot : Fin n) (value : A)
    : (∑ each, weigh (Function.update slots slot value each)) + weigh (slots slot)
      = (∑ each, weigh (slots each)) + weigh value := by
  have split (values : Fin n → A)
      : ∑ each, weigh (values each)
        = weigh (values slot) + ∑ each ∈ Finset.univ.erase slot, weigh (values each) :=
    (Finset.add_sum_erase Finset.univ (fun each => weigh (values each)) (Finset.mem_univ slot)).symm
  have others : ∑ each ∈ Finset.univ.erase slot, weigh (Function.update slots slot value each)
      = ∑ each ∈ Finset.univ.erase slot, weigh (slots each) := by
    apply Finset.sum_congr rfl
    intro each other
    simp [Function.update_of_ne (Finset.ne_of_mem_erase other)]
  simp only [split (Function.update slots slot value), split slots, others, Function.update_self]
  omega

/-- One slot is at most the sum of all. -/
theorem le_sum_slots (weigh : A → Nat) (slots : Fin n → A) (slot : Fin n)
    : weigh (slots slot) ≤ ∑ each, weigh (slots each) :=
  Finset.single_le_sum (f := fun each => weigh (slots each)) (fun _ _ => Nat.zero_le _)
    (Finset.mem_univ slot)

/-- What is in a list with one place changed was there, or is the change. -/
theorem getElem?_set_or {list : List A} {index other : Nat} {value found : A}
    (there : (list.set index value)[other]? = some found)
    : (other = index ∧ found = value) ∨ (other ≠ index ∧ list[other]? = some found) := by
  rw [List.getElem?_set] at there
  split at there
  next equal =>
    split at there
    · cases there
      exact .inl ⟨equal.symm, rfl⟩
    · cases there
  next differ => exact .inr ⟨fun equal => differ equal.symm, there⟩

end Support
