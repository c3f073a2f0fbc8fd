import Mathlib

/-! Words as sets of small numbers: the loop that takes the lowest bit off a word until none is
left visits exactly the bits that are set, in order.
-/

namespace Support

namespace Bits

variable {w : Nat}

def members (bits : BitVec w) : List Nat :=
  (List.range w).filter fun bit => bits.getLsbD bit

/-- The word without its lowest bit, `bits & (bits - 1)`. -/
def rest (bits : BitVec w) : BitVec w :=
  bits &&& (bits - 1)

/-- The bits a loop visits that counts the trailing zeros and takes the lowest bit off; `fuel`
bounds its rounds. -/
def scanFrom : Nat → BitVec w → List Nat
  | 0, _ => []
  | fuel + 1, bits => if bits = 0 then [] else bits.ctz.toNat :: scanFrom fuel (rest bits)

def scan (bits : BitVec w) : List Nat :=
  scanFrom w bits

/-- A word with one more bit set, `bits | (1 << bit)`. -/
def insert (bits : BitVec w) (bit : Nat) : BitVec w :=
  bits ||| (1#w <<< bit)

/-- A word with one bit less, `bits & ~(1 << bit)`. -/
def erase (bits : BitVec w) (bit : Nat) : BitVec w :=
  bits &&& ~~~(1#w <<< bit)

variable {bits : BitVec w} {bit other : Nat}

@[simp]
theorem mem_members : bit ∈ members bits ↔ bits.getLsbD bit = true := by
  simp only [members, List.mem_filter, List.mem_range, and_iff_right_iff_imp]
  exact BitVec.lt_of_getLsbD

theorem members_sorted (bits : BitVec w) : (members bits).Pairwise (· < ·) :=
  List.pairwise_lt_range.filter _

theorem getLsbD_mask : (1#w <<< bit).getLsbD other = (decide (bit < w) && decide (bit = other)) :=
  BitVec.getLsbD_twoPow bit other

theorem getLsbD_insert (bound : bit < w)
    : (insert bits bit).getLsbD other = (bits.getLsbD other || decide (bit = other)) := by
  simp only [insert, BitVec.getLsbD_or, getLsbD_mask, bound, decide_true, Bool.true_and]

/-- A number that is a power of two times an odd one: its bits below are zero, this one is set,
and the number before it differs from there on only in this bit. -/
theorem testBit_odd_multiple (shift half other : Nat)
    : (2 ^ shift * (2 * half + 1)).testBit other
        = (decide (shift ≤ other) && (2 * half + 1).testBit (other - shift))
      ∧ ((2 ^ shift * (2 * half + 1)) &&& (2 ^ shift * (2 * half + 1) - 1)).testBit other
        = ((2 ^ shift * (2 * half + 1)).testBit other && decide (other ≠ shift)) := by
  have positive : 0 < 2 ^ shift := Nat.two_pow_pos shift
  have before : 2 ^ shift * (2 * half + 1) - 1 = 2 ^ shift * (2 * half) + (2 ^ shift - 1) := by
    simp only [Nat.mul_add]
    omega
  have bit := Nat.testBit_two_pow_mul_add (2 * half + 1) positive other
  have less := Nat.testBit_two_pow_mul_add (2 * half) (Nat.sub_lt positive Nat.one_pos) other
  simp only [Nat.add_zero, Nat.zero_testBit] at bit
  simp only [before, Nat.testBit_and, less, bit]
  rcases Nat.lt_trichotomy other shift with low | same | high
  · simp [low]
  · simp [same]
  · obtain ⟨above, rfl⟩ : ∃ above, other = shift + (above + 1) := ⟨other - shift - 1, by omega⟩
    have halves : (2 * half + 1) / 2 = half := by omega
    have apart : ¬ shift + (above + 1) < shift := by omega
    simp [Nat.testBit_succ, halves, apart]

/-- Taking the lowest bit off leaves all others. -/
theorem getLsbD_rest (some_ : bits ≠ 0)
    : (rest bits).getLsbD other = (bits.getLsbD other && decide (other ≠ bits.ctz.toNat)) := by
  have positive : bits.toNat ≠ 0 := fun zero => some_ (BitVec.eq_of_toNat_eq (by simpa using zero))
  obtain ⟨shift, odd, isOdd, value⟩ := Nat.exists_eq_two_pow_mul_odd positive
  obtain ⟨half, rfl⟩ := isOdd
  have bitAt (place : Nat) : bits.getLsbD place
      = (decide (shift ≤ place) && (2 * half + 1).testBit (place - shift)) := by
    simpa only [BitVec.getLsbD, value] using (testBit_odd_multiple shift half place).1
  -- the lowest set bit is the exponent of the power of two
  have isLowest : bits.ctz.toNat = shift := by
    rcases Nat.lt_trichotomy bits.ctz.toNat shift with below | same | above
    · have isSet := BitVec.getLsbD_true_ctz_of_ne_zero some_
      have unset : ¬ shift ≤ bits.ctz.toNat := by omega
      simp [bitAt, unset] at isSet
    · exact same
    · have unset := BitVec.getLsbD_false_of_lt_ctz above
      simp [bitAt] at unset
  have isRest : (rest bits).toNat = bits.toNat &&& (bits.toNat - 1) := by
    have wide : 1 < 2 ^ w ∨ w = 0 := by
      rcases Nat.eq_zero_or_pos w with zero | wide
      · exact .inr zero
      · exact .inl (Nat.one_lt_two_pow (by omega))
    rcases wide with wide | rfl
    · have one : (1 : BitVec w).toNat = 1 := by simpa using Nat.mod_eq_of_lt wide
      have less : (bits - 1).toNat = bits.toNat - 1 := by
        have lessThan := BitVec.toNat_sub_of_le (x := bits) (y := 1) (by
          simp only [BitVec.le_def, one]
          omega)
        simpa only [one] using lessThan
      simp only [rest, BitVec.toNat_and, less]
    · exact absurd (BitVec.eq_nil bits) (by simpa using some_)
  have isBit := (testBit_odd_multiple shift half other).2
  simp only [← value] at isBit
  simpa only [BitVec.getLsbD, isRest, isLowest] using isBit

/-- The set bits are the lowest one and then those of the rest. -/
theorem members_eq (some_ : bits ≠ 0)
    : members bits = bits.ctz.toNat :: members (rest bits) := by
  apply (members_sorted bits).eq_of_mem_iff
  · refine List.pairwise_cons.mpr ⟨fun bit isSet => ?_, members_sorted _⟩
    simp only [mem_members, getLsbD_rest some_, Bool.and_eq_true, decide_eq_true_eq] at isSet
    by_contra below
    have unset := BitVec.getLsbD_false_of_lt_ctz (x := bits) (i := bit) (by omega)
    simp [unset] at isSet
  · intro bit
    have lowest := BitVec.getLsbD_true_ctz_of_ne_zero some_
    simp only [List.mem_cons, mem_members, getLsbD_rest some_, Bool.and_eq_true, decide_eq_true_eq]
    by_cases same : bit = bits.ctz.toNat
    · simp [same, lowest]
    · simp [same]

theorem members_zero : members 0#w = [] := by
  simp [members]

/-- The loop visits the set bits in order, by induction on its rounds. -/
theorem scanFrom_eq {fuel : Nat} (enough : (members bits).length ≤ fuel)
    : scanFrom fuel bits = members bits := by
  induction fuel generalizing bits with
  | zero => simpa [scanFrom] using (List.length_eq_zero_iff.mp (Nat.le_zero.mp enough)).symm
  | succ fuel ih =>
      by_cases zero : bits = 0
      · simp [scanFrom, zero, members_zero]
      · have splits := members_eq zero
        simp only [splits, List.length_cons] at enough
        have onward := @ih (rest bits) (by omega)
        simp only [scanFrom, zero, if_false, splits, onward]

@[simp]
theorem scan_eq (bits : BitVec w) : scan bits = members bits :=
  scanFrom_eq (by simpa [members] using List.length_filter_le _ (List.range w))

end Bits

end Support
