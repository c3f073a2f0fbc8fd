import Mathlib

/-! Numbers as decimal text, and arithmetic on the text itself: digits are compared and counted up
without ever being read as a machine number.
-/

namespace Support

def ascii (text : String) : List UInt8 :=
  text.toList.map fun character => UInt8.ofNat character.toNat

namespace Decimal

def digit (number : Nat) : UInt8 := UInt8.ofNat (48 + number)

def isDigit (byte : UInt8) : Bool := 48 ≤ byte && byte ≤ 57

def text (number : Nat) : List UInt8 :=
  (Nat.toDigits 10 number).map fun character => UInt8.ofNat character.toNat

def value (text : List UInt8) : Nat :=
  text.foldl (fun number byte => number * 10 + (byte.toNat - 48)) 0

def Canonical (text : List UInt8) : Prop :=
  text = [48] ∨ ∃ first rest, text = first :: rest ∧ isDigit first = true ∧ first ≠ 48
    ∧ ∀ byte ∈ rest, isDigit byte = true

/-- Shorter numbers are smaller; those of one length are in the order of their bytes. -/
def less (left right : List UInt8) : Bool :=
  if left.length ≠ right.length then
    decide (left.length < right.length)
  else
    decide (left < right)

/-- Nines turn into zeros as far as they reach back from the end, and the digit before them goes up.
`before` is where they start.
-/
def incrementAt (text : List UInt8) : Nat → List UInt8
  | 0 => 49 :: List.replicate text.length 48
  | before + 1 =>
      if text[before]? = some 57 then
        incrementAt text before
      else
        text.take before ++ [text.getD before 48 + 1]
          ++ List.replicate (text.length - (before + 1)) 48

def increment (text : List UInt8) : List UInt8 := incrementAt text text.length

-- Texts and what they say

variable {byte : UInt8}

theorem isDigit_iff
    : isDigit byte = true ↔ 48 ≤ byte.toNat ∧ byte.toNat ≤ 57 := by
  simp [isDigit, UInt8.le_iff_toNat_le]

variable {number : Nat}

theorem toNat_digit (small : number < 10) : (digit number).toNat = 48 + number := by
  rw [digit, UInt8.toNat_ofNat']
  exact Nat.mod_eq_of_lt (by omega)

theorem isDigit_digit (small : number < 10) : isDigit (digit number) = true := by
  rw [isDigit_iff, toNat_digit small]
  omega

theorem digit_toNat (isDigit : isDigit byte = true)
    : digit (byte.toNat - 48) = byte := by
  have bounds := isDigit_iff.mp isDigit
  apply UInt8.toNat_inj.mp
  rw [toNat_digit (by omega)]
  omega

theorem ofNat_digitChar (small : number < 10)
    : UInt8.ofNat (Nat.digitChar number).toNat = digit number := by
  rw [Nat.toNat_digitChar_of_lt_ten small, digit]

/-- The last digit comes off the end. -/
theorem text_eq (number : Nat)
    : text number = (if number < 10 then [] else text (number / 10)) ++ [digit (number % 10)] := by
  rw [text, Nat.toDigits_eq_if (by decide)]
  split
  next small =>
    simp [ofNat_digitChar small, Nat.mod_eq_of_lt small]
  · simp [text, ofNat_digitChar (Nat.mod_lt number (by decide : 0 < 10))]

theorem text_ne_nil (number : Nat) : text number ≠ [] := by
  rw [text_eq]
  simp

@[simp]
theorem value_append_singleton (text : List UInt8) (byte : UInt8)
    : value (text ++ [byte]) = value text * 10 + (byte.toNat - 48) := by
  simp [value]

@[simp]
theorem value_text (number : Nat) : value (text number) = number := by
  induction number using Nat.strong_induction_on with
  | _ number ih =>
      have small : number % 10 < 10 := Nat.mod_lt number (by decide)
      rw [text_eq, value_append_singleton, toNat_digit small]
      split
      · simp only [value, List.foldl_nil]
        omega
      · rw [ih (number / 10) (by omega)]
        omega

theorem text_injective : Function.Injective text := by
  intro left right same
  rw [← value_text left, same, value_text]

/-- Every byte of a number is a digit. Witness: induction over the number, without its last digit.
-/
theorem isDigit_of_mem_text (listed : byte ∈ text number)
    : isDigit byte = true := by
  induction number using Nat.strong_induction_on with
  | _ number ih =>
      rw [text_eq, List.mem_append] at listed
      rcases listed with before | last
      · split at before
        · cases before
        · exact ih (number / 10) (by omega) before
      · rw [List.mem_singleton] at last
        rw [last]
        exact isDigit_digit (Nat.mod_lt number (by decide))

theorem canonical_text (number : Nat) : Canonical (text number) := by
  induction number using Nat.strong_induction_on with
  | _ number ih =>
      have digits : ∀ byte ∈ text number, isDigit byte = true := fun _ => isDigit_of_mem_text
      rw [text_eq] at digits ⊢
      by_cases small : number < 10
      · rw [if_pos small, Nat.mod_eq_of_lt small, List.nil_append]
        by_cases zero : number = 0
        · subst zero
          exact .inl rfl
        · refine .inr ⟨digit number, [], rfl, isDigit_digit small, ?_, nofun⟩
          intro same
          have toNat := congrArg UInt8.toNat same
          rw [toNat_digit small] at toNat
          exact zero (by simpa using toNat)
      · rw [if_neg small] at digits ⊢
        rcases ih (number / 10) (by omega) with zero | ⟨first, rest, isText, isFirst, different, _⟩
        · have none := congrArg value zero
          rw [value_text] at none
          simp only [value, List.foldl_cons, List.foldl_nil] at none
          have : (48 : UInt8).toNat = 48 := rfl
          omega
        · rw [isText] at digits ⊢
          refine .inr ⟨first, rest ++ [digit (number % 10)], rfl, isFirst, different, ?_⟩
          intro byte listed
          exact digits byte (List.mem_cons_of_mem _ listed)

theorem Canonical.ne_nil {text : List UInt8} (canonical : Canonical text) : text ≠ [] := by
  rcases canonical with rfl | ⟨first, rest, rfl, _⟩ <;> simp

theorem Canonical.isDigit {text : List UInt8} (canonical : Canonical text) {byte : UInt8}
    (listed : byte ∈ text)
    : isDigit byte = true := by
  rcases canonical with rfl | ⟨first, rest, rfl, isFirst, _, digits⟩
  · rw [List.mem_singleton] at listed
    rw [listed]
    rfl
  · rcases List.mem_cons.mp listed with rfl | later
    · exact isFirst
    · exact digits byte later

/-- Without its last digit a longer number is still one, and not zero. -/
theorem Canonical.init {text : List UInt8} (some : text ≠ [])
    (canonical : Canonical (text ++ [byte]))
    : Canonical text ∧ text ≠ [48] := by
  obtain ⟨first, rest, rfl⟩ := List.exists_cons_of_ne_nil some
  rcases canonical with zero | ⟨other, digits, same, isFirst, different, each⟩
  · simp at zero
  · rw [List.cons_append, List.cons.injEq] at same
    obtain ⟨rfl, same⟩ := same
    constructor
    · refine .inr ⟨first, rest, rfl, isFirst, different, ?_⟩
      intro one listed
      exact each one (same ▸ List.mem_append_left _ listed)
    · intro zero
      rw [List.cons.injEq] at zero
      exact different zero.1

theorem Canonical.value_eq_zero {text : List UInt8} (canonical : Canonical text)
    (zero : value text = 0)
    : text = [48] := by
  induction text using List.reverseRecOn with
  | nil => exact absurd rfl canonical.ne_nil
  | append_singleton init byte ih =>
      rw [value_append_singleton] at zero
      by_cases some : init = []
      · subst some
        have bounds := isDigit_iff.mp (@Canonical.isDigit _ canonical byte (by simp))
        have same : byte = 48 := by
          apply UInt8.toNat_inj.mp
          have : (48 : UInt8).toNat = 48 := rfl
          omega
        rw [same, List.nil_append]
      · obtain ⟨before, different⟩ := canonical.init some
        exact absurd (ih before (by omega)) different

/-- A number has one text. Witness: induction over the text from its end. -/
theorem Canonical.text_value {text : List UInt8} (canonical : Canonical text)
    : Decimal.text (value text) = text := by
  induction text using List.reverseRecOn with
  | nil => exact absurd rfl canonical.ne_nil
  | append_singleton init byte ih =>
      have isByte := @Canonical.isDigit _ canonical byte (by simp)
      have bounds := isDigit_iff.mp isByte
      rw [value_append_singleton, text_eq]
      have last : (value init * 10 + (byte.toNat - 48)) % 10 = byte.toNat - 48 := by omega
      rw [last, digit_toNat isByte]
      by_cases some : init = []
      · subst some
        rw [if_pos (by simp only [value, List.foldl_nil]; omega)]
      · obtain ⟨before, different⟩ := canonical.init some
        have positive : value init ≠ 0 := fun zero => different (before.value_eq_zero zero)
        have shorter : (value init * 10 + (byte.toNat - 48)) / 10 = value init := by omega
        rw [if_neg (by omega), shorter, ih before]

-- The order and the successor

theorem length_text_le_iff {width : Nat} (positive : 0 < width)
    : (text number).length ≤ width ↔ number < 10 ^ width := by
  rw [text, List.length_map]
  exact Nat.length_toDigits_le_iff (by decide) positive

theorem foldl_value (text : List UInt8) (start : Nat)
    : text.foldl (fun number byte => number * 10 + (byte.toNat - 48)) start
      = start * 10 ^ text.length + value text := by
  induction text generalizing start with
  | nil => simp [value]
  | cons byte rest ih =>
      have zero := ih (0 * 10 + (byte.toNat - 48))
      rw [value, List.foldl_cons, List.foldl_cons, ih, zero, List.length_cons, Nat.pow_succ]
      ring

theorem value_cons (byte : UInt8) (rest : List UInt8)
    : value (byte :: rest) = (byte.toNat - 48) * 10 ^ rest.length + value rest := by
  rw [value, List.foldl_cons, foldl_value]
  simp

theorem value_lt {text : List UInt8} (digits : ∀ byte ∈ text, isDigit byte = true)
    : value text < 10 ^ text.length := by
  induction text with
  | nil => simp [value]
  | cons byte rest ih =>
      have bounds := isDigit_iff.mp (digits byte List.mem_cons_self)
      have below := ih fun one listed => digits one (List.mem_cons_of_mem _ listed)
      have most : (byte.toNat - 48) * 10 ^ rest.length ≤ 9 * 10 ^ rest.length :=
        Nat.mul_le_mul_right _ (by omega)
      rw [value_cons, List.length_cons, Nat.pow_succ]
      omega

/-- Digits of one length are in the order of what they say. Witness: induction over both. -/
theorem lt_iff_value {left right : List UInt8} (same : left.length = right.length)
    (digits : ∀ byte ∈ left, isDigit byte = true) (others : ∀ byte ∈ right, isDigit byte = true)
    : left < right ↔ value left < value right := by
  induction left generalizing right with
  | nil =>
      rw [List.length_nil, eq_comm, List.length_eq_zero_iff] at same
      simp [same]
  | cons byte rest ih =>
      obtain ⟨other, more, rfl⟩ := List.exists_cons_of_length_eq_add_one same.symm
      have length : rest.length = more.length := by simpa using same
      have bounds := isDigit_iff.mp (digits byte List.mem_cons_self)
      have limits := isDigit_iff.mp (others other List.mem_cons_self)
      have below := value_lt fun one listed => digits one (List.mem_cons_of_mem _ listed)
      have under := value_lt fun one listed => others one (List.mem_cons_of_mem _ listed)
      have later := ih length (fun one listed => digits one (List.mem_cons_of_mem _ listed))
        fun one listed => others one (List.mem_cons_of_mem _ listed)
      rw [List.cons_lt_cons_iff, later, value_cons, value_cons, length, UInt8.lt_iff_toNat_lt]
      rw [length] at below
      rcases Nat.lt_trichotomy byte.toNat other.toNat with less | equal | more'
      · have gap : (byte.toNat - 48 + 1) * 10 ^ more.length
            ≤ (other.toNat - 48) * 10 ^ more.length := Nat.mul_le_mul_right _ (by omega)
        rw [Nat.add_mul, Nat.one_mul] at gap
        exact ⟨fun _ => by omega, fun _ => .inl less⟩
      · have isByte : byte = other := UInt8.toNat_inj.mp equal
        subst isByte
        simp
      · have gap : (other.toNat - 48 + 1) * 10 ^ more.length
            ≤ (byte.toNat - 48) * 10 ^ more.length := Nat.mul_le_mul_right _ (by omega)
        rw [Nat.add_mul, Nat.one_mul] at gap
        have different : byte ≠ other := fun isByte => by rw [isByte] at more'; omega
        constructor
        · rintro (less | ⟨isByte, _⟩)
          · omega
          · exact absurd isByte different
        · intro less
          omega

/-- The texts of numbers are in the order of the numbers. -/
@[simp]
theorem less_text (left right : Nat) : less (text left) (text right) = decide (left < right) := by
  have positive (number : Nat) : 0 < (text number).length :=
    List.length_pos_iff.mpr (text_ne_nil number)
  have shorter {one other : Nat} (short : (text one).length < (text other).length)
      : one < other := by
    have small := (length_text_le_iff (positive one)).mp (Nat.le_refl _)
    have large := mt (length_text_le_iff (positive one)).mpr (Nat.not_le.mpr short)
    omega
  rw [less]
  split
  next different =>
    rcases Nat.lt_or_gt_of_ne different with short | long
    · simp [short, shorter short]
    · have above := shorter long
      simp [Nat.not_lt.mpr long.le, Nat.not_lt.mpr above.le]
  rename_i same
  have order := lt_iff_value (not_not.mp same) (fun _ => isDigit_of_mem_text)
    fun _ => isDigit_of_mem_text
  rw [value_text, value_text] at order
  simp [order]

theorem incrementAt_append_singleton {init : List UInt8} {before : Nat}
    (within : before ≤ init.length)
    : incrementAt (init ++ [byte]) before = incrementAt init before ++ [48] := by
  induction before with
  | zero =>
      rw [incrementAt, incrementAt, List.length_append, List.length_singleton,
        List.replicate_succ', List.cons_append]
  | succ before ih =>
      have inside : before < init.length := within
      rw [incrementAt, incrementAt, List.getElem?_append_left inside]
      split
      · exact ih inside.le
      · have length : (init ++ [byte]).length - (before + 1) = init.length - (before + 1) + 1 := by
          rw [List.length_append, List.length_singleton]
          omega
        have stored : (init ++ [byte]).getD before 48 = init.getD before 48 := by
          rw [List.getD_eq_getElem?_getD, List.getElem?_append_left inside,
            List.getD_eq_getElem?_getD]
        rw [length, List.replicate_succ', List.take_append_of_le_length inside.le, stored,
          List.append_assoc _ _ [48]]

theorem increment_append_singleton (init : List UInt8) (byte : UInt8)
    : increment (init ++ [byte])
      = if byte = 57 then increment init ++ [48] else init ++ [byte + 1] := by
  rw [increment, List.length_append, List.length_singleton, incrementAt]
  have last : (init ++ [byte])[init.length]? = some byte := by simp
  by_cases nine : byte = 57
  · rw [if_pos (by rw [last, nine]), if_pos nine]
    exact incrementAt_append_singleton (Nat.le_refl _)
  · rw [if_neg (by simpa [last] using nine), if_neg nine]
    simp

/-- Counting up on the text is counting up. Witness: induction over the number, without its last
digit.
-/
@[simp]
theorem increment_text (number : Nat) : increment (text number) = text (number + 1) := by
  induction number using Nat.strong_induction_on with
  | _ number ih =>
      have small : number % 10 < 10 := Nat.mod_lt number (by decide)
      have nine : digit (number % 10) = 57 ↔ number % 10 = 9 := by
        rw [← UInt8.toNat_inj, toNat_digit small]
        have : (57 : UInt8).toNat = 57 := rfl
        omega
      rw [text_eq number, increment_append_singleton]
      by_cases last : number % 10 = 9
      · rw [if_pos (nine.mpr last)]
        have next : (number + 1) / 10 = number / 10 + 1 := by omega
        have zero : digit ((number + 1) % 10) = 48 := by
          rw [show (number + 1) % 10 = 0 by omega]
          rfl
        rw [text_eq (number + 1), if_neg (show ¬ number + 1 < 10 by omega), next, zero]
        by_cases tiny : number < 10
        · have none : number / 10 + 1 = 0 + 1 := by omega
          rw [if_pos tiny, none]
          rfl
        · rw [if_neg tiny, ih (number / 10) (by omega)]
      · rw [if_neg (mt nine.mp last)]
        have next : (number + 1) / 10 = number / 10 := by omega
        have up : digit ((number + 1) % 10) = digit (number % 10) + 1 := by
          apply UInt8.toNat_inj.mp
          rw [UInt8.toNat_add, toNat_digit small, toNat_digit (Nat.mod_lt _ (by decide))]
          have : (1 : UInt8).toNat = 1 := rfl
          omega
        have same : (number + 1 < 10) = (number < 10) := by
          apply propext
          omega
        rw [text_eq (number + 1), next, up]
        simp only [same]

end Decimal

end Support
