import Verdandi.Sdk.Catalog.Decoders

/-! The three libraries take the same texts for numbers, for indexes and for UTF-8. -/

namespace Sdk.Catalog

open Support
open Support.Redis (Text)

variable {text name field : Text} {number maximum count index : Nat} {allowZero : Bool}

-- Canonical numbers

/-- A number is canonical when it is made of digits and starts with none that is not needed. -/
theorem canonical_iff_all
    : Decimal.Canonical text
      ↔ text ≠ [] ∧ text.all Decimal.isDigit = true ∧ (text.head? = some 48 → text = [48]) := by
  rw [List.all_eq_true]
  constructor
  · intro canonical
    refine ⟨canonical.ne_nil, fun _ => canonical.isDigit, ?_⟩
    rcases canonical with zero | ⟨first, rest, isText, _, different, _⟩
    · exact fun _ => zero
    · intro isZero
      rw [isText, List.head?_cons, Option.some.injEq] at isZero
      exact absurd isZero different
  · rintro ⟨some, digits, zero⟩
    obtain ⟨first, rest, rfl⟩ := List.exists_cons_of_ne_nil some
    by_cases isZero : first = 48
    · exact .inl (zero (by rw [isZero, List.head?_cons]))
    · exact .inr ⟨first, rest, rfl, digits _ List.mem_cons_self, isZero,
        fun _ listed => digits _ (List.mem_cons_of_mem _ listed)⟩

theorem eq_text_iff
    : text = Decimal.text number ↔ Decimal.Canonical text ∧ Decimal.value text = number := by
  constructor
  · rintro rfl
    exact ⟨Decimal.canonical_text number, Decimal.value_text number⟩
  · rintro ⟨canonical, rfl⟩
    exact canonical.text_value.symm

variable {value : Nat}

/-- What the digits of a number add to what was read. Witness: induction over the digits. -/
theorem decimalDigits_eq_some (small : value ≤ maximum)
    (read : decimalDigits maximum value text = some number)
    : text.all Decimal.isDigit = true ∧ number ≤ maximum
      ∧ number = text.foldl (fun number byte => number * 10 + (byte.toNat - 48)) value := by
  induction text generalizing value with
  | nil =>
      cases read
      exact ⟨rfl, small, rfl⟩
  | cons character rest ih =>
      rw [decimalDigits] at read
      split at read
      · cases read
      rename_i digit
      dsimp only at read
      split at read
      · cases read
      rename_i bounded
      have isDigit : Decimal.isDigit character = true := by
        simpa using digit
      have below : value * 10 + (character.toNat - 48) ≤ maximum := by omega
      obtain ⟨digits, fits, isNumber⟩ := ih below read
      refine ⟨?_, fits, isNumber⟩
      rw [List.all_cons, isDigit, digits]
      rfl

/-- The number that Go reads. -/
theorem uintDecimal_eq_some
    : uintDecimal text maximum allowZero = some number
      ↔ text = Decimal.text number ∧ number ≤ maximum ∧ (number = 0 → allowZero = true) := by
  constructor
  · intro read
    cases text with
    | nil => cases read
    | cons first rest =>
        rw [uintDecimal] at read
        split at read
        next isZero =>
          split at read
          next admitted =>
            cases read
            rw [Bool.and_eq_true, List.isEmpty_iff] at admitted
            rw [isZero, admitted.2]
            exact ⟨rfl, Nat.zero_le _, fun _ => admitted.1⟩
          · cases read
        rename_i notZero
        split at read
        · cases read
        · obtain ⟨digits, fits, isNumber⟩ := decimalDigits_eq_some (Nat.zero_le _) read
          have canonical : Decimal.Canonical (first :: rest) :=
            canonical_iff_all.mpr ⟨(by rintro ⟨⟩), digits, fun isZero =>
              absurd (Option.some.inj isZero) notZero⟩
          have isValue : Decimal.value (first :: rest) = number := isNumber.symm
          refine ⟨eq_text_iff.mpr ⟨canonical, isValue⟩, fits, fun zero => ?_⟩
          have isZero := canonical.value_eq_zero (isValue.trans zero)
          exact absurd (List.cons.inj isZero).1 notZero
  · rintro ⟨rfl, fits, zero⟩
    exact uintDecimal_text fits zero

/-- A text of digits that is not padded. -/
theorem Rust.padded_eq_false
    : Rust.padded text = false
      ↔ text = [48] ∨ (text.head? ≠ some 48 ∧ text.all Decimal.isDigit = true) := by
  rw [Rust.padded, show ascii "0" = [48] from rfl]
  by_cases zero : text = [48]
  · simp [zero]
  · simp [zero]

theorem Rust.parseUnsigned_digits (digits : text.all Decimal.isDigit = true)
    : Rust.parseUnsigned text
      = if text = [] ∨ 2 ^ 64 ≤ Decimal.value text then none else some (Decimal.value text) := by
  have unsigned : text.head? ≠ some 43 := by
    cases text with
    | nil => nofun
    | cons first rest =>
        intro isSign
        rw [List.head?_cons, Option.some.injEq] at isSign
        rw [isSign, List.all_cons, Bool.and_eq_true] at digits
        exact absurd digits.1 (by decide)
  rw [Rust.parseUnsigned]
  simp only [if_neg unsigned, digits, Bool.true_eq_false, false_or]

/-- The number that Rust reads. -/
theorem Rust.parse_eq_some (small : maximum < 2 ^ 64)
    : (∃ parsed, Rust.parseUnsigned text = some parsed
        ∧ ¬(maximum < parsed ∨ (allowZero = false ∧ parsed = 0) ∨ Rust.padded text = true)
        ∧ parsed = number)
      ↔ text = Decimal.text number ∧ number ≤ maximum ∧ (number = 0 → allowZero = true) := by
  constructor
  · rintro ⟨parsed, read, admitted, rfl⟩
    simp only [not_or, Bool.not_eq_true, not_and] at admitted
    obtain ⟨fits, zero, canonical⟩ := admitted
    have digits : text.all Decimal.isDigit = true := by
      rcases Rust.padded_eq_false.mp canonical with rfl | ⟨_, digits⟩
      · rfl
      · exact digits
    rw [Rust.parseUnsigned_digits digits] at read
    split at read
    · cases read
    rename_i some
    cases read
    rw [not_or] at some
    refine ⟨eq_text_iff.mpr ⟨canonical_iff_all.mpr ⟨some.1, digits, ?_⟩, rfl⟩,
      Nat.not_lt.mp fits, fun isZero => ?_⟩
    · rcases Rust.padded_eq_false.mp canonical with isZero | ⟨other, _⟩
      · exact fun _ => isZero
      · exact fun isZero => absurd isZero other
    · by_contra refused
      exact zero (by simpa using refused) isZero
  · rintro ⟨rfl, fits, zero⟩
    obtain ⟨some, digits, first⟩ := canonical_iff_all.mp (Decimal.canonical_text number)
    refine ⟨number, ?_, ?_, rfl⟩
    · rw [Rust.parseUnsigned_digits digits, Decimal.value_text, if_neg]
      rw [not_or]
      exact ⟨some, by omega⟩
    · rw [not_or, not_or]
      refine ⟨Nat.not_lt.mpr fits, fun refused => ?_, ?_⟩
      · rw [zero refused.2] at refused
        cases refused.1
      · rw [Bool.not_eq_true, Rust.padded_eq_false]
        by_cases isZero : (Decimal.text number).head? = Option.some 48
        · exact .inl (first isZero)
        · exact .inr ⟨isZero, digits⟩

/-- A number that is read and then checked. -/
theorem checked_eq_some {result : Option Nat} {refused : Nat → Prop} [DecidablePred refused]
    {failure : Failure}
    : (match result with
        | none => .error failure
        | some parsed =>
            if refused parsed then .error failure else .ok parsed
        : Except Failure Nat).toOption = some number
      ↔ ∃ parsed, result = some parsed ∧ ¬refused parsed ∧ parsed = number := by
  cases result with
  | none => simp [Except.toOption]
  | some parsed =>
      dsimp only
      split
      next isRefused =>
        constructor
        · nofun
        · rintro ⟨_, isParsed, admitted, _⟩
          cases isParsed
          exact absurd isRefused admitted
      rename_i admitted
      constructor
      · intro same
        cases same
        exact ⟨_, rfl, admitted, rfl⟩
      · rintro ⟨_, isParsed, _, rfl⟩
        cases isParsed
        rfl

theorem Rust.canonicalU64_eq
    : (Rust.canonicalU64 text allowZero field).toOption
      = uintDecimal text lastRevision allowZero := by
  apply Option.ext
  intro number
  rw [uintDecimal_eq_some, ← Rust.parse_eq_some (by decide), Rust.canonicalU64]
  exact checked_eq_some

theorem Rust.canonicalUsize_eq (small : maximum < 2 ^ 64)
    : (Rust.canonicalUsize text maximum field).toOption = uintDecimal text maximum true := by
  apply Option.ext
  intro number
  rw [uintDecimal_eq_some, ← Rust.parse_eq_some small, Rust.canonicalUsize]
  simp only [Bool.true_eq_false, false_and, false_or]
  exact checked_eq_some

/-- The digits that a conversion takes when nothing may follow them. -/
theorem Cpp.fromChars_eq_some
    : Cpp.fromChars text = some (number, [])
      ↔ text ≠ [] ∧ text.all Decimal.isDigit = true ∧ Decimal.value text = number
        ∧ number < 2 ^ 64 := by
  have whole : text.takeWhile Decimal.isDigit ++ text.dropWhile Decimal.isDigit = text :=
    List.takeWhile_append_dropWhile
  rw [Cpp.fromChars]
  constructor
  · intro read
    split at read
    · cases read
    rename_i some
    rw [not_or] at some
    obtain ⟨isNumber, nothing⟩ := Prod.mk.inj (Option.some.inj read)
    rw [nothing, List.append_nil] at whole
    have digits : text.all Decimal.isDigit = true := by
      rw [List.all_eq_true]
      exact List.takeWhile_eq_self_iff.mp whole
    rw [whole] at some isNumber
    exact ⟨some.1, digits, isNumber, by omega⟩
  · rintro ⟨some, digits, isNumber, small⟩
    rw [List.all_eq_true] at digits
    have taken : text.takeWhile Decimal.isDigit = text := List.takeWhile_eq_self_iff.mpr digits
    have dropped : text.dropWhile Decimal.isDigit = [] := by
      rw [taken] at whole
      simpa using whole
    rw [taken, dropped, isNumber, if_neg]
    rw [not_or]
    exact ⟨some, by omega⟩

/-- A number with no padding that a conversion takes whole. -/
theorem Cpp.fromChars_whole (small : number < 2 ^ 64)
    : (Cpp.fromChars text = some (number, []) ∧ ¬(1 < text.length ∧ text.head? = some 48))
      ↔ text = Decimal.text number := by
  rw [Cpp.fromChars_eq_some, eq_text_iff, canonical_iff_all]
  constructor
  · rintro ⟨⟨some, digits, isNumber, _⟩, unpadded⟩
    refine ⟨⟨some, digits, fun isZero => ?_⟩, isNumber⟩
    obtain ⟨first, rest, rfl⟩ := List.exists_cons_of_ne_nil some
    rw [List.head?_cons, Option.some.injEq] at isZero
    rcases rest with _ | ⟨second, rest⟩
    · rw [isZero]
    · exact absurd ⟨by simp, by rw [List.head?_cons, isZero]⟩ unpadded
  · rintro ⟨⟨some, digits, zero⟩, isNumber⟩
    refine ⟨⟨some, digits, isNumber, small⟩, ?_⟩
    rintro ⟨long, isZero⟩
    rw [zero isZero] at long
    exact absurd long (by decide)

/-- The number that C++ reads. -/
theorem Cpp.parseUnsigned_eq
    : (Cpp.parseUnsigned text field allowZero).toOption
      = uintDecimal text lastRevision allowZero := by
  apply Option.ext
  intro number
  have wide : lastRevision < 2 ^ 64 := by decide
  rw [uintDecimal_eq_some, Cpp.parseUnsigned]
  split
  next refused =>
    constructor
    · nofun
    · rintro ⟨isText, fits, _⟩
      obtain ⟨_, unpadded⟩ := (Cpp.fromChars_whole (by omega)).mpr isText
      rcases refused with none | long | padded
      · exact absurd (isText.symm.trans none) (Decimal.text_ne_nil number)
      · have short := (Decimal.length_text_le_iff (by decide : 0 < 16)).mpr
          (lt_of_le_of_lt fits (by decide))
        rw [← isText] at short
        omega
      · exact absurd padded unpadded
  rename_i admitted
  rw [not_or, not_or] at admitted
  constructor
  · intro read
    split at read
    · cases read
    rename_i output rest isRead
    split at read
    · cases read
    rename_i checked
    cases read
    simp only [not_or, not_not, not_and] at checked
    obtain ⟨nothing, fits, zero⟩ := checked
    rw [nothing] at isRead
    refine ⟨(Cpp.fromChars_whole (by omega)).mp ⟨isRead, admitted.2.2⟩, Nat.not_lt.mp fits,
      fun isZero => ?_⟩
    by_contra refused
    exact zero (by simpa using refused) isZero
  · rintro ⟨isText, fits, zero⟩
    obtain ⟨isRead, _⟩ := (Cpp.fromChars_whole (by omega)).mpr isText
    rw [isRead]
    dsimp only
    rw [if_neg]
    · rfl
    · rintro (some | large | refused)
      · exact some rfl
      · omega
      · rw [zero refused.2] at refused
        cases refused.1

-- Indexes

/-- A byte that is a digit above zero's byte. The subtraction wraps around. -/
theorem digit_of_sub {byte : UInt8} (small : (byte - 48).toNat ≤ 9)
    : Decimal.isDigit byte = true ∧ (byte - 48).toNat = byte.toNat - 48 := by
  rw [Decimal.isDigit_iff]
  have bounded := byte.toNat_lt
  rw [UInt8.toNat_sub] at small ⊢
  have : (48 : UInt8).toNat = 48 := rfl
  omega

/-- An index in Go's digits. Witness: induction over the digits. -/
theorem indexDigits_eq_some (read : indexDigits count value text = some number)
    : text.all Decimal.isDigit = true
      ∧ number = text.foldl (fun number byte => number * 10 + (byte.toNat - 48)) value := by
  induction text generalizing value with
  | nil =>
      cases read
      exact ⟨rfl, rfl⟩
  | cons character rest ih =>
      rw [indexDigits] at read
      split at read
      · cases read
      rename_i bounded
      rw [not_or] at bounded
      obtain ⟨isDigit, isOffset⟩ := digit_of_sub (Nat.not_lt.mp bounded.1)
      rw [isOffset] at read
      obtain ⟨digits, isNumber⟩ := ih read
      refine ⟨?_, isNumber⟩
      rw [List.all_cons, isDigit, digits]
      rfl

theorem arrayFieldIndex_eq_some
    : arrayFieldIndex name count = some index ↔ name = Decimal.text index ∧ index < count := by
  constructor
  · intro read
    rw [arrayFieldIndex] at read
    split at read
    · cases read
    rename_i admitted
    rw [not_or, not_or] at admitted
    obtain ⟨value, isRead, checked⟩ := Option.bind_eq_some_iff.mp read
    split at checked
    next inside =>
      cases checked
      obtain ⟨digits, isValue⟩ := indexDigits_eq_some isRead
      refine ⟨eq_text_iff.mpr ⟨canonical_iff_all.mpr ⟨admitted.2.1, digits, fun isZero => ?_⟩,
        isValue.symm⟩, inside⟩
      by_contra other
      exact admitted.2.2 ⟨isZero, other⟩
    · cases checked
  · rintro ⟨rfl, inside⟩
    exact arrayFieldIndex_text inside

/-- An index in Rust's digits. Witness: induction over the digits. -/
theorem Rust.indexDigits_eq_some (read : Rust.indexDigits count value text = some number)
    : text.all Decimal.isDigit = true ∧ (text ≠ [] → number < count)
      ∧ number = text.foldl (fun number byte => number * 10 + (byte.toNat - 48)) value := by
  induction text generalizing value with
  | nil =>
      cases read
      exact ⟨rfl, fun some => absurd rfl some, rfl⟩
  | cons character rest ih =>
      rw [Rust.indexDigits] at read
      split at read
      · cases read
      rename_i isDigit
      rw [not_or] at isDigit
      obtain ⟨digit, isOffset⟩ :=
        digit_of_sub (UInt8.le_iff_toNat_le.mp (UInt8.not_lt.mp isDigit.2))
      split at read
      · cases read
      rename_i bounded
      rw [isOffset] at read bounded
      obtain ⟨digits, inside, isNumber⟩ := ih read
      refine ⟨?_, fun _ => ?_, isNumber⟩
      · rw [List.all_cons, digit, digits]
        rfl
      · by_cases last : rest = []
        · rw [isNumber, last, List.foldl_nil]
          omega
        · exact inside last

/-- Rust reads the digits of an index below the count. Witness: induction over the digits from the
end; what was read before is smaller.
-/
theorem Rust.indexDigits_value (small : count ≤ 2 ^ 64)
    (digits : text.all Decimal.isDigit = true) (some : text ≠ [])
    (inside : Decimal.value text < count)
    : Rust.indexDigits count 0 text = Option.some (Decimal.value text) := by
  suffices whole : ∀ value, text.foldl (fun number byte => number * 10 + (byte.toNat - 48)) value
        < count → text ≠ []
      → Rust.indexDigits count value text
        = Option.some (text.foldl (fun number byte => number * 10 + (byte.toNat - 48)) value) from
    whole 0 inside some
  clear inside some
  induction text with
  | nil => exact fun _ _ some => absurd rfl some
  | cons character rest ih =>
      intro value inside _
      rw [List.all_cons, Bool.and_eq_true] at digits
      have bounds := Decimal.isDigit_iff.mp digits.1
      have isOffset : (character - 48).toNat = character.toNat - 48 := by
        rw [UInt8.toNat_sub]
        have : (48 : UInt8).toNat = 48 := rfl
        omega
      have grows : value * 10 + (character.toNat - 48)
          ≤ rest.foldl (fun number byte => number * 10 + (byte.toNat - 48))
            (value * 10 + (character.toNat - 48)) := by
        rw [Decimal.foldl_value]
        exact (Nat.le_mul_of_pos_right _ (Nat.pos_of_neZero _)).trans (Nat.le_add_right _ _)
      rw [List.foldl_cons] at inside ⊢
      rw [Rust.indexDigits, if_neg, if_neg, isOffset]
      · by_cases last : rest = []
        · rw [last]
          rfl
        · exact ih digits.2 _ inside last
      · rw [isOffset]
        omega
      · rintro (below | above)
        · have lower := UInt8.lt_iff_toNat_lt.mp below
          have : (48 : UInt8).toNat = 48 := rfl
          omega
        · have upper := UInt8.lt_iff_toNat_lt.mp above
          rw [isOffset] at upper
          have : (9 : UInt8).toNat = 9 := rfl
          omega

theorem Rust.arrayFieldIndex_eq (small : count ≤ 2 ^ 64)
    : Rust.arrayFieldIndex name count = Catalog.arrayFieldIndex name count := by
  apply Option.ext
  intro index
  rw [arrayFieldIndex_eq_some, Rust.arrayFieldIndex]
  constructor
  · intro read
    split at read
    · cases read
    rename_i admitted
    rw [not_or, not_or] at admitted
    obtain ⟨digits, inside, isIndex⟩ := Rust.indexDigits_eq_some read
    refine ⟨eq_text_iff.mpr ⟨canonical_iff_all.mpr ⟨admitted.2.1, digits, fun isZero => ?_⟩,
      isIndex.symm⟩, inside admitted.2.1⟩
    by_contra other
    exact admitted.2.2 ⟨isZero, other⟩
  · rintro ⟨isText, inside⟩
    obtain ⟨canonical, isIndex⟩ := eq_text_iff.mp isText
    obtain ⟨some, digits, zero⟩ := canonical_iff_all.mp canonical
    rw [if_neg, Rust.indexDigits_value small digits some (isIndex ▸ inside), isIndex]
    rintro (none | empty | ⟨isZero, other⟩)
    · omega
    · exact some empty
    · exact other (zero isZero)

theorem Cpp.arrayIndex_eq (small : count ≤ 2 ^ 64)
    : (Cpp.arrayIndex name count).toOption = arrayFieldIndex name count := by
  apply Option.ext
  intro index
  rw [arrayFieldIndex_eq_some, Cpp.arrayIndex]
  split
  next refused =>
    constructor
    · nofun
    · rintro ⟨isText, inside⟩
      obtain ⟨_, unpadded⟩ := (Cpp.fromChars_whole (by omega)).mpr isText
      rcases refused with none | empty | padded
      · omega
      · exact absurd (isText.symm.trans empty) (Decimal.text_ne_nil index)
      · exact absurd padded unpadded
  rename_i admitted
  rw [not_or, not_or] at admitted
  constructor
  · intro read
    split at read
    · cases read
    rename_i output rest isRead
    split at read
    · cases read
    rename_i checked
    cases read
    rw [not_or, not_not] at checked
    rw [checked.1] at isRead
    exact ⟨(Cpp.fromChars_whole (by omega)).mp ⟨isRead, admitted.2.2⟩, Nat.not_le.mp checked.2⟩
  · rintro ⟨isText, inside⟩
    obtain ⟨isRead, _⟩ := (Cpp.fromChars_whole (by omega)).mpr isText
    rw [isRead]
    dsimp only
    rw [if_neg]
    · rfl
    · rintro (some | large)
      · exact some rfl
      · omega

-- UTF-8

theorem forall_byte {holds : UInt8 → Prop} (each : ∀ number < 256, holds (UInt8.ofNat number))
    (byte : UInt8)
    : holds byte := by
  have one := each byte.toNat byte.toNat_lt
  rwa [UInt8.ofNat_toNat] at one

namespace Cpp

theorem continues_mask (byte : UInt8) : byte &&& 0xc0 = 0x80 ↔ continues byte = true := by
  revert byte
  apply forall_byte
  set_option maxRecDepth 2000 in decide

variable {byte : UInt8}

theorem continues_iff
    : continues byte = true ↔ 128 ≤ byte.toNat ∧ byte.toNat ≤ 191 := by
  rw [continues, Bool.and_eq_true, decide_eq_true_eq, decide_eq_true_eq, UInt8.le_iff_toNat_le,
    UInt8.le_iff_toNat_le]
  rfl

/-- A byte that continues a character adds six bits. -/
theorem shift_or (codepoint : Nat) (byte : UInt8)
    : codepoint <<< 6 ||| (byte &&& 0x3f).toNat = codepoint * 64 + byte.toNat % 64 := by
  have bits : (byte &&& 0x3f).toNat = byte.toNat % 64 := by
    rw [UInt8.toNat_and]
    exact Nat.and_two_pow_sub_one_eq_mod byte.toNat 6
  rw [bits, ← Nat.shiftLeft_add_eq_or_of_lt (Nat.mod_lt _ (by decide) : byte.toNat % 64 < 2 ^ 6),
    Nat.shiftLeft_eq]

variable {rest : Text}

theorem continueCodepoint_cons {left codepoint : Nat}
    : continueCodepoint (left + 1) codepoint (byte :: rest) = if continues byte = true then
          continueCodepoint left (codepoint * 64 + byte.toNat % 64) rest
        else
          none := by
  rw [continueCodepoint, shift_or]
  by_cases one : continues byte = true
  · rw [if_neg (not_not.mpr ((continues_mask byte).mpr one)), if_pos one]
  · rw [if_pos (mt (continues_mask byte).mp one), if_neg one]

theorem characterStart_eq (first : UInt8)
    : characterStart first = if first.toNat < 128 then some (1, first.toNat)
        else if 194 ≤ first.toNat ∧ first.toNat ≤ 223 then some (2, first.toNat % 32)
        else if 224 ≤ first.toNat ∧ first.toNat ≤ 239 then some (3, first.toNat % 16)
        else if 240 ≤ first.toNat ∧ first.toNat ≤ 244 then some (4, first.toNat % 8)
        else none := by
  revert first
  apply forall_byte
  set_option maxRecDepth 2000 in decide

/-- Go's check of a first byte, in numbers. -/
theorem validString_cons (first : UInt8) (rest : Text)
    : validString (first :: rest) = if first.toNat < 128 then validString rest
        else
          match rest with
          | [] => false
          | second :: rest =>
              if 194 ≤ first.toNat ∧ first.toNat ≤ 223 then
                continues second && validString rest
              else
                match rest with
                | [] => false
                | third :: rest =>
                    if 224 ≤ first.toNat ∧ first.toNat ≤ 239 then
                      (if first.toNat = 224 then
                          decide (160 ≤ second.toNat ∧ second.toNat ≤ 191)
                        else if first.toNat = 237 then
                          decide (128 ≤ second.toNat ∧ second.toNat ≤ 159)
                        else continues second)
                        && continues third && validString rest
                    else
                      match rest with
                      | [] => false
                      | fourth :: rest =>
                          decide (240 ≤ first.toNat ∧ first.toNat ≤ 244)
                            && (if first.toNat = 240 then
                                decide (144 ≤ second.toNat ∧ second.toNat ≤ 191)
                              else if first.toNat = 244 then
                                decide (128 ≤ second.toNat ∧ second.toNat ≤ 143)
                              else continues second)
                            && continues third && continues fourth && validString rest := by
  rcases rest with _ | ⟨second, _ | ⟨third, _ | ⟨fourth, rest⟩⟩⟩
  · rw [validString.eq_2]
    simp only [UInt8.lt_iff_toNat_lt, UInt8.reduceToNat]
  · rw [validString.eq_3]
    simp only [UInt8.lt_iff_toNat_lt, UInt8.le_iff_toNat_le, UInt8.reduceToNat]
  · rw [validString.eq_4]
    simp only [UInt8.lt_iff_toNat_lt, UInt8.le_iff_toNat_le, ← UInt8.toNat_inj,
      UInt8.reduceToNat, Bool.decide_and]
  · rw [validString.eq_5]
    simp only [UInt8.lt_iff_toNat_lt, UInt8.le_iff_toNat_le, ← UInt8.toNat_inj,
      UInt8.reduceToNat, Bool.decide_and]

variable {first second third : UInt8} {fuel : Nat}

/-- A character of three bytes: its number is neither too small nor half of a pair. -/
theorem threeBytes (three : 224 ≤ first.toNat ∧ first.toNat ≤ 239)
    (later : validCharacters fuel rest = validString rest)
    : (if (second :: third :: rest).length + 1 < 3 then false
        else
          match continueCodepoint 2 (first.toNat % 16) (second :: third :: rest) with
          | none => false
          | some (codepoint, rest) =>
              if codepoint < 0x800 ∨ (0xd800 ≤ codepoint ∧ codepoint ≤ 0xdfff)
                  ∨ 0x10ffff < codepoint then
                false
              else
                validCharacters fuel rest)
      = ((if first.toNat = 224 then decide (160 ≤ second.toNat ∧ second.toNat ≤ 191)
          else if first.toNat = 237 then decide (128 ≤ second.toNat ∧ second.toNat ≤ 159)
          else continues second) && continues third && validString rest) := by
  rw [if_neg (by simp), continueCodepoint_cons]
  cases isSecond : continues second with
  | false =>
      have outside := mt continues_iff.mpr (ne_true_of_eq_false isSecond)
      have refused : (if first.toNat = 224 then decide (160 ≤ second.toNat ∧ second.toNat ≤ 191)
          else if first.toNat = 237 then decide (128 ≤ second.toNat ∧ second.toNat ≤ 159)
          else false) = false := by
        split_ifs
        · exact decide_eq_false (by omega)
        · exact decide_eq_false (by omega)
        · rfl
      rw [refused]
      rfl
  | true =>
      rw [if_pos rfl, continueCodepoint_cons]
      cases isThird : continues third with
      | false => simp
      | true =>
          have seconds := continues_iff.mp isSecond
          have thirds := continues_iff.mp isThird
          simp only [if_true, continueCodepoint, Bool.and_true, later]
          split
          next bad =>
            have refused : (if first.toNat = 224 then decide (160 ≤ second.toNat ∧ second.toNat ≤ 191)
                else if first.toNat = 237 then decide (128 ≤ second.toNat ∧ second.toNat ≤ 159)
                else true) = false := by
              split_ifs
              · exact decide_eq_false (by omega)
              · exact decide_eq_false (by omega)
              · omega
            rw [refused, Bool.false_and]
          rename_i good
          have admitted : (if first.toNat = 224 then decide (160 ≤ second.toNat ∧ second.toNat ≤ 191)
              else if first.toNat = 237 then decide (128 ≤ second.toNat ∧ second.toNat ≤ 159)
              else true) = true := by
            split_ifs
            · exact decide_eq_true (by omega)
            · exact decide_eq_true (by omega)
            · rfl
          rw [admitted, Bool.true_and]

/-- A character of four bytes: its number is neither too small nor too large. -/
theorem fourBytes {fourth : UInt8} (four : 240 ≤ first.toNat ∧ first.toNat ≤ 244)
    (later : validCharacters fuel rest = validString rest)
    : (if (second :: third :: fourth :: rest).length + 1 < 4 then false
        else
          match continueCodepoint 3 (first.toNat % 8) (second :: third :: fourth :: rest) with
          | none => false
          | some (codepoint, rest) =>
              if codepoint < 0x10000 ∨ (0xd800 ≤ codepoint ∧ codepoint ≤ 0xdfff)
                  ∨ 0x10ffff < codepoint then
                false
              else
                validCharacters fuel rest)
      = (decide (240 ≤ first.toNat ∧ first.toNat ≤ 244)
          && (if first.toNat = 240 then decide (144 ≤ second.toNat ∧ second.toNat ≤ 191)
            else if first.toNat = 244 then decide (128 ≤ second.toNat ∧ second.toNat ≤ 143)
            else continues second) && continues third && continues fourth
          && validString rest) := by
  rw [if_neg (by simp), continueCodepoint_cons, decide_eq_true four, Bool.true_and]
  cases isSecond : continues second with
  | false =>
      have outside := mt continues_iff.mpr (ne_true_of_eq_false isSecond)
      have refused : (if first.toNat = 240 then decide (144 ≤ second.toNat ∧ second.toNat ≤ 191)
          else if first.toNat = 244 then decide (128 ≤ second.toNat ∧ second.toNat ≤ 143)
          else false) = false := by
        split_ifs
        · exact decide_eq_false (by omega)
        · exact decide_eq_false (by omega)
        · rfl
      rw [refused]
      rfl
  | true =>
      rw [if_pos rfl, continueCodepoint_cons]
      cases isThird : continues third with
      | false => simp
      | true =>
          rw [if_pos rfl, continueCodepoint_cons]
          cases isFourth : continues fourth with
          | false => simp
          | true =>
              have seconds := continues_iff.mp isSecond
              have thirds := continues_iff.mp isThird
              have fourths := continues_iff.mp isFourth
              simp only [if_true, continueCodepoint, Bool.and_true, later]
              split
              next bad =>
                have refused : (if first.toNat = 240 then
                      decide (144 ≤ second.toNat ∧ second.toNat ≤ 191)
                    else if first.toNat = 244 then
                      decide (128 ≤ second.toNat ∧ second.toNat ≤ 143)
                    else true) = false := by
                  split_ifs
                  · exact decide_eq_false (by omega)
                  · exact decide_eq_false (by omega)
                  · omega
                rw [refused, Bool.false_and]
              rename_i good
              have admitted : (if first.toNat = 240 then
                    decide (144 ≤ second.toNat ∧ second.toNat ≤ 191)
                  else if first.toNat = 244 then
                    decide (128 ≤ second.toNat ∧ second.toNat ≤ 143)
                  else true) = true := by
                split_ifs
                · exact decide_eq_true (by omega)
                · exact decide_eq_true (by omega)
                · rfl
              rw [admitted, Bool.true_and]

/-- The loops check the same characters. Witness: induction over the fuel, with a case for each width
of the first character.
-/
theorem validCharacters_eq (enough : text.length ≤ fuel)
    : validCharacters fuel text = validString text := by
  induction fuel generalizing text with
  | zero =>
      rw [List.length_eq_zero_iff.mp (Nat.le_zero.mp enough)]
      rfl
  | succ fuel ih =>
      cases text with
      | nil => rfl
      | cons first rest =>
          have short (dropped : Text) (fewer : dropped.length ≤ rest.length)
              : validCharacters fuel dropped = validString dropped :=
            ih (fewer.trans (Nat.le_of_succ_le_succ enough))
          have byte := first.toNat_lt
          rw [validCharacters, characterStart_eq, validString_cons]
          by_cases ascii : first.toNat < 128
          · simp only [if_pos ascii, Nat.sub_self, continueCodepoint]
            rw [if_neg (by omega), if_neg (by omega), short rest (Nat.le_refl _)]
          · simp only [if_neg ascii]
            by_cases two : 194 ≤ first.toNat ∧ first.toNat ≤ 223
            · simp only [if_pos two]
              rcases rest with _ | ⟨second, rest⟩
              · rfl
              · rw [if_neg (by simp), continueCodepoint_cons]
                cases continued : continues second with
                | false => simp [continued]
                | true =>
                    have bounds := continues_iff.mp continued
                    simp only [continueCodepoint, if_true, continued, Bool.true_and]
                    rw [if_neg (by omega), short rest (by simp)]
            · simp only [if_neg two]
              by_cases three : 224 ≤ first.toNat ∧ first.toNat ≤ 239
              · simp only [if_pos three, Nat.reduceEqDiff, true_and, false_and, false_or,
                  Nat.reduceSub]
                rcases rest with _ | ⟨second, _ | ⟨third, rest⟩⟩
                · rfl
                · rfl
                · exact threeBytes three (short rest (by simp; omega))
              · simp only [if_neg three]
                by_cases four : 240 ≤ first.toNat ∧ first.toNat ≤ 244
                · simp only [if_pos four, Nat.reduceEqDiff, true_and, false_and, false_or,
                    Nat.reduceSub]
                  rcases rest with _ | ⟨second, _ | ⟨third, _ | ⟨fourth, rest⟩⟩⟩
                  · rfl
                  · rfl
                  · rfl
                  · exact fourBytes four (short rest (by simp; omega))
                · simp only [if_neg four]
                  rcases rest with _ | ⟨second, _ | ⟨third, _ | ⟨fourth, rest⟩⟩⟩ <;> simp [four]

theorem validUtf8_eq : validUtf8 text = validString text := validCharacters_eq (Nat.le_refl _)

end Cpp

theorem validString_of_ascii (ascii : ∀ byte ∈ text, byte.toNat < 128) : validString text = true := by
  induction text with
  | nil => rfl
  | cons first rest ih =>
      rw [Cpp.validString_cons, if_pos (ascii first List.mem_cons_self)]
      exact ih fun byte listed => ascii byte (List.mem_cons_of_mem _ listed)

/-- Indexes are ordinary names. -/
theorem validFieldName_text (number : Nat) : validFieldName (Decimal.text number) = true := by
  have digits (byte : UInt8) (listed : byte ∈ Decimal.text number)
      : 48 ≤ byte.toNat ∧ byte.toNat ≤ 57 :=
    Decimal.isDigit_iff.mp (Decimal.isDigit_of_mem_text listed)
  have readable := validString_of_ascii fun byte listed => (digits byte listed).2.trans_lt (by decide)
  obtain ⟨first, rest, isText⟩ := List.exists_cons_of_ne_nil (Decimal.text_ne_nil number)
  have isFirst := digits first (isText ▸ List.mem_cons_self)
  rw [validFieldName, readable, isText, List.head?_cons]
  have other : first ≠ 64 := by
    rintro rfl
    exact absurd isFirst.2 (by decide)
  simp [other]

-- Members

section Member

variable {path : Path} {member : Text}

theorem matchesMember_iff : path.matchesMember member = true ↔ member = path.member := by
  constructor
  · intro isMatch
    simp only [Path.matchesMember, Bool.and_eq_true, decide_eq_true_eq] at isMatch
    obtain ⟨⟨⟨length, isPart⟩, separator⟩, isId⟩ := isMatch
    have inside : path.part.length < member.length := by omega
    have whole := List.take_append_drop path.part.length member
    rw [List.drop_eq_getElem_cons inside, isPart, isId] at whole
    rw [List.getElem?_eq_getElem inside, Option.some.injEq] at separator
    rw [← whole, separator, Path.member, List.append_assoc]
    rfl
  · rintro rfl
    exact matchesMember_member path

theorem Rust.matchesMember_iff
    : Rust.matchesMember path member = true ↔ member = path.member := by
  simp only [Rust.matchesMember, Bool.and_eq_true, decide_eq_true_eq,
    List.isPrefixOf_iff_prefix, List.isSuffixOf_iff_suffix]
  constructor
  · rintro ⟨⟨⟨length, ⟨rest, rfl⟩⟩, separator⟩, isSuffix⟩
    rw [List.getElem?_append_right (Nat.le_refl _), Nat.sub_self] at separator
    rcases rest with _ | ⟨first, rest⟩
    · cases separator
    · rw [List.getElem?_cons_zero, Option.some.injEq] at separator
      rw [List.length_append, List.length_cons] at length
      have same : path.id = rest := by
        have tail : rest <:+ path.part ++ first :: rest :=
          ⟨path.part ++ [first], by rw [List.append_assoc]; rfl⟩
        exact (List.suffix_of_suffix_length_le isSuffix tail (by omega)).eq_of_length (by omega)
      rw [Path.member, same, separator, List.append_assoc]
      rfl
  · rintro rfl
    refine ⟨⟨⟨?_, ?_⟩, ?_⟩, List.suffix_append _ _⟩
    · simp [Path.member]
      omega
    · rw [Path.member, List.append_assoc]
      exact List.prefix_append _ _
    · simp [Path.member]

theorem ascii_of_validPathSegment {limit : Nat} (valid : validPathSegment text limit = true)
    {byte : UInt8} (listed : byte ∈ text)
    : byte.toNat < 128 := by
  rw [validPathSegment, Bool.and_eq_true, List.all_eq_true] at valid
  have plain := valid.2 byte listed
  refine @forall_byte (fun byte => (asciiLetter byte || (48 ≤ byte && byte ≤ 57)
    || byte == 95 || byte == 45 || byte == 46) = true → byte.toNat < 128) ?_ byte plain
  set_option maxRecDepth 2000 in decide

/-- A member is readable. -/
theorem validString_member : validString path.member = true := by
  have valid := path.valid
  rw [Bool.and_eq_true] at valid
  refine validString_of_ascii fun byte listed => ?_
  simp only [Path.member, List.mem_append, List.mem_singleton] at listed
  rcases listed with (inPart | rfl) | inId
  · exact ascii_of_validPathSegment valid.1 inPart
  · decide
  · exact ascii_of_validPathSegment valid.2 inId

end Member

end Sdk.Catalog
