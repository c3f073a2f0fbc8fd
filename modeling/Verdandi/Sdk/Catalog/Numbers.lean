import Verdandi.Sdk.Catalog.Contents
import Verdandi.Sdk.Catalog.Spellings

/-! Numbers are compared and counted up as text by the scripts, and parsed as machine words by Go. -/

namespace Sdk.Validate

open Support
open Support.Redis (Text)
open Catalog (lastRevision)

variable {source : Text} {maximum value number : UInt64} {allowZero : Bool}

def decimalDigits (maximum : UInt64) : UInt64 → Text → Option UInt64
  | value, [] => some value
  | value, character :: rest =>
      if character < 48 ∨ 57 < character then
        none
      else
        let digit := (character - 48).toUInt64
        if maximum < digit ∨ (maximum - digit) / 10 < value then
          none
        else
          decimalDigits maximum (value * 10 + digit) rest

def uintDecimal (source : Text) (maximum : UInt64) (allowZero : Bool) : Option UInt64 :=
  match source with
  | [] => none
  | first :: rest =>
      if first = 48 then
        if allowZero && rest.isEmpty then some 0 else none
      else if first < 49 ∨ 57 < first then
        none
      else
        decimalDigits maximum 0 source

def uintDecimalBytes (source : Text) (maximum : UInt64) (allowZero : Bool) : Option UInt64 :=
  uintDecimal source maximum allowZero

/-- One more digit fits into the maximum, and so into a word. -/
theorem toNat_step {digit : UInt64} (bounded : ¬ (maximum < digit ∨ (maximum - digit) / 10 < value))
    : (value * 10 + digit).toNat = value.toNat * 10 + digit.toNat := by
  rw [not_or, UInt64.not_lt, UInt64.not_lt, UInt64.le_iff_toNat_le, UInt64.le_iff_toNat_le,
    UInt64.toNat_div] at bounded
  have difference := UInt64.toNat_sub_of_le _ _ (UInt64.le_iff_toNat_le.mpr bounded.1)
  have most := maximum.toNat_lt
  rw [UInt64.toNat_add, UInt64.toNat_mul]
  simp only [UInt64.reduceToNat] at bounded ⊢
  omega

/-- The loop computes what one without bounds on its numbers does. Witness: induction over the
digits. -/
theorem decimalDigits_eq
    : (decimalDigits maximum value source).map UInt64.toNat
      = Sdk.decimalDigits maximum.toNat value.toNat source := by
  induction source generalizing value with
  | nil => rfl
  | cons character rest ih =>
      have isDigit : (character < 48 ∨ 57 < character) ↔ Decimal.isDigit character = false := by
        simp [Decimal.isDigit, imp_iff_not_or, UInt8.not_le]
      rw [decimalDigits, Sdk.decimalDigits]
      by_cases other : character < 48 ∨ 57 < character
      · rw [if_pos other, if_pos (isDigit.mp other)]
        rfl
      rw [if_neg other, if_neg (mt isDigit.mpr other)]
      have least : (48 : UInt8) ≤ character := UInt8.not_lt.mp fun less => other (.inl less)
      have toNat : ((character - 48).toUInt64).toNat = character.toNat - 48 := by
        rw [UInt8.toNat_toUInt64, UInt8.toNat_sub_of_le _ _ least]
        rfl
      dsimp only
      rw [← toNat]
      generalize (character - 48).toUInt64 = digit
      have bounded : (maximum < digit ∨ (maximum - digit) / 10 < value)
          ↔ (maximum.toNat < digit.toNat ∨ (maximum.toNat - digit.toNat) / 10 < value.toNat) := by
        rw [UInt64.lt_iff_toNat_lt, UInt64.lt_iff_toNat_lt, UInt64.toNat_div]
        refine or_congr_right' fun fits => ?_
        rw [UInt64.toNat_sub_of_le _ _ (UInt64.le_iff_toNat_le.mpr (Nat.not_lt.mp fits))]
        rfl
      by_cases large : maximum < digit ∨ (maximum - digit) / 10 < value
      · rw [if_pos large, if_pos (bounded.mp large)]
        rfl
      · rw [if_neg large, if_neg (mt bounded.mpr large), ih, toNat_step large]

theorem uintDecimal_eq
    : (uintDecimal source maximum allowZero).map UInt64.toNat
      = Sdk.uintDecimal source maximum.toNat allowZero := by
  cases source with
  | nil => rfl
  | cons first rest =>
      rw [uintDecimal, Sdk.uintDecimal]
      split
      · split <;> rfl
      · split
        · rfl
        · exact decimalDigits_eq

theorem uintDecimal_eq_some
    : uintDecimal source maximum allowZero = some number
      ↔ source = Decimal.text number.toNat ∧ number ≤ maximum ∧ (number = 0 → allowZero = true) := by
  rw [UInt64.le_iff_toNat_le, ← UInt64.toNat_inj, UInt64.toNat_zero,
    ← Catalog.uintDecimal_eq_some, ← uintDecimal_eq]
  simp [UInt64.toNat_inj]

theorem isSome_uintDecimal
    : (uintDecimal source maximum allowZero).isSome = true
      ↔ ∃ number, source = Decimal.text number ∧ number ≤ maximum.toNat
        ∧ (number = 0 → allowZero = true) := by
  simp only [← Catalog.uintDecimal_eq_some]
  rw [← uintDecimal_eq, ← Option.isSome_iff_exists, Option.isSome_map]

/-- For every text: the scripts accept the numbers up to the last revision, compare numbers of any
length as numbers, and count up by one; Go accepts the numbers up to its maximum, with zero only where it
is allowed, and returns the number, after steps none of which wraps around; and up to the last
revision both accept the same.
-/
theorem decimal_law
    : (∀ text, Catalog.canonicalNonnegative (some text) = true
        ↔ Decimal.Canonical text ∧ Decimal.value text ≤ lastRevision)
      ∧ (∀ text, Catalog.canonicalPositive (some text) = true
        ↔ Decimal.Canonical text ∧ 0 < Decimal.value text ∧ Decimal.value text ≤ lastRevision)
      ∧ (∀ left right, Decimal.Canonical left → Decimal.Canonical right
        → Catalog.decimalLess left right = decide (Decimal.value left < Decimal.value right))
      ∧ (∀ text, Decimal.Canonical text
        → Decimal.Canonical (Catalog.incrementDecimal text)
          ∧ Decimal.value (Catalog.incrementDecimal text) = Decimal.value text + 1)
      ∧ (∀ parse ∈ [uintDecimal, uintDecimalBytes],
        ∀ (source : Text) (maximum : UInt64) (allowZero : Bool),
        (∀ number, parse source maximum allowZero = some number
          ↔ (Decimal.Canonical source ∧ Decimal.value source = number.toNat)
            ∧ number ≤ maximum ∧ (number = 0 → allowZero = true))
        ∧ (maximum.toNat = lastRevision
          → (parse source maximum allowZero).isSome
            = if allowZero then Catalog.canonicalNonnegative (some source)
              else Catalog.canonicalPositive (some source)))
      ∧ ∀ (maximum : UInt64) (before after : Text), decimalDigits maximum 0 (before ++ after)
          = (decimalDigits maximum 0 before).bind (decimalDigits maximum · after)
        ∧ ∀ value ∈ decimalDigits maximum 0 before, value.toNat = Decimal.value before := by
  have spelled {text : Text} {holds : Nat → Prop}
      : (∃ number, text = Decimal.text number ∧ holds number)
        ↔ Decimal.Canonical text ∧ holds (Decimal.value text) := by
    simp only [Catalog.eq_text_iff]
    exact ⟨fun ⟨_, ⟨canonical, rfl⟩, held⟩ => ⟨canonical, held⟩,
      fun ⟨canonical, held⟩ => ⟨_, ⟨canonical, rfl⟩, held⟩⟩
  have natural (text : Text) : Catalog.canonicalNonnegative (some text) = true
      ↔ Decimal.Canonical text ∧ Decimal.value text ≤ lastRevision := by
    rw [Catalog.canonicalNonnegative_iff, ← @spelled text (· ≤ lastRevision)]
    simp [and_comm]
  have positive (text : Text) : Catalog.canonicalPositive (some text) = true
      ↔ Decimal.Canonical text ∧ 0 < Decimal.value text ∧ Decimal.value text ≤ lastRevision := by
    rw [Catalog.canonicalPositive, Bool.and_eq_true, natural, bne_iff_ne]
    have zero : some text ≠ some (ascii "0") ↔ text ≠ Decimal.text 0 := by simp
    rw [zero, ne_eq, Catalog.eq_text_iff]
    constructor
    · rintro ⟨other, canonical, small⟩
      exact ⟨canonical, Nat.pos_of_ne_zero fun none => other ⟨canonical, none⟩, small⟩
    · rintro ⟨canonical, some, small⟩
      exact ⟨fun none => some.ne' none.2, canonical, small⟩
  refine ⟨natural, positive, fun left right canonical others => ?_, fun text canonical => ?_,
    fun parse listed source maximum allowZero => ?_, fun maximum before after => ⟨?_, ?_⟩⟩
  · rw [← canonical.text_value, ← others.text_value, Catalog.decimalLess, Decimal.less_text,
      Decimal.value_text, Decimal.value_text]
  · rw [← canonical.text_value, Catalog.incrementDecimal, Decimal.increment_text,
      Decimal.value_text, Decimal.value_text]
    exact ⟨Decimal.canonical_text _, rfl⟩
  · have same : parse = uintDecimal := by
      rcases List.mem_cons.mp listed with isParse | isBytes
      · exact isParse
      · exact List.mem_singleton.mp isBytes
    subst same
    refine ⟨fun number => ?_, fun last => ?_⟩
    · rw [uintDecimal_eq_some, Catalog.eq_text_iff]
    · rw [Bool.eq_iff_iff, isSome_uintDecimal, spelled, last]
      cases allowZero with
      | true =>
          rw [if_pos rfl, natural]
          simp
      | false =>
          rw [if_neg (by rintro ⟨⟩), positive]
          simp [Nat.pos_iff_ne_zero, and_comm]
  · generalize (0 : UInt64) = value
    induction before generalizing value with
    | nil => rfl
    | cons character rest ih =>
        rw [List.cons_append, decimalDigits, decimalDigits]
        split
        · rfl
        · dsimp only
          split
          · rfl
          · exact ih _
  · intro value read
    have exact := @decimalDigits_eq before maximum 0
    rw [Option.mem_def.mp read] at exact
    exact (Catalog.decimalDigits_eq_some (Nat.zero_le _) exact.symm).2.2

end Sdk.Validate
