import Verdandi.Support.Decimal
import Verdandi.Support.Redis

/-! Errors of the client libraries, and the numbers they read. -/

namespace Sdk

open Support
open Support.Redis (Text)

inductive Code where
  | invalid
  | protocol
  | contract
  | target
  | capacity
  | missing
  | stale
  | transition
  | immutable
  | corrupt
  | unavailable
  | deadline
  | ambiguous
  | closed
  deriving DecidableEq, Repr

structure Failure where
  code : Code
  field : Text := []
  revision : Nat := 0
  deriving DecidableEq, Repr

def decimalDigits (maximum : Nat) : Nat → Text → Option Nat
  | value, [] => some value
  | value, character :: rest =>
      if Decimal.isDigit character = false then
        none
      else
        let digit := character.toNat - 48
        if maximum < digit ∨ (maximum - digit) / 10 < value then
          none
        else
          decimalDigits maximum (value * 10 + digit) rest

def uintDecimal (source : Text) (maximum : Nat) (allowZero : Bool) : Option Nat :=
  match source with
  | [] => none
  | first :: rest =>
      if first = 48 then
        if allowZero && rest.isEmpty then some 0 else none
      else if first < 49 ∨ 57 < first then
        none
      else
        decimalDigits maximum 0 source

-- Numbers that are read

variable {maximum : Nat}

theorem decimalDigits_append {value middle : Nat} {first second : Text}
    (read : decimalDigits maximum value first = some middle)
    : decimalDigits maximum value (first ++ second) = decimalDigits maximum middle second := by
  induction first generalizing value with
  | nil =>
      cases read
      rfl
  | cons character rest ih =>
      simp only [decimalDigits, List.cons_append] at read ⊢
      split at read
      · cases read
      rename_i isDigit
      split at read
      · cases read
      rename_i small
      rw [if_neg isDigit, if_neg small]
      exact ih read

variable {number : Nat}

/-- The text of a number is read as the number. Witness: induction over the number; its last digit is
read last.
-/
theorem decimalDigits_text (small : number ≤ maximum)
    : decimalDigits maximum 0 (Decimal.text number) = some number := by
  induction number using Nat.strongRecOn with
  | ind number ih =>
      have last (start : Nat) (below : start * 10 + number % 10 ≤ maximum)
          : decimalDigits maximum start [Decimal.digit (number % 10)]
            = some (start * 10 + number % 10) := by
        have remainder : number % 10 < 10 := Nat.mod_lt _ (by decide)
        simp only [decimalDigits, Decimal.isDigit_digit remainder,
          Decimal.toNat_digit remainder, Nat.add_sub_cancel_left]
        rw [if_neg nofun, if_neg]
        omega
      rw [Decimal.text_eq]
      split
      next single =>
        rw [List.nil_append, last 0 (by omega)]
        congr 1
        omega
      rename_i several
      have front := ih (number / 10) (by omega) (by omega)
      rw [decimalDigits_append front, last (number / 10) (by omega)]
      congr 1
      omega

theorem uintDecimal_text {allowZero : Bool} (small : number ≤ maximum)
    (zero : number = 0 → allowZero = true)
    : uintDecimal (Decimal.text number) maximum allowZero = some number := by
  have read := decimalDigits_text small
  rcases Decimal.canonical_text number with isZero | ⟨first, rest, isText, digit, other, digits⟩
  · have none := congrArg Decimal.value isZero
    rw [Decimal.value_text] at none
    have number : number = 0 := none
    rw [isZero, uintDecimal, if_pos rfl, zero number, number]
    rfl
  · have bounds := Decimal.isDigit_iff.mp digit
    rw [isText] at read ⊢
    rw [uintDecimal, if_neg other, if_neg, read]
    rw [UInt8.lt_iff_toNat_lt, UInt8.lt_iff_toNat_lt]
    have different : first.toNat ≠ 48 := fun same => other (UInt8.toNat_inj.mp same)
    rintro (low | high)
    · have := low
      change first.toNat < 49 at this
      omega
    · have := high
      change 57 < first.toNat at this
      omega

end Sdk
