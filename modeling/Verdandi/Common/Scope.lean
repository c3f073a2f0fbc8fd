import Mathlib

/-! Business addresses: two independent UTF-8 texts, compared byte by byte. -/

namespace Astra

/-- A `std::string` or `Buffer`: raw bytes with no character encoding of their own. -/
abbrev Bytes := List UInt8

def Bytes.rank (text : Bytes) : List Nat :=
  text.map UInt8.toNat

theorem Bytes.rank_injective : Function.Injective Bytes.rank :=
  List.map_injective_iff.mpr fun _ _ equal => UInt8.toNat_inj.mp equal

/-- The largest value of the machine words `std::uint64_t` and `std::size_t`. -/
def maxWord : Nat := 2 ^ 64 - 1

structure Scope where
  sector : Bytes
  spectrum : Bytes
  deriving DecidableEq, Repr, Inhabited

namespace Scope

-- UTF-8 validation

/-- How many continuation bytes a leading byte of at least `0x80` announces; zero for a
byte that starts no code point.
-/
def following (first : UInt8) : Nat :=
  if 0xc2 ≤ first ∧ first ≤ 0xdf then 1
  else if 0xe0 ≤ first ∧ first ≤ 0xef then 2
  else if 0xf0 ≤ first ∧ first ≤ 0xf4 then 3
  else 0

/-- The inner loop: consume `count` continuation bytes, each in `0x80..0xbf`, and collect
their six payload bits.
-/
def continuation : Nat → Nat → Bytes → Option (Nat × Bytes)
  | 0, code, rest => some (code, rest)
  | _ + 1, _, [] => none
  | count + 1, code, byte :: rest =>
      if byte &&& 0xc0 = 0x80 then
        continuation count ((code <<< 6) ||| (byte &&& 0x3f).toNat) rest
      else
        none

/-- The outer loop of `Scope::text`. Every round consumes at least one byte, so as many
rounds as there are bytes are enough.
-/
def scan : Nat → Bytes → Bool
  | _, [] => true
  | 0, _ :: _ => false
  | rounds + 1, first :: rest =>
      if first = 0 then
        false
      else if first < 0x80 then
        scan rounds rest
      else
        let count := following first
        let minimum := if count = 1 then 0x80 else if count = 2 then 0x800 else 0x10000
        let code :=
          if count = 1 then (first &&& 0x1f).toNat
          else if count = 2 then (first &&& 0x0f).toNat
          else (first &&& 0x07).toNat
        if count = 0 ∨ count > rest.length then
          false
        else
          match continuation count code rest with
          | none => false
          | some (decoded, remaining) =>
              if decoded < minimum ∨ decoded > 0x10ffff ∨ (decoded ≥ 0xd800 ∧ decoded ≤ 0xdfff) then
                false
              else
                scan rounds remaining

/-- Non-empty UTF-8 text without NUL, of at most `maximum` bytes. -/
def text (value : Bytes) (maximum : Nat) : Bool :=
  !value.isEmpty && value.length ≤ maximum && scan value.length value

def valid (scope : Scope) : Bool :=
  text scope.sector 128 && text scope.spectrum 128

def internal (scope : Scope) : Bool :=
  [0x5f, 0x5f].isPrefixOf scope.sector

/-- The byte order of the two parts, sector first: the order of the routing maps. -/
def before (left right : Scope) : Bool :=
  decide (left.sector < right.sector)
    || (left.sector == right.sector && !decide (right.spectrum < left.spectrum))

/-- `__auth/comet`, the only Scope whose records are read as credentials. -/
def auth : Scope where
  sector := [0x5f, 0x5f, 0x61, 0x75, 0x74, 0x68]
  spectrum := [0x63, 0x6f, 0x6d, 0x65, 0x74]

/-- Accepted text is not empty and within its bound. -/
theorem text_bounds {value : Bytes} {maximum : Nat} (accepted : text value maximum = true)
    : 0 < value.length ∧ value.length ≤ maximum := by
  simp only [text, Bool.and_eq_true, Bool.not_eq_true', List.isEmpty_eq_false_iff,
    decide_eq_true_eq] at accepted
  exact ⟨List.length_pos_iff.mpr accepted.1.1, accepted.1.2⟩

example : auth.valid = true := by decide

end Scope

end Astra
