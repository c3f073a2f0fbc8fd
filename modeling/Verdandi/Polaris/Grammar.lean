import Verdandi.Sdk.Catalog.Spellings
import Verdandi.Star.Receiver

/-! The grammar of texts: a Star takes the Scopes and keys that the authority commits, and no others. -/

namespace Astra.Scope

open Sdk.Catalog (validString continues)
open Sdk.Catalog.Cpp (validCharacters continueCodepoint characterStart validString_cons
  continues_iff characterStart_eq)

variable {value text rest : Bytes} {rounds maximum : Nat}

-- Well-formed texts

/-- A text is the encodings of characters, one after the other; each is a Unicode scalar value. -/
def WellFormed (text : Bytes) : Prop :=
  ∃ characters : List Char, text = characters.flatMap String.utf8EncodeChar

variable {code : Nat}

theorem exists_character (valid : code < 0xd800 ∨ (0xdfff < code ∧ code < 0x110000))
    : ∃ character : Char, character.val.toNat = code := by
  have small : (UInt32.ofNat code).toNat = code := by
    rw [UInt32.toNat_ofNat']
    exact Nat.mod_eq_of_lt (by omega)
  refine ⟨⟨UInt32.ofNat code, ?_⟩, small⟩
  rw [UInt32.isValidChar, small]
  exact valid

theorem ofNat_eq {number : Nat} {byte : UInt8} (same : number = byte.toNat)
    : UInt8.ofNat number = byte := by
  rw [same, UInt8.ofNat_toNat]

/-- Go accepts the encoding of each character. -/
theorem validString_encode (character : Char) (rest : Bytes)
    : validString (String.utf8EncodeChar character ++ rest) = validString rest := by
  have valid : character.val.toNat < 0xd800
      ∨ (0xdfff < character.val.toNat ∧ character.val.toNat < 0x110000) := character.valid
  have byte {number : Nat} (small : number < 256) : (UInt8.ofNat number).toNat = number := by
    rw [UInt8.toNat_ofNat']
    exact Nat.mod_eq_of_lt small
  unfold String.utf8EncodeChar
  generalize character.val.toNat = code at valid
  have tail (part : Nat) : continues (UInt8.ofNat (part % 64 + 128)) = true := by
    rw [continues_iff, byte (by omega)]
    omega
  dsimp only
  split
  next one => rw [List.singleton_append, validString_cons, byte (by omega), if_pos (by omega)]
  split
  next two =>
    simp only [List.cons_append, List.nil_append]
    rw [validString_cons, byte (by omega), if_neg (by omega)]
    dsimp only
    rw [if_pos (by omega), tail, Bool.true_and]
  split
  next three =>
    simp only [List.cons_append, List.nil_append]
    rw [validString_cons, byte (by omega), if_neg (by omega)]
    dsimp only
    rw [if_neg (by omega), if_pos (by omega), byte (by omega), tail, tail]
    split
    · rw [decide_eq_true (by omega), Bool.true_and, Bool.true_and]
    · split
      · rw [decide_eq_true (by omega), Bool.true_and, Bool.true_and]
      · rfl
  next four =>
    simp only [List.cons_append, List.nil_append]
    rw [validString_cons, byte (by omega), if_neg (by omega)]
    dsimp only
    rw [if_neg (by omega), if_neg (by omega), byte (by omega), tail, tail, tail,
      decide_eq_true (by omega : 240 ≤ code / 262144 % 8 + 240 ∧ code / 262144 % 8 + 240 ≤ 244)]
    split
    · rw [decide_eq_true (by omega)]
      rfl
    · split
      · rw [decide_eq_true (by omega)]
        rfl
      · rfl

/-- What Go accepts starts with the encoding of a character. -/
theorem exists_encode {first : UInt8} (valid : validString (first :: rest) = true)
    : ∃ character later, first :: rest = String.utf8EncodeChar character ++ later
      ∧ validString later = true := by
  have found {code : Nat} {encoded later : Bytes}
      (scalar : code < 0xd800 ∨ (0xdfff < code ∧ code < 0x110000))
      (spelled : ∀ character : Char, character.val.toNat = code
        → String.utf8EncodeChar character = encoded)
      (isText : first :: rest = encoded ++ later) (after : validString later = true)
      : ∃ character later, first :: rest = String.utf8EncodeChar character ++ later
        ∧ validString later = true := by
    obtain ⟨character, isCode⟩ := exists_character scalar
    exact ⟨character, later, by rw [spelled character isCode, isText], after⟩
  rw [validString_cons] at valid
  have bound := first.toNat_lt
  split at valid
  next one =>
    refine found (.inl (by omega : first.toNat < 0xd800)) (fun character isCode => ?_)
      (List.singleton_append (x := first)).symm valid
    simp only [String.utf8EncodeChar, isCode]
    rw [if_pos (by omega), UInt8.ofNat_toNat]
  next many =>
    rcases rest with _ | ⟨second, rest⟩
    · cases valid
    dsimp only at valid
    split at valid
    next two =>
      rw [Bool.and_eq_true, continues_iff] at valid
      refine found (.inl (by omega : first.toNat % 32 * 64 + second.toNat % 64 < 0xd800))
        (fun character isCode => ?_) (by simp : first :: second :: rest = [first, second] ++ rest)
        valid.2
      simp only [String.utf8EncodeChar, isCode]
      rw [if_neg (by omega), if_pos (by omega), @ofNat_eq _ first (by omega),
        @ofNat_eq _ second (by omega)]
    next wider =>
      rcases rest with _ | ⟨third, rest⟩
      · cases valid
      dsimp only at valid
      split at valid
      next three =>
        simp only [Bool.and_eq_true, continues_iff] at valid
        have seconds : 128 ≤ second.toNat ∧ second.toNat ≤ 191
            ∧ (first.toNat = 224 → 160 ≤ second.toNat) ∧ (first.toNat = 237 → second.toNat ≤ 159) := by
          have chosen := valid.1.1
          split_ifs at chosen
          all_goals first
            | rw [decide_eq_true_eq] at chosen
            | rw [continues_iff] at chosen
          all_goals omega
        refine @found ((first.toNat % 16 * 64 + second.toNat % 64) * 64 + third.toNat % 64) _ _
          (by omega) (fun character isCode => ?_)
          (by simp : first :: second :: third :: rest = [first, second, third] ++ rest) valid.2
        simp only [String.utf8EncodeChar, isCode]
        rw [if_neg (by omega), if_neg (by omega), if_pos (by omega),
          @ofNat_eq _ first (by omega), @ofNat_eq _ second (by omega),
          @ofNat_eq _ third (by omega)]
      next widest =>
        rcases rest with _ | ⟨fourth, rest⟩
        · cases valid
        simp only [Bool.and_eq_true, continues_iff, decide_eq_true_eq] at valid
        have seconds : 128 ≤ second.toNat ∧ second.toNat ≤ 191
            ∧ (first.toNat = 240 → 144 ≤ second.toNat) ∧ (first.toNat = 244 → second.toNat ≤ 143) := by
          have chosen := valid.1.1.1.2
          split_ifs at chosen
          all_goals first
            | rw [decide_eq_true_eq] at chosen
            | rw [continues_iff] at chosen
          all_goals omega
        refine @found (((first.toNat % 8 * 64 + second.toNat % 64) * 64 + third.toNat % 64) * 64
            + fourth.toNat % 64) _ _ (by omega) (fun character isCode => ?_)
          (by simp : first :: second :: third :: fourth :: rest
            = [first, second, third, fourth] ++ rest) valid.2
        simp only [String.utf8EncodeChar, isCode]
        rw [if_neg (by omega), if_neg (by omega), if_neg (by omega),
          @ofNat_eq _ first (by omega), @ofNat_eq _ second (by omega),
          @ofNat_eq _ third (by omega), @ofNat_eq _ fourth (by omega)]

/-- Witness: induction over the characters, and over the length of the text. -/
theorem validString_iff : validString text = true ↔ WellFormed text := by
  constructor
  · intro valid
    induction length : text.length using Nat.strong_induction_on generalizing text with
    | _ size ih =>
        cases text with
        | nil => exact ⟨[], rfl⟩
        | cons first rest =>
            obtain ⟨character, later, isText, after⟩ := exists_encode valid
            have filled : 0 < (String.utf8EncodeChar character).length :=
              List.length_pos_iff.mpr String.utf8EncodeChar_ne_nil
            have sizes := congrArg List.length isText
            rw [List.length_append, length] at sizes
            obtain ⟨characters, isLater⟩ := ih later.length (by omega) after rfl
            exact ⟨character :: characters, by rw [isText, isLater, List.flatMap_cons]⟩
  · rintro ⟨characters, rfl⟩
    induction characters with
    | nil => rfl
    | cons character rest ih => rw [List.flatMap_cons, validString_encode, ih]

-- The check of a Star

theorem continuation_eq (count code : Nat) (text : Bytes)
    : continuation count code text = continueCodepoint count code text := by
  induction count generalizing code text with
  | zero => rfl
  | succ count ih =>
      cases text with
      | nil => rfl
      | cons byte rest =>
          rw [continuation, continueCodepoint]
          by_cases one : byte &&& 0xc0 = 0x80
          · rw [if_pos one, if_neg (not_not.mpr one), ih]
          · rw [if_neg one, if_pos one]

/-- The bytes that continue a character are none of them zero. -/
theorem continuation_some {count decoded : Nat}
    (read : continuation count code text = some (decoded, rest))
    : ∃ middle, text = middle ++ rest ∧ middle.length = count ∧ (0 : UInt8) ∉ middle := by
  induction count generalizing code text with
  | zero =>
      cases read
      exact ⟨[], rfl, rfl, nofun⟩
  | succ count ih =>
      cases text with
      | nil => cases read
      | cons byte later =>
          rw [continuation] at read
          split at read
          · rename_i one
            obtain ⟨middle, rfl, length, filled⟩ := ih read
            refine ⟨byte :: middle, rfl, by rw [List.length_cons, length], ?_⟩
            rw [List.mem_cons, not_or]
            refine ⟨?_, filled⟩
            rintro rfl
            exact absurd one (by decide)
          · cases read

/-- What a first byte announces, as the client reads it. -/
theorem characterStart_following (first : UInt8)
    : characterStart first = if first < 0x80 then some (1, first.toNat)
        else if following first = 0 then none
        else some (following first + 1,
          if following first = 1 then (first &&& 0x1f).toNat
          else if following first = 2 then (first &&& 0x0f).toNat
          else (first &&& 0x07).toNat) := by
  revert first
  apply Sdk.Catalog.forall_byte
  set_option maxRecDepth 2000 in decide

theorem following_bounds (first : UInt8)
    : following first ≤ 3 ∧ (following first = 1 → 2 ≤ (first &&& 0x1f).toNat) := by
  revert first
  apply Sdk.Catalog.forall_byte
  set_option maxRecDepth 2000 in decide

/-- A Star reads characters as a client does, and refuses zeros. Witness: induction over the rounds. -/
theorem scan_eq (rounds : Nat) (text : Bytes)
    : scan rounds text = (!text.contains 0 && validCharacters rounds text) := by
  induction rounds generalizing text with
  | zero => cases text <;> simp [scan, validCharacters]
  | succ rounds ih =>
      cases text with
      | nil => simp [scan, validCharacters]
      | cons first rest =>
          rw [scan, validCharacters, characterStart_following, List.contains_cons]
          by_cases zero : first = 0
          · simp [zero]
          have other : ((0 : UInt8) == first) = false := beq_eq_false_iff_ne.mpr (Ne.symm zero)
          rw [if_neg zero, other, Bool.false_or]
          by_cases ascii : first < 0x80
          · have small : first.toNat < 128 := UInt8.lt_iff_toNat_lt.mp ascii
            simp only [if_pos ascii, Nat.sub_self, continueCodepoint]
            rw [if_neg (by omega), if_neg (by omega), ih]
          obtain ⟨most, least⟩ := following_bounds first
          simp only [if_neg ascii]
          generalize following first = count at most least
          by_cases never : count = 0
          · simp [never]
          by_cases few : rest.length < count
          · simp [never, few]
          rw [if_neg (by omega : ¬ (count = 0 ∨ count > rest.length)), if_neg never]
          dsimp only
          rw [if_neg (by omega : ¬ rest.length + 1 < count + 1), Nat.add_sub_cancel,
            ← continuation_eq]
          generalize isCode : (if count = 1 then (first &&& 0x1f).toNat
            else if count = 2 then (first &&& 0x0f).toNat else (first &&& 0x07).toNat) = code
          cases read : continuation count code rest with
          | none => simp
          | some result =>
              obtain ⟨decoded, remaining⟩ := result
              obtain ⟨middle, rfl, length, filled⟩ := continuation_some read
              have two : count = 1 → 0x80 ≤ decoded := by
                rintro rfl
                rw [if_pos rfl] at isCode
                obtain ⟨byte, rfl⟩ := List.length_eq_one_iff.mp length
                rw [continuation_eq, List.singleton_append,
                  Sdk.Catalog.Cpp.continueCodepoint_cons] at read
                split at read
                · cases read
                  have := least rfl
                  omega
                · cases read
              have same : (decoded < (if count = 1 then 0x80 else if count = 2 then 0x800 else 0x10000)
                    ∨ decoded > 0x10ffff ∨ (decoded ≥ 0xd800 ∧ decoded ≤ 0xdfff))
                  ↔ ((count + 1 = 3 ∧ decoded < 0x800) ∨ (count + 1 = 4 ∧ decoded < 0x10000)
                    ∨ (0xd800 ≤ decoded ∧ decoded ≤ 0xdfff) ∨ 0x10ffff < decoded) := by
                split_ifs <;> omega
              have contains : (middle ++ remaining).contains 0 = remaining.contains 0 := by
                simp [filled]
              simp only [contains, same]
              split
              · rw [Bool.and_false]
              · exact ih remaining

-- Reads at positions

/-- The inner loop at a position of the text: none where a byte beyond the end is read. -/
def continuationAt (value : Bytes) : Nat → Nat → Nat → Option (Option (Nat × Nat))
  | 0, code, position => some (some (code, position))
  | count + 1, code, position =>
      match value[position]? with
      | none => none
      | some byte =>
          if byte &&& 0xc0 = 0x80 then
            continuationAt value count ((code <<< 6) ||| (byte &&& 0x3f).toNat) (position + 1)
          else
            some none

/-- The outer loop at a position of the text: none where a byte beyond the end is read, or where there
is no end after as many rounds.
-/
def scanAt (value : Bytes) : Nat → Nat → Option Bool
  | 0, position => if value.length ≤ position then some true else none
  | rounds + 1, position =>
      if value.length ≤ position then
        some true
      else
        match value[position]? with
        | none => none
        | some first =>
            if first = 0 then
              some false
            else if first < 0x80 then
              scanAt value rounds (position + 1)
            else
              let count := following first
              let minimum := if count = 1 then 0x80 else if count = 2 then 0x800 else 0x10000
              let code :=
                if count = 1 then (first &&& 0x1f).toNat
                else if count = 2 then (first &&& 0x0f).toNat
                else (first &&& 0x07).toNat
              if count = 0 ∨ count > value.length - (position + 1) then
                some false
              else
                match continuationAt value count code (position + 1) with
                | none => none
                | some none => some false
                | some (some (decoded, position)) =>
                    if decoded < minimum ∨ decoded > 0x10ffff
                        ∨ (decoded ≥ 0xd800 ∧ decoded ≤ 0xdfff) then
                      some false
                    else
                      scanAt value rounds position

/-- Witness: induction over the bytes that are announced. -/
theorem continuationAt_eq {before rest : Bytes} {count code : Nat} (inside : count ≤ rest.length)
    : continuationAt (before ++ rest) count code before.length
      = some ((continuation count code rest).map fun result => (result.1, before.length + count)) := by
  induction count generalizing before rest code with
  | zero => rfl
  | succ count ih =>
      cases rest with
      | nil => cases inside
      | cons byte rest =>
          have next := @ih (before ++ [byte]) rest ((code <<< 6) ||| (byte &&& 0x3f).toNat)
            (Nat.le_of_succ_le_succ inside)
          rw [List.append_assoc, List.singleton_append, List.length_append, List.length_singleton]
            at next
          rw [continuationAt, continuation, List.getElem?_append_right (Nat.le_refl _), Nat.sub_self,
            List.getElem?_cons_zero]
          dsimp only
          split
          · rw [next, Nat.add_assoc, Nat.add_comm 1]
          · rfl

/-- Every byte that is read is one of the text, and as many rounds as it has bytes are enough. Witness:
induction over the rounds.
-/
theorem scanAt_eq {before text : Bytes} (enough : text.length ≤ rounds)
    : scanAt (before ++ text) rounds before.length = some (scan rounds text) := by
  induction rounds generalizing before text with
  | zero =>
      rw [List.length_eq_zero_iff.mp (Nat.le_zero.mp enough), scanAt, List.append_nil, if_pos (Nat.le_refl _)]
      rfl
  | succ rounds ih =>
      cases text with
      | nil =>
          rw [scanAt, List.append_nil, if_pos (Nat.le_refl _)]
          rfl
      | cons first rest =>
          have shorter := Nat.le_of_succ_le_succ enough
          have split {middle remaining : Bytes} (isRest : rest = middle ++ remaining)
              : scanAt (before ++ first :: rest) rounds (before.length + 1 + middle.length)
                = some (scan rounds remaining) := by
            subst isRest
            rw [List.length_append] at shorter
            have next := @ih (before ++ first :: middle) remaining (by omega)
            rwa [List.append_assoc, List.cons_append, List.length_append, List.length_cons,
              Nat.add_comm middle.length, ← Nat.add_assoc] at next
          have left : (before ++ first :: rest).length - (before.length + 1) = rest.length := by
            rw [List.length_append, List.length_cons]
            omega
          have more : ¬ (before ++ first :: rest).length ≤ before.length := by
            rw [List.length_append, List.length_cons]
            omega
          rw [scanAt, scan, if_neg more, List.getElem?_append_right (Nat.le_refl _), Nat.sub_self,
            List.getElem?_cons_zero, left]
          dsimp only
          split
          · rfl
          split
          · exact @split [] rest rfl
          split
          · rfl
          rename_i inside
          have within : following first ≤ rest.length := by omega
          have read := @continuationAt_eq (before ++ [first]) rest (following first)
            (if following first = 1 then (first &&& 0x1f).toNat
              else if following first = 2 then (first &&& 0x0f).toNat
              else (first &&& 0x07).toNat) within
          rw [List.append_assoc, List.singleton_append, List.length_append, List.length_singleton]
            at read
          rw [read]
          cases decoding : continuation (following first) _ rest with
          | none => rfl
          | some result =>
              obtain ⟨decoded, remaining⟩ := result
              obtain ⟨middle, isRest, length, _⟩ := continuation_some decoding
              have next := split isRest
              rw [length] at next
              simp only [Option.map_some, next]
              exact (apply_ite some _ _ _).symm

def textAt (value : Bytes) (maximum : Nat) : Option Bool :=
  if value.isEmpty || value.length > maximum then some false else scanAt value value.length 0

end Astra.Scope

namespace Polaris.Storage

open Astra Astra.Scope
open Sdk.Catalog (validString)

variable {value : Bytes} {maximum : Nat}

-- The checks of the authority

def text (value : Bytes) (maximum : Nat) : Bool :=
  0 < value.length && value.length ≤ maximum && !value.contains 0 && validString value

def valid (scope : Scope) : Bool :=
  text scope.sector 128 && text scope.spectrum 128

structure Change where
  version : UInt64
  key : Bytes
  value : Bytes
  erase : Bool

def Change.message (change : Change) : Proto.AlmanacChange where
  key := change.key
  action := if change.erase then .erase else .value change.value

/-- What `Commit` checks of its arguments. -/
def Change.shaped (scope : Scope) (change : Change) : Bool :=
  valid scope && text change.key 1024 && change.version != 0 && change.value.length ≤ 2 ^ 20
    && !(change.erase && change.value.length != 0)

/-- The records of the credential Scope; `parse` gets the secret of a `Credential`. -/
def credential (parse : Bytes → Option Bytes) (scope : Scope) (change : Change) : Bool :=
  if scope ≠ Scope.auth then
    true
  else if change.key.length = 0 ∨ change.key.length > 128 ∨ validString change.key = false
      ∨ change.key.contains 0 = true then
    false
  else if change.erase then
    true
  else
    change.value.length ≤ 8192
      && (parse change.value).any fun secret => 0 < secret.length && secret.length ≤ 4096

theorem text_eq : Storage.text value maximum = Scope.text value maximum := by
  rw [Storage.text, Scope.text, scan_eq, Sdk.Catalog.Cpp.validCharacters_eq (Nat.le_refl _)]
  cases value <;> simp [Bool.and_assoc]

theorem valid_eq (scope : Scope) : Storage.valid scope = scope.valid := by
  rw [Storage.valid, text_eq, text_eq, Scope.valid]

theorem textAt_eq : textAt value maximum = some (Scope.text value maximum) := by
  have whole := @scanAt_eq value.length [] value (Nat.le_refl _)
  rw [List.nil_append, List.length_nil] at whole
  rw [textAt, Scope.text, whole]
  cases value.isEmpty <;> by_cases long : value.length > maximum <;> simp [long]
  omega

/-- What a change is that the authority commits, and a Star installs. -/
theorem admits_eq (parse : Bytes → Option Bytes) (scope : Scope) (change : Change)
    : (credential parse scope change && change.shaped scope)
      = (scope.valid && Receiver.valid parse scope change.message false && change.version != 0
        && !(change.erase && change.value.length != 0)) := by
  have keyed : Scope.text change.key 1024 = true
      → validString change.key = true ∧ 0 ∉ change.key ∧ change.key ≠ [] := by
    rw [← text_eq, Storage.text]
    simp only [Bool.and_eq_true, Bool.not_eq_true', decide_eq_true_eq, List.contains_eq_mem,
      decide_eq_false_iff_not, List.length_pos_iff]
    exact fun accepted => ⟨accepted.2, accepted.1.2, accepted.1.1.1⟩
  have secrets (secret : Bytes) : decide (0 < secret.length) = !secret.isEmpty := by
    cases secret <;> rfl
  rw [Change.shaped, text_eq, valid_eq, credential, Receiver.valid, Bool.eq_iff_iff]
  cases known : Scope.text change.key 1024 with
  | false => simp [Change.message, known]
  | true =>
      obtain ⟨isValid, filled, some⟩ := keyed known
      have empty : change.value = [] → change.value.length ≤ 1048576 := by
        intro none
        rw [none]
        exact Nat.zero_le _
      cases isErase : change.erase with
      | true =>
          simp only [Change.message, isErase, isValid, known, secrets]
          simp [Proto.AlmanacChange.value, Proto.AlmanacChange.payload, Proto.Action.value?, filled,
            some]
          tauto
      | false =>
          simp only [Change.message, isErase, isValid, known, secrets]
          simp [Proto.AlmanacChange.value, Proto.AlmanacChange.payload, Proto.Action.value?, filled,
            some]
          tauto

/-- For every text and maximum: a Star takes just the texts that are not empty, within the maximum,
well-formed and without a zero; it reads none but their bytes and comes to an end; the authority
takes the same texts and Scopes; and it commits just the changes that a Star takes, if they say what they
should.
-/
theorem grammar_law (value : Bytes) (maximum : Nat)
    : (Scope.text value maximum = true
        ↔ value ≠ [] ∧ value.length ≤ maximum ∧ WellFormed value ∧ 0 ∉ value)
      ∧ textAt value maximum = some (Scope.text value maximum)
      ∧ Storage.text value maximum = Scope.text value maximum
      ∧ (∀ scope, Storage.valid scope = scope.valid)
      ∧ ∀ parse scope (change : Change), (credential parse scope change && change.shaped scope)
            = (scope.valid && Receiver.valid parse scope change.message false
              && change.version != 0 && !(change.erase && change.value.length != 0))
          ∧ (change.erase = false
            → Receiver.valid parse scope change.message true
              = Receiver.valid parse scope change.message false) := by
  refine ⟨?_, textAt_eq, text_eq, valid_eq, fun parse scope change =>
    ⟨admits_eq parse scope change, fun kept => ?_⟩⟩
  · rw [← text_eq, Storage.text, ← validString_iff]
    simp only [List.length_pos_iff, Bool.and_eq_true, decide_eq_true_eq, Bool.not_eq_true',
      List.contains_eq_mem, decide_eq_false_iff_not]
    tauto
  · rw [Receiver.valid, Receiver.valid]
    simp [Change.message, kept, Proto.AlmanacChange.payload, Proto.Action.value?]

end Polaris.Storage
