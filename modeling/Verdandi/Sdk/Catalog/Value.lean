import Verdandi.Sdk.Catalog.Zone
import Verdandi.Sdk.Failure

/-! Values as a client holds them, and what a client checks about a complete value. -/

namespace Sdk.Catalog

open Support
open Support.Redis (Text)

inductive EntryStatus where
  | synchronizing
  | present
  | absent
  | deleted
  | unavailable
  | closed
  deriving DecidableEq, Repr

structure RawState where
  revision : Nat := 0
  replaceRevision : Nat := 0
  status : EntryStatus
  kind : Option Kind := none
  encodedBytes : Nat := 0
  fields : Assoc Text Text := ∅

def completePresent (state : Option RawState) : Bool :=
  match state with
  | none => false
  | some state => state.revision ≠ 0 && state.replaceRevision ≠ 0 && state.kind.isSome

def deletedState (revision : Nat) : RawState :=
  if revision = 0 then { status := .absent } else { revision, status := .deleted }

-- Names

def continues (byte : UInt8) : Bool := 128 ≤ byte && byte ≤ 191

def validString : Text → Bool
  | [] => true
  | first :: rest =>
      if first < 128 then
        validString rest
      else
        match rest with
        | [] => false
        | second :: rest =>
            if 194 ≤ first ∧ first ≤ 223 then
              continues second && validString rest
            else
              match rest with
              | [] => false
              | third :: rest =>
                  if 224 ≤ first ∧ first ≤ 239 then
                    (if first = 224 then 160 ≤ second && second ≤ 191
                      else if first = 237 then 128 ≤ second && second ≤ 159
                      else continues second)
                      && continues third && validString rest
                  else
                    match rest with
                    | [] => false
                    | fourth :: rest =>
                        240 ≤ first && first ≤ 244
                          && (if first = 240 then 144 ≤ second && second ≤ 191
                            else if first = 244 then 128 ≤ second && second ≤ 143
                            else continues second)
                          && continues third && continues fourth && validString rest

def validFieldName (name : Text) : Bool :=
  name ≠ [] && validString name && name.head? != some 64

def sortedNames (fields : Assoc Text Text) : List Text :=
  fields.keys.insertionSort (· ≤ ·)

/-- The digits of an index below a count. The subtraction of bytes wraps around, and the quotient of
a negative number is rounded towards zero.
-/
def indexDigits (count : Nat) : Nat → Text → Option Nat
  | value, [] => some value
  | value, character :: rest =>
      let digit := (character - 48).toNat
      if 9 < digit ∨ Int.tdiv ((count : Int) - 1 - digit) 10 < value then
        none
      else
        indexDigits count (value * 10 + digit) rest

def arrayFieldIndex (name : Text) (count : Nat) : Option Nat :=
  if count = 0 ∨ name = [] ∨ (name.head? = some 48 ∧ name ≠ ascii "0") then
    none
  else
    (indexDigits count 0 name).bind fun value => if value < count then some value else none

-- Complete values

/-- The loop over the fields of an array: each takes its own place. -/
def validateArray (count maximumBytes : Nat) : List Text → Nat → List (Text × Text)
    → Except Failure (List Text × Nat)
  | names, size, [] => .ok (names, size)
  | names, size, (name, field) :: rest =>
      match arrayFieldIndex name count with
      | none => .error { code := .contract, field := ascii "array" }
      | some index =>
          if names.getD index [] ≠ [] then
            .error { code := .contract, field := ascii "array" }
          else if maximumBytes - size < name.length
              ∨ maximumBytes - size - name.length < field.length then
            .error { code := .capacity, field := ascii "value" }
          else
            validateArray count maximumBytes (names.set index name)
              (size + (name.length + field.length)) rest

def validateMap (fields : Assoc Text Text) (maximumBytes : Nat) : Nat → List Text
    → Except Failure Nat
  | size, [] => .ok size
  | size, name :: rest =>
      let field := (fields.get? name).getD []
      if validFieldName name = false then
        .error { code := .invalid, field := name }
      else if maximumBytes - size < name.length
          ∨ maximumBytes - size - name.length < field.length then
        .error { code := .capacity, field := ascii "value" }
      else
        validateMap fields maximumBytes (size + (name.length + field.length)) rest

/-- The names and the size of a complete value. The order in which the fields of an array are visited
is that of the map; whether they are accepted does not depend on it.
-/
def validateValue (kind : Option Kind) (fields : Assoc Text Text) (maximumBytes : Nat)
    : Except Failure (List Text × Nat) :=
  match kind with
  | none => .error { code := .invalid, field := ascii "kind" }
  | some kind =>
      if maximumFields < fields.size then
        .error { code := .capacity, field := ascii "fields" }
      else
        match kind with
        | .value =>
            match fields.get? (ascii "value") with
            | none => .error { code := .contract, field := ascii "value" }
            | some field =>
                let size := (ascii "value").length + field.length
                if fields.size ≠ 1 then
                  .error { code := .contract, field := ascii "value" }
                else if maximumBytes < size then
                  .error { code := .capacity, field := ascii "value" }
                else
                  .ok ([ascii "value"], size)
        | .array =>
            validateArray fields.size maximumBytes (List.replicate fields.size []) 0 fields.toPairs
        | .map =>
            (validateMap fields maximumBytes 0 (sortedNames fields)).map fun size =>
              (sortedNames fields, size)

-- What is valid is accepted

variable {count : Nat}

theorem indexDigits_append {value middle : Nat} {first second : Text}
    (read : indexDigits count value first = some middle)
    : indexDigits count value (first ++ second) = indexDigits count middle second := by
  induction first generalizing value with
  | nil =>
      cases read
      rfl
  | cons character rest ih =>
      simp only [indexDigits, List.cons_append] at read ⊢
      split at read
      · cases read
      rename_i small
      rw [if_neg small]
      exact ih read

variable {index : Nat}

/-- The text of an index is read as the index. Witness: induction over the index; its last digit is
read last.
-/
theorem indexDigits_text (inside : index < count)
    : indexDigits count 0 (Decimal.text index) = some index := by
  induction index using Nat.strongRecOn with
  | ind index ih =>
      have last (start : Nat) (below : start * 10 + index % 10 < count)
          : indexDigits count start [Decimal.digit (index % 10)]
            = some (start * 10 + index % 10) := by
        have remainder : index % 10 < 10 := Nat.mod_lt _ (by decide)
        have digit : (Decimal.digit (index % 10) - 48).toNat = index % 10 := by
          have above : (48 : UInt8) ≤ Decimal.digit (index % 10) := by
            rw [UInt8.le_iff_toNat_le, Decimal.toNat_digit remainder]
            exact Nat.le_add_right _ _
          rw [UInt8.toNat_sub_of_le _ _ above, Decimal.toNat_digit remainder]
          exact Nat.add_sub_cancel_left _ _
        have nonnegative : (0 : Int) ≤ (count : Int) - 1 - (index % 10 : Nat) := by omega
        simp only [indexDigits, digit]
        rw [Int.tdiv_eq_ediv_of_nonneg nonnegative, if_neg]
        omega
      rw [Decimal.text_eq]
      split
      next single =>
        rw [List.nil_append, last 0 (by omega)]
        congr 1
        omega
      rename_i several
      have front := ih (index / 10) (by omega) (by omega)
      rw [indexDigits_append front, last (index / 10) (by omega)]
      congr 1
      omega

theorem arrayFieldIndex_text (inside : index < count)
    : arrayFieldIndex (Decimal.text index) count = some index := by
  rw [arrayFieldIndex, if_neg, indexDigits_text inside, Option.bind_some, if_pos inside]
  rintro (none | empty | ⟨zero, other⟩)
  · omega
  · exact Decimal.text_ne_nil index empty
  · rcases Decimal.canonical_text index with isZero | ⟨first, rest, isText, _, notZero, _⟩
    · exact other isZero
    · rw [isText, List.head?_cons, Option.some.injEq] at zero
      exact notZero zero

/-- Every field of an array finds its place free. Witness: induction over the fields. -/
theorem validateArray_ok {count maximumBytes size : Nat} {names : List Text}
    {rows : List (Text × Text)}
    (free : ∀ row ∈ rows, ∃ index < count, row.1 = Decimal.text index ∧ names.getD index [] = [])
    (distinct : (rows.map Prod.fst).Nodup) (fits : size + listBytes rows ≤ maximumBytes)
    : ∃ placed, validateArray count maximumBytes names size rows
      = .ok (placed, size + listBytes rows) := by
  induction rows generalizing names size with
  | nil => exact ⟨names, rfl⟩
  | cons row rest ih =>
      obtain ⟨name, field⟩ := row
      rw [List.map_cons, List.nodup_cons] at distinct
      obtain ⟨index, inside, isText, isFree⟩ := free (name, field) List.mem_cons_self
      simp only at isText
      have bytes : listBytes ((name, field) :: rest) = name.length + field.length + listBytes rest :=
        rfl
      have later : ∀ row ∈ rest, ∃ index' < count, row.1 = Decimal.text index'
          ∧ (names.set index name).getD index' [] = [] := by
        intro other listed
        obtain ⟨index', inside', isText', isFree'⟩ := free other (List.mem_cons_of_mem _ listed)
        have different : index ≠ index' := by
          rintro rfl
          exact distinct.1 (List.mem_map.mpr ⟨other, listed, isText'.trans isText.symm⟩)
        refine ⟨index', inside', isText', ?_⟩
        rw [List.getD_eq_getElem?_getD, List.getElem?_set_ne different,
          ← List.getD_eq_getElem?_getD]
        exact isFree'
      obtain ⟨placed, accepted⟩ :=
        @ih (size + (name.length + field.length)) (names.set index name) later distinct.2 (by omega)
      refine ⟨placed, ?_⟩
      rw [validateArray, isText, arrayFieldIndex_text inside, ← isText]
      simp only
      rw [if_neg (not_not.mpr isFree), if_neg (by omega), accepted, bytes]
      congr 2
      omega

theorem validateMap_ok {fields : Assoc Text Text} {maximumBytes size : Nat} {names : List Text}
    (named : ∀ name ∈ names, validFieldName name = true)
    (fits : size + (names.map fun name => fieldBytes name ((fields.get? name).getD [])).sum
      ≤ maximumBytes)
    : validateMap fields maximumBytes size names
      = .ok (size + (names.map fun name => fieldBytes name ((fields.get? name).getD [])).sum) := by
  induction names generalizing size with
  | nil => rfl
  | cons name rest ih =>
      rw [List.map_cons, List.sum_cons, fieldBytes] at fits ⊢
      rw [validateMap, if_neg (by rw [named name List.mem_cons_self]; nofun), if_neg (by omega),
        ih (fun other listed => named other (List.mem_cons_of_mem _ listed)) (by omega)]
      congr 1
      omega

/-- A complete value of a kind is accepted with its size. -/
theorem validateValue_ok {kind : Kind} {fields : Assoc Text Text} {maximumBytes : Nat}
    (shape : kind.Shapes fields) (few : fields.size ≤ maximumFields)
    (named : ∀ name, (fields.get? name).isSome → validFieldName name = true)
    (fits : fields.weight fieldBytes ≤ maximumBytes) (single : kind = .value → fields.size = 1)
    : ∃ names, validateValue (some kind) fields maximumBytes
      = .ok (names, fields.weight fieldBytes) := by
  simp only [validateValue]
  rw [if_neg (Nat.not_lt.mpr few)]
  cases kind with
  | value =>
      obtain ⟨field, found⟩ := Option.isSome_iff_exists.mp ((shape (ascii "value")).mpr rfl)
      have alone : fields.toPairs = [(ascii "value", field)] := by
        have length : fields.toPairs.length = 1 := by
          simpa [Assoc.toPairs, Assoc.size] using single rfl
        obtain ⟨pair, isPair⟩ := List.length_eq_one_iff.mp length
        have listed := (fields.mem_toPairs _ _).mpr found
        rw [isPair, List.mem_singleton] at listed
        rw [isPair, listed]
      have weight : fields.weight fieldBytes = (ascii "value").length + field.length := by
        rw [Assoc.weight_eq_toPairs, alone]
        rfl
      simp only [found]
      rw [if_neg (not_not.mpr (single rfl)), if_neg (by omega), weight]
      exact ⟨_, rfl⟩
  | array =>
      have distinct : (fields.toPairs.map Prod.fst).Nodup := by
        rw [← Assoc.keys_eq_toPairs]
        exact fields.nodup_keys
      have bytes : listBytes fields.toPairs = fields.weight fieldBytes :=
        (Assoc.weight_eq_toPairs fields fieldBytes).symm
      have accepted := @validateArray_ok fields.size maximumBytes 0
        (List.replicate fields.size []) fields.toPairs ?_ distinct (by omega)
      · rw [bytes, Nat.zero_add] at accepted
        exact accepted
      · intro row listed
        have found := (fields.mem_toPairs row.1 row.2).mp listed
        obtain ⟨index, inside, isText⟩ :=
          (shape row.1).mp (Option.isSome_iff_exists.mpr ⟨_, found⟩)
        refine ⟨index, inside, isText, ?_⟩
        rw [List.getD_eq_getElem?_getD, List.getElem?_replicate, if_pos inside]
        rfl
  | map =>
      have permuted : (sortedNames fields).Perm fields.keys := List.perm_insertionSort _ _
      have total : ((sortedNames fields).map fun name =>
          fieldBytes name ((fields.get? name).getD [])).sum = fields.weight fieldBytes := by
        rw [Assoc.weight_eq_keys fields fieldBytes []]
        exact (permuted.map _).sum_eq
      have accepted := @validateMap_ok fields maximumBytes 0 (sortedNames fields) ?_
        (by rw [total, Nat.zero_add]; exact fits)
      · rw [total, Nat.zero_add] at accepted
        rw [accepted]
        exact ⟨_, rfl⟩
      · intro name listed
        have key := permuted.mem_iff.mp listed
        rw [Assoc.mem_keys, ← Option.isSome_iff_exists] at key
        exact named name key

end Sdk.Catalog
