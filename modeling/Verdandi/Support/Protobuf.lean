import Mathlib

/-! The Protobuf wire format for messages of integers and byte strings: numbered fields, each a
varint or length-delimited, where a field with its default value is left out.
-/

namespace Support.Protobuf

/-- A number in groups of seven bits, the lowest first; `fuel` bounds the groups. -/
def varintIn : Nat → Nat → List UInt8
  | 0, value => [UInt8.ofNat (value % 128)]
  | fuel + 1, value =>
      if value < 128 then
        [UInt8.ofNat value]
      else
        UInt8.ofNat (value % 128 + 128) :: varintIn fuel (value / 128)

def varint (value : Nat) : List UInt8 := varintIn value value

def readVarint : List UInt8 → Option (Nat × List UInt8)
  | [] => none
  | byte :: rest =>
      if byte < 128 then
        some (byte.toNat, rest)
      else
        (readVarint rest).map fun (high, after) => (byte.toNat - 128 + 128 * high, after)

inductive Value where
  | number (value : Nat)
  | bytes (value : List UInt8)
  deriving DecidableEq, Repr

def Value.default : Value → Bool
  | .number value => value == 0
  | .bytes value => value.isEmpty

/-- A numbered field. -/
abbrev Field := Nat × Value

def writeField : Field → List UInt8
  | (number, .number value) => varint (number * 8) ++ varint value
  | (number, .bytes value) => varint (number * 8 + 2) ++ varint value.length ++ value

def readField (input : List UInt8) : Option (Field × List UInt8) :=
  (readVarint input).bind fun (tag, rest) =>
    (readVarint rest).bind fun (value, after) =>
      if tag % 8 = 0 then
        some ((tag / 8, .number value), after)
      else if tag % 8 = 2 ∧ value ≤ after.length then
        some ((tag / 8, .bytes (after.take value)), after.drop value)
      else
        none

/-- Read all fields; every one takes a byte, so there are at most as many as bytes. -/
def readFields : Nat → List UInt8 → Option (List Field)
  | _, [] => some []
  | 0, _ :: _ => none
  | fuel + 1, byte :: rest =>
      (readField (byte :: rest)).bind fun (field, after) =>
        (readFields fuel after).map (field :: ·)

def write (fields : List Field) : List UInt8 :=
  (fields.filter fun field => !field.2.default).flatMap writeField

def read (input : List UInt8) : Option (List Field) := readFields input.length input

def numberOf (fields : List Field) (number : Nat) : Nat :=
  match fields.find? (·.1 = number) with
  | some (_, .number value) => value
  | _ => 0

def bytesOf (fields : List Field) (number : Nat) : List UInt8 :=
  match fields.find? (·.1 = number) with
  | some (_, .bytes value) => value
  | _ => []

variable {value : Nat}

theorem toNat_small (small : value < 256) : (UInt8.ofNat value).toNat = value := by
  rw [UInt8.toNat_ofNat']
  exact Nat.mod_eq_of_lt small

theorem readVarint_small (small : value < 128) (rest : List UInt8)
    : readVarint (UInt8.ofNat value :: rest) = some (value, rest) := by
  have number := toNat_small (show value < 256 by omega)
  have plain : UInt8.ofNat value < 128 := by
    rw [UInt8.lt_iff_toNat_lt, number]
    exact small
  rw [readVarint, if_pos plain, number]

theorem readVarint_large (large : 128 ≤ value) (small : value < 256) (rest : List UInt8)
    : readVarint (UInt8.ofNat value :: rest)
      = (readVarint rest).map fun (high, after) => (value - 128 + 128 * high, after) := by
  have number := toNat_small small
  have plain : ¬ UInt8.ofNat value < 128 := by
    rw [UInt8.lt_iff_toNat_lt, number]
    exact Nat.not_lt.mpr large
  rw [readVarint, if_neg plain, number]

variable {fuel : Nat}

/-- A number is read back. Witness: induction over the groups. -/
theorem readVarint_varintIn (enough : value < 128 ^ (fuel + 1)) (rest : List UInt8)
    : readVarint (varintIn fuel value ++ rest) = some (value, rest) := by
  induction fuel generalizing value with
  | zero =>
      have small : value < 128 := by simpa using enough
      rw [varintIn, Nat.mod_eq_of_lt small, List.singleton_append, readVarint_small small]
  | succ fuel ih =>
      unfold varintIn
      split
      next small => rw [List.singleton_append, readVarint_small small]
      rename_i large
      have less : value / 128 < 128 ^ (fuel + 1) := by
        apply Nat.div_lt_of_lt_mul
        rw [Nat.mul_comm, ← Nat.pow_succ]
        exact enough
      have whole : value % 128 + 128 - 128 + 128 * (value / 128) = value := by omega
      rw [List.cons_append, readVarint_large (by omega) (by omega), ih less, Option.map_some]
      dsimp only
      rw [whole]

theorem readVarint_varint (value : Nat) (rest : List UInt8)
    : readVarint (varint value ++ rest) = some (value, rest) := by
  apply readVarint_varintIn
  exact (Nat.lt_pow_self (by decide : 1 < 128)).trans_le
    (Nat.pow_le_pow_right (by decide) (Nat.le_succ _))

/-- How many groups a number takes. Witness: induction over the groups. -/
theorem length_varint {value groups : Nat} (positive : 0 < groups) (short : value < 128 ^ groups)
    : (varint value).length ≤ groups := by
  suffices ∀ fuel, (varintIn fuel value).length ≤ groups from this value
  intro fuel
  induction fuel generalizing value groups with
  | zero => exact positive
  | succ fuel ih =>
      rw [varintIn]
      split
      · exact positive
      rename_i large
      obtain ⟨rest, rfl⟩ := Nat.exists_eq_succ_of_ne_zero positive.ne'
      have further : 0 < rest := by
        by_contra none
        rw [Nat.eq_zero_of_not_pos none] at short
        exact large short
      refine Nat.succ_le_succ (ih further (Nat.div_lt_of_lt_mul ?_))
      rwa [Nat.mul_comm, ← Nat.pow_succ]

/-- A field is read back. -/
theorem readField_writeField (field : Field) (rest : List UInt8)
    : readField (writeField field ++ rest) = some (field, rest) := by
  obtain ⟨number, value⟩ := field
  unfold readField
  cases value with
  | number value =>
      simp only [writeField, List.append_assoc, readVarint_varint, Option.bind_some]
      rw [if_pos (by omega), Nat.mul_div_cancel _ (by decide)]
  | bytes value =>
      have tag : (number * 8 + 2) / 8 = number := by omega
      simp only [writeField, List.append_assoc, readVarint_varint, Option.bind_some]
      rw [if_neg (by omega), if_pos ⟨by omega, by simp⟩, tag]
      simp

theorem varint_ne_nil (value : Nat) : varint value ≠ [] := by
  unfold varint
  cases value with
  | zero => simp [varintIn]
  | succ value =>
      rw [varintIn]
      split <;> simp

variable {fields : List Field}

/-- All fields are read back. Witness: induction over the fields. -/
theorem readFields_flatMap (enough : fields.length ≤ fuel)
    : readFields fuel (fields.flatMap writeField) = some fields := by
  induction fields generalizing fuel with
  | nil => cases fuel <;> rfl
  | cons field rest ih =>
      rw [List.length_cons] at enough
      obtain ⟨fuel, rfl⟩ : ∃ less, fuel = less + 1 := ⟨fuel - 1, by omega⟩
      have back := readField_writeField field (rest.flatMap writeField)
      rw [List.flatMap_cons]
      cases written : writeField field ++ rest.flatMap writeField with
      | nil =>
          exfalso
          obtain ⟨number, value⟩ := field
          cases value <;> simp [writeField, varint_ne_nil] at written
      | cons byte others =>
          rw [written] at back
          have later : readFields fuel (rest.flatMap writeField) = some rest := ih (by omega)
          simp only [readFields, back, Option.bind_some, later, Option.map_some]

theorem length_flatMap_le (fields : List Field)
    : fields.length ≤ (fields.flatMap writeField).length := by
  induction fields with
  | nil => rfl
  | cons field rest ih =>
      have some : 1 ≤ (writeField field).length := by
        rw [Nat.one_le_iff_ne_zero, ne_eq, List.length_eq_zero_iff]
        obtain ⟨number, value⟩ := field
        cases value <;> simp [writeField, varint_ne_nil]
      rw [List.flatMap_cons, List.length_append, List.length_cons]
      omega

theorem read_write (fields : List Field)
    : read (write fields) = some (fields.filter fun field => !field.2.default) :=
  readFields_flatMap (length_flatMap_le _)

/-- What is left out is not found; distinct fields are found otherwise. -/
theorem find?_filter (distinct : (fields.map Prod.fst).Nodup) (number : Nat)
    : (fields.filter fun field => !field.2.default).find? (·.1 = number)
      = (fields.find? (·.1 = number)).filter fun field => !field.2.default := by
  induction fields with
  | nil => rfl
  | cons field rest ih =>
      rw [List.map_cons, List.nodup_cons] at distinct
      have continued := ih distinct.2
      by_cases isNumber : field.1 = number
      · subst isNumber
        have absent : rest.find? (·.1 = field.1) = none := by
          rw [List.find?_eq_none]
          intro other listed same
          exact distinct.1 (List.mem_map.mpr ⟨other, listed, by simpa using same⟩)
        rw [absent] at continued
        rw [List.find?_cons_of_pos (by simp)]
        cases kept : field.2.default with
        | true =>
            rw [List.filter_cons_of_neg (by simp [kept]), continued]
            simp [Option.filter, kept]
        | false =>
            rw [List.filter_cons_of_pos (by simp [kept]), List.find?_cons_of_pos (by simp)]
            simp [Option.filter, kept]
      · rw [List.find?_cons_of_neg (by simpa using isNumber), ← continued, List.filter_cons]
        split
        · rw [List.find?_cons_of_neg (by simpa using isNumber)]
        · rfl

/-- A number that was left out is zero. -/
theorem numberOf_filter (distinct : (fields.map Prod.fst).Nodup) (number : Nat)
    : numberOf (fields.filter fun field => !field.2.default) number = numberOf fields number := by
  unfold numberOf
  rw [find?_filter distinct]
  cases fields.find? (·.1 = number) with
  | none => rfl
  | some field =>
      obtain ⟨_, value⟩ := field
      cases value with
      | number value => cases value <;> rfl
      | bytes value => cases value <;> rfl

/-- Bytes that were left out are empty. -/
theorem bytesOf_filter (distinct : (fields.map Prod.fst).Nodup) (number : Nat)
    : bytesOf (fields.filter fun field => !field.2.default) number = bytesOf fields number := by
  unfold bytesOf
  rw [find?_filter distinct]
  cases fields.find? (·.1 = number) with
  | none => rfl
  | some field =>
      obtain ⟨_, value⟩ := field
      cases value with
      | number value => cases value <;> rfl
      | bytes value => cases value <;> rfl

end Support.Protobuf
