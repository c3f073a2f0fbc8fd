import Verdandi.Sdk.Catalog.Spellings

/-! What the events of the Catalog say, and how each client library reads their headers and fields. -/

namespace Sdk.Catalog

open Support
open Support.Redis (Text Database)

-- What an event says

def lengthReading : Parse Nat := arrayLength

def textReading : Parse Text := rawBytes

def pairsReading : Nat → Parse (List (Text × Text))
  | 0 => pure []
  | left + 1 => do
      let name ← textReading
      let value ← textReading
      let rest ← pairsReading left
      pure ((name, value) :: rest)

/-- The names of an event in order: the indexes from one on, or larger and larger after a name. -/
def ordered (byIndex : Bool) : Nat → Text → List Text → Bool
  | _, _, [] => true
  | index, previous, name :: rest =>
      name != [] && (if byIndex then name == Decimal.text index else decide (previous < name))
        && ordered byIndex (index + 1) name rest

def admits (kind : Kind) (patch : Bool) (maximum : Nat) (rows : List (Text × Text)) : Bool :=
  ordered (!patch && kind == .array) 0 [] (rows.map Prod.fst)
    && (if patch then !rows.isEmpty
      else kind != .value || rows.map Prod.fst == [ascii "value"])
    && rows.all (fun row => validFieldName row.1)
    && decide (listBytes rows ≤ maximum)

def fieldsReading (accepts : List (Text × Text) → Bool) : Parse (List (Text × Text)) := do
  let count ← lengthReading
  if count % 2 ≠ 0 ∨ maximumFields < count / 2 then
    Parse.fail
  else
    let rows ← pairsReading (count / 2)
    if accepts rows = true then pure rows else Parse.fail

def numberReading (maximum : Nat) (allowZero : Bool) : Parse Nat := do
  let text ← textReading
  Parse.lift (uintDecimal text maximum allowZero)

def kindReading (patch : Bool) : Parse Kind := do
  let text ← textReading
  match Kind.parse text with
  | none => Parse.fail
  | some kind => if patch = true ∧ kind = .value then Parse.fail else pure kind

def headerReading (patch : Bool) (maximum : Nat) : Parse (Kind × Nat) := do
  let kind ← kindReading patch
  let encodedBytes ← numberReading maximum true
  pure (kind, encodedBytes)

def replaceReading (path : Path) (maximum : Nat) : Parse CatalogEvent := do
  let revision ← numberReading lastRevision false
  let (kind, encodedBytes) ← headerReading false maximum
  let rows ← fieldsReading (admits kind false maximum)
  if listBytes rows ≠ encodedBytes then
    Parse.fail
  else
    pure { kind := .replace, path, revision, valueKind := some kind, encodedBytes,
           fields := Database.setAll ∅ rows }

def patchReading (path : Path) (maximum : Nat) : Parse CatalogEvent := do
  let baseRevision ← numberReading lastRevision false
  let revision ← numberReading lastRevision false
  if revision ≤ baseRevision then
    Parse.fail
  else
    let (kind, encodedBytes) ← headerReading true maximum
    let rows ← fieldsReading (admits kind true maximum)
    pure { kind := .patch, path, revision, baseRevision, valueKind := some kind, encodedBytes,
           fields := Database.setAll ∅ rows }

def deleteReading (path : Path) : Parse CatalogEvent := do
  let revision ← numberReading lastRevision false
  pure { kind := .delete, path, revision }

def operationReading (operation : Text) (path : Path) (count maximum : Nat)
    : Parse CatalogEvent :=
  if operation = ascii "replace" ∧ count = 7 then replaceReading path maximum
  else if operation = ascii "patch" ∧ count = 8 then patchReading path maximum
  else if operation = ascii "delete" ∧ count = 4 then deleteReading path
  else Parse.fail

def endReading : Parse Bool := fun rest => some (rest.isEmpty, rest)

def eventReading (path : Path) (maximum : Nat) : Parse CatalogEvent := do
  let count ← lengthReading
  if count < 4 then
    Parse.fail
  else
    let protocol ← textReading
    if protocol ≠ ascii "v1" then
      Parse.fail
    else
      let operation ← textReading
      let member ← textReading
      if member ≠ path.member then
        Parse.fail
      else
        let event ← operationReading operation path count maximum
        if ← endReading then pure event else Parse.fail

-- Bytes and headers

def byteReading : Parse UInt8
  | [] => none
  | byte :: rest => some (byte, rest)

def bytesReading (length : Nat) : Parse Text := takeBytes length

def wideReading (width : Nat) : Parse Nat := do
  let bytes ← bytesReading width
  pure (bigEndian bytes)

theorem takeNumber_eq (width : Nat) (payload : Text)
    : takeNumber width payload = wideReading width payload := by
  rw [takeNumber, wideReading, Parse.bind_run, bytesReading]
  cases takeBytes width payload with
  | none => rfl
  | some pair => rfl

def countReading (code : UInt8) : Parse Nat :=
  if 144 ≤ code ∧ code ≤ 159 then pure (code.toNat % 16)
  else if code = 220 then wideReading 2
  else if code = 221 then wideReading 4
  else Parse.fail

def sizeReading (code : UInt8) : Parse Nat :=
  if 160 ≤ code ∧ code ≤ 191 then pure (code.toNat % 32)
  else if code = 196 ∨ code = 217 then wideReading 1
  else if code = 197 ∨ code = 218 then wideReading 2
  else if code = 198 ∨ code = 219 then wideReading 4
  else Parse.fail

theorem lengthReading_eq : lengthReading = byteReading >>= countReading := by
  funext payload
  cases payload with
  | nil => rfl
  | cons code rest =>
      rw [lengthReading, arrayLength, Parse.bind_run, byteReading, Option.bind_some]
      simp only [countReading, takeNumber_eq]
      split_ifs <;> rfl

theorem textReading_eq : textReading = (do bytesReading (← sizeReading (← byteReading))) := by
  funext payload
  cases payload with
  | nil => rfl
  | cons code rest =>
      rw [textReading, rawBytes, Parse.bind_run, byteReading, Option.bind_some]
      simp only [sizeReading, takeNumber_eq, Parse.bind_run]
      split_ifs <;> rfl

theorem toNat_and_mask (code : UInt8)
    : (code &&& 0x0f).toNat = code.toNat % 16 ∧ (code &&& 0x1f).toNat = code.toNat % 32 := by
  rw [UInt8.toNat_and, UInt8.toNat_and]
  exact ⟨Nat.and_two_pow_sub_one_eq_mod code.toNat 4, Nat.and_two_pow_sub_one_eq_mod code.toNat 5⟩

variable {length : Nat}

theorem bytesReading_short (rest : Text) (short : rest.length < length)
    : bytesReading length rest = none :=
  if_pos short

theorem bytesReading_enough (rest : Text) (enough : length ≤ rest.length)
    : bytesReading length rest = some (rest.take length, rest.drop length) :=
  if_neg (Nat.not_lt.mpr enough)

namespace Go

theorem code_follows : code.Follows byteReading := by
  refine Reader.Follows.byte (fun cursor ended => ⟨(), ?_⟩) (fun cursor inside => ?_) rfl
    fun _ _ => rfl
  · exact congrFun (if_pos ended) cursor
  · exact congrFun (if_neg (Nat.not_le.mpr inside)) cursor

theorem take_follows (length : Nat) : (take length).Follows (bytesReading length) := by
  refine Reader.Follows.bytes (fun cursor within short => ⟨(), ?_⟩) (fun cursor within enough => ?_)
    bytesReading_short bytesReading_enough
  · exact congrFun (if_pos (.inr (by omega))) cursor
  · exact congrFun (if_neg (by omega)) cursor

theorem wide_follows (width : Nat)
    : (do return bigEndian (← take width)).Follows (wideReading width) :=
  Reader.Follows.bind (take_follows width) fun _ => Reader.Follows.pure _

theorem arrayLength_follows : arrayLength.Follows lengthReading := by
  rw [lengthReading_eq]
  refine Reader.Follows.bind code_follows fun code => ?_
  rw [countReading, ← (toNat_and_mask code).1]
  refine Reader.Follows.ite (fun _ => Reader.Follows.pure _) fun _ => ?_
  refine Reader.Follows.ite (fun _ => wide_follows 2) fun _ => ?_
  exact Reader.Follows.ite (fun _ => wide_follows 4) fun _ => Reader.Follows.fail _

/-- No length of four bytes is too large for an integer. -/
theorem bigEndian_lt (bytes : Text) : bigEndian bytes < 256 ^ bytes.length := by
  induction bytes using List.reverseRecOn with
  | nil => decide
  | append_singleton init byte ih =>
      have bounded := byte.toNat_lt
      rw [bigEndian, List.foldl_append, List.length_append, Nat.pow_add]
      rw [bigEndian] at ih
      simp only [List.foldl_cons, List.foldl_nil, List.length_singleton, Nat.pow_one]
      omega

theorem rawBytes_follows : rawBytes.Follows textReading := by
  rw [textReading_eq]
  refine Reader.Follows.bind code_follows fun code => ?_
  simp only [sizeReading, Parse.ite_bind, wideReading, bind_assoc, pure_bind, Parse.fail_bind,
    ← (toNat_and_mask code).2]
  refine Reader.Follows.ite (fun _ => take_follows _) fun _ => ?_
  refine Reader.Follows.ite
    (fun _ => Reader.Follows.bind (take_follows 1) fun _ => take_follows _) fun _ => ?_
  refine Reader.Follows.ite
    (fun _ => Reader.Follows.bind (take_follows 2) fun _ => take_follows _) fun _ => ?_
  refine Reader.Follows.ite (fun _ => ?_) fun _ => Reader.Follows.fail _
  refine Reader.Follows.bind_of (take_follows 4) fun bytes before rest taken => ?_
  have four : bytes.length = 4 := by
    by_cases enough : 4 ≤ before.length
    · rw [bytesReading_enough before enough] at taken
      cases taken
      rw [List.length_take, Nat.min_eq_left enough]
    · rw [bytesReading_short before (Nat.not_le.mp enough)] at taken
      cases taken
  have small := bigEndian_lt bytes
  rw [four] at small
  rw [if_neg (by omega)]
  exact take_follows _

end Go

namespace Rust

theorem code_follows : code.Follows byteReading := by
  refine Reader.Follows.byte (fun cursor ended => ⟨(), ?_⟩) (fun cursor inside => ?_) rfl
    fun _ _ => rfl
  · exact congrFun (if_pos ended) cursor
  · exact congrFun (if_neg (Nat.not_le.mpr inside)) cursor

theorem take_follows (length : Nat) : (take length).Follows (bytesReading length) := by
  refine Reader.Follows.bytes (fun cursor within short => ⟨(), ?_⟩) (fun cursor within enough => ?_)
    bytesReading_short bytesReading_enough
  · by_cases wide : 2 ^ 64 ≤ length ∨ 2 ^ 64 ≤ cursor.offset + length
    · exact congrFun (if_pos wide) cursor
    · exact congrFun ((if_neg wide).trans (if_pos short)) cursor
  · have small := within.small
    exact congrFun ((if_neg (by omega)).trans (if_neg (by omega))) cursor

theorem wide_follows (width : Nat)
    : (do return bigEndian (← take width)).Follows (wideReading width) :=
  Reader.Follows.bind (take_follows width) fun _ => Reader.Follows.pure _

theorem arrayLength_follows : arrayLength.Follows lengthReading := by
  rw [lengthReading_eq]
  refine Reader.Follows.bind code_follows fun code => ?_
  rw [countReading, ← (toNat_and_mask code).1]
  refine Reader.Follows.ite (fun _ => Reader.Follows.pure _) fun _ => ?_
  refine Reader.Follows.ite (fun _ => wide_follows 2) fun _ => ?_
  exact Reader.Follows.ite (fun _ => wide_follows 4) fun _ => Reader.Follows.fail _

theorem rawBytes_follows : rawBytes.Follows textReading := by
  rw [textReading_eq]
  refine Reader.Follows.bind code_follows fun code => ?_
  refine Reader.Follows.bind ?_ take_follows
  rw [rawLength, sizeReading, ← (toNat_and_mask code).2]
  refine Reader.Follows.ite (fun _ => Reader.Follows.pure _) fun _ => ?_
  refine Reader.Follows.ite (fun _ => wide_follows 1) fun _ => ?_
  refine Reader.Follows.ite (fun _ => wide_follows 2) fun _ => ?_
  exact Reader.Follows.ite (fun _ => wide_follows 4) fun _ => Reader.Follows.fail _

end Rust

namespace Cpp

/-- Shifting is multiplying. Witness: induction over the bytes from the end. -/
theorem shifted_eq (encoded : Text) : shifted encoded = bigEndian encoded := by
  induction encoded using List.reverseRecOn with
  | nil => rfl
  | append_singleton init byte ih =>
      have bounded : byte.toNat < 2 ^ 8 := byte.toNat_lt
      rw [shifted, bigEndian] at ih ⊢
      rw [List.foldl_append, List.foldl_append, ih]
      simp only [List.foldl_cons, List.foldl_nil]
      rw [← Nat.shiftLeft_add_eq_or_of_lt bounded, Nat.shiftLeft_eq]

theorem byte_follows : byte.Follows byteReading := by
  refine Reader.Follows.byte (fun cursor ended => ⟨corruptNotification, ?_⟩)
    (fun cursor inside => ?_) rfl fun _ _ => rfl
  · exact congrFun (if_pos ended) cursor
  · exact congrFun (if_neg (Nat.not_le.mpr inside)) cursor

theorem sizeBelow_eq {size offset : Nat} (inside : offset ≤ size)
    : sizeBelow size offset = size - offset :=
  if_pos inside

theorem take_follows (length : Nat) : (take length).Follows (bytesReading length) := by
  refine Reader.Follows.bytes (fun cursor within short => ⟨corruptNotification, ?_⟩)
    (fun cursor within enough => ?_) bytesReading_short bytesReading_enough
  · have left := sizeBelow_eq within.offset
    have offset := within.offset
    exact congrFun (if_pos (by omega)) cursor
  · have left := sizeBelow_eq within.offset
    exact congrFun (if_neg (by omega)) cursor

theorem shifted_follows (width : Nat)
    : (do return shifted (← take width)).Follows (wideReading width) := by
  refine Reader.Follows.bind (take_follows width) fun encoded => ?_
  rw [shifted_eq]
  exact Reader.Follows.pure _

theorem array_mask (marker : UInt8) : marker &&& 0xf0 = 0x90 ↔ 144 ≤ marker ∧ marker ≤ 159 := by
  revert marker
  apply forall_byte
  set_option maxRecDepth 2000 in decide

theorem text_mask (marker : UInt8) : marker &&& 0xe0 = 0xa0 ↔ 160 ≤ marker ∧ marker ≤ 191 := by
  revert marker
  apply forall_byte
  set_option maxRecDepth 2000 in decide

theorem arraySize_follows : arraySize.Follows lengthReading := by
  rw [lengthReading_eq]
  refine Reader.Follows.bind byte_follows fun marker => ?_
  simp only [countReading, ← (toNat_and_mask marker).1, ← array_mask]
  refine Reader.Follows.ite (fun _ => Reader.Follows.pure _) fun _ => ?_
  refine Reader.Follows.ite (fun _ => shifted_follows 2) fun _ => ?_
  exact Reader.Follows.ite (fun _ => shifted_follows 4) fun _ => Reader.Follows.fail _

/-- A length that is refused because the payload is shorter would not have been taken either. -/
theorem checkedLength_follows (length : Nat)
    : (checkedLength length >>= take).Follows (bytesReading length) := by
  intro cursor within
  by_cases long : cursor.payload.length < length
  · have refused : (checkedLength length >>= take) cursor
        = (.error { code := .capacity, field := ascii "notification" }, cursor) :=
      congrArg (fun reader : Reader Failure Nat => (reader >>= take) cursor) (if_pos long)
    have short : cursor.remaining.length < length := by
      rw [Cursor.remaining, List.length_drop]
      omega
    rw [refused, bytesReading_short _ short]
    exact ⟨within, rfl, _, rfl⟩
  · have taken : (checkedLength length >>= take) cursor = take length cursor :=
      congrArg (fun reader : Reader Failure Nat => (reader >>= take) cursor) (if_neg long)
    rw [taken]
    exact take_follows length cursor within

theorem wideLength_follows (width : Nat)
    : (wideLength width >>= take).Follows (wideReading width >>= bytesReading) := by
  simp only [wideLength, wideReading, bind_assoc, pure_bind]
  refine Reader.Follows.bind (take_follows width) fun encoded => ?_
  rw [shifted_eq]
  exact checkedLength_follows _

theorem binary_follows : binary.Follows textReading := by
  rw [textReading_eq]
  refine Reader.Follows.bind byte_follows fun marker => ?_
  simp only [binaryLength, sizeReading, ← (toNat_and_mask marker).2, ← text_mask,
    Parse.ite_bind, Reader.ite_bind]
  refine Reader.Follows.ite (fun _ => take_follows _) fun _ => ?_
  refine Reader.Follows.ite (fun _ => wideLength_follows 1) fun _ => ?_
  refine Reader.Follows.ite (fun _ => wideLength_follows 2) fun _ => ?_
  exact Reader.Follows.ite (fun _ => wideLength_follows 4) fun _ =>
    Reader.Follows.fail corruptNotification

end Cpp

-- The loops over the fields

variable {rows : List (Text × Text)}

/-- So many names and values are read. -/
theorem pairsReading_length {left : Nat} {before rest : Text}
    (read : pairsReading left before = some (rows, rest))
    : rows.length = left := by
  induction left generalizing before rows with
  | zero =>
      cases read
      rfl
  | succ left ih =>
      simp only [pairsReading, Parse.bind_run, Option.bind_eq_some_iff, Parse.pure_run] at read
      obtain ⟨name, _, value, _, ⟨later, _⟩, isLater, same⟩ := read
      cases same
      rw [List.length_cons, ih isLater]

theorem pairsReading_bind {Result : Type} (left : Nat) (next : List (Text × Text) → Parse Result)
    : pairsReading (left + 1) >>= next = (do
        let name ← textReading
        let value ← textReading
        let rows ← pairsReading left
        next ((name, value) :: rows)) := by
  simp only [pairsReading, bind_assoc, pure_bind]

def Earlier (byIndex : Bool) (index : Nat) (previous : Text) (fields : Assoc Text Text) : Prop :=
  ∀ name, fields.contains name = true
    → if byIndex then ∃ before < index, name = Decimal.text before else name ≤ previous

section Order

variable {byIndex : Bool} {index : Nat} {previous name value : Text} {fields : Assoc Text Text}

theorem Earlier.empty : Earlier byIndex index previous ∅ := by
  intro name stored
  rw [Assoc.contains_iff] at stored
  obtain ⟨_, found⟩ := stored
  rw [Assoc.get?_empty] at found
  cases found

/-- A name in order is new. -/
theorem Earlier.fresh (earlier : Earlier byIndex index previous fields)
    (placed : (if byIndex then name == Decimal.text index else decide (previous < name)) = true)
    : fields.contains name = false := by
  by_contra stored
  have before := earlier name (by simpa using stored)
  cases byIndex with
  | true =>
      obtain ⟨other, less, isName⟩ := before
      have isIndex : name = Decimal.text index := by simpa using placed
      exact absurd (Decimal.text_injective (isName.symm.trans isIndex)) less.ne
  | false =>
      have after : previous < name := by simpa using placed
      exact absurd after (List.not_lt.mpr before)

theorem Earlier.set (earlier : Earlier byIndex index previous fields)
    (placed : (if byIndex then name == Decimal.text index else decide (previous < name)) = true)
    : Earlier byIndex (index + 1) name (fields.set name value) := by
  intro other stored
  rw [Assoc.contains_iff] at stored
  obtain ⟨found, isFound⟩ := stored
  rw [Assoc.get?_set] at isFound
  cases byIndex with
  | true =>
      by_cases same : other = name
      · exact ⟨index, Nat.lt_succ_self index, same.trans (by simpa using placed)⟩
      · rw [if_neg same] at isFound
        obtain ⟨before, less, isOther⟩ :=
          earlier other ((Assoc.contains_iff _ _).mpr ⟨found, isFound⟩)
        exact ⟨before, Nat.lt_succ_of_lt less, isOther⟩
  | false =>
      by_cases same : other = name
      · exact same ▸ List.le_refl other
      · rw [if_neg same] at isFound
        have before := earlier other ((Assoc.contains_iff _ _).mpr ⟨found, isFound⟩)
        have after : previous < name := by simpa using placed
        exact List.le_trans before (List.le_of_lt after)

theorem ordered_cons {names : List Text}
    : ordered byIndex index previous (name :: names)
      = (name != []
        && (if byIndex then name == Decimal.text index else decide (previous < name))
        && ordered byIndex (index + 1) name names) :=
  rfl

/-- After a name that is not empty a loop may ask for a larger one or for one that is not below. -/
theorem after_iff (some : name ≠ [])
    : (previous ≠ [] ∧ name ≤ previous) ↔ ¬previous < name := by
  rw [List.not_lt]
  constructor
  · exact And.right
  · intro below
    refine ⟨?_, below⟩
    rintro rfl
    obtain ⟨first, rest, rfl⟩ := List.exists_cons_of_ne_nil some
    exact absurd below (List.not_le.mpr (List.nil_lt_cons first rest))

end Order

variable {index : Nat} {previous : Text} {names : List Text}

/-- Indexes in order are the indexes from the first on. -/
theorem ordered_indexes
    : ordered true index previous names = true
      ↔ names = (List.range' index names.length).map Decimal.text := by
  induction names generalizing index previous with
  | nil => exact ⟨fun _ => rfl, fun _ => rfl⟩
  | cons name names ih =>
      rw [ordered_cons, Bool.and_eq_true, ih, List.length_cons, List.range'_succ, List.map_cons,
        List.cons.injEq]
      simp only [if_true, Bool.and_eq_true, bne_iff_ne, beq_iff_eq]
      constructor
      · exact fun ⟨⟨_, isName⟩, others⟩ => ⟨isName, others⟩
      · exact fun ⟨isName, others⟩ =>
          ⟨⟨isName ▸ Decimal.text_ne_nil index, isName⟩, others⟩

/-- Names in order grow, and lie behind the name before them. -/
theorem ordered_names (order : ordered false index previous names = true)
    : names.Pairwise (· < ·) ∧ ∀ name ∈ names, previous < name := by
  induction names generalizing index previous with
  | nil => exact ⟨List.Pairwise.nil, nofun⟩
  | cons name names ih =>
      rw [ordered_cons] at order
      simp only [Bool.false_eq_true, if_false, Bool.and_eq_true, decide_eq_true_eq] at order
      obtain ⟨⟨_, first⟩, later⟩ := order
      obtain ⟨grows, behind⟩ := ih later
      refine ⟨List.pairwise_cons.mpr ⟨behind, grows⟩, fun other listed => ?_⟩
      rcases List.mem_cons.mp listed with rfl | listed
      · exact first
      · exact List.lt_trans first (behind other listed)

theorem ordered_nodup {byIndex : Bool} (order : ordered byIndex 0 [] names = true)
    : names.Nodup := by
  cases byIndex with
  | true =>
      rw [ordered_indexes.mp order]
      exact List.Nodup.map Decimal.text_injective List.nodup_range'
  | false =>
      refine (ordered_names order).1.imp ?_
      rintro _ _ less rfl
      exact List.lt_irrefl _ less

/-- The fields are visited in another order, but they are the same. -/
theorem sortedFields_perm (distinct : (rows.map Prod.fst).Nodup)
    : (sortedFields (Database.setAll ∅ rows)).Perm rows := by
  have names : (sortedNames (Database.setAll ∅ rows)).Perm (Database.setAll ∅ rows).keys :=
    List.perm_insertionSort _ _
  have sorted : (sortedFields (Database.setAll ∅ rows)).Nodup := by
    refine List.Nodup.map_on ?_ (names.nodup_iff.mpr (Assoc.nodup_keys _))
    intro _ _ _ _ same
    exact (Prod.mk.inj same).1
  refine (List.perm_ext_iff_of_nodup sorted distinct.of_map).mpr fun row => ?_
  rw [sortedFields, List.mem_map]
  constructor
  · rintro ⟨name, listed, rfl⟩
    rw [names.mem_iff, Assoc.mem_keys] at listed
    obtain ⟨value, found⟩ := listed
    by_cases inside : name ∈ rows.map Prod.fst
    · obtain ⟨row, isRow, rfl⟩ := List.mem_map.mp inside
      rw [Redis.get?_setAll_of_mem distinct isRow]
      exact isRow
    · rw [Redis.get?_setAll_of_notMem inside, Assoc.get?_empty] at found
      cases found
  · intro listed
    have found := @Redis.get?_setAll_of_mem _ ∅ _ row distinct listed
    refine ⟨row.1, names.mem_iff.mpr ((Assoc.mem_keys _ _).mpr ⟨_, found⟩), ?_⟩
    rw [found]
    rfl

namespace Go

variable {kind : Kind} {patch : Bool} {maximum : Nat}

/-- What is wrong after more fields, if nothing was wrong before. -/
def rowsFailure (kind : Kind) (patch : Bool) (maximum : Nat)
    : Nat → Option Failure → List (Text × Text) → Option Failure
  | _, failure, [] => failure
  | encodedBytes, failure, row :: rest =>
      rowsFailure kind patch maximum (encodedBytes + fieldBytes row.1 row.2)
        (fieldFailure kind patch maximum encodedBytes failure row.1 row.2) rest

theorem eventFields_follows {fieldCount left index encodedBytes : Nat} {previous : Text}
    {failure : Option Failure} {fields : Assoc Text Text}
    (inside : index + left ≤ fieldCount)
    : (eventFields kind patch maximum fieldCount left index previous encodedBytes failure
        fields).Follows (do
          let rows ← pairsReading left
          if ordered (!patch && kind == .array) index previous (rows.map Prod.fst) = true
              ∧ rowsFailure kind patch maximum encodedBytes failure rows = none then
            pure (Database.setAll fields rows, encodedBytes + listBytes rows)
          else
            Parse.fail) := by
  induction left generalizing index previous encodedBytes failure fields with
  | zero =>
      simp only [pairsReading, pure_bind, List.map_nil, ordered, rowsFailure, true_and]
      cases failure with
      | none => exact Reader.Follows.pure _
      | some failure => exact Reader.Follows.fail failure
  | succ left ih =>
      rw [pairsReading_bind]
      refine Reader.Follows.attempt_bind rawBytes_follows (fun name => ?_) fun _ =>
        Reader.Follows.attempt_refused rawBytes_follows fun _ => Reader.Follows.fail _
      refine Reader.Follows.attempt_bind rawBytes_follows (fun value => ?_) fun _ =>
        Reader.Follows.fail _
      simp only [List.map_cons, ordered_cons, rowsFailure]
      by_cases empty : name = []
      · simp only [empty, bne_self_eq_false, Bool.false_and, Bool.false_eq_true, false_and,
          if_false, if_true, Parse.bind_fail]
        exact Reader.Follows.fail _
      · rw [if_neg empty]
        have isName : (name != []) = true := by simpa using empty
        have isIndex : arrayFieldIndex name fieldCount ≠ some index
            ↔ ¬name = Decimal.text index := by
          rw [ne_eq, arrayFieldIndex_eq_some, not_and]
          exact ⟨fun refused isText => refused isText (by omega), fun other isText => absurd isText other⟩
        have order : (if patch = false ∧ kind = .array then
              arrayFieldIndex name fieldCount ≠ some index
            else previous ≠ [] ∧ name ≤ previous)
            ↔ (if (!patch && kind == .array) = true then name == Decimal.text index
                else decide (previous < name)) = false := by
          have flag : (!patch && kind == .array) = true ↔ patch = false ∧ kind = .array := by
            simp
          by_cases isArray : patch = false ∧ kind = .array
          · rw [if_pos isArray, if_pos (flag.mpr isArray), isIndex]
            simp
          · rw [if_neg isArray, if_neg (mt flag.mp isArray), after_iff empty]
            simp
        rw [isName, Bool.true_and]
        cases placed : (if (!patch && kind == .array) = true then name == Decimal.text index
          else decide (previous < name)) with
        | false =>
            rw [if_pos (order.mpr placed)]
            simp only [Bool.false_and, Bool.false_eq_true, false_and, if_false, Parse.bind_fail]
            exact Reader.Follows.fail _
        | true =>
            rw [if_neg fun refused => by rw [order.mp refused] at placed; cases placed]
            simp only [Bool.true_and]
            have later := @ih (index + 1) (encodedBytes + (name.length + value.length)) name
              (fieldFailure kind patch maximum encodedBytes failure name value)
              (fields.set name value) (by omega)
            have bytes (rows : List (Text × Text))
                : encodedBytes + listBytes ((name, value) :: rows)
                  = encodedBytes + (name.length + value.length) + listBytes rows :=
              (Nat.add_assoc _ _ _).symm
            simp only [bytes]
            exact later

variable {encodedBytes : Nat} {failure : Option Failure}

theorem fieldFailure_eq_none {name value : Text}
    : fieldFailure kind patch maximum encodedBytes failure name value = none
      ↔ failure = none ∧ encodedBytes + (name.length + value.length) ≤ maximum
        ∧ if patch = false ∧ kind = .value then name = ascii "value"
          else validFieldName name = true := by
  rw [fieldFailure.eq_def]
  cases failure with
  | some failure => simp
  | none =>
      by_cases isValue : patch = false ∧ kind = .value
      · simp only [if_pos isValue]
        by_cases named : name = ascii "value"
        · simp [named]
          omega
        · simp [named]
      · simp only [if_neg isValue]
        by_cases named : validFieldName name = true
        · simp [named]
          omega
        · simp [named]

variable {rows : List (Text × Text)}

/-- The rows are admitted one by one, and together they fit. Witness: induction over the rows. -/
theorem rowsFailure_eq_none (fits : failure = none → encodedBytes ≤ maximum)
    : rowsFailure kind patch maximum encodedBytes failure rows = none
      ↔ failure = none ∧ encodedBytes + listBytes rows ≤ maximum
        ∧ ∀ row ∈ rows, if patch = false ∧ kind = .value then row.1 = ascii "value"
          else validFieldName row.1 = true := by
  induction rows generalizing encodedBytes failure with
  | nil =>
      rw [rowsFailure]
      refine ⟨fun isNone => ⟨isNone, fits isNone, nofun⟩, And.left⟩
  | cons row rest ih =>
      have bytes : listBytes (row :: rest) = row.1.length + row.2.length + listBytes rest := rfl
      rw [rowsFailure, fieldBytes, ih fun isNone => (fieldFailure_eq_none.mp isNone).2.1, fieldFailure_eq_none,
        List.forall_mem_cons, bytes]
      constructor
      · rintro ⟨⟨isNone, _, named⟩, together, others⟩
        exact ⟨isNone, by omega, named, others⟩
      · rintro ⟨isNone, together, named, others⟩
        exact ⟨⟨isNone, by omega, named⟩, by omega, others⟩

/-- What is checked field by field is what is asked of the fields. -/
theorem admits_iff
    : ordered (!patch && kind == .array) 0 [] (rows.map Prod.fst) = true
        ∧ rowsFailure kind patch maximum 0
          (if patch = false ∧ kind = .value ∧ rows.length ≠ 1 then
            some { code := .contract, field := ascii "value" }
          else if patch = true ∧ rows.length = 0 then
            some { code := .invalid, field := ascii "patch" }
          else
            none) rows = none
      ↔ admits kind patch maximum rows = true := by
  rw [rowsFailure_eq_none fun _ => Nat.zero_le _, Nat.zero_add, admits]
  simp only [Bool.and_eq_true, decide_eq_true_eq, List.all_eq_true]
  have single : (∀ row ∈ rows, row.1 = ascii "value") ∧ rows.length = 1
      ↔ rows.map Prod.fst = [ascii "value"] := by
    constructor
    · rintro ⟨named, one⟩
      obtain ⟨row, rfl⟩ := List.length_eq_one_iff.mp one
      rw [List.map_singleton, named row (by simp)]
    · intro isName
      have one := congrArg List.length isName
      rw [List.length_map] at one
      refine ⟨fun row listed => ?_, one⟩
      have member := List.mem_map_of_mem (f := Prod.fst) listed
      rw [isName, List.mem_singleton] at member
      exact member
  cases patch with
  | true =>
      simp only [Bool.true_eq_false, false_and, if_false, true_and, if_true, Bool.not_eq_true',
        List.isEmpty_eq_false_iff]
      by_cases none : rows = []
      · simp [none]
      · have some : rows.length ≠ 0 := mt List.length_eq_zero_iff.mp none
        simp only [if_neg some, none, not_false_eq_true, true_and, ne_eq, and_true]
        exact ⟨fun ⟨order, fits, named⟩ => ⟨⟨order, named⟩, fits⟩,
          fun ⟨⟨order, named⟩, fits⟩ => ⟨order, fits, named⟩⟩
  | false =>
      simp only [true_and, Bool.false_eq_true, false_and, if_false]
      by_cases isValue : kind = .value
      · have readable : validFieldName (ascii "value") = true := by decide
        simp only [isValue, true_and, if_true, bne_self_eq_false, Bool.false_or, beq_iff_eq]
        constructor
        · rintro ⟨order, counted, fits, named⟩
          have one : rows.length = 1 := by
            by_contra several
            rw [if_pos several] at counted
            cases counted
          exact ⟨⟨⟨order, single.mp ⟨named, one⟩⟩,
            fun row listed => (named row listed).symm ▸ readable⟩, fits⟩
        · rintro ⟨⟨⟨order, names⟩, _⟩, fits⟩
          obtain ⟨named, one⟩ := single.mpr names
          exact ⟨order, if_neg (not_not.mpr one), fits, named⟩
      · have other : (kind != .value) = true := by simpa using isValue
        simp only [isValue, false_and, if_false, true_and, other, Bool.true_or, and_true]
        exact ⟨fun ⟨order, fits, named⟩ => ⟨⟨order, named⟩, fits⟩,
          fun ⟨⟨order, named⟩, fits⟩ => ⟨order, fits, named⟩⟩

theorem decodeEventFields_follows
    : (decodeEventFields kind patch maximum).Follows (do
        let rows ← fieldsReading (admits kind patch maximum)
        pure (Database.setAll ∅ rows, listBytes rows)) := by
  simp only [fieldsReading, bind_assoc, Parse.ite_bind, Parse.fail_bind, pure_bind]
  refine Reader.Follows.bind (Reader.Follows.orFail arrayLength_follows _) fun count => ?_
  refine Reader.Follows.ite (fun _ => Reader.Follows.fail _) fun _ => ?_
  have loop := @eventFields_follows kind patch maximum (count / 2) (count / 2) 0 0 []
    (if patch = false ∧ kind = .value ∧ count / 2 ≠ 1 then
        some { code := .contract, field := ascii "value" }
      else if patch = true ∧ count / 2 = 0 then
        some { code := .invalid, field := ascii "patch" }
      else
        none) ∅ (by omega)
  rw [Parse.bind_congr_of fun rows before rest read => ?_] at loop
  · exact loop
  · rw [← pairsReading_length read]
    simp only [admits_iff, Nat.zero_add]

end Go

namespace Rust

variable {kind : Kind} {maximum : Nat}

/-- A text that is not UTF-8 is refused when it is read. -/
theorem text_bind {field : Text} {Result : Type} {next : Text → Reader Failure Result}
    {later : Text → Parse Result}
    (each : ∀ text, validString text = true → (next text).Follows (later text))
    (refused : ∀ text, validString text = false → later text = Parse.fail)
    : (text field >>= next).Follows (textReading >>= later) := by
  rw [text, bind_assoc]
  refine Reader.Follows.bind (Reader.Follows.orFail rawBytes_follows _) fun value => ?_
  by_cases readable : validString value = true
  · rw [if_pos readable, pure_bind]
    exact each value readable
  · rw [if_neg readable, refused value (by simpa using readable)]
    exact Reader.Follows.fail _

theorem eventFields_follows {byIndex : Bool} {fieldCount left index : Nat}
    {previous : Option Text} {fields : Assoc Text Text} (inside : index + left ≤ fieldCount)
    (small : fieldCount ≤ 2 ^ 64) (earlier : Earlier byIndex index (previous.getD []) fields)
    : (eventFields byIndex fieldCount left index previous fields).Follows (do
        let rows ← pairsReading left
        if ordered byIndex index (previous.getD []) (rows.map Prod.fst) = true
            ∧ (rows.all fun row => validString row.1) = true then
          pure (Database.setAll fields rows)
        else
          Parse.fail) := by
  induction left generalizing index previous fields with
  | zero => exact Reader.Follows.pure _
  | succ left ih =>
      rw [pairsReading_bind]
      refine text_bind (fun name readable => ?_) fun name unreadable => ?_
      · refine Reader.Follows.bind (Reader.Follows.orFail rawBytes_follows _) fun value => ?_
        simp only [List.map_cons, ordered_cons, List.all_cons, readable, Bool.true_and]
        by_cases empty : name = []
        · rw [if_pos (.inl empty)]
          simp only [empty, bne_self_eq_false, Bool.false_and, Bool.false_eq_true, false_and,
            if_false, Parse.bind_fail]
          exact Reader.Follows.fail _
        · have isName : (name != []) = true := by simpa using empty
          have order : (if byIndex = true then
                decide (arrayFieldIndex name fieldCount ≠ some index)
              else previous.any fun previous => decide (name ≤ previous))
              = !(if byIndex = true then name == Decimal.text index
                  else decide (previous.getD [] < name)) := by
            cases byIndex with
            | true =>
                have isIndex : arrayFieldIndex name fieldCount = some index
                    ↔ name = Decimal.text index := by
                  rw [arrayFieldIndex_eq small, arrayFieldIndex_eq_some]
                  exact ⟨And.left, fun isText => ⟨isText, by omega⟩⟩
                simp only [if_true, ne_eq, isIndex]
                by_cases isText : name = Decimal.text index <;> simp [isText]
            | false =>
                cases previous with
                | none =>
                    obtain ⟨first, rest, rfl⟩ := List.exists_cons_of_ne_nil empty
                    simp
                | some previous =>
                    simp only [Bool.false_eq_true, if_false, Option.any_some, Option.getD_some,
                      ← decide_not, List.not_lt]
          rw [order, isName, Bool.true_and]
          cases placed : (if byIndex = true then name == Decimal.text index
            else decide (previous.getD [] < name)) with
          | false =>
              rw [if_pos (.inr rfl)]
              simp only [Bool.false_and, Bool.false_eq_true, false_and, if_false, Parse.bind_fail]
              exact Reader.Follows.fail _
          | true =>
              rw [if_neg (by simpa using empty), earlier.fresh placed, if_neg (by rintro ⟨⟩)]
              simp only [Bool.true_and]
              exact @ih (index + 1) (some name) (fields.set name value) (by omega)
                (earlier.set placed)
      · simp [unreadable]

/-- The loop admits the names one by one, and what they need together. Witness: induction over the
fields.
-/
theorem validateFields_eq {field : Text} {bytes : Nat} {rows : List (Text × Text)}
    (small : maximum < 2 ^ 64) (fits : bytes ≤ maximum)
    : (validateFields maximum field bytes rows).toOption
      = if (rows.all fun row => userField row.1) = true ∧ bytes + listBytes rows ≤ maximum then
          some (bytes + listBytes rows)
        else
          none := by
  induction rows generalizing bytes with
  | nil => exact (if_pos ⟨rfl, fits⟩).symm
  | cons row rest ih =>
      obtain ⟨name, value⟩ := row
      have total : bytes + listBytes ((name, value) :: rest)
          = bytes + name.length + value.length + listBytes rest := by
        rw [Nat.add_assoc bytes, Nat.add_assoc]
        rfl
      rw [validateFields, validateFieldName, total, List.all_cons]
      by_cases named : userField name = true
      · have some : ¬(name = [] ∨ name.head? = some 64) := by
          simpa [userField] using named
        rw [if_neg some, named, Bool.true_and]
        dsimp only
        by_cases large : 2 ^ 64 ≤ bytes + name.length + value.length
            ∨ maximum < bytes + name.length + value.length
        · rw [if_pos large, if_neg (by omega)]
          rfl
        · rw [if_neg large, ih (by omega)]
      · have refused : name = [] ∨ name.head? = some 64 := by
          by_contra some
          exact named (by simpa [userField] using some)
        have isFalse : userField name = false := by simpa using named
        rw [if_pos refused, isFalse]
        exact (if_neg (by simp)).symm

theorem decodeEventFields_follows {byIndex : Bool}
    : (decodeEventFields byIndex).Follows (do
        let rows ← fieldsReading fun rows =>
          ordered byIndex 0 [] (rows.map Prod.fst) && rows.all fun row => validString row.1
        pure (Database.setAll ∅ rows)) := by
  simp only [fieldsReading, bind_assoc, Parse.ite_bind, Parse.fail_bind, pure_bind,
    Bool.and_eq_true]
  refine Reader.Follows.bind (Reader.Follows.orFail arrayLength_follows _) fun count => ?_
  by_cases refused : count % 2 ≠ 0 ∨ maximumFields < count / 2
  · rw [if_neg (by omega), if_pos refused]
    exact Reader.Follows.fail _
  · have few : count / 2 ≤ 2 ^ 64 :=
      (Nat.not_lt.mp (not_or.mp refused).2).trans (by decide)
    rw [if_pos (by omega), if_neg refused]
    exact eventFields_follows (by omega) few Earlier.empty

end Rust

section Stored

variable {byIndex : Bool} {rows : List (Text × Text)}

theorem size_stored (order : ordered byIndex 0 [] (rows.map Prod.fst) = true)
    : (Database.setAll ∅ rows).size = rows.length := by
  rw [Redis.size_setAll (ordered_nodup order) fun _ _ => Assoc.get?_empty _]
  exact Nat.zero_add _

/-- What is asked of every field, and what they need, does not depend on the order of the fields. -/
theorem stored_rows (order : ordered byIndex 0 [] (rows.map Prod.fst) = true)
    : listBytes (sortedFields (Database.setAll ∅ rows)) = listBytes rows
      ∧ ∀ test : Text × Text → Bool,
        (sortedFields (Database.setAll ∅ rows)).all test = rows.all test :=
  have same := sortedFields_perm (ordered_nodup order)
  ⟨(same.map _).sum_eq, fun _ => same.all_eq⟩

/-- A single value has the one name. -/
theorem stored_single (order : ordered byIndex 0 [] (rows.map Prod.fst) = true)
    : ((Database.setAll ∅ rows).size ≠ 1
        ∨ (Database.setAll ∅ rows).contains (ascii "value") = false)
      ↔ ¬rows.map Prod.fst = [ascii "value"] := by
  have stored : (Database.setAll ∅ rows).contains (ascii "value") = true
      ↔ ascii "value" ∈ rows.map Prod.fst := by
    rw [Assoc.contains, Redis.isSome_setAll, Assoc.get?_empty]
    simp
  rw [size_stored order, ← not_iff_not, not_or, not_not, not_not, Bool.not_eq_false, stored]
  constructor
  · rintro ⟨one, listed⟩
    obtain ⟨row, rfl⟩ := List.length_eq_one_iff.mp one
    rw [List.map_singleton, List.mem_singleton] at listed
    rw [List.map_singleton, listed]
  · intro names
    have one := congrArg List.length names
    rw [List.length_map] at one
    exact ⟨one, names ▸ List.mem_singleton_self _⟩

/-- In an array every name is an index. -/
theorem indexed_rows (order : ordered true 0 [] (rows.map Prod.fst) = true)
    : ∀ row ∈ rows, (arrayFieldIndex row.1 rows.length).isSome = true
        ∧ validFieldName row.1 = true := by
  intro row listed
  have member := List.mem_map_of_mem (f := Prod.fst) listed
  rw [ordered_indexes.mp order, List.length_map] at member
  obtain ⟨index, inside, isText⟩ := List.mem_map.mp member
  rw [List.mem_range'_1] at inside
  rw [← isText, arrayFieldIndex_text (by omega)]
  exact ⟨rfl, validFieldName_text index⟩

/-- A name that is UTF-8 is refused only when it is empty or starts as no name may. -/
theorem all_userField (readable : (rows.all fun row => validString row.1) = true)
    : (rows.all fun row => userField row.1) = rows.all fun row => validFieldName row.1 := by
  rw [List.all_eq_true] at readable
  rw [Bool.eq_iff_iff, List.all_eq_true, List.all_eq_true]
  refine forall₂_congr fun row listed => ⟨fun user => validFieldName_of user (readable row listed), ?_⟩
  intro named
  rw [validFieldName, Bool.and_eq_true, Bool.and_eq_true] at named
  rw [userField, named.1.1, named.2]
  rfl

end Stored

theorem toOption_map {Error Result Value : Type} {result : Except Error Result}
    {f : Result → Value}
    : (result.map f).toOption = result.toOption.map f := by
  cases result <;> rfl

namespace Rust

variable {kind : Kind} {maximum : Nat} {rows : List (Text × Text)}

/-- What is read and then validated is a value. -/
theorem validateValue_eq (small : maximum < 2 ^ 64) (few : rows.length ≤ maximumFields)
    (order : ordered (kind == .array) 0 [] (rows.map Prod.fst) = true)
    (readable : (rows.all fun row => validString row.1) = true)
    : (validateValue kind (Database.setAll ∅ rows) maximum).toOption
      = if admits kind false maximum rows = true then some (listBytes rows) else none := by
  obtain ⟨bytes, all⟩ := stored_rows order
  rw [validateValue, if_neg (by rw [size_stored order]; omega), admits]
  simp only [stored_single order, Bool.not_false, Bool.true_and, order, Bool.false_eq_true,
    if_false]
  by_cases single : kind = .value ∧ ¬rows.map Prod.fst = [ascii "value"]
  · rw [if_pos single, if_neg]
    · rfl
    · simp [single.1, single.2]
  · have named : (kind != .value || rows.map Prod.fst == [ascii "value"]) = true := by
      rw [Bool.or_eq_true, bne_iff_ne, beq_iff_eq]
      by_cases isValue : kind = .value
      · exact .inr (by_contra fun other => single ⟨isValue, other⟩)
      · exact .inl isValue
    have indexed : ¬(kind = .array ∧ (sortedNames (Database.setAll ∅ rows)).any
        (fun name => (arrayFieldIndex name (Database.setAll ∅ rows).size).isNone) = true) := by
      rintro ⟨rfl, missing⟩
      obtain ⟨name, listed, isNone⟩ := List.any_eq_true.mp missing
      have row := (sortedFields_perm (ordered_nodup order)).mem_iff.mp
        (List.mem_map_of_mem (f := fun name =>
          (name, ((Database.setAll ∅ rows).get? name).getD [])) listed)
      have small : rows.length ≤ 2 ^ 64 := few.trans (by decide)
      have isSome := (indexed_rows order _ row).1
      rw [size_stored order, arrayFieldIndex_eq small, Option.isNone_iff_eq_none] at isNone
      rw [isNone] at isSome
      cases isSome
    rw [if_neg single, if_neg indexed, validateFields_eq small (Nat.zero_le _), all, bytes, named,
      Nat.zero_add, all_userField readable]
    simp only [Bool.true_and, Bool.and_eq_true, decide_eq_true_eq]

/-- What is read and then validated is a patch. -/
theorem validatePatch_eq (small : maximum < 2 ^ 64) (few : rows.length ≤ maximumFields)
    (order : ordered false 0 [] (rows.map Prod.fst) = true)
    (readable : (rows.all fun row => validString row.1) = true)
    : (validatePatch (Database.setAll ∅ rows) maximum).toOption
      = if admits kind true maximum rows = true then some () else none := by
  obtain ⟨bytes, all⟩ := stored_rows order
  rw [validatePatch, size_stored order, admits]
  simp only [Bool.not_true, Bool.false_and, order, Bool.true_and, if_true]
  by_cases none : rows = []
  · rw [if_pos (List.length_eq_zero_iff.mpr none), none]
    rfl
  · have some : (!rows.isEmpty) = true := by simpa using none
    rw [if_neg (mt List.length_eq_zero_iff.mp none), if_neg (Nat.not_lt.mpr few), some, Bool.true_and,
      ← all_userField readable]
    have validated := @validateFields_eq maximum (ascii "patch") 0
      (sortedFields (Database.setAll ∅ rows)) small (Nat.zero_le _)
    rw [all, bytes, Nat.zero_add] at validated
    simp only [Bool.and_eq_true, decide_eq_true_eq]
    rw [toOption_map, validated]
    split_ifs <;> rfl

end Rust

namespace Cpp

variable {kind : Kind} {maximum : Nat} {rows : List (Text × Text)}

theorem refused_iff {name : Text}
    : (name = [] ∨ name.head? = some 64 ∨ validString name = false)
      ↔ validFieldName name = false := by
  rw [validFieldName, Bool.and_eq_false_iff, Bool.and_eq_false_iff]
  simp only [decide_eq_false_iff_not, not_not, bne_eq_false_iff_eq]
  exact ⟨fun refused => refused.elim (.inl ∘ .inl) (Or.elim · .inr (.inl ∘ .inr)),
    fun refused => refused.elim (Or.elim · .inl (.inr ∘ .inr)) (.inr ∘ .inl)⟩

theorem misplaced_eq {byIndex : Bool} {index : Nat} {previous name : Text} (small : index < 2 ^ 64)
    (some : name ≠ [])
    : misplaced byIndex index previous name
      = !(if byIndex = true then name == Decimal.text index else decide (previous < name)) := by
  rw [misplaced]
  cases byIndex with
  | true =>
      have isIndex := @fromChars_whole name index small
      simp only [if_true]
      by_cases isText : name = Decimal.text index
      · obtain ⟨read, unpadded⟩ := isIndex.mpr isText
        have same : (name == Decimal.text index) = true := beq_iff_eq.mpr isText
        rw [read, same]
        simp only [ne_eq, not_true_eq_false, false_or, unpadded]
        rfl
      · have other : (name == Decimal.text index) = false := by simpa using isText
        rw [other]
        rcases read : fromChars name with _ | ⟨decoded, rest⟩
        · rfl
        · refine decide_eq_true (by_contra fun placed => isText (isIndex.mp ?_))
          rw [not_or, not_or, not_not, not_not] at placed
          rw [read, placed.1, placed.2.1]
          exact ⟨rfl, placed.2.2⟩
  | false => simp only [Bool.false_eq_true, if_false, after_iff some, decide_not]

theorem fieldsFrom_follows {byIndex : Bool} {left index : Nat} {previous : Text}
    {fields : Assoc Text Text} (small : index + left ≤ 2 ^ 64)
    (earlier : Earlier byIndex index previous fields)
    : (fieldsFrom byIndex left index previous fields).Follows (do
        let rows ← pairsReading left
        if ordered byIndex index previous (rows.map Prod.fst) = true then
          pure (Database.setAll fields rows)
        else
          Parse.fail) := by
  induction left generalizing index previous fields with
  | zero => exact Reader.Follows.pure _
  | succ left ih =>
      rw [pairsReading_bind]
      refine Reader.Follows.attempt_bind binary_follows (fun name => ?_) fun _ =>
        Reader.Follows.attempt_refused binary_follows fun _ => Reader.Follows.fail _
      refine Reader.Follows.attempt_bind binary_follows (fun value => ?_) fun _ =>
        Reader.Follows.fail _
      simp only [List.map_cons, ordered_cons]
      by_cases empty : name = []
      · simp only [empty, bne_self_eq_false, Bool.false_and, Bool.false_eq_true, if_false, if_true,
          Parse.bind_fail]
        exact Reader.Follows.fail _
      · rw [if_neg empty]
        have isName : (name != []) = true := by simpa using empty
        have order := @misplaced_eq byIndex index previous name (by omega) empty
        simp only [order, isName, Bool.true_and]
        cases placed : (if byIndex = true then name == Decimal.text index
          else decide (previous < name)) with
        | false =>
            simp only [Bool.not_false, if_true, Bool.false_and, Bool.false_eq_true, if_false,
              Parse.bind_fail]
            exact Reader.Follows.fail _
        | true =>
            simp only [Bool.not_true, Bool.false_eq_true, if_false, Bool.true_and,
              earlier.fresh placed]
            exact @ih (index + 1) name (fields.set name value) (by omega) (earlier.set placed)

theorem eventFields_follows {byIndex : Bool}
    : (eventFields byIndex).Follows (do
        let rows ← fieldsReading fun rows => ordered byIndex 0 [] (rows.map Prod.fst)
        pure (Database.setAll ∅ rows)) := by
  simp only [fieldsReading, bind_assoc, Parse.ite_bind, Parse.fail_bind, pure_bind]
  refine Reader.Follows.bind (Reader.Follows.orFail arraySize_follows _) fun elements => ?_
  by_cases refused : elements % 2 ≠ 0 ∨ maximumFields < elements / 2
  · rw [if_pos refused, if_pos refused]
    exact Reader.Follows.fail _
  · have few : elements / 2 ≤ 2 ^ 64 :=
      (Nat.not_lt.mp (not_or.mp refused).2).trans (by decide)
    rw [if_neg refused, if_neg refused]
    exact fieldsFrom_follows (by omega) Earlier.empty

/-- The loop admits the names one by one, and what they need together. Witness: induction over the
fields.
-/
theorem validateFields_eq {array : Bool} {count size : Nat} {field : Text}
    (few : count ≤ 2 ^ 64) (fits : size ≤ maximum)
    : (validateFields count maximum array field size rows).toOption
      = if (rows.all fun row =>
            (!array || (arrayFieldIndex row.1 count).isSome) && validFieldName row.1) = true
          ∧ size + listBytes rows ≤ maximum then
          some (size + listBytes rows)
        else
          none := by
  induction rows generalizing size with
  | nil => exact (if_pos ⟨rfl, fits⟩).symm
  | cons row rest ih =>
      obtain ⟨name, value⟩ := row
      have total : size + listBytes ((name, value) :: rest)
          = size + (name.length + value.length) + listBytes rest := by
        rw [Nat.add_assoc]
        rfl
      have left := sizeBelow_eq fits
      rw [validateFields, total, List.all_cons, arrayIndex_eq few, validUtf8_eq]
      dsimp only
      by_cases indexed : array = true ∧ arrayFieldIndex name count = none
      · rw [if_pos indexed, indexed.1, indexed.2]
        exact (if_neg (by simp)).symm
      · have isIndexed : (!array || (arrayFieldIndex name count).isSome) = true := by
          rw [Bool.or_eq_true, Bool.not_eq_true', Option.isSome_iff_ne_none]
          by_cases isArray : array = true
          · exact .inr fun missing => indexed ⟨isArray, missing⟩
          · exact .inl (by simpa using isArray)
        rw [if_neg indexed, isIndexed, Bool.true_and]
        by_cases refused : name = [] ∨ name.head? = some 64 ∨ validString name = false
        · rw [if_pos refused, refused_iff.mp refused]
          exact (if_neg (by simp)).symm
        · have named : validFieldName name = true := by
            simpa using mt refused_iff.mpr refused
          have capacity : (sizeBelow maximum size < name.length
                ∨ sizeBelow (sizeBelow maximum size) name.length < value.length)
              ↔ maximum < size + (name.length + value.length) := by
            rw [left]
            by_cases short : name.length ≤ maximum - size
            · rw [sizeBelow_eq short]
              omega
            · exact ⟨fun _ => by omega, fun _ => .inl (by omega)⟩
          rw [if_neg refused, named, Bool.true_and]
          by_cases large : maximum < size + (name.length + value.length)
          · rw [if_pos (capacity.mpr large), if_neg (by omega)]
            rfl
          · rw [if_neg (mt capacity.mp large), ih (by omega)]

/-- What is read and then validated is a value. -/
theorem validateCatalogValue_eq (few : rows.length ≤ maximumFields)
    (order : ordered (kind == .array) 0 [] (rows.map Prod.fst) = true)
    : (validateCatalogValue kind (Database.setAll ∅ rows) maximum).toOption
      = if admits kind false maximum rows = true then some (listBytes rows) else none := by
  obtain ⟨bytes, all⟩ := stored_rows order
  have small : rows.length ≤ 2 ^ 64 := few.trans (by decide)
  rw [validateCatalogValue, if_neg (by rw [size_stored order]; omega), admits]
  simp only [stored_single order, Bool.not_false, Bool.true_and, order, Bool.false_eq_true,
    if_false]
  by_cases single : kind = .value ∧ ¬rows.map Prod.fst = [ascii "value"]
  · rw [if_pos single, if_neg]
    · rfl
    · simp [single.1, single.2]
  · have named : (kind != .value || rows.map Prod.fst == [ascii "value"]) = true := by
      rw [Bool.or_eq_true, bne_iff_ne, beq_iff_eq]
      by_cases isValue : kind = .value
      · exact .inr (by_contra fun other => single ⟨isValue, other⟩)
      · exact .inl isValue
    have indexed : (rows.all fun row => (!(kind == .array)
          || (arrayFieldIndex row.1 rows.length).isSome) && validFieldName row.1)
        = rows.all fun row => validFieldName row.1 := by
      by_cases isArray : (kind == .array) = true
      · rw [isArray] at order ⊢
        have each := indexed_rows order
        rw [Bool.eq_iff_iff, List.all_eq_true, List.all_eq_true]
        exact forall₂_congr fun row listed => by simp [each row listed]
      · simp [isArray]
    rw [if_neg single, size_stored order, validateFields_eq small (Nat.zero_le _), all, bytes,
      named, Nat.zero_add, indexed]
    simp only [Bool.true_and, Bool.and_eq_true, decide_eq_true_eq]

/-- What is read and then validated is a patch. -/
theorem validateCatalogPatch_eq (few : rows.length ≤ maximumFields)
    (order : ordered false 0 [] (rows.map Prod.fst) = true)
    : (validateCatalogPatch (Database.setAll ∅ rows) maximum).toOption
      = if admits kind true maximum rows = true then some () else none := by
  obtain ⟨bytes, all⟩ := stored_rows order
  rw [validateCatalogPatch, size_stored order, admits]
  simp only [Bool.not_true, Bool.false_and, order, Bool.true_and, if_true]
  by_cases none : rows = []
  · rw [if_pos (List.length_eq_zero_iff.mpr none), none]
    rfl
  · have some : (!rows.isEmpty) = true := by simpa using none
    have validated := @validateFields_eq maximum (sortedFields (Database.setAll ∅ rows)) false
      rows.length 0 (ascii "patch") (few.trans (by decide)) (Nat.zero_le _)
    simp only [Bool.not_false, Bool.true_or, Bool.true_and, all, bytes, Nat.zero_add] at validated
    rw [if_neg (mt List.length_eq_zero_iff.mp none), if_neg (Nat.not_lt.mpr few), some, Bool.true_and,
      toOption_map, validated]
    simp only [Bool.and_eq_true, decide_eq_true_eq]
    split_ifs <;> rfl

end Cpp

end Sdk.Catalog
