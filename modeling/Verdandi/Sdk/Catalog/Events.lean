import Verdandi.Sdk.Catalog.Replies
import Verdandi.Support.MessagePack

/-! What a mutation publishes, how it is packed, and how a client decodes and applies it. -/

namespace Sdk.Catalog

open Support
open Support.Redis (Text Database)

def packFields (fields : List (Text × Text)) : Text :=
  MessagePack.array (fields.flatMap fun field =>
    [MessagePack.text field.1, MessagePack.text field.2])

def Event.pack : Event → Text
  | .replace member revision kind encodedBytes fields =>
      MessagePack.array
        [MessagePack.text (ascii "v1"), MessagePack.text (ascii "replace"),
          MessagePack.text member, MessagePack.text revision, MessagePack.text kind.text,
          MessagePack.text encodedBytes, packFields fields]
  | .patch member baseRevision revision kind encodedBytes sets =>
      MessagePack.array
        [MessagePack.text (ascii "v1"), MessagePack.text (ascii "patch"), MessagePack.text member,
          MessagePack.text baseRevision, MessagePack.text revision, MessagePack.text kind.text,
          MessagePack.text encodedBytes, packFields sets]
  | .delete member revision =>
      MessagePack.array
        [MessagePack.text (ascii "v1"), MessagePack.text (ascii "delete"),
          MessagePack.text member, MessagePack.text revision]

-- The decoder; it works on what remains of a payload

def takeBytes (length : Nat) (payload : Text) : Option (Text × Text) :=
  if payload.length < length then none else some (payload.take length, payload.drop length)

def takeNumber (width : Nat) (payload : Text) : Option (Nat × Text) :=
  (takeBytes width payload).map fun (bytes, rest) =>
    (bytes.foldl (fun number byte => number * 256 + byte.toNat) 0, rest)

def arrayLength : Text → Option (Nat × Text)
  | [] => none
  | code :: rest =>
      if 144 ≤ code ∧ code ≤ 159 then some (code.toNat % 16, rest)
      else if code = 220 then takeNumber 2 rest
      else if code = 221 then takeNumber 4 rest
      else none

def rawBytes : Text → Option (Text × Text)
  | [] => none
  | code :: rest =>
      let sized :=
        if 160 ≤ code ∧ code ≤ 191 then some (code.toNat % 32, rest)
        else if code = 196 ∨ code = 217 then takeNumber 1 rest
        else if code = 197 ∨ code = 218 then takeNumber 2 rest
        else if code = 198 ∨ code = 219 then takeNumber 4 rest
        else none
      sized.bind fun (length, rest) => takeBytes length rest

inductive EventKind where
  | replace
  | patch
  | delete
  deriving DecidableEq, Repr

structure CatalogEvent where
  kind : EventKind
  path : Path
  revision : Nat
  baseRevision : Nat := 0
  valueKind : Option Kind := none
  encodedBytes : Nat := 0
  fields : Assoc Text Text := ∅

def maximumEventPayload (maximumBytes : Nat) : Nat :=
  maximumBytes + min maximumBytes maximumFields * 10 + 1024

def Path.matchesMember (path : Path) (member : Text) : Bool :=
  decide (member.length = path.part.length + 1 + path.id.length)
    && decide (member.take path.part.length = path.part)
    && decide (member[path.part.length]? = some 58)
    && decide (member.drop (path.part.length + 1) = path.id)

def eventFailure {Result : Type} (code : Code) (field : Text) (revision : Nat := 0)
    : Except Failure Result :=
  .error { code, field, revision }

def decodeEventRevision (payload field : Text) : Except Failure (Nat × Text) :=
  match rawBytes payload with
  | none => eventFailure .corrupt field
  | some (text, rest) =>
      match parseRevision text false with
      | .error _ => eventFailure .corrupt field
      | .ok revision => .ok (revision, rest)

/-- What is wrong with the next field, if nothing was wrong before. -/
def fieldFailure (kind : Kind) (patch : Bool) (maximumBytes encodedBytes : Nat)
    (failure : Option Failure) (name value : Text)
    : Option Failure :=
  let failure :=
    match failure with
    | some failure => some failure
    | none =>
        if patch = false ∧ kind = .value then
          if name ≠ ascii "value" then some { code := .contract, field := ascii "value" } else none
        else if validFieldName name = false then
          some { code := .invalid, field := name }
        else
          none
  match failure with
  | some failure => some failure
  | none =>
      if maximumBytes < encodedBytes ∨ maximumBytes - encodedBytes < name.length
          ∨ maximumBytes - encodedBytes - name.length < value.length then
        some { code := .capacity, field := if patch then ascii "patch" else ascii "value" }
      else
        none

/-- The loop over the fields of an event: so many are left, from an index, after a name. -/
def eventFields (kind : Kind) (patch : Bool) (maximumBytes fieldCount : Nat)
    : Nat → Nat → Text → Nat → Option Failure → Assoc Text Text → Text
      → Except Failure (Assoc Text Text × Nat × Text)
  | 0, _, _, encodedBytes, failure, fields, payload =>
      match failure with
      | some failure => .error failure
      | none => .ok (fields, encodedBytes, payload)
  | left + 1, expectedIndex, previous, encodedBytes, failure, fields, payload =>
      match rawBytes payload with
      | none => eventFailure .corrupt (ascii "fields")
      | some (name, payload) =>
          match rawBytes payload with
          | none => eventFailure .corrupt (ascii "fields")
          | some (value, payload) =>
              if name = [] then
                eventFailure .corrupt (ascii "fields")
              else if (if patch = false ∧ kind = .array then
                    arrayFieldIndex name fieldCount ≠ some expectedIndex
                  else previous ≠ [] ∧ name ≤ previous) then
                eventFailure .corrupt name
              else
                eventFields kind patch maximumBytes fieldCount left (expectedIndex + 1) name
                  (encodedBytes + (name.length + value.length))
                  (fieldFailure kind patch maximumBytes encodedBytes failure name value)
                  (fields.set name value) payload

def decodeEventFields (payload : Text) (kind : Kind) (patch : Bool) (maximumBytes : Nat)
    : Except Failure (Assoc Text Text × Nat × Text) :=
  match arrayLength payload with
  | none => eventFailure .corrupt (ascii "fields")
  | some (count, payload) =>
      if count % 2 ≠ 0 ∨ maximumFields < count / 2 then
        eventFailure .corrupt (ascii "fields")
      else
        let failure : Option Failure :=
          if patch = false ∧ kind = .value ∧ count / 2 ≠ 1 then
            some { code := .contract, field := ascii "value" }
          else if patch = true ∧ count / 2 = 0 then
            some { code := .invalid, field := ascii "patch" }
          else
            none
        eventFields kind patch maximumBytes (count / 2) (count / 2) 0 [] 0 failure ∅ payload

/-- The kind and the size of a value, after a revision; a patch is of no single value. -/
def decodeEventHeader (payload : Text) (patch : Bool) (revision maximumBytes : Nat)
    : Except Failure (Kind × Nat × Text) :=
  match (rawBytes payload).bind fun (text, rest) => (Kind.parse text).map (·, rest) with
  | none => eventFailure .corrupt (ascii "@kind") revision
  | some (kind, payload) =>
      if patch = true ∧ kind = .value then
        eventFailure .corrupt (ascii "@kind") revision
      else
        match rawBytes payload with
        | none => eventFailure .corrupt (ascii "@encoded_bytes") revision
        | some (bytesText, payload) =>
            match parseInteger bytesText (ascii "@encoded_bytes") maximumBytes with
            | .error failure => .error failure
            | .ok encodedBytes => .ok (kind, encodedBytes, payload)

def decodeReplace (payload : Text) (path : Path) (count maximumBytes : Nat)
    : Except Failure (CatalogEvent × Text) :=
  if count ≠ 7 then
    eventFailure .corrupt (ascii "notification")
  else
    match decodeEventRevision payload (ascii "@revision") with
    | .error failure => .error failure
    | .ok (revision, payload) =>
        match decodeEventHeader payload false revision maximumBytes with
        | .error failure => .error failure
        | .ok (kind, encodedBytes, payload) =>
            match decodeEventFields payload kind false maximumBytes with
            | .error failure =>
                if failure.code = .corrupt then
                  .error failure
                else
                  eventFailure .corrupt (ascii "@encoded_bytes") revision
            | .ok (fields, actualBytes, payload) =>
                if actualBytes ≠ encodedBytes then
                  eventFailure .corrupt (ascii "@encoded_bytes") revision
                else
                  .ok ({ kind := .replace, path, revision, valueKind := some kind, encodedBytes,
                         fields }, payload)

def decodePatch (payload : Text) (path : Path) (count maximumBytes : Nat)
    : Except Failure (CatalogEvent × Text) :=
  if count ≠ 8 then
    eventFailure .corrupt (ascii "notification")
  else
    match decodeEventRevision payload (ascii "@base_revision") with
    | .error failure => .error failure
    | .ok (baseRevision, payload) =>
        match decodeEventRevision payload (ascii "@revision") with
        | .error _ => eventFailure .corrupt (ascii "@revision")
        | .ok (revision, payload) =>
            if revision ≤ baseRevision then
              eventFailure .corrupt (ascii "@revision") revision
            else
              match decodeEventHeader payload true revision maximumBytes with
              | .error failure => .error failure
              | .ok (kind, encodedBytes, payload) =>
                  match decodeEventFields payload kind true maximumBytes with
                  | .error failure => .error failure
                  | .ok (fields, _, payload) =>
                      .ok ({ kind := .patch, path, revision, baseRevision,
                             valueKind := some kind, encodedBytes, fields }, payload)

def decodeDelete (payload : Text) (path : Path) (count : Nat)
    : Except Failure (CatalogEvent × Text) :=
  if count ≠ 4 then
    eventFailure .corrupt (ascii "notification")
  else
    match decodeEventRevision payload (ascii "@revision") with
    | .error failure => .error failure
    | .ok (revision, payload) => .ok ({ kind := .delete, path, revision }, payload)

def decodeEvent (payload : Text) (expectedPath : Path) (maximumBytes : Nat)
    : Except Failure CatalogEvent :=
  if maximumEventPayload maximumBytes < payload.length then
    eventFailure .capacity (ascii "notification")
  else
    match arrayLength payload with
    | none => eventFailure .corrupt (ascii "notification")
    | some (count, payload) =>
        if count < 4 then
          eventFailure .corrupt (ascii "notification")
        else
          match rawBytes payload with
          | none => eventFailure .protocol (ascii "protocol")
          | some (protocol, payload) =>
              if protocol ≠ ascii "v1" then
                eventFailure .protocol (ascii "protocol")
              else
                match rawBytes payload with
                | none => eventFailure .corrupt (ascii "operation")
                | some (operation, payload) =>
                    match rawBytes payload with
                    | none => eventFailure .target (ascii "path")
                    | some (member, payload) =>
                        if expectedPath.matchesMember member = false then
                          eventFailure .target (ascii "path")
                        else
                          let decoded :=
                            if operation = ascii "replace" then
                              decodeReplace payload expectedPath count maximumBytes
                            else if operation = ascii "patch" then
                              decodePatch payload expectedPath count maximumBytes
                            else if operation = ascii "delete" then
                              decodeDelete payload expectedPath count
                            else
                              eventFailure .protocol (ascii "operation")
                          match decoded with
                          | .error failure => .error failure
                          | .ok (event, rest) =>
                              if rest ≠ [] then
                                eventFailure .corrupt (ascii "notification")
                              else
                                .ok event

/-- What an event makes of the state of an entry. Without a state, the entry is read instead. -/
def applyEvent (maximumBytes : Nat) (current : RawState) (event : CatalogEvent)
    : Option RawState :=
  match event.kind with
  | .replace =>
      some {
        revision := event.revision
        replaceRevision := event.revision
        status := .present
        kind := event.valueKind
        encodedBytes := event.encodedBytes
        fields := event.fields }
  | .delete => some (deletedState event.revision)
  | .patch =>
      if completePresent (some current) = false ∨ current.revision ≠ event.baseRevision
          ∨ current.kind ≠ event.valueKind then
        none
      else
        let fields := Database.setAll current.fields event.fields.toPairs
        match validateValue current.kind fields maximumBytes with
        | .error _ => none
        | .ok (_, encodedBytes) =>
            if encodedBytes ≠ event.encodedBytes then
              none
            else
              some {
                revision := event.revision
                replaceRevision := current.replaceRevision
                status := .present
                kind := current.kind
                encodedBytes
                fields }

-- What is packed is decoded

section Decode

variable {rest : Text}

theorem takeBytes_append (bytes : Text) : takeBytes bytes.length (bytes ++ rest) = some (bytes, rest) := by
  rw [takeBytes, if_neg (by simp)]
  simp

theorem takeNumber_byte {number : Nat} (small : number < 256)
    : takeNumber 1 (UInt8.ofNat number :: rest) = some (number, rest) := by
  have byte : (UInt8.ofNat number).toNat = number := UInt8.toNat_ofNat_of_lt' small
  simp [takeNumber, takeBytes, byte]

theorem takeNumber_word16 {number : Nat} (small : number < 65536)
    : takeNumber 2 (MessagePack.word16 number ++ rest) = some (number, rest) := by
  simp [takeNumber, takeBytes, MessagePack.word16]
  omega

theorem takeNumber_word32 {number : Nat} (small : number < 4294967296)
    : takeNumber 4 (MessagePack.word32 number ++ rest) = some (number, rest) := by
  simp [takeNumber, takeBytes, MessagePack.word32]
  omega

theorem arrayLength_header {count : Nat} (small : count < 4294967296)
    : arrayLength (MessagePack.arrayHeader count ++ rest) = some (count, rest) := by
  rw [MessagePack.arrayHeader]
  split_ifs with short medium
  · have byte : (UInt8.ofNat (144 + count)).toNat = 144 + count :=
      UInt8.toNat_ofNat_of_lt' (by simp [UInt8.size]; omega)
    rw [List.singleton_append, arrayLength, if_pos]
    · rw [byte]
      congr 2
      omega
    · rw [UInt8.le_iff_toNat_le, UInt8.le_iff_toNat_le, byte]
      exact ⟨Nat.le_add_right _ _, by change _ ≤ 159; omega⟩
  · exact takeNumber_word16 medium
  · exact takeNumber_word32 small

theorem rawBytes_text {bytes : Text} (small : bytes.length < 4294967296)
    : rawBytes (MessagePack.text bytes ++ rest) = some (bytes, rest) := by
  rw [MessagePack.text, List.append_assoc, MessagePack.textHeader]
  split_ifs with short medium long
  · have byte : (UInt8.ofNat (160 + bytes.length)).toNat = 160 + bytes.length :=
      UInt8.toNat_ofNat_of_lt' (by simp [UInt8.size]; omega)
    have length : (UInt8.ofNat (160 + bytes.length)).toNat % 32 = bytes.length := by
      rw [byte]
      omega
    rw [List.singleton_append, rawBytes]
    simp only
    rw [if_pos, Option.bind_some, length, takeBytes_append]
    rw [UInt8.le_iff_toNat_le, UInt8.le_iff_toNat_le, byte]
    exact ⟨Nat.le_add_right _ _, by change _ ≤ 191; omega⟩
  · have sized := @takeNumber_byte (bytes ++ rest) bytes.length medium
    simp [rawBytes, sized, takeBytes_append]
  · have sized := @takeNumber_word16 (bytes ++ rest) bytes.length long
    simp [rawBytes, sized, takeBytes_append]
  · have sized := @takeNumber_word32 (bytes ++ rest) bytes.length small
    simp [rawBytes, sized, takeBytes_append]

/-- Fields in order are decoded one after the other. Witness: induction over the fields. -/
theorem eventFields_ok {kind : Kind} {patch : Bool} {maximumBytes fieldCount index encodedBytes : Nat}
    {rows : List (Text × Text)} {previous : Text} {fields : Assoc Text Text}
    (some : ∀ row ∈ rows, row.1 ≠ [])
    (single : patch = false ∧ kind = .value → ∀ row ∈ rows, row.1 = ascii "value")
    (named : ¬(patch = false ∧ kind = .value) → ∀ row ∈ rows, validFieldName row.1 = true)
    (placed : patch = false ∧ kind = .array
      → rows.map Prod.fst = (List.range' index rows.length).map Decimal.text
        ∧ index + rows.length ≤ fieldCount)
    (sorted : ¬(patch = false ∧ kind = .array)
      → (rows.map Prod.fst).Pairwise (· < ·) ∧ ∀ row ∈ rows, previous = [] ∨ previous < row.1)
    (fits : encodedBytes + listBytes rows ≤ maximumBytes) (small : listBytes rows < 4294967296)
    : eventFields kind patch maximumBytes fieldCount rows.length index previous encodedBytes none
        fields
        ((rows.flatMap fun row => [MessagePack.text row.1, MessagePack.text row.2]).flatten ++ rest)
      = .ok (Database.setAll fields rows, encodedBytes + listBytes rows, rest) := by
  induction rows generalizing index encodedBytes previous fields with
  | nil => rfl
  | cons row rows ih =>
      obtain ⟨name, value⟩ := row
      have bytes : listBytes ((name, value) :: rows)
          = name.length + value.length + listBytes rows := rfl
      have isSome : name ≠ [] := some (name, value) List.mem_cons_self
      have readName := @rawBytes_text
        (MessagePack.text value ++ ((rows.flatMap fun row =>
          [MessagePack.text row.1, MessagePack.text row.2]).flatten ++ rest)) name (by omega)
      have readValue := @rawBytes_text
        ((rows.flatMap fun row =>
          [MessagePack.text row.1, MessagePack.text row.2]).flatten ++ rest) value (by omega)
      have inOrder : ¬(if patch = false ∧ kind = .array then
          arrayFieldIndex name fieldCount ≠ Option.some index
        else previous ≠ [] ∧ name ≤ previous) := by
        split
        next isArray =>
          obtain ⟨names, inside⟩ := placed isArray
          rw [List.map_cons, List.length_cons, List.range'_succ, List.map_cons,
            List.cons_eq_cons] at names
          rw [List.length_cons] at inside
          simp only at names
          rw [names.1, arrayFieldIndex_text (by omega)]
          exact not_not.mpr rfl
        rename_i notArray
        rintro ⟨isPrevious, below⟩
        rcases (sorted notArray).2 (name, value) List.mem_cons_self with none | less
        · exact isPrevious none
        · exact below less
      have fine : fieldFailure kind patch maximumBytes encodedBytes none name value = none := by
        have room : ¬(maximumBytes < encodedBytes ∨ maximumBytes - encodedBytes < name.length
            ∨ maximumBytes - encodedBytes - name.length < value.length) := by omega
        by_cases isValue : patch = false ∧ kind = .value
        · have isName := single isValue (name, value) List.mem_cons_self
          simp only at isName
          simp only [fieldFailure, if_pos isValue, if_neg (not_not.mpr isName), if_neg room]
        · have isValid := named isValue (name, value) List.mem_cons_self
          simp only at isValid
          simp only [fieldFailure, if_neg isValue, isValid]
          rw [if_neg (by nofun), if_neg room]
      have later := @ih (index + 1) (encodedBytes + (name.length + value.length)) name
        (fields.set name value)
        (fun other listed => some other (List.mem_cons_of_mem _ listed))
        (fun isValue other listed => single isValue other (List.mem_cons_of_mem _ listed))
        (fun isValue other listed => named isValue other (List.mem_cons_of_mem _ listed))
        ?_ ?_ (by omega) (by omega)
      · rw [List.flatMap_cons, List.flatten_append, List.flatten_cons, List.flatten_cons,
          List.flatten_nil, List.append_nil, List.append_assoc, List.append_assoc,
          List.length_cons, eventFields, readName]
        simp only [readValue]
        rw [if_neg isSome, if_neg inOrder, fine, later, bytes, Nat.add_assoc]
        rfl
      · intro isArray
        obtain ⟨names, inside⟩ := placed isArray
        rw [List.map_cons, List.length_cons, List.range'_succ, List.map_cons,
          List.cons_eq_cons] at names
        rw [List.length_cons] at inside
        exact ⟨names.2, by omega⟩
      · intro notArray
        have ordered := (sorted notArray).1
        rw [List.map_cons, List.pairwise_cons] at ordered
        exact ⟨ordered.2, fun other listed => .inr (ordered.1 other.1 (List.mem_map_of_mem listed))⟩

theorem matchesMember_member (path : Path) : path.matchesMember path.member = true := by
  have member : path.member = path.part ++ 58 :: path.id := by simp [Path.member]
  rw [Path.matchesMember, member]
  simp
  omega

theorem length_member_le (path : Path) : path.member.length ≤ 193 := by
  have valid := path.valid
  simp only [validPathSegment, Bool.and_eq_true, decide_eq_true_eq] at valid
  simp only [Path.member, List.length_append, List.length_singleton]
  omega

variable {path : Path} {maximumBytes : Nat}

/-- An event names its protocol, its operation and its member. -/
theorem decodeEvent_operation {operation : Text} {items : List Text}
    {event : CatalogEvent}
    (named : items ≠ []) (few : items.length < 100) (short : operation.length < 100)
    (small
      : (MessagePack.array
          (MessagePack.text (ascii "v1") :: MessagePack.text operation
            :: MessagePack.text path.member :: items)).length
        ≤ maximumEventPayload maximumBytes)
    (decodes
      : (if operation = ascii "replace" then
          decodeReplace items.flatten path (items.length + 3) maximumBytes
        else if operation = ascii "patch" then
          decodePatch items.flatten path (items.length + 3) maximumBytes
        else if operation = ascii "delete" then
          decodeDelete items.flatten path (items.length + 3)
        else
          eventFailure .protocol (ascii "operation"))
        = .ok (event, []))
    : decodeEvent
        (MessagePack.array
          (MessagePack.text (ascii "v1") :: MessagePack.text operation
            :: MessagePack.text path.member :: items))
        path maximumBytes
      = .ok event := by
  have member := length_member_le path
  have several : items.length ≠ 0 := fun none => named (List.length_eq_zero_iff.mp none)
  have count := @arrayLength_header
    ((MessagePack.text (ascii "v1") :: MessagePack.text operation
      :: MessagePack.text path.member :: items).flatten) (items.length + 3) (by omega)
  rw [decodeEvent, if_neg (Nat.not_lt.mpr small), MessagePack.array,
    show (MessagePack.text (ascii "v1") :: MessagePack.text operation
      :: MessagePack.text path.member :: items).length = items.length + 3 from rfl, count]
  simp only [List.flatten_cons]
  rw [if_neg (by omega), rawBytes_text (by decide)]
  simp only
  rw [if_neg (not_not.mpr rfl), rawBytes_text (by omega)]
  simp only
  rw [rawBytes_text (by omega)]
  simp only
  rw [matchesMember_member, if_neg (by rintro ⟨⟩), decodes]
  exact if_neg (not_not.mpr rfl)

def Event.decoded (path : Path) : Event → CatalogEvent
  | .replace _ revision kind encodedBytes fields => {
      kind := .replace
      path
      revision := Decimal.value revision
      valueKind := some kind
      encodedBytes := Decimal.value encodedBytes
      fields := Database.setAll ∅ fields }
  | .patch _ baseRevision revision kind encodedBytes sets => {
      kind := .patch
      path
      revision := Decimal.value revision
      baseRevision := Decimal.value baseRevision
      valueKind := some kind
      encodedBytes := Decimal.value encodedBytes
      fields := Database.setAll ∅ sets }
  | .delete _ revision => { kind := .delete, path, revision := Decimal.value revision }

def Event.Readable : Event → Prop
  | .replace _ _ _ _ fields => ∀ field ∈ fields, validString field.1 = true
  | .patch _ _ _ _ _ sets => ∀ field ∈ sets, validString field.1 = true
  | .delete _ _ => True

theorem validFieldName_of {name : Text} (user : userField name = true)
    (readable : validString name = true)
    : validFieldName name = true := by
  rw [userField] at user
  rw [validFieldName, readable]
  simpa using user

variable {revision : Nat}

theorem length_revision_le (small : revision ≤ lastRevision)
    : (Decimal.text revision).length ≤ 16 :=
  (Decimal.length_text_le_iff (by decide)).mpr (small.trans_lt (by decide))

theorem decodeEventRevision_text {field : Text} (positive : 1 ≤ revision)
    (small : revision ≤ lastRevision)
    : decodeEventRevision (MessagePack.text (Decimal.text revision) ++ rest) field
      = .ok (revision, rest) := by
  have length := length_revision_le small
  rw [decodeEventRevision, rawBytes_text (by omega)]
  simp only [@parseRevision_text revision false small (by omega)]

theorem decodeEvent_delete (positive : 1 ≤ revision) (small : revision ≤ lastRevision)
    : decodeEvent (Event.delete path.member (Decimal.text revision)).pack path maximumBytes
      = .ok { kind := .delete, path, revision } := by
  have number := length_revision_le small
  have member := length_member_le path
  refine decodeEvent_operation (by simp) (by simp) (by decide) ?_ ?_
  · have protocol := MessagePack.length_text_le (ascii "v1")
    have operation := MessagePack.length_text_le (ascii "delete")
    have isMember := MessagePack.length_text_le path.member
    have isRevision := MessagePack.length_text_le (Decimal.text revision)
    rw [show (ascii "v1").length = 2 from rfl] at protocol
    rw [show (ascii "delete").length = 6 from rfl] at operation
    refine (MessagePack.length_array_le _).trans ?_
    simp only [List.length_append, List.flatten_cons, List.flatten_nil, List.length_nil,
      maximumEventPayload]
    omega
  · rw [if_neg (by decide), if_neg (by decide), if_pos rfl, List.flatten_cons, List.flatten_nil,
      decodeDelete, if_neg (by simp), decodeEventRevision_text positive small]

variable {fields : List (Text × Text)}

/-- Packed fields are no longer than a message may be, with room for the rest. -/
theorem length_packFields_le (users : ∀ field ∈ fields, userField field.1 = true)
    (few : fields.length ≤ maximumFields) (fits : listBytes fields ≤ maximumBytes)
    : (packFields fields).length ≤ maximumBytes + min maximumBytes maximumFields * 10 + 5 := by
  have content : ((fields.flatMap fun field =>
        [MessagePack.text field.1, MessagePack.text field.2]).flatten).length
      ≤ listBytes fields + fields.length * 10 := by
    clear users few fits
    induction fields with
    | nil => simp
    | cons field rest ih =>
        have first := MessagePack.length_text_le field.1
        have second := MessagePack.length_text_le field.2
        have bytes : listBytes (field :: rest)
            = field.1.length + field.2.length + listBytes rest := rfl
        simp only [List.flatMap_cons, List.flatten_append, List.flatten_cons, List.flatten_nil,
          List.length_append, List.length_nil, List.length_cons]
        omega
  have named : fields.length ≤ listBytes fields := by
    clear few fits content
    induction fields with
    | nil => simp
    | cons field rest ih =>
        have user := users field List.mem_cons_self
        have length : 1 ≤ field.1.length := by
          rw [userField, Bool.and_eq_true] at user
          exact List.length_pos_iff.mpr (by simpa using user.1)
        have later := ih fun other listed => users other (List.mem_cons_of_mem _ listed)
        have bytes : listBytes (field :: rest)
            = field.1.length + field.2.length + listBytes rest := rfl
        rw [List.length_cons]
        omega
  have count : fields.length ≤ min maximumBytes maximumFields :=
    Nat.le_min.mpr ⟨named.trans fits, few⟩
  refine (MessagePack.length_array_le _).trans ?_
  omega

theorem decodeEventHeader_text {kind : Kind} {patch : Bool} {revision maximumBytes encodedBytes : Nat}
    (several : patch = true → kind ≠ .value) (fits : encodedBytes ≤ maximumBytes)
    (small : encodedBytes ≤ maximumEncodedBytes)
    : decodeEventHeader
        (MessagePack.text kind.text ++ (MessagePack.text (Decimal.text encodedBytes) ++ rest))
        patch revision maximumBytes
      = .ok (kind, encodedBytes, rest) := by
  have short : kind.text.length < 4294967296 := by
    cases kind <;> decide
  have number : (Decimal.text encodedBytes).length ≤ 7 :=
    (Decimal.length_text_le_iff (by decide)).mpr (small.trans_lt (by decide))
  have bounded : encodedBytes ≤ 2 ^ 31 - 1 := small.trans (by decide)
  rw [decodeEventHeader, rawBytes_text short]
  simp only [Option.bind_some, Kind.parse_text, Option.map_some]
  rw [if_neg fun both => several both.1 both.2, rawBytes_text (by omega)]
  simp only [parseInteger_text fits bounded]

/-- The fields of an event are decoded whole. -/
theorem decodeEventFields_ok {kind : Kind} {patch : Bool} {maximumBytes : Nat}
    {fields : List (Text × Text)} (users : ∀ field ∈ fields, userField field.1 = true)
    (readable : ∀ field ∈ fields, validString field.1 = true)
    (whole : patch = false → kind.Orders (fields.map Prod.fst))
    (sets : patch = true → fields ≠ [] ∧ (fields.map Prod.fst).Pairwise (· < ·))
    (few : fields.length ≤ maximumFields) (fits : listBytes fields ≤ maximumBytes)
    (small : listBytes fields ≤ maximumEncodedBytes)
    : decodeEventFields (packFields fields) kind patch maximumBytes
      = .ok (Database.setAll ∅ fields, listBytes fields, []) := by
  have pairs : (fields.flatMap fun field =>
      [MessagePack.text field.1, MessagePack.text field.2]).length = fields.length * 2 := by
    simp [List.length_flatMap]
  have bounded : maximumFields * 2 < 4294967296 := by
    decide
  have limited : maximumEncodedBytes < 4294967296 := by
    decide
  have single (isValue : patch = false ∧ kind = .value)
      : fields.map Prod.fst = [ascii "value"] := by
    have orders := whole isValue.1
    rwa [isValue.2] at orders
  have one (isValue : patch = false ∧ kind = .value) : fields.length = 1 := by
    have length := congrArg List.length (single isValue)
    simpa using length
  have content := @eventFields_ok [] kind patch maximumBytes fields.length 0 0 fields [] ∅
    (fun field listed => by
      have user := users field listed
      rw [userField, Bool.and_eq_true] at user
      simpa using user.1)
    (fun isValue field listed => by
      have member := @List.mem_map_of_mem _ _ _ _ Prod.fst listed
      rw [single isValue, List.mem_singleton] at member
      exact member)
    (fun _ field listed => validFieldName_of (users field listed) (readable field listed))
    (fun isArray => by
      have orders := whole isArray.1
      rw [isArray.2] at orders
      have names : fields.map Prod.fst
          = (List.range (fields.map Prod.fst).length).map Decimal.text := orders
      rw [List.length_map, List.range_eq_range'] at names
      exact ⟨names, by omega⟩)
    (fun notArray => by
      refine ⟨?_, fun _ _ => .inl rfl⟩
      cases isPatch : patch with
      | true => exact (sets isPatch).2
      | false =>
          have orders := whole isPatch
          cases isKind : kind with
          | value =>
              rw [single ⟨isPatch, isKind⟩]
              exact List.pairwise_singleton _ _
          | array => exact absurd ⟨isPatch, isKind⟩ notArray
          | map =>
              rw [isKind] at orders
              exact orders)
    (by omega) (by omega)
  rw [List.append_nil, Nat.zero_add] at content
  rw [decodeEventFields, packFields, MessagePack.array, pairs, arrayLength_header (by omega)]
  simp only
  rw [if_neg (by omega), show fields.length * 2 / 2 = fields.length by omega, if_neg, if_neg]
  · exact content
  · rintro ⟨isPatch, none⟩
    exact (sets isPatch).1 (List.length_eq_zero_iff.mp none)
  · rintro ⟨isWhole, isValue, several⟩
    exact several (one ⟨isWhole, isValue⟩)

theorem decodeEvent_replace {kind : Kind} (positive : 1 ≤ revision)
    (small : revision ≤ lastRevision) (lists : kind.Lists fields)
    (readable : ∀ field ∈ fields, validString field.1 = true)
    (fits : listBytes fields ≤ maximumBytes)
    : decodeEvent
        (Event.replace path.member (Decimal.text revision) kind
          (Decimal.text (listBytes fields)) fields).pack path maximumBytes
      = .ok {
          kind := .replace
          path
          revision
          valueKind := some kind
          encodedBytes := listBytes fields
          fields := Database.setAll ∅ fields } := by
  have number := length_revision_le small
  have member := length_member_le path
  have packed := length_packFields_le lists.users lists.few fits
  have size : (Decimal.text (listBytes fields)).length ≤ 7 :=
    (Decimal.length_text_le_iff (by decide)).mpr (lists.small.trans_lt (by decide))
  refine decodeEvent_operation (by simp) (by simp) (by decide) ?_ ?_
  · have protocol := MessagePack.length_text_le (ascii "v1")
    have operation := MessagePack.length_text_le (ascii "replace")
    have isMember := MessagePack.length_text_le path.member
    have isRevision := MessagePack.length_text_le (Decimal.text revision)
    have isKind := MessagePack.length_text_le kind.text
    have isSize := MessagePack.length_text_le (Decimal.text (listBytes fields))
    have short : kind.text.length ≤ 5 := by
      cases kind <;> decide
    rw [show (ascii "v1").length = 2 from rfl] at protocol
    rw [show (ascii "replace").length = 7 from rfl] at operation
    refine (MessagePack.length_array_le _).trans ?_
    simp only [List.length_append, List.flatten_cons, List.flatten_nil, List.length_nil,
      maximumEventPayload]
    omega
  · have header := @decodeEventHeader_text (packFields fields) kind false revision maximumBytes
      (listBytes fields) (fun isPatch => by cases isPatch) fits lists.small
    have content := @decodeEventFields_ok kind false maximumBytes fields lists.users readable
      (fun _ => lists.orders) (fun isPatch => by cases isPatch) lists.few fits lists.small
    rw [if_pos rfl]
    simp only [List.flatten_cons, List.flatten_nil, List.append_nil]
    rw [decodeReplace, if_neg (by simp), decodeEventRevision_text positive small]
    simp only [header, content]
    rw [if_neg (not_not.mpr rfl)]

theorem decodeEvent_patch {path : Path} {baseRevision revision maximumBytes encodedBytes : Nat}
    {record : Record} {sets : List (Text × Text)} (base : 1 ≤ baseRevision)
    (later : baseRevision < revision) (small : revision ≤ lastRevision)
    (takes : record.Takes sets) (readable : ∀ set ∈ sets, validString set.1 = true)
    (contained : listBytes sets ≤ encodedBytes) (limited : encodedBytes ≤ maximumEncodedBytes)
    (fits : encodedBytes ≤ maximumBytes)
    : decodeEvent
        (Event.patch path.member (Decimal.text baseRevision) (Decimal.text revision) record.kind
          (Decimal.text encodedBytes) sets).pack path maximumBytes
      = .ok {
          kind := .patch
          path
          revision
          baseRevision
          valueKind := some record.kind
          encodedBytes
          fields := Database.setAll ∅ sets } := by
  have baseNumber := length_revision_le (later.le.trans small)
  have number := length_revision_le small
  have member := length_member_le path
  have packed := length_packFields_le takes.users takes.listed (contained.trans fits)
  have size : (Decimal.text encodedBytes).length ≤ 7 :=
    (Decimal.length_text_le_iff (by decide)).mpr (limited.trans_lt (by decide))
  refine decodeEvent_operation (by simp) (by simp) (by decide) ?_ ?_
  · have protocol := MessagePack.length_text_le (ascii "v1")
    have operation := MessagePack.length_text_le (ascii "patch")
    have isMember := MessagePack.length_text_le path.member
    have isBase := MessagePack.length_text_le (Decimal.text baseRevision)
    have isRevision := MessagePack.length_text_le (Decimal.text revision)
    have isKind := MessagePack.length_text_le record.kind.text
    have isSize := MessagePack.length_text_le (Decimal.text encodedBytes)
    have short : record.kind.text.length ≤ 5 := by
      cases record.kind <;> decide
    rw [show (ascii "v1").length = 2 from rfl] at protocol
    rw [show (ascii "patch").length = 5 from rfl] at operation
    refine (MessagePack.length_array_le _).trans ?_
    simp only [List.length_append, List.flatten_cons, List.flatten_nil, List.length_nil,
      maximumEventPayload]
    omega
  · have header := @decodeEventHeader_text (packFields sets) record.kind true revision maximumBytes
      encodedBytes (fun _ => takes.several) fits limited
    have content := @decodeEventFields_ok record.kind true maximumBytes sets takes.users readable
      (fun isWhole => by cases isWhole) (fun _ => ⟨takes.some, takes.orders⟩) takes.listed
      (contained.trans fits) (contained.trans limited)
    rw [if_neg (by decide), if_pos rfl]
    simp only [List.flatten_cons, List.flatten_nil, List.append_nil]
    rw [decodePatch, if_neg (by simp), decodeEventRevision_text base (later.le.trans small)]
    simp only
    rw [decodeEventRevision_text (by omega) small]
    simp only [header, content]
    rw [if_neg (by omega)]

end Decode

end Sdk.Catalog
