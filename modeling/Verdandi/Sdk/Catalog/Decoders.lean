import Verdandi.Sdk.Catalog.Events
import Verdandi.Support.Cursor

/-! The decoders of events in the three client libraries, as each of them moves through a payload. -/

namespace Sdk.Catalog

open Support
open Support.Redis (Text)

def bigEndian (bytes : Text) : Nat :=
  bytes.foldl (fun number byte => number * 256 + byte.toNat) 0

/-- The fields in the order of their names, as a loop over an ordered map visits them. -/
def sortedFields (fields : Assoc Text Text) : List (Text × Text) :=
  (sortedNames fields).map fun name => (name, (fields.get? name).getD [])

def corruptAt (field : Text) : Failure := { code := .corrupt, field }

-- Go

namespace Go

def code : Reader Unit UInt8 := do
  let decoder ← Reader.here
  if decoder.payload.length ≤ decoder.offset then
    Reader.fail ()
  else
    let value ← Reader.byteAt decoder.offset
    Reader.seek (decoder.offset + 1)
    pure value

def take (length : Int) : Reader Unit Text := do
  let decoder ← Reader.here
  let remaining : Int := decoder.payload.length - decoder.offset
  if length < 0 ∨ remaining < length then
    Reader.fail ()
  else
    let value ← Reader.slice decoder.offset (decoder.offset + length.toNat)
    Reader.seek (decoder.offset + length.toNat)
    pure value

def arrayLength : Reader Unit Nat := do
  let code ← code
  if 0x90 ≤ code ∧ code ≤ 0x9f then
    pure (code &&& 0x0f).toNat
  else if code = 0xdc then
    return bigEndian (← take 2)
  else if code = 0xdd then
    return bigEndian (← take 4)
  else
    Reader.fail ()

def rawBytes : Reader Unit Text := do
  let code ← code
  if 0xa0 ≤ code ∧ code ≤ 0xbf then
    take (code &&& 0x1f).toNat
  else if code = 0xc4 ∨ code = 0xd9 then
    let value ← take 1
    take (bigEndian value)
  else if code = 0xc5 ∨ code = 0xda then
    let value ← take 2
    take (bigEndian value)
  else if code = 0xc6 ∨ code = 0xdb then
    let value ← take 4
    if 2 ^ 63 - 1 < bigEndian value then
      Reader.fail ()
    else
      take (bigEndian value)
  else
    Reader.fail ()

def text : Reader Unit Text := rawBytes

def done : Reader Failure Bool := do
  let decoder ← Reader.here
  pure (decoder.offset == decoder.payload.length)

def decodeEventRevision (field : Text) : Reader Failure Nat := do
  let text ← text.orFail (corruptAt field)
  match parseRevision text false with
  | .error _ => Reader.fail (corruptAt field)
  | .ok revision => pure revision

/-- The loop over the fields of an event. A failed name does not keep the value from being read. -/
def eventFields (kind : Kind) (patch : Bool) (maximumBytes fieldCount : Nat)
    : Nat → Nat → Text → Nat → Option Failure → Assoc Text Text
      → Reader Failure (Assoc Text Text × Nat)
  | 0, _, _, encodedBytes, failure, fields =>
      match failure with
      | some failure => Reader.fail failure
      | none => pure (fields, encodedBytes)
  | left + 1, expectedIndex, previous, encodedBytes, failure, fields => do
      let name ← text.attempt
      let value ← rawBytes.attempt
      match name, value with
      | .ok name, .ok value =>
          if name = [] then
            Reader.fail (corruptAt (ascii "fields"))
          else if (if patch = false ∧ kind = .array then
                arrayFieldIndex name fieldCount ≠ some expectedIndex
              else previous ≠ [] ∧ name ≤ previous) then
            Reader.fail (corruptAt name)
          else
            eventFields kind patch maximumBytes fieldCount left (expectedIndex + 1) name
              (encodedBytes + (name.length + value.length))
              (fieldFailure kind patch maximumBytes encodedBytes failure name value)
              (fields.set name value)
      | _, _ => Reader.fail (corruptAt (ascii "fields"))

def decodeEventFields (kind : Kind) (patch : Bool) (maximumBytes : Nat)
    : Reader Failure (Assoc Text Text × Nat) := do
  let count ← arrayLength.orFail (corruptAt (ascii "fields"))
  if count % 2 ≠ 0 ∨ maximumFields < count / 2 then
    Reader.fail (corruptAt (ascii "fields"))
  else
    let failure : Option Failure :=
      if patch = false ∧ kind = .value ∧ count / 2 ≠ 1 then
        some { code := .contract, field := ascii "value" }
      else if patch = true ∧ count / 2 = 0 then
        some { code := .invalid, field := ascii "patch" }
      else
        none
    eventFields kind patch maximumBytes (count / 2) (count / 2) 0 [] 0 failure ∅

/-- The kind and the size of a value. A kind that cannot be read is an empty one. -/
def decodeEventHeader (patch : Bool) (revision maximumBytes : Nat)
    : Reader Failure (Kind × Nat) := do
  let kindText ← text.attempt
  match Kind.parse (kindText.toOption.getD []) with
  | none => Reader.fail { code := .corrupt, field := ascii "@kind", revision }
  | some kind =>
      if patch = true ∧ kind = .value then
        Reader.fail { code := .corrupt, field := ascii "@kind", revision }
      else do
        let bytesText ← text.orFail { code := .corrupt, field := ascii "@encoded_bytes", revision }
        let encodedBytes ← Reader.lift
          (parseInteger bytesText (ascii "@encoded_bytes") maximumBytes)
        pure (kind, encodedBytes)

def decodeReplace (path : Path) (count maximumBytes : Nat) : Reader Failure CatalogEvent := do
  if count ≠ 7 then
    Reader.fail (corruptAt (ascii "notification"))
  else
    let revision ← decodeEventRevision (ascii "@revision")
    let (kind, encodedBytes) ← decodeEventHeader false revision maximumBytes
    let decoded ← (decodeEventFields kind false maximumBytes).attempt
    match decoded with
    | .error failure =>
        if failure.code = .corrupt then
          Reader.fail failure
        else
          Reader.fail { code := .corrupt, field := ascii "@encoded_bytes", revision }
    | .ok (fields, actualBytes) =>
        if actualBytes ≠ encodedBytes then
          Reader.fail { code := .corrupt, field := ascii "@encoded_bytes", revision }
        else
          pure { kind := .replace, path, revision, valueKind := some kind, encodedBytes, fields }

def decodePatch (path : Path) (count maximumBytes : Nat) : Reader Failure CatalogEvent := do
  if count ≠ 8 then
    Reader.fail (corruptAt (ascii "notification"))
  else
    let baseRevision ← decodeEventRevision (ascii "@base_revision")
    let revision ← (decodeEventRevision (ascii "@revision")).orFail (corruptAt (ascii "@revision"))
    if revision ≤ baseRevision then
      Reader.fail { code := .corrupt, field := ascii "@revision", revision }
    else
      let (kind, encodedBytes) ← decodeEventHeader true revision maximumBytes
      let (fields, _) ← decodeEventFields kind true maximumBytes
      pure { kind := .patch, path, revision, baseRevision, valueKind := some kind, encodedBytes,
             fields }

def decodeDelete (path : Path) (count : Nat) : Reader Failure CatalogEvent := do
  if count ≠ 4 then
    Reader.fail (corruptAt (ascii "notification"))
  else
    let revision ← decodeEventRevision (ascii "@revision")
    pure { kind := .delete, path, revision }

def decodeOperation (operation : Text) (path : Path) (count maximumBytes : Nat)
    : Reader Failure CatalogEvent :=
  if operation = ascii "replace" then
    decodeReplace path count maximumBytes
  else if operation = ascii "patch" then
    decodePatch path count maximumBytes
  else if operation = ascii "delete" then
    decodeDelete path count
  else
    Reader.fail { code := .protocol, field := ascii "operation" }

def readEvent (expectedPath : Path) (maximumBytes : Nat) : Reader Failure CatalogEvent := do
  let count ← arrayLength.orFail (corruptAt (ascii "notification"))
  if count < 4 then
    Reader.fail (corruptAt (ascii "notification"))
  else
    let protocol ← text.orFail { code := .protocol, field := ascii "protocol" }
    if protocol ≠ ascii "v1" then
      Reader.fail { code := .protocol, field := ascii "protocol" }
    else
      let operation ← text.orFail (corruptAt (ascii "operation"))
      let member ← text.orFail { code := .target, field := ascii "path" }
      if expectedPath.matchesMember member = false then
        Reader.fail { code := .target, field := ascii "path" }
      else
        let event ← decodeOperation operation expectedPath count maximumBytes
        if ← done then
          pure event
        else
          Reader.fail (corruptAt (ascii "notification"))

def decodeEvent (payload : Text) (expectedPath : Path) (maximumBytes : Nat)
    : Except Failure CatalogEvent × Cursor :=
  if maximumEventPayload maximumBytes < payload.length then
    (.error { code := .capacity, field := ascii "notification" }, { payload })
  else
    (readEvent expectedPath maximumBytes).run payload

end Go

-- Rust

namespace Rust

/-- A text as an unsigned number of 64 bits; a sign in front of the digits is admitted. -/
def parseUnsigned (value : Text) : Option Nat :=
  let digits := if value.head? = some 43 then value.tail else value
  if digits = [] ∨ digits.all Decimal.isDigit = false ∨ 2 ^ 64 ≤ Decimal.value digits then
    none
  else
    some (Decimal.value digits)

def padded (value : Text) : Bool :=
  value != ascii "0" && (value.head? == some 48 || !value.all Decimal.isDigit)

def canonicalU64 (value : Text) (allowZero : Bool) (field : Text) : Except Failure Nat :=
  match parseUnsigned value with
  | none => .error (corruptAt field)
  | some parsed =>
      if lastRevision < parsed ∨ (allowZero = false ∧ parsed = 0) ∨ padded value = true then
        .error (corruptAt field)
      else
        .ok parsed

def canonicalUsize (value : Text) (maximum : Nat) (field : Text) : Except Failure Nat :=
  match parseUnsigned value with
  | none => .error (corruptAt field)
  | some parsed =>
      if maximum < parsed ∨ padded value = true then
        .error (corruptAt field)
      else
        .ok parsed

def matchesMember (path : Path) (member : Text) : Bool :=
  decide (member.length = path.part.length + path.id.length + 1) && path.part.isPrefixOf member
    && decide (member[path.part.length]? = some 58)
    && path.id.isSuffixOf member

def indexDigits (count : Nat) : Nat → Text → Option Nat
  | value, [] => some value
  | value, byte :: rest =>
      if byte < 48 ∨ 9 < byte - 48 then
        none
      else if 2 ^ 64 ≤ value * 10 + (byte - 48).toNat ∨ count ≤ value * 10 + (byte - 48).toNat then
        none
      else
        indexDigits count (value * 10 + (byte - 48).toNat) rest

def arrayFieldIndex (name : Text) (count : Nat) : Option Nat :=
  if count = 0 ∨ name = [] ∨ (name.head? = some 48 ∧ name ≠ ascii "0") then
    none
  else
    indexDigits count 0 name

def validateFieldName (name : Text) : Except Failure Unit :=
  if name = [] ∨ name.head? = some 64 then
    .error { code := .invalid, field := name }
  else
    .ok ()

/-- The loop over the fields of a value or of a patch, with what counts against the maximum so far. -/
def validateFields (maximum : Nat) (field : Text) : Nat → List (Text × Text) → Except Failure Nat
  | bytes, [] => .ok bytes
  | bytes, (name, value) :: rest =>
      match validateFieldName name with
      | .error failure => .error failure
      | .ok () =>
          let bytes := bytes + name.length + value.length
          if 2 ^ 64 ≤ bytes ∨ maximum < bytes then
            .error { code := .capacity, field }
          else
            validateFields maximum field bytes rest

def validateValue (kind : Kind) (fields : Assoc Text Text) (maximum : Nat) : Except Failure Nat :=
  if maximumFields < fields.size then
    .error { code := .capacity, field := ascii "fields" }
  else if kind = .value ∧ (fields.size ≠ 1 ∨ fields.contains (ascii "value") = false) then
    .error { code := .contract, field := ascii "value" }
  else if kind = .array
      ∧ (sortedNames fields).any (fun name => (arrayFieldIndex name fields.size).isNone) then
    .error { code := .contract, field := ascii "array" }
  else
    validateFields maximum (ascii "value") 0 (sortedFields fields)

def validatePatch (fields : Assoc Text Text) (maximum : Nat) : Except Failure Unit :=
  if fields.size = 0 then
    .error { code := .invalid, field := ascii "patch" }
  else if maximumFields < fields.size then
    .error { code := .capacity, field := ascii "fields" }
  else
    (validateFields maximum (ascii "patch") 0 (sortedFields fields)).map fun _ => ()

def code : Reader Unit UInt8 := do
  let decoder ← Reader.here
  if decoder.payload.length ≤ decoder.offset then
    Reader.fail ()
  else
    let value ← Reader.byteAt decoder.offset
    Reader.seek (decoder.offset + 1)
    pure value

def take (length : Nat) : Reader Unit Text := do
  let decoder ← Reader.here
  if 2 ^ 64 ≤ length ∨ 2 ^ 64 ≤ decoder.offset + length then
    Reader.fail ()
  else if decoder.payload.length < decoder.offset + length then
    Reader.fail ()
  else
    let value ← Reader.slice decoder.offset (decoder.offset + length)
    Reader.seek (decoder.offset + length)
    pure value

def arrayLength : Reader Unit Nat := do
  let code ← code
  if 0x90 ≤ code ∧ code ≤ 0x9f then
    pure (code &&& 0x0f).toNat
  else if code = 0xdc then
    return bigEndian (← take 2)
  else if code = 0xdd then
    return bigEndian (← take 4)
  else
    Reader.fail ()

def rawLength (code : UInt8) : Reader Unit Nat := do
  if 0xa0 ≤ code ∧ code ≤ 0xbf then
    pure (code &&& 0x1f).toNat
  else if code = 0xc4 ∨ code = 0xd9 then
    return bigEndian (← take 1)
  else if code = 0xc5 ∨ code = 0xda then
    return bigEndian (← take 2)
  else if code = 0xc6 ∨ code = 0xdb then
    return bigEndian (← take 4)
  else
    Reader.fail ()

def rawBytes : Reader Unit Text := do
  let length ← rawLength (← code)
  take length

def text (field : Text) : Reader Failure Text := do
  let value ← rawBytes.orFail (corruptAt field)
  if validString value = true then
    pure value
  else
    Reader.fail (corruptAt field)

def bytes (field : Text) : Reader Failure Text := rawBytes.orFail (corruptAt field)

def done : Reader Failure Bool := do
  let decoder ← Reader.here
  pure (decoder.offset == decoder.payload.length)

def decodeEventRevision (field : Text) : Reader Failure Nat := do
  let text ← text field
  Reader.lift (canonicalU64 text false field)

def decodeEventUsize (maximum : Nat) (field : Text) : Reader Failure Nat := do
  let text ← text field
  Reader.lift (canonicalUsize text maximum field)

/-- The loop over the fields of an event: so many are left, from an index, after a name. -/
def eventFields (arrayReplace : Bool) (fieldCount : Nat)
    : Nat → Nat → Option Text → Assoc Text Text → Reader Failure (Assoc Text Text)
  | 0, _, _, fields => pure fields
  | left + 1, index, previous, fields => do
      let name ← text (ascii "fields")
      let value ← bytes (ascii "fields")
      let invalidOrder :=
        if arrayReplace then
          decide (arrayFieldIndex name fieldCount ≠ some index)
        else
          previous.any fun previous => decide (name ≤ previous)
      if name = [] ∨ invalidOrder = true then
        Reader.fail (corruptAt (ascii "fields"))
      else if fields.contains name then
        Reader.fail (corruptAt (ascii "fields"))
      else
        eventFields arrayReplace fieldCount left (index + 1) (some name) (fields.set name value)

def decodeEventFields (arrayReplace : Bool) : Reader Failure (Assoc Text Text) := do
  let count ← arrayLength.orFail (corruptAt (ascii "fields"))
  if count % 2 = 0 ∧ count / 2 ≤ maximumFields then
    eventFields arrayReplace (count / 2) (count / 2) 0 none ∅
  else
    Reader.fail (corruptAt (ascii "fields"))

def decodeReplace (expected : Path) (maximum : Nat) : Reader Failure CatalogEvent := do
  let revision ← decodeEventRevision (ascii "@revision")
  let kindText ← text (ascii "@kind")
  match Kind.parse kindText with
  | none => Reader.fail (corruptAt (ascii "@kind"))
  | some kind => do
      let encodedBytes ← decodeEventUsize maximum (ascii "@encoded_bytes")
      let fields ← decodeEventFields (kind == .array)
      let actual ← Reader.lift (validateValue kind fields maximum)
      if actual ≠ encodedBytes then
        Reader.fail { code := .corrupt, field := ascii "@encoded_bytes", revision }
      else
        pure { kind := .replace, path := expected, revision, valueKind := some kind, encodedBytes,
               fields }

def decodePatch (expected : Path) (maximum : Nat) : Reader Failure CatalogEvent := do
  let baseRevision ← decodeEventRevision (ascii "@base_revision")
  let revision ← decodeEventRevision (ascii "@revision")
  if revision ≤ baseRevision then
    Reader.fail (corruptAt (ascii "@revision"))
  else
    let kindText ← text (ascii "@kind")
    match (Kind.parse kindText).filter (· != .value) with
    | none => Reader.fail (corruptAt (ascii "@kind"))
    | some kind => do
        let encodedBytes ← decodeEventUsize maximum (ascii "@encoded_bytes")
        let fields ← decodeEventFields false
        Reader.lift (validatePatch fields maximum)
        pure { kind := .patch, path := expected, revision, baseRevision, valueKind := some kind,
               encodedBytes, fields }

def decodeDelete (expected : Path) : Reader Failure CatalogEvent := do
  let revision ← decodeEventRevision (ascii "@revision")
  pure { kind := .delete, path := expected, revision }

def decodeOperation (operation : Text) (expected : Path) (count maximum : Nat)
    : Reader Failure CatalogEvent :=
  if operation = ascii "replace" ∧ count = 7 then
    decodeReplace expected maximum
  else if operation = ascii "patch" ∧ count = 8 then
    decodePatch expected maximum
  else if operation = ascii "delete" ∧ count = 4 then
    decodeDelete expected
  else if operation = ascii "replace" ∨ operation = ascii "patch" ∨ operation = ascii "delete" then
    Reader.fail (corruptAt (ascii "notification"))
  else
    Reader.fail { code := .protocol, field := ascii "operation" }

def readEvent (expected : Path) (maximum : Nat) : Reader Failure CatalogEvent := do
  let count ← arrayLength.orFail (corruptAt (ascii "notification"))
  if count < 4 then
    Reader.fail (corruptAt (ascii "notification"))
  else
    let protocol ← text (ascii "protocol")
    if protocol ≠ ascii "v1" then
      Reader.fail { code := .protocol, field := ascii "protocol" }
    else
      let operation ← text (ascii "operation")
      let member ← text (ascii "path")
      if matchesMember expected member = false then
        Reader.fail { code := .target, field := ascii "path" }
      else
        let event ← decodeOperation operation expected count maximum
        if ← done then
          pure event
        else
          Reader.fail (corruptAt (ascii "notification"))

def decodeEvent (payload : Text) (expected : Path) (maximum : Nat)
    : Except Failure CatalogEvent × Cursor :=
  if maximumEventPayload maximum < payload.length then
    (.error { code := .capacity, field := ascii "notification" }, { payload })
  else
    (readEvent expected maximum).run payload

end Rust

-- C++

namespace Cpp

def sizeBelow (size offset : Nat) : Nat :=
  if offset ≤ size then size - offset else size + 2 ^ 64 - offset

/-- The digits at the start of a text as an unsigned number of 64 bits, and what follows them. -/
def fromChars (text : Text) : Option (Nat × Text) :=
  let digits := text.takeWhile Decimal.isDigit
  if digits = [] ∨ 2 ^ 64 ≤ Decimal.value digits then
    none
  else
    some (Decimal.value digits, text.dropWhile Decimal.isDigit)

def parseUnsigned (value field : Text) (allowZero : Bool) : Except Failure Nat :=
  if value = [] ∨ 16 < value.length ∨ (1 < value.length ∧ value.head? = some 48) then
    .error (corruptAt field)
  else
    match fromChars value with
    | none => .error (corruptAt field)
    | some (output, rest) =>
        if rest ≠ [] ∨ lastRevision < output ∨ (allowZero = false ∧ output = 0) then
          .error (corruptAt field)
        else
          .ok output

def continueCodepoint : Nat → Nat → Text → Option (Nat × Text)
  | 0, codepoint, rest => some (codepoint, rest)
  | _ + 1, _, [] => none
  | left + 1, codepoint, next :: rest =>
      if next &&& 0xc0 ≠ 0x80 then
        none
      else
        continueCodepoint left (codepoint <<< 6 ||| (next &&& 0x3f).toNat) rest

/-- The width of a character and the bits of it in its first byte. -/
def characterStart (first : UInt8) : Option (Nat × Nat) :=
  if first ≤ 0x7f then some (1, first.toNat)
  else if 0xc2 ≤ first ∧ first ≤ 0xdf then some (2, (first &&& 0x1f).toNat)
  else if 0xe0 ≤ first ∧ first ≤ 0xef then some (3, (first &&& 0x0f).toNat)
  else if 0xf0 ≤ first ∧ first ≤ 0xf4 then some (4, (first &&& 0x07).toNat)
  else none

/-- The loop over the characters, with fuel for as many as there are bytes. -/
def validCharacters : Nat → Text → Bool
  | _, [] => true
  | 0, _ :: _ => false
  | fuel + 1, first :: rest =>
      match characterStart first with
      | none => false
      | some (width, start) =>
          if rest.length + 1 < width then
            false
          else
            match continueCodepoint (width - 1) start rest with
            | none => false
            | some (codepoint, rest) =>
                if (width = 3 ∧ codepoint < 0x800) ∨ (width = 4 ∧ codepoint < 0x10000)
                    ∨ (0xd800 ≤ codepoint ∧ codepoint ≤ 0xdfff) ∨ 0x10ffff < codepoint then
                  false
                else
                  validCharacters fuel rest

def validUtf8 (value : Text) : Bool := validCharacters value.length value

def arrayIndex (name : Text) (count : Nat) : Except Failure Nat :=
  if count = 0 ∨ name = [] ∨ (1 < name.length ∧ name.head? = some 48) then
    .error { code := .contract, field := ascii "array" }
  else
    match fromChars name with
    | none => .error { code := .contract, field := ascii "array" }
    | some (output, rest) =>
        if rest ≠ [] ∨ count ≤ output then
          .error { code := .contract, field := ascii "array" }
        else
          .ok output

def validateFields (fieldCount maximumBytes : Nat) (array : Bool) (capacityField : Text)
    : Nat → List (Text × Text) → Except Failure Nat
  | size, [] => .ok size
  | size, (name, field) :: rest =>
      if array = true ∧ (arrayIndex name fieldCount).toOption = none then
        .error { code := .contract, field := ascii "array" }
      else if name = [] ∨ name.head? = some 64 ∨ validUtf8 name = false then
        .error { code := .invalid, field := name }
      else if sizeBelow maximumBytes size < name.length
          ∨ sizeBelow (sizeBelow maximumBytes size) name.length < field.length then
        .error { code := .capacity, field := capacityField }
      else
        validateFields fieldCount maximumBytes array capacityField
          (size + (name.length + field.length)) rest

def validateCatalogValue (shape : Kind) (value : Assoc Text Text) (maximumBytes : Nat)
    : Except Failure Nat :=
  if maximumFields < value.size then
    .error { code := .capacity, field := ascii "fields" }
  else if shape = .value ∧ (value.size ≠ 1 ∨ value.contains (ascii "value") = false) then
    .error { code := .contract, field := ascii "value" }
  else
    validateFields value.size maximumBytes (shape == .array) (ascii "value") 0 (sortedFields value)

def validateCatalogPatch (value : Assoc Text Text) (maximumBytes : Nat) : Except Failure Unit :=
  if value.size = 0 then
    .error { code := .invalid, field := ascii "patch" }
  else if maximumFields < value.size then
    .error { code := .capacity, field := ascii "fields" }
  else
    (validateFields value.size maximumBytes false (ascii "patch") 0 (sortedFields value)).map
      fun _ => ()

def shifted (encoded : Text) : Nat :=
  encoded.foldl (fun output raw => output <<< 8 ||| raw.toNat) 0

def corruptNotification : Failure := corruptAt (ascii "notification")

def byte : Reader Failure UInt8 := do
  let cursor ← Reader.here
  if cursor.payload.length ≤ cursor.offset then
    Reader.fail corruptNotification
  else
    let value ← Reader.byteAt cursor.offset
    Reader.seek (cursor.offset + 1)
    pure value

def take (length : Nat) : Reader Failure Text := do
  let cursor ← Reader.here
  if sizeBelow cursor.payload.length cursor.offset < length then
    Reader.fail corruptNotification
  else
    let output ← Reader.slice cursor.offset (cursor.offset + length)
    Reader.seek (cursor.offset + length)
    pure output

def arraySize : Reader Failure Nat := do
  let marker ← byte
  if marker &&& 0xf0 = 0x90 then
    pure (marker &&& 0x0f).toNat
  else if marker = 0xdc then
    return shifted (← take 2)
  else if marker = 0xdd then
    return shifted (← take 4)
  else
    Reader.fail corruptNotification

def checkedLength (decoded : Nat) : Reader Failure Nat := do
  let source ← Reader.here
  if source.payload.length < decoded then
    Reader.fail { code := .capacity, field := ascii "notification" }
  else
    pure decoded

def wideLength (width : Nat) : Reader Failure Nat := do
  let encoded ← take width
  checkedLength (shifted encoded)

def binaryLength (marker : UInt8) : Reader Failure Nat :=
  if marker &&& 0xe0 = 0xa0 then
    pure (marker &&& 0x1f).toNat
  else if marker = 0xc4 ∨ marker = 0xd9 then
    wideLength 1
  else if marker = 0xc5 ∨ marker = 0xda then
    wideLength 2
  else if marker = 0xc6 ∨ marker = 0xdb then
    wideLength 4
  else
    Reader.fail corruptNotification

def binary : Reader Failure Text := do
  let length ← binaryLength (← byte)
  take length

def done : Reader Failure Bool := do
  let cursor ← Reader.here
  pure (cursor.offset == cursor.payload.length)

def eventRevision (field : Text) : Reader Failure Nat := do
  let encoded ← binary.orFail (corruptAt field)
  Reader.lift (parseUnsigned encoded field false)

def eventSize (maximum : Nat) : Reader Failure Nat := do
  let encoded ← binary.orFail (corruptAt (ascii "@encoded_bytes"))
  match fromChars encoded with
  | none => Reader.fail (corruptAt (ascii "@encoded_bytes"))
  | some (output, rest) =>
      if rest ≠ [] ∨ (1 < encoded.length ∧ encoded.head? = some 48) ∨ maximum < output then
        Reader.fail (corruptAt (ascii "@encoded_bytes"))
      else
        pure output

/-- A name is not the one of its index, or not after the name before it. -/
def misplaced (arrayReplace : Bool) (index : Nat) (previous name : Text) : Bool :=
  if arrayReplace then
    match fromChars name with
    | none => true
    | some (decoded, rest) =>
        decide (rest ≠ [] ∨ decoded ≠ index ∨ (1 < name.length ∧ name.head? = some 48))
  else
    decide (previous ≠ [] ∧ name ≤ previous)

/-- The loop over the fields of an event. A failed name does not keep the value from being read. -/
def fieldsFrom (arrayReplace : Bool)
    : Nat → Nat → Text → Assoc Text Text → Reader Failure (Assoc Text Text)
  | 0, _, _, output => pure output
  | left + 1, index, previous, output => do
      let name ← binary.attempt
      let value ← binary.attempt
      match name, value with
      | .ok name, .ok value =>
          if name = [] then
            Reader.fail (corruptAt (ascii "fields"))
          else if misplaced arrayReplace index previous name = true then
            Reader.fail (corruptAt (ascii "fields"))
          else
            fieldsFrom arrayReplace left (index + 1) name
              (if output.contains name then output else output.set name value)
      | _, _ => Reader.fail (corruptAt (ascii "fields"))

def eventFields (arrayReplace : Bool) : Reader Failure (Assoc Text Text) := do
  let elements ← arraySize.orFail (corruptAt (ascii "fields"))
  if elements % 2 ≠ 0 ∨ maximumFields < elements / 2 then
    Reader.fail (corruptAt (ascii "fields"))
  else
    fieldsFrom arrayReplace (elements / 2) 0 [] ∅

/-- A decoded event. Its shape is that of a single value unless another is read. -/
structure CatalogEvent where
  operation : EventKind
  target : Path
  revision : Nat := 0
  baseRevision : Nat := 0
  shape : Kind := .value
  encodedBytes : Nat := 0
  value : Assoc Text Text := ∅
  payloadBytes : Nat

def decodeReplace (target : Path) (payloadBytes count maximumBytes : Nat)
    : Reader Failure CatalogEvent := do
  if count ≠ 7 then
    Reader.fail corruptNotification
  else
    let revision ← (eventRevision (ascii "@revision")).attempt
    let shape ← binary.attempt
    let encoded ← (eventSize maximumBytes).attempt
    let parsedShape := shape.toOption.bind Kind.parse
    let value ← (eventFields (parsedShape == some .array)).attempt
    match revision, parsedShape, encoded, value with
    | .ok revision, some shape, .ok encodedBytes, .ok value =>
        match validateCatalogValue shape value maximumBytes with
        | .error _ => Reader.fail (corruptAt (ascii "@encoded_bytes"))
        | .ok actual =>
            if actual ≠ encodedBytes then
              Reader.fail (corruptAt (ascii "@encoded_bytes"))
            else
              pure { operation := .replace, target, revision, shape, encodedBytes, value,
                     payloadBytes }
    | _, _, _, _ => Reader.fail corruptNotification

def decodePatch (target : Path) (payloadBytes count maximumBytes : Nat)
    : Reader Failure CatalogEvent := do
  if count ≠ 8 then
    Reader.fail corruptNotification
  else
    let base ← (eventRevision (ascii "@base_revision")).attempt
    let revision ← (eventRevision (ascii "@revision")).attempt
    let shape ← binary.attempt
    let encoded ← (eventSize maximumBytes).attempt
    let value ← (eventFields false).attempt
    match base, revision, shape, encoded, value with
    | .ok baseRevision, .ok revision, .ok shape, .ok encodedBytes, .ok value =>
        if revision ≤ baseRevision ∨ (validateCatalogPatch value maximumBytes).toOption = none then
          Reader.fail corruptNotification
        else
          match Kind.parse shape with
          | none => Reader.fail corruptNotification
          | some shape =>
              if shape = .value then
                Reader.fail corruptNotification
              else
                pure { operation := .patch, target, revision, baseRevision, shape, encodedBytes,
                       value, payloadBytes }
    | _, _, _, _, _ => Reader.fail corruptNotification

def decodeErase (target : Path) (payloadBytes count : Nat) : Reader Failure CatalogEvent := do
  if count ≠ 4 then
    Reader.fail corruptNotification
  else
    let revision ← eventRevision (ascii "@revision")
    pure { operation := .delete, target, revision, payloadBytes }

def decodeOperation (operation : Text) (target : Path) (payloadBytes count maximumBytes : Nat)
    : Reader Failure CatalogEvent :=
  if operation = ascii "replace" then
    decodeReplace target payloadBytes count maximumBytes
  else if operation = ascii "patch" then
    decodePatch target payloadBytes count maximumBytes
  else if operation = ascii "delete" then
    decodeErase target payloadBytes count
  else
    Reader.fail { code := .protocol, field := ascii "operation" }

/-- What is done with a payload that is neither empty nor too long. The header is read as a whole
before it is looked at.
-/
def readEvent (expected : Path) (payloadBytes maximumBytes : Nat)
    : Reader Failure CatalogEvent := do
  let count ← arraySize.orFail corruptNotification
  if count < 4 then
    Reader.fail corruptNotification
  else
    let protocol ← binary.attempt
    let operation ← binary.attempt
    let member ← binary.attempt
    if protocol.toOption ≠ some (ascii "v1") then
      Reader.fail { code := .protocol, field := ascii "protocol" }
    else
      match operation, member with
      | .ok operation, .ok member =>
          if member ≠ expected.member then
            Reader.fail { code := .target, field := ascii "path" }
          else
            let output ← decodeOperation operation expected payloadBytes count maximumBytes
            if ← done then
              pure output
            else
              Reader.fail corruptNotification
      | _, _ => Reader.fail { code := .target, field := ascii "path" }

def decodeEvent (payload : Text) (expected : Path) (maximumBytes : Nat)
    : Except Failure CatalogEvent × Cursor :=
  let fieldAllowance := min maximumBytes maximumFields * 10
  if payload = [] ∨ maximumBytes + fieldAllowance + 1024 < payload.length then
    (.error { code := .capacity, field := ascii "notification" }, { payload })
  else
    (readEvent expected payload.length maximumBytes).run payload

end Cpp

end Sdk.Catalog
