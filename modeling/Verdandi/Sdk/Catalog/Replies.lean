import Verdandi.Sdk.Catalog.Reading
import Verdandi.Sdk.Catalog.Value

/-! How a client reads the answer to a read: against the state it has, into a complete new one. -/

namespace Sdk.Catalog

open Support
open Support.Redis (Text)

inductive Reply where
  | text (value : Text)
  | array (items : List Reply)
  | other

def redisString : Reply → Option Text
  | .text value => some value
  | _ => none

def Reply.pairs (pairs : List (Text × Reply)) : Reply :=
  .array (pairs.flatMap fun pair => [.text pair.1, pair.2])

def Reading.reply : Reading → Reply
  | .error status =>
      .pairs [(ascii "&result", .text (ascii "error")), (ascii "&status", .text status.text)]
  | .absent =>
      .pairs [(ascii "&result", .text (ascii "ok")), (ascii "&status", .text (ascii "absent")),
        (ascii "@revision", .text (ascii "0"))]
  | .deleted revision =>
      .pairs [(ascii "&result", .text (ascii "ok")), (ascii "&status", .text (ascii "deleted")),
        (ascii "@revision", .text revision)]
  | .present mode header fields =>
      .pairs [(ascii "&result", .text (ascii "ok")), (ascii "&status", .text (ascii "present")),
        (ascii "&mode", .text mode.text), (ascii "@revision", .text header.revision),
        (ascii "@replace_revision", .text header.replaceRevision),
        (ascii "@kind", .text header.kind.text),
        (ascii "@encoded_bytes", .text header.encodedBytes),
        (ascii "&fields", .pairs (fields.map fun field => (field.1, .text field.2)))]

def parseRevision (value : Text) (allowZero : Bool) : Except Failure Nat :=
  match uintDecimal value lastRevision allowZero with
  | some parsed => .ok parsed
  | none => .error { code := .corrupt, field := ascii "@revision" }

def parseInteger (value field : Text) (maximum : Nat) : Except Failure Nat :=
  match uintDecimal value (min maximum (2 ^ 31 - 1)) true with
  | some parsed => .ok parsed
  | none => .error { code := .corrupt, field }

def replyFields (fields : Assoc Text Reply) : List Reply → Except Failure (Assoc Text Reply)
  | [] => .ok fields
  | .text name :: value :: rest =>
      if fields.contains name then
        .error { code := .corrupt, field := ascii "read_reply" }
      else
        replyFields (fields.set name value) rest
  | _ => .error { code := .corrupt, field := ascii "read_reply" }

def readString (values : Assoc Text Reply) (name : Text) : Option Text :=
  (values.get? name).bind redisString

def scriptStatusCode (status : Text) : Code :=
  if status = ascii "invalid" then .invalid
  else if status = ascii "contract" then .contract
  else if status = ascii "capacity" then .capacity
  else if status = ascii "stale" then .stale
  else if status = ascii "transition" then .transition
  else if status = ascii "corrupt" then .corrupt
  else if status = ascii "unavailable" then .unavailable
  else .protocol

/-- The failure that an error reply stands for; `failure` has what was read of it. -/
def replyFailure (failure : Failure) : List (Text × Reply) → Failure
  | [] => failure
  | (name, value) :: rest =>
      if name = ascii "&result" ∨ name = ascii "&status" then
        replyFailure failure rest
      else
        match redisString value with
        | none => { code := .corrupt, field := name }
        | some text =>
            if name = ascii "&field" then
              replyFailure { failure with field := text } rest
            else if name = ascii "@revision" then
              match parseRevision text true with
              | .ok revision => replyFailure { failure with revision } rest
              | .error failure => failure
            else
              { code := .corrupt, field := ascii "read_reply" }

def decodeFields (fields : Assoc Text Text) : List Reply → Except Failure (Assoc Text Text)
  | [] => .ok fields
  | .text name :: .text field :: rest =>
      if validFieldName name = false then
        .error { code := .corrupt, field := ascii "fields" }
      else if fields.contains name then
        .error { code := .corrupt, field := name }
      else
        decodeFields (fields.set name field) rest
  | _ => .error { code := .corrupt, field := ascii "fields" }

def decodeReadFields (value : Reply) : Except Failure (Assoc Text Text) :=
  match value with
  | .array items =>
      if items.length % 2 ≠ 0 ∨ maximumFields < items.length / 2 then
        .error { code := .corrupt, field := ascii "fields" }
      else
        decodeFields ∅ items
  | _ => .error { code := .corrupt, field := ascii "fields" }

/-- The fields of a present value, from those that were read and those that are known. -/
def joinFields (mode : Text) (base : Option RawState) (state : RawState) (delta : Assoc Text Text)
    : Option (Assoc Text Text) :=
  if mode = ascii "replace" then
    some delta
  else if mode = ascii "patch" then
    match base with
    | some known =>
        if completePresent base = false ∨ delta.size = 0 ∨ state.revision ≤ known.revision
            ∨ known.revision < state.replaceRevision
            ∨ known.replaceRevision ≠ state.replaceRevision ∨ known.kind ≠ state.kind then
          none
        else
          some (Support.Redis.Database.setAll known.fields delta.toPairs)
    | none => none
  else if mode = ascii "unchanged" then
    match base with
    | some known =>
        if completePresent base = false ∨ delta.size ≠ 0 ∨ known.revision ≠ state.revision
            ∨ known.replaceRevision ≠ state.replaceRevision ∨ known.kind ≠ state.kind
            ∨ known.encodedBytes ≠ state.encodedBytes then
          none
        else
          some known.fields
    | none => none
  else
    none

def readFailure (field : Text) (revision : Nat := 0) : Except Failure RawState :=
  .error { code := .corrupt, field, revision }

def parsePresentRead (values : Assoc Text Reply) (base : Option RawState)
    (revision maximumBytes : Nat)
    : Except Failure RawState :=
  if values.size ≠ 8 ∨ revision = 0 then
    readFailure (ascii "read_reply") revision
  else
    match readString values (ascii "&mode"), readString values (ascii "@replace_revision"),
        readString values (ascii "@kind"), readString values (ascii "@encoded_bytes"),
        values.get? (ascii "&fields") with
    | some mode, some replaceText, some kindText, some bytesText, some encodedFields =>
        match parseRevision replaceText false with
        | .error _ => readFailure (ascii "@replace_revision") revision
        | .ok replaceRevision =>
            if revision < replaceRevision then
              readFailure (ascii "@replace_revision") revision
            else
              match Kind.parse kindText with
              | none => readFailure (ascii "@kind") revision
              | some kind =>
                  match parseInteger bytesText (ascii "@encoded_bytes") maximumBytes,
                      decodeReadFields encodedFields with
                  | .error failure, _ => .error failure
                  | .ok _, .error failure => .error failure
                  | .ok encodedBytes, .ok delta =>
                      let state : RawState :=
                        { revision, replaceRevision, status := .present, kind := some kind,
                          encodedBytes }
                      match joinFields mode base state delta with
                      | none => readFailure (ascii "&mode") revision
                      | some fields =>
                          match validateValue (some kind) fields maximumBytes with
                          | .error _ => readFailure (ascii "@encoded_bytes") revision
                          | .ok (_, actualBytes) =>
                              if actualBytes ≠ encodedBytes then
                                readFailure (ascii "@encoded_bytes") revision
                              else
                                .ok { state with fields }
    | _, _, _, _, _ => readFailure (ascii "read_reply") revision

def parseAccepted (fields : Assoc Text Reply) (base : Option RawState) (maximumBytes : Nat)
    : Except Failure RawState :=
  match readString fields (ascii "&status"), readString fields (ascii "@revision") with
  | none, _ => readFailure (ascii "&status")
  | some _, none => readFailure (ascii "@revision")
  | some status, some revisionText =>
      match parseRevision revisionText true with
      | .error failure => .error failure
      | .ok revision =>
          if status = ascii "absent" then
            if fields.size ≠ 3 ∨ revision ≠ 0 then
              readFailure (ascii "read_reply") revision
            else
              .ok (deletedState 0)
          else if status = ascii "deleted" then
            if fields.size ≠ 3 ∨ revision = 0 then
              readFailure (ascii "read_reply") revision
            else
              .ok (deletedState revision)
          else if status = ascii "present" then
            parsePresentRead fields base revision maximumBytes
          else
            readFailure (ascii "&status") revision

def parseReadReply (value : Reply) (base : Option RawState) (maximumBytes : Nat)
    : Except Failure RawState :=
  match value with
  | .array items =>
      if items.length = 0 ∨ items.length % 2 ≠ 0 then
        readFailure (ascii "read_reply")
      else
        match replyFields ∅ items with
        | .error failure => .error failure
        | .ok fields =>
            match readString fields (ascii "&result") with
            | none => readFailure (ascii "&result")
            | some result =>
                if result = ascii "error" then
                  match readString fields (ascii "&status") with
                  | none => readFailure (ascii "&status")
                  | some status =>
                      .error (replyFailure { code := scriptStatusCode status } fields.toPairs)
                else if result ≠ ascii "ok" then
                  readFailure (ascii "&result")
                else
                  parseAccepted fields base maximumBytes
  | _ => readFailure (ascii "read_reply")

-- What is returned is read

/-- Distinct names are all read. Witness: induction over the pairs. -/
theorem replyFields_pairs {fields : Assoc Text Reply} {pairs : List (Text × Reply)}
    (distinct : (pairs.map Prod.fst).Nodup) (absent : ∀ pair ∈ pairs, fields.get? pair.1 = none)
    : replyFields fields (pairs.flatMap fun pair => [.text pair.1, pair.2])
      = .ok (Support.Redis.Database.setAll fields pairs) := by
  induction pairs generalizing fields with
  | nil => rfl
  | cons pair rest ih =>
      rw [List.map_cons, List.nodup_cons] at distinct
      have missing : fields.contains pair.1 = false :=
        (Assoc.contains_eq_false_iff _ _).mpr (absent pair List.mem_cons_self)
      have later : ∀ other ∈ rest, (fields.set pair.1 pair.2).get? other.1 = none := by
        intro other listed
        rw [Assoc.get?_set, if_neg]
        · exact absent other (List.mem_cons_of_mem _ listed)
        · intro same
          exact distinct.1 (List.mem_map.mpr ⟨other, listed, same⟩)
      rw [List.flatMap_cons, List.cons_append, List.singleton_append, replyFields, if_neg]
      · exact ih distinct.2 later
      · rw [missing]
        nofun

variable {pairs : List (Text × Text)}

theorem decodeFields_pairs {fields : Assoc Text Text} (distinct : (pairs.map Prod.fst).Nodup)
    (absent : ∀ pair ∈ pairs, fields.get? pair.1 = none)
    (named : ∀ pair ∈ pairs, validFieldName pair.1 = true)
    : decodeFields fields
        ((pairs.map fun pair => (pair.1, Reply.text pair.2)).flatMap fun pair =>
          [.text pair.1, pair.2])
      = .ok (Support.Redis.Database.setAll fields pairs) := by
  induction pairs generalizing fields with
  | nil => rfl
  | cons pair rest ih =>
      rw [List.map_cons, List.nodup_cons] at distinct
      have missing : fields.contains pair.1 = false :=
        (Assoc.contains_eq_false_iff _ _).mpr (absent pair List.mem_cons_self)
      have later : ∀ other ∈ rest, (fields.set pair.1 pair.2).get? other.1 = none := by
        intro other listed
        rw [Assoc.get?_set, if_neg]
        · exact absent other (List.mem_cons_of_mem _ listed)
        · intro same
          exact distinct.1 (List.mem_map.mpr ⟨other, listed, same⟩)
      rw [List.map_cons, List.flatMap_cons, List.cons_append, List.singleton_append, decodeFields,
        if_neg, if_neg]
      · exact ih distinct.2 later fun other listed => named other (List.mem_cons_of_mem _ listed)
      · rw [missing]
        nofun
      · rw [named pair List.mem_cons_self]
        nofun

theorem decodeReadFields_pairs (distinct : (pairs.map Prod.fst).Nodup)
    (named : ∀ pair ∈ pairs, validFieldName pair.1 = true) (few : pairs.length ≤ maximumFields)
    : decodeReadFields (.pairs (pairs.map fun pair => (pair.1, .text pair.2)))
      = .ok (Support.Redis.Database.setAll ∅ pairs) := by
  have length : ((pairs.map fun pair => (pair.1, Reply.text pair.2)).flatMap fun pair =>
      [Reply.text pair.1, pair.2]).length = pairs.length * 2 := by
    simp [List.length_flatMap, Function.comp_def]
  rw [Reply.pairs, decodeReadFields, if_neg]
  · exact decodeFields_pairs distinct (fun _ _ => Assoc.get?_empty _) named
  · rw [length]
    omega

theorem parseRevision_text {revision : Nat} {allowZero : Bool} (small : revision ≤ lastRevision)
    (zero : revision = 0 → allowZero = true)
    : parseRevision (Decimal.text revision) allowZero = .ok revision := by
  rw [parseRevision, uintDecimal_text small zero]

theorem parseInteger_text {number maximum : Nat} {field : Text} (small : number ≤ maximum)
    (fits : number ≤ 2 ^ 31 - 1)
    : parseInteger (Decimal.text number) field maximum = .ok number := by
  rw [parseInteger, uintDecimal_text (Nat.le_min.mpr ⟨small, fits⟩) fun _ => rfl]

section Parse

variable {base : Option RawState} {maximumBytes : Nat}

theorem parseReadReply_absent
    : parseReadReply Reading.absent.reply base maximumBytes = .ok (deletedState 0) := by
  rfl

theorem readString_pairs {pairs : List (Text × Reply)} {name value : Text}
    (distinct : (pairs.map Prod.fst).Nodup) (listed : (name, Reply.text value) ∈ pairs)
    : readString (Support.Redis.Database.setAll ∅ pairs) name = some value := by
  rw [readString, Redis.get?_setAll_of_mem distinct listed]
  rfl

/-- A reply that names no error is accepted. -/
theorem parseReadReply_ok {pairs : List (Text × Reply)} (some : pairs ≠ [])
    (distinct : (pairs.map Prod.fst).Nodup)
    (result : (ascii "&result", Reply.text (ascii "ok")) ∈ pairs)
    : parseReadReply (.pairs pairs) base maximumBytes
      = parseAccepted (Support.Redis.Database.setAll ∅ pairs) base maximumBytes := by
  have length : (pairs.flatMap fun pair => [Reply.text pair.1, pair.2]).length
      = pairs.length * 2 := by
    simp [List.length_flatMap]
  have several : pairs.length ≠ 0 := fun none => some (List.length_eq_zero_iff.mp none)
  rw [Reply.pairs, parseReadReply, if_neg (by omega),
    replyFields_pairs distinct fun _ _ => Assoc.get?_empty _]
  simp only [readString_pairs distinct result]
  rw [if_neg (by decide), if_neg (by decide)]

theorem parseReadReply_deleted {revision : Nat} (positive : 1 ≤ revision)
    (small : revision ≤ lastRevision)
    : parseReadReply (Reading.deleted (Decimal.text revision)).reply base maximumBytes
      = .ok (deletedState revision) := by
  have parsed := @parseRevision_text revision true small fun _ => rfl
  have distinct : ([(ascii "&result", Reply.text (ascii "ok")),
      (ascii "&status", Reply.text (ascii "deleted")),
      (ascii "@revision", Reply.text (Decimal.text revision))].map Prod.fst).Nodup :=
    (by decide : [ascii "&result", ascii "&status", ascii "@revision"].Nodup)
  have status := @readString_pairs _ (ascii "&status") (ascii "deleted") distinct (by simp)
  have isRevision := @readString_pairs _ (ascii "@revision") (Decimal.text revision) distinct
    (by simp)
  have size := @Redis.size_setAll _ ∅ _ distinct fun _ _ => Assoc.get?_empty _
  rw [Reading.reply, parseReadReply_ok (by simp) distinct (by simp), parseAccepted]
  simp only [status, isRevision, parsed]
  rw [if_neg (by decide), if_pos trivial, if_neg]
  rw [size]
  rintro (wrong | zero)
  · exact wrong rfl
  · omega

/-- A present record is read against what the client has. -/
theorem parseReadReply_present {mode : Mode} {record : Record} {fields : List (Text × Text)}
    {joined : Assoc Text Text} (positive : 1 ≤ record.replaceRevision)
    (ordered : record.replaceRevision ≤ record.revision) (small : record.revision ≤ lastRevision)
    (fits : record.encodedBytes ≤ maximumBytes) (bounded : record.encodedBytes ≤ 2 ^ 31 - 1)
    (distinct : (fields.map Prod.fst).Nodup)
    (named : ∀ field ∈ fields, validFieldName field.1 = true) (few : fields.length ≤ maximumFields)
    (joins
      : joinFields mode.text base
          { revision := record.revision, replaceRevision := record.replaceRevision,
            status := .present, kind := some record.kind, encodedBytes := record.encodedBytes }
          (Support.Redis.Database.setAll ∅ fields)
        = some joined)
    (accepted
      : ∃ names, validateValue (some record.kind) joined maximumBytes
        = .ok (names, record.encodedBytes))
    : parseReadReply (Reading.present mode record.heading fields).reply base maximumBytes
      = .ok {
          revision := record.revision
          replaceRevision := record.replaceRevision
          status := .present
          kind := some record.kind
          encodedBytes := record.encodedBytes
          fields := joined } := by
  have parsed := @parseRevision_text record.revision true small fun _ => rfl
  have parsedReplace := @parseRevision_text record.replaceRevision false (ordered.trans small)
    (by omega)
  have parsedBytes := @parseInteger_text record.encodedBytes maximumBytes (ascii "@encoded_bytes")
    fits bounded
  have delta := decodeReadFields_pairs distinct named few
  obtain ⟨names, isValid⟩ := accepted
  rw [Reading.reply, Record.heading]
  generalize isPairs : [(ascii "&result", Reply.text (ascii "ok")),
    (ascii "&status", Reply.text (ascii "present")), (ascii "&mode", Reply.text mode.text),
    (ascii "@revision", Reply.text (Decimal.text record.revision)),
    (ascii "@replace_revision", Reply.text (Decimal.text record.replaceRevision)),
    (ascii "@kind", Reply.text record.kind.text),
    (ascii "@encoded_bytes", Reply.text (Decimal.text record.encodedBytes)),
    (ascii "&fields", Reply.pairs (fields.map fun field => (field.1, Reply.text field.2)))] = pairs
  have distinctNames : (pairs.map Prod.fst).Nodup := by
    rw [← isPairs]
    exact (by decide : [ascii "&result", ascii "&status", ascii "&mode", ascii "@revision",
      ascii "@replace_revision", ascii "@kind", ascii "@encoded_bytes", ascii "&fields"].Nodup)
  have status := @readString_pairs _ (ascii "&status") (ascii "present") distinctNames
    (by simp [← isPairs])
  have isMode := @readString_pairs _ (ascii "&mode") mode.text distinctNames (by simp [← isPairs])
  have isRevision := @readString_pairs _ (ascii "@revision") (Decimal.text record.revision)
    distinctNames (by simp [← isPairs])
  have isReplace := @readString_pairs _ (ascii "@replace_revision")
    (Decimal.text record.replaceRevision) distinctNames (by simp [← isPairs])
  have isKind := @readString_pairs _ (ascii "@kind") record.kind.text distinctNames
    (by simp [← isPairs])
  have isBytes := @readString_pairs _ (ascii "@encoded_bytes") (Decimal.text record.encodedBytes)
    distinctNames (by simp [← isPairs])
  have isFields := @Redis.get?_setAll_of_mem _ ∅ pairs
    (ascii "&fields", Reply.pairs (fields.map fun field => (field.1, Reply.text field.2)))
    distinctNames (by simp [← isPairs])
  have size : (Support.Redis.Database.setAll (∅ : Assoc Text Reply) pairs).size = 8 := by
    rw [Redis.size_setAll distinctNames fun _ _ => Assoc.get?_empty _, ← isPairs]
    rfl
  rw [parseReadReply_ok (by simp [← isPairs]) distinctNames (by simp [← isPairs]), parseAccepted]
  simp only [status, isRevision, parsed]
  rw [if_neg (by decide), if_neg (by decide), if_pos trivial, parsePresentRead,
    if_neg (by rw [size]; omega)]
  simp only [isMode, isReplace, isKind, isBytes, isFields, parsedReplace, Kind.parse_text,
    parsedBytes, delta, joins, isValid]
  rw [if_neg (Nat.not_lt.mpr ordered), if_neg (by simp)]

end Parse

end Sdk.Catalog
