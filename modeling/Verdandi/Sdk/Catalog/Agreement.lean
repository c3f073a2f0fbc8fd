import Verdandi.Sdk.Catalog.EventReading

/-! The client libraries read the events of the Catalog alike. -/

namespace Sdk.Catalog

open Support
open Support.Redis (Text Database)

variable {path : Path} {count maximum : Nat} {operation : Text}

/-- The end of the payload is where nothing remains. -/
theorem done_follows {done : Reader Failure Bool}
    (asks : ∀ cursor : Cursor, done cursor = (.ok (cursor.offset == cursor.payload.length), cursor))
    : done.Follows endReading := by
  intro cursor within
  have ended : (cursor.offset == cursor.payload.length) = cursor.remaining.isEmpty := by
    have offset := within.offset
    rw [Bool.eq_iff_iff, beq_iff_eq, List.isEmpty_iff, Cursor.remaining, List.drop_eq_nil_iff]
    omega
  rw [asks, ended]
  exact ⟨within, rfl, rfl, rfl⟩

/-- Fields that are first read and then validated. -/
theorem fieldsReading_validated {Value Result : Type} {kind : Kind} {patch : Bool}
    {accepts : List (Text × Text) → Bool} {validate : List (Text × Text) → Option Value}
    {value : List (Text × Text) → Value} {next : List (Text × Text) → Value → Parse Result}
    (weaker : ∀ rows, admits kind patch maximum rows = true → accepts rows = true)
    (validated : ∀ rows, rows.length ≤ maximumFields → accepts rows = true
      → validate rows
        = if admits kind patch maximum rows = true then some (value rows) else none)
    : (fieldsReading (admits kind patch maximum) >>= fun rows => next rows (value rows))
      = fieldsReading accepts >>= fun rows => Parse.lift (validate rows) >>= next rows := by
  simp only [fieldsReading, bind_assoc, Parse.ite_bind, Parse.fail_bind, pure_bind]
  congr 1
  funext count
  by_cases refused : count % 2 ≠ 0 ∨ maximumFields < count / 2
  · rw [if_pos refused, if_pos refused]
  · rw [if_neg refused, if_neg refused]
    refine Parse.bind_congr_of fun rows before rest read => ?_
    have few : rows.length ≤ maximumFields := by
      rw [pairsReading_length read]
      omega
    by_cases accepted : accepts rows = true
    · rw [if_pos accepted, validated rows few accepted]
      split_ifs
      · rfl
      · rfl
    · rw [if_neg accepted, if_neg (mt (weaker rows) accepted)]

/-- The operations are told apart before the number of items is checked. -/
theorem operationReading_eq
    : operationReading operation path count maximum = if operation = ascii "replace" then
          if count = 7 then replaceReading path maximum else Parse.fail
        else if operation = ascii "patch" then
          if count = 8 then patchReading path maximum else Parse.fail
        else if operation = ascii "delete" then
          if count = 4 then deleteReading path else Parse.fail
        else
          Parse.fail := by
  rw [operationReading]
  by_cases replaces : operation = ascii "replace"
  · rw [replaces]
    simp [show ascii "replace" ≠ ascii "patch" by decide,
      show ascii "replace" ≠ ascii "delete" by decide]
  · by_cases patches : operation = ascii "patch"
    · rw [patches]
      simp [show ascii "patch" ≠ ascii "replace" by decide,
        show ascii "patch" ≠ ascii "delete" by decide]
    · simp only [replaces, patches, false_and, if_false]
      by_cases deletes : operation = ascii "delete" <;> simp [deletes]

namespace Go

theorem decodeEventRevision_follows {field : Text}
    : (decodeEventRevision field).Follows (numberReading lastRevision false) := by
  refine Reader.Follows.bind (Reader.Follows.orFail rawBytes_follows _) fun text => ?_
  rw [parseRevision]
  cases uintDecimal text lastRevision false with
  | none => exact Reader.Follows.fail _
  | some revision => exact Reader.Follows.pure revision

theorem decodeEventHeader_follows {patch : Bool} {revision : Nat} (small : maximum ≤ 2 ^ 31 - 1)
    : (decodeEventHeader patch revision maximum).Follows (headerReading patch maximum) := by
  simp only [headerReading, kindReading, numberReading, bind_assoc]
  refine Reader.Follows.attempt_bind rawBytes_follows (fun text => ?_) fun _ =>
    Reader.Follows.fail _
  dsimp only [Except.toOption, Option.getD_some]
  cases Kind.parse text with
  | none => exact Reader.Follows.fail _
  | some kind =>
      dsimp only
      rw [Parse.ite_bind, pure_bind]
      refine Reader.Follows.ite (fun _ => Reader.Follows.fail _) fun _ => ?_
      refine Reader.Follows.bind (Reader.Follows.orFail rawBytes_follows _) fun text => ?_
      have same : (parseInteger text (ascii "@encoded_bytes") maximum).toOption
          = uintDecimal text maximum true := by
        rw [parseInteger, Nat.min_eq_left small]
        cases uintDecimal text maximum true <;> rfl
      rw [← same]
      exact Reader.Follows.bind (Reader.Follows.lift _) fun _ => Reader.Follows.pure _

theorem decodeReplace_follows (small : maximum ≤ 2 ^ 31 - 1)
    : (decodeReplace path count maximum).Follows
      (if count = 7 then replaceReading path maximum else Parse.fail) := by
  rw [decodeReplace, ite_not]
  refine Reader.Follows.ite (fun _ => ?_) fun _ => Reader.Follows.fail _
  refine Reader.Follows.bind decodeEventRevision_follows fun revision => ?_
  refine Reader.Follows.bind (decodeEventHeader_follows small) fun (kind, encodedBytes) => ?_
  refine Reader.Follows.attempt_map decodeEventFields_follows (fun rows => ?_) fun failure => ?_
  · exact Reader.Follows.ite (fun _ => Reader.Follows.fail _) fun _ => Reader.Follows.pure _
  · dsimp only
    split_ifs
    · exact Reader.Follows.fail _
    · exact Reader.Follows.fail _

theorem decodePatch_follows (small : maximum ≤ 2 ^ 31 - 1)
    : (decodePatch path count maximum).Follows
      (if count = 8 then patchReading path maximum else Parse.fail) := by
  rw [decodePatch, ite_not]
  refine Reader.Follows.ite (fun _ => ?_) fun _ => Reader.Follows.fail _
  refine Reader.Follows.bind decodeEventRevision_follows fun baseRevision => ?_
  refine Reader.Follows.bind (Reader.Follows.orFail decodeEventRevision_follows _) fun revision => ?_
  refine Reader.Follows.ite (fun _ => Reader.Follows.fail _) fun _ => ?_
  refine Reader.Follows.bind (decodeEventHeader_follows small) fun (kind, encodedBytes) => ?_
  exact Reader.Follows.bind_map decodeEventFields_follows fun rows => Reader.Follows.pure _

theorem decodeDelete_follows
    : (decodeDelete path count).Follows (if count = 4 then deleteReading path else Parse.fail) := by
  rw [decodeDelete, ite_not]
  refine Reader.Follows.ite (fun _ => ?_) fun _ => Reader.Follows.fail _
  exact Reader.Follows.bind decodeEventRevision_follows fun revision => Reader.Follows.pure _

theorem decodeOperation_follows (small : maximum ≤ 2 ^ 31 - 1)
    : (decodeOperation operation path count maximum).Follows
      (operationReading operation path count maximum) := by
  rw [operationReading_eq]
  refine Reader.Follows.ite (fun _ => decodeReplace_follows small) fun _ => ?_
  refine Reader.Follows.ite (fun _ => decodePatch_follows small) fun _ => ?_
  exact Reader.Follows.ite (fun _ => decodeDelete_follows) fun _ => Reader.Follows.fail _

theorem readEvent_follows (small : maximum ≤ 2 ^ 31 - 1)
    : (readEvent path maximum).Follows (eventReading path maximum) := by
  refine Reader.Follows.bind (Reader.Follows.orFail arrayLength_follows _) fun count => ?_
  refine Reader.Follows.ite (fun _ => Reader.Follows.fail _) fun _ => ?_
  refine Reader.Follows.bind (Reader.Follows.orFail rawBytes_follows _) fun protocol => ?_
  refine Reader.Follows.ite (fun _ => Reader.Follows.fail _) fun _ => ?_
  refine Reader.Follows.bind (Reader.Follows.orFail rawBytes_follows _) fun operation => ?_
  refine Reader.Follows.bind (Reader.Follows.orFail rawBytes_follows _) fun member => ?_
  have target : (path.matchesMember member = false) = (member ≠ path.member) := by
    rw [← Bool.not_eq_true, matchesMember_iff]
  simp only [target]
  refine Reader.Follows.ite (fun _ => Reader.Follows.fail _) fun _ => ?_
  refine Reader.Follows.bind (decodeOperation_follows small) fun event => ?_
  refine Reader.Follows.bind (done_follows fun _ => rfl) fun ended => ?_
  exact Reader.Follows.ite (fun _ => Reader.Follows.pure _) fun _ => Reader.Follows.fail _

end Go

-- Rust

/-- What is admitted is in order and is UTF-8. -/
theorem admits_checked {kind : Kind} {patch : Bool} {rows : List (Text × Text)}
    (admitted : admits kind patch maximum rows = true)
    : ordered (!patch && kind == .array) 0 [] (rows.map Prod.fst) = true
      ∧ (rows.all fun row => validString row.1) = true := by
  simp only [admits, Bool.and_eq_true] at admitted
  obtain ⟨⟨⟨order, _⟩, named⟩, _⟩ := admitted
  refine ⟨order, List.all_eq_true.mpr fun row listed => ?_⟩
  have valid := List.all_eq_true.mp named row listed
  rw [validFieldName, Bool.and_eq_true, Bool.and_eq_true] at valid
  exact valid.1.2

namespace Rust

variable {text : Text}

/-- Numbers are UTF-8. -/
theorem uintDecimal_unreadable {allowZero : Bool} (unreadable : validString text = false)
    : uintDecimal text maximum allowZero = none := by
  rw [Option.eq_none_iff_forall_ne_some]
  intro number read
  have readable := validFieldName_text number
  rw [← (uintDecimal_eq_some.mp read).1, validFieldName, unreadable, Bool.and_false,
    Bool.false_and] at readable
  cases readable

theorem kind_unreadable (unreadable : validString text = false)
    : Kind.parse text = none := by
  have isNot (name : Text) (readable : validString name = true) : text ≠ name := by
    rintro rfl
    rw [unreadable] at readable
    cases readable
  rw [Kind.parse, if_neg (isNot (ascii "value") (validString_of_ascii (by decide +kernel))),
    if_neg (isNot (ascii "array") (validString_of_ascii (by decide +kernel))),
    if_neg (isNot (ascii "map") (validString_of_ascii (by decide +kernel)))]

theorem operation_unreadable (unreadable : validString operation = false)
    : operationReading operation path count maximum = Parse.fail := by
  have isNot (name : Text) (readable : validString name = true) : operation ≠ name := by
    rintro rfl
    rw [unreadable] at readable
    cases readable
  rw [operationReading_eq, if_neg (isNot (ascii "replace") (validString_of_ascii (by decide +kernel))),
    if_neg (isNot (ascii "patch") (validString_of_ascii (by decide +kernel))),
    if_neg (isNot (ascii "delete") (validString_of_ascii (by decide +kernel)))]

variable {field : Text}

theorem decodeEventRevision_follows
    : (decodeEventRevision field).Follows (numberReading lastRevision false) := by
  refine text_bind (fun text _ => ?_) fun text unreadable => ?_
  · rw [← @canonicalU64_eq text field false]
    exact Reader.Follows.lift _
  · rw [uintDecimal_unreadable unreadable]
    rfl

theorem decodeEventUsize_follows (small : maximum < 2 ^ 64)
    : (decodeEventUsize maximum field).Follows (numberReading maximum true) := by
  refine text_bind (fun text _ => ?_) fun text unreadable => ?_
  · rw [← @canonicalUsize_eq text field maximum small]
    exact Reader.Follows.lift _
  · rw [uintDecimal_unreadable unreadable]
    rfl

theorem decodeReplace_follows (small : maximum < 2 ^ 64)
    : (decodeReplace path maximum).Follows (replaceReading path maximum) := by
  simp only [replaceReading, headerReading, kindReading, bind_assoc, pure_bind]
  refine Reader.Follows.bind decodeEventRevision_follows fun revision => ?_
  refine text_bind (fun text _ => ?_) fun text unreadable => ?_
  · cases Kind.parse text with
    | none => exact Reader.Follows.fail _
    | some kind =>
        simp only [Bool.false_eq_true, false_and, if_false, pure_bind]
        refine Reader.Follows.bind (decodeEventUsize_follows small) fun encodedBytes => ?_
        have checked := @fieldsReading_validated maximum _ CatalogEvent kind false _ _ _
          (fun rows actual =>
            if actual ≠ encodedBytes then
              Parse.fail
            else
              pure { kind := .replace, path, revision, valueKind := some kind, encodedBytes,
                     fields := Database.setAll ∅ rows })
          (fun rows admitted => Bool.and_eq_true_iff.mpr (admits_checked admitted))
          fun rows few accepted => validateValue_eq small few (Bool.and_eq_true_iff.mp accepted).1
            (Bool.and_eq_true_iff.mp accepted).2
        rw [checked]
        refine Reader.Follows.bind_map decodeEventFields_follows fun rows => ?_
        refine Reader.Follows.bind (Reader.Follows.lift _) fun actual => ?_
        exact Reader.Follows.ite (fun _ => Reader.Follows.fail _) fun _ => Reader.Follows.pure _
  · rw [kind_unreadable unreadable]
    rfl

theorem decodePatch_follows (small : maximum < 2 ^ 64)
    : (decodePatch path maximum).Follows (patchReading path maximum) := by
  simp only [patchReading, headerReading, kindReading, bind_assoc, pure_bind]
  refine Reader.Follows.bind decodeEventRevision_follows fun baseRevision => ?_
  refine Reader.Follows.bind decodeEventRevision_follows fun revision => ?_
  refine Reader.Follows.ite (fun _ => Reader.Follows.fail _) fun _ => ?_
  refine text_bind (fun text _ => ?_) fun text unreadable => ?_
  · cases Kind.parse text with
    | none => exact Reader.Follows.fail _
    | some kind =>
        by_cases isValue : kind = .value
        · rw [isValue]
          exact Reader.Follows.fail _
        · have several : (some kind).filter (· != .value) = some kind := by
            simp [Option.filter, isValue]
          simp only [several, isValue, and_false, if_false, pure_bind]
          refine Reader.Follows.bind (decodeEventUsize_follows small) fun encodedBytes => ?_
          have checked := @fieldsReading_validated maximum _ CatalogEvent kind true _ _ _
            (fun rows _ =>
              pure { kind := .patch, path, revision, baseRevision, valueKind := some kind,
                     encodedBytes, fields := Database.setAll ∅ rows })
            (fun rows admitted => Bool.and_eq_true_iff.mpr (admits_checked admitted))
            fun rows few accepted => validatePatch_eq small few
              (Bool.and_eq_true_iff.mp accepted).1 (Bool.and_eq_true_iff.mp accepted).2
          rw [checked]
          refine Reader.Follows.bind_map decodeEventFields_follows fun rows => ?_
          exact Reader.Follows.bind (Reader.Follows.lift _) fun _ => Reader.Follows.pure _
  · rw [kind_unreadable unreadable]
    rfl

theorem decodeOperation_follows (small : maximum < 2 ^ 64)
    : (decodeOperation operation path count maximum).Follows
      (operationReading operation path count maximum) := by
  refine Reader.Follows.ite (fun _ => decodeReplace_follows small) fun _ => ?_
  refine Reader.Follows.ite (fun _ => decodePatch_follows small) fun _ => ?_
  refine Reader.Follows.ite (fun _ => ?_) fun _ => ?_
  · exact Reader.Follows.bind decodeEventRevision_follows fun revision => Reader.Follows.pure _
  · split_ifs
    · exact Reader.Follows.fail _
    · exact Reader.Follows.fail _

theorem readEvent_follows (small : maximum < 2 ^ 64)
    : (readEvent path maximum).Follows (eventReading path maximum) := by
  refine Reader.Follows.bind (Reader.Follows.orFail arrayLength_follows _) fun count => ?_
  refine Reader.Follows.ite (fun _ => Reader.Follows.fail _) fun _ => ?_
  refine text_bind (fun protocol _ => ?_) fun protocol unreadable => ?_
  · refine Reader.Follows.ite (fun _ => Reader.Follows.fail _) fun _ => ?_
    refine text_bind (fun operation _ => ?_) fun operation unreadable => ?_
    · refine text_bind (fun member _ => ?_) fun member unreadable => ?_
      · have target : (matchesMember path member = false) = (member ≠ path.member) := by
          rw [← Bool.not_eq_true, matchesMember_iff]
        simp only [target]
        refine Reader.Follows.ite (fun _ => Reader.Follows.fail _) fun _ => ?_
        refine Reader.Follows.bind (decodeOperation_follows small) fun event => ?_
        refine Reader.Follows.bind (done_follows fun _ => rfl) fun ended => ?_
        exact Reader.Follows.ite (fun _ => Reader.Follows.pure _) fun _ => Reader.Follows.fail _
      · have other : member ≠ path.member := by
          rintro rfl
          rw [validString_member] at unreadable
          cases unreadable
        exact if_pos other
    · simp only [operation_unreadable unreadable, Parse.fail_bind, ite_self, Parse.bind_fail]
  · have other : protocol ≠ ascii "v1" := by
      rintro rfl
      cases unreadable
    exact if_pos other

end Rust

-- C++

namespace Cpp

/-- An event of another library; one without a kind is given the kind of a single value. -/
def CatalogEvent.of (payloadBytes : Nat) (event : Catalog.CatalogEvent) : CatalogEvent where
  operation := event.kind
  target := event.path
  revision := event.revision
  baseRevision := event.baseRevision
  shape := event.valueKind.getD .value
  encodedBytes := event.encodedBytes
  value := event.fields
  payloadBytes

variable {payloadBytes : Nat}

theorem eventRevision_follows {field : Text}
    : (eventRevision field).Follows (numberReading lastRevision false) := by
  refine Reader.Follows.bind (Reader.Follows.orFail binary_follows _) fun text => ?_
  rw [← @parseUnsigned_eq text field false]
  exact Reader.Follows.lift _

theorem eventSize_follows (small : maximum < 2 ^ 64)
    : (eventSize maximum).Follows (numberReading maximum true) := by
  refine Reader.Follows.bind (Reader.Follows.orFail binary_follows _) fun text => ?_
  cases found : uintDecimal text maximum true with
  | some number =>
      obtain ⟨isText, fits, _⟩ := uintDecimal_eq_some.mp found
      obtain ⟨read, unpadded⟩ := (@fromChars_whole text number (by omega)).mpr isText
      rw [read]
      dsimp only
      rw [if_neg]
      · exact Reader.Follows.pure number
      · rintro (some | padded | large)
        · exact some rfl
        · exact unpadded padded
        · omega
  | none =>
      rcases read : fromChars text with _ | ⟨output, rest⟩
      · exact Reader.Follows.fail _
      · dsimp only
        rw [if_pos]
        · exact Reader.Follows.fail _
        · by_contra admitted
          rw [not_or, not_or, not_not, Nat.not_lt] at admitted
          obtain ⟨nothing, unpadded, fits⟩ := admitted
          rw [nothing] at read
          have isText := (@fromChars_whole text output (by omega)).mp ⟨read, unpadded⟩
          rw [uintDecimal_eq_some.mpr ⟨isText, fits, fun _ => rfl⟩] at found
          cases found

/-- The fields are validated after they are read. -/
theorem eventFields_validated {Value Result : Type} {kind : Kind} {patch : Bool}
    {validate : Assoc Text Text → Except Failure Value} {value : List (Text × Text) → Value}
    {next : Except Failure (Assoc Text Text) → Reader Failure Result}
    {later : List (Text × Text) → Value → Parse Result}
    (validated : ∀ rows, rows.length ≤ maximumFields
      → ordered (!patch && kind == .array) 0 [] (rows.map Prod.fst) = true
      → (validate (Database.setAll ∅ rows)).toOption
        = if admits kind patch maximum rows = true then some (value rows) else none)
    (second : ∀ rows, (next (.ok (Database.setAll ∅ rows))).Follows
      (Parse.lift (validate (Database.setAll ∅ rows)).toOption >>= later rows))
    (refused : ∀ error, (next (.error error)).Refuses)
    : ((eventFields (!patch && kind == .array)).attempt >>= next).Follows
      (fieldsReading (admits kind patch maximum) >>= fun rows => later rows (value rows)) := by
  rw [fieldsReading_validated (fun rows admitted => (admits_checked admitted).1) validated]
  exact Reader.Follows.attempt_map eventFields_follows second refused

theorem decodeReplace_follows (small : maximum < 2 ^ 64)
    : (decodeReplace path payloadBytes count maximum).Follows
      (if count = 7 then (do pure (CatalogEvent.of payloadBytes (← replaceReading path maximum)))
        else Parse.fail) := by
  rw [decodeReplace, ite_not]
  refine Reader.Follows.ite (fun _ => ?_) fun _ => Reader.Follows.fail _
  simp only [replaceReading, headerReading, kindReading, bind_assoc, pure_bind]
  refine Reader.Follows.attempt_bind eventRevision_follows (fun revision => ?_) fun _ =>
    Reader.Follows.attempt_refused binary_follows fun _ =>
      Reader.Follows.attempt_refused (eventSize_follows small) fun _ =>
        Reader.Follows.attempt_refused eventFields_follows fun _ => Reader.Follows.fail _
  refine Reader.Follows.attempt_bind binary_follows (fun text => ?_) fun _ =>
    Reader.Follows.attempt_refused (eventSize_follows small) fun _ =>
      Reader.Follows.attempt_refused eventFields_follows fun _ => Reader.Follows.fail _
  simp only [Except.toOption, Option.bind_some]
  cases Kind.parse text with
  | none =>
      exact Reader.Follows.attempt_refused (eventSize_follows small) fun _ =>
        Reader.Follows.attempt_refused eventFields_follows fun _ => Reader.Follows.fail _
  | some kind =>
      simp only [Bool.false_eq_true, false_and, if_false, pure_bind]
      refine Reader.Follows.attempt_bind (eventSize_follows small) (fun encodedBytes => ?_) fun _ =>
        Reader.Follows.attempt_refused eventFields_follows fun _ => Reader.Follows.fail _
      refine @eventFields_validated maximum Nat CatalogEvent kind false
        (fun fields => validateCatalogValue kind fields maximum) listBytes _
        (fun rows actual => (if actual ≠ encodedBytes then Parse.fail else
          pure { kind := .replace, path, revision, valueKind := some kind, encodedBytes,
                 fields := Database.setAll ∅ rows } : Parse Catalog.CatalogEvent)
          >>= fun event => pure (CatalogEvent.of payloadBytes event))
        (fun rows few order => validateCatalogValue_eq few order) (fun rows => ?_) fun _ =>
        Reader.Follows.fail _
      dsimp only
      cases validateCatalogValue kind (Database.setAll ∅ rows) maximum with
      | error failure => exact Reader.Follows.fail _
      | ok actual =>
          simp only [Except.toOption, Parse.lift, pure_bind, Parse.ite_bind, Parse.fail_bind]
          exact Reader.Follows.ite (fun _ => Reader.Follows.fail _) fun _ => Reader.Follows.pure _

theorem decodePatch_follows (small : maximum < 2 ^ 64)
    : (decodePatch path payloadBytes count maximum).Follows
      (if count = 8 then (do pure (CatalogEvent.of payloadBytes (← patchReading path maximum)))
        else Parse.fail) := by
  rw [decodePatch, ite_not]
  refine Reader.Follows.ite (fun _ => ?_) fun _ => Reader.Follows.fail _
  simp only [patchReading, headerReading, kindReading, bind_assoc, pure_bind, Parse.ite_bind,
    Parse.fail_bind]
  refine Reader.Follows.attempt_bind eventRevision_follows (fun baseRevision => ?_) fun _ =>
    Reader.Follows.attempt_refused eventRevision_follows fun _ =>
      Reader.Follows.attempt_refused binary_follows fun _ =>
        Reader.Follows.attempt_refused (eventSize_follows small) fun _ =>
          Reader.Follows.attempt_refused eventFields_follows fun _ => Reader.Follows.fail _
  refine Reader.Follows.attempt_bind eventRevision_follows (fun revision => ?_) fun _ =>
    Reader.Follows.attempt_refused binary_follows fun _ =>
      Reader.Follows.attempt_refused (eventSize_follows small) fun _ =>
        Reader.Follows.attempt_refused eventFields_follows fun _ => Reader.Follows.fail _
  by_cases late : revision ≤ baseRevision
  · rw [if_pos late]
    refine Reader.Follows.attempt_refused binary_follows fun shape => ?_
    refine Reader.Follows.attempt_refused (eventSize_follows small) fun encoded => ?_
    refine Reader.Follows.attempt_refused eventFields_follows fun value => ?_
    rcases shape with _ | shape <;> rcases encoded with _ | encodedBytes <;>
      rcases value with _ | value
    all_goals first | exact Reader.Follows.fail _ | skip
    dsimp only
    rw [if_pos (.inl late)]
    exact Reader.Follows.fail _
  · rw [if_neg late]
    refine Reader.Follows.attempt_bind binary_follows (fun text => ?_) fun _ =>
      Reader.Follows.attempt_refused (eventSize_follows small) fun _ =>
        Reader.Follows.attempt_refused eventFields_follows fun _ => Reader.Follows.fail _
    by_cases several : ∃ kind, Kind.parse text = some kind ∧ kind ≠ .value
    · obtain ⟨kind, isKind, several⟩ := several
      simp only [isKind, several, and_false, if_false, pure_bind]
      refine Reader.Follows.attempt_bind (eventSize_follows small) (fun encodedBytes => ?_) fun _ =>
        Reader.Follows.attempt_refused eventFields_follows fun _ => Reader.Follows.fail _
      refine @eventFields_validated maximum Unit CatalogEvent kind true
        (fun fields => validateCatalogPatch fields maximum) (fun _ => ()) _
        (fun rows _ => pure (CatalogEvent.of payloadBytes
          { kind := .patch, path, revision, baseRevision, valueKind := some kind, encodedBytes,
            fields := Database.setAll ∅ rows }))
        (fun rows few order => validateCatalogPatch_eq few order) (fun rows => ?_) fun _ =>
        Reader.Follows.fail _
      dsimp only
      cases validateCatalogPatch (Database.setAll ∅ rows) maximum with
      | error failure =>
          rw [if_pos (.inr rfl)]
          exact Reader.Follows.fail _
      | ok valid =>
          rw [if_neg (by rintro (early | refused); exact late early; cases refused)]
          simp only [isKind, several, if_false, Except.toOption, Parse.lift, pure_bind]
          exact Reader.Follows.pure _
    · -- the kind is only looked at after everything is read
      refine Reader.Follows.of_refuses ?_ ?_
      · refine Reader.Follows.attempt_refused (eventSize_follows small) fun encoded => ?_
        refine Reader.Follows.attempt_refused eventFields_follows fun value => ?_
        rcases encoded with _ | encodedBytes
        · exact Reader.Follows.fail _
        rcases value with _ | value
        · exact Reader.Follows.fail _
        dsimp only
        split_ifs
        · exact Reader.Follows.fail _
        · cases isKind : Kind.parse text with
          | none => exact Reader.Follows.fail _
          | some kind =>
              have isValue : kind = .value := by_contra fun other => several ⟨kind, isKind, other⟩
              dsimp only
              rw [if_pos isValue]
              exact Reader.Follows.fail _
      · cases isKind : Kind.parse text with
        | none => rfl
        | some kind =>
            have isValue : kind = .value := by_contra fun other => several ⟨kind, isKind, other⟩
            simp only [isValue, and_self, if_true, Parse.fail_bind]

theorem decodeOperation_follows (small : maximum < 2 ^ 64)
    : (decodeOperation operation path payloadBytes count maximum).Follows (do
        pure (CatalogEvent.of payloadBytes (← operationReading operation path count maximum))) := by
  rw [operationReading_eq]
  simp only [Parse.ite_bind, Parse.fail_bind]
  refine Reader.Follows.ite (fun _ => ?_) fun _ => ?_
  · exact decodeReplace_follows small
  · refine Reader.Follows.ite (fun _ => decodePatch_follows small) fun _ => ?_
    refine Reader.Follows.ite (fun _ => ?_) fun _ => Reader.Follows.fail _
    rw [decodeErase, ite_not]
    refine Reader.Follows.ite (fun _ => ?_) fun _ => Reader.Follows.fail _
    rw [deleteReading, bind_assoc]
    exact Reader.Follows.bind eventRevision_follows fun revision => Reader.Follows.pure _

theorem readEvent_follows (small : maximum < 2 ^ 64)
    : (readEvent path payloadBytes maximum).Follows (do
        pure (CatalogEvent.of payloadBytes (← eventReading path maximum))) := by
  simp only [eventReading, bind_assoc, Parse.ite_bind, Parse.fail_bind, pure_bind]
  refine Reader.Follows.bind (Reader.Follows.orFail arraySize_follows _) fun count => ?_
  refine Reader.Follows.ite (fun _ => Reader.Follows.fail _) fun _ => ?_
  -- the whole header is read before the first text of it is looked at
  refine Reader.Follows.attempt_bind binary_follows (fun protocol => ?_) fun _ =>
    Reader.Follows.attempt_refused binary_follows fun _ =>
      Reader.Follows.attempt_refused binary_follows fun _ => Reader.Follows.fail _
  by_cases other : protocol = ascii "v1"
  · rw [if_neg (not_not.mpr other)]
    refine Reader.Follows.attempt_bind binary_follows (fun operation => ?_) fun _ =>
      Reader.Follows.attempt_refused binary_follows fun _ => ?_
    · refine Reader.Follows.attempt_bind binary_follows (fun member => ?_) fun _ => ?_
      · simp only [Except.toOption, other, ne_eq, not_true_eq_false, if_false]
        refine Reader.Follows.ite (fun _ => Reader.Follows.fail _) fun _ => ?_
        refine Reader.Follows.bind_map (decodeOperation_follows small) fun event => ?_
        refine Reader.Follows.bind (done_follows fun _ => rfl) fun ended => ?_
        exact Reader.Follows.ite (fun _ => Reader.Follows.pure _) fun _ => Reader.Follows.fail _
      · simp only [Except.toOption, other, ne_eq, not_true_eq_false, if_false]
        exact Reader.Follows.fail _
    · simp only [Except.toOption, other, ne_eq, not_true_eq_false, if_false]
      exact Reader.Follows.fail _
  · rw [if_pos other]
    refine Reader.Follows.attempt_refused binary_follows fun operation => ?_
    refine Reader.Follows.attempt_refused binary_follows fun member => ?_
    have refused : (Except.ok protocol : Except Failure Text).toOption ≠ some (ascii "v1") :=
      fun same => other (Option.some.inj same)
    rw [if_pos refused]
    exact Reader.Follows.fail _

end Cpp

-- Agreement

/-- Deletions are the events without a kind. -/
theorem eventReading_kind
    : Parse.Gives (eventReading path maximum) fun event =>
      event.valueKind = none ↔ event.kind = .delete := by
  have replaces : Parse.Gives (replaceReading path maximum) fun event =>
      event.valueKind = none ↔ event.kind = .delete :=
    .bind fun _ => .bind fun _ => .bind fun _ => .ite .fail (.pure (by simp))
  have patches : Parse.Gives (patchReading path maximum) fun event =>
      event.valueKind = none ↔ event.kind = .delete :=
    .bind fun _ => .bind fun _ => .ite .fail (.bind fun _ => .bind fun _ => .pure (by simp))
  have deletes : Parse.Gives (deleteReading path) fun event =>
      event.valueKind = none ↔ event.kind = .delete :=
    .bind fun _ => .pure (by simp)
  have operates (operation : Text) (count : Nat)
      : Parse.Gives (operationReading operation path count maximum) fun event =>
        event.valueKind = none ↔ event.kind = .delete :=
    .ite replaces (.ite patches (.ite deletes .fail))
  exact .bind fun _ => .ite .fail (.bind fun _ => .ite .fail (.bind fun _ => .bind fun _ =>
    .ite .fail (.bind_of (operates _ _) fun _ told => .bind fun _ => .ite (.pure told) .fail)))

/-- For any payload, path and limit the three decoders refuse the payload, or they accept it with one
event. None of them looks behind the end of the payload. A deletion has no kind; in C++ its shape is
left as it was.
-/
theorem decoders_agree (payload : Text) (path : Path) (maximum : Nat)
    (limited : maximum ≤ maximumEncodedBytes)
    : (Rust.decodeEvent payload path maximum).1.toOption
        = (Go.decodeEvent payload path maximum).1.toOption
      ∧ (Cpp.decodeEvent payload path maximum).1.toOption
        = (Go.decodeEvent payload path maximum).1.toOption.map (Cpp.CatalogEvent.of payload.length)
      ∧ (∀ event, (Go.decodeEvent payload path maximum).1 = .ok event
        → (event.valueKind = none ↔ event.kind = .delete))
      ∧ (Go.decodeEvent payload path maximum).2.reach ≤ payload.length
      ∧ (Rust.decodeEvent payload path maximum).2.reach ≤ payload.length
      ∧ (Cpp.decodeEvent payload path maximum).2.reach ≤ payload.length := by
  have large : maximumEncodedBytes = 4194304 := rfl
  have most : maximumFields = 65536 := rfl
  rw [Go.decodeEvent, Rust.decodeEvent, Cpp.decodeEvent]
  by_cases long : maximumEventPayload maximum < payload.length
  · rw [if_pos long, if_pos long, if_pos (.inr long)]
    exact ⟨rfl, rfl, (by intros; contradiction), Nat.zero_le _, Nat.zero_le _, Nat.zero_le _⟩
  · have short : payload.length < 2 ^ 64 := by
      rw [maximumEventPayload] at long
      omega
    obtain ⟨goReach, go⟩ := (@Go.readEvent_follows path maximum (by omega)).run short
    obtain ⟨rustReach, rust⟩ := (@Rust.readEvent_follows path maximum (by omega)).run short
    obtain ⟨cppReach, cpp⟩ :=
      (@Cpp.readEvent_follows path maximum payload.length (by omega)).run short
    rw [if_neg long, if_neg long]
    have kinds (event : CatalogEvent)
        (accepted : ((Go.readEvent path maximum).run payload).1 = .ok event)
        : event.valueKind = none ↔ event.kind = .delete := by
      rw [accepted] at go
      obtain ⟨⟨_, rest⟩, read, same⟩ := Option.map_eq_some_iff.mp go.symm
      cases same
      exact eventReading_kind payload _ rest read
    have events : (eventReading path maximum >>= fun event =>
          pure (Cpp.CatalogEvent.of payload.length event)) payload
        = (eventReading path maximum payload).map fun read =>
          (Cpp.CatalogEvent.of payload.length read.1, read.2) := by
      rw [Parse.bind_run]
      cases eventReading path maximum payload <;> rfl
    rw [events, Option.map_map] at cpp
    by_cases empty : payload = []
    · subst empty
      have nothing : eventReading path maximum [] = none := rfl
      rw [nothing] at go
      rw [if_pos (.inl rfl), go, rust, nothing]
      exact ⟨rfl, rfl, kinds, goReach, rustReach, Nat.zero_le _⟩
    · have admitted : ¬(payload = [] ∨ maximum + min maximum maximumFields * 10 + 1024
          < payload.length) := by
        rintro (none | more)
        · exact empty none
        · exact long more
      rw [if_neg admitted, cpp, go, rust, Option.map_map]
      exact ⟨rfl, rfl, kinds, goReach, rustReach, cppReach⟩

def entryPath : Path := { part := ascii "a", id := ascii "b", valid := by decide }

def deletionPayload : Text := (Event.delete entryPath.member (ascii "7")).pack

/-- A deletion is read in all three. -/
theorem decoders_agree_deletion
    : (Rust.decodeEvent deletionPayload entryPath 1024).1.toOption
        = some { kind := .delete, path := entryPath, revision := 7 }
      ∧ (Cpp.decodeEvent deletionPayload entryPath 1024).1.toOption
        = some {
          operation := .delete, target := entryPath, revision := 7
          payloadBytes := deletionPayload.length } :=
  have read : (Go.decodeEvent deletionPayload entryPath 1024).1.toOption
      = some { kind := .delete, path := entryPath, revision := 7 } := by
    rfl
  have law := decoders_agree deletionPayload entryPath 1024 (by decide)
  ⟨law.1.trans read, law.2.1.trans (congrArg _ read)⟩

end Sdk.Catalog
