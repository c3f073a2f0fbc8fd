import Mathlib

/-! Programs that read bytes at offsets, and what they read as readings of what remains. -/

namespace Support

/-- A place in bytes. How far a program has looked is kept beside it; no program depends on that. -/
structure Cursor where
  payload : List UInt8
  offset : Nat := 0
  reach : Nat := 0
  deriving DecidableEq

def Cursor.remaining (cursor : Cursor) : List UInt8 := cursor.payload.drop cursor.offset

/-- A program looked at nothing behind the end of bytes that have 64-bit offsets. -/
structure Cursor.Within (cursor : Cursor) : Prop where
  offset : cursor.offset ≤ cursor.payload.length
  reach : cursor.reach ≤ cursor.payload.length
  small : cursor.payload.length < 2 ^ 64

/-- A program that may fail; it leaves the cursor where it stands then. -/
def Reader (Error Result : Type) : Type := Cursor → Except Error Result × Cursor

namespace Reader

variable {Error Other Result Value : Type}

instance : Monad (Reader Error) where
  pure result := fun cursor => (.ok result, cursor)
  bind reader next := fun cursor =>
    match reader cursor with
    | (.ok result, cursor) => next result cursor
    | (.error error, cursor) => (.error error, cursor)

instance : LawfulMonad (Reader Error) :=
  LawfulMonad.mk' _
    (fun reader => by
      funext cursor
      change (match reader cursor with
        | (.ok result, cursor) => (.ok result, cursor)
        | (.error error, cursor) => (.error error, cursor)) = reader cursor
      rcases reader cursor with ⟨_ | _, _⟩ <;> rfl)
    (fun _ _ => rfl)
    (fun reader first second => by
      funext cursor
      change (match (match reader cursor with
          | (.ok result, cursor) => first result cursor
          | (.error error, cursor) => (.error error, cursor)) with
        | (.ok result, cursor) => second result cursor
        | (.error error, cursor) => (.error error, cursor))
        = match reader cursor with
          | (.ok result, cursor) => (first result >>= second) cursor
          | (.error error, cursor) => (.error error, cursor)
      rcases reader cursor with ⟨_ | _, _⟩ <;> rfl)

def fail (error : Error) : Reader Error Result := fun cursor => (.error error, cursor)

def run (reader : Reader Error Result) (payload : List UInt8) : Except Error Result × Cursor :=
  reader { payload }

def lift (result : Except Error Result) : Reader Error Result := fun cursor => (result, cursor)

def here : Reader Error Cursor := fun cursor => (.ok cursor, cursor)

/-- The byte at an index. Behind the end there is none, but the program looked for it. -/
def byteAt (index : Nat) : Reader Error UInt8 := fun cursor =>
  (.ok (cursor.payload.getD index 0), { cursor with reach := max cursor.reach (index + 1) })

def slice (start stop : Nat) : Reader Error (List UInt8) := fun cursor =>
  (.ok ((cursor.payload.take stop).drop start), { cursor with reach := max cursor.reach stop })

def seek (offset : Nat) : Reader Error Unit := fun cursor => (.ok (), { cursor with offset })

def orFail (reader : Reader Other Result) (error : Error) : Reader Error Result := fun cursor =>
  match reader cursor with
  | (.ok result, cursor) => (.ok result, cursor)
  | (.error _, cursor) => (.error error, cursor)

theorem ite_bind {condition : Prop} [Decidable condition] (first second : Reader Error Result)
    (next : Result → Reader Error Value)
    : ((if condition then first else second) >>= next)
      = if condition then first >>= next else second >>= next :=
  apply_ite (· >>= next) condition first second

/-- The outcome as a value; the caller decides later what a failure means. -/
def attempt (reader : Reader Other Result) : Reader Error (Except Other Result) := fun cursor =>
  (.ok (reader cursor).1, (reader cursor).2)

end Reader

def Parse (Result : Type) : Type := List UInt8 → Option (Result × List UInt8)

namespace Parse

variable {Result Value : Type}

instance : Monad Parse where
  pure result := fun rest => some (result, rest)
  bind reading next := fun rest => (reading rest).bind fun (result, rest) => next result rest

instance : LawfulMonad Parse :=
  LawfulMonad.mk' _
    (fun reading => by
      funext rest
      change ((reading rest).bind fun (result, rest) => some (result, rest)) = reading rest
      rcases reading rest with _ | ⟨_, _⟩ <;> rfl)
    (fun _ _ => rfl)
    (fun reading first second => by
      funext rest
      change (((reading rest).bind fun (result, rest) => first result rest).bind
          fun (result, rest) => second result rest)
        = (reading rest).bind fun (result, rest) => (first result >>= second) rest
      rcases reading rest with _ | ⟨_, _⟩ <;> rfl)

def fail : Parse Result := fun _ => none

def lift : Option Result → Parse Result
  | none => fail
  | some result => pure result

@[simp]
theorem pure_run (result : Result) (rest : List UInt8)
    : (pure result : Parse Result) rest = some (result, rest) :=
  rfl

@[simp]
theorem bind_run (reading : Parse Result) (next : Result → Parse Value) (rest : List UInt8)
    : (reading >>= next) rest = (reading rest).bind fun (result, rest) => next result rest :=
  rfl

@[simp]
theorem fail_run (rest : List UInt8) : (fail : Parse Result) rest = none :=
  rfl

@[simp]
theorem fail_bind (next : Result → Parse Value) : (fail >>= next) = fail :=
  rfl

@[simp]
theorem bind_fail (reading : Parse Result) : (reading >>= fun _ => (fail : Parse Value)) = fail := by
  funext rest
  rw [bind_run, fail_run, Option.bind_eq_none_iff]
  exact fun _ _ => rfl

variable {reading : Parse Result}

/-- Only what a reading can give matters to what is read after it. -/
theorem bind_congr_of {first second : Result → Parse Value}
    (same : ∀ result before rest, reading before = some (result, rest) → first result = second result)
    : reading >>= first = reading >>= second := by
  funext before
  rw [bind_run, bind_run]
  cases told : reading before with
  | none => rfl
  | some pair =>
      rw [Option.bind_some, Option.bind_some]
      dsimp only
      rw [same _ _ _ told]

def Gives (reading : Parse Result) (holds : Result → Prop) : Prop :=
  ∀ before result rest, reading before = some (result, rest) → holds result

variable {holds : Result → Prop}

theorem Gives.pure {result : Result} (given : holds result)
    : Gives (pure result) holds := by
  intro before other rest read
  cases read
  exact given

theorem Gives.fail : Gives fail holds := nofun

theorem Gives.bind_of {reading : Parse Result} {next : Result → Parse Value}
    {known : Result → Prop} {holds : Value → Prop} (first : Gives reading known)
    (each : ∀ result, known result → Gives (next result) holds)
    : Gives (reading >>= next) holds := by
  intro before value rest read
  rw [bind_run, Option.bind_eq_some_iff] at read
  obtain ⟨⟨result, after⟩, given, later⟩ := read
  exact each result (first before result after given) after value rest later

theorem Gives.bind {next : Result → Parse Value} {holds : Value → Prop}
    (each : ∀ result, Gives (next result) holds)
    : Gives (reading >>= next) holds :=
  @Gives.bind_of _ _ reading next (fun _ => True) holds (fun _ _ _ _ => trivial)
    fun result _ => each result

variable {condition : Prop}

theorem Gives.ite [Decidable condition] {first second : Parse Result} (one : Gives first holds)
    (other : Gives second holds)
    : Gives (if condition then first else second) holds := by
  split_ifs
  · exact one
  · exact other

theorem ite_bind [Decidable condition] (first second : Parse Result) (next : Result → Parse Value)
    : ((if condition then first else second) >>= next)
      = if condition then first >>= next else second >>= next :=
  apply_ite (· >>= next) condition first second

end Parse

-- Programs follow readings

namespace Reader

variable {Error Other Result Value : Type}

/-- From every place inside the bytes a program stays inside, leaves the bytes as they are, and has
the result of a reading of what remains; it fails where the reading has none.
-/
def Follows (reader : Reader Error Result) (reading : Parse Result) : Prop :=
  ∀ cursor : Cursor, cursor.Within →
    (reader cursor).2.Within ∧ (reader cursor).2.payload = cursor.payload
      ∧ match reading cursor.remaining with
        | some (result, rest) =>
            (reader cursor).1 = .ok result ∧ (reader cursor).2.remaining = rest
        | none => ∃ error, (reader cursor).1 = .error error

def Refuses (reader : Reader Error Result) : Prop := reader.Follows Parse.fail

namespace Follows

theorem pure (result : Result) : (pure result : Reader Error Result).Follows (pure result) :=
  fun _ within => ⟨within, rfl, rfl, rfl⟩

theorem fail (error : Error) : (Reader.fail error : Reader Error Result).Refuses :=
  fun _ within => ⟨within, rfl, error, rfl⟩

variable {reader : Reader Error Result} {reading : Parse Result}

theorem of_refuses (refuses : reader.Refuses) (nothing : reading = Parse.fail)
    : reader.Follows reading :=
  nothing ▸ refuses

theorem lift (result : Except Error Result)
    : (Reader.lift result).Follows (Parse.lift result.toOption) := by
  cases result with
  | error error => exact Follows.fail error
  | ok result => exact Follows.pure result

theorem ite {condition : Prop} [Decidable condition] {first second : Reader Error Result}
    {other : Parse Result} (holds : condition → first.Follows reading)
    (fails : ¬condition → second.Follows other)
    : (if condition then first else second).Follows (if condition then reading else other) := by
  by_cases isTrue : condition
  · rw [if_pos isTrue, if_pos isTrue]
    exact holds isTrue
  · rw [if_neg isTrue, if_neg isTrue]
    exact fails isTrue

/-- One program after another follows one reading after another; the later program only needs to do
so for what the first reading can give.
-/
theorem bind_of {reader : Reader Error Result} {next : Result → Reader Error Value}
    {reading : Parse Result} {later : Result → Parse Value} (first : reader.Follows reading)
    (second : ∀ result before rest, reading before = some (result, rest)
      → (next result).Follows (later result))
    : (reader >>= next).Follows (reading >>= later) := by
  intro cursor within
  obtain ⟨inside, same, outcome⟩ := first cursor within
  have step : (reader >>= next) cursor = match reader cursor with
        | (.ok result, cursor) => next result cursor
        | (.error error, cursor) => (.error error, cursor) := rfl
  rw [step, Parse.bind_run]
  rcases isAfter : reader cursor with ⟨result, after⟩
  rw [isAfter] at inside same outcome
  cases told : reading cursor.remaining with
  | none =>
      rw [told] at outcome
      obtain ⟨error, isError⟩ := outcome
      dsimp only at isError
      rw [isError]
      exact ⟨inside, same, error, rfl⟩
  | some pair =>
      obtain ⟨value, rest⟩ := pair
      rw [told] at outcome
      obtain ⟨isOk, remains⟩ := outcome
      dsimp only at isOk remains
      rw [isOk]
      have continued := second value _ _ told after inside
      rw [remains] at continued
      exact ⟨continued.1, continued.2.1.trans same, continued.2.2⟩

variable {later : Result → Parse Value}

theorem bind {next : Result → Reader Error Value} (first : reader.Follows reading)
    (second : ∀ result, (next result).Follows (later result))
    : (reader >>= next).Follows (reading >>= later) :=
  bind_of first fun result _ _ _ => second result

/-- The later program may know what the first one computed from what was read. -/
theorem bind_map {Middle : Type} {reader : Reader Error Middle} {next : Middle → Reader Error Value}
    {f : Result → Middle} (first : reader.Follows (reading >>= fun result => Pure.pure (f result)))
    (second : ∀ result, (next (f result)).Follows (later result))
    : (reader >>= next).Follows (reading >>= later) := by
  intro cursor within
  obtain ⟨inside, same, outcome⟩ := first cursor within
  have step : (reader >>= next) cursor = match reader cursor with
        | (.ok result, cursor) => next result cursor
        | (.error error, cursor) => (.error error, cursor) := rfl
  rw [Parse.bind_run] at outcome
  rw [step, Parse.bind_run]
  rcases isAfter : reader cursor with ⟨result, after⟩
  rw [isAfter] at inside same outcome
  cases told : reading cursor.remaining with
  | none =>
      rw [told] at outcome
      obtain ⟨error, isError⟩ := outcome
      dsimp only at isError
      rw [isError]
      exact ⟨inside, same, error, rfl⟩
  | some pair =>
      obtain ⟨value, rest⟩ := pair
      rw [told] at outcome
      obtain ⟨isOk, remains⟩ := outcome
      dsimp only at isOk remains
      rw [isOk]
      have continued := second value after inside
      rw [remains] at continued
      exact ⟨continued.1, continued.2.1.trans same, continued.2.2⟩

theorem orFail {reader : Reader Other Result} (follows : reader.Follows reading) (error : Error)
    : (reader.orFail error).Follows reading := by
  intro cursor within
  obtain ⟨inside, same, outcome⟩ := follows cursor within
  rw [Reader.orFail]
  rcases isAfter : reader cursor with ⟨_ | result, after⟩
  · rw [isAfter] at inside same outcome
    refine ⟨inside, same, ?_⟩
    cases told : reading cursor.remaining with
    | none => exact ⟨error, rfl⟩
    | some pair =>
        rw [told] at outcome
        cases outcome.1
  · rw [isAfter] at inside same outcome
    refine ⟨inside, same, ?_⟩
    cases told : reading cursor.remaining with
    | none =>
        rw [told] at outcome
        obtain ⟨_, isError⟩ := outcome
        cases isError
    | some pair =>
        rw [told] at outcome
        obtain ⟨isOk, remains⟩ := outcome
        cases isOk
        exact ⟨rfl, remains⟩

/-- A failure that is only looked at later still leads to a refusal. -/
theorem attempt_map {Middle : Type} {reader : Reader Other Middle}
    {next : Except Other Middle → Reader Error Value} {reading : Parse Result}
    {later : Result → Parse Value} {f : Result → Middle}
    (first : reader.Follows (reading >>= fun result => Pure.pure (f result)))
    (second : ∀ result, (next (.ok (f result))).Follows (later result))
    (refused : ∀ error, (next (.error error)).Refuses)
    : (reader.attempt >>= next).Follows (reading >>= later) := by
  intro cursor within
  obtain ⟨inside, same, outcome⟩ := first cursor within
  have step : (reader.attempt >>= next) cursor = next (reader cursor).1 (reader cursor).2 := rfl
  rw [Parse.bind_run] at outcome
  rw [step, Parse.bind_run]
  cases told : reading cursor.remaining with
  | none =>
      rw [told] at outcome
      obtain ⟨error, isError⟩ := outcome
      rw [isError]
      have continued := refused error (reader cursor).2 inside
      exact ⟨continued.1, continued.2.1.trans same, continued.2.2⟩
  | some pair =>
      obtain ⟨value, rest⟩ := pair
      rw [told] at outcome
      obtain ⟨isOk, remains⟩ := outcome
      rw [isOk]
      have continued := second value (reader cursor).2 inside
      rw [remains] at continued
      exact ⟨continued.1, continued.2.1.trans same, continued.2.2⟩

variable {next : Except Other Result → Reader Error Value}

theorem attempt_bind {reader : Reader Other Result} (first : reader.Follows reading)
    (second : ∀ result, (next (.ok result)).Follows (later result))
    (refused : ∀ error, (next (.error error)).Refuses)
    : (reader.attempt >>= next).Follows (reading >>= later) :=
  @attempt_map _ _ _ _ _ _ _ _ _ id (by rwa [show (fun result => Pure.pure (id result)) = Pure.pure
    from rfl, bind_pure]) second refused

theorem attempt_refused {reader : Reader Other Result} (first : reader.Follows reading)
    (refused : ∀ outcome, (next outcome).Refuses)
    : (reader.attempt >>= next).Refuses := by
  intro cursor within
  obtain ⟨inside, same, _⟩ := first cursor within
  have continued := refused (reader cursor).1 (reader cursor).2 inside
  exact ⟨continued.1, continued.2.1.trans same, continued.2.2⟩

/-- The next byte. -/
theorem byte {reader : Reader Error UInt8} {reading : Parse UInt8}
    (ends : ∀ cursor : Cursor, cursor.payload.length ≤ cursor.offset
      → ∃ error, reader cursor = (.error error, cursor))
    (reads : ∀ cursor : Cursor, cursor.offset < cursor.payload.length
      → reader cursor = (.ok (cursor.payload.getD cursor.offset 0),
          { cursor with
            offset := cursor.offset + 1, reach := max cursor.reach (cursor.offset + 1) }))
    (nothing : reading [] = none) (next : ∀ byte rest, reading (byte :: rest) = some (byte, rest))
    : reader.Follows reading := by
  intro cursor within
  by_cases inside : cursor.offset < cursor.payload.length
  · have remains : cursor.remaining
        = cursor.payload.getD cursor.offset 0 :: cursor.payload.drop (cursor.offset + 1) := by
      rw [Cursor.remaining, List.drop_eq_getElem_cons inside, List.getD_eq_getElem?_getD,
        List.getElem?_eq_getElem inside, Option.getD_some]
    rw [reads cursor inside, remains, next]
    exact ⟨⟨inside, Nat.max_le.mpr ⟨within.reach, inside⟩, within.small⟩, rfl, rfl, rfl⟩
  · have ended := Nat.not_lt.mp inside
    obtain ⟨error, fails⟩ := ends cursor ended
    rw [fails, Cursor.remaining, List.drop_of_length_le ended, nothing]
    exact ⟨within, rfl, error, rfl⟩

/-- So many bytes, if there are so many. -/
theorem bytes {reader : Reader Error (List UInt8)} {reading : Parse (List UInt8)} {length : Nat}
    (ends : ∀ cursor : Cursor, cursor.Within → cursor.payload.length < cursor.offset + length
      → ∃ error, reader cursor = (.error error, cursor))
    (reads : ∀ cursor : Cursor, cursor.Within → cursor.offset + length ≤ cursor.payload.length
      → reader cursor
        = (.ok ((cursor.payload.take (cursor.offset + length)).drop cursor.offset),
          { cursor with
            offset := cursor.offset + length
            reach := max cursor.reach (cursor.offset + length) }))
    (short : ∀ rest, rest.length < length → reading rest = none)
    (next : ∀ rest, length ≤ rest.length → reading rest = some (rest.take length, rest.drop length))
    : reader.Follows reading := by
  intro cursor within
  have left : cursor.remaining.length = cursor.payload.length - cursor.offset := by
    rw [Cursor.remaining, List.length_drop]
  have offset := within.offset
  by_cases inside : cursor.offset + length ≤ cursor.payload.length
  · rw [reads cursor within inside, next _ (by omega)]
    refine ⟨⟨inside, Nat.max_le.mpr ⟨within.reach, inside⟩, within.small⟩, rfl, ?_, ?_⟩
    · rw [List.drop_take, Nat.add_sub_cancel_left, Cursor.remaining]
    · rw [Cursor.remaining, Cursor.remaining, List.drop_drop]
  · obtain ⟨error, fails⟩ := ends cursor within (Nat.not_le.mp inside)
    rw [fails, short _ (by omega)]
    exact ⟨within, rfl, error, rfl⟩

/-- A whole run, from the first byte on. -/
theorem run (follows : reader.Follows reading) {payload : List UInt8}
    (small : payload.length < 2 ^ 64)
    : (reader.run payload).2.reach ≤ payload.length
      ∧ (reader.run payload).1.toOption = (reading payload).map Prod.fst := by
  obtain ⟨inside, same, outcome⟩ := follows { payload } ⟨Nat.zero_le _, Nat.zero_le _, small⟩
  have reach := inside.reach
  rw [same] at reach
  refine ⟨reach, ?_⟩
  have whole : Cursor.remaining { payload } = payload := rfl
  rw [whole] at outcome
  rw [Reader.run]
  cases told : reading payload with
  | none =>
      rw [told] at outcome
      obtain ⟨error, isError⟩ := outcome
      rw [isError]
      rfl
  | some pair =>
      rw [told] at outcome
      rw [outcome.1]
      rfl

end Follows

end Reader

end Support
