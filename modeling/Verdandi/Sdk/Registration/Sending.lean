import Verdandi.Sdk.Registration.Owner

/-! What a worker may send. It keeps to one content for its revision, and goes on to the next revision
unless a call for it has certainly failed.
-/

namespace Sdk.Registration

open Support
open Support.Redis (Text get?_setAll_toPairs)
open Support.Redis.Database (setAll)

structure RegistrationState.At (state : RegistrationState) (ttl revision : Nat) (content : Content)
    : Prop where
  revision : state.revision = revision
  content : state.content = content
  ttl : state.ttl = ttl

def RegistrationState.Has (state : RegistrationState) (update : Update) : Prop :=
  update.version.getD state.version = state.version ∧ (changedFields state update).size = 0

structure Content.Contains (content : Content) (update : Update) : Prop where
  version : ∀ version ∈ update.version, content.version = version
  data : ∀ name value, update.data.get? name = some value → content.data.get? name = some value

def Content.patch (content : Content) (version : Option Nat) (data : Assoc Text Text)
    : Content where
  version := version.getD content.version
  attr := content.attr
  data := setAll content.data data.toPairs

inductive Request.Keeps (ttl revision : Nat) (content : Content) : Request → Prop where
  | register : Keeps ttl revision content (.register revision ttl content)
  | renew : Keeps ttl revision content (.renew revision)

inductive Request.Moves (ttl revision : Nat) (before : Content) : Content → Request → Prop where
  | register (after) : Moves ttl revision before after (.register (revision + 1) ttl after)
  | update (version data) (numbered : ∀ number ∈ version, 1 ≤ number ∧ number ≤ maxSafeInteger)
    (plain : AllPlain data)
    : Moves ttl revision before (before.patch version data) (.update (revision + 1) version data)

def certain (result : Except Failure RegistrationReply) : Bool :=
  match result with
  | .error failure => uncertainRegistrationOutcome failure = false
  | .ok _ => false

/-- A program of a worker that holds a content under a revision, and knows whether some call has stored
it. Where `honest`, updates are reported as done only if they were stored.
-/
def Program.Safe (honest : Prop) (batch : Batch) (ttl : Nat)
    : Program → RegistrationState → Nat → Content → Bool → Prop
  | .done, state, revision, content, known =>
      state.At ttl revision content ∧ (state.uncertain = false → known = true)
  | .finish, state, revision, content, _ => state.At ttl revision content
  | .ready next, state, revision, content, known =>
      next.Safe honest batch ttl state revision content known
  | .assign state next, _, revision, content, known =>
      state.At ttl revision content ∧ next.Safe honest batch ttl state revision content known
  | .reportUpdates result next, state, revision, content, known =>
      (honest → result = none → known = true ∧ content.Contains batch.update)
        ∧ next.Safe honest batch ttl state revision content known
  | .reportRenews _ next, state, revision, content, known =>
      next.Safe honest batch ttl state revision content known
  | .call request next, state, revision, content, known =>
      state.At ttl revision content
        ∧ ((request = .unregister
            ∧ ∀ result, (next result).Safe honest batch ttl state revision content known)
          ∨ (request.Keeps ttl revision content
            ∧ ∀ result, (next result).Safe honest batch ttl state revision content
                (known || result.isOk))
          ∨ ∃ after, Admitted (revision + 1) ttl after ∧ request.Moves ttl revision content after
            ∧ ∀ result,
                if certain result then
                  (next result).Safe honest batch ttl state revision content known
                else
                  (next result).Safe honest batch ttl state (revision + 1) after result.isOk)

-- What the functions of the worker do

theorem succeeded_cases (result : Except Failure RegistrationReply) (revision : Nat)
    : (∃ reply, succeeded result revision = .ok reply ∧ result = .ok reply)
      ∨ ∃ failure, succeeded result revision = .error failure
        ∧ (result = .error failure
          ∨ (uncertainRegistrationOutcome failure = true ∧ ∃ reply, result = .ok reply)) := by
  cases result with
  | error failure => exact .inr ⟨failure, rfl, .inl rfl⟩
  | ok reply =>
      rw [succeeded]
      cases invalid : validateRegistrationSuccess reply revision with
      | none => exact .inl ⟨reply, rfl, rfl⟩
      | some failure =>
          refine .inr ⟨failure, rfl, .inr ⟨?_, reply, rfl⟩⟩
          rw [validateRegistrationSuccess] at invalid
          split at invalid
          · cases invalid
            rfl
          · cases invalid

section Worker

variable {honest : Prop} {batch : Batch} {ttl revision : Nat} {content : Content} {known : Bool}
  {state : RegistrationState} {next : RegistrationState → Option Failure → Program}

theorem settleRenew_safe (at_ : state.At ttl revision content)
    (sure : state.uncertain = false → known = true)
    (goes : ∀ after failure known', after.At ttl revision content
      → (after.uncertain = false → known' = true)
      → (next after failure).Safe honest batch ttl after revision content known')
    (result : Except Failure RegistrationReply)
    : (settleRenew state next result).Safe honest batch ttl state revision content
        (known || result.isOk) := by
  obtain ⟨rfl, rfl, rfl⟩ := at_
  rw [settleRenew]
  rcases succeeded_cases result state.revision with
    ⟨reply, succeeds, rfl⟩ | ⟨failure, fails, _⟩
  · rw [succeeds]
    refine ⟨⟨rfl, rfl, rfl⟩, goes _ none _ ⟨rfl, rfl, rfl⟩ fun _ => ?_⟩
    simp [Except.isOk, Except.toBool]
  · rw [fails]
    simp only
    split
    · exact ⟨⟨rfl, rfl, rfl⟩, goes _ _ _ ⟨rfl, rfl, rfl⟩ nofun⟩
    · exact goes _ _ _ ⟨rfl, rfl, rfl⟩ fun certain => by simp [sure certain]

/-- A renewal leaves the content; after it, the state is doubtful unless some call has stored the
content.
-/
theorem renewState_safe (at_ : state.At ttl revision content)
    (sure : state.uncertain = false → known = true)
    (goes : ∀ after failure known', after.At ttl revision content
      → (after.uncertain = false → known' = true)
      → (next after failure).Safe honest batch ttl after revision content known')
    : (renewState state next).Safe honest batch ttl state revision content known := by
  have register {known : Bool} (sure : state.uncertain = false → known = true)
      : Program.Safe honest batch ttl
          (.call (.register state.revision state.ttl state.content) (settleRenew state next))
          state revision content known := by
    obtain ⟨rfl, rfl, rfl⟩ := at_
    exact ⟨⟨rfl, rfl, rfl⟩, .inr (.inl ⟨.register, settleRenew_safe ⟨rfl, rfl, rfl⟩ sure goes⟩)⟩
  rw [renewState]
  split
  · exact register sure
  · refine ⟨at_, .inr (.inl ⟨at_.revision ▸ .renew, fun result => ?_⟩)⟩
    beta_reduce
    by_cases needs : needsRegister result = true
    · rw [if_pos needs]
      exact register fun certain => by simp [sure certain]
    · rw [if_neg needs]
      exact settleRenew_safe at_ sure goes result

variable {update : Update}

/-- An update that changes nothing is contained already. -/
theorem RegistrationState.Has.contains (has : state.Has update)
    : state.content.Contains update where
  version number isVersion := by
    have version := has.1
    rw [Option.mem_def.mp isVersion] at version
    exact version.symm
  data name value found := by
    by_contra different
    have isChanged : (changedFields state update).get? name = some value := by
      rw [changedFields, Assoc.get?_filter, found, Option.filter_some, if_pos]
      exact decide_eq_true different
    rw [Redis.eq_empty_of_size has.2, Assoc.get?_empty] at isChanged
    cases isChanged

/-- What is changed is what the update brings. -/
theorem contains_of_changed (after : Content)
    (version : after.version = update.version.getD state.version)
    (data : after.data = setAll state.data (changedFields state update).toPairs)
    : after.Contains update where
  version number isVersion := by
    rw [version, Option.mem_def.mp isVersion, Option.getD_some]
  data name value found := by
    rw [data, get?_setAll_toPairs, changedFields, Assoc.get?_filter, found, Option.filter_some]
    by_cases same : state.data.get? name = some value <;> simp [same]

/-- A content goes on to the next unless the last call for it has certainly failed. -/
theorem settleUpdate_safe {update : Update} {after : Content} (at_ : state.At ttl revision content)
    (attr : after.attr = state.attr) (contains : after.Contains update)
    (stays : ∀ failure, (next state (some failure)).Safe honest batch ttl state revision content known)
    (goes : ∀ state' failure known', state'.At ttl (revision + 1) after
      → (state'.uncertain = false → known' = true)
      → (failure = none → known' = true ∧ after.Contains update)
      → (next state' failure).Safe honest batch ttl state' (revision + 1) after known')
    (result : Except Failure RegistrationReply)
    : if certain result then
        (settleUpdate state after next result).Safe honest batch ttl state revision content known
      else
        (settleUpdate state after next result).Safe honest batch ttl state (revision + 1) after
          result.isOk := by
  obtain ⟨rfl, rfl, rfl⟩ := at_
  have expected : RegistrationState.At
      { state with
        revision := state.revision + 1
        version := after.version
        data := after.data
        uncertain := true
        healthy := false } state.ttl (state.revision + 1) after :=
    ⟨rfl, by simp [RegistrationState.content, ← attr], rfl⟩
  rw [settleUpdate]
  simp only
  rcases succeeded_cases result (state.revision + 1) with
    ⟨reply, succeeds, rfl⟩ | ⟨failure, fails, rfl | ⟨doubtful, reply, rfl⟩⟩
  · rw [succeeds, certain, if_neg (by decide)]
    have isAt : RegistrationState.At
        { state with
          revision := state.revision + 1
          timestamp := reply.timestamp
          version := after.version
          data := after.data
          uncertain := false
          healthy := true } state.ttl (state.revision + 1) after :=
      ⟨rfl, by simp [RegistrationState.content, ← attr], rfl⟩
    exact ⟨isAt, goes _ none true isAt (fun _ => rfl) fun _ => ⟨rfl, contains⟩⟩
  · rw [fails]
    by_cases doubtful : uncertainRegistrationOutcome failure = true
    · rw [if_neg (show ¬certain (.error failure) = true by simp [certain, doubtful])]
      simp only
      rw [if_pos doubtful]
      exact ⟨expected, goes _ _ _ expected nofun nofun⟩
    · rw [if_pos (show certain (.error failure) = true by simpa [certain] using doubtful)]
      simp only
      rw [if_neg doubtful]
      exact stays failure
  · rw [fails, if_neg (show ¬certain (.ok reply) = true by simp [certain])]
    simp only
    rw [if_pos doubtful]
    exact ⟨expected, goes _ _ _ expected nofun nofun⟩

variable {uuid : Text} {limits : ZoneConfig}

theorem updateState_safe
    (at_ : state.At ttl revision content) (sure : state.uncertain = false → known = true)
    (settled : honest → state.Has update → state.uncertain = false)
    (goes : ∀ after failure revision' content' known',
      after.At ttl revision' content' → (after.uncertain = false → known' = true)
      → (honest → failure = none → known' = true ∧ content'.Contains update)
      → (revision' = revision ∧ content' = content
        ∨ revision' = revision + 1 ∧ Admitted revision' ttl content')
      → (next after failure).Safe honest batch ttl after revision' content' known')
    : (updateState uuid limits state update next).Safe honest batch ttl state revision content
        known := by
  have fail (failure : Failure)
      : (next state (some failure)).Safe honest batch ttl state revision content known :=
    goes state (some failure) _ _ known at_ sure (fun _ => nofun) (.inl ⟨rfl, rfl⟩)
  obtain ⟨rfl, rfl, rfl⟩ := at_
  rw [updateState]
  simp only
  split
  · exact fail _
  split
  · exact fail _
  split
  next unchanged =>
    have has : state.Has update := unchanged
    refine goes state none _ _ known ⟨rfl, rfl, rfl⟩ sure (fun isHonest _ => ?_) (.inl ⟨rfl, rfl⟩)
    exact ⟨sure (settled isHonest has), has.contains⟩
  split
  · exact fail _
  split
  · exact fail _
  rename_i valid
  have admitted := validateRecord_admitted valid
  have settle := @settleUpdate_safe honest batch state.ttl state.revision state.content known
    state next update
    { version := update.version.getD state.version, attr := state.attr,
      data := setAll state.data (changedFields state update).toPairs }
    ⟨rfl, rfl, rfl⟩ rfl (contains_of_changed _ rfl rfl) fail
    fun after failure known' isAt sure' contained =>
      goes after failure _ _ known' isAt sure' (fun _ => contained) (.inr ⟨rfl, admitted⟩)
  have register : Program.Safe honest batch state.ttl
      (.call (.register (state.revision + 1) state.ttl
          { version := update.version.getD state.version, attr := state.attr,
            data := setAll state.data (changedFields state update).toPairs })
        (settleUpdate state
          { version := update.version.getD state.version, attr := state.attr,
            data := setAll state.data (changedFields state update).toPairs } next))
      state state.revision state.content known :=
    ⟨⟨rfl, rfl, rfl⟩, .inr (.inr ⟨_, admitted, .register _, settle⟩)⟩
  split
  · exact register
  · refine ⟨⟨rfl, rfl, rfl⟩, .inr (.inr ⟨_, admitted, ?_, fun result => ?_⟩)⟩
    · have moves := @Request.Moves.update state.ttl state.revision state.content
        (if update.version.getD state.version = state.version then none
          else some (update.version.getD state.version)) (changedFields state update) ?_ ?_
      · have patched : state.content.patch
            (if update.version.getD state.version = state.version then none
              else some (update.version.getD state.version)) (changedFields state update)
            = { version := update.version.getD state.version, attr := state.attr,
                data := setAll state.data (changedFields state update).toPairs } := by
          rw [Content.patch]
          split
          next same => simp [RegistrationState.content, same]
          · simp [RegistrationState.content]
        rw [patched] at moves
        exact moves
      · intro number isVersion
        split at isVersion
        · cases isVersion
        · cases isVersion
          exact admitted.version
      · intro name isChanged
        apply admitted.data
        rw [get?_setAll_toPairs]
        simp [isChanged]
    · beta_reduce
      by_cases needs : needsRegister result = true
      · have failed : certain result = true := by
          cases result with
          | ok reply => cases needs
          | error failure =>
              simp only [needsRegister, Bool.or_eq_true, decide_eq_true_eq] at needs
              rcases needs with isMissing | isTransition
              · simp [certain, uncertainRegistrationOutcome, isMissing]
              · simp [certain, uncertainRegistrationOutcome, isTransition]
        rw [if_pos failed, if_pos needs]
        exact register
      · rw [if_neg needs]
        exact settle result

theorem handleRenews_safe {wrote : Bool} (at_ : state.At ttl revision content)
    (sure : state.uncertain = false → known = true)
    : (handleRenews state batch wrote).Safe honest batch ttl state revision content known := by
  rw [handleRenews]
  split
  · exact ⟨at_, sure⟩
  split
  · exact ⟨at_, sure⟩
  · exact renewState_safe at_ sure fun _ _ _ isAt isSure => ⟨isAt, isSure⟩

theorem handleBatch_safe (at_ : state.At ttl revision content)
    (sure : state.uncertain = false → known = true)
    (settled : honest → batch.updates ≠ [] → state.Has batch.update → state.uncertain = false)
    : (handleBatch uuid limits state batch).Safe honest batch ttl state revision content known := by
  rw [handleBatch]
  split
  · exact handleRenews_safe at_ sure
  rename_i some
  exact updateState_safe at_ sure (fun isHonest => settled isHonest some)
    fun after failure _ _ known' isAt isSure contained _ =>
      ⟨contained, handleRenews_safe isAt isSure⟩

theorem automaticRenew_safe (at_ : state.At ttl revision content)
    (sure : state.uncertain = false → known = true)
    : (automaticRenew state).Safe honest batch ttl state revision content known :=
  renewState_safe at_ sure fun _ _ _ isAt isSure => ⟨isAt, isSure⟩

theorem finishState_safe (at_ : state.At ttl revision content)
    : (finishState state).Safe honest batch ttl state revision content known := by
  rw [finishState]
  split
  · exact at_
  · exact ⟨at_, .inl ⟨rfl, fun _ => at_⟩⟩

theorem start_safe (at_ : state.At ttl revision content)
    : (start state).Safe honest batch ttl state revision content known := by
  obtain ⟨rfl, rfl, rfl⟩ := at_
  refine ⟨⟨rfl, rfl, rfl⟩, .inr (.inl ⟨.register, fun result => ?_⟩)⟩
  simp only
  rcases succeeded_cases result state.revision with
    ⟨reply, succeeds, rfl⟩ | ⟨failure, fails, _⟩
  · rw [succeeds]
    exact ⟨⟨rfl, rfl, rfl⟩, ⟨rfl, rfl, rfl⟩, fun _ => by simp [Except.isOk, Except.toBool]⟩
  · rw [fails]
    exact ⟨⟨rfl, rfl, rfl⟩, .inl ⟨rfl, fun _ => ⟨rfl, rfl, rfl⟩⟩⟩

end Worker

end Sdk.Registration
