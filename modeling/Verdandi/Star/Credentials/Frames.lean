import Verdandi.Star.Credentials.System

/-! What one frame can do to the login table and to the installed credential Scope: nothing,
a replacement of both, or a row of patches of both. The two therefore stay equal.
-/

namespace Astra.Credentials

open Support Polaris Proto

section

variable (parse : Bytes → Option Bytes)

-- What one frame can do to the store

structure Unmoved (before after : Shared) : Prop where
  access : after.access = before.access
  installed : after.library.installed Scope.auth = before.library.installed Scope.auth

/-- The credential Scope was replaced by a newer candidate together with the whole table. -/
structure Replaces (before after : Shared) (credentials : Access.Draft) (draft : Library.Draft)
    : Prop where
  indexed : Indexed parse (some credentials) draft
  access : before.access.reset credentials (.ok (some ())) = .ok (some (after.access, ()))
  installed : after.library.installed Scope.auth = some draft.draft.state
  moved : version? before.library ≠ version? after.library

structure Amends (before after : Shared) (key : Bytes) (secret : Option Bytes) : Prop where
  access : Access.Applied before.access after.access key secret
  stored
    : ∀ other, stored parse after.library other
        = if other = key then secret else stored parse before.library other

variable {store next : Shared} {credentials : Option Access.Draft} {draft : Library.Draft}

/-- An installation either leaves the credentials alone or replaces them all. Witness: the
index is present exactly when the candidate is for the credential Scope.
-/
theorem install_moves (indexed : Indexed parse credentials draft)
    (installed : Receiver.install store credentials draft = .ok (some next))
    : Unmoved store next ∨ ∃ credentials, Replaces parse store next credentials draft := by
  unfold Receiver.install at installed
  split at installed
  next =>
    split at installed
    · cases installed
    · cases installed
    rename_i library change committed
    cases installed
    obtain ⟨_, almanac, replaced⟩ := Library.reset_some committed
    refine .inl ⟨rfl, ?_⟩
    have elsewhere : Scope.auth ≠ draft.scope := Ne.symm indexed
    simp [replaced.installed, elsewhere]
  rename_i credentials
  split at installed
  · cases installed
  · cases installed
  rename_i access library change replacedAccess
  cases installed
  obtain ⟨committed, equal⟩ := Access.reset_some replacedAccess
  obtain ⟨_, almanac, replaced⟩ := Library.reset_some committed
  have content : library.installed Scope.auth = some draft.draft.state := by
    simp [replaced.installed, indexed.1]
  refine .inr ⟨credentials, indexed, ?_, content, ?_⟩
  · simp [Access.reset, equal]
  · intro same
    simp only [version?, content, Option.map_some, Option.map_eq_some_iff] at same
    obtain ⟨state, found, version⟩ := same
    -- The routed book is ready, so the candidate had to be strictly newer.
    simp only [Library.installed, Option.bind_eq_some_iff] at found
    obtain ⟨book, routed, ready⟩ := found
    split at ready
    next isReady =>
      cases ready
      have newer := replaced.newer book (by rw [indexed.1]; exact routed) isReady
      omega
    · cases ready

variable {scope : Scope} {version : Nat}

/-- A committed patch either leaves the credentials alone or changes one in both places.
Witness: in the credential Scope the table is given the parse of the committed value.
-/
theorem commit_moves {change : AlmanacChange}
    (committed : Receiver.commit parse store scope version change = .ok (some next))
    : Unmoved store next ∨ ∃ key secret, Amends parse store next key secret := by
  unfold Receiver.commit at committed
  dsimp only at committed
  split at committed
  next isAuth =>
    subst isAuth
    split at committed
    · cases committed
    rename_i secret parsed
    split at committed
    · cases committed
    · cases committed
    rename_i access library notice appliedAccess
    cases committed
    obtain ⟨patched, applied⟩ := Access.apply_some appliedAccess
    obtain ⟨book, almanac, amended⟩ := Library.apply_some patched
    have payload : change.payload.bind parse = (change.payload.map parse).bind id := by
      cases change.payload <;> rfl
    refine .inr ⟨change.key, _, applied, ?_⟩
    intro other
    simp only [stored, amended.installed, amended.previous, if_true, Option.bind_some,
      amended.patched.entries, Assoc.get?_amend]
    by_cases same : other = change.key
    · simp [same, payload]
    · simp [same]
  rename_i elsewhere
  split at committed
  · cases committed
  · cases committed
  rename_i library notice patched
  cases committed
  obtain ⟨book, almanac, amended⟩ := Library.apply_some patched
  refine .inl ⟨rfl, ?_⟩
  simp [amended.installed, Ne.symm elsewhere]

variable {receiver : Receiver}

/-- One round of the update loop moves the store as its commit does, or not at all. -/
theorem patch_moves {after : Receiver} {patch : Patch}
    (taken : Receiver.patch parse store receiver scope patch = .ok (next, after))
    : (Unmoved store next ∨ ∃ key secret, Amends parse store next key secret)
      ∧ ∃ version, after = receiver.acknowledge scope version := by
  unfold Receiver.patch at taken
  split at taken
  · cases taken
  split at taken
  · cases taken
  rename_i committed outcome
  cases taken
  refine ⟨?_, _, rfl⟩
  cases committed with
  | none => exact .inl ⟨rfl, rfl⟩
  | some moved => exact commit_moves parse outcome

def Patching : Shared → Shared → Prop :=
  Relation.ReflTransGen fun before after =>
    Unmoved before after ∨ ∃ key secret, Amends parse before after key secret

/-- Remembering a position for an acknowledgement keeps a stream coherent. -/
theorem Coherent.acknowledge (coherent : Coherent parse receiver) (scope : Scope) (version : Nat)
    : Coherent parse (receiver.acknowledge scope version) := coherent

/-- A failed stream is coherent: nothing reads its index any more. -/
theorem coherent_fail (receiver : Receiver) : Coherent parse receiver.fail := by
  intro failed
  cases failed

/-- The update loop commits a prefix of its patches. Witness: induction over the patches.
-/
theorem patches_moves (scope : Scope) (store : Shared) (receiver : Receiver)
    (items : List Patch) (coherent : Coherent parse receiver)
    : Patching parse store (Receiver.patches parse scope store receiver items).1
      ∧ Coherent parse (Receiver.patches parse scope store receiver items).2.1 := by
  induction items generalizing store receiver with
  | nil => exact ⟨.refl, coherent⟩
  | cons patch rest ih =>
      unfold Receiver.patches
      split
      · exact ⟨.refl, coherent⟩
      rename_i next after taken
      obtain ⟨moved, version, acknowledged⟩ := patch_moves parse taken
      obtain ⟨continued, still⟩ :=
        ih next after (acknowledged ▸ coherent.acknowledge parse scope version)
      exact ⟨.head moved continued, still⟩

/-- Filling a candidate keeps its index exact. Witness: induction over the records; each is
added to both sides under the same key.
-/
theorem fill_indexed {next : Option Access.Draft} {after : Library.Draft}
    {entries : List AlmanacChange} (indexed : Indexed parse credentials draft)
    (filled : Receiver.fill parse credentials draft entries = .ok (next, after))
    : Indexed parse next after := by
  induction entries generalizing credentials draft with
  | nil =>
      cases credentials <;> cases filled <;> exact indexed
  | cons entry rest ih =>
      cases credentials with
      | none =>
          unfold Receiver.fill at filled
          split at filled
          · cases filled
          rename_i added accepted
          refine ih ?_ filled
          obtain ⟨scope, _⟩ := Library.Draft.set_ok accepted
          exact fun isAuth => indexed (scope ▸ isAuth)
      | some credentials =>
          unfold Receiver.fill at filled
          split at filled
          · cases filled
          rename_i index indexedEntry
          split at filled
          · cases filled
          rename_i added accepted
          refine ih ?_ filled
          obtain ⟨secret, parsed, set⟩ := Option.bind_eq_some_iff.mp indexedEntry
          obtain ⟨scope, _, _, set'⟩ := Library.Draft.set_ok accepted
          obtain ⟨_, _, content, _⟩ := Almanac.Draft.set_ok set'
          refine ⟨scope ▸ indexed.1, fun key => ?_⟩
          simp only [Access.Draft.set_some set, content, Assoc.get?_set]
          by_cases same : key = entry.key
          · simp [same, parsed]
          · simp [same, indexed.2 key]

/-- Opening or continuing a candidate moves nothing and starts with an exact index. -/
theorem candidate_indexed (coherent : Coherent parse receiver) (active : receiver.failed = false)
    (opened
      : Receiver.candidate store receiver scope version = .ok (next, credentials, draft))
    : Indexed parse credentials draft ∧ Unmoved store next := by
  have exact := coherent active
  unfold Receiver.candidate at opened
  split at opened
  next current isOpen =>
    cases opened
    rw [isOpen] at exact
    exact ⟨exact, rfl, rfl⟩
  rename_i isClosed
  rw [isClosed] at exact
  split at opened
  · cases opened
  rename_i library prepared outcome
  cases opened
  obtain ⟨books, address, _, empty⟩ := Library.prepare_ok outcome
  refine ⟨?_, rfl, by simp [Library.installed, books]⟩
  by_cases isAuth : scope = Scope.auth
  · rw [if_pos isAuth]
    exact ⟨address.trans isAuth, by simp [empty]⟩
  · rw [if_neg isAuth, exact]
    exact fun same => isAuth (address ▸ same)

variable {after before : Shared}

/-- The moves of a store compose with an earlier step that left the credentials alone. -/
theorem Replaces.after_unmoved {middle : Shared} {credentials : Access.Draft}
    (first : Unmoved before middle) (second : Replaces parse middle after credentials draft)
    : Replaces parse before after credentials draft := by
  refine ⟨second.indexed, first.access ▸ second.access, second.installed, ?_⟩
  have same : version? before.library = version? middle.library := by
    rw [version?, version?, first.installed]
  exact same ▸ second.moved

/-- A snapshot page leaves the credentials alone or replaces them all. -/
theorem snapshot_moves {after : Receiver} {page : Snapshot} (coherent : Coherent parse receiver)
    (active : receiver.failed = false)
    (taken : Receiver.snapshot parse store receiver page = .ok (next, after))
    : (Unmoved store next ∨ ∃ credentials draft, Replaces parse store next credentials draft)
      ∧ Coherent parse after := by
  unfold Receiver.snapshot at taken
  split at taken
  · cases taken
  split at taken
  · cases taken
  split at taken
  · cases taken
  split at taken
  · cases taken
  rename_i middle credentials draft opened
  obtain ⟨indexed, still⟩ := candidate_indexed parse coherent active opened
  split at taken
  · cases taken
  split at taken
  · cases taken
  rename_i filledCredentials filledDraft filled
  have exact := fill_indexed parse indexed filled
  split at taken
  · split at taken
    · cases taken
    rename_i installed outcome
    cases taken
    refine ⟨?_, fun _ => rfl⟩
    cases installed with
    | none => exact .inl still
    | some moved =>
        rcases install_moves parse exact outcome with unmoved | ⟨index, replaced⟩
        · exact .inl ⟨unmoved.access.trans still.access, unmoved.installed.trans still.installed⟩
        · exact .inr ⟨index, _, replaced.after_unmoved parse still⟩
  · cases taken
    exact ⟨.inl still, fun _ => exact⟩

/-- What one frame can do: a snapshot page may replace the whole table, any other frame at
most commits patches.
-/
def Moves (packet : Packet) (before after : Shared) : Prop :=
  match packet.body with
  | .snapshot _ =>
      Unmoved before after ∨ ∃ credentials draft, Replaces parse before after credentials draft
  | _ => Patching parse before after

/-- A frame that does not move the store, whatever its kind. -/
theorem moves_refl (packet : Packet) (store : Shared) : Moves parse packet store store := by
  unfold Moves
  split
  · exact .inl ⟨rfl, rfl⟩
  · exact .refl

/-- Dispatching one frame moves the store by its kind and keeps an open stream coherent.
Witness: one case for each kind of frame; only snapshots and updates reach the store.
-/
theorem process_moves (store : Shared) (receiver : Receiver) (packet : Packet)
    (coherent : Coherent parse receiver) (active : receiver.failed = false)
    : Moves parse packet store (Receiver.process parse store receiver packet).1
      ∧ Coherent parse (Receiver.process parse store receiver packet).2.1 := by
  obtain ⟨body, size⟩ := packet
  by_cases large : size > 8 * 1024 * 1024
  · simp only [Receiver.process, large, if_true]
    exact ⟨moves_refl parse _ store, coherent⟩
  cases body with
  | plan page =>
      simp only [Receiver.process, large, if_false]
      cases taken : Receiver.takePlan store.library receiver page with
      | error status => exact ⟨moves_refl parse _ store, coherent⟩
      | ok planned =>
          refine ⟨moves_refl parse _ store, ?_⟩
          unfold Receiver.takePlan at taken
          split at taken
          · cases taken
          split at taken <;> cases taken
          exact coherent
  | snapshot page =>
      simp only [Receiver.process, large, if_false]
      split
      · exact ⟨moves_refl parse _ store, coherent⟩
      cases taken : Receiver.snapshot parse store receiver page with
      | error status => exact ⟨moves_refl parse _ store, coherent⟩
      | ok result => exact snapshot_moves parse coherent active taken
  | updates page =>
      simp only [Receiver.process, large, if_false]
      split
      · exact ⟨moves_refl parse _ store, coherent⟩
      unfold Receiver.updates
      split
      · exact ⟨.refl, coherent⟩
      · exact patches_moves parse page.scope store receiver page.patches coherent
  | probe =>
      simp only [Receiver.process, large, if_false]
      split
      · exact ⟨.refl, coherent⟩
      split <;> exact ⟨.refl, coherent⟩
  | ready =>
      simp only [Receiver.process, large, if_false]
      split
      · exact ⟨.refl, coherent⟩
      split
      · exact ⟨.refl, coherent⟩
      split <;> exact ⟨.refl, coherent⟩
  | unset | hello | inventory | acknowledged =>
      simp only [Receiver.process, large, if_false]
      split <;> exact ⟨.refl, coherent⟩

/-- Receiving one frame moves the store by its kind, and the stream stays coherent. -/
theorem receive_moves (store : Shared) (receiver : Receiver) (packet : Packet)
    (coherent : Coherent parse receiver)
    : Moves parse packet store (Receiver.receive parse store receiver packet).1
      ∧ Coherent parse (Receiver.receive parse store receiver packet).2.1 := by
  unfold Receiver.receive
  split
  · exact ⟨moves_refl parse packet store, coherent⟩
  rename_i active
  have processed :=
    process_moves parse store receiver packet coherent (by simpa using active)
  split
  next taken =>
    rw [taken] at processed
    exact processed
  rename_i taken
  rw [taken] at processed
  exact ⟨processed.1, coherent_fail parse _⟩

-- The two invariants

theorem Unmoved.agrees (unmoved : Unmoved before after) (agrees : Agrees parse before)
    : Agrees parse after := by
  intro key
  rw [unmoved.access, stored, unmoved.installed]
  exact agrees key

theorem Replaces.agrees {credentials : Access.Draft}
    (replaced : Replaces parse before after credentials draft)
    : Agrees parse after := by
  intro key
  obtain ⟨_, equal⟩ := Access.reset_some replaced.access
  simp [stored, replaced.installed, equal, Access.secret?, replaced.indexed.2 key,
    Function.comp_def]

theorem Amends.agrees {key : Bytes} {secret : Option Bytes}
    (amended : Amends parse before after key secret) (agrees : Agrees parse before)
    : Agrees parse after := by
  intro other
  rw [amended.access.secrets, amended.stored, agrees other]

theorem Patching.agrees (patching : Patching parse before after) (agrees : Agrees parse before)
    : Agrees parse after := by
  induction patching with
  | refl => exact agrees
  | tail _ moved ih =>
      rcases moved with unmoved | ⟨key, secret, amended⟩
      · exact unmoved.agrees parse ih
      · exact amended.agrees parse ih

theorem Moves.agrees {packet : Packet} (moves : Moves parse packet before after)
    (agrees : Agrees parse before)
    : Agrees parse after := by
  unfold Moves at moves
  split at moves
  · rcases moves with unmoved | ⟨credentials, draft, replaced⟩
    · exact unmoved.agrees parse agrees
    · exact replaced.agrees parse
  · exact Patching.agrees parse moves agrees

end

end Astra.Credentials
