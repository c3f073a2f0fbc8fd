import Verdandi.Common.Scope
import Verdandi.Support.Assoc

/-! The directory of the control services: the newest identity that was seen of each deployment,
from full lists and from handshakes.
-/

namespace Polaris

open Support
open Astra (Bytes)

-- Members

inductive Role where
  | star
  | planet
  | polaris
  | astrolabe
  | unknown (number : Int)
  deriving DecidableEq, Repr

structure Member where
  galaxy : Bytes
  id : Bytes
  principal : Bytes
  advertise : Bytes
  epoch : Nat
  role : Role
  group : Bytes
  deriving DecidableEq, Repr

structure Platform where
  verify : Bytes → Bytes → Bool
  unmarshal : Bytes → Option Member
  utf8 : Bytes → Bool
  endpoint : Bytes → Bool

/-- `Name`: 1 to 64 safe ASCII characters. -/
def name (value : Bytes) : Bool :=
  !value.isEmpty && decide (value.length ≤ 64) && value.all fun char =>
      (97 ≤ char && char ≤ 122) || (65 ≤ char && char ≤ 90) || (48 ≤ char && char ≤ 57)
        || char == 46 || char == 95 || char == 45

def Role.valid : Role → Bool
  | .unknown _ => false
  | _ => true

/-- `Valid`: the format of a member. -/
def Member.valid (platform : Platform) (member : Member) : Bool :=
  name member.galaxy && name member.group && !member.id.isEmpty
    && decide (member.id.length ≤ 128) && platform.utf8 member.id && member.epoch != 0
    && member.role.valid && member.principal.length == 32 && platform.endpoint member.advertise

/-- `proto.orbit.v1.admission` with the NUL behind it. -/
def context : Bytes :=
  [112, 114, 111, 116, 111, 46, 111, 114, 98, 105, 116, 46, 118, 49, 46, 97, 100, 109, 105, 115,
    115, 105, 111, 110, 0]

/-- `Identity.Verify`: the member of a credential that was signed. -/
def verifyIdentity (platform : Platform) (data signature : Bytes) : Option Member :=
  if data.isEmpty || data.length > 1024 || signature.length != 64 then
    none
  else if platform.verify (context ++ data) signature then
    (platform.unmarshal data).filter (·.valid platform)
  else
    none

-- The directory

inductive Fault where
  | identity
  | exhausted
  | rejected
  | conflicting
  deriving DecidableEq, Repr

structure Directory where
  galaxy : Bytes
  role : Role
  maximum : Nat
  known : Assoc Bytes Member

namespace Directory

/-- `NewDirectory`: `maximum` counts the deployments, also those that are away. -/
def create (galaxy : Bytes) (role : Role) (maximum : Nat) : Except Fault Directory :=
  if !name galaxy || !role.valid || role == .planet || maximum < 1 || maximum > 16384 then
    .error .identity
  else
    .ok { galaxy, role, maximum, known := ∅ }

/-- What `Install` asks of a single member of its list. -/
def admits (platform : Platform) (directory : Directory) (member : Member) : Bool :=
  member.valid platform && member.galaxy == directory.galaxy
    && (directory.role == .astrolabe || member.role == .star || member.role == .polaris)

/-- The list by principals: in the order of the ids, with no deployment and no address twice. -/
def collect (platform : Platform) (directory : Directory)
    : List (Option Member) → Option Bytes → Assoc Bytes Member → List Bytes →
      Except Fault (Assoc Bytes Member)
  | [], _, prepared, _ => .ok prepared
  | none :: _, _, _, _ => .error .identity
  | some member :: rest, previous, prepared, addresses =>
      if !directory.admits platform member
          || previous.any (fun last => !decide (last < member.id))
          || prepared.contains member.principal || addresses.contains member.advertise then
        .error .identity
      else
        directory.collect platform rest (some member.id) (prepared.set member.principal member)
          (member.advertise :: addresses)

/-- Whether a member cannot follow the one that is known of its deployment. -/
def conflicts (member old : Member) : Bool :=
  (member.epoch == old.epoch && member != old) || member.role != old.role
    || member.advertise != old.advertise || (member.epoch > old.epoch && member.id == old.id)

/-- What is known stays where the list has nothing or an older identity. -/
def merge : List (Bytes × Member) → Assoc Bytes Member → Except Fault (Assoc Bytes Member)
  | [], prepared => .ok prepared
  | (principal, old) :: rest, prepared =>
      match prepared.get? principal with
      | none => merge rest (prepared.set principal old)
      | some incoming =>
          if incoming.epoch < old.epoch then
            merge rest (prepared.set principal old)
          else if conflicts incoming old then
            .error .identity
          else
            merge rest prepared

def aliased : List Member → List Bytes → List Bytes → Bool
  | [], _, _ => false
  | member :: rest, addresses, ids =>
      addresses.contains member.advertise || ids.contains member.id
        || aliased rest (member.advertise :: addresses) (member.id :: ids)

/-- `Install`: merge a full list into what is known, or change nothing. -/
def install (platform : Platform) (directory : Directory) (members : List (Option Member))
    : Except Fault Directory :=
  if members.length > directory.maximum then
    .error .exhausted
  else
    match directory.collect platform members none ∅ [] with
    | .error fault => .error fault
    | .ok collected =>
        match merge directory.known.toPairs collected with
        | .error fault => .error fault
        | .ok prepared =>
            if prepared.size > directory.maximum then
              .error .exhausted
            else if aliased (prepared.toPairs.map Prod.snd) [] [] then
              .error .identity
            else
              .ok { directory with known := prepared }

def distinct (directory : Directory) (member : Member) : Bool :=
  directory.known.toPairs.all fun (principal, known) =>
    principal == member.principal
      || !(known.id == member.id || known.advertise == member.advertise)

def observe (directory : Directory) (member : Member) : Except Fault Directory :=
  match directory.known.get? member.principal with
  | some old =>
      if member.epoch < old.epoch || conflicts member old then
        .error .identity
      else if member == old then
        .ok directory
      else if directory.distinct member then
        .ok { directory with known := directory.known.set member.principal member }
      else
        .error .identity
  | none =>
      if directory.known.size = directory.maximum then
        .error .exhausted
      else if directory.distinct member then
        .ok { directory with known := directory.known.set member.principal member }
      else
        .error .identity

/-- `Verify`: a signed credential in one of these roles. -/
def verify (platform : Platform) (directory : Directory) (data signature : Bytes)
    (roles : List Role)
    : Except Fault (Directory × Member) :=
  match verifyIdentity platform data signature with
  | none => .error .rejected
  | some member =>
      if member.galaxy != directory.galaxy || !roles.contains member.role then
        .error .rejected
      else
        match directory.observe member with
        | .error .exhausted => .error .exhausted
        | .error _ => .error .conflicting
        | .ok after => .ok (after, member)

/-- `Current`: whether this is the newest identity known of its deployment. -/
def current (directory : Directory) (member : Option Member) : Bool :=
  match member with
  | none => false
  | some member => directory.known.get? member.principal == some member

-- Calls

inductive Call where
  | install (members : List (Option Member))
  | verify (data signature : Bytes) (roles : List Role)

def call (platform : Platform) (directory : Directory) : Call → Except Fault Directory
  | .install members => directory.install platform members
  | .verify data signature roles =>
      match directory.verify platform data signature roles with
      | .error fault => .error fault
      | .ok (after, _) => .ok after

/-- The directory after a call, which is the same directory if the call fails. -/
def apply (platform : Platform) (directory : Directory) (request : Call) : Directory :=
  match directory.call platform request with
  | .error _ => directory
  | .ok after => after

def run (platform : Platform) (directory : Directory) (calls : List Call) : Directory :=
  calls.foldl (apply platform) directory

/-- Whether every one of these calls succeeds, one after the other. -/
def succeeds (platform : Platform) (directory : Directory) : List Call → Prop
  | [] => True
  | request :: rest =>
      ∃ after, directory.call platform request = .ok after ∧ after.succeeds platform rest

def Call.offers (platform : Platform) : Call → List Member
  | .install members => members.filterMap id
  | .verify data signature _ => (verifyIdentity platform data signature).toList

-- What a list does

variable {platform : Platform} {directory after : Directory}

variable {members : List (Option Member)} {prepared : Assoc Bytes Member} {addresses : List Bytes}

/-- A collected list has its members under their principals, by induction on the list. -/
theorem collect_spec {previous : Option Bytes} {collected : Assoc Bytes Member}
    (done : directory.collect platform members previous prepared addresses = .ok collected)
    (principal : Bytes) (member : Member)
    : collected.get? principal = some member ↔ prepared.get? principal = some member
        ∨ (some member ∈ members ∧ member.principal = principal) := by
  induction members generalizing previous prepared addresses with
  | nil =>
      cases done
      simp
  | cons entry rest ih =>
      cases entry with
      | none => cases done
      | some first =>
          unfold collect at done
          split at done
          · cases done
          rename_i accepted
          have fresh : prepared.get? first.principal = none := by
            simp only [Bool.or_eq_true, not_or, Bool.not_eq_true] at accepted
            exact (prepared.contains_eq_false_iff _).mp accepted.1.2
          rw [ih done, Assoc.get?_set]
          simp only [List.mem_cons, Option.some.injEq]
          by_cases same : principal = first.principal
          · subst same
            rw [if_pos rfl, fresh]
            simp only [Option.some.injEq, reduceCtorEq, false_or]
            constructor
            · rintro (rfl | ⟨later, named⟩)
              · exact ⟨.inl rfl, rfl⟩
              · exact ⟨.inr later, named⟩
            · rintro ⟨rfl | later, named⟩
              · exact .inl rfl
              · exact .inr ⟨later, named⟩
          · rw [if_neg same]
            constructor
            · rintro (held | ⟨later, named⟩)
              · exact .inl held
              · exact .inr ⟨.inr later, named⟩
            · rintro (held | ⟨rfl | later, named⟩)
              · exact .inl held
              · exact absurd named.symm same
              · exact .inr ⟨later, named⟩

inductive Merged (prepared known result : Option Member) : Prop where
  | fresh (unknown : known = none) (taken : result = prepared)
  | kept {old : Member} (held : known = some old) (stays : result = some old)
      (late : ∀ incoming, prepared = some incoming → incoming.epoch < old.epoch)
  | newer {old incoming : Member} (held : known = some old) (offered : prepared = some incoming)
      (agrees : conflicts incoming old = false) (recent : old.epoch ≤ incoming.epoch)
      (taken : result = some incoming)

/-- By induction on what was known; a principal is there once. -/
theorem merge_spec {known : List (Bytes × Member)} {result : Assoc Bytes Member}
    (nodup : (known.map Prod.fst).Nodup) (done : merge known prepared = .ok result)
    (principal : Bytes)
    : Merged (prepared.get? principal) (known.lookup principal) (result.get? principal) := by
  induction known generalizing prepared with
  | nil =>
      cases done
      exact .fresh rfl rfl
  | cons entry rest ih =>
      obtain ⟨name, old⟩ := entry
      obtain ⟨absent, others⟩ := List.nodup_cons.mp nodup
      have unlisted : rest.lookup name = none := by
        rw [List.lookup_eq_none_iff]
        intro other member
        rw [bne_iff_ne]
        intro same
        exact absent (List.mem_map.mpr ⟨other, member, same.symm⟩)
      by_cases same : principal = name
      · subst same
        rw [List.lookup_cons_self]
        simp only [merge] at done
        -- The rest of what is known has no entry for this principal.
        have untouched {start : Assoc Bytes Member} (rested : merge rest start = .ok result)
            : result.get? principal = start.get? principal := by
          rcases ih others rested with ⟨_, taken⟩ | ⟨held, _⟩ | ⟨held, _⟩
          · exact taken
          · rw [unlisted] at held
            cases held
          · rw [unlisted] at held
            cases held
        split at done
        next missing =>
          rw [missing]
          exact .kept rfl (by simpa using untouched done) nofun
        rename_i incoming offered
        rw [offered]
        split at done
        next late =>
          exact .kept rfl (by simpa using untouched done) fun other equal => by
            cases equal
            exact late
        rename_i recent
        split at done
        · cases done
        rename_i agrees
        exact .newer rfl rfl (by simpa using agrees) (Nat.le_of_not_lt recent)
          ((untouched done).trans offered)
      · have skipped : ((name, old) :: rest).lookup principal = rest.lookup principal := by
          have differs : (principal == name) = false := by simpa using same
          simp only [List.lookup_cons, differs]
        rw [skipped]
        simp only [merge] at done
        split at done
        · simpa [same] using ih others done
        rename_i incoming offered
        split at done
        · simpa [same] using ih others done
        · split at done
          · cases done
          · exact ih others done

/-- Without aliases all ids and all addresses differ, by induction on the members. -/
theorem aliased_spec {members : List Member} {ids : List Bytes}
    (plain : aliased members addresses ids = false)
    : (∀ member ∈ members, member.advertise ∉ addresses ∧ member.id ∉ ids)
      ∧ members.Pairwise fun one other => one.id ≠ other.id ∧ one.advertise ≠ other.advertise := by
  induction members generalizing addresses ids with
  | nil => exact ⟨nofun, List.Pairwise.nil⟩
  | cons member rest ih =>
      simp only [aliased, Bool.or_eq_false_iff] at plain
      obtain ⟨others, apart⟩ := ih plain.2
      refine ⟨?_, ?_⟩
      · intro other found
        rcases List.mem_cons.mp found with rfl | later
        · exact ⟨by simpa using plain.1.1, by simpa using plain.1.2⟩
        · obtain ⟨address, name⟩ := others other later
          exact ⟨fun old => address (List.mem_cons_of_mem _ old),
            fun old => name (List.mem_cons_of_mem _ old)⟩
      · refine List.Pairwise.cons (fun other later => ?_) apart
        obtain ⟨address, name⟩ := others other later
        exact ⟨fun same => name (same ▸ List.mem_cons_self),
          fun same => address (same ▸ List.mem_cons_self)⟩

-- What a call does

/-- Every member is under its principal, no two share an id or an address, and there are no more
than the maximum.
-/
structure Sound (directory : Directory) : Prop where
  keyed
    : ∀ principal member,
        directory.known.get? principal = some member → member.principal = principal
  apart
    : ∀ one other left right, one ≠ other → directory.known.get? one = some left →
        directory.known.get? other = some right →
        left.id ≠ right.id ∧ left.advertise ≠ right.advertise
  bounded : directory.known.size ≤ directory.maximum

structure Supersedes (now old : Member) : Prop where
  epoch : old.epoch < now.epoch
  role : now.role = old.role
  advertise : now.advertise = old.advertise

structure Follows (before after : Directory) (offers : List Member) : Prop where
  fixed
    : after.galaxy = before.galaxy ∧ after.role = before.role ∧ after.maximum = before.maximum
  kept
    : ∀ principal old, before.known.get? principal = some old →
        ∃ now, after.known.get? principal = some now ∧ (now = old ∨ Supersedes now old)
  source
    : ∀ principal now, after.known.get? principal = some now →
        before.known.get? principal = some now ∨ (now ∈ offers ∧ now.principal = principal)
  offered
    : ∀ member ∈ offers, ∃ now, after.known.get? member.principal = some now
          ∧ (member.epoch < now.epoch ∨ member = now)

variable {member : Member}

/-- What does not conflict is the same or newer. -/
theorem supersedes_of_not_conflicts {old : Member} (agrees : conflicts member old = false)
    (recent : old.epoch ≤ member.epoch)
    : member = old ∨ Supersedes member old := by
  simp only [conflicts, Bool.or_eq_false_iff, Bool.and_eq_false_iff, beq_eq_false_iff_ne,
    bne_eq_false_iff_eq] at agrees
  obtain ⟨⟨⟨same, role⟩, advertise⟩, _⟩ := agrees
  rcases same with differs | equal
  · exact .inr ⟨by omega, role, advertise⟩
  · exact .inl equal

theorem distinct_spec (distinct : directory.distinct member = true) {principal : Bytes}
    {known : Member} (held : directory.known.get? principal = some known)
    (other : principal ≠ member.principal)
    : known.id ≠ member.id ∧ known.advertise ≠ member.advertise := by
  have all := List.all_eq_true.mp distinct (principal, known) ((Assoc.mem_toPairs _ _ _).mpr held)
  simpa [other] using all

theorem lookup_toPairs (known : Assoc Bytes Member) (principal : Bytes)
    : known.toPairs.lookup principal = known.get? principal := by
  have nodup : (known.toPairs.map Prod.fst).Nodup := by
    rw [← Assoc.keys_eq_toPairs]
    exact known.nodup_keys
  -- Nothing to merge with gives back what is known.
  cases held : known.get? principal with
  | none =>
      rw [List.lookup_eq_none_iff]
      intro entry member
      rw [bne_iff_ne]
      rintro rfl
      rw [(Assoc.mem_toPairs _ _ _).mp member] at held
      cases held
  | some old =>
      obtain ⟨before, rest, split⟩ := List.append_of_mem ((Assoc.mem_toPairs _ _ _).mpr held)
      rw [List.lookup_eq_some_iff]
      refine ⟨before, rest, split, fun entry member => ?_⟩
      rw [split, List.map_append, List.map_cons] at nodup
      rw [bne_iff_ne]
      rintro rfl
      exact (List.disjoint_of_nodup_append nodup) (List.mem_map_of_mem member) List.mem_cons_self

theorem install_follows (sound : directory.Sound)
    (done : directory.install platform members = .ok after)
    : Follows directory after (members.filterMap id) ∧ after.Sound := by
  unfold install at done
  split at done
  · cases done
  split at done
  · cases done
  rename_i collected gathered
  split at done
  · cases done
  rename_i prepared merged
  split at done
  · cases done
  rename_i bounded
  split at done
  · cases done
  rename_i plain
  cases done
  have nodup : (directory.known.toPairs.map Prod.fst).Nodup := by
    rw [← Assoc.keys_eq_toPairs]
    exact directory.known.nodup_keys
  have result (principal : Bytes) := merge_spec nodup merged principal
  simp only [lookup_toPairs] at result
  have listed (principal : Bytes) (member : Member)
      : collected.get? principal = some member
        ↔ some member ∈ members ∧ member.principal = principal := by
    simpa using collect_spec gathered principal member
  constructor
  · constructor
    · exact ⟨rfl, rfl, rfl⟩
    · intro principal old held
      rcases result principal with ⟨unknown, _⟩ | ⟨same, stays, _⟩
        | ⟨same, _, agrees, recent, taken⟩
      · rw [unknown] at held
        cases held
      · rw [held] at same
        cases same
        exact ⟨old, stays, .inl rfl⟩
      · rw [held] at same
        cases same
        exact ⟨_, taken, supersedes_of_not_conflicts agrees recent⟩
    · intro principal now found
      have offer {member : Member} (taken : collected.get? principal = some member)
          : member ∈ members.filterMap id ∧ member.principal = principal := by
        obtain ⟨inside, named⟩ := (listed principal member).mp taken
        exact ⟨List.mem_filterMap.mpr ⟨_, inside, rfl⟩, named⟩
      rcases result principal with ⟨_, taken⟩ | ⟨held, stays, _⟩
        | ⟨_, offered, _, _, taken⟩
      · exact .inr (offer (taken ▸ found))
      · rw [stays] at found
        exact .inl (found ▸ held)
      · rw [taken] at found
        exact .inr (offer (found ▸ offered))
    · intro member offer
      obtain ⟨entry, inside, rfl⟩ := List.mem_filterMap.mp offer
      have taken := (listed member.principal member).mpr ⟨inside, rfl⟩
      rcases result member.principal with ⟨_, same⟩ | ⟨_, stays, late⟩
        | ⟨_, offered, _, _, same⟩
      · exact ⟨member, same.trans taken, .inr rfl⟩
      · exact ⟨_, stays, .inl (late member taken)⟩
      · rw [taken] at offered
        cases offered
        exact ⟨member, same, .inr rfl⟩
  · constructor
    · intro principal member found
      rcases result principal with ⟨_, taken⟩ | ⟨held, stays, _⟩
        | ⟨_, offered, _, _, taken⟩
      · exact ((listed principal member).mp (taken ▸ found)).2
      · rw [stays] at found
        exact sound.keyed principal member (found ▸ held)
      · rw [taken] at found
        exact ((listed principal member).mp (found ▸ offered)).2
    · intro one other left right differ held found
      have apart := (aliased_spec (by simpa using plain)).2
      rw [List.pairwise_map] at apart
      have symmetric : Std.Symm fun one other : Bytes × Member =>
          one.2.id ≠ other.2.id ∧ one.2.advertise ≠ other.2.advertise :=
        ⟨fun _ _ both => ⟨both.1.symm, both.2.symm⟩⟩
      exact apart.forall ((Assoc.mem_toPairs _ _ _).mpr held)
        ((Assoc.mem_toPairs _ _ _).mpr found) (by simp [differ])
    · exact Nat.le_of_not_lt bounded

/-- A member takes the place of an older one, or a free place. -/
theorem set_follows (sound : directory.Sound)
    (distinct : directory.distinct member = true)
    (newer
      : ∀ old, directory.known.get? member.principal = some old → Supersedes member old)
    (room
      : directory.known.get? member.principal = none → directory.known.size < directory.maximum)
    : Follows directory { directory with known := directory.known.set member.principal member }
        [member]
      ∧ Sound { directory with known := directory.known.set member.principal member } := by
  constructor
  · constructor
    · exact ⟨rfl, rfl, rfl⟩
    · intro principal old held
      simp only [Assoc.get?_set]
      split
      next same => exact ⟨member, rfl, .inr (newer old (same ▸ held))⟩
      · exact ⟨old, held, .inl rfl⟩
    · intro principal now found
      simp only [Assoc.get?_set] at found
      split at found
      next same =>
        cases found
        exact .inr ⟨List.mem_singleton_self _, same.symm⟩
      · exact .inl found
    · intro other offer
      rw [List.mem_singleton.mp offer]
      exact ⟨member, by simp, .inr rfl⟩
  · constructor
    · intro principal other found
      simp only [Assoc.get?_set] at found
      split at found
      next same =>
        cases found
        exact same.symm
      · exact sound.keyed principal other found
    · intro one other left right differ held found
      simp only [Assoc.get?_set] at held found
      split at held
      next mine =>
        cases held
        rw [if_neg fun same => differ (mine.trans same.symm)] at found
        have apart := distinct_spec distinct found fun same => differ (mine.trans same.symm)
        exact ⟨apart.1.symm, apart.2.symm⟩
      rename_i foreign
      split at found
      next mine =>
        cases found
        exact distinct_spec distinct held foreign
      · exact sound.apart one other left right differ held found
    · cases held : directory.known.get? member.principal with
      | none =>
          rw [Assoc.size_set_of_none held]
          exact room held
      | some old =>
          rw [Assoc.size_set_of_some held]
          exact sound.bounded

theorem observe_follows (sound : directory.Sound) (done : directory.observe member = .ok after)
    : Follows directory after [member] ∧ after.Sound := by
  unfold observe at done
  split at done
  next old held =>
    split at done
    · cases done
    rename_i agrees
    simp only [Bool.or_eq_true, decide_eq_true_eq, not_or, Bool.not_eq_true] at agrees
    have follows := supersedes_of_not_conflicts agrees.2 (Nat.le_of_not_lt agrees.1)
    split at done
    next same =>
      cases done
      have equal : member = old := by simpa using same
      refine ⟨⟨⟨rfl, rfl, rfl⟩, fun _ old held => ⟨old, held, .inl rfl⟩,
        fun _ _ found => .inl found, fun other offer => ?_⟩, sound⟩
      rw [List.mem_singleton.mp offer]
      exact ⟨old, held, .inr equal⟩
    rename_i other
    split at done
    next distinct =>
      cases done
      apply set_follows sound distinct
      · intro known found
        rw [held] at found
        cases found
        exact follows.resolve_left (by simpa using other)
      · intro free
        rw [held] at free
        cases free
    · cases done
  rename_i free
  split at done
  · cases done
  rename_i room
  split at done
  next distinct =>
    cases done
    apply set_follows sound distinct
    · intro known found
      rw [free] at found
      cases found
    · intro _
      exact Nat.lt_of_le_of_ne sound.bounded room
  · cases done

/-- What a call does that succeeds. -/
theorem call_follows {request : Call} (sound : directory.Sound)
    (done : directory.call platform request = .ok after)
    : Follows directory after (request.offers platform) ∧ after.Sound := by
  cases request with
  | install members => exact install_follows sound done
  | verify data signature roles =>
      simp only [call] at done
      split at done
      · cases done
      rename_i after' member checked
      cases done
      unfold verify at checked
      split at checked
      · cases checked
      rename_i signed verified
      split at checked
      · cases checked
      · split at checked
        · cases checked
        · cases checked
        rename_i observed
        cases checked
        simp only [Call.offers, verified, Option.toList_some]
        exact observe_follows sound observed

-- Runs

/-- What stays of what was known: the deployment, its role and its address, at the same identity or
a newer one.
-/
structure Keeps (before after : Directory) : Prop where
  fixed
    : after.galaxy = before.galaxy ∧ after.role = before.role ∧ after.maximum = before.maximum
  known
    : ∀ principal old, before.known.get? principal = some old →
        ∃ now, after.known.get? principal = some now ∧ (now = old ∨ Supersedes now old)

theorem Keeps.refl (directory : Directory) : Keeps directory directory :=
  ⟨⟨rfl, rfl, rfl⟩, fun _ old held => ⟨old, held, .inl rfl⟩⟩

theorem Keeps.trans {first second third : Directory} (early : Keeps first second)
    (late : Keeps second third)
    : Keeps first third where
  fixed :=
    ⟨late.fixed.1.trans early.fixed.1, late.fixed.2.1.trans early.fixed.2.1,
      late.fixed.2.2.trans early.fixed.2.2⟩
  known principal old held := by
    obtain ⟨now, found, step⟩ := early.known principal old held
    obtain ⟨last, there, next⟩ := late.known principal now found
    refine ⟨last, there, ?_⟩
    rcases next with rfl | newer
    · exact step
    · rcases step with rfl | older
      · exact .inr newer
      · exact .inr ⟨older.epoch.trans newer.epoch, newer.role.trans older.role,
          newer.advertise.trans older.advertise⟩

theorem apply_keeps (platform : Platform) (sound : directory.Sound) (request : Call)
    : Keeps directory (directory.apply platform request)
      ∧ (directory.apply platform request).Sound := by
  unfold apply
  split
  · exact ⟨.refl directory, sound⟩
  rename_i after done
  obtain ⟨follows, kept⟩ := call_follows sound done
  exact ⟨⟨follows.fixed, follows.kept⟩, kept⟩

/-- By induction on the calls. -/
theorem run_keeps (platform : Platform) (sound : directory.Sound) (calls : List Call)
    : Keeps directory (directory.run platform calls) ∧ (directory.run platform calls).Sound := by
  induction calls generalizing directory with
  | nil => exact ⟨.refl directory, sound⟩
  | cons request rest ih =>
      obtain ⟨step, next⟩ := apply_keeps platform sound request
      obtain ⟨later, last⟩ := ih next
      exact ⟨step.trans later, last⟩

variable {galaxy : Bytes} {role : Role} {maximum : Nat}

theorem create_sound (made : create galaxy role maximum = .ok directory)
    : directory.Sound := by
  unfold create at made
  split at made
  · cases made
  · cases made
    exact ⟨nofun, nofun, Nat.zero_le _⟩

/-- A member that is known no more was superseded for good. -/
theorem not_current_again {first second third : Directory} (early : Keeps first second)
    (late : Keeps second third) (was : first.current (some member) = true)
    (gone : second.current (some member) = false)
    : third.current (some member) = false := by
  simp only [current, beq_iff_eq] at was
  obtain ⟨now, found, step⟩ := early.known _ _ was
  have newer : Supersedes now member := by
    refine step.resolve_left fun same => ?_
    subst same
    simp [current, found] at gone
  obtain ⟨last, there, next⟩ := late.known _ _ found
  simp only [current, there]
  rw [beq_eq_false_iff_ne]
  intro same
  have epoch := newer.epoch
  cases Option.some.inj same
  rcases next with rfl | again
  · omega
  · have := again.epoch
    omega

-- The order of calls

/-- The directory has the newest of what it knew and of what it was offered. -/
structure Newest (before after : Directory) (offers : List Member) : Prop where
  fixed
    : after.galaxy = before.galaxy ∧ after.role = before.role ∧ after.maximum = before.maximum
  source
    : ∀ principal now, after.known.get? principal = some now →
        before.known.get? principal = some now ∨ (now ∈ offers ∧ now.principal = principal)
  newest
    : ∀ principal member, before.known.get? principal = some member
            ∨ (member ∈ offers ∧ member.principal = principal) →
          ∃ now, after.known.get? principal = some now ∧ (member.epoch < now.epoch ∨ member = now)

/-- Which is one directory only. -/
theorem Newest.unique {before left right : Directory} {offers others : List Member}
    (one : Newest before left offers) (other : Newest before right others)
    (same : ∀ member, member ∈ offers ↔ member ∈ others)
    : left.known.get? = right.known.get? := by
  have half {left right : Directory} {offers others : List Member}
      (one : Newest before left offers) (other : Newest before right others)
      (same : ∀ member, member ∈ offers ↔ member ∈ others) (principal : Bytes) (now : Member)
      (found : left.known.get? principal = some now)
      : right.known.get? principal = some now := by
    have first := one.source principal now found
    obtain ⟨last, there, step⟩ := other.newest principal now (by simpa [same] using first)
    have second := other.source principal last there
    obtain ⟨back, here, again⟩ := one.newest principal last (by simpa [same] using second)
    rw [found] at here
    cases here
    rcases step with less | rfl
    · rcases again with more | rfl
      · omega
      · exact there
    · exact there
  funext principal
  apply Option.ext
  intro now
  exact ⟨half one other same principal now,
    half other one (fun member => (same member).symm) principal now⟩

/-- By induction on the calls. -/
theorem succeeds_newest (sound : directory.Sound) {calls : List Call}
    (all : directory.succeeds platform calls)
    : Newest directory (directory.run platform calls) (calls.flatMap (Call.offers platform)) := by
  induction calls generalizing directory with
  | nil =>
      exact ⟨⟨rfl, rfl, rfl⟩, fun _ _ found => .inl found,
        fun principal member either => ⟨member, by simpa [run] using either, .inr rfl⟩⟩
  | cons request rest ih =>
      obtain ⟨after, done, later⟩ := all
      obtain ⟨follows, kept⟩ := call_follows sound done
      have next := ih kept later
      have stepped : directory.run platform (request :: rest) = after.run platform rest := by
        simp [run, apply, done]
      rw [stepped, List.flatMap_cons]
      constructor
      · exact ⟨next.fixed.1.trans follows.fixed.1, next.fixed.2.1.trans follows.fixed.2.1,
          next.fixed.2.2.trans follows.fixed.2.2⟩
      · intro principal now found
        rcases next.source principal now found with before | ⟨offer, named⟩
        · rcases follows.source principal now before with old | ⟨offer, named⟩
          · exact .inl old
          · exact .inr ⟨List.mem_append_left _ offer, named⟩
        · exact .inr ⟨List.mem_append_right _ offer, named⟩
      · intro principal member either
        -- What the first call leaves of the member meets the rest.
        have through (middle : Member) (there : after.known.get? principal = some middle)
            (step : member.epoch < middle.epoch ∨ member = middle)
            : ∃ now, (after.run platform rest).known.get? principal = some now
                ∧ (member.epoch < now.epoch ∨ member = now) := by
          obtain ⟨now, found, last⟩ := next.newest principal middle (.inl there)
          refine ⟨now, found, ?_⟩
          rcases step with less | rfl
          · rcases last with more | rfl
            · exact .inl (less.trans more)
            · exact .inl less
          · exact last
        rcases either with old | ⟨offer, named⟩
        · obtain ⟨middle, there, step⟩ := follows.kept principal member old
          refine through middle there ?_
          rcases step with rfl | newer
          · exact .inr rfl
          · exact .inl newer.epoch
        · rcases List.mem_append.mp offer with early | late
          · obtain ⟨middle, there, step⟩ := follows.offered member early
            exact through middle (named ▸ there) step
          · exact next.newest principal member (.inr ⟨late, named⟩)

structure Lawful (platform : Platform) (directory : Directory) : Prop where
  sound : directory.Sound
  failed
    : ∀ request fault, directory.call platform request = .error fault →
          directory.apply platform request = directory
  keeps : ∀ calls, Keeps directory (directory.run platform calls)
  superseded
    : ∀ calls later member, directory.current (some member) = true →
        (directory.run platform calls).current (some member) = false →
          ((directory.run platform calls).run platform later).current (some member) = false
  order
    : ∀ left right, left.Perm right → directory.succeeds platform left →
        directory.succeeds platform right →
          (directory.run platform left).known.get? = (directory.run platform right).known.get?

theorem directory_law (platform : Platform) {origin : Directory}
    (made : create galaxy role maximum = .ok origin) (calls : List Call)
    : Lawful platform (origin.run platform calls) := by
  have sound := (run_keeps platform (create_sound made) calls).2
  constructor
  · exact sound
  · intro request fault failed
    simp only [apply, failed]
  · exact fun more => (run_keeps platform sound more).1
  · intro more later member was gone
    obtain ⟨early, next⟩ := run_keeps platform sound more
    exact not_current_again early (run_keeps platform next later).1 was gone
  · intro left right permuted one other
    apply (succeeds_newest sound one).unique (succeeds_newest sound other)
    intro member
    exact (permuted.flatMap_right _).mem_iff

/-- Every credential is signed, and names a Star with its data as the id. -/
private def trusting : Platform where
  verify _ _ := true
  unmarshal data :=
    some
      { galaxy := [97], id := data, principal := List.replicate 32 7, advertise := [49]
        epoch := data.length, role := .star, group := [98] }
  utf8 _ := true
  endpoint _ := true

/-- A directory that took two handshakes of one Star. -/
theorem directory_law_handshakes
    : Lawful trusting
        (Directory.run trusting { galaxy := [97], role := .polaris, maximum := 4, known := ∅ }
          [.verify [1] (List.replicate 64 0) [.star],
            .verify [1, 2] (List.replicate 64 0) [.star]]) := by
  have made : create [97] .polaris 4
      = .ok { galaxy := [97], role := .polaris, maximum := 4, known := ∅ } := rfl
  exact directory_law trusting made _

end Directory

end Polaris
