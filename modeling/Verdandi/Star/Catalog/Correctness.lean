import Verdandi.Star.Catalog.Installing

/-! What holds of a Catalog after any steps: the merge knows every version that was ever taken,
and shows what it knows; every value has its hook.
-/

namespace Astra.Catalog

open Support
open Origin (Name)

namespace State

variable {layout : Layout} {state next : State}

-- Steps and runs

def raises (layout : Layout) (state : State) : Action → Option Fault
  | .change name request moment => thrown (state.change layout name request moment).1
  | .tick moment => thrown (state.tick layout moment).1
  | .read moment => thrown (state.read layout moment).1
  | .admitReplica id => thrown (state.admitReplica id).1
  | .retire _ => none
  | .covered id position name steady =>
      if state.free id then thrown (state.covered layout id position name steady).1 else none
  | .receive id fact moment =>
      if state.free id then thrown (state.receive layout id fact moment).1 else none
  | .begin id draft scope moment =>
      if state.free id then (state.begin layout id draft scope moment).1.bind thrown else none
  | .complete id moment =>
      if state.prepares id then thrown (state.complete layout id moment).1 else none
  | .finish id position =>
      if state.free id then thrown (state.finish id position).1 else none

structure Stepped (before : State) (fault : Option Fault) (after : State) : Prop where
  coherent : Coherent after
  rises : Rises before after
  expected : ∀ thrown, fault = some thrown → Expected thrown

variable {before : State} {fault : Option Fault}

theorem Learned.stepped {id : Bytes} {turn : Turn} {after : State} {accepted : Prop}
    (learned : Learned id turn before fault after accepted)
    : Stepped before fault after :=
  ⟨learned.coherent, learned.rises, learned.expected⟩

variable {result : Reply × State}

theorem Rests.stepped (rests : Rests before result)
    : Stepped before (thrown result.1) result.2 := by
  refine ⟨rests.coherent, rests.passes.rises, ?_⟩
  intro fault isFault
  refine rests.expected fault ?_
  unfold thrown at isFault
  split at isFault
  next same =>
    cases isFault
    exact same
  · cases isFault

variable {name : Name} {request : Request}

theorem Written.stepped (written : Written before name request result)
    : Stepped before (thrown result.1) result.2 := by
  refine ⟨written.coherent, ?_, ?_⟩
  · rcases written.outcome with ⟨passed, _⟩ | ⟨_, middle, edit, passed, wrote⟩
    · exact passed.rises
    · exact passed.rises.trans wrote.rises
  · intro fault isFault
    refine written.expected fault ?_
    unfold thrown at isFault
    split at isFault
    next same =>
      cases isFault
      exact same
    · cases isFault

variable {allowed : Bool}

/-- A step that may have to wait. -/
theorem stepped_of_allowed {result : State}
    (stepped : (if allowed then some result else none) = some next)
    (done : allowed = true → Stepped state fault result)
    : Stepped state (if allowed then fault else none) next := by
  cases allowed with
  | false => cases stepped
  | true =>
      cases stepped
      exact done rfl

/-- Every step keeps what holds. Witness: one lemma per operation. -/
theorem Coherent.step (coherent : Coherent state) {action : Action}
    (stepped : state.step layout action = some next)
    : Stepped state (state.raises layout action) next := by
  cases action with
  | change name request moment =>
      cases stepped
      exact (coherent.change name request).stepped
  | tick moment =>
      cases stepped
      exact coherent.tick.stepped
  | read moment =>
      cases stepped
      exact coherent.read.stepped
  | admitReplica id =>
      cases stepped
      exact (coherent.admitReplica id).stepped
  | retire id =>
      cases stepped
      exact (coherent.retire id).stepped
  | covered id position name steady =>
      exact stepped_of_allowed stepped fun free =>
        (coherent.covered free position name steady).stepped
  | receive id fact moment =>
      exact stepped_of_allowed stepped fun free => (coherent.receive free fact).stepped
  | begin id draft scope moment =>
      exact stepped_of_allowed stepped fun free => (coherent.begin free draft scope).stepped
  | complete id moment =>
      refine stepped_of_allowed stepped fun held => ?_
      cases isReplica : state.replicas.get? id with
      | none => simp [State.prepares, isReplica] at held
      | some replica =>
          have busy : replica.task.isSome = true := by
            simpa [State.prepares, isReplica, Replica.busy] using held
          obtain ⟨task, isTask⟩ := Option.isSome_iff_exists.mp busy
          obtain ⟨released, turned, learned⟩ := coherent.complete isReplica isTask
          have stepped := learned.stepped
          exact ⟨stepped.coherent, turned.rises.trans stepped.rises, stepped.expected⟩
  | finish id position =>
      exact stepped_of_allowed stepped fun free => (coherent.finish free position).stepped

variable {actions : List Action}

/-- Every state that can be reached is coherent. -/
theorem coherent_of_run {limits : Limits}
    (reached : run (step layout) (start limits) actions = some state)
    : Coherent state :=
  run_invariant (fun _ _ _ coherent stepped => (coherent.step stepped).coherent)
    (coherent_start limits) reached

/-- The merge forgets no version on the way. -/
theorem rises_of_run (coherent : Coherent state)
    (reached : run (step layout) state actions = some next)
    : Rises state next := by
  have keeps (middle : State) (action : Action) (last : State)
      (kept : Coherent middle ∧ Rises state middle) (stepped : middle.step layout action = some last)
      : Coherent last ∧ Rises state last := by
    have one := kept.1.step stepped
    exact ⟨one.coherent, kept.2.trans one.rises⟩
  exact (run_invariant keeps ⟨coherent, fun _ => le_rfl⟩ reached).2

-- Versions

/-- A write that is behind the merge is refused. -/
theorem Written.refused (written : Written state name request result)
    (behind : request.version < Catalog.version (state.merged.find name))
    : result.1 ≠ .ok () := by
  rcases written.outcome with ⟨_, refused⟩ | ⟨_, middle, edit, passed, wrote⟩
  · exact refused
  · exfalso
    have above := (passed.rises name).trans wrote.above.1
    exact Nat.not_le.mpr behind above

/-- A write that is accepted stands in the own source. -/
theorem Written.held (written : Written state name request result) (accepted : result.1 = .ok ())
    : Catalog.version (result.2.source.find name) = request.version := by
  rcases written.outcome with ⟨_, refused⟩ | ⟨_, middle, edit, _, wrote⟩
  · exact absurd accepted refused
  · obtain ⟨candidate, isRecord, version, _⟩ := wrote.record
    rw [wrote.source, find_commit, wrote.isName, Function.update_self, isRecord]
    exact version

/-- Somebody holds a version of a name: the own source, the merge or a copy. -/
inductive Holds (state : State) (name : Name) (version : Nat) : Prop where
  | source (isVersion : Catalog.version (state.source.find name) = version)
  | merged (isVersion : Catalog.version (state.merged.find name) = version)
  | copy (id : Bytes) (replica : Copy) (isReplica : state.replicas.get? id = some replica)
      (isVersion : Catalog.version (replica.source.find name) = version)

theorem Coherent.holds_le (coherent : Coherent state) {version : Nat}
    (holds : state.Holds name version)
    : version ≤ Catalog.version (state.merged.find name) := by
  cases holds with
  | source isVersion => exact isVersion ▸ coherent.below name
  | merged isVersion => exact isVersion.ge
  | copy id replica isReplica isVersion =>
      exact isVersion ▸ (coherent.copies id replica isReplica).below name

/-- The merge holds at least the version of everybody else, in every state that can be reached,
and never a lower one later; what is accepted is held, so that nothing behind it is ever accepted
again.
-/
theorem watermark_law (layout : Layout) {limits : Limits} {first later : List Action}
    {state last : State} (reached : run (step layout) (start limits) first = some state)
    (continued : run (step layout) state later = some last) (name : Name)
    : (∀ version, state.Holds name version → version ≤ Catalog.version (state.merged.find name))
      ∧ Catalog.version (state.merged.find name) ≤ Catalog.version (last.merged.find name)
      ∧ (∀ request moment, (state.change layout name request moment).1 = .ok ()
        → (state.change layout name request moment).2.Holds name request.version)
      ∧ ∀ version value lower ttl moment, state.Holds name version → lower < version
        → (last.change layout name (.publish value lower ttl) moment).1 ≠ .ok () := by
  have coherent := coherent_of_run reached
  have rises := rises_of_run coherent continued name
  refine ⟨fun _ holds => coherent.holds_le holds, rises, ?_, ?_⟩
  · intro request moment accepted
    exact .source ((coherent.change name request).held accepted)
  · intro version value lower ttl moment holds behind
    have isLast : run (step layout) (start limits) (first ++ later) = some last := by
      rw [run_append, reached]
      exact continued
    refine ((coherent_of_run isLast).change name (.publish value lower ttl)).refused ?_
    exact behind.trans_le ((coherent.holds_le holds).trans rises)

/-- A name of which one version is published, at its beginning and after its lease. -/
def sampleName : Name where
  scope := { sector := [115], spectrum := [112] }
  key := [107]

def sampleMoment (time : Int) : Moment where
  sample _ := some { ready := true, time }

def sampleLayout : Layout where
  record := 48
  content := 32
  name := 64
  fact := 96
  event := 80

def samplePublish (time : Int) : Action :=
  .change sampleName (.publish [1] 2 5000) (sampleMoment time)

theorem watermark_law_ended
    : ∃ state last, run (step sampleLayout) (start {}) [samplePublish 0] = some state
        ∧ run (step sampleLayout) state [.tick (sampleMoment 6000000000)] = some last
        ∧ (last.merged.find sampleName).bind Record.value = none
        ∧ (last.change sampleLayout sampleName (.publish [2] 1 5000)
          (sampleMoment 6000000000)).1 ≠ .ok () := by
  refine ⟨_, _, rfl, rfl, by decide +kernel, ?_⟩
  have law := @watermark_law sampleLayout {} [samplePublish 0] [.tick (sampleMoment 6000000000)]
    _ _ rfl rfl sampleName
  exact law.2.2.2 2 [2] 1 5000 _ (.source (by decide)) (by decide)

-- What is shown, and hooks

/-- Every record with a value has its one hook, for its deadline, and there is no other hook. -/
def Hooked (records : Name → Option Record) (agenda : Option Agenda) : Prop :=
  ∀ name, match (records name).filter (·.value.isSome) with
    | some record => ∃ held tick deadline, agenda = some held
        ∧ held.hooks.get? name = some tick ∧ record.deadline = some deadline
        ∧ held.Timely tick deadline
    | none => ∀ held, agenda = some held → held.hooks.get? name = none

theorem hooked_of_held {records : Name → Option Record} {agenda : Option Agenda}
    (held : Held records agenda)
    : Hooked records agenda := by
  intro name
  have tied := held.tied
  cases isRecord : records name with
  | none =>
      intro wheel isWheel
      subst isWheel
      have related := tied name
      rw [deadlines, isRecord, Option.bind_none] at related
      generalize wheel.hooks.get? name = hook at related
      cases related
      rfl
  | some record =>
      have valid := held.valid name record isRecord
      rcases Record.valid_cases valid with ⟨value, lease⟩ | ⟨value, deadline, isValue, lease⟩
      · have gone : (some record).filter (·.value.isSome) = none := by simp [value]
        rw [gone]
        intro wheel isWheel
        subst isWheel
        have related := tied name
        rw [deadlines, isRecord, Option.bind_some, lease] at related
        generalize wheel.hooks.get? name = hook at related
        cases related
        rfl
      · have active : (some record).filter (·.value.isSome) = some record := by simp [isValue]
        rw [active]
        cases agenda with
        | none =>
            have missing := tied name
            rw [deadlines, isRecord, Option.bind_some, lease] at missing
            cases missing
        | some wheel =>
            have related := tied name
            rw [deadlines, isRecord, Option.bind_some, lease] at related
            generalize isHook : wheel.hooks.get? name = hook at related
            cases related with
            | some timely => exact ⟨wheel, _, deadline, rfl, isHook, lease, timely⟩

theorem allowed_of_raises {value : Option Fault} {fault : Fault}
    (raised : (if allowed then value else none) = some fault)
    : allowed = true := by
  cases allowed with
  | false => cases raised
  | true => rfl

/-- Only a step that is taken ends with an exception. -/
theorem enabled_of_raises {action : Action} {fault : Fault}
    (raised : state.raises layout action = some fault)
    : ∃ next, state.step layout action = some next := by
  cases action with
  | change name request moment => exact ⟨_, rfl⟩
  | tick moment => exact ⟨_, rfl⟩
  | read moment => exact ⟨_, rfl⟩
  | admitReplica id => exact ⟨_, rfl⟩
  | retire id => exact ⟨_, rfl⟩
  | covered id position name steady => exact ⟨_, if_pos (allowed_of_raises raised)⟩
  | receive id fact moment => exact ⟨_, if_pos (allowed_of_raises raised)⟩
  | begin id draft scope moment => exact ⟨_, if_pos (allowed_of_raises raised)⟩
  | complete id moment => exact ⟨_, if_pos (allowed_of_raises raised)⟩
  | finish id position => exact ⟨_, if_pos (allowed_of_raises raised)⟩

/-- What is shown is what the merge knows, hooks and values agree in the own source, the merge
and all copies, and no step ever finds a hook without its record.
-/
theorem projection_law (layout : Layout) {limits : Limits} {actions : List Action}
    {state : State} (reached : run (step layout) (start limits) actions = some state)
    : (∀ name content, state.stage.find name = some content
        ↔ ∃ record, state.merged.find name = some record ∧ record.version = content.version
          ∧ record.value = some content.value)
      ∧ Hooked state.source.find state.agenda
      ∧ Hooked state.merged.find state.outlook
      ∧ (∀ id replica, state.replicas.get? id = some replica
        → Hooked replica.source.find replica.agenda)
      ∧ ∀ action fault, state.raises layout action = some fault
        → ∃ what, fault = .runtimeError what := by
  have coherent := coherent_of_run reached
  refine ⟨?_, hooked_of_held coherent.source, hooked_of_held coherent.merged, ?_, ?_⟩
  · intro name content
    rw [coherent.shown, contents, Option.bind_eq_some_iff]
    refine exists_congr fun record => and_congr_right fun _ => ?_
    obtain ⟨version, value⟩ := content
    simp only [Record.content, Option.map_eq_some_iff, Content.mk.injEq]
    constructor
    · rintro ⟨_, isValue, rfl, rfl⟩
      exact ⟨rfl, isValue⟩
    · rintro ⟨rfl, isValue⟩
      exact ⟨value, isValue, rfl, rfl⟩
  · intro id replica isReplica
    exact hooked_of_held (coherent.copies id replica isReplica).held
  · intro action fault raised
    obtain ⟨next, stepped⟩ := enabled_of_raises raised
    exact (coherent.step stepped).expected fault raised

theorem projection_law_published
    : ∃ state, run (step sampleLayout) (start {}) [samplePublish 0] = some state
        ∧ state.stage.find sampleName = some { version := 2, value := [1] }
        ∧ ∃ record, state.merged.find sampleName = some record ∧ record.version = 2
          ∧ record.value = some [1] := by
  refine ⟨_, rfl, by decide, ?_⟩
  have law := @projection_law sampleLayout {} [samplePublish 0] _ rfl
  exact (law.1 sampleName { version := 2, value := [1] }).mp (by decide)

end State

end Astra.Catalog
