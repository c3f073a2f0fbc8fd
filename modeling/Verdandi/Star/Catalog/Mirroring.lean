import Verdandi.Star.Catalog.Exchange

/-! A copy and the log of its source: every way in which a copy learns keeps each target as it was
where the copy was confirmed or covered, but for leases that have ended.
-/

namespace Astra.Catalog

open Support
open Origin (Name)

-- What the steps of a Star leave alone

def Ages (now : Int) (truth held : Option Record) : Prop :=
  held = truth ∨ held = truth.map (·.expire now)

theorem Ages.trans {now : Int} {first second third : Option Record} (one : Ages now first second)
    (other : Ages now second third)
    : Ages now first third :=
  @Outlives.trans now (fun _ : Name => first) (fun _ => second) (fun _ => third) (fun _ => one)
    (fun _ => other) ⟨default, []⟩

theorem Ages.mono {now later : Int} {truth held : Option Record} (ages : Ages now truth held)
    (onwards : now ≤ later)
    : Ages later truth held :=
  @Outlives.mono now later (fun _ : Name => truth) (fun _ => held) (fun _ => ages) onwards
    ⟨default, []⟩

namespace State

variable {layout : Layout} {state next : State}

def Onwards (before after : State) : Prop :=
  ∀ time, before.observed = some time → ∃ now, after.observed = some now ∧ time ≤ now

theorem Onwards.trans {first second third : State} (one : Onwards first second)
    (other : Onwards second third)
    : Onwards first third := by
  intro time isTime
  obtain ⟨middle, isMiddle, before⟩ := one time isTime
  obtain ⟨now, isNow, after⟩ := other middle isMiddle
  exact ⟨now, isNow, before.trans after⟩

variable {before after : State}

theorem Onwards.until (onwards : Onwards before after) {now : Int} (reached : after.Until now)
    : before.Until now := by
  intro time isTime
  obtain ⟨later, isLater, before⟩ := onwards time isTime
  exact before.trans (reached later isLater)

theorem onwards_of_eq (same : after.observed = before.observed)
    : Onwards before after :=
  fun time isTime => ⟨time, same.trans isTime, le_rfl⟩

structure Keeps (before after : State) : Prop where
  onwards : Onwards before after
  source : ∀ now, after.Until now → Outlives now before.source.find after.source.find
  stays : Stays before.source after.source

structure Spares (id : Bytes) (before after : State) : Prop where
  onwards : Onwards before after
  copy : ∀ now, after.Until now → Fades now (before.replicas.get? id) (after.replicas.get? id)

theorem Keeps.trans {first second third : State} (one : Keeps first second)
    (other : Keeps second third)
    : Keeps first third where
  onwards := one.onwards.trans other.onwards
  source now reached :=
    (one.source now (other.onwards.until reached)).trans (other.source now reached)
  stays := one.stays.trans other.stays

theorem Spares.trans {id : Bytes} {first second third : State} (one : Spares id first second)
    (other : Spares id second third)
    : Spares id first third where
  onwards := one.onwards.trans other.onwards
  copy now reached :=
    (one.copy now (other.onwards.until reached)).trans (other.copy now reached)

theorem Passes.keeps (passes : Passes before after)
    : Keeps before after where
  onwards := passes.time
  source now reached := (passes.aged now reached).source
  stays := by
    obtain ⟨now, _, aged⟩ := passes.exists_aged
    exact aged.stays

theorem Passes.spares (passes : Passes before after) (id : Bytes)
    : Spares id before after where
  onwards := passes.time
  copy now reached := (passes.aged now reached).copies id

variable {id : Bytes} {turn : Option Copy → Option Copy → Prop}

theorem Turned.keeps (turned : Turned id turn before after)
    : Keeps before after where
  onwards := onwards_of_eq turned.observed
  source now _ := by
    rw [turned.source]
    exact .refl _ _
  stays := by
    rw [turned.source]
    exact .refl _

variable {other : Bytes}

theorem Turned.spares (turned : Turned other turn before after) (differs : id ≠ other)
    : Spares id before after where
  onwards := onwards_of_eq turned.observed
  copy now _ := by
    rw [turned.others id differs]
    exact .refl _ _

variable {fault : Option Fault} {accepted : Prop}

theorem Learned.keeps {turn : Turn} (learned : Learned id turn before fault after accepted)
    : Keeps before after := by
  rcases learned.outcome with ⟨_, passed⟩ | ⟨middle, passed, turned⟩
  · exact passed.keeps
  · exact passed.keeps.trans turned.keeps

theorem Learned.spares {turn : Turn} (learned : Learned other turn before fault after accepted)
    (differs : id ≠ other)
    : Spares id before after := by
  rcases learned.outcome with ⟨_, passed⟩ | ⟨middle, passed, turned⟩
  · exact passed.spares id
  · exact (passed.spares id).trans (turned.spares differs)

def Owns (before after : State) (action : Action) : Prop :=
  Keeps before after ∨ ∃ name request moment middle edit, action = .change name request moment
      ∧ Keeps before middle ∧ Wrote middle after name request edit

theorem busy_of_prepares (held : state.prepares id = true)
    : ∃ replica task, state.replicas.get? id = some replica ∧ replica.task = some task := by
  cases isReplica : state.replicas.get? id with
  | none => simp [State.prepares, isReplica] at held
  | some replica =>
      have busy : replica.task.isSome = true := by
        simpa [State.prepares, isReplica, Replica.busy] using held
      obtain ⟨task, isTask⟩ := Option.isSome_iff_exists.mp busy
      exact ⟨replica, task, rfl, isTask⟩

variable {action : Action}

theorem Coherent.owns (coherent : Coherent state) (stepped : state.step layout action = some next)
    : Owns state next action := by
  cases action with
  | change name request moment =>
      cases stepped
      rcases (coherent.change name request).outcome with ⟨passed, _⟩ | ⟨_, middle, edit, passed, wrote⟩
      · exact .inl passed.keeps
      · exact .inr ⟨name, request, moment, middle, edit, rfl, passed.keeps, wrote⟩
  | tick moment =>
      cases stepped
      exact .inl coherent.tick.passes.keeps
  | read moment =>
      cases stepped
      exact .inl coherent.read.passes.keeps
  | admitReplica id =>
      cases stepped
      exact .inl (coherent.admitReplica id).keeps
  | retire id =>
      cases stepped
      exact .inl (coherent.retire id).keeps
  | covered id position name steady =>
      obtain ⟨free, same⟩ := Option.ite_none_right_eq_some.mp stepped
      cases same
      exact .inl (coherent.covered free position name steady).keeps
  | receive id fact moment =>
      obtain ⟨free, same⟩ := Option.ite_none_right_eq_some.mp stepped
      cases same
      exact .inl (coherent.receive free fact).keeps
  | begin id draft scope moment =>
      obtain ⟨free, same⟩ := Option.ite_none_right_eq_some.mp stepped
      cases same
      exact .inl (coherent.begin free draft scope).keeps
  | complete id moment =>
      obtain ⟨held, same⟩ := Option.ite_none_right_eq_some.mp stepped
      cases same
      obtain ⟨replica, task, isReplica, isTask⟩ := busy_of_prepares held
      obtain ⟨released, turned, learned⟩ := coherent.complete isReplica isTask
      exact .inl (turned.keeps.trans learned.keeps)
  | finish id position =>
      obtain ⟨free, same⟩ := Option.ite_none_right_eq_some.mp stepped
      cases same
      exact .inl (coherent.finish free position).keeps

/-- A step that is not one on a copy lets it age, or admits it. -/
theorem Coherent.spares (coherent : Coherent state) (foreign : Exchange.concerns id action = false)
    (stepped : state.step layout action = some next)
    : Spares id state next ∨ ∃ middle, Spares id state middle ∧ Onwards middle next
        ∧ Admitted next.Until (middle.replicas.get? id) (next.replicas.get? id) := by
  cases action with
  | change name request moment =>
      cases stepped
      rcases (coherent.change name request).outcome with ⟨passed, _⟩ | ⟨_, middle, edit, passed, wrote⟩
      · exact .inl (passed.spares id)
      · refine .inl ((passed.spares id).trans ⟨onwards_of_eq wrote.observed, ?_⟩)
        intro now _
        rw [wrote.copies]
        exact .refl _ _
  | tick moment =>
      cases stepped
      exact .inl (coherent.tick.passes.spares id)
  | read moment =>
      cases stepped
      exact .inl (coherent.read.passes.spares id)
  | admitReplica other =>
      cases stepped
      have learned := coherent.admitReplica other
      by_cases same : id = other
      · subst same
        rcases learned.outcome with ⟨_, passed⟩ | ⟨middle, passed, turned⟩
        · exact .inl (passed.spares id)
        · exact .inr ⟨middle, passed.spares id, onwards_of_eq turned.observed, turned.own⟩
      · exact .inl (learned.spares same)
  | retire other =>
      cases stepped
      have differs : id ≠ other := fun same => by simp [Exchange.concerns, same] at foreign
      exact .inl ((coherent.retire other).spares differs)
  | covered other position name steady =>
      have differs : id ≠ other := fun same => by simp [Exchange.concerns, same] at foreign
      obtain ⟨free, same⟩ := Option.ite_none_right_eq_some.mp stepped
      cases same
      exact .inl ((coherent.covered free position name steady).spares differs)
  | receive other fact moment =>
      have differs : id ≠ other := fun same => by simp [Exchange.concerns, same] at foreign
      obtain ⟨free, same⟩ := Option.ite_none_right_eq_some.mp stepped
      cases same
      exact .inl ((coherent.receive free fact).spares differs)
  | begin other draft scope moment =>
      have differs : id ≠ other := fun same => by simp [Exchange.concerns, same] at foreign
      obtain ⟨free, same⟩ := Option.ite_none_right_eq_some.mp stepped
      cases same
      exact .inl ((coherent.begin free draft scope).spares differs)
  | complete other moment =>
      have differs : id ≠ other := fun same => by simp [Exchange.concerns, same] at foreign
      obtain ⟨held, same⟩ := Option.ite_none_right_eq_some.mp stepped
      cases same
      obtain ⟨replica, task, isReplica, isTask⟩ := busy_of_prepares held
      obtain ⟨released, turned, learned⟩ := coherent.complete isReplica isTask
      exact .inl ((turned.spares differs).trans (learned.spares differs))
  | finish other position =>
      have differs : id ≠ other := fun same => by simp [Exchange.concerns, same] at foreign
      obtain ⟨free, same⟩ := Option.ite_none_right_eq_some.mp stepped
      cases same
      exact .inl ((coherent.finish free position).spares differs)

end State

namespace Exchange

open State (Copy Tells Skips Installs Confirms Takes)

-- One copy and one log

/-- Two records are alike if one is the other with its lease ended, whatever time it is now. -/
def Alike (reached : Int → Prop) (truth held : Option Record) : Prop :=
  ∀ now, reached now → Ages now truth held

theorem Alike.refl (reached : Int → Prop) (record : Option Record) : Alike reached record record :=
  fun _ _ => .inl rfl

structure Known (log : List (Entry Name Record)) (reached : Int → Prop) (position : Nat)
    (records : Name → Option Record)
    : Prop where
  within : position ≤ log.length
  alike : ∀ name, Alike reached (contentAfter log position name) (records name)

structure Mirrored (log : List (Entry Name Record)) (reached : Int → Prop) (replica : Copy)
    : Prop where
  lively : replica.retired = false
  distinct : (replica.coverage.map Replica.Coverage.name).Nodup
  mirrors : Mirrors (Alike reached) log replica.source.position
    (Replica.covered replica.coverage) replica.source.find
  task : ∀ task, replica.task = some task
    → Known log reached task.draft.position task.draft.candidate.find

def far (replica : Copy) (name : Name) : Nat :=
  max replica.source.position (Replica.covered replica.coverage name)

variable {log more : List (Entry Name Record)} {reached later : Int → Prop} {before after : Copy}

theorem Known.grow {position : Nat} {records : Name → Option Record}
    (known : Known log reached position records) (narrower : ∀ now, later now → reached now)
    : Known (log ++ more) later position records where
  within := known.within.trans (by simp)
  alike name now isLater := by
    rw [contentAfter_append known.within]
    exact known.alike name now (narrower now isLater)

theorem Mirrored.grow (mirrored : Mirrored log reached before)
    (narrower : ∀ now, later now → reached now)
    : Mirrored (log ++ more) later before where
  lively := mirrored.lively
  distinct := mirrored.distinct
  mirrors := mirrored.mirrors.append.fade fun _ _ alike now isLater =>
    alike now (narrower now isLater)
  task task isTask := (mirrored.task task isTask).grow narrower

/-- A copy that nobody knows to be retired is there as long as it only ages. -/
theorem Mirrored.ages (mirrored : Mirrored log reached before)
    (narrower : ∀ now, later now → reached now) (some' : ∃ now, later now)
    {last : Option Copy} (fades : ∀ now, later now → State.Fades now (some before) last)
    : ∃ after, last = some after ∧ Mirrored log later after ∧ far after = far before
      ∧ after.task = before.task := by
  obtain ⟨now, isNow⟩ := some'
  have first := fades now isNow
  cases last with
  | none =>
      cases first with
      | spent retired _ =>
          rw [mirrored.lively] at retired
          cases retired
  | some after =>
      cases first with
      | kept _ stays coverage retired task _ =>
          refine ⟨after, rfl, ⟨retired.trans mirrored.lively, coverage ▸ mirrored.distinct, ?_, ?_⟩,
            ?_, task⟩
          · rw [stays.position, coverage]
            refine mirrored.mirrors.fade ?_
            intro name truth alike now isLater
            have ages := alike now (narrower now isLater)
            cases fades now isLater with
            | kept outlives _ _ _ _ _ => exact ages.trans (outlives name)
          · intro held isHeld
            rw [task] at isHeld
            have known := mirrored.task held isHeld
            exact ⟨known.within, fun name now isLater => known.alike name now (narrower now isLater)⟩
          · funext name
            rw [far, far, stays.position, coverage]

theorem mirrored_start (lively : before.retired = false)
    (find : before.source.find = fun _ => none) (position : before.source.position = 0)
    (coverage : before.coverage = []) (idle : before.task = none)
    : Mirrored log reached before := by
  refine ⟨lively, coverage ▸ List.nodup_nil, ?_, ?_⟩
  · rw [find, position, coverage]
    have empty : Mirrors (Alike reached) log 0 (fun _ : Name => 0) (fun _ => none) :=
      .empty (.refl _ _)
    exact empty
  · intro task isTask
    rw [idle] at isTask
    cases isTask

/-- A fact that is true of a source: it is in its log, or was read from it at its position. -/
structure Genuine (log : List (Entry Name Record)) (reached : Int → Prop) (fact : State.Fact)
    : Prop where
  within : fact.position ≤ log.length
  ordered : fact.repair = false → ∃ entry, log[fact.position - 1]? = some entry
    ∧ entry.key = fact.name ∧ entry.value = fact.record
  repaired : fact.repair = true
    → Alike reached (contentAfter log fact.position fact.name) fact.record

variable {fact : State.Fact} {time : Int}

/-- What is left of a record at a time that was reached. -/
theorem alike_left (within : ∀ now, reached now → time ≤ now)
    : Alike reached fact.record (fact.left time) :=
  fun now isNow => Ages.mono (.inr rfl) (within now isNow)

theorem mirrored_idle (lively : after.retired = false) (idle : after.task = none)
    (distinct : (after.coverage.map Replica.Coverage.name).Nodup)
    (mirrors : Mirrors (Alike reached) log after.source.position
      (Replica.covered after.coverage) after.source.find)
    : Mirrored log reached after := by
  refine ⟨lively, distinct, mirrors, ?_⟩
  intro task isTask
  rw [idle] at isTask
  cases isTask

/-- A true fact is taken. Witness: in order it is the next one, as a repair its target is behind. -/
theorem Mirrored.tells (mirrored : Mirrored log reached before)
    (tells : Tells fact time before after) (genuine : Genuine log reached fact)
    (within : ∀ now, reached now → time ≤ now)
    : Mirrored log reached after ∧ ∀ name, far before name ≤ far after name := by
  have position := tells.position
  have coverage := tells.coverage
  have takes := tells.takes
  cases isRepair : fact.repair with
  | false =>
      rw [isRepair, if_neg Bool.false_ne_true] at position coverage
      obtain ⟨entry, isEntry, isKey, isValue⟩ := genuine.ordered isRepair
      have next := takes.next isRepair
      rw [next, Nat.add_sub_cancel] at isEntry
      have passed (name : Name) := @Replica.covered_pass before.coverage name fact.position
        mirrored.distinct
      refine ⟨mirrored_idle tells.retired tells.idle ?_ ?_, ?_⟩
      · rw [coverage]
        exact mirrored.distinct.sublist (List.filter_sublist.map _)
      · have moved := @Mirrors.next _ _ _ _ _ _ _ _ mirrored.mirrors entry isEntry (fact.left time)
          (isValue ▸ alike_left within)
          (by
            rw [isKey]
            have unknown := takes.unknown
            omega)
          (Replica.covered (Replica.pass before.coverage fact.position))
          (fun name => next ▸ (passed name).1) (fun name => (passed name).2)
        rw [position, coverage, tells.find, next, ← isKey]
        rw [next] at moved
        exact moved
      · intro name
        rw [far, far, position, coverage, (passed name).1]
        exact max_le_max_right _ takes.beyond.le
  | true =>
      rw [isRepair, if_pos rfl] at position coverage
      have exact' : fact.name.key ≠ [] := by
        have valid := takes.valid
        simp only [State.Fact.valid, Bool.and_eq_true] at valid
        intro none
        have text := valid.1.1.1.1.2
        rw [none] at text
        revert text
        decide
      have noted := @Replica.covered_note before.coverage fact.name fact.position
        mirrored.distinct exact' takes.unknown
      refine ⟨mirrored_idle tells.retired tells.idle ?_ ?_, ?_⟩
      · rw [coverage]
        exact Replica.distinct_note mirrored.distinct
      · have moved := @Mirrors.install _ _ _ _ _ _ _ _ mirrored.mirrors fact.position
          takes.beyond.le genuine.within (· = fact.name) _ (fun _ => fact.left time)
          (by
            rintro _ rfl now isNow
            exact (genuine.repaired isRepair now isNow).trans (alike_left within now isNow))
          (Replica.covered (Replica.note fact.name fact.position before.coverage)) noted
        rw [position, coverage, tells.find]
        have same : Function.update before.source.find fact.name (fact.left time)
            = fun name => if name = fact.name then fact.left time else before.source.find name := by
          funext name
          exact Function.update_apply ..
        rw [same]
        exact moved
      · intro name
        rw [far, far, position, coverage, noted]
        split
        next same =>
          rw [same]
          exact max_le_max_left _ takes.unknown.le
        · exact le_rfl

/-- The position of a true event is passed over. -/
theorem Mirrored.skips (mirrored : Mirrored log reached before) {name : Name} {position : Nat}
    (skips : Skips name position before after) {entry : Entry Name Record}
    (isEntry : log[position - 1]? = some entry) (isKey : entry.key = name)
    : Mirrored log reached after ∧ ∀ other, far before other ≤ far after other := by
  have next := skips.next
  rw [next, Nat.add_sub_cancel] at isEntry
  have passed (other : Name) := @Replica.covered_pass before.coverage other position
    mirrored.distinct
  have known := skips.known
  have moved := @Mirrors.skip _ _ _ _ _ _ _ _ mirrored.mirrors entry isEntry
    (by rw [isKey, ← next]; exact known)
    (Replica.covered (Replica.pass before.coverage position))
    (fun other => next ▸ (passed other).1) (fun other => (passed other).2)
  refine ⟨mirrored_idle skips.retired skips.idle ?_ ?_, ?_⟩
  · rw [skips.coverage]
    exact mirrored.distinct.sublist (List.filter_sublist.map _)
  · rw [skips.position, skips.coverage, skips.find]
    rw [← next] at moved
    exact moved
  · intro other
    rw [far, far, skips.position, skips.coverage, (passed other).1]
    exact max_le_max_right _ (by omega)

variable {draft : Origin.Draft Record}

/-- A Scope of a true complete state is installed. -/
theorem Mirrored.installs (mirrored : Mirrored log reached before) {scope : Scope}
    (installs : Installs draft scope before after)
    (known : Known log reached draft.position draft.candidate.find)
    : Mirrored log reached after ∧ ∀ name, far before name ≤ far after name := by
  have accepts := installs.accepts
  have marks := @Replica.covered_noteWhole before.coverage scope draft.position mirrored.distinct
  have moved := @Mirrors.install _ _ _ _ _ _ _ _ mirrored.mirrors draft.position accepts.reached
    known.within (fun name => name.scope = scope) _ draft.candidate.find
    (fun name _ => known.alike name)
    (Replica.covered (Replica.noteWhole scope draft.position before.coverage)) marks
  refine ⟨mirrored_idle installs.retired installs.idle ?_ ?_, ?_⟩
  · rw [installs.coverage]
    exact Replica.distinct_noteWhole mirrored.distinct
  · rw [installs.position, installs.coverage, funext installs.find]
    exact moved
  · intro name
    rw [far, far, installs.position, installs.coverage, marks]
    split
    · exact max_le_max_left _ (Replica.covered_le mirrored.distinct accepts.whole)
    · exact le_rfl

/-- A source is confirmed where every target of the complete state is as far. Witness: what the
complete state lacks was never there.
-/
theorem Mirrored.confirms (mirrored : Mirrored log reached before)
    (confirms : Confirms draft.position before after)
    (known : Known log reached draft.position draft.candidate.find)
    (lasting : ∀ entry ∈ log, entry.value.isSome = true)
    (some' : ∃ now, reached now)
    (done : ∀ name, (draft.candidate.find name).isSome = true → draft.position ≤ far before name)
    : Mirrored log reached after ∧ ∀ name, far before name ≤ far after name := by
  have least (name : Name) : far before name ≤ draft.position :=
    max_le confirms.reached (Replica.covered_le mirrored.distinct confirms.whole)
  have moved := @Mirrors.finish _ _ _ _ _ _ _ _ mirrored.mirrors draft.position known.within
    (by
      intro name
      cases found : draft.candidate.find name with
      | some record =>
          exact .inl (Nat.le_antisymm (least name) (done name (by rw [found]; rfl)))
      | none =>
          right
          obtain ⟨now, isNow⟩ := some'
          have absent : contentAfter log draft.position name = none := by
            rcases known.alike name now isNow with same | ended
            · rw [← same, found]
            · rw [found] at ended
              exact Option.map_eq_none_iff.mp ended.symm
          rw [absent]
          by_contra present
          have isSome := contentAfter_isSome lasting
            (Option.isSome_iff_ne_none.mpr (Ne.symm present)) (least name)
          rw [absent] at isSome
          cases isSome)
  refine ⟨mirrored_idle confirms.retired confirms.idle ?_ ?_, ?_⟩
  · rw [confirms.coverage]
    exact List.nodup_nil
  · rw [confirms.isPosition, confirms.coverage, confirms.find]
    exact moved
  · intro name
    rw [far, far, confirms.isPosition]
    exact (least name).trans (le_max_left _ _)

structure Restoring (log : List (Entry Name Record)) (reached : Int → Prop) (replica : Copy)
    (restore : Restore Record State.Error)
    : Prop where
  known : Known log reached restore.draft.position restore.draft.candidate.find
  done : ∀ name, (restore.draft.candidate.find name).isSome = true
    → name.scope ∈ restore.left ∨ restore.draft.position ≤ far replica name

theorem Restoring.grow {restore : Restore Record State.Error}
    (restoring : Restoring log reached before restore)
    (narrower : ∀ now, later now → reached now)
    (onwards : ∀ name, far before name ≤ far after name)
    : Restoring (log ++ more) later after restore where
  known := restoring.known.grow narrower
  done name isSome := (restoring.done name isSome).imp_right fun least =>
    least.trans (onwards name)

end Exchange

end Astra.Catalog
