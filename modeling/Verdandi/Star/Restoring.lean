import Verdandi.Star.Restore
import Verdandi.Star.Schedule
import Verdandi.Support.Run

/-! Restoring a copy while everything else goes on. What counts of the copy is how far it is confirmed
and covered; a task confirms it only when all of its Scopes are installed.
-/

namespace Astra

open Support

-- What counts of a copy

/-- An installation that holds a copy: the position of its complete state, its Scope, the position of
its private candidate, if there is one, and whether it has nothing to say instead.
-/
structure Replica.Hold where
  position : Nat
  scope : Scope
  candidate : Option Nat
  silent : Bool

def Replica.Task.hold {Item Failure : Type} (task : Task Item Failure) : Hold where
  position := task.draft.position
  scope := task.scope
  candidate := task.prepared.toOption.map (·.1.commit.position)
  silent :=
    match task.prepared with
    | .error (.ok ()) => true
    | _ => false

/-- How far a copy is confirmed and covered, whether it is retired, and what holds it. -/
structure Replica.Mark where
  position : Nat := 0
  coverage : List Replica.Coverage := []
  retired : Bool := false
  task : Option Replica.Hold := none

def Replica.mark {Item Failure : Type} (replica : Replica Item Failure) : Mark where
  position := replica.source.position
  coverage := replica.coverage
  retired := replica.retired
  task := replica.task.map Task.hold

namespace Replica

open Origin (Name)

def Mark.reaches (mark : Mark) (name : Name) : Nat :=
  max mark.position (covered mark.coverage name)

/-- A copy that only ages stays, or is given up if nobody needs it any more. -/
inductive Keeps : Option Mark → Option Mark → Prop where
  | same (mark : Option Mark) : Keeps mark mark
  | forgotten {mark : Mark} (retired : mark.retired = true) (idle : mark.task = none)
      : Keeps (some mark) none

/-- What one step of a domain does to a copy; only one that may end an installation lets go of it. -/
inductive Turn : Bool → Option Mark → Option Mark → Prop where
  | keeps {ends : Bool} {before after : Option Mark} (keeps : Keeps before after) : Turn ends before after
  | admitted {ends : Bool} : Turn ends none (some {})
  | retired {ends : Bool} (mark : Mark)
      : Turn ends (some mark) (some { mark with retired := true, coverage := [] })
  | passed {ends : Bool} {mark : Mark} (idle : mark.task = none)
      : Turn ends (some mark)
          (some { mark with
            position := mark.position + 1, coverage := pass mark.coverage (mark.position + 1) })
  | noted {ends : Bool} {mark : Mark} (idle : mark.task = none) {name : Name} {position : Nat}
      (exact' : name.key ≠ []) (further : covered mark.coverage name < position)
      : Turn ends (some mark) (some { mark with coverage := note name position mark.coverage })
  | begun {ends : Bool} {mark : Mark} (idle : mark.task = none) {hold : Hold}
      (onwards : mark.position ≤ hold.position)
      (within : ahead mark.coverage hold.position = false)
      (candidate : ∀ position, hold.candidate = some position → position = mark.position)
      (heard : hold.silent = false)
      : Turn ends (some mark) (some { mark with task := some hold })
  | released (mark : Mark) : Turn true (some mark) (some { mark with task := none })
  | installed {mark : Mark} {hold : Hold} (held : mark.task = some hold)
      (lively : mark.retired = false)
      : Turn true (some mark)
          (some { mark with
            task := none, coverage := noteWhole hold.scope hold.position mark.coverage })
  | finished {ends : Bool} {mark : Mark} (idle : mark.task = none) {position : Nat}
      (onwards : mark.position ≤ position) (within : ahead mark.coverage position = false)
      : Turn ends (some mark) (some { mark with position, coverage := [] })

theorem Keeps.trans {first second third : Option Mark} (one : Keeps first second)
    (other : Keeps second third)
    : Keeps first third := by
  cases one with
  | same => exact other
  | forgotten retired idle =>
      cases other
      exact .forgotten retired idle

structure Mark.Sound (mark : Mark) : Prop where
  distinct : (mark.coverage.map Coverage.name).Nodup
  within : mark.retired = false → ∀ hold, mark.task = some hold
    → mark.position ≤ hold.position ∧ ahead mark.coverage hold.position = false
  held : ∀ hold, mark.task = some hold
    → (∀ position, hold.candidate = some position → position = mark.position) ∧ hold.silent = false

variable {ends : Bool} {after : Mark}

theorem Turn.sound {before : Option Mark} (turn : Turn ends before (some after))
    (sound : ∀ mark, before = some mark → mark.Sound)
    : after.Sound := by
  cases turn with
  | keeps keeps =>
      cases keeps
      exact sound after rfl
  | admitted => exact ⟨List.nodup_nil, nofun, nofun⟩
  | retired mark => exact ⟨List.nodup_nil, nofun, (sound mark rfl).held⟩
  | passed idle =>
      refine ⟨(sound _ rfl).distinct.sublist (List.filter_sublist.map _), fun _ _ held => ?_,
        fun _ held => ?_⟩
      · exact absurd (idle.symm.trans held) nofun
      · exact absurd (idle.symm.trans held) nofun
  | noted idle =>
      refine ⟨distinct_note (sound _ rfl).distinct, fun _ _ held => ?_, fun _ held => ?_⟩
      · exact absurd (idle.symm.trans held) nofun
      · exact absurd (idle.symm.trans held) nofun
  | begun _ onwards within candidate heard =>
      refine ⟨(sound _ rfl).distinct, ?_, ?_⟩
      · rintro _ _ ⟨⟩
        exact ⟨onwards, within⟩
      · rintro _ ⟨⟩
        exact ⟨candidate, heard⟩
  | released => exact ⟨(sound _ rfl).distinct, nofun, nofun⟩
  | installed => exact ⟨distinct_noteWhole (sound _ rfl).distinct, nofun, nofun⟩
  | finished idle =>
      refine ⟨List.nodup_nil, fun _ _ held => ?_, fun _ held => ?_⟩
      · exact absurd (idle.symm.trans held) nofun
      · exact absurd (idle.symm.trans held) nofun

variable {before : Mark}

/-- A copy that is not retired does not fall back in any target. -/
theorem Turn.onwards (turn : Turn ends (some before) (some after)) (sound : before.Sound)
    (lively : after.retired = false) (name : Name)
    : before.reaches name ≤ after.reaches name := by
  unfold Mark.reaches
  cases turn with
  | keeps keeps =>
      cases keeps
      exact le_rfl
  | retired => cases lively
  | passed =>
      have passed := (@covered_pass before.coverage name (before.position + 1) sound.distinct).1
      dsimp only
      omega
  | noted _ exact' further =>
      dsimp only
      rw [covered_note sound.distinct exact' further]
      split
      next same =>
        subst same
        omega
      · exact le_rfl
  | begun => exact le_rfl
  | released => exact le_rfl
  | @installed _ hold held isLively =>
      have within := (sound.within isLively hold held).2
      have most := @covered_le before.coverage name hold.position sound.distinct within
      dsimp only
      rw [covered_noteWhole sound.distinct]
      split <;> omega
  | finished _ onwards within =>
      have most := @covered_le before.coverage name _ sound.distinct within
      dsimp only
      rw [covered_nil]
      omega

/-- Who holds a copy goes on holding it. -/
theorem Turn.held {after : Option Mark} (turn : Turn false (some before) after)
    (held : before.task.isSome = true)
    : ∃ later, after = some later ∧ later.task = before.task := by
  cases turn with
  | keeps keeps =>
      cases keeps with
      | same => exact ⟨before, rfl, rfl⟩
      | forgotten _ idle => simp [idle] at held
  | retired => exact ⟨_, rfl, rfl⟩
  | passed idle => simp [idle] at held
  | noted idle => simp [idle] at held
  | begun idle => simp [idle] at held
  | finished idle => simp [idle] at held

section

variable {State Item Failure : Type} {copies : State → Assoc Bytes (Replica Item Failure)}
  {advance : State → Bytes → State × Option Fault} {forget : State → Bytes → State} {now : Int}
  {held : Option Bytes} {state : State}

/-- A sweep lets a copy age. Witness: induction over the copies. -/
theorem keeps_sweep
    (advanced : ∀ state other id,
      ((copies (advance state other).1).get? id).map mark = ((copies state).get? id).map mark)
    (forgets : ∀ state other id,
      (∀ mark', ((copies state).get? other).map mark = some mark' → mark'.task = none)
      → Keeps (((copies state).get? id).map mark) (((copies (forget state other)).get? id).map mark))
    (ids : List Bytes) (id : Bytes)
    : Keeps (((copies state).get? id).map mark)
        (((copies (Schedule.sweep copies advance forget now held ids state).1).get? id).map mark) := by
  induction ids generalizing state with
  | nil => exact .same _
  | cons other rest ih =>
      unfold Schedule.sweep
      split
      · exact ih
      rename_i replica isReplica
      split
      · exact ih
      split
      · exact ih
      rename_i idle
      have aged := advanced state other id
      have agedOther := advanced state other other
      generalize advance state other = result at aged agedOther
      obtain ⟨next, fault⟩ := result
      dsimp only at aged agedOther
      rw [isReplica] at agedOther
      rw [← aged]
      cases fault with
      | some fault => exact .same _
      | none =>
          refine (forgets next other id fun mark' isMark => ?_).trans ih
          rw [agedOther] at isMark
          cases isMark
          simpa [Replica.mark, Replica.busy] using idle

end

end Replica

-- One task

namespace Restore

variable {Item Failure : Type} [DecidableEq Failure]

/-- `step`, with the reply of the domain to what it asks of it. What failed is not tried again. -/
def step (capacity : Failure) (restore : Restore Item Failure) (reply : Answer Failure Unit)
    : Answer Failure Bool × Restore Item Failure :=
  match restore.failure with
  | some failure => (.error failure, restore)
  | none =>
      if restore.done then
        (.ok true, restore)
      else if restore.scopes ≠ [] then
        let next := restore.installed capacity reply
        match next.failure, reply with
        | some failure, _ => (.error failure, next)
        | none, .thrown fault => (.thrown fault, next)
        | none, _ => (.ok false, next)
      else if restore.deferred ≠ [] then
        (.ok false, restore.again)
      else
        match reply with
        | .ok () => (.ok true, restore.finished reply)
        | .error failure => (.error failure, restore.finished reply)
        | .thrown fault => (.thrown fault, restore.finished reply)

def steps (capacity : Failure) (restore : Restore Item Failure) (replies : Nat → Answer Failure Unit)
    : Nat → Restore Item Failure
  | 0 => restore
  | count + 1 => ((restore.steps capacity replies count).step capacity (replies count)).2

def work (restore : Restore Item Failure) : Nat :=
  (if restore.retried then restore.scopes.length else 3 * restore.scopes.length)
    + 2 * restore.deferred.length + 1

variable {capacity : Failure} {restore : Restore Item Failure}

theorem step_of_scopes (active : restore.active = true) (some' : restore.scopes ≠ [])
    (reply : Answer Failure Unit)
    : (restore.step capacity reply).2 = restore.installed capacity reply := by
  simp only [Restore.active, Bool.and_eq_true, Option.isNone_iff_eq_none, Bool.not_eq_true'] at active
  simp only [step, active.1, active.2, Bool.false_eq_true, if_false, if_pos some']
  split <;> rfl

theorem step_of_deferred (active : restore.active = true) (over' : restore.scopes = [])
    (some' : restore.deferred ≠ []) (reply : Answer Failure Unit)
    : (restore.step capacity reply).2 = restore.again := by
  simp only [Restore.active, Bool.and_eq_true, Option.isNone_iff_eq_none, Bool.not_eq_true'] at active
  simp [step, active.1, active.2, over', some']

theorem step_of_left (active : restore.active = true) (over' : restore.left = [])
    (reply : Answer Failure Unit)
    : (restore.step capacity reply).2 = restore.finished reply := by
  simp only [Restore.active, Bool.and_eq_true, Option.isNone_iff_eq_none, Bool.not_eq_true'] at active
  obtain ⟨scopes, deferred⟩ := List.append_eq_nil_iff.mp over'
  simp only [step, active.1, active.2, scopes, deferred, Bool.false_eq_true, if_false, ne_eq,
    not_true_eq_false]
  cases reply <;> rfl

/-- A step that ends without an exception ends the task or leaves less to do. -/
theorem work_step (reply : Answer Failure Unit) (answered : ∀ fault, reply ≠ .thrown fault)
    (active : restore.active = true)
    : (restore.step capacity reply).2.active = false
      ∨ (restore.step capacity reply).2.work < restore.work := by
  obtain ⟨draft, scopes, deferred, retried, failure, done⟩ := restore
  simp only [Restore.active, Bool.and_eq_true, Option.isNone_iff_eq_none, Bool.not_eq_true'] at active
  obtain ⟨rfl, rfl⟩ := active
  cases scopes with
  | nil =>
      cases deferred with
      | nil =>
          left
          cases reply with
          | ok => rfl
          | error failure => rfl
          | thrown fault => exact absurd rfl (answered fault)
      | cons scope rest =>
          right
          change rest.length + 1 + 2 * 0 + 1 < _
          cases retried <;> simp [work]
  | cons scope rest =>
      cases reply with
      | ok =>
          right
          cases retried <;> simp [step, installed, work]
      | error failure =>
          by_cases final : failure ≠ capacity ∨ retried = true
          · left
            simp [step, installed, final, Restore.active]
          · right
            push Not at final
            simp [step, installed, final, work]
            omega
      | thrown fault => exact absurd rfl (answered fault)

/-- A task that is over stays so. -/
theorem step_of_ended (ended : restore.active = false) (reply : Answer Failure Unit)
    : (restore.step capacity reply).2 = restore := by
  obtain ⟨draft, scopes, deferred, retried, failure, done⟩ := restore
  cases failure with
  | some failure => rfl
  | none =>
      have isDone : done = true := by simpa [Restore.active] using ended
      subst isDone
      rfl

/-- Whatever the replies are, a task comes to its end. Witness: induction over the steps, each leaves
less to do.
-/
theorem ends (replies : Nat → Answer Failure Unit)
    (answered : ∀ count fault, replies count ≠ .thrown fault)
    : (restore.steps capacity replies restore.work).active = false := by
  have least (count : Nat)
      : (restore.steps capacity replies count).active = false
        ∨ (restore.steps capacity replies count).work + count ≤ restore.work := by
    induction count with
    | zero => exact .inr le_rfl
    | succ count ih =>
        rcases ih with ended | less
        · left
          rw [steps, step_of_ended ended]
          exact ended
        · cases active : (restore.steps capacity replies count).active with
          | false =>
              left
              rw [steps, step_of_ended active]
              exact active
          | true =>
              rw [steps]
              rcases @work_step _ _ _ capacity _ (replies count) (answered count) active
                with ended | further
              · exact .inl ended
              · right
                omega
  rcases least restore.work with ended | less
  · exact ended
  · have some' : 0 < (restore.steps capacity replies restore.work).work := by
      unfold work
      omega
    omega

end Restore

-- A task in its domain

/-- A domain with one of its copies, and what a task asks of it. `completes` names the step that ends
the installation by which the copy is held.
-/
structure Restore.Host (State Action Item Failure : Type) where
  mark : State → Option Replica.Mark
  act : State → Action → Option State
  completes : Action → Bool
  begin : State → Origin.Draft Item → Scope → Moment → Option (Answer Failure Unit) × State
  complete : State → Moment → Answer Failure Unit × State
  finish : State → Nat → Answer Failure Unit × State

variable {State Action Item Failure : Type}

structure Restore.Host.Lawful (host : Restore.Host State Action Item Failure) (Reached : State → Prop)
    : Prop where
  act : ∀ {state action next}, Reached state → host.act state action = some next
    → Reached next ∧ Replica.Turn (host.completes action) (host.mark state) (host.mark next)
  sound : ∀ {state mark}, Reached state → host.mark state = some mark → mark.Sound
  refused : ∀ {state draft scope moment reply next}, Reached state
    → (∀ mark, host.mark state = some mark → mark.task = none)
    → host.begin state draft scope moment = (some reply, next)
    → Reached next ∧ host.mark next = host.mark state ∧ reply ≠ .ok ()
  begun : ∀ {state draft scope moment next}, Reached state
    → (∀ mark, host.mark state = some mark → mark.task = none)
    → host.begin state draft scope moment = (none, next)
    → Reached next ∧ ∃ mark hold, host.mark state = some mark ∧ hold.position = draft.position
      ∧ hold.scope = scope ∧ host.mark next = some { mark with task := some hold }
  completed : ∀ {state moment reply next mark hold}, Reached state
    → host.mark state = some mark → mark.task = some hold
    → host.complete state moment = (reply, next)
    → Reached next
      ∧ (reply = .ok () → mark.retired = false
        ∧ host.mark next
          = some { mark with
              task := none
              coverage := Replica.noteWhole hold.scope hold.position mark.coverage })
      ∧ (reply ≠ .ok () → host.mark next = some { mark with task := none })
  finished : ∀ {state position reply next}, Reached state
    → (∀ mark, host.mark state = some mark → mark.task = none)
    → host.finish state position = (reply, next)
    → Reached next
      ∧ (reply = .ok () → ∃ mark, host.mark state = some mark
        ∧ host.mark next = some { mark with position, coverage := [] })
      ∧ (reply ≠ .ok () → host.mark next = host.mark state)

/-- A domain and one task. What the task has installed so far is not there in the code, nor whether
the copy was retired or given up in the meantime.
-/
structure Restoring (State Item Failure : Type) where
  state : State
  restore : Restore Item Failure
  installing : Bool := false
  installed : List Scope := []
  lost : Bool := false

namespace Restoring

inductive Step (Action : Type) where
  | other (action : Action)
  | begin (moment : Moment)
  | complete (moment : Moment)
  | again
  | finish

variable (host : Restore.Host State Action Item Failure)

def free (system : Restoring State Item Failure) : Bool :=
  (host.mark system.state).all (·.task.isNone)

def watch (system : Restoring State Item Failure) : Restoring State Item Failure :=
  { system with lost := system.lost || (host.mark system.state).all (·.retired) }

/-- One step. An installation gives up the lock of the domain in between. -/
def move [DecidableEq Failure] (capacity : Failure) (system : Restoring State Item Failure) : Step Action → Option (Restoring State Item Failure)
  | .other action =>
      if system.installing && host.completes action then
        none
      else
        (host.act system.state action).map fun state => { system with state }
  | .begin moment =>
      match system.restore.scopes with
      | [] => none
      | scope :: _ =>
          if system.restore.active && !system.installing && system.free host then
            match host.begin system.state system.restore.draft scope moment with
            | (some reply, state) =>
                some { system with state, restore := (system.restore.step capacity reply).2 }
            | (none, state) => some { system with state, installing := true }
          else
            none
  | .complete moment =>
      match system.restore.scopes with
      | [] => none
      | scope :: _ =>
          if system.installing then
            match host.complete system.state moment with
            | (reply, state) =>
                some
                  { system with
                    state
                    restore := (system.restore.step capacity reply).2
                    installing := false
                    installed :=
                      if reply = .ok () then system.installed ++ [scope] else system.installed }
          else
            none
  | .again =>
      if system.restore.active ∧ system.restore.scopes = [] ∧ system.restore.deferred ≠ [] then
        some { system with restore := (system.restore.step capacity (.ok ())).2 }
      else
        none
  | .finish =>
      if system.restore.active ∧ system.restore.left = [] ∧ system.free host then
        match host.finish system.state system.restore.draft.position with
        | (reply, state) =>
            some { system with state, restore := (system.restore.step capacity reply).2 }
      else
        none

def step [DecidableEq Failure] (capacity : Failure) (system : Restoring State Item Failure)
    (action : Step Action)
    : Option (Restoring State Item Failure) :=
  (system.move host capacity action).map (·.watch host)

def Step.isTask : Step Action → Bool
  | .other _ => false
  | _ => true

/-- What counts of the copy without who holds it: how far it is confirmed and covered. -/
def extent (system : Restoring State Item Failure) : Option (Nat × List Replica.Coverage) :=
  (host.mark system.state).map fun mark => (mark.position, mark.coverage)

def position (system : Restoring State Item Failure) : Option Nat :=
  (host.mark system.state).map Replica.Mark.position

/-- What holds as long as the task is there, for all Scopes that it has to install. -/
structure Inv (Reached : State → Prop) (draft : Origin.Draft Item) (all : List Scope)
    (system : Restoring State Item Failure)
    : Prop where
  reached : Reached system.state
  same : system.restore.draft = draft
  left : ∀ scope ∈ all, scope ∈ system.restore.left ∨ scope ∈ system.installed
  held : system.installing = true → system.restore.active = true
    ∧ ∃ mark hold rest, host.mark system.state = some mark
      ∧ system.restore.scopes = hold.scope :: rest ∧ mark.task = some hold
      ∧ hold.position = draft.position
  covered : system.lost = false → ∀ mark, host.mark system.state = some mark → mark.retired = false
    → ∀ name : Origin.Name, name.scope ∈ system.installed → draft.position ≤ mark.reaches name

def Present (system : Restoring State Item Failure) : Prop :=
  system.lost = false → ∃ mark, host.mark system.state = some mark ∧ mark.retired = false

section

variable {host} {Reached : State → Prop} {draft : Origin.Draft Item} {all : List Scope}
  {system next : Restoring State Item Failure} {action : Step Action}

theorem idle_of_free (free : system.free host = true)
    : ∀ mark, host.mark system.state = some mark → mark.task = none := by
  intro mark isMark
  simpa [Restoring.free, isMark] using free

variable {state : State}

/-- Other steps may do anything to the copy but end the installation. -/
theorem Inv.other (inv : Inv host Reached draft all system) (present : Present host system)
    (lawful : host.Lawful Reached) {action : Action}
    (apart : (system.installing && host.completes action) = false)
    (acted : host.act system.state action = some state)
    : Inv host Reached draft all { system with state } := by
  obtain ⟨reached, turn⟩ := lawful.act inv.reached acted
  refine ⟨reached, inv.same, inv.left, fun installing => ?_, fun kept mark isMark lively name inside => ?_⟩
  · obtain ⟨active, mark, hold, rest, isMark, isScopes, isTask, same⟩ := inv.held installing
    have foreign : host.completes action = false := by
      simpa [show system.installing = true from installing] using apart
    rw [foreign, isMark] at turn
    obtain ⟨later, isLater, still⟩ := turn.held (by rw [isTask]; rfl)
    exact ⟨active, later, hold, rest, isLater, isScopes, still.trans isTask, same⟩
  · obtain ⟨old, isOld, wasLively⟩ := present kept
    rw [isOld, show host.mark state = some mark from isMark] at turn
    exact (inv.covered kept old isOld wasLively name inside).trans
      (turn.onwards (lawful.sound inv.reached isOld) lively name)

theorem position_of_extent (same : next.extent host = system.extent host)
    : next.position host = system.position host := by
  have first := congrArg (Option.map Prod.fst) same
  simpa [Restoring.extent, Restoring.position, Function.comp_def] using first

variable [DecidableEq Failure] {capacity : Failure}

/-- An installation begins, or is refused. -/
theorem Inv.begin (inv : Inv host Reached draft all system) (lawful : host.Lawful Reached)
    {scope : Scope} {rest : List Scope} (isScopes : system.restore.scopes = scope :: rest)
    (active : system.restore.active = true) (idle : system.installing = false)
    (free : system.free host = true) {moment : Moment} {reply : Option (Answer Failure Unit)}
    {state : State}
    (begun : host.begin system.state system.restore.draft scope moment = (reply, state))
    : Inv host Reached draft all
      (match reply with
      | some reply => { system with state, restore := (system.restore.step capacity reply).2 }
      | none => { system with state, installing := true }) := by
  cases reply with
  | some reply =>
      obtain ⟨reached, same, refused⟩ := lawful.refused inv.reached (idle_of_free free) begun
      have stepped := @Restore.step_of_scopes _ _ _ capacity _ active (by simp [isScopes]) reply
      refine ⟨reached, ?_, fun scope listed => ?_, fun installing => ?_, ?_⟩
      · dsimp only
        rw [stepped, Restore.draft_installed]
        exact inv.same
      · refine (inv.left scope listed).imp (fun isLeft => ?_) id
        dsimp only
        rw [stepped]
        exact (Restore.mem_left_installed isLeft).resolve_right fun done => refused done.1
      · exact absurd (idle.symm.trans installing) nofun
      · intro kept mark isMark
        exact inv.covered kept mark (same.symm.trans isMark)
  | none =>
      obtain ⟨reached, mark, hold, isMark, isPosition, isScope, isNext⟩ :=
        lawful.begun inv.reached (idle_of_free free) begun
      refine ⟨reached, inv.same, inv.left, fun _ => ⟨active, _, hold, rest, isNext, ?_, rfl, ?_⟩, ?_⟩
      · rw [isScope]
        exact isScopes
      · rw [isPosition, inv.same]
      · intro kept later isLater lively name inside
        rw [show host.mark state = some later from isLater] at isNext
        cases isNext
        exact inv.covered kept mark isMark lively name inside

/-- An installation ends. -/
theorem Inv.complete (inv : Inv host Reached draft all system) (lawful : host.Lawful Reached)
    {scope : Scope} {rest : List Scope} (isScopes : system.restore.scopes = scope :: rest)
    (installing : system.installing = true) {moment : Moment} {reply : Answer Failure Unit}
    {state : State} (completed : host.complete system.state moment = (reply, state))
    : Inv host Reached draft all
      { system with
        state
        restore := (system.restore.step capacity reply).2
        installing := false
        installed := if reply = .ok () then system.installed ++ [scope] else system.installed } := by
  obtain ⟨active, mark, hold, _, isMark, again, isTask, isPosition⟩ := inv.held installing
  rw [isScopes] at again
  cases again
  obtain ⟨reached, taken, refused⟩ := lawful.completed inv.reached isMark isTask completed
  have stepped := @Restore.step_of_scopes _ _ _ capacity _ active (by simp [isScopes]) reply
  refine ⟨reached, ?_, fun other listed => ?_, nofun, ?_⟩
  · dsimp only
    rw [stepped, Restore.draft_installed]
    exact inv.same
  · dsimp only
    rw [stepped]
    rcases inv.left other listed with isLeft | done
    · rcases @Restore.mem_left_installed _ _ _ _ capacity reply _ isLeft with still | ⟨done, isHead⟩
      · exact .inl still
      · rw [isScopes] at isHead
        cases isHead
        exact .inr (by simp [done])
    · right
      split
      · exact List.mem_append_left _ done
      · exact done
  · intro kept later isLater lively name inside
    dsimp only at isLater inside
    by_cases done : reply = .ok ()
    · obtain ⟨wasLively, isNext⟩ := taken done
      rw [isLater] at isNext
      cases isNext
      rw [if_pos done, List.mem_append, List.mem_singleton] at inside
      have sound := lawful.sound inv.reached isMark
      unfold Replica.Mark.reaches
      dsimp only
      rw [Replica.covered_noteWhole sound.distinct, isPosition]
      split
      · exact le_max_right _ _
      rename_i outside
      exact inv.covered kept mark isMark wasLively name (inside.resolve_right outside)
    · have isNext := refused done
      rw [isLater] at isNext
      cases isNext
      rw [if_neg done] at inside
      exact inv.covered kept mark isMark lively name inside

/-- The source is confirmed at the end, or not. -/
theorem Inv.finish (inv : Inv host Reached draft all system) (lawful : host.Lawful Reached)
    (active : system.restore.active = true) (nothing : system.restore.left = [])
    (free : system.free host = true) {reply : Answer Failure Unit} {state : State}
    (finished : host.finish system.state system.restore.draft.position = (reply, state))
    : Inv host Reached draft all
      { system with state, restore := (system.restore.step capacity reply).2 } := by
  obtain ⟨reached, taken, refused⟩ := lawful.finished inv.reached (idle_of_free free) finished
  have stepped := @Restore.step_of_left _ _ _ capacity _ active nothing reply
  refine ⟨reached, ?_, fun scope listed => ?_, fun installing => ?_, ?_⟩
  · dsimp only
    rw [stepped, Restore.draft_finished]
    exact inv.same
  · dsimp only
    rw [stepped, Restore.left_finished]
    exact inv.left scope listed
  · obtain ⟨_, _, _, _, _, isScopes, _⟩ := inv.held installing
    rw [Restore.left, isScopes] at nothing
    cases nothing
  · intro kept later isLater lively name inside
    dsimp only at isLater
    by_cases done : reply = .ok ()
    · obtain ⟨mark, _, isNext⟩ := taken done
      rw [isLater] at isNext
      cases isNext
      rw [inv.same]
      exact le_max_left _ _
    · rw [refused done] at isLater
      exact inv.covered kept later isLater lively name inside

theorem Inv.move (inv : Inv host Reached draft all system) (present : Present host system)
    (lawful : host.Lawful Reached) (moved : system.move host capacity action = some next)
    : Inv host Reached draft all next := by
  cases action with
  | other action =>
      simp only [Restoring.move] at moved
      split at moved
      · cases moved
      rename_i apart
      obtain ⟨state, acted, rfl⟩ := Option.map_eq_some_iff.mp moved
      exact inv.other present lawful (Bool.not_eq_true _ |>.mp apart) acted
  | begin moment =>
      simp only [Restoring.move] at moved
      split at moved
      · cases moved
      rename_i scope rest isScopes
      split at moved
      next guard =>
        simp only [Bool.and_eq_true, Bool.not_eq_true'] at guard
        obtain ⟨⟨active, idle⟩, free⟩ := guard
        generalize begun : host.begin system.state system.restore.draft scope moment = result
          at moved
        obtain ⟨reply, state⟩ := result
        cases reply with
        | some reply =>
            cases moved
            exact inv.begin lawful isScopes active idle free begun
        | none =>
            cases moved
            exact @Inv.begin _ _ _ _ _ _ _ _ _ _ capacity inv lawful _ _ isScopes active idle free
              _ none _ begun
      · cases moved
  | complete moment =>
      simp only [Restoring.move] at moved
      split at moved
      · cases moved
      rename_i scope rest isScopes
      split at moved
      next installing =>
        cases moved
        exact inv.complete lawful isScopes installing rfl
      · cases moved
  | again =>
      simp only [Restoring.move] at moved
      split at moved
      next guard =>
        obtain ⟨active, nothing, some'⟩ := guard
        cases moved
        have stepped := @Restore.step_of_deferred _ _ _ capacity _ active nothing some' (.ok ())
        refine ⟨inv.reached, ?_, fun scope listed => ?_, fun installing => ?_, inv.covered⟩
        · dsimp only
          rw [stepped]
          exact inv.same
        · dsimp only
          rw [stepped, Restore.left_again nothing]
          exact inv.left scope listed
        · obtain ⟨_, _, _, _, _, isScopes, _⟩ := inv.held installing
          rw [isScopes] at nothing
          cases nothing
      · cases moved
  | finish =>
      simp only [Restoring.move] at moved
      split at moved
      next guard =>
        obtain ⟨active, nothing, free⟩ := guard
        cases moved
        exact inv.finish lawful active nothing free rfl
      · cases moved

theorem Inv.step (inv : Inv host Reached draft all system) (present : Present host system)
    (lawful : host.Lawful Reached) (stepped : system.step host capacity action = some next)
    : Inv host Reached draft all next ∧ Present host next := by
  obtain ⟨middle, moved, rfl⟩ := Option.map_eq_some_iff.mp stepped
  have invMiddle := inv.move present lawful moved
  refine ⟨⟨invMiddle.reached, invMiddle.same, invMiddle.left, invMiddle.held, fun kept => ?_⟩,
    fun kept => ?_⟩
  · simp only [Restoring.watch, Bool.or_eq_false_iff] at kept
    exact invMiddle.covered kept.1
  · simp only [Restoring.watch, Bool.or_eq_false_iff] at kept ⊢
    cases isMark : host.mark middle.state with
    | none => simp [isMark] at kept
    | some mark => exact ⟨mark, rfl, by simpa [isMark] using kept.2⟩

/-- What the steps of a task do to how far the copy is confirmed and covered. -/
structure Confirms (host : Restore.Host State Action Item Failure) (capacity : Failure)
    (draft : Origin.Draft Item) (all : List Scope) (system : Restoring State Item Failure)
    : Prop where
  /-- The source is confirmed when everything was installed, up to the complete state. -/
  moved : ∀ action next, action.isTask = true → system.step host capacity action = some next
    → next.position host ≠ system.position host
    → next.restore.done = true ∧ next.position host = some draft.position
      ∧ ∀ scope ∈ all, scope ∈ system.installed
  /-- A failure changes nothing. -/
  failed : ∀ action next, action.isTask = true → system.step host capacity action = some next
    → next.restore.failure.isSome = true
    → next.extent host = system.extent host ∧ next.installed = system.installed
  /-- Nothing else changes anything either but an installation or the confirmation. -/
  kept : ∀ action next, action.isTask = true → system.step host capacity action = some next
    → next.installed = system.installed → next.restore.done = false
    → next.extent host = system.extent host
  /-- What is installed stays covered. -/
  covered : system.lost = false → ∃ mark, host.mark system.state = some mark
    ∧ ∀ name : Origin.Name, name.scope ∈ system.installed → draft.position ≤ mark.reaches name

/-- How the copy changes with one step of the task: not at all, with an installation that succeeds,
or when everything is installed.
-/
theorem Inv.extent (inv : Inv host Reached draft all system) (lawful : host.Lawful Reached)
    (isTask : action.isTask = true) (stepped : system.step host capacity action = some next)
    : next.extent host = system.extent host ∧ next.installed = system.installed
      ∨ (∃ scope, next.installed = system.installed ++ [scope])
        ∧ next.position host = system.position host ∧ next.restore.failure = none
      ∨ next.restore.done = true ∧ next.restore.failure = none
        ∧ next.position host = some draft.position ∧ ∀ scope ∈ all, scope ∈ system.installed := by
  obtain ⟨middle, moved, rfl⟩ := Option.map_eq_some_iff.mp stepped
  cases action with
  | other => cases isTask
  | begin moment =>
      simp only [Restoring.move] at moved
      split at moved
      · cases moved
      rename_i scope rest isScopes
      split at moved
      next guard =>
        simp only [Bool.and_eq_true, Bool.not_eq_true'] at guard
        generalize begun : host.begin system.state system.restore.draft scope moment = result
          at moved
        obtain ⟨reply, state⟩ := result
        left
        cases reply with
        | some reply =>
            cases moved
            obtain ⟨_, same, _⟩ := lawful.refused inv.reached (idle_of_free guard.2) begun
            exact ⟨congrArg (Option.map _) same, rfl⟩
        | none =>
            cases moved
            obtain ⟨_, mark, hold, isMark, _, _, isNext⟩ :=
              lawful.begun inv.reached (idle_of_free guard.2) begun
            refine ⟨?_, rfl⟩
            simp only [Restoring.extent, Restoring.watch, isMark, isNext, Option.map_some]
      · cases moved
  | complete moment =>
      simp only [Restoring.move] at moved
      split at moved
      · cases moved
      rename_i scope rest isScopes
      split at moved
      next installing =>
        cases moved
        obtain ⟨active, mark, hold, _, isMark, again, isTask, isPosition⟩ := inv.held installing
        obtain ⟨_, taken, refused⟩ := lawful.completed inv.reached isMark isTask
          (Prod.mk.eta (p := host.complete system.state moment)).symm
        by_cases done : (host.complete system.state moment).1 = .ok ()
        · right
          left
          obtain ⟨_, isNext⟩ := taken done
          refine ⟨⟨scope, by simp [Restoring.watch, done]⟩, ?_, ?_⟩
          · simp only [Restoring.position, Restoring.watch, isMark, isNext, Option.map_some]
          · simp only [Restoring.watch]
            rw [Restore.step_of_scopes active (by simp [isScopes])]
            simp only [Restore.active, Bool.and_eq_true, Option.isNone_iff_eq_none] at active
            simp [Restore.installed, isScopes, done, active.1]
        · left
          refine ⟨?_, by simp [Restoring.watch, done]⟩
          simp only [Restoring.extent, Restoring.watch, isMark, refused done, Option.map_some]
      · cases moved
  | again =>
      simp only [Restoring.move] at moved
      split at moved
      · cases moved
        exact .inl ⟨rfl, rfl⟩
      · cases moved
  | finish =>
      simp only [Restoring.move] at moved
      split at moved
      next guard =>
        obtain ⟨active, nothing, free⟩ := guard
        cases moved
        obtain ⟨_, taken, refused⟩ := lawful.finished inv.reached (idle_of_free free)
          (Prod.mk.eta (p := host.finish system.state system.restore.draft.position)).symm
        by_cases done : (host.finish system.state system.restore.draft.position).1 = .ok ()
        · right
          right
          obtain ⟨mark, isMark, isNext⟩ := taken done
          have finished := @Restore.step_of_left _ _ _ capacity _ active nothing
            (host.finish system.state system.restore.draft.position).1
          simp only [Restore.active, Bool.and_eq_true, Option.isNone_iff_eq_none] at active
          refine ⟨?_, ?_, ?_, fun scope listed => ?_⟩
          · change (system.restore.step capacity _).2.done = true
            rw [finished, done]
            rfl
          · change (system.restore.step capacity _).2.failure = none
            rw [finished, done]
            exact active.1
          · have far : system.restore.draft.position = draft.position :=
              congrArg Origin.Draft.position inv.same
            exact (congrArg (Option.map Replica.Mark.position) isNext).trans (congrArg some far)
          · refine (inv.left scope listed).resolve_left fun isLeft => ?_
            rw [nothing] at isLeft
            cases isLeft
        · exact .inl ⟨congrArg (Option.map _) (refused done), rfl⟩
      · cases moved

theorem Inv.confirms (inv : Inv host Reached draft all system) (present : Present host system)
    (lawful : host.Lawful Reached)
    : Confirms host capacity draft all system where
  moved action next isTask stepped differs := by
    rcases inv.extent lawful isTask stepped with ⟨same, _⟩ | ⟨_, same, _⟩ | ⟨done, _, far, whole⟩
    · exact absurd (position_of_extent same) differs
    · exact absurd same differs
    · exact ⟨done, far, whole⟩
  failed action next isTask stepped failed := by
    rcases inv.extent lawful isTask stepped with same | ⟨_, _, none⟩ | ⟨_, none, _⟩
    · exact same
    · simp [none] at failed
    · simp [none] at failed
  kept action next isTask stepped same unfinished := by
    rcases inv.extent lawful isTask stepped with ⟨still, _⟩ | ⟨⟨scope, added⟩, _⟩ | ⟨done, _⟩
    · exact still
    · rw [same] at added
      simp at added
    · rw [unfinished] at done
      cases done
  covered kept := by
    obtain ⟨mark, isMark, lively⟩ := present kept
    exact ⟨mark, isMark, inv.covered kept mark isMark lively⟩

end

end Restoring

end Astra
