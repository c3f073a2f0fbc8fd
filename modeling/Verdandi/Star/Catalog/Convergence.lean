import Verdandi.Star.Catalog.Mirroring

/-! Replication converges: in whatever order facts arrive, a copy has of each target what its source
had where the copy is with that target, but for leases that have ended.
-/

namespace Astra.Catalog

open Support
open Origin (Name)

namespace Exchange

open State (Copy Until Onwards Keeps Spares Owns Coherent Wrote Passes Turn Turned Learned)

variable {layout : Layout} {id : Bytes} {before after : Exchange}

-- Times and logs

def Reached (exchange : Exchange) (now : Int) : Prop :=
  exchange.sender.Until now ∧ exchange.receiver.Until now

def Honest (log : List (Entry Name Record)) : Prop :=
  ∀ first ∈ log, ∀ second ∈ log, first.key = second.key
    → ∀ left right, first.value = some left → second.value = some right
      → left.version = right.version → left.value = right.value

variable {log more : List (Entry Name Record)}

theorem Honest.of_append (honest : Honest (log ++ more))
    : Honest log :=
  fun first one second other =>
    honest first (List.mem_append_left _ one) second (List.mem_append_left _ other)

def Recorded (log : List (Entry Name Record)) (event : Origin.Event Record) : Prop :=
  event.position ≠ 0 ∧ log[event.position - 1]? = some { key := event.name, value := event.record }

theorem Recorded.grow {log more : List (Entry Name Record)} {event : Origin.Event Record}
    (recorded : Recorded log event)
    : Recorded (log ++ more) event := by
  refine ⟨recorded.1, ?_⟩
  rw [List.getElem?_append_left (List.getElem?_eq_some_iff.mp recorded.2).1]
  exact recorded.2

variable {event : Origin.Event Record}

theorem Recorded.within (recorded : Recorded log event)
    : event.position ≤ log.length := by
  have bound := (List.getElem?_eq_some_iff.mp recorded.2).1
  omega

/-- Some time is late enough for both. -/
theorem exists_reached (exchange : Exchange) : ∃ now, exchange.Reached now := by
  refine ⟨max (exchange.sender.observed.getD 0) (exchange.receiver.observed.getD 0), ?_, ?_⟩
  · intro time isTime
    rw [isTime]
    exact le_max_left _ _
  · intro time isTime
    rw [isTime]
    exact le_max_right _ _

-- The sender

structure Sends (exchange : Exchange) : Prop where
  coherent : Coherent exchange.sender
  counted : exchange.sender.source.position = exchange.log.length
  known : ∀ name, Alike exchange.Reached (contentAfter exchange.log exchange.log.length name)
    (exchange.sender.source.find name)
  lasting : ∀ entry ∈ exchange.log, entry.value.isSome = true
  history : ∀ event ∈ exchange.sender.source.history, Recorded exchange.log event
  sent : ∀ event ∈ exchange.sent, Recorded exchange.log event
  views : ∀ view ∈ exchange.views, Known exchange.log exchange.Reached view.position view.root.get?
  points : ∀ point ∈ exchange.points, point.position ≤ exchange.log.length
    ∧ Alike exchange.Reached (contentAfter exchange.log point.position point.name) point.record

theorem sends_start (sender receiver : State.Limits) : Sends (start sender receiver) where
  coherent := State.coherent_start sender
  counted := rfl
  known _ := .refl _ _
  lasting := nofun
  history := nofun
  sent := nofun
  views := nofun
  points := nofun

/-- What was sent stays true as the log goes on and time passes. -/
theorem Sends.grow (sends : Sends before) {more : List (Entry Name Record)}
    (grown : after.log = before.log ++ more)
    (narrower : ∀ now, after.Reached now → before.Reached now)
    : (∀ event ∈ before.sent, Recorded after.log event)
      ∧ (∀ view ∈ before.views, Known after.log after.Reached view.position view.root.get?)
      ∧ ∀ point ∈ before.points, point.position ≤ after.log.length
        ∧ Alike after.Reached (contentAfter after.log point.position point.name) point.record := by
  rw [grown]
  refine ⟨fun event listed => (sends.sent event listed).grow,
    fun view listed => (sends.views view listed).grow narrower, fun point listed => ?_⟩
  obtain ⟨within, alike⟩ := sends.points point listed
  refine ⟨within.trans (by simp), fun now isNow => ?_⟩
  rw [contentAfter_append within]
  exact alike now (narrower now isNow)

/-- The sender does nothing to its own source but let it age. -/
theorem Sends.keeps (sends : Sends before) (coherent : Coherent after.sender)
    (keeps : Keeps before.sender after.sender) (same : after.log = before.log)
    (narrower : ∀ now, after.Reached now → before.Reached now)
    (sent : after.sent = before.sent) (views : after.views = before.views)
    (points : after.points = before.points)
    : Sends after := by
  have grown : after.log = before.log ++ [] := same.trans (List.append_nil _).symm
  obtain ⟨isSent, isView, isPoint⟩ := sends.grow grown narrower
  refine ⟨coherent, ?_, ?_, same ▸ sends.lasting, ?_, sent ▸ isSent, views ▸ isView,
    points ▸ isPoint⟩
  · rw [keeps.stays.position, same]
    exact sends.counted
  · intro name now isNow
    rw [same]
    exact (sends.known name now (narrower now isNow)).trans (keeps.source now isNow.1 name)
  · intro event listed
    rw [same]
    exact sends.history event (keeps.stays.history.subset listed)

variable {action : State.Action}

theorem committed_eq_nil {first last : State} (same : last.source.position = first.source.position)
    : committed first last action = [] := by
  unfold committed
  split
  · rw [if_pos same]
  · rfl

/-- The sender takes a step of its own. Witness: either its source only ages, or it commits one
record at the next position.
-/
theorem Sends.send (sends : Sends before) {sender : State}
    (stepped : before.sender.step layout action = some sender)
    : Sends
        { before with sender, log := before.log ++ committed before.sender sender action }
      ∧ Onwards before.sender sender := by
  have coherent := (sends.coherent.step stepped).coherent
  rcases sends.coherent.owns stepped with keeps | ⟨name, request, moment, middle, edit, rfl, keeps, wrote⟩
  · have silent : committed before.sender sender action = [] :=
      committed_eq_nil keeps.stays.position
    refine ⟨?_, keeps.onwards⟩
    rw [silent, List.append_nil]
    refine sends.keeps coherent keeps rfl ?_ rfl rfl rfl
    exact fun now isNow => ⟨keeps.onwards.until isNow.1, isNow.2⟩
  · have onwards : Onwards before.sender sender :=
      keeps.onwards.trans (State.onwards_of_eq wrote.observed)
    refine ⟨?_, onwards⟩
    obtain ⟨candidate, isRecord, _⟩ := wrote.record
    have moved : sender.source.position = before.sender.source.position + 1 := by
      rw [wrote.source, (edit.published middle.source).position, wrote.position,
        keeps.stays.position]
    have find : sender.source.find = Function.update middle.source.find name (some candidate) := by
      rw [wrote.source, State.find_commit, wrote.isName, isRecord]
    have isCommitted : committed before.sender sender (.change name request moment)
        = [{ key := name, value := some candidate }] := by
      change (if _ then _ else _) = _
      rw [if_neg (by omega), find, Function.update_self]
    rw [isCommitted]
    generalize isLast : ({ before with
      sender
      log := before.log ++ [{ key := name, value := some candidate }] } : Exchange) = last
    have isLog : last.log = before.log ++ [{ key := name, value := some candidate }] := by
      rw [← isLast]
    have isSender : last.sender = sender := by rw [← isLast]
    have narrower : ∀ now, last.Reached now → before.Reached now := by
      rw [← isLast]
      exact fun now isNow => ⟨onwards.until isNow.1, isNow.2⟩
    obtain ⟨isSent, isView, isPoint⟩ := sends.grow isLog narrower
    have length : last.log.length = before.log.length + 1 := by rw [isLog]; simp
    refine ⟨isSender ▸ coherent, ?_, ?_, ?_, ?_, ?_, ?_, ?_⟩
    · rw [isSender, moved, length, sends.counted]
    · intro other now isNow
      rw [length, isLog, contentAfter_concat, isSender, find, Function.update_apply,
        Function.update_apply]
      split
      · exact .inl rfl
      · have reached : middle.Until now := fun time isTime => by
          have isNow := isNow.1
          rw [isSender] at isNow
          exact isNow time (wrote.observed.trans isTime)
        exact (sends.known other now (narrower now isNow)).trans (keeps.source now reached other)
    · intro entry listed
      rw [isLog, List.mem_append, List.mem_singleton] at listed
      rcases listed with old | rfl
      · exact sends.lasting entry old
      · rfl
    · intro event listed
      rw [isSender, wrote.source, (edit.published middle.source).history] at listed
      rcases List.mem_append.mp (List.mem_of_mem_drop listed) with old | fresh
      · rw [isLog]
        exact (sends.history event (keeps.stays.history.subset old)).grow
      · obtain ⟨_, isName, isValue, isPosition, next⟩ :=
          wrote.fits.sent event (Option.mem_toList.mp fresh)
        have place : event.position = before.log.length + 1 := by
          rw [isPosition, next, keeps.stays.position, sends.counted]
        refine ⟨by omega, ?_⟩
        rw [isLog, place, Nat.add_sub_cancel, isName, wrote.isName, isValue, isRecord]
        simp
    · exact fun event listed => isSent event (by rw [← isLast] at listed; exact listed)
    · exact fun view listed => isView view (by rw [← isLast] at listed; exact listed)
    · exact fun point listed => isPoint point (by rw [← isLast] at listed; exact listed)

/-- What is delivered comes from the retained history, or is the source as it is. -/
theorem Sends.deliver (sends : Sends before) (since count bytes : Nat)
    : Sends (before.deliver since count bytes) := by
  unfold Exchange.deliver
  split
  · exact sends
  rename_i delivery delivered
  obtain ⟨events, baseline⟩ := Origin.mem_of_deliver delivered
  refine { sends with sent := ?_, views := ?_ }
  · intro event listed
    rcases List.mem_append.mp listed with old | fresh
    · exact sends.sent event old
    · exact sends.history event (events event fresh)
  · intro view listed
    rcases List.mem_append.mp listed with old | fresh
    · exact sends.views view old
    · rw [baseline view (Option.mem_toList.mp fresh)]
      have known : Known before.log before.Reached before.sender.source.capture.position
          before.sender.source.capture.root.get? := by
        refine ⟨sends.counted.le, fun name => ?_⟩
        change Alike _ (contentAfter _ before.sender.source.position _) _
        rw [sends.counted]
        exact sends.known name
      exact known

/-- A record that is read is that of the source at its position. -/
theorem Sends.resolve (sends : Sends before) (name : Name)
    : Sends
        { before with
          points := before.points ++
            [{ position := before.sender.source.position
               name
               record := before.sender.source.find name }] } := by
  refine { sends with points := ?_ }
  intro point listed
  rcases List.mem_append.mp listed with old | fresh
  · exact sends.points point old
  · rw [List.mem_singleton.mp fresh]
    refine ⟨sends.counted.le, ?_⟩
    dsimp only
    rw [sends.counted]
    exact sends.known name

/-- What the receiver does changes nothing of it. -/
theorem Sends.receiver (sends : Sends before) (sender : after.sender = before.sender)
    (log : after.log = before.log) (sent : after.sent = before.sent)
    (views : after.views = before.views) (points : after.points = before.points)
    (onwards : Onwards before.receiver after.receiver)
    : Sends after := by
  have keeps : Keeps before.sender after.sender := by
    rw [sender]
    exact ⟨State.onwards_of_eq rfl, fun now _ => .refl _ _, .refl _⟩
  refine sends.keeps (sender ▸ sends.coherent) keeps log ?_ sent views points
  exact fun now isNow => ⟨sender ▸ isNow.1, onwards.until isNow.2⟩

-- The copy

structure Follows (log : List (Entry Name Record)) (reached : Int → Prop) (first last : Option Copy)
    : Prop where
  fresh : first = none → ∀ next, last = some next → Mirrored log reached next
  kept : ∀ replica, first = some replica → Mirrored log reached replica
    → ∃ next, last = some next ∧ Mirrored log reached next
      ∧ ∀ name, far replica name ≤ far next name

section
variable {log : List (Entry Name Record)} {reached : Int → Prop}
  {first second third : Option Copy}

theorem Follows.trans (one : Follows log reached first second)
    (other : Follows log reached second third)
    : Follows log reached first third where
  fresh none next isNext := by
    cases isSecond : second with
    | none => exact other.fresh isSecond next isNext
    | some middle =>
        obtain ⟨last, isLast, mirrored, _⟩ :=
          other.kept middle isSecond (one.fresh none middle isSecond)
        rw [isNext] at isLast
        cases isLast
        exact mirrored
  kept replica isReplica mirrored := by
    obtain ⟨middle, isMiddle, mirroredMiddle, least⟩ := one.kept replica isReplica mirrored
    obtain ⟨next, isNext, mirroredNext, least'⟩ := other.kept middle isMiddle mirroredMiddle
    exact ⟨next, isNext, mirroredNext, fun name => (least name).trans (least' name)⟩

/-- A copy that only ages stays true. -/
theorem follows_of_fades (some' : ∃ now, reached now)
    (fades : ∀ now, reached now → State.Fades now first second)
    : Follows log reached first second where
  fresh none next isNext := by
    obtain ⟨now, isNow⟩ := some'
    have faded := fades now isNow
    rw [none, isNext] at faded
    cases faded
  kept replica isReplica mirrored := by
    subst isReplica
    obtain ⟨next, isNext, mirroredNext, same, _⟩ := mirrored.ages (fun _ => id) some' fades
    exact ⟨next, isNext, mirroredNext, fun name => (congrFun same name).ge⟩

theorem follows_of_admitted {known : Int → Prop} (admitted : State.Admitted known first second)
    : Follows log reached first second := by
  obtain ⟨none, replica, isReplica, find, position, coverage, idle, lively⟩ := admitted
  refine ⟨fun _ next isNext => ?_, fun held isHeld => ?_⟩
  · rw [isReplica] at isNext
    cases isNext
    exact mirrored_start lively find position coverage idle
  · rw [none] at isHeld
    cases isHeld

/-- What one operation on a copy leads to, once it is known what it does to a true copy. -/
theorem follows_of_learned {turn : Turn} {state next : State} {fault : Option Fault}
    {accepted : Prop} (learned : Learned id turn state fault next accepted)
    (some' : ∃ now, reached now) (within : ∀ now, reached now → next.Until now)
    (turns : ∀ held after,
      (∀ now, reached now → State.Fades now (state.replicas.get? id) held)
      → turn next.Until held after → Follows log reached held after)
    : Follows log reached (state.replicas.get? id) (next.replicas.get? id) := by
  rcases learned.outcome with ⟨_, passed⟩ | ⟨middle, passed, turned⟩
  · exact follows_of_fades some' fun now isNow => (passed.aged now (within now isNow)).copies id
  · have fades (now : Int) (isNow : reached now)
        : State.Fades now (state.replicas.get? id) (middle.replicas.get? id) :=
      (passed.aged now ((State.onwards_of_eq turned.observed).until (within now isNow))).copies id
    exact (follows_of_fades some' fades).trans (turns _ _ fades turned.own)

end

-- The receiver

/-- What holds of the receiver, of what it has read and of the tasks that restore its copy. -/
structure Receives (id : Bytes) (exchange : Exchange) : Prop where
  coherent : Coherent exchange.receiver
  read : ∀ pair ∈ exchange.read, pair.2.value.isSome = true
    → ∃ entry ∈ exchange.log, entry.key = pair.1 ∧ entry.value = some pair.2
  copy : ∀ replica, exchange.receiver.replicas.get? id = some replica
    → Mirrored exchange.log exchange.Reached replica
  restores : ∀ key restore, exchange.restores.get? key = some restore
    → ∃ replica, exchange.receiver.replicas.get? id = some replica
      ∧ Restoring exchange.log exchange.Reached replica restore
  installing : ∀ key, exchange.installing = some key
    → ∃ restore scope rest replica task, exchange.restores.get? key = some restore
      ∧ restore.scopes = scope :: rest ∧ exchange.receiver.replicas.get? id = some replica
      ∧ replica.task = some task ∧ task.draft = restore.draft ∧ task.scope = scope

theorem receives_start (sender receiver : State.Limits)
    : Receives id (start sender receiver) where
  coherent := State.coherent_start receiver
  read := nofun
  copy replica isReplica := by
    have none : (start sender receiver).receiver.replicas.get? id = none := Assoc.get?_empty id
    rw [none] at isReplica
    cases isReplica
  restores key restore isRestore := by
    have none : (start sender receiver).restores.get? key = none := Assoc.get?_empty key
    rw [none] at isRestore
    cases isRestore
  installing := nofun

/-- Nobody installs while the copy is free. -/
theorem Receives.idle (receives : Receives id before) (free : before.receiver.free id = true)
    : before.installing = none := by
  cases installing : before.installing with
  | none => rfl
  | some key =>
      obtain ⟨restore, scope, rest, replica, task, _, _, isReplica, isTask, _⟩ :=
        receives.installing key installing
      rw [State.idle_of_free isReplica free] at isTask
      cases isTask

/-- The sender goes on. -/
theorem Receives.sender (receives : Receives id before) (grown : after.log = before.log ++ more)
    (narrower : ∀ now, after.Reached now → before.Reached now)
    (receiver : after.receiver = before.receiver) (read : after.read = before.read)
    (restores : after.restores = before.restores)
    (installing : after.installing = before.installing)
    : Receives id after := by
  refine ⟨receiver ▸ receives.coherent, ?_, ?_, ?_, ?_⟩
  · intro pair listed isSome
    rw [read] at listed
    obtain ⟨entry, isEntry, found⟩ := receives.read pair listed isSome
    exact ⟨entry, by rw [grown]; exact List.mem_append_left _ isEntry, found⟩
  · intro replica isReplica
    rw [receiver] at isReplica
    rw [grown]
    exact (receives.copy replica isReplica).grow narrower
  · intro key restore isRestore
    rw [restores] at isRestore
    obtain ⟨replica, isReplica, restoring⟩ := receives.restores key restore isRestore
    rw [receiver, grown]
    exact ⟨replica, isReplica, restoring.grow narrower fun _ => le_rfl⟩
  · rw [installing, restores, receiver]
    exact receives.installing

/-- The copy goes on, and what was read and what restores it stays. -/
theorem Receives.turn (receives : Receives id before) {receiver : State}
    (coherent : Coherent receiver) (onwards : Onwards before.receiver receiver)
    (follows : Follows before.log ({ before with receiver } : Exchange).Reached
      (before.receiver.replicas.get? id) (receiver.replicas.get? id))
    (busy : before.installing = none ∨ ∀ replica next,
      before.receiver.replicas.get? id = some replica → receiver.replicas.get? id = some next
      → next.task = replica.task)
    : Receives id { before with receiver } := by
  have narrower (now : Int) (isNow : ({ before with receiver } : Exchange).Reached now)
      : before.Reached now := ⟨isNow.1, onwards.until isNow.2⟩
  have mirrored (replica : Copy) (isReplica : before.receiver.replicas.get? id = some replica)
      : Mirrored before.log ({ before with receiver } : Exchange).Reached replica := by
    have grown := @Mirrored.grow _ [] _ _ _ (receives.copy replica isReplica) narrower
    rwa [List.append_nil] at grown
  refine ⟨coherent, receives.read, ?_, ?_, ?_⟩
  · intro next isNext
    cases isReplica : before.receiver.replicas.get? id with
    | none => exact follows.fresh isReplica next isNext
    | some replica =>
        obtain ⟨last, isLast, mirroredNext, _⟩ :=
          follows.kept replica isReplica (mirrored replica isReplica)
        rw [isNext] at isLast
        cases isLast
        exact mirroredNext
  · intro key restore isRestore
    obtain ⟨replica, isReplica, restoring⟩ := receives.restores key restore isRestore
    obtain ⟨next, isNext, _, least⟩ :=
      follows.kept replica isReplica (mirrored replica isReplica)
    have grown := @Restoring.grow _ [] _ _ _ _ _ restoring narrower least
    rw [List.append_nil] at grown
    exact ⟨next, isNext, grown⟩
  · intro key isKey
    obtain ⟨restore, scope, rest, replica, task, isRestore, isScopes, isReplica, isTask, same⟩ :=
      receives.installing key isKey
    obtain ⟨next, isNext, _⟩ := follows.kept replica isReplica (mirrored replica isReplica)
    refine ⟨restore, scope, rest, next, task, isRestore, isScopes, isNext, ?_, same⟩
    rcases busy with none | kept
    · rw [none] at isKey
      cases isKey
    · rw [kept replica next isReplica isNext]
      exact isTask

/-- A task that restores the copy is exchanged. -/
theorem Receives.exchange (receives : Receives id before) {key : Nat}
    {restore : Restore Record State.Error} {installing : Option Nat}
    (restoring : ∃ replica, before.receiver.replicas.get? id = some replica
      ∧ Restoring before.log before.Reached replica restore)
    (installs : ∀ other, installing = some other
      → ∃ restore' scope rest replica task,
        (before.restores.set key restore).get? other = some restore'
        ∧ restore'.scopes = scope :: rest ∧ before.receiver.replicas.get? id = some replica
        ∧ replica.task = some task ∧ task.draft = restore'.draft ∧ task.scope = scope)
    : Receives id { before with restores := before.restores.set key restore, installing } := by
  refine { receives with restores := ?_, installing := installs }
  intro other held isHeld
  rw [Assoc.get?_set] at isHeld
  split at isHeld
  · cases isHeld
    exact restoring
  · exact receives.restores other held isHeld

-- One step of the receiver

variable {reached : Int → Prop} {previous : Option Record} {fact : State.Fact}

/-- An event is what the log says. Witness: a renewal is completed by a record of its version, and
one version has one content.
-/
theorem genuine_of_complete (recorded : Recorded log event) (honest : Honest log)
    (read : ∀ record, previous = some record → record.value.isSome = true
      → ∃ entry ∈ log, entry.key = event.name ∧ entry.value = some record)
    (completed : complete event previous = some fact)
    : Genuine log reached fact ∧ fact.repair = false := by
  have listed := List.mem_of_getElem? recorded.2
  have genuine {record : Option Record} (same : record = event.record) {form : Origin.Form}
      : Genuine log reached { position := event.position, name := event.name, record, form } :=
    ⟨recorded.within, fun _ => ⟨_, recorded.2, rfl, same.symm⟩, nofun⟩
  unfold complete at completed
  split at completed
  next record _ isRecord =>
    cases completed
    exact ⟨genuine isRecord.symm, rfl⟩
  next lease _ isRecord =>
    obtain ⟨record, filtered, rfl⟩ := Option.map_eq_some_iff.mp completed
    obtain ⟨isPrevious, agrees⟩ := Option.filter_eq_some_iff.mp filtered
    simp only [Bool.and_eq_true, decide_eq_true_eq] at agrees
    obtain ⟨entry, isEntry, isKey, isValue⟩ := read record isPrevious agrees.1
    have value := honest entry isEntry _ listed isKey record lease isValue isRecord agrees.2
    refine ⟨genuine ?_, rfl⟩
    rw [isRecord]
    exact congrArg some (Record.ext agrees.2 value rfl)
  · cases completed

variable {next : State}

theorem onwards_of_step {state : State} (coherent : Coherent state)
    (stepped : state.step layout action = some next)
    : Onwards state next := by
  rcases coherent.owns stepped with keeps | ⟨_, _, _, middle, edit, _, keeps, wrote⟩
  · exact keeps.onwards
  · exact keeps.onwards.trans (State.onwards_of_eq wrote.observed)

variable {receiver : State}

/-- A step that is not one on the copy. -/
theorem Receives.other (receives : Receives id before) (foreign : concerns id action = false)
    (stepped : before.receiver.step layout action = some receiver)
    : Receives id { before with receiver } := by
  have onwards := onwards_of_step receives.coherent stepped
  have some' := exists_reached { before with receiver }
  refine receives.turn (receives.coherent.step stepped).coherent onwards ?_ ?_
  · rcases receives.coherent.spares foreign stepped with spares | ⟨middle, spares, later, admitted⟩
    · exact follows_of_fades some' fun now isNow => spares.copy now isNow.2
    · refine (follows_of_fades some' fun now isNow => ?_).trans (follows_of_admitted admitted)
      exact spares.copy now (later.until isNow.2)
  · right
    intro replica next isReplica isNext
    obtain ⟨now, isNow⟩ := some'
    have task {last : State} (spares : Spares id before.receiver last) (reached : last.Until now)
        {held : Copy} (isHeld : last.replicas.get? id = some held) : held.task = replica.task := by
      have fades := spares.copy now reached
      rw [isReplica, isHeld] at fades
      cases fades with
      | kept _ _ _ _ same _ => exact same
    rcases receives.coherent.spares foreign stepped with spares | ⟨middle, spares, later, admitted⟩
    · exact task spares isNow.2 isNext
    · -- An identity that is there is not admitted again.
      have fades := spares.copy now (later.until isNow.2)
      rw [isReplica, admitted.1] at fades
      cases fades with
      | spent retired _ =>
          rw [(receives.copy replica isReplica).lively] at retired
          cases retired

/-- A step on the copy while it is free. -/
theorem Receives.learn (receives : Receives id before)
    {turn : Turn} {fault : Option Fault} {accepted : Prop}
    (free : before.receiver.free id = true)
    (stepped : before.receiver.step layout action = some receiver)
    (learned : Learned id turn before.receiver fault receiver accepted)
    (turns : ∀ held after,
      (∀ now, ({ before with receiver } : Exchange).Reached now
        → State.Fades now (before.receiver.replicas.get? id) held)
      → turn receiver.Until held after
      → Follows before.log ({ before with receiver } : Exchange).Reached held after)
    : Receives id { before with receiver } :=
  receives.turn learned.coherent (onwards_of_step receives.coherent stepped)
    (follows_of_learned learned (exists_reached _) (fun _ isNow => isNow.2) turns)
    (.inl (receives.idle free))

theorem free_of_step {allowed : Bool} {result : State}
    (stepped : (if allowed then some result else none) = some next)
    : allowed = true ∧ result = next := by
  simpa using stepped

section
variable {log : List (Entry Name Record)} {reached : Int → Prop} {held last : Option Copy}

variable {known : Int → Prop}

theorem follows_of_skipped {event : Origin.Event Record} {name : Name} {position : Nat}
    (recorded : Recorded log event) (isName : event.name = name)
    (isPosition : event.position = position) (skipped : State.Skipped name position known held last)
    : Follows log reached held last := by
  obtain ⟨replica, passed, rfl, rfl, skips⟩ := skipped
  refine ⟨nofun, ?_⟩
  rintro _ ⟨⟩ mirrored
  have isEntry := recorded.2
  rw [isPosition] at isEntry
  exact ⟨passed, rfl, mirrored.skips skips isEntry isName⟩

theorem follows_of_told {fact : State.Fact} (genuine : Genuine log reached fact)
    (within : ∀ now, reached now → known now) (told : State.Told fact known held last)
    : Follows log reached held last := by
  obtain ⟨replica, taken, time, rfl, rfl, observed, tells⟩ := told
  refine ⟨nofun, ?_⟩
  rintro _ ⟨⟩ mirrored
  exact ⟨taken, rfl, mirrored.tells tells genuine fun now isNow => observed now (within now isNow)⟩

end

/-- A position of an event is checked. -/
theorem Receives.covered (receives : Receives id before)
    (recorded : Recorded before.log event) {steady : Int}
    (stepped : before.receiver.step layout (.covered id event.position event.name steady)
      = some receiver)
    : Receives id { before with receiver } := by
  obtain ⟨free, same⟩ := free_of_step stepped
  subst same
  exact receives.learn free stepped (receives.coherent.covered free _ _ _)
    fun _ _ _ skipped => follows_of_skipped recorded rfl rfl skipped

variable {moment : Moment}

/-- A fact of an event is taken. -/
theorem Receives.apply (receives : Receives id before) (honest : Honest before.log)
    (recorded : Recorded before.log event)
    (read : ∀ record, previous = some record → (event.name, record) ∈ before.read)
    (completed : complete event previous = some fact)
    (stepped : before.receiver.step layout (.receive id fact moment) = some receiver)
    : Receives id { before with receiver } := by
  obtain ⟨free, same⟩ := free_of_step stepped
  subst same
  refine receives.learn free stepped (receives.coherent.receive free fact) ?_
  obtain ⟨genuine, ordered⟩ := genuine_of_complete recorded honest
    (fun record isRecord isSome => receives.read _ (read record isRecord) isSome) completed
  rintro held after _ (told | ⟨_, skipped⟩)
  · exact follows_of_told genuine (fun _ isNow => isNow.2) told
  · obtain ⟨entry, isEntry, isKey, isValue⟩ := genuine.ordered ordered
    obtain ⟨replica, passed, rfl, rfl, skips⟩ := skipped
    refine ⟨nofun, ?_⟩
    rintro _ ⟨⟩ mirrored
    exact ⟨passed, rfl, mirrored.skips skips isEntry isKey⟩

/-- A single record that was asked for is taken. -/
theorem Receives.repair (receives : Receives id before) (repairs : fact.repair = true)
    (within : fact.position ≤ before.log.length)
    (alike : Alike before.Reached (contentAfter before.log fact.position fact.name) fact.record)
    (stepped : before.receiver.step layout (.receive id fact moment) = some receiver)
    : Receives id { before with receiver } := by
  obtain ⟨free, same⟩ := free_of_step stepped
  subst same
  have onwards := onwards_of_step receives.coherent stepped
  refine receives.learn free stepped (receives.coherent.receive free fact) ?_
  rintro held after _ (told | ⟨ordered, _⟩)
  · refine follows_of_told ⟨within, ?_, fun _ now isNow => ?_⟩ (fun _ isNow => isNow.2) told
    · intro ordered
      rw [repairs] at ordered
      cases ordered
    · exact alike now ⟨isNow.1, onwards.until isNow.2⟩
  · rw [repairs] at ordered
    cases ordered

/-- A record of the copy is read. -/
theorem Receives.reads (receives : Receives id before) {name : Name}
    : Receives id
        { before with
          read := before.read ++
            (((before.receiver.replicas.get? id).bind (·.source.find name)).map
              (name, ·)).toList } := by
  refine { receives with read := ?_ }
  intro pair listed isSome
  rcases List.mem_append.mp listed with old | fresh
  · exact receives.read pair old isSome
  obtain ⟨record, found, rfl⟩ := Option.map_eq_some_iff.mp (Option.mem_toList.mp fresh)
  obtain ⟨replica, isReplica, isRecord⟩ := Option.bind_eq_some_iff.mp found
  obtain ⟨now, isNow⟩ := before.exists_reached
  -- What still has a value was not aged.
  rcases (receives.copy replica isReplica).mirrors.equal name now isNow with same | ended
  · rw [isRecord] at same
    obtain ⟨entry, isEntry, isKey, isValue⟩ := exists_of_contentAfter same.symm
    exact ⟨entry, isEntry, isKey, isValue⟩
  · rw [isRecord] at ended
    obtain ⟨truth, isTruth, aged⟩ := Option.map_eq_some_iff.mp ended.symm
    have kept : record = truth := by
      rw [← aged]
      unfold Record.expire at aged ⊢
      split
      next ended =>
        rw [if_pos ended] at aged
        rw [← aged] at isSome
        cases isSome
      · rfl
    rw [← kept] at isTruth
    obtain ⟨entry, isEntry, isKey, isValue⟩ := exists_of_contentAfter isTruth
    exact ⟨entry, isEntry, isKey, isValue⟩

-- Tasks that restore the copy

variable {key : Nat}

/-- A task is made of a complete state: every Scope of it is to be installed. -/
theorem Receives.restore (receives : Receives id before) (sends : Sends before) {view : Nat}
    {now : Int} (made : before.restore layout id key view now = some after)
    : Receives id after ∧ Sends after := by
  unfold Exchange.restore at made
  split at made
  next view replica isView isReplica =>
    split at made
    · cases made
    next draft collected =>
    split at made
    · cases made
    next scopes isScopes =>
    split at made
    · cases made
    next fresh =>
    cases made
    have known := sends.views view (List.mem_of_getElem? isView)
    obtain ⟨position, _, found⟩ := Origin.find_draft collected
    have find : draft.candidate.find = view.root.get? := by
      funext name
      refine Option.ext fun record => ?_
      rw [found, Assoc.mem_toPairs]
      have empty : (replica.source.draft view.position).candidate.find name = none :=
        Assoc.get?_empty name
      rw [empty]
      simp
    have isKnown : Known before.log before.Reached draft.position draft.candidate.find := by
      rw [position, find]
      exact known
    refine ⟨receives.exchange ⟨replica, isReplica, isKnown, ?_⟩ ?_, { sends with }⟩
    · intro name present
      left
      unfold State.restore at isScopes
      rw [isReplica] at isScopes
      dsimp only at isScopes
      split at isScopes
      · cases isScopes
      split at isScopes
      · cases isScopes
      · cases isScopes
        simp only [Restore.left, List.append_nil, List.mem_dedup, List.mem_mergeSort,
          List.mem_append]
        exact .inr (Origin.mem_scopes present)
    · intro other isOther
      obtain ⟨held, scope, rest, copy, task, isHeld, shape⟩ := receives.installing other isOther
      refine ⟨held, scope, rest, copy, task, ?_, shape⟩
      rw [Assoc.get?_set, if_neg]
      · exact isHeld
      · rintro rfl
        rw [isHeld] at fresh
        exact fresh rfl
  · cases made

variable {restore : Restore Record State.Error}

/-- A Scope that was installed is done with. -/
theorem restoring_installed
    {replica : Copy} {reply : State.Reply}
    (restoring : Restoring log reached replica restore)
    (done : reply = .ok () → ∀ scope, restore.scopes.head? = some scope
      → ∀ name : Name, name.scope = scope → restore.draft.position ≤ far replica name)
    : Restoring log reached replica (restore.installed .capacity reply) where
  known := by
    rw [Restore.draft_installed]
    exact restoring.known
  done name present := by
    rw [Restore.draft_installed] at present ⊢
    rcases restoring.done name present with listed | reached
    · rcases @Restore.mem_left_installed _ _ restore _ .capacity reply _ listed
        with still | ⟨accepted, first⟩
      · exact .inl still
      · exact .inr (done accepted _ first name rfl)
    · exact .inr reached

theorem begin_ne_ok {state : State} {draft : Origin.Draft Record} {scope : Scope}
    {moment : Moment}
    : (state.begin layout id draft scope moment).1 ≠ some (.ok ()) := by
  unfold State.begin
  repeat' split
  all_goals nofun

variable {last held : Option Copy} {known : Int → Prop} {draft : Origin.Draft Record}
variable {scope : Scope}

theorem follows_of_begun (isKnown : Known log reached draft.position draft.candidate.find)
    (begun : State.Begun draft scope known held last)
    : Follows log reached held last := by
  obtain ⟨replica, task, rfl, rfl, _, _, isDraft, _⟩ := begun
  refine ⟨nofun, ?_⟩
  rintro _ ⟨⟩ mirrored
  refine ⟨_, rfl, ⟨mirrored.lively, mirrored.distinct, mirrored.mirrors, ?_⟩, fun _ => le_rfl⟩
  rintro _ ⟨⟩
  rw [isDraft]
  exact isKnown

/-- The preparation of a Scope starts, or is refused. -/
theorem Receives.begin (receives : Receives id before) (sends : Sends before) {key : Nat}
    {moment : Moment} (begun : before.begin layout id key moment = some after)
    : Receives id after ∧ Sends after := by
  unfold Exchange.begin at begun
  split at begun
  · cases begun
  next restore isRestore =>
  split at begun
  · cases begun
  next scope rest isScopes =>
  split at begun
  next allowed =>
    have free : before.receiver.free id = true := (Bool.and_eq_true_iff.mp allowed).2
    have stepped : before.receiver.step layout (.begin id restore.draft scope moment)
        = some (before.receiver.begin layout id restore.draft scope moment).2 := if_pos free
    have learned := @State.Coherent.begin layout before.receiver moment receives.coherent id free
      restore.draft scope
    have refused := @begin_ne_ok layout id before.receiver restore.draft scope moment
    obtain ⟨_, _, restoring⟩ := receives.restores key restore isRestore
    have onwards := onwards_of_step receives.coherent stepped
    have next := receives.learn free stepped learned fun _ _ _ started =>
      follows_of_begun ⟨restoring.known.within, fun name now isNow =>
          restoring.known.alike name now ⟨isNow.1, onwards.until isNow.2⟩⟩
        started
    have idle := receives.idle free
    generalize before.receiver.begin layout id restore.draft scope moment = result
      at begun learned refused next onwards
    obtain ⟨reply, receiver⟩ := result
    cases reply with
    | some reply =>
        cases begun
        obtain ⟨replica, isReplica, restoring⟩ := next.restores key restore isRestore
        have accepted : reply ≠ .ok () := fun same => refused (congrArg some same)
        refine ⟨next.exchange ⟨replica, isReplica, restoring_installed restoring ?_⟩ ?_,
          sends.receiver rfl rfl rfl rfl rfl onwards⟩
        · exact fun same => absurd same accepted
        · intro other isOther
          rw [idle] at isOther
          cases isOther
    | none =>
        cases begun
        refine ⟨{ next with installing := ?_ }, sends.receiver rfl rfl rfl rfl rfl onwards⟩
        rintro _ ⟨⟩
        rcases learned.outcome with ⟨denied, _⟩ | ⟨middle, _, turned⟩
        · exact absurd rfl denied
        · obtain ⟨replica, task, _, isAfter, _, _, isDraft, isScope⟩ := turned.own
          exact ⟨restore, scope, rest, _, task, isRestore, isScopes, isAfter, rfl, isDraft, isScope⟩
  · cases begun

theorem follows_of_installed (isKnown : Known log reached draft.position draft.candidate.find)
    (installed : State.Installed draft scope known held last)
    : Follows log reached held last := by
  obtain ⟨replica, next, rfl, rfl, installs⟩ := installed
  refine ⟨nofun, ?_⟩
  rintro _ ⟨⟩ mirrored
  exact ⟨next, rfl, mirrored.installs installs isKnown⟩

/-- A copy that is given up stays what it is. -/
theorem follows_of_released {task : Replica.Task Record State.Error}
    (released : State.Released task held last)
    : Follows log reached held last := by
  obtain ⟨replica, rfl, _, rfl⟩ := released
  refine ⟨nofun, ?_⟩
  rintro _ ⟨⟩ mirrored
  exact ⟨_, rfl, mirrored_idle mirrored.lively rfl mirrored.distinct mirrored.mirrors,
    fun _ => le_rfl⟩

/-- The preparation of a Scope comes to its end. -/
theorem Receives.complete (receives : Receives id before) (sends : Sends before) {key : Nat}
    {moment : Moment} (completed : before.finishScope layout id key moment = some after)
    : Receives id after ∧ Sends after := by
  unfold Exchange.finishScope at completed
  split at completed
  · cases completed
  next restore isRestore =>
  split at completed
  next isKey =>
    obtain ⟨held, scope, rest, replica, task, isHeld, isScopes, isReplica, isTask, isDraft,
      isScope⟩ := receives.installing key isKey
    rw [isRestore] at isHeld
    cases isHeld
    obtain ⟨_, _, restoring⟩ := receives.restores key restore isRestore
    have prepares : before.receiver.prepares id = true := by
      unfold State.prepares Replica.busy
      rw [isReplica, Option.any_some, isTask]
      rfl
    have stepped : before.receiver.step layout (.complete id moment)
        = some (before.receiver.complete layout id moment).2 := if_pos prepares
    have onwards := onwards_of_step receives.coherent stepped
    obtain ⟨released, turned, learned⟩ := @State.Coherent.complete layout before.receiver moment
      receives.coherent id replica isReplica task isTask
    generalize before.receiver.complete layout id moment = result
      at completed stepped onwards learned
    obtain ⟨reply, receiver⟩ := result
    cases completed
    have known : Known before.log ({ before with receiver } : Exchange).Reached
        task.draft.position task.draft.candidate.find := by
      rw [isDraft]
      exact ⟨restoring.known.within, fun name now isNow =>
        restoring.known.alike name now ⟨isNow.1, onwards.until isNow.2⟩⟩
    have given : Receives id { before with installing := none } :=
      { receives with installing := nofun }
    have next := @Receives.turn id _ given receiver learned.coherent onwards
      ((follows_of_released turned.own).trans
        (follows_of_learned learned (exists_reached _) (fun _ isNow => isNow.2)
          fun _ _ _ installed => follows_of_installed known installed))
      (.inl rfl)
    obtain ⟨copy, isCopy, restoringNext⟩ := next.restores key restore isRestore
    refine ⟨next.exchange ⟨copy, isCopy, restoring_installed restoringNext ?_⟩ nofun,
      sends.receiver rfl rfl rfl rfl rfl onwards⟩
    intro accepted first isFirst name inScope
    rw [isScopes] at isFirst
    cases isFirst
    rcases learned.outcome with ⟨denied, _⟩ | ⟨middle, passed, installed⟩
    · exact absurd accepted denied
    · obtain ⟨old, last, isOld, isLast, installs⟩ := installed.own
      rw [isCopy] at isLast
      cases isLast
      have distinct : (old.coverage.map Replica.Coverage.name).Nodup := by
        obtain ⟨now, _, aged⟩ := passed.exists_aged
        have fades := aged.copies id
        obtain ⟨given, isGiven, _, isReleased⟩ := turned.own
        rw [isReleased, isOld] at fades
        rw [isReplica] at isGiven
        cases isGiven
        cases fades with
        | kept _ _ coverage _ _ _ => exact coverage ▸ (receives.copy replica isReplica).distinct
      rw [far, installs.coverage, Replica.covered_noteWhole distinct, if_pos (inScope.trans isScope.symm),
        isDraft]
      exact le_max_right _ _
  · cases completed

/-- A task goes on without the copy. -/
theorem Receives.rearrange (receives : Receives id before) {next : Restore Record State.Error}
    (isRestore : before.restores.get? key = some restore) (draft : next.draft = restore.draft)
    (left : next.left = restore.left) (idle : before.installing ≠ some key)
    : Receives id { before with restores := before.restores.set key next } := by
  obtain ⟨replica, isReplica, restoring⟩ := receives.restores key restore isRestore
  refine @Receives.exchange id before receives key next before.installing
    ⟨replica, isReplica, draft ▸ restoring.known, ?_⟩ ?_
  · rw [draft, left]
    exact restoring.done
  · intro other isOther
    obtain ⟨held, scope, rest, copy, task, isHeld, shape⟩ := receives.installing other isOther
    refine ⟨held, scope, rest, copy, task, ?_, shape⟩
    rw [Assoc.get?_set, if_neg]
    · exact isHeld
    · rintro rfl
      exact idle isOther

/-- A round of what was deferred starts. -/
theorem Receives.again (receives : Receives id before) (sends : Sends before)
    (started : before.again key = some after)
    : Receives id after ∧ Sends after := by
  unfold Exchange.again at started
  split at started
  · cases started
  next restore isRestore =>
  split at started
  next allowed =>
    cases started
    refine ⟨receives.rearrange isRestore rfl (Restore.left_again allowed.2.1) ?_, { sends with }⟩
    intro isKey
    obtain ⟨held, scope, rest, _, _, isHeld, isScopes, _⟩ := receives.installing key isKey
    rw [isRestore] at isHeld
    cases isHeld
    rw [allowed.2.1] at isScopes
    cases isScopes
  · cases started

theorem follows_of_confirmed (isKnown : Known log reached draft.position draft.candidate.find)
    (lasting : ∀ entry ∈ log, entry.value.isSome = true) (some' : ∃ now, reached now)
    (done : ∀ replica, held = some replica → ∀ name,
      (draft.candidate.find name).isSome = true → draft.position ≤ far replica name)
    (confirmed : State.Confirmed draft.position known held last)
    : Follows log reached held last := by
  obtain ⟨replica, next, rfl, rfl, confirms⟩ := confirmed
  refine ⟨nofun, ?_⟩
  rintro _ ⟨⟩ mirrored
  exact ⟨next, rfl, mirrored.confirms confirms isKnown lasting some' (done replica rfl)⟩

/-- The source is confirmed once no Scope is left. -/
theorem Receives.finish (layout : Layout) (receives : Receives id before) (sends : Sends before)
    {key : Nat} (finished : before.finish id key = some after)
    : Receives id after ∧ Sends after := by
  unfold Exchange.finish at finished
  split at finished
  · cases finished
  next restore isRestore =>
  split at finished
  next allowed =>
    obtain ⟨_, noneLeft, free⟩ := allowed
    have stepped : before.receiver.step layout (.finish id restore.draft.position)
        = some (before.receiver.finish id restore.draft.position).2 := if_pos free
    have onwards := onwards_of_step receives.coherent stepped
    obtain ⟨replica, isReplica, restoring⟩ := receives.restores key restore isRestore
    have next := receives.learn free stepped
      (receives.coherent.finish free restore.draft.position) fun held _ fades confirmed => by
        refine follows_of_confirmed ⟨restoring.known.within, fun name now isNow =>
            restoring.known.alike name now ⟨isNow.1, onwards.until isNow.2⟩⟩
          sends.lasting (exists_reached _) ?_ confirmed
        rintro copy rfl name present
        obtain ⟨now, isNow⟩ := exists_reached
          { before with receiver := (before.receiver.finish id restore.draft.position).2 }
        have faded := fades now isNow
        rw [isReplica] at faded
        cases faded with
        | kept _ stays coverage _ _ _ =>
            rw [far, stays.position, coverage]
            rcases restoring.done name present with listed | reached
            · rw [noneLeft] at listed
              cases listed
            · exact reached
    have idle := receives.idle free
    generalize before.receiver.finish id restore.draft.position = result at finished next onwards
    obtain ⟨reply, receiver⟩ := result
    cases finished
    refine ⟨next.rearrange isRestore (Restore.draft_finished _) (Restore.left_finished _) ?_,
      sends.receiver rfl rfl rfl rfl rfl onwards⟩
    rw [idle]
    rintro ⟨⟩
  · cases finished

/-- A task is given up; what it has installed stays. -/
theorem Receives.drop (receives : Receives id before) (idle : before.installing ≠ some key)
    : Receives id { before with restores := before.restores.remove key } := by
  refine { receives with restores := ?_, installing := ?_ }
  · intro other restore isRestore
    rw [Assoc.get?_remove] at isRestore
    split at isRestore
    · cases isRestore
    · exact receives.restores other restore isRestore
  · intro other isOther
    obtain ⟨held, scope, rest, copy, task, isHeld, shape⟩ := receives.installing other isOther
    refine ⟨held, scope, rest, copy, task, ?_, shape⟩
    rw [Assoc.get?_remove, if_neg]
    · exact isHeld
    · rintro rfl
      exact idle isOther

-- Steps and runs

/-- The log is only added to. -/
theorem log_of_step {action : Action} (stepped : before.step layout id action = some after)
    : ∃ more, after.log = before.log ++ more := by
  have same (kept : after.log = before.log) : ∃ more, after.log = before.log ++ more :=
    ⟨[], kept.trans (List.append_nil _).symm⟩
  cases action with
  | send action =>
      obtain ⟨sender, _, rfl⟩ := Option.map_eq_some_iff.mp stepped
      exact ⟨_, rfl⟩
  | deliver since count bytes =>
      cases stepped
      refine same ?_
      unfold Exchange.deliver
      split <;> rfl
  | resolve name =>
      cases stepped
      exact same rfl
  | other action =>
      refine same ?_
      dsimp only [Exchange.step] at stepped
      split at stepped
      · cases stepped
      · obtain ⟨_, _, rfl⟩ := Option.map_eq_some_iff.mp stepped
        rfl
  | covered event steady =>
      obtain ⟨_, _, isAfter⟩ := Option.bind_eq_some_iff.mp stepped
      obtain ⟨_, _, rfl⟩ := Option.map_eq_some_iff.mp isAfter
      exact same rfl
  | read name =>
      obtain ⟨_, isAfter⟩ := Option.ite_none_right_eq_some.mp stepped
      cases isAfter
      exact same rfl
  | apply event previous moment =>
      obtain ⟨_, _, completed⟩ := Option.bind_eq_some_iff.mp stepped
      obtain ⟨_, _, isAfter⟩ := Option.bind_eq_some_iff.mp completed
      obtain ⟨_, _, rfl⟩ := Option.map_eq_some_iff.mp isAfter
      exact same rfl
  | repair point moment =>
      obtain ⟨_, _, isAfter⟩ := Option.bind_eq_some_iff.mp stepped
      obtain ⟨_, _, rfl⟩ := Option.map_eq_some_iff.mp isAfter
      exact same rfl
  | restore key view now =>
      refine same ?_
      dsimp only [Exchange.step, Exchange.restore] at stepped
      repeat' split at stepped
      all_goals cases stepped
      rfl
  | begin key moment =>
      refine same ?_
      dsimp only [Exchange.step, Exchange.begin] at stepped
      repeat' split at stepped
      all_goals cases stepped
      all_goals rfl
  | complete key moment =>
      refine same ?_
      dsimp only [Exchange.step, Exchange.finishScope] at stepped
      repeat' split at stepped
      all_goals cases stepped
      rfl
  | again key =>
      refine same ?_
      dsimp only [Exchange.step, Exchange.again] at stepped
      repeat' split at stepped
      all_goals cases stepped
      rfl
  | finish key =>
      refine same ?_
      dsimp only [Exchange.step, Exchange.finish] at stepped
      repeat' split at stepped
      all_goals cases stepped
      rfl
  | drop key =>
      refine same ?_
      dsimp only [Exchange.step] at stepped
      split at stepped
      · cases stepped
      · cases stepped
        rfl

/-- Every step keeps what holds of both Stars. Witness: one lemma per action. -/
theorem replicates_of_step (sends : Sends before) (receives : Receives id before)
    (honest : Honest before.log) {action : Action}
    (stepped : before.step layout id action = some after)
    : Sends after ∧ Receives id after := by
  have alone {receiver : State} {action : State.Action}
      (taken : before.receiver.step layout action = some receiver)
      (received : Receives id { before with receiver })
      : Sends { before with receiver } ∧ Receives id { before with receiver } :=
    ⟨sends.receiver rfl rfl rfl rfl rfl (onwards_of_step receives.coherent taken), received⟩
  cases action with
  | send action =>
      obtain ⟨sender, taken, rfl⟩ := Option.map_eq_some_iff.mp stepped
      obtain ⟨next, onwards⟩ := sends.send taken
      exact ⟨next, receives.sender rfl (fun _ isNow => ⟨onwards.until isNow.1, isNow.2⟩)
        rfl rfl rfl rfl⟩
  | deliver since count bytes =>
      cases stepped
      refine ⟨sends.deliver since count bytes, ?_⟩
      unfold Exchange.deliver
      split
      · exact receives
      · exact { receives with }
  | resolve name =>
      cases stepped
      exact ⟨sends.resolve name, { receives with }⟩
  | other action =>
      dsimp only [Exchange.step] at stepped
      split at stepped
      · cases stepped
      rename_i foreign
      obtain ⟨receiver, taken, rfl⟩ := Option.map_eq_some_iff.mp stepped
      exact alone taken (receives.other (Bool.eq_false_iff.mpr foreign) taken)
  | covered index steady =>
      obtain ⟨event, isEvent, isAfter⟩ := Option.bind_eq_some_iff.mp stepped
      obtain ⟨receiver, taken, rfl⟩ := Option.map_eq_some_iff.mp isAfter
      have recorded := sends.sent event (List.mem_of_getElem? isEvent)
      exact alone taken (receives.covered recorded taken)
  | read name =>
      obtain ⟨_, isAfter⟩ := Option.ite_none_right_eq_some.mp stepped
      cases isAfter
      exact ⟨{ sends with }, receives.reads⟩
  | apply index previous moment =>
      obtain ⟨event, isEvent, isFact⟩ := Option.bind_eq_some_iff.mp stepped
      obtain ⟨fact, completed, isAfter⟩ := Option.bind_eq_some_iff.mp isFact
      obtain ⟨receiver, taken, rfl⟩ := Option.map_eq_some_iff.mp isAfter
      have recorded := sends.sent event (List.mem_of_getElem? isEvent)
      refine alone taken (receives.apply honest recorded ?_ completed taken)
      intro record isRecord
      obtain ⟨pair, found, rfl⟩ := Option.map_eq_some_iff.mp isRecord
      obtain ⟨isPair, isName⟩ := Option.filter_eq_some_iff.mp found
      obtain ⟨place, _, isPlace⟩ := Option.bind_eq_some_iff.mp isPair
      rw [← of_decide_eq_true isName]
      exact List.mem_of_getElem? isPlace
  | repair index moment =>
      obtain ⟨point, isPoint, isAfter⟩ := Option.bind_eq_some_iff.mp stepped
      obtain ⟨receiver, taken, rfl⟩ := Option.map_eq_some_iff.mp isAfter
      obtain ⟨within, alike⟩ := sends.points point (List.mem_of_getElem? isPoint)
      exact alone taken (receives.repair rfl within alike taken)
  | restore key view now => exact (receives.restore sends stepped).symm
  | begin key moment => exact (receives.begin sends stepped).symm
  | complete key moment => exact (receives.complete sends stepped).symm
  | again key => exact (receives.again sends stepped).symm
  | finish key => exact (receives.finish layout sends stepped).symm
  | drop key =>
      dsimp only [Exchange.step] at stepped
      split at stepped
      · cases stepped
      rename_i idle
      cases stepped
      exact ⟨{ sends with }, receives.drop idle⟩

/-- What holds after every run of an honest sender. -/
theorem replicates_of_run {sender receiver : State.Limits} {actions : List Action}
    {exchange : Exchange} (honest : Honest exchange.log)
    (reached : run (step layout id) (start sender receiver) actions = some exchange)
    : Sends exchange ∧ Receives id exchange := by
  have keeps (before : Exchange) (action : Action) (after : Exchange)
      (held : Honest before.log → Sends before ∧ Receives id before)
      (stepped : before.step layout id action = some after) (isHonest : Honest after.log)
      : Sends after ∧ Receives id after := by
    obtain ⟨more, grown⟩ := log_of_step stepped
    rw [grown] at isHonest
    obtain ⟨sends, receives⟩ := held isHonest.of_append
    exact replicates_of_step sends receives isHonest.of_append stepped
  exact run_invariant keeps (fun _ => ⟨sends_start sender receiver, receives_start sender receiver⟩)
    reached honest

/-- The log has at each position what the source had there; a copy has of each target what the log
has where the copy is with it, and of all targets what the source had where it was confirmed once it
is not further with any of them; in both cases leases may have ended since.
-/
theorem convergence_law (layout : Layout) {sender receiver : State.Limits}
    {first later : List Action} {earlier exchange : Exchange}
    (reached : run (step layout id) (start sender receiver) first = some earlier)
    (continued : run (step layout id) earlier later = some exchange)
    (honest : Honest exchange.log)
    : (∀ name, Alike earlier.Reached
        (contentAfter exchange.log earlier.sender.source.position name)
        (earlier.sender.source.find name))
      ∧ ∀ replica, exchange.receiver.replicas.get? id = some replica
        → (∀ name, Alike exchange.Reached
            (contentAfter exchange.log
              (max replica.source.position (Replica.covered replica.coverage name)) name)
            (replica.source.find name))
          ∧ (Replica.ahead replica.coverage replica.source.position = false
            → ∀ name, Alike exchange.Reached
              (contentAfter exchange.log replica.source.position name)
              (replica.source.find name)) := by
  have isLast : run (step layout id) (start sender receiver) (first ++ later) = some exchange := by
    rw [run_append, reached]
    exact continued
  have grows (before : Exchange) (action : Action) (after : Exchange)
      (held : ∃ more, before.log = earlier.log ++ more)
      (stepped : before.step layout id action = some after)
      : ∃ more, after.log = earlier.log ++ more := by
    obtain ⟨more, grown⟩ := held
    obtain ⟨added, isAdded⟩ := log_of_step stepped
    exact ⟨more ++ added, by rw [isAdded, grown, List.append_assoc]⟩
  obtain ⟨more, grown⟩ := run_invariant grows ⟨[], (List.append_nil _).symm⟩ continued
  refine ⟨?_, fun replica isReplica => ?_⟩
  · have sends := (replicates_of_run (grown ▸ honest).of_append reached).1
    intro name
    rw [grown, sends.counted, contentAfter_append le_rfl]
    exact sends.known name
  · have mirrored := (replicates_of_run honest isLast).2.copy replica isReplica
    refine ⟨mirrored.mirrors.equal, fun level name => ?_⟩
    have equal := mirrored.mirrors.equal name
    rwa [max_eq_left (Replica.covered_le mirrored.distinct level)] at equal

def sampleRun : List Action :=
  [ .other (.admitReplica [1]),
    .send (State.samplePublish 0),
    .deliver 0 8 4096,
    .apply 0 none (State.sampleMoment 0) ]

theorem convergence_law_published
    : ∃ exchange replica, run (step State.sampleLayout [1]) (start {} {}) sampleRun = some exchange
        ∧ exchange.receiver.replicas.get? [1] = some replica ∧ replica.source.position = 1
        ∧ (replica.source.find State.sampleName).isSome = true
        ∧ Alike exchange.Reached (contentAfter exchange.log 1 State.sampleName)
            (replica.source.find State.sampleName) := by
  refine ⟨_, _, rfl, rfl, by decide, by decide, ?_⟩
  have law := @convergence_law [1] State.sampleLayout {} {} [] sampleRun _ _ rfl rfl
    fun first one second other _ left right isLeft isRight _ => by
      cases List.mem_singleton.mp one
      cases List.mem_singleton.mp other
      exact congrArg Record.value (Option.some.inj (isLeft.symm.trans isRight))
  exact (law.2 _ rfl).2 (by decide) State.sampleName

end Exchange

end Astra.Catalog
