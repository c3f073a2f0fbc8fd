import Verdandi.Star.Restoring

/-! What a call does to a domain: to what there is to do next, and to the copies. -/

namespace Astra

open Support

theorem Agenda.map_time_foldl {Row : Type} (rows : List Row) (name : Row → Origin.Name)
    (deadline : Row → Option Int) (agenda : Option Agenda)
    : (rows.foldl (fun agenda row => hold agenda (name row) (deadline row)) agenda).map time
      = agenda.map time := by
  induction rows generalizing agenda with
  | nil => rfl
  | cons row rest ih => exact (ih _).trans (time_hold _ _ _)

/-- The cached time of a domain, the last reading of its clock, its agendas and its copies. -/
structure Domain (Item Failure : Type) where
  due : Int
  observed : Option Int
  agendas : List (Option Agenda)
  replicas : Assoc Bytes (Replica Item Failure)

namespace Domain

open Replica (Mark Turn)

variable {Item Failure : Type} {domain middle next : Domain Item Failure} {id other : Bytes}
  {old new : Replica Item Failure}

def schedule (domain : Domain Item Failure) : Schedule :=
  .of domain.due domain.observed domain.agendas domain.replicas

def mark (domain : Domain Item Failure) (id : Bytes) : Option Mark :=
  (domain.replicas.get? id).map Replica.mark

theorem mark_set {due : Int} {observed : Option Int} {agendas : List (Option Agenda)}
    : (Domain.mk due observed agendas (domain.replicas.set id new)).mark other
      = if other = id then some new.mark else domain.mark other := by
  rw [mark, Assoc.get?_set]
  split <;> rfl

/-- An exchange of a copy that counts for nothing. -/
theorem mark_exchange (isOld : domain.replicas.get? id = some old) (same : new.mark = old.mark)
    : ({ domain with replicas := domain.replicas.set id new } : Domain Item Failure).mark other
      = domain.mark other := by
  rw [mark_set]
  split
  next isId =>
    rw [mark, isId, isOld, same]
    rfl
  · rfl

structure Still (before after : Domain Item Failure) : Prop where
  prompt : after.schedule.Prompt
  same : ∀ id, after.mark id = before.mark id

structure Ages (before after : Domain Item Failure) : Prop where
  prompt : after.schedule.Prompt
  keeps : ∀ id, Replica.Keeps (before.mark id) (after.mark id)

structure Tends (id : Bytes) (before after : Domain Item Failure) : Prop where
  prompt : after.schedule.Prompt
  others : ∀ other, other ≠ id → Replica.Keeps (before.mark other) (after.mark other)
  own : Turn false (before.mark id) (after.mark id)

theorem Still.refl (prompt : domain.schedule.Prompt) : Still domain domain := ⟨prompt, fun _ => rfl⟩

theorem Still.trans (one : Still domain middle) (still : Still middle next) : Still domain next :=
  ⟨still.prompt, fun id => (still.same id).trans (one.same id)⟩

theorem Still.ages (still : Still domain next) : Ages domain next :=
  ⟨still.prompt, fun id => still.same id ▸ .same _⟩

theorem Ages.refl (prompt : domain.schedule.Prompt) : Ages domain domain := (Still.refl prompt).ages

theorem Ages.still (ages : Ages domain middle) (still : Still middle next) : Ages domain next :=
  ⟨still.prompt, fun id => still.same id ▸ ages.keeps id⟩

theorem Ages.after (ages : Ages middle next) (still : Still domain middle) : Ages domain next :=
  ⟨ages.prompt, fun id => still.same id ▸ ages.keeps id⟩

theorem Ages.tends (ages : Ages domain next) : Tends id domain next :=
  ⟨ages.prompt, fun other _ => ages.keeps other, .keeps (ages.keeps id)⟩

theorem Still.tends (still : Still domain next) : Tends id domain next := still.ages.tends

theorem Tends.refl (prompt : domain.schedule.Prompt) : Tends id domain domain :=
  (Still.refl prompt).tends

/-- Everything else may have aged before. -/
theorem Tends.after (tends : Tends id middle next) (ages : Ages domain middle)
    (stays : middle.mark id = domain.mark id)
    : Tends id domain next :=
  ⟨tends.prompt, fun other differs => (ages.keeps other).trans (tends.others other differs),
    stays ▸ tends.own⟩

theorem Tends.turn (tends : Tends other domain next) (id : Bytes)
    : Turn false (domain.mark id) (next.mark id) := by
  by_cases same : id = other
  · subst same
    exact tends.own
  · exact .keeps (tends.others id same)

theorem Tends.exchange (prompt : domain.schedule.Prompt) (isOld : domain.replicas.get? id = some old)
    (time : new.agenda.map Agenda.time = old.agenda.map Agenda.time)
    (waits : new.waits = true → old.waits = true) (turn : Turn false (some old.mark) (some new.mark))
    : Tends id domain { domain with replicas := domain.replicas.set id new } where
  prompt := Schedule.Prompt.exchange prompt isOld time waits
  others other differs := by
    rw [mark_set, if_neg differs]
    exact .same _
  own := by
    rw [mark_set, if_pos rfl, mark, isOld]
    exact turn

theorem Tends.admitted (prompt : domain.schedule.Prompt) (missing : domain.replicas.get? id = none)
    (empty : new.agenda = none) (fresh : new.mark = {})
    : Tends id domain { domain with replicas := domain.replicas.set id new } where
  prompt := Schedule.Prompt.admitted prompt missing empty (congrArg Mark.retired fresh)
  others other differs := by
    rw [mark_set, if_neg differs]
    exact .same _
  own := by
    rw [mark_set, if_pos rfl, mark, missing, fresh]
    exact .admitted

theorem Tends.retired (prompt : domain.schedule.Prompt) (isOld : domain.replicas.get? id = some old)
    : Tends id domain
        { domain with
          replicas := domain.replicas.set id { old with retired := true, coverage := [] }
          due := 0 } where
  prompt := by
    refine prompt.force rfl rfl ?_
    ext time
    exact Schedule.mem_times_set.trans (Schedule.mem_times isOld).symm
  others other differs := by
    rw [mark_set, if_neg differs]
    exact .same _
  own := by
    rw [mark_set, if_pos rfl, mark, isOld]
    exact .retired old.mark

-- Installations

structure Begins (id : Bytes) (draft : Origin.Draft Item) (scope : Scope)
    (reply : Option (Answer Failure Unit)) (before after : Domain Item Failure)
    : Prop where
  prompt : after.schedule.Prompt
  aged : ∀ other, other ≠ id → Replica.Keeps (before.mark other) (after.mark other)
  refused : ∀ refusal, reply = some refusal → refusal ≠ .ok () ∧ after.mark id = before.mark id
  begun : reply = none → ∃ mark hold, before.mark id = some mark
    ∧ hold.position = draft.position ∧ hold.scope = scope
    ∧ after.mark id = some { mark with task := some hold }
    ∧ Turn false (some mark) (some { mark with task := some hold })

theorem Ages.begins {draft : Origin.Draft Item} {scope : Scope} {reply : Answer Failure Unit}
    (aged : Ages domain next) (same : next.mark id = domain.mark id) (loud : reply ≠ .ok ())
    : Begins id draft scope (some reply) domain next := by
  refine ⟨aged.prompt, fun other _ => aged.keeps other, ?_, nofun⟩
  rintro _ ⟨⟩
  exact ⟨loud, same⟩

theorem Still.begins {draft : Origin.Draft Item} {scope : Scope} {reply : Answer Failure Unit}
    (still : Still domain next) (loud : reply ≠ .ok ())
    : Begins id draft scope (some reply) domain next :=
  still.ages.begins (still.same id) loud

structure Fills (id : Bytes) (task : Replica.Task Item Failure) (batch : Origin.Batch Item)
    (reply : Answer Failure Unit) (before after : Domain Item Failure)
    : Prop where
  prompt : after.schedule.Prompt
  others : ∀ other, other ≠ id → after.mark other = before.mark other
  taken : reply = .ok () → ∃ mark, before.mark id = some mark ∧ after.mark id = some { mark with
          position := batch.commit.position
          coverage := Replica.noteWhole task.scope task.draft.position mark.coverage }
  refused : reply ≠ .ok () → after.mark id = before.mark id

theorem Still.fills {task : Replica.Task Item Failure} {batch : Origin.Batch Item}
    {reply : Answer Failure Unit} (still : Still domain next) (loud : reply ≠ .ok ())
    : Fills id task batch reply domain next :=
  ⟨still.prompt, fun other _ => still.same other, fun done => absurd done loud,
    fun _ => still.same id⟩

structure Completes (id : Bytes) (mark : Mark) (hold : Replica.Hold) (reply : Answer Failure Unit)
    (before after : Domain Item Failure)
    : Prop where
  prompt : after.schedule.Prompt
  aged : ∀ other, other ≠ id → Replica.Keeps (before.mark other) (after.mark other)
  taken : mark.Sound → reply = .ok () → mark.retired = false ∧ after.mark id = some { mark with
          task := none, coverage := Replica.noteWhole hold.scope hold.position mark.coverage }
  refused : mark.Sound → reply ≠ .ok () → after.mark id = some { mark with task := none }

structure Finishes (id : Bytes) (position : Nat) (reply : Answer Failure Unit)
    (before after : Domain Item Failure)
    : Prop where
  prompt : after.schedule.Prompt
  confirmed : reply = .ok () → ∃ mark, before.mark id = some mark ∧ mark.position ≤ position
    ∧ Replica.ahead mark.coverage position = false
    ∧ (∀ other, other ≠ id → after.mark other = before.mark other)
    ∧ after.mark id = some { mark with position, coverage := [] }
  refused : reply ≠ .ok () → after.mark = before.mark

/-- What one step does: the cached time is kept, and what happens to a copy. -/
structure Steps (ends : Bytes → Bool) (before after : Domain Item Failure) : Prop where
  prompt : after.schedule.Prompt
  turn : (∀ id mark, before.mark id = some mark → mark.Sound)
    → ∀ id, Turn (ends id) (before.mark id) (after.mark id)

theorem Ages.steps (ages : Ages domain next) : Steps (fun _ => false) domain next :=
  ⟨ages.prompt, fun _ id => .keeps (ages.keeps id)⟩

theorem Tends.steps (tends : Tends other domain next) : Steps (fun _ => false) domain next :=
  ⟨tends.prompt, fun _ => tends.turn⟩

theorem Begins.steps {draft : Origin.Draft Item} {scope : Scope}
    {reply : Option (Answer Failure Unit)} (begins : Begins other draft scope reply domain next)
    : Steps (fun _ => false) domain next := by
  refine ⟨begins.prompt, fun _ id => ?_⟩
  by_cases same : id = other
  · subst same
    cases reply with
    | some refusal => exact (begins.refused refusal rfl).2 ▸ .keeps (.same _)
    | none =>
        obtain ⟨mark, hold, isMark, _, _, isNext, turn⟩ := begins.begun rfl
        rw [isMark, isNext]
        exact turn
  · exact .keeps (begins.aged id same)

variable {reply : Answer Failure Unit}

theorem Completes.steps {mark : Mark} {hold : Replica.Hold}
    (completes : Completes other mark hold reply domain next)
    (isMark : domain.mark other = some mark) (isTask : mark.task = some hold)
    : Steps (fun id => other = id) domain next := by
  refine ⟨completes.prompt, fun sound id => ?_⟩
  by_cases same : id = other
  · subst same
    rw [isMark, decide_eq_true rfl]
    by_cases done : reply = .ok ()
    · obtain ⟨lively, isNext⟩ := completes.taken (sound id mark isMark) done
      rw [isNext]
      exact .installed isTask lively
    · rw [completes.refused (sound id mark isMark) done]
      exact .released mark
  · exact .keeps (completes.aged id same)

theorem Finishes.steps {position : Nat} (finishes : Finishes other position reply domain next)
    (idle : ∀ mark, domain.mark other = some mark → mark.task = none)
    : Steps (fun _ => false) domain next := by
  refine ⟨finishes.prompt, fun _ id => ?_⟩
  by_cases done : reply = .ok ()
  · obtain ⟨mark, isMark, onwards, within, others, isNext⟩ := finishes.confirmed done
    by_cases same : id = other
    · subst same
      rw [isMark, isNext]
      exact .finished (idle mark isMark) onwards within
    · exact others id same ▸ .keeps (.same _)
  · rw [finishes.refused done]
    exact .keeps (.same _)

end Domain

end Astra
