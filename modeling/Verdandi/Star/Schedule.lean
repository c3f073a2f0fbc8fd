import Verdandi.Star.Replica

/-! When the agendas of a domain have something to do. A domain remembers the first time at which one
of them can complete a tick, so that before this time nobody has to look.
-/

namespace Astra

open Support

namespace Agenda

open Origin (Name)

variable {State : Type} {fire : State → Agenda → Name → Fired State} {rank : Nat → Name → Nat}
  {state : State} {agenda : Agenda} {now : Int}

theorem next_eq (agenda : Agenda) : agenda.next = min Clock.maximum (agenda.time + interval) := by
  unfold next
  split <;> omega

/-- What advances can complete its next tick later. -/
theorem next_le_next {other : Agenda} (onwards : agenda.time ≤ other.time)
    : agenda.next ≤ other.next := by
  rw [next_eq, next_eq]
  omega

theorem time_handle (name : Name) : (handle fire state agenda name).2.1.time = agenda.time := by
  unfold handle
  split <;> rfl

theorem time_drain (names : List Name) : (drain fire names state agenda).2.1.time = agenda.time := by
  induction names generalizing state agenda with
  | nil => rfl
  | cons name rest ih =>
      have same := @time_handle _ fire state agenda name
      unfold drain
      generalize handle fire state agenda name = result at same
      obtain ⟨next, later, fault⟩ := result
      cases fault with
      | some fault => exact same
      | none => exact ih.trans same

/-- A tick moves the time by its length at most. -/
theorem time_tick
    : agenda.time ≤ (tick fire rank state agenda).2.1.time
      ∧ (tick fire rank state agenda).2.1.time ≤ agenda.time + interval := by
  have positive : (0 : Int) ≤ interval := by decide
  have same := @time_drain _ fire state agenda (agenda.waiting rank)
  unfold tick
  generalize drain fire (agenda.waiting rank) state agenda = result at same
  obtain ⟨next, later, fault⟩ := result
  dsimp only at same
  cases fault with
  | some fault => exact ⟨same.ge, same.le.trans (by omega)⟩
  | none =>
      dsimp only
      rw [time_drain]
      dsimp only
      omega

/-- Witness: induction over the number of ticks. -/
theorem time_ticks (count : Nat)
    : agenda.time ≤ (ticks fire rank count state agenda).2.1.time
      ∧ (ticks fire rank count state agenda).2.1.time ≤ agenda.time + count * interval := by
  induction count generalizing state agenda with
  | zero => exact ⟨le_rfl, by simp [ticks]⟩
  | succ count ih =>
      have positive : (0 : Int) ≤ count * interval :=
        Int.mul_nonneg (Int.natCast_nonneg _) (by decide)
      have spread : ((count + 1 : Nat) : Int) * interval = count * interval + interval := by
        push_cast
        ring
      rw [spread]
      obtain ⟨least, most⟩ := @time_tick _ fire rank state agenda
      unfold ticks
      generalize tick fire rank state agenda = result at least most
      obtain ⟨next, later, fault⟩ := result
      dsimp only at least most
      cases fault with
      | some fault =>
          dsimp only
          omega
      | none =>
          obtain ⟨leastRest, mostRest⟩ := @ih next later
          dsimp only
          omega

/-- An advance moves the time, and not beyond the one that it is given. -/
theorem time_advance (onwards : agenda.time ≤ now)
    : agenda.time ≤ (advance fire rank now state agenda).2.1.time
      ∧ (advance fire rank now state agenda).2.1.time ≤ now := by
  have positive : (0 : Int) < interval := by decide
  have whole : (0 : Int) ≤ (now - agenda.time) / interval :=
    Int.ediv_nonneg (by omega) positive.le
  have within : ((now - agenda.time) / interval) * interval ≤ now - agenda.time :=
    Int.ediv_mul_le _ positive.ne'
  unfold advance
  rw [if_neg (by omega)]
  obtain ⟨least, most⟩ :=
    @time_ticks _ fire rank state agenda ((now - agenda.time) / interval).toNat
  rw [Int.toNat_of_nonneg whole] at most
  exact ⟨least, by omega⟩

/-- Before the next tick there is nothing to complete. -/
theorem advance_of_lt_next (onwards : agenda.time ≤ now) (before : now < agenda.next)
    : advance fire rank now state agenda = (state, agenda, none) := by
  rw [next_eq] at before
  have none : (now - agenda.time) / interval = 0 :=
    Int.ediv_eq_zero_of_lt (by omega) (by omega)
  unfold advance
  rw [if_neg (by omega), none]
  rfl

section

variable {Keeps : State → Prop}

theorem handle_keeps
    (ended : ∀ state agenda name next, Keeps state → fire state agenda name = .ended next → Keeps next)
    (failed : ∀ state agenda name fault next, Keeps state
      → fire state agenda name = .failed fault next → Keeps next)
    (holds : Keeps state) (name : Name)
    : Keeps (handle fire state agenda name).1 := by
  unfold handle
  split
  · exact holds
  next isEnded => exact ended _ _ _ _ holds isEnded
  next isFailed => exact failed _ _ _ _ _ holds isFailed

theorem drain_keeps
    (ended : ∀ state agenda name next, Keeps state → fire state agenda name = .ended next → Keeps next)
    (failed : ∀ state agenda name fault next, Keeps state
      → fire state agenda name = .failed fault next → Keeps next)
    (holds : Keeps state) (names : List Name)
    : Keeps (drain fire names state agenda).1 := by
  induction names generalizing state agenda with
  | nil => exact holds
  | cons name rest ih =>
      have first := @handle_keeps _ fire state agenda Keeps ended failed holds name
      unfold drain
      generalize handle fire state agenda name = result at first
      obtain ⟨next, later, fault⟩ := result
      cases fault with
      | some fault => exact first
      | none => exact ih first

theorem tick_keeps
    (ended : ∀ state agenda name next, Keeps state → fire state agenda name = .ended next → Keeps next)
    (failed : ∀ state agenda name fault next, Keeps state
      → fire state agenda name = .failed fault next → Keeps next)
    (holds : Keeps state)
    : Keeps (tick fire rank state agenda).1 := by
  have first := @drain_keeps _ fire state agenda Keeps ended failed holds (agenda.waiting rank)
  unfold tick
  generalize drain fire (agenda.waiting rank) state agenda = result at first
  obtain ⟨next, later, fault⟩ := result
  cases fault with
  | some fault => exact first
  | none => exact drain_keeps ended failed first _

/-- What every handled hook keeps an advance keeps. Witness: induction over the number of ticks. -/
theorem advance_keeps
    (ended : ∀ state agenda name next, Keeps state → fire state agenda name = .ended next → Keeps next)
    (failed : ∀ state agenda name fault next, Keeps state
      → fire state agenda name = .failed fault next → Keeps next)
    (holds : Keeps state)
    : Keeps (advance fire rank now state agenda).1 := by
  have whole (count : Nat) {state : State} {agenda : Agenda} (holds : Keeps state)
      : Keeps (ticks fire rank count state agenda).1 := by
    induction count generalizing state agenda with
    | zero => exact holds
    | succ count ih =>
        have first := @tick_keeps _ fire rank state agenda Keeps ended failed holds
        unfold ticks
        generalize tick fire rank state agenda = result at first
        obtain ⟨next, later, fault⟩ := result
        cases fault with
        | some fault => exact first
        | none => exact ih first
  unfold advance
  split
  · exact holds
  · exact whole _ holds

end

theorem time_hold (agenda : Option Agenda) (name : Name) (deadline : Option Int)
    : (hold agenda name deadline).map Agenda.time = agenda.map Agenda.time := by
  cases agenda <;> cases deadline <;> rfl

end Agenda

-- Schedules

/-- Whether a retired source waits for somebody to give it up, or for the one that is busy with it. -/
def Replica.waits {Item Failure : Type} (replica : Replica Item Failure) : Bool :=
  replica.retired && (replica.busy || replica.agenda.all (·.hooks.keys.isEmpty))

/-- What a domain has to do: the cached time, the last reading of the clock, the times of its agendas,
and whether a copy waits to be looked at.
-/
structure Schedule where
  due : Int
  observed : Option Int
  times : Set Int
  waits : Prop

namespace Schedule

def of {Item Failure : Type} (due : Int) (observed : Option Int) (agendas : List (Option Agenda))
    (replicas : Assoc Bytes (Replica Item Failure))
    : Schedule where
  due := due
  observed := observed
  times :=
    { time | (∃ agenda, some agenda ∈ agendas ∧ agenda.time = time)
      ∨ ∃ id replica agenda, replicas.get? id = some replica ∧ replica.agenda = some agenda
        ∧ agenda.time = time }
  waits := ∃ id replica, replicas.get? id = some replica ∧ replica.waits = true

def Past (schedule : Schedule) : Prop :=
  ∀ reading : Clock.Reading, reading.follows schedule.observed = true → schedule.due ≤ reading.time

/-- No agenda has anything to do before the cached time; and that is the first time at which one of
them has, unless somebody looks next time anyway.
-/
structure Prompt (schedule : Schedule) : Prop where
  positive : ∀ time ∈ schedule.times, 0 ≤ time
  since : ∀ time ∈ schedule.times, ∃ observed, schedule.observed = some observed ∧ time ≤ observed
  bounded : schedule.due ≤ Clock.maximum
  within : ∀ time ∈ schedule.times, schedule.due ≤ Agenda.next { time }
  settled : schedule.Past ∨ ¬ schedule.waits
    ∧ ∀ bound ≤ Clock.maximum, (∀ time ∈ schedule.times, bound ≤ Agenda.next { time })
      → bound ≤ schedule.due

structure Moves (now : Int) (before after : Schedule) : Prop where
  due : after.due = before.due
  observed : after.observed = before.observed
  times : ∀ time ∈ after.times, ∃ old ∈ before.times, old ≤ time ∧ (old = time ∨ time ≤ now)

variable {schedule before after : Schedule} {now : Int}

variable {time : Int}

theorem follows_of_le {reading : Clock.Reading} {observed : Option Int}
    (follows : reading.follows (some time) = true)
    (onwards : ∀ old, observed = some old → old ≤ time)
    : reading.follows observed = true := by
  simp only [Clock.Reading.follows, Bool.and_eq_true, decide_eq_true_eq, Option.all_some] at follows ⊢
  refine ⟨follows.1, ?_⟩
  cases observed with
  | none => rfl
  | some old => simpa using (onwards old rfl).trans follows.2

/-- Time has been looked at and what was due is past. -/
theorem past_of_observed (observed : schedule.observed = some now) (due : schedule.due ≤ now)
    : schedule.Past := by
  intro reading follows
  rw [observed] at follows
  simp only [Clock.Reading.follows, Bool.and_eq_true, decide_eq_true_eq, Option.all_some] at follows
  exact due.trans follows.2

theorem Prompt.observe (prompt : schedule.Prompt)
    (onwards : ∀ old, schedule.observed = some old → old ≤ time)
    : Prompt { schedule with observed := some time } where
  positive := prompt.positive
  since other listed := by
    obtain ⟨old, isOld, known⟩ := prompt.since other listed
    exact ⟨time, rfl, known.trans (onwards old isOld)⟩
  bounded := prompt.bounded
  within := prompt.within
  settled := by
    rcases prompt.settled with past | exact'
    · exact .inl fun reading follows => past reading (follows_of_le follows onwards)
    · exact .inr exact'

/-- A new agenda counts from the moment at which it is made. -/
theorem Prompt.opened (prompt : schedule.Prompt) (positive : 0 ≤ time)
    (observed : schedule.observed = some time)
    : Prompt { schedule with
        due := min schedule.due (Agenda.next { time }), times := insert time schedule.times } where
  positive other listed := by
    rcases Set.mem_insert_iff.mp listed with rfl | old
    · exact positive
    · exact prompt.positive other old
  since other listed := by
    rcases Set.mem_insert_iff.mp listed with rfl | old
    · exact ⟨other, observed, le_rfl⟩
    · exact prompt.since other old
  bounded := (min_le_left _ _).trans prompt.bounded
  within other listed := by
    rcases Set.mem_insert_iff.mp listed with rfl | old
    · exact min_le_right _ _
    · exact (min_le_left _ _).trans (prompt.within other old)
  settled := by
    rcases prompt.settled with past | ⟨settled, exact'⟩
    · exact .inl fun reading follows => (min_le_left _ _).trans (past reading follows)
    · refine .inr ⟨settled, fun bound most least => le_min ?_ ?_⟩
      · exact exact' bound most fun other old => least other (Set.mem_insert_of_mem _ old)
      · exact least time (Set.mem_insert _ _)

/-- The agendas stay, and no further copy can be given up. -/
theorem Prompt.same (prompt : before.Prompt) (due : after.due = before.due)
    (observed : after.observed = before.observed) (times : after.times = before.times)
    (waits : after.waits → before.waits)
    : after.Prompt where
  positive := times ▸ prompt.positive
  since := by
    rw [times, observed]
    exact prompt.since
  bounded := due.le.trans prompt.bounded
  within := by
    rw [times, due]
    exact prompt.within
  settled := by
    refine prompt.settled.imp (fun past => ?_) fun ⟨unwatched, exact'⟩ => ⟨unwatched ∘ waits, ?_⟩
    · unfold Past
      rw [observed, due]
      exact past
    · rw [times, due]
      exact exact'

/-- The cached time is given up. -/
theorem Prompt.force (prompt : before.Prompt) (due : after.due = 0)
    (observed : after.observed = before.observed) (times : after.times = before.times)
    : after.Prompt where
  positive := times ▸ prompt.positive
  since := by
    rw [times, observed]
    exact prompt.since
  bounded := by
    rw [due]
    decide
  within := by
    rw [times, due]
    intro time listed
    have least := prompt.positive time listed
    rw [Agenda.next_eq]
    simp only [Clock.maximum, Agenda.interval]
    omega
  settled := by
    refine .inl fun reading follows => ?_
    rw [due]
    simp only [Clock.Reading.follows, Bool.and_eq_true, decide_eq_true_eq] at follows
    exact follows.1.2

theorem Moves.refl (now : Int) (schedule : Schedule) : Moves now schedule schedule :=
  ⟨rfl, rfl, fun time listed => ⟨time, listed, le_rfl, .inl rfl⟩⟩

theorem Moves.trans {middle : Schedule} (one : Moves now before middle)
    (other : Moves now middle after)
    : Moves now before after := by
  refine ⟨other.due.trans one.due, other.observed.trans one.observed, fun time listed => ?_⟩
  obtain ⟨half, isHalf, least, most⟩ := other.times time listed
  obtain ⟨old, isOld, leastOld, mostOld⟩ := one.times half isHalf
  refine ⟨old, isOld, leastOld.trans least, ?_⟩
  rcases most with rfl | within
  · exact mostOld
  · exact .inr within

/-- Agendas that are not beyond a time stay so. -/
theorem Moves.reached (moves : Moves now before after) (reached : ∀ time ∈ before.times, time ≤ now)
    : ∀ time ∈ after.times, time ≤ now := by
  intro time listed
  obtain ⟨old, isOld, _, same | within⟩ := moves.times time listed
  · exact same ▸ reached old isOld
  · exact within

theorem Moves.within (moves : Moves now before after) {bound : Int}
    (least : ∀ time ∈ before.times, bound ≤ Agenda.next { time })
    : ∀ time ∈ after.times, bound ≤ Agenda.next { time } := by
  intro time listed
  obtain ⟨old, isOld, onwards, _⟩ := moves.times time listed
  exact (least old isOld).trans (Agenda.next_le_next onwards)

/-- Whatever moves once something is due, somebody looks again. -/
theorem Prompt.moved (prompt : before.Prompt) (moves : Moves now before after)
    (observed : before.observed = some now) (due : before.due ≤ now)
    : after.Prompt where
  positive time listed := by
    obtain ⟨old, isOld, least, _⟩ := moves.times time listed
    exact (prompt.positive old isOld).trans least
  since time listed := by
    refine ⟨now, moves.observed.trans observed, moves.reached (fun old isOld => ?_) time listed⟩
    obtain ⟨known, isKnown, least⟩ := prompt.since old isOld
    rw [observed] at isKnown
    cases isKnown
    exact least
  bounded := moves.due.le.trans prompt.bounded
  within := by
    rw [moves.due]
    exact moves.within prompt.within
  settled := .inl (past_of_observed (moves.observed.trans observed) (moves.due.le.trans due))

/-- The first time at which an agenda has something to do is cached, or an earlier one where a copy
was busy.
-/
theorem Prompt.recomputed (prompt : before.Prompt) {next : Int} {blocked : Bool}
    (isNext : ∀ bound, bound ≤ next ↔ bound ≤ Clock.maximum
      ∧ ∀ time ∈ before.times, bound ≤ Agenda.next { time })
    (observed : before.observed = some now) (settled : blocked = false → ¬ before.waits)
    : Prompt { before with due := if blocked then min next now else next } where
  positive := prompt.positive
  since := prompt.since
  bounded := by
    have most := ((isNext next).mp le_rfl).1
    dsimp only
    split
    · exact (min_le_left _ _).trans most
    · exact most
  within time listed := by
    have least := ((isNext next).mp le_rfl).2 time listed
    dsimp only
    split
    · exact (min_le_left _ _).trans least
    · exact least
  settled := by
    cases blocked with
    | true => exact .inl (past_of_observed observed (min_le_right _ _))
    | false => exact .inr ⟨settled rfl, fun bound most least => (isNext bound).mpr ⟨most, least⟩⟩

-- The copies in the schedule

section

variable {Item Failure : Type} {due : Int} {observed : Option Int} {agendas : List (Option Agenda)}
  {replicas : Assoc Bytes (Replica Item Failure)} {id : Bytes} {old new : Replica Item Failure}

variable {time : Int}

/-- The times of the agendas when one copy is exchanged. -/
theorem mem_times_set
    : time ∈ (of due observed agendas (replicas.set id new)).times
      ↔ (∃ agenda, some agenda ∈ agendas ∧ agenda.time = time)
        ∨ (∃ agenda, new.agenda = some agenda ∧ agenda.time = time)
        ∨ ∃ other replica agenda, other ≠ id ∧ replicas.get? other = some replica
          ∧ replica.agenda = some agenda ∧ agenda.time = time := by
  simp only [of, Set.mem_ofPred_eq]
  refine or_congr Iff.rfl ⟨?_, ?_⟩
  · rintro ⟨other, replica, agenda, isReplica, isAgenda, same⟩
    rw [Assoc.get?_set] at isReplica
    split at isReplica
    · cases isReplica
      exact .inl ⟨agenda, isAgenda, same⟩
    next differs => exact .inr ⟨other, replica, agenda, differs, isReplica, isAgenda, same⟩
  · rintro (⟨agenda, isAgenda, same⟩ | ⟨other, replica, agenda, differs, isReplica, rest⟩)
    · exact ⟨id, new, agenda, by rw [Assoc.get?_set, if_pos rfl], isAgenda, same⟩
    · exact ⟨other, replica, agenda, by rw [Assoc.get?_set, if_neg differs]; exact isReplica, rest⟩

/-- The same as long as the copy is there. -/
theorem mem_times (isOld : replicas.get? id = some old)
    : time ∈ (of due observed agendas replicas).times
      ↔ (∃ agenda, some agenda ∈ agendas ∧ agenda.time = time)
        ∨ (∃ agenda, old.agenda = some agenda ∧ agenda.time = time)
        ∨ ∃ other replica agenda, other ≠ id ∧ replicas.get? other = some replica
          ∧ replica.agenda = some agenda ∧ agenda.time = time := by
  simp only [of, Set.mem_ofPred_eq]
  refine or_congr Iff.rfl ⟨?_, ?_⟩
  · rintro ⟨other, replica, agenda, isReplica, isAgenda, same⟩
    by_cases isId : other = id
    · subst isId
      rw [isOld] at isReplica
      cases isReplica
      exact .inl ⟨agenda, isAgenda, same⟩
    · exact .inr ⟨other, replica, agenda, isId, isReplica, isAgenda, same⟩
  · rintro (⟨agenda, isAgenda, same⟩ | ⟨other, replica, agenda, _, rest⟩)
    · exact ⟨id, old, agenda, isOld, isAgenda, same⟩
    · exact ⟨other, replica, agenda, rest⟩

theorem waits_set (waits : (of due observed agendas (replicas.set id new)).waits)
    : new.waits = true ∨ ∃ other replica, other ≠ id ∧ replicas.get? other = some replica
      ∧ replica.waits = true := by
  obtain ⟨other, replica, isReplica, isWaiting⟩ := waits
  rw [Assoc.get?_set] at isReplica
  split at isReplica
  · cases isReplica
    exact .inl isWaiting
  next differs => exact .inr ⟨other, replica, differs, isReplica, isWaiting⟩

/-- A copy is exchanged for one whose agenda stands where the other one's stood. -/
theorem Prompt.exchange (prompt : (of due observed agendas replicas).Prompt)
    (isOld : replicas.get? id = some old)
    (time : new.agenda.map Agenda.time = old.agenda.map Agenda.time)
    (waits : new.waits = true → old.waits = true)
    : (of due observed agendas (replicas.set id new)).Prompt := by
  refine prompt.same rfl rfl ?_ ?_
  · ext moment
    have alike : (∃ agenda, new.agenda = some agenda ∧ agenda.time = moment)
        ↔ ∃ agenda, old.agenda = some agenda ∧ agenda.time = moment := by
      rw [← Option.map_eq_some_iff, time, Option.map_eq_some_iff]
    rw [mem_times_set, mem_times isOld, alike]
  · intro still
    rcases waits_set still with isWaiting | ⟨other, replica, _, isReplica, isWaiting⟩
    · exact ⟨id, old, isOld, waits isWaiting⟩
    · exact ⟨other, replica, isReplica, isWaiting⟩

/-- A copy without an agenda comes, or is exchanged for one with a new agenda. -/
theorem Prompt.admitted (prompt : (of due observed agendas replicas).Prompt)
    (missing : replicas.get? id = none) (empty : new.agenda = none) (fresh : new.retired = false)
    : (of due observed agendas (replicas.set id new)).Prompt := by
  refine prompt.same rfl rfl ?_ ?_
  · ext moment
    rw [mem_times_set]
    simp only [of, Set.mem_ofPred_eq, empty]
    refine or_congr Iff.rfl ⟨?_, ?_⟩
    · rintro (⟨agenda, isAgenda, _⟩ | ⟨other, replica, agenda, _, rest⟩)
      · cases isAgenda
      · exact ⟨other, replica, agenda, rest⟩
    · rintro ⟨other, replica, agenda, isReplica, rest⟩
      refine .inr ⟨other, replica, agenda, fun same => ?_, isReplica, rest⟩
      rw [same, missing] at isReplica
      cases isReplica
  · intro still
    rcases waits_set still with isWaiting | ⟨other, replica, _, isReplica, isWaiting⟩
    · simp [Replica.waits, fresh] at isWaiting
    · exact ⟨other, replica, isReplica, isWaiting⟩

theorem Prompt.openedReplica (prompt : (of due observed agendas replicas).Prompt)
    (positive : 0 ≤ time) (isObserved : observed = some time) (isOld : replicas.get? id = some old)
    (empty : old.agenda = none)
    : (of (min due (Agenda.next { time })) observed agendas
        (replicas.set id { old with agenda := some { time } })).Prompt := by
  refine (prompt.opened positive isObserved).same rfl rfl ?_ ?_
  · ext moment
    rw [Set.mem_insert_iff, mem_times_set, mem_times isOld, empty]
    simp only [Option.some.injEq, exists_eq_left', reduceCtorEq, false_and, exists_false, false_or]
    rw [@eq_comm _ moment time]
    exact or_left_comm
  · intro still
    rcases waits_set still with isWaiting | ⟨other, replica, _, isReplica, isWaiting⟩
    · refine ⟨id, old, isOld, ?_⟩
      simp only [Replica.waits, Bool.and_eq_true] at isWaiting ⊢
      rw [empty]
      exact ⟨isWaiting.1, by simp⟩
    · exact ⟨other, replica, isReplica, isWaiting⟩

variable {agenda : Agenda}

/-- An agenda of a copy moves. -/
theorem moves_exchange {later : Agenda} (isOld : replicas.get? id = some old)
    (isAgenda : old.agenda = some agenda) (isLater : new.agenda = some later)
    (least : agenda.time ≤ later.time) (most : later.time ≤ now)
    : Moves now (of due observed agendas replicas)
        (of due observed agendas (replicas.set id new)) := by
  refine ⟨rfl, rfl, fun time listed => ?_⟩
  rcases mem_times_set.mp listed with own | ⟨current, isCurrent, rfl⟩ | other
  · exact ⟨time, (mem_times isOld).mpr (.inl own), le_rfl, .inl rfl⟩
  · rw [isLater] at isCurrent
    cases isCurrent
    exact ⟨agenda.time, (mem_times isOld).mpr (.inr (.inl ⟨agenda, isAgenda, rfl⟩)), least, .inr most⟩
  · exact ⟨time, (mem_times isOld).mpr (.inr (.inr other)), le_rfl, .inl rfl⟩

theorem moves_remove
    : Moves now (of due observed agendas replicas) (of due observed agendas (replicas.remove id)) := by
  refine ⟨rfl, rfl, fun time listed => ⟨time, ?_, le_rfl, .inl rfl⟩⟩
  rcases listed with own | ⟨other, replica, agenda, isReplica, rest⟩
  · exact .inl own
  · rw [Assoc.get?_remove] at isReplica
    split at isReplica
    · cases isReplica
    · exact .inr ⟨other, replica, agenda, isReplica, rest⟩

/-- The cached time is a bound for the agendas of all copies. -/
theorem Prompt.lt_next (prompt : (of due observed agendas replicas).Prompt) (before : now < due)
    (listed : some agenda ∈ agendas
      ∨ ∃ id replica, replicas.get? id = some replica ∧ replica.agenda = some agenda)
    : now < agenda.next := by
  have inside : agenda.time ∈ (of due observed agendas replicas).times := by
    rcases listed with own | ⟨id, replica, isReplica, isAgenda⟩
    · exact .inl ⟨agenda, own, rfl⟩
    · exact .inr ⟨id, replica, agenda, isReplica, isAgenda, rfl⟩
  have least := prompt.within _ inside
  rw [Agenda.next_eq] at least ⊢
  exact before.trans_le least

-- The own agendas in the schedule

theorem mem_map_time
    : (∃ agenda, some agenda ∈ agendas ∧ agenda.time = time)
      ↔ some time ∈ agendas.map (·.map Agenda.time) := by
  simp only [List.mem_map, Option.map_eq_some_iff]
  constructor
  · rintro ⟨agenda, listed, same⟩
    exact ⟨some agenda, listed, agenda, rfl, same⟩
  · rintro ⟨_, listed, agenda, rfl, same⟩
    exact ⟨agenda, listed, same⟩

/-- The own agendas stand where they stood. -/
theorem Prompt.retimed {after : List (Option Agenda)}
    (prompt : (of due observed agendas replicas).Prompt)
    (times : after.map (·.map Agenda.time) = agendas.map (·.map Agenda.time))
    : (of due observed after replicas).Prompt := by
  refine prompt.same rfl rfl ?_ id
  ext time
  simp only [of, Set.mem_ofPred_eq]
  rw [mem_map_time, mem_map_time, times]

variable {front back : List (Option Agenda)}

theorem mem_times_own {agenda : Option Agenda}
    : time ∈ (of due observed (front ++ agenda :: back) replicas).times
      ↔ (∃ current, agenda = some current ∧ current.time = time)
        ∨ time ∈ (of due observed (front ++ back) replicas).times := by
  simp only [of, Set.mem_ofPred_eq, List.mem_append, List.mem_cons]
  constructor
  · rintro (⟨current, listed | rfl | listed, same⟩ | copies)
    · exact .inr (.inl ⟨current, .inl listed, same⟩)
    · exact .inl ⟨current, rfl, same⟩
    · exact .inr (.inl ⟨current, .inr listed, same⟩)
    · exact .inr (.inr copies)
  · rintro (⟨current, rfl, same⟩ | ⟨current, listed | listed, same⟩ | copies)
    · exact .inl ⟨current, .inr (.inl rfl), same⟩
    · exact .inl ⟨current, .inl listed, same⟩
    · exact .inl ⟨current, .inr (.inr listed), same⟩
    · exact .inr copies

/-- An own agenda is made when it is first needed. -/
theorem Prompt.openedAgenda (prompt : (of due observed (front ++ none :: back) replicas).Prompt)
    {time : Int} (positive : 0 ≤ time) (isObserved : observed = some time)
    : (of (min due (Agenda.next { time })) observed (front ++ some { time } :: back)
        replicas).Prompt := by
  refine (prompt.opened positive isObserved).same rfl rfl ?_ id
  ext moment
  rw [Set.mem_insert_iff, mem_times_own, mem_times_own]
  simp only [Option.some.injEq, exists_eq_left', reduceCtorEq, false_and, exists_false, false_or]
  rw [@eq_comm _ moment time]
  exact Iff.rfl

/-- An own agenda moves. -/
theorem moves_agenda {agenda later : Agenda} (least : agenda.time ≤ later.time)
    (most : later.time ≤ now)
    : Moves now (of due observed (front ++ some agenda :: back) replicas)
        (of due observed (front ++ some later :: back) replicas) := by
  refine ⟨rfl, rfl, fun time listed => ?_⟩
  rcases mem_times_own.mp listed with ⟨current, isCurrent, rfl⟩ | others
  · cases isCurrent
    exact ⟨agenda.time, mem_times_own.mpr (.inl ⟨agenda, rfl, rfl⟩), least, .inr most⟩
  · exact ⟨time, mem_times_own.mpr (.inr others), le_rfl, .inl rfl⟩

theorem le_foldl_min {values : List Int} {most bound : Int}
    : bound ≤ values.foldl min most ↔ bound ≤ most ∧ ∀ value ∈ values, bound ≤ value := by
  induction values generalizing most with
  | nil => simp
  | cons first rest ih => rw [List.foldl_cons, ih, le_min_iff, List.forall_mem_cons, and_assoc]

/-- The first time at which an agenda can advance. -/
theorem le_first {bound : Int}
    : bound ≤ ((agendas.flatMap Option.toList
        ++ replicas.toPairs.flatMap (·.2.agenda.toList)).map Agenda.next).foldl min Clock.maximum
      ↔ bound ≤ Clock.maximum
        ∧ ∀ time ∈ (of due observed agendas replicas).times, bound ≤ Agenda.next { time } := by
  rw [le_foldl_min]
  refine and_congr Iff.rfl ?_
  simp only [List.forall_mem_map, List.mem_append, List.mem_flatMap, Option.mem_toList, of,
    Set.mem_ofPred_eq]
  constructor
  · rintro least time (⟨agenda, own, rfl⟩ | ⟨id, replica, agenda, isReplica, isAgenda, rfl⟩)
    · have first := least agenda (.inl ⟨some agenda, own, rfl⟩)
      rwa [Agenda.next_eq] at first ⊢
    · have first := least agenda
        (.inr ⟨(id, replica), (Assoc.mem_toPairs _ _ _).mpr isReplica, isAgenda⟩)
      rwa [Agenda.next_eq] at first ⊢
  · rintro least agenda (⟨_, own, rfl⟩ | ⟨⟨id, replica⟩, listed, isAgenda⟩)
    · have first := least agenda.time (.inl ⟨agenda, own, rfl⟩)
      rwa [Agenda.next_eq] at first ⊢
    · have first := least agenda.time
        (.inr ⟨id, replica, agenda, (Assoc.mem_toPairs _ _ _).mp listed, isAgenda, rfl⟩)
      rwa [Agenda.next_eq] at first ⊢

-- Sweeping the copies

variable {State : Type}

/-- Advance the copies but the one that is held; one that is busy is left alone. -/
def sweep (copies : State → Assoc Bytes (Replica Item Failure))
    (advance : State → Bytes → State × Option Fault) (forget : State → Bytes → State) (now : Int)
    (held : Option Bytes)
    : List Bytes → State → State × Option Fault × Bool
  | [], state => (state, none, false)
  | id :: rest, state =>
      match (copies state).get? id with
      | none => sweep copies advance forget now held rest state
      | some replica =>
          if held = some id then
            sweep copies advance forget now held rest state
          else if replica.busy then
            let blocked := replica.retired || replica.agenda.any (·.next ≤ now)
            let (last, fault, others) := sweep copies advance forget now held rest state
            (last, fault, blocked || others)
          else
            match advance state id with
            | (next, some fault) => (next, some fault, false)
            | (next, none) => sweep copies advance forget now held rest (forget next id)

structure Sweeps (now : Int) (schedule : State → Schedule)
    (copies : State → Assoc Bytes (Replica Item Failure))
    (advance : State → Bytes → State × Option Fault) (forget : State → Bytes → State)
    : Prop where
  moves : ∀ state id, (∀ time ∈ (schedule state).times, time ≤ now)
    → Moves now (schedule state) (schedule (advance state id).1)
  others : ∀ state id other, other ≠ id
    → (copies (advance state id).1).get? other = (copies state).get? other
  busy : ∀ state id replica, (copies (advance state id).1).get? id = some replica
    → ∃ old, (copies state).get? id = some old ∧ replica.busy = old.busy
  forgets : ∀ state id, Moves now (schedule state) (schedule (forget state id))
  othersForget : ∀ state id other, other ≠ id
    → (copies (forget state id)).get? other = (copies state).get? other
  forgotten : ∀ state id replica, (copies (forget state id)).get? id = some replica
    → (copies state).get? id = some replica ∧ replica.spent = false

variable {schedule : State → Schedule} {copies : State → Assoc Bytes (Replica Item Failure)}
  {advance : State → Bytes → State × Option Fault} {forget : State → Bytes → State}
  {held : Option Bytes} {ids : List Bytes} {state : State}

/-- Witness: induction over the copies. -/
theorem Sweeps.moved (sweeps : Sweeps now schedule copies advance forget)
    (reached : ∀ time ∈ (schedule state).times, time ≤ now)
    : Moves now (schedule state)
        (schedule (Schedule.sweep copies advance forget now held ids state).1) := by
  induction ids generalizing state with
  | nil => exact .refl _ _
  | cons id rest ih =>
      unfold Schedule.sweep
      split
      · exact ih reached
      split
      · exact ih reached
      split
      · exact ih reached
      have moves := sweeps.moves state id reached
      generalize advance state id = result at moves
      obtain ⟨next, fault⟩ := result
      cases fault with
      | some fault => exact moves
      | none =>
          have both := moves.trans (sweeps.forgets next id)
          exact both.trans (ih (both.reached reached))

/-- A copy that is not swept stays. -/
theorem Sweeps.get?_of_notMem (sweeps : Sweeps now schedule copies advance forget)
    (absent : id ∉ ids)
    : (copies (Schedule.sweep copies advance forget now held ids state).1).get? id
      = (copies state).get? id := by
  induction ids generalizing state with
  | nil => rfl
  | cons first rest ih =>
      rw [List.mem_cons, not_or] at absent
      unfold Schedule.sweep
      split
      · exact ih absent.2
      split
      · exact ih absent.2
      split
      · exact ih absent.2
      have same := sweeps.others state first id absent.1
      generalize advance state first = result at same
      obtain ⟨next, fault⟩ := result
      cases fault with
      | some fault => exact same
      | none => exact (ih absent.2).trans ((sweeps.othersForget next first id absent.1).trans same)

/-- After a whole sweep a copy that waits was held, or is reported. Witness: induction over the
copies; a later one leaves an earlier one alone.
-/
theorem Sweeps.waits (sweeps : Sweeps now schedule copies advance forget)
    (whole : (Schedule.sweep copies advance forget now held ids state).2.1 = none)
    (listed : id ∈ ids) {replica : Replica Item Failure}
    (isReplica : (copies (Schedule.sweep copies advance forget now held ids state).1).get? id
      = some replica)
    (waiting : replica.waits = true)
    : held = some id ∨ (Schedule.sweep copies advance forget now held ids state).2.2 = true := by
  induction ids generalizing state with
  | nil => cases listed
  | cons first rest ih =>
      unfold Schedule.sweep at whole isReplica ⊢
      by_cases later : id ∈ rest
      · split
        · simp only [*] at whole isReplica
          exact ih whole later isReplica
        rename_i current isCurrent
        simp only [isCurrent] at whole isReplica
        split
        next isHeld =>
          rw [if_pos isHeld] at whole isReplica
          exact ih whole later isReplica
        rename_i notHeld
        rw [if_neg notHeld] at whole isReplica
        split
        next isBusy =>
          rw [if_pos isBusy] at whole isReplica
          rcases ih whole later isReplica with isHeld | blocked
          · exact .inl isHeld
          · exact .inr (by simp [blocked])
        rename_i idle
        rw [if_neg idle] at whole isReplica
        generalize advance state first = result at whole isReplica ⊢
        obtain ⟨next, fault⟩ := result
        cases fault with
        | some fault => cases whole
        | none => exact ih whole later isReplica
      · obtain rfl : id = first := (List.mem_cons.mp listed).resolve_right later
        split
        next missing =>
          simp only [missing] at isReplica
          rw [sweeps.get?_of_notMem later, missing] at isReplica
          cases isReplica
        rename_i current isCurrent
        simp only [isCurrent] at whole isReplica
        split
        next isHeld => exact .inl isHeld
        rename_i notHeld
        rw [if_neg notHeld] at whole isReplica
        split
        next isBusy =>
          rw [if_pos isBusy, sweeps.get?_of_notMem later, isCurrent] at isReplica
          cases isReplica
          simp only [Replica.waits, Bool.and_eq_true] at waiting
          exact .inr (by simp [waiting.1])
        rename_i idle
        rw [if_neg idle] at whole isReplica
        have kept := sweeps.busy state id
        generalize advance state id = result at whole isReplica kept ⊢
        obtain ⟨next, fault⟩ := result
        cases fault with
        | some fault => cases whole
        | none =>
            dsimp only at isReplica
            rw [sweeps.get?_of_notMem later] at isReplica
            obtain ⟨isNext, unspent⟩ := sweeps.forgotten next id replica isReplica
            obtain ⟨old, isOld, busy⟩ := kept replica isNext
            rw [isCurrent] at isOld
            cases isOld
            simp only [Replica.waits, Replica.spent, Bool.and_eq_true] at waiting unspent
            rw [busy, Bool.not_eq_true _ |>.mp idle, Bool.false_or] at waiting
            simp [waiting] at unspent

/-- The copy that is held stays. -/
theorem Sweeps.get?_held (sweeps : Sweeps now schedule copies advance forget)
    : (copies (Schedule.sweep copies advance forget now (some id) ids state).1).get? id
      = (copies state).get? id := by
  induction ids generalizing state with
  | nil => rfl
  | cons first rest ih =>
      unfold Schedule.sweep
      split
      · exact ih
      split
      · exact ih
      rename_i differs
      have apart : id ≠ first := fun same => differs (congrArg some same)
      split
      · exact ih
      have same := sweeps.others state first id apart
      generalize advance state first = result at same
      obtain ⟨next, fault⟩ := result
      cases fault with
      | some fault => exact same
      | none => exact ih.trans ((sweeps.othersForget next first id apart).trans same)

/-- Where no copy has anything to do, a sweep does nothing. -/
theorem sweep_of_idle {Same : State → Prop} (same : Same state)
    (advanced : ∀ next id, Same next → (advance next id).2 = none ∧ Same (advance next id).1)
    (forgets : ∀ next id, Same next → Same (forget next id))
    (blocks : ∀ next id replica, Same next → (copies next).get? id = some replica
      → replica.busy = true
      → replica.retired = false ∧ replica.agenda.any (·.next ≤ now) = false)
    : Same (Schedule.sweep copies advance forget now held ids state).1
      ∧ (Schedule.sweep copies advance forget now held ids state).2 = (none, false) := by
  induction ids generalizing state with
  | nil => exact ⟨same, rfl⟩
  | cons id rest ih =>
      unfold Schedule.sweep
      split
      · exact ih same
      rename_i replica isReplica
      split
      · exact ih same
      split
      next isBusy =>
        obtain ⟨active, early⟩ := blocks state id replica same isReplica isBusy
        obtain ⟨still, nothing⟩ := ih same
        refine ⟨still, ?_⟩
        simp only [nothing, active, early, Bool.or_false]
      · obtain ⟨whole, still⟩ := advanced state id same
        generalize advance state id = result at whole still
        obtain ⟨next, fault⟩ := result
        cases whole
        exact ih (forgets next id still)

end

end Schedule

end Astra
