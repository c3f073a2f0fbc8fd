import Mathlib

/-! What timers do, by what happened to them: a timer that was set fires once, after as many ticks as it was
set for, unless it is dropped or set again before.
-/

namespace Support

/-- What happens to timers. A timer that is set for no tick is set for one; the note is what it is set for.
-/
inductive Happening (Timer Note : Type) where
  | set (timer : Timer) (delay : Nat) (note : Note)
  | drop (timer : Timer)
  | fire (timer : Timer)
  | tick
  deriving DecidableEq

def Happening.isTick {Timer Note : Type} : Happening Timer Note → Bool
  | .tick => true
  | _ => false

/-- How many ticks there were, and at which one each timer that is set is due. -/
structure Timers (Timer : Type) where
  now : Nat := 0
  due : Timer → Option Nat := fun _ => none

/-- What holds wherever a list is split holds with one more at its end. -/
theorem splits_snoc {Item : Type} {P : List Item → Item → Prop} {items : List Item} {last : Item}
    (all : ∀ before item after, items = before ++ item :: after → P before item) (isLast : P items last)
    : ∀ before item after, items ++ [last] = before ++ item :: after → P before item := by
  intro before item after split
  rcases List.eq_nil_or_concat after with rfl | ⟨rest, end_, rfl⟩
  · obtain ⟨rfl, same⟩ := List.append_inj' split rfl
    cases same
    exact isLast
  · rw [List.concat_eq_append, ← List.cons_append, ← List.append_assoc] at split
    exact all before item rest (List.append_inj' split rfl).1

namespace Timers

variable {Timer Note : Type} [DecidableEq Timer]

def step (timers : Timers Timer) : Happening Timer Note → Timers Timer
  | .set timer delay _ =>
      { timers with due := Function.update timers.due timer (some (timers.now + max delay 1)) }
  | .drop timer => { timers with due := Function.update timers.due timer none }
  | .fire timer => { timers with due := Function.update timers.due timer none }
  | .tick => { timers with now := timers.now + 1 }

def run (timers : Timers Timer) (history : List (Happening Timer Note)) : Timers Timer :=
  history.foldl step timers

def ticks (history : List (Happening Timer Note)) : Nat := history.countP Happening.isTick

/-- A timer fires when it is due, and time goes on when no timer is left that is due. -/
def Allows (timers : Timers Timer) : Happening Timer Note → Prop
  | .fire timer => timers.due timer = some timers.now
  | .tick => ∀ timer tick, timers.due timer = some tick → timers.now < tick
  | _ => True

def Lawful (timers : Timers Timer) (history : List (Happening Timer Note)) : Prop :=
  ∀ before happening after, history = before ++ happening :: after
    → (timers.run before).Allows happening

def Untouched (timer : Timer) (history : List (Happening Timer Note)) : Prop :=
  Happening.drop timer ∉ history ∧ ∀ delay note, Happening.set timer delay note ∉ history

variable {timers : Timers Timer} {timer : Timer} {happening : Happening Timer Note} {tick : Nat}
  {history before after : List (Happening Timer Note)}

@[simp] theorem due_set (timers : Timers Timer) (timer other : Timer) (delay : Nat) (note : Note)
    : (timers.step (.set timer delay note)).due other
      = if other = timer then some (timers.now + max delay 1) else timers.due other :=
  Function.update_apply _ _ _ _

@[simp] theorem due_drop (timers : Timers Timer) (timer other : Timer)
    : (timers.step (.drop timer : Happening Timer Note)).due other = if other = timer then none else timers.due other :=
  Function.update_apply _ _ _ _

@[simp] theorem due_fire (timers : Timers Timer) (timer other : Timer)
    : (timers.step (.fire timer : Happening Timer Note)).due other = if other = timer then none else timers.due other :=
  Function.update_apply _ _ _ _

theorem run_append (timers : Timers Timer) (before after : List (Happening Timer Note))
    : timers.run (before ++ after) = (timers.run before).run after :=
  List.foldl_append

omit [DecidableEq Timer] in
@[simp] theorem ticks_append (before after : List (Happening Timer Note))
    : ticks (before ++ after) = ticks before + ticks after :=
  List.countP_append

omit [DecidableEq Timer] in
theorem ticks_cons (happening : Happening Timer Note) (after : List (Happening Timer Note))
    : ticks (happening :: after) = ticks after + if happening.isTick then 1 else 0 :=
  List.countP_cons

theorem now_run (timers : Timers Timer) (history : List (Happening Timer Note))
    : (timers.run history).now = timers.now + ticks history := by
  induction history generalizing timers with
  | nil => rfl
  | cons happening rest ih =>
      have first := ih (timers.step happening)
      rw [ticks_cons]
      cases happening with
      | tick => exact first.trans (by simp only [step, Happening.isTick, if_true]; omega)
      | _ => exact first.trans (by simp [step, Happening.isTick])

theorem lawful_nil (timers : Timers Timer) : timers.Lawful ([] : List (Happening Timer Note)) := by
  intro before happening after isEmpty
  cases before <;> cases isEmpty

/-- A lawful history goes on by what is allowed. -/
theorem Lawful.snoc (lawful : timers.Lawful history) (allows : (timers.run history).Allows happening)
    : timers.Lawful (history ++ [happening]) :=
  splits_snoc lawful allows

/-- What comes after a lawful history is lawful there. -/
theorem Lawful.right (lawful : timers.Lawful (before ++ after)) : (timers.run before).Lawful after := by
  intro first happening rest split
  rw [← run_append]
  exact lawful (before ++ first) happening rest (by rw [split, List.append_assoc])

/-- What comes before a lawful history ends is lawful. -/
theorem Lawful.left (lawful : timers.Lawful (before ++ after)) : timers.Lawful before := by
  intro first happening rest split
  exact lawful first happening (rest ++ after) (by rw [split, List.append_assoc, List.cons_append])

theorem lawful_cons (lawful : timers.Lawful (happening :: after))
    : timers.Allows happening ∧ (timers.step happening).Lawful after :=
  ⟨lawful [] happening after rfl, @Lawful.right _ _ _ timers [happening] after lawful⟩

omit [DecidableEq Timer] in
theorem Untouched.of_cons (untouched : Untouched timer (happening :: after)) : Untouched timer after :=
  ⟨fun isDropped => untouched.1 (List.mem_cons_of_mem _ isDropped),
    fun delay note isSet => untouched.2 delay note (List.mem_cons_of_mem _ isSet)⟩

/-- What happens to a timer that is not touched. -/
theorem due_step (untouched : Untouched timer (happening :: after)) (silent : happening ≠ .fire timer)
    : (timers.step happening).due timer = timers.due timer := by
  cases happening with
  | set other delay note =>
      refine Function.update_of_ne ?_ _ _
      rintro rfl
      exact untouched.2 delay note List.mem_cons_self
  | drop other =>
      refine Function.update_of_ne ?_ _ _
      rintro rfl
      exact untouched.1 List.mem_cons_self
  | fire other =>
      refine Function.update_of_ne ?_ _ _
      rintro rfl
      exact silent rfl
  | tick => rfl

/-- What is not set does not fire. Witness: induction over what happens. -/
theorem silent_of_unset (lawful : timers.Lawful history)
    (untouched : ∀ delay note, Happening.set timer delay note ∉ history) (unset : timers.due timer = none)
    : Happening.fire timer ∉ history := by
  induction history generalizing timers with
  | nil => exact List.not_mem_nil
  | cons happening rest ih =>
      obtain ⟨allows, lawfulRest⟩ := lawful_cons lawful
      have unsetRest : (timers.step happening).due timer = none := by
        cases happening with
        | set other delay note =>
            rw [due_set, if_neg, unset]
            rintro rfl
            exact untouched delay note List.mem_cons_self
        | drop other | fire other =>
            simp only [due_drop, due_fire]
            split
            · rfl
            · exact unset
        | tick => exact unset
      intro listed
      rcases List.mem_cons.mp listed with rfl | later
      · rw [Allows, unset] at allows
        cases allows
      · refine ih lawfulRest (fun delay note isSet => ?_) unsetRest later
        exact untouched delay note (List.mem_cons_of_mem _ isSet)

/-- What is set stays so until it fires, and fires when it is due and not again. Witness: induction over what
happens.
-/
theorem fires_once (lawful : timers.Lawful history) (untouched : Untouched timer history)
    (isSet : timers.due timer = some tick) (future : timers.now ≤ tick)
    : (Happening.fire timer ∉ history ∧ (timers.run history).due timer = some tick
        ∧ (timers.run history).now ≤ tick)
      ∨ ∃ first rest, history = first ++ .fire timer :: rest ∧ Happening.fire timer ∉ first
        ∧ Happening.fire timer ∉ rest ∧ (timers.run first).now = tick := by
  induction history generalizing timers with
  | nil => exact .inl ⟨List.not_mem_nil, isSet, future⟩
  | cons happening rest ih =>
      obtain ⟨allows, lawfulRest⟩ := lawful_cons lawful
      by_cases fires : happening = .fire timer
      · subst fires
        rw [Allows, isSet, Option.some.injEq] at allows
        refine .inr ⟨[], rest, rfl, List.not_mem_nil, ?_, allows.symm⟩
        refine silent_of_unset lawfulRest untouched.of_cons.2 ?_
        rw [due_fire, if_pos rfl]
      · have setRest := (due_step untouched fires).trans isSet
        have futureRest : (timers.step happening).now ≤ tick := by
          cases happening with
          | tick => exact allows timer tick isSet
          | _ => exact future
        rcases ih lawfulRest untouched.of_cons setRest futureRest with
          ⟨silent, pending, reached⟩ | ⟨first, last, split, silentFirst, silentLast, isNow⟩
        · refine .inl ⟨fun listed => ?_, pending, reached⟩
          rcases List.mem_cons.mp listed with same | later
          · exact fires same.symm
          · exact silent later
        · refine .inr ⟨happening :: first, last, by rw [split]; rfl, fun listed => ?_, silentLast, isNow⟩
          rcases List.mem_cons.mp listed with same | later
          · exact fires same.symm
          · exact silentFirst later

/-- A timer that is set fires once, after as many ticks as it was set for. -/
theorem Lawful.exact {delay : Nat} {note : Note}
    (lawful : timers.Lawful (before ++ .set timer delay note :: after))
    (untouched : Untouched timer after)
    : (Happening.fire timer ∉ after
        ∧ (timers.run (before ++ .set timer delay note :: after)).due timer
          = some ((timers.run before).now + max delay 1)
        ∧ ticks after ≤ max delay 1)
      ∨ ∃ first rest, after = first ++ .fire timer :: rest ∧ Happening.fire timer ∉ first
        ∧ Happening.fire timer ∉ rest ∧ ticks first = max delay 1 := by
  obtain ⟨-, lawfulAfter⟩ := lawful_cons lawful.right
  have isSet : ((timers.run before).step (.set timer delay note)).due timer
      = some ((timers.run before).now + max delay 1) := by
    rw [due_set, if_pos rfl]
  have isNow : ((timers.run before).step (.set timer delay note)).now = (timers.run before).now := rfl
  rw [run_append timers before]
  rcases fires_once lawfulAfter untouched isSet (Nat.le_add_right _ _) with ⟨silent, pending, reached⟩
    | ⟨first, rest, split, silentFirst, silentRest, reached⟩
  · rw [now_run, isNow] at reached
    exact .inl ⟨silent, pending, by omega⟩
  · rw [now_run, isNow] at reached
    exact .inr ⟨first, rest, split, silentFirst, silentRest, by omega⟩

/-- A timer that was dropped does not fire. -/
theorem Lawful.dropped (lawful : timers.Lawful (before ++ .drop timer :: after))
    (untouched : ∀ delay note, Happening.set timer delay note ∉ after)
    : Happening.fire timer ∉ after := by
  obtain ⟨-, lawfulAfter⟩ := lawful_cons lawful.right
  have unset : ((timers.run before).step (.drop timer : Happening Timer Note)).due timer = none := by
    rw [due_drop, if_pos rfl]
  exact silent_of_unset lawfulAfter untouched unset

end Timers

end Support
