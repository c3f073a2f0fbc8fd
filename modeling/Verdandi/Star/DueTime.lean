import Verdandi.Star.Catalog.Restoring
import Verdandi.Star.Ephemeris.Restoring

/-! A read below the cached time of a domain needs no exclusive lock: there is nothing to end. -/

namespace Astra

open Support

/-- Before the cached time a whole advance of a Catalog would change nothing, whatever copy is held,
so that a read with the shared lock sees what one with the exclusive lock sees.
-/
structure Catalog.State.Exact (layout : Catalog.Layout) (state : Catalog.State) : Prop where
  sweep : ∀ sample stamp next moment held, state.reading sample = some (stamp, next)
    → stamp.time < next.due
    → next.Same (next.sweep layout moment stamp.time held).1
      ∧ (next.sweep layout moment stamp.time held).2 = none
  read : ∀ moment stamp next, state.reading (moment.sample 0) = some (stamp, next)
    → stamp.time < next.due
    → state.read layout moment = (.ok (), next) ∧ (state.readExclusive layout moment).1 = .ok ()
      ∧ next.Same (state.readExclusive layout moment).2

structure Ephemeris.State.Exact (layout : Ephemeris.Layout) (state : Ephemeris.State) : Prop where
  sweep : ∀ sample stamp next moment held, state.reading sample = some (stamp, next)
    → stamp.time < next.due
    → next.Same (next.sweep layout moment stamp.time held).1
      ∧ (next.sweep layout moment stamp.time held).2 = none
  read : ∀ moment stamp next, state.reading (moment.sample 0) = some (stamp, next)
    → stamp.time < next.due
    → state.read layout moment = (.ok (), next) ∧ (state.readExclusive layout moment).1 = .ok ()
      ∧ next.Same (state.readExclusive layout moment).2

/-- The cached time of both domains is exact in every state that is reached. -/
theorem due_time_law
    : (∀ layout limits actions state,
        run (Catalog.State.step layout) (.start limits) actions = some state
        → state.Exact layout)
      ∧ ∀ layout limits actions state,
        run (Ephemeris.State.step layout) (.start limits) actions = some state
        → state.Exact layout := by
  constructor
  · intro layout limits actions state reached
    exact ⟨fun _ _ _ moment held accepted early =>
        Catalog.State.sweep_of_run reached accepted early moment held,
      fun _ _ _ accepted early => Catalog.State.read_of_run reached accepted early⟩
  · intro layout limits actions state reached
    exact ⟨fun _ _ _ moment held accepted early =>
        Ephemeris.State.sweep_of_run reached accepted early moment held,
      fun _ _ _ accepted early => Ephemeris.State.read_of_run reached accepted early⟩

private def plainMoment : Moment where
  sample _ := some { time := 1, ready := true, synchronized := true }

private def plainCatalog : Catalog.Layout where
  record := 1
  content := 1
  name := 1
  fact := 1
  event := 1

private def plainEphemeris : Ephemeris.Layout where
  record := 1
  content := 1
  name := 1
  fact := 1
  event := 1

private def plainScope : Scope := { sector := [115], spectrum := [112] }

private def plainUuid : Bytes := [0, 0, 0, 0, 0, 0, 64, 0, 128, 0, 0, 0, 0, 0, 0, 0]

private def plainPublish : Catalog.State.Action :=
  .change { scope := plainScope, key := [107] } (.publish [1] 2 5000) plainMoment

private def plainCreate : Ephemeris.State.Action :=
  .create { scope := plainScope, key := plainUuid } [1] [2] 5000 plainMoment

/-- Once something is there that ends, the cached time is the end of a tick. -/
theorem due_time_law_plain
    : ∃ catalog ephemeris,
        run (Catalog.State.step plainCatalog) (.start {}) [plainPublish] = some catalog
        ∧ run (Ephemeris.State.step plainEphemeris) (.start {}) [plainCreate] = some ephemeris
        ∧ catalog.due = 10000001 ∧ ephemeris.due = 10000001
        ∧ catalog.Exact plainCatalog ∧ ephemeris.Exact plainEphemeris :=
  ⟨_, _, rfl, rfl, by decide, by decide,
    due_time_law.1 _ {} [plainPublish] _ rfl, due_time_law.2 _ {} [plainCreate] _ rfl⟩

end Astra
