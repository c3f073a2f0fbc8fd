import Verdandi.Star.Origin

/-! The projections of one domain: a Scene for each Scope that was ever written, which share one
budget for their histories.
-/

namespace Astra

open Support

structure Stage (Item : Type) where
  scopes : Nat
  budget : Nat
  limits : Scene.Limits
  scenes : Assoc Scope (Scene Item) := ∅
  history : Nat := 0

namespace Stage

variable {Item : Type}

def locate (stage : Stage Item) (scope : Scope) : Option (Scene Item) :=
  stage.scenes.get? scope

def find (stage : Stage Item) (name : Origin.Name) : Option Item :=
  (stage.locate name.scope).bind (·.entries.get? name.key)

def obtain' (stage : Stage Item) (scope : Scope) : Except Scene.Error (Stage Item) :=
  if !scope.valid then
    .error .input
  else if stage.scenes.contains scope then
    .ok stage
  else if stage.scenes.size = stage.scopes then
    .error .capacity
  else
    .ok { stage with scenes := stage.scenes.set scope { limits := stage.limits } }

/-- What a Scene may keep of its history: what is left by the others. -/
def allowance (stage : Stage Item) (scene : Scene Item) : Nat :=
  stage.budget - (stage.history - scene.backlog)

def perform (measure : Scene.Measure Item) (stage : Stage Item) (scope : Scope)
    (task : Nat → Scene.Task Item)
    : Except Scene.Error (Stage Item) :=
  match stage.locate scope with
  | none => .error .input
  | some scene =>
      match scene.perform measure (task (stage.allowance scene)) with
      | .error refused => .error refused
      | .ok (next, _) =>
          .ok
            { stage with
              scenes := stage.scenes.set scope next
              history := stage.history - scene.backlog + next.backlog }

def change (measure : Scene.Measure Item) (stage : Stage Item) (name : Origin.Name)
    (record : Option Item) (now : Int) (data : Bool := false)
    : Except Scene.Error (Stage Item) :=
  stage.perform measure name.scope fun retention =>
    .single { key := name.key, record, now, data, retention }

structure Row (Item : Type) where
  key : Bytes
  record : Option Item
  data : Bool := false

def changes (measure : Scene.Measure Item) (stage : Stage Item) (scope : Scope)
    (rows : List (Row Item)) (now : Int)
    : Except Scene.Error (Stage Item) :=
  stage.perform measure scope fun retention =>
    .batch (rows.map fun row =>
      { key := row.key, record := row.record, now, data := row.data, retention })

-- What a change does

variable {measure : Scene.Measure Item} {stage next : Stage Item}

variable {scope : Scope}

/-- Opening a Scope shows nothing. -/
theorem find_obtain (opened : stage.obtain' scope = .ok next)
    : next.find = stage.find := by
  funext name
  unfold obtain' at opened
  split at opened
  · cases opened
  split at opened
  · cases opened
    rfl
  rename_i absent
  split at opened
  · cases opened
  cases opened
  unfold find locate
  rw [Assoc.get?_set]
  split
  next same =>
    rw [same, (Assoc.contains_eq_false_iff _ _).mp (by simpa using absent)]
    rfl
  · rfl

/-- Changes one after the other leave the last record of each key. Witness: induction over them. -/
theorem entries_of_commits {edits : List (Scene.Edit Item)} {scene last : Scene Item}
    {events : List (Scene.Event Item)}
    (committed : scene.commits measure edits = .ok (last, events))
    : last.entries.get?
      = edits.foldl (fun content edit => Function.update content edit.key edit.record)
          scene.entries.get? := by
  induction edits generalizing scene events with
  | nil =>
      cases committed
      rfl
  | cons edit rest ih =>
      unfold Scene.commits at committed
      split at committed
      · cases committed
      rename_i middle event first
      split at committed
      · cases committed
      rename_i finish later continued
      cases committed
      have changed := Scene.advanced_of_advance first
      have content : middle.entries.get?
          = Function.update scene.entries.get? edit.key edit.record := by
        funext key
        rw [changed.entries, Assoc.get?_amend, Function.update_apply]
      rw [ih continued, content]
      rfl

/-- A task changes its own Scope only. -/
theorem find_perform {task : Nat → Scene.Task Item}
    (performed : stage.perform measure scope task = .ok next)
    : ∃ scene, stage.locate scope = some scene ∧ ∀ name : Origin.Name, next.find name
        = if name.scope = scope then
            (task (stage.allowance scene)).edits.foldl
              (fun content edit => Function.update content edit.key edit.record)
              scene.entries.get? name.key
          else stage.find name := by
  unfold perform at performed
  split at performed
  · cases performed
  rename_i scene located
  split at performed
  · cases performed
  rename_i last events done
  cases performed
  refine ⟨scene, located, ?_⟩
  intro name
  have content := entries_of_commits (Scene.commits_of_perform done)
  unfold find locate
  rw [Assoc.get?_set]
  split
  · rw [Option.bind_some, content]
  · rfl

variable {name : Origin.Name} {now : Int}

/-- A single change shows its record. -/
theorem find_change {record : Option Item} {data : Bool}
    (changed : stage.change measure name record now data = .ok next)
    : next.find = Function.update stage.find name record := by
  obtain ⟨scene, located, content⟩ := find_perform changed
  funext other
  rw [content, Function.update_apply]
  by_cases same : other.scope = name.scope
  · simp only [same, Scene.Task.edits, List.foldl_cons, List.foldl_nil, Function.update_apply]
    have shown : stage.find other = scene.entries.get? other.key := by
      rw [find, same, located, Option.bind_some]
    obtain ⟨_, key⟩ := other
    obtain ⟨_, changedKey⟩ := name
    dsimp only at same
    subst same
    simp [shown]
  · rw [if_neg same, if_neg fun equal => same (congrArg Origin.Name.scope equal)]

variable {rows : List (Row Item)}

theorem find_changes (changed : stage.changes measure scope rows now = .ok next)
    (name : Origin.Name)
    : next.find name = if name.scope = scope then
          rows.foldl (fun content row => Function.update content row.key row.record)
            (fun key => stage.find ⟨scope, key⟩) name.key
        else stage.find name := by
  obtain ⟨scene, located, content⟩ := find_perform changed
  rw [content]
  split
  · simp only [Scene.Task.edits, List.foldl_map]
    have shown : (fun key => stage.find ⟨scope, key⟩) = scene.entries.get? := by
      funext key
      simp only [find, located, Option.bind_some]
    rw [shown]
  · rfl

/-- The rows of a batch are shown. -/
theorem find_changes_of_mem (changed : stage.changes measure scope rows now = .ok next)
    (distinct : (rows.map Row.key).Nodup) {row : Row Item} (listed : row ∈ rows)
    : next.find ⟨scope, row.key⟩ = row.record := by
  rw [find_changes changed, if_pos rfl, foldl_update_of_mem distinct listed]

/-- What a batch does not name stays. -/
theorem find_changes_of_notMem (changed : stage.changes measure scope rows now = .ok next)
    (absent : name.scope = scope → name.key ∉ rows.map Row.key)
    : next.find name = stage.find name := by
  rw [find_changes changed]
  split
  next same =>
    obtain ⟨_, key⟩ := name
    dsimp only at same
    subst same
    rw [foldl_update_of_notMem (absent rfl)]
  · rfl

end Stage

end Astra
