import Verdandi.Star.Progress
import Verdandi.Support.Run

/-! The rotation of the Scopes whose watch streams have something to see. A Scope has one place
in the queue however often it changes; a take hands out one stream and moves its Scope to the end.
-/

namespace Astra.Rotation

open Support

variable {Stream : Type}

/-- A group with its place in the rotation. Its streams are in the order of their addresses:
those before the cursor have `passed`, and those from it on are `ahead`; without a cursor all have
passed. The traversal began at version `through`.
-/
structure Route (Stream : Type) extends Progress.Group where
  passed : List Stream := []
  ahead : List Stream := []
  through : Nat := 0

/-- The streams in the order in which they are handed out. -/
def Route.upcoming (group : Route Stream) : List Stream := group.ahead ++ group.passed

/-- The end of a traversal: another one for what was announced meanwhile, or rest. -/
def Route.finish (group : Route Stream) : Route Stream :=
  if group.passed ≠ [] ∧ group.through ≠ group.version then
    { group with passed := [], ahead := group.passed, through := group.version }
  else
    group

structure Queue (Stream : Type) where
  groups : Scope → Route Stream := fun _ => {}
  order : List Scope := []

namespace Queue

def amend (queue : Queue Stream) (scope : Scope) (group : Route Stream) : Queue Stream :=
  { queue with groups := Function.update queue.groups scope group }

def append (queue : Queue Stream) (scope : Scope) : Queue Stream :=
  { queue with order := queue.order ++ [scope] }

def detach (queue : Queue Stream) (scope : Scope) : Queue Stream :=
  { queue with order := queue.order.filter (· ≠ scope) }

def finish (queue : Queue Stream) (scope : Scope) : Queue Stream :=
  let group := (queue.groups scope).finish
  if group.ahead = [] then queue.amend scope group else (queue.amend scope group).append scope

/-- The traversal of a Scope that left the queue went on. -/
def settle (queue : Queue Stream) (scope : Scope) (group : Route Stream) : Queue Stream :=
  if group.ahead = [] then
    (queue.amend scope group).finish scope
  else
    (queue.amend scope group).append scope

def publish (queue : Queue Stream) (scope : Scope) (version : Nat) (replacement : Bool)
    : Queue Stream :=
  let group := { queue.groups scope with
    toGroup := Progress.publish (queue.groups scope).toGroup version replacement }
  if group.ahead = [] ∧ group.passed ≠ [] then
    let group := { group with passed := [], ahead := group.passed, through := version }
    (queue.amend scope group).append scope
  else
    queue.amend scope group

def take (queue : Queue Stream) : Option (Scope × Stream) × Queue Stream :=
  match queue.order with
  | [] => (none, queue)
  | scope :: _ =>
    let group := queue.groups scope
    match group.ahead with
    | [] => (none, queue)
    | stream :: ahead =>
      (some (scope, stream), (queue.detach scope).settle scope
        { group with passed := group.passed ++ [stream], ahead })

def erase [DecidableEq Stream] (queue : Queue Stream) (scope : Scope) (stream : Stream)
    : Queue Stream :=
  let group := queue.groups scope
  let left := { group with
    passed := group.passed.filter (· ≠ stream), ahead := group.ahead.filter (· ≠ stream) }
  if group.ahead ≠ [] ∧ left.ahead = [] then
    ((queue.detach scope).amend scope left).finish scope
  else
    queue.amend scope left

/-- The owner adds a stream where its address puts it; the cursor stays at its stream. -/
def emplace (queue : Queue Stream) (scope : Scope) (place : Nat) (stream : Stream) : Queue Stream :=
  let group := queue.groups scope
  let index := place - group.passed.length
  queue.amend scope (if group.ahead = [] ∨ index = 0 then
    { group with passed := group.passed.take place ++ stream :: group.passed.drop place }
  else
    { group with ahead := group.ahead.take index ++ stream :: group.ahead.drop index })

/-- The steps before `stream` of the Scope is handed out, if `bound` Scopes wait at most. -/
def rank [DecidableEq Stream] (queue : Queue Stream) (bound : Nat) (scope : Scope)
    (stream : Stream) : Nat :=
  bound * (queue.groups scope).upcoming.idxOf stream + queue.order.idxOf scope

end Queue

-- Groups

variable {group : Route Stream} {owed : Finset Stream} {stream : Stream}

/-- `owed` are the streams that have not been handed out since the last announcement: the
traversal has them ahead, or another one follows it.
-/
structure Route.Sound (group : Route Stream) (owed : Finset Stream) : Prop where
  heard : group.ahead ≠ [] → group.first.isSome
  behind : group.through ≤ group.version
  owes : ∀ stream ∈ owed, stream ∈ group.ahead
    ∨ stream ∈ group.passed ∧ group.ahead ≠ [] ∧ group.through ≠ group.version

theorem Route.Sound.upcoming (sound : group.Sound owed) (owes : stream ∈ owed)
    : stream ∈ group.upcoming :=
  List.mem_append.mpr ((sound.owes stream owes).imp_right And.left)

/-- The group once its traversal went on. -/
def Route.settle (group : Route Stream) : Route Stream :=
  if group.ahead = [] then group.finish else group

theorem Route.upcoming_settle : group.settle.upcoming = group.upcoming := by
  unfold Route.settle Route.finish
  split
  next ended =>
    split
    · simp [Route.upcoming, ended]
    · rfl
  · rfl

/-- A traversal that goes on, or begins again, has all streams ahead that are owed. -/
theorem Route.sound_settle (heard : group.first.isSome) (behind : group.through ≤ group.version)
    (owes : ∀ stream ∈ owed, stream ∈ group.ahead
      ∨ stream ∈ group.passed ∧ group.through ≠ group.version)
    : group.settle.Sound owed := by
  unfold Route.settle Route.finish
  split
  next ended =>
    rw [ended] at owes
    have passed (stream : Stream) (listed : stream ∈ owed) :=
      (owes stream listed).resolve_left List.not_mem_nil
    split
    next again =>
      exact ⟨fun _ => heard, le_refl _, fun stream listed => .inl (passed stream listed).1⟩
    next rests =>
      refine ⟨fun _ => heard, behind, fun stream listed =>
        absurd ⟨?_, (passed stream listed).2⟩ rests⟩
      exact List.ne_nil_of_mem (passed stream listed).1
  next some =>
    exact ⟨fun _ => heard, behind, fun stream listed =>
      (owes stream listed).imp_right fun passed => ⟨passed.1, some, passed.2⟩⟩

section Lists

variable {A : Type} {list : List A} {item : A}

theorem mem_insert (place : Nat) (added : A) (member : item ∈ list)
    : item ∈ list.take place ++ added :: list.drop place := by
  rw [← List.take_append_drop place list] at member
  exact List.mem_append.mpr ((List.mem_append.mp member).imp_right (List.mem_cons_of_mem _))

variable [DecidableEq A]

/-- An item does not go back when others are dropped. -/
theorem idxOf_filter_le {keep : A → Bool} (kept : keep item = true)
    : (list.filter keep).idxOf item ≤ list.idxOf item := by
  induction list with
  | nil => exact le_refl _
  | cons head rest ih =>
      by_cases found : head = item
      · simp [found, kept]
      · rw [List.idxOf_cons_ne rest found, List.filter_cons]
        split
        · rw [List.idxOf_cons_ne _ found]
          exact Nat.succ_le_succ ih
        · exact ih.trans (Nat.le_succ _)

/-- An item goes back by one place when another comes before it. -/
theorem idxOf_insert_le (added : A) (before after : List A)
    : (before ++ added :: after).idxOf item ≤ (before ++ after).idxOf item + 1 := by
  induction before with
  | nil =>
      rw [List.nil_append, List.idxOf_cons, Bool.cond_eq_ite]
      split
      · exact Nat.zero_le _
      · exact le_refl _
  | cons head rest ih =>
      rw [List.cons_append, List.cons_append, List.idxOf_cons, List.idxOf_cons, Bool.cond_eq_ite,
        Bool.cond_eq_ite]
      split
      · exact Nat.zero_le _
      · exact Nat.succ_le_succ ih

end Lists

-- The queue

variable {queue next : Queue Stream} {scope : Scope} {turns : Nat}

/-- What an operation on one Scope leaves: the others come `turns` places nearer to the head, and
the Scope itself waits if it has streams ahead.
-/
structure Turned (turns : Nat) (queue : Queue Stream) (scope : Scope) (next : Queue Stream)
    : Prop where
  distinct : next.order.Nodup
  queued : scope ∈ next.order ↔ (next.groups scope).ahead ≠ []
  groups : ∀ other, other ≠ scope → next.groups other = queue.groups other
  others : ∀ other, other ≠ scope → (other ∈ next.order ↔ other ∈ queue.order)
  nearer : ∀ other, other ≠ scope → other ∈ queue.order
    → next.order.idxOf other + turns ≤ queue.order.idxOf other

theorem Queue.groups_amend : (queue.amend scope group).groups scope = group :=
  Function.update_self ..

theorem Turned.stay (group : Route Stream) (distinct : queue.order.Nodup)
    (queued : scope ∈ queue.order ↔ group.ahead ≠ [])
    : Turned 0 queue scope (queue.amend scope group) :=
  ⟨distinct, by rw [Queue.groups_amend]; exact queued,
    fun _ differs => Function.update_of_ne differs .., fun _ _ => .rfl, fun _ _ _ => le_refl _⟩

theorem Turned.enter (queue : Queue Stream) (distinct : queue.order.Nodup)
    (out : scope ∉ queue.order) (waits : (queue.groups scope).ahead ≠ [])
    : Turned 0 queue scope (queue.append scope) := by
  refine ⟨?_, by simp [Queue.append, waits], fun _ _ => rfl, fun other differs => ?_,
    fun other _ member => (List.idxOf_append_of_mem member).le⟩
  · exact List.nodup_append'.mpr ⟨distinct, List.nodup_singleton _,
      List.disjoint_singleton.mpr out⟩
  · simp [Queue.append, differs]

theorem Turned.amend (turned : Turned turns (queue.amend scope group) scope next)
    : Turned turns queue scope next :=
  { turned with
    groups := fun other differs =>
      (turned.groups other differs).trans (Function.update_of_ne differs ..) }

/-- A Scope outside of the queue comes back if its group has something ahead. -/
theorem Turned.settle (group : Route Stream) (distinct : queue.order.Nodup)
    (out : scope ∉ queue.order)
    : Turned 0 queue scope (queue.settle scope group)
      ∧ (queue.settle scope group).groups scope = group.settle := by
  unfold Queue.settle Route.settle Queue.finish
  rw [Queue.groups_amend]
  dsimp only
  split
  · split
    next rests =>
      have stays : Turned 0 (queue.amend scope group) scope _ :=
        .stay group.finish distinct (iff_of_false out (not_not.mpr rests))
      exact ⟨stays.amend, Queue.groups_amend⟩
    next waits =>
      refine ⟨(Turned.enter ((queue.amend scope group).amend scope _) distinct out ?_).amend.amend,
        Queue.groups_amend⟩
      rw [Queue.groups_amend]
      exact waits
  next waits =>
    refine ⟨(Turned.enter (queue.amend scope group) distinct out ?_).amend, Queue.groups_amend⟩
    rw [Queue.groups_amend]
    exact waits

theorem Queue.mem_detach {other : Scope} (differs : other ≠ scope)
    : other ∈ (queue.detach scope).order ↔ other ∈ queue.order := by
  simp [Queue.detach, differs]

theorem Queue.detached (queue : Queue Stream) (scope : Scope)
    : scope ∉ (queue.detach scope).order := by
  simp [Queue.detach]

theorem Turned.detach (turned : Turned 0 (queue.detach scope) scope next)
    : Turned 0 queue scope next :=
  { turned with
    others := fun other differs => (turned.others other differs).trans (Queue.mem_detach differs)
    nearer := fun other differs member =>
      (turned.nearer other differs ((Queue.mem_detach differs).mpr member)).trans
        (idxOf_filter_le (by simp [differs])) }

/-- Without the head every other Scope is one place nearer. -/
theorem Turned.pop {rest : List Scope} (isHead : queue.order = scope :: rest)
    (turned : Turned 0 (queue.detach scope) scope next)
    : Turned 1 queue scope next := by
  refine { turned.detach with nearer := fun other differs member => ?_ }
  refine Nat.succ_le_of_lt (lt_of_le_of_lt
    (turned.nearer other differs ((Queue.mem_detach differs).mpr member)) ?_)
  rw [Queue.detach, isHead, List.filter_cons_of_neg (by simp), List.idxOf_cons_ne rest differs.symm]
  exact Nat.lt_succ_of_le (idxOf_filter_le (by simp [differs]))

-- Runs

/-- The queue with the streams that were there at the last announcement to their Scope and have
not been handed out since.
-/
structure World (Stream : Type) where
  queue : Queue Stream := {}
  owed : Scope → Finset Stream := fun _ => ∅

structure Holds (world : World Stream) : Prop where
  sound : ∀ scope, (world.queue.groups scope).Sound (world.owed scope)
  distinct : world.queue.order.Nodup
  queued : ∀ scope, scope ∈ world.queue.order ↔ (world.queue.groups scope).ahead ≠ []

variable {world after : World Stream} {place : Scope} {joins : Scope → Nat}
variable {pending : Finset Stream}

theorem Holds.waits (holds : Holds world) (owes : stream ∈ world.owed scope)
    : scope ∈ world.queue.order := by
  refine (holds.queued scope).mpr ?_
  rcases (holds.sound scope).owes stream owes with member | ⟨_, some, _⟩
  · exact List.ne_nil_of_mem member
  · exact some

variable [DecidableEq Stream]

inductive Action (Stream : Type) where
  | changed (scope : Scope) (version : Nat) (replacement : Bool)
  | take
  | retire (scope : Scope) (stream : Stream)
  | watch (scope : Scope) (place : Nat) (stream : Stream)

/-- The streams that an action hands out. -/
def Action.turn : Action Stream → Nat
  | .take => 1
  | _ => 0

/-- The streams that an action adds to the Scope. -/
def Action.adds (scope : Scope) : Action Stream → Nat
  | .watch place _ _ => if scope = place then 1 else 0
  | _ => 0

/-- One call of the owner, which announces growing versions of the Scopes that have streams. -/
def World.perform (world : World Stream) : Action Stream → Option (World Stream)
  | .changed scope version replacement =>
      let group := world.queue.groups scope
      if group.upcoming = [] then
        some world
      else if group.first.isSome ∧ version ≤ group.version then
        none
      else
        some {
          queue := world.queue.publish scope version replacement
          owed := Function.update world.owed scope group.upcoming.toFinset }
  | .take =>
      match world.queue.take with
      | (none, queue) => some { world with queue }
      | (some (scope, stream), queue) =>
          some { queue, owed := Function.update world.owed scope ((world.owed scope).erase stream) }
  | .retire scope stream =>
      some {
        queue := world.queue.erase scope stream
        owed := Function.update world.owed scope ((world.owed scope).erase stream) }
  | .watch scope place stream =>
      some { world with queue := world.queue.emplace scope place stream }

/-- What a step keeps, and how near every stream that is still owed comes to its turn. -/
structure Kept (world after : World Stream) (turn : Nat) (joins : Scope → Nat) : Prop where
  holds : Holds after
  rank : ∀ scope stream bound, stream ∈ world.owed scope → stream ∈ after.owed scope
    → after.queue.order.length ≤ bound
    → after.queue.rank bound scope stream + turn
      ≤ world.queue.rank bound scope stream + bound * joins scope

theorem Holds.kept (holds : Holds world) (isGroup : world.queue.groups place = group)
    (turned : Turned turns world.queue place queue)
    (sound : (queue.groups place).Sound pending)
    (closer : ∀ stream ∈ world.owed place, stream ∈ pending
      → turns = 0 ∧ queue.order = world.queue.order
          ∧ (queue.groups place).upcoming.idxOf stream ≤ group.upcoming.idxOf stream + joins place
        ∨ turns ≤ 1 ∧ (queue.groups place).upcoming.idxOf stream < group.upcoming.idxOf stream)
    : Kept world { queue, owed := Function.update world.owed place pending } turns joins := by
  have holds' : Holds { queue, owed := Function.update world.owed place pending } := by
    refine ⟨fun scope => ?_, turned.distinct, fun scope => ?_⟩
    all_goals
      dsimp only
      by_cases same : scope = place
    · simpa only [same, Function.update_self] using sound
    · simpa only [Function.update_of_ne same, turned.groups scope same] using holds.sound scope
    · simpa only [same] using turned.queued
    · rw [turned.groups scope same]
      exact (turned.others scope same).trans (holds.queued scope)
  refine ⟨holds', fun scope stream bound owes still few => ?_⟩
  have later := List.idxOf_lt_length_iff.mpr (holds'.waits still)
  subst isGroup
  dsimp only at still few later ⊢
  rw [Queue.rank, Queue.rank]
  by_cases same : scope = place
  · subst same
    rw [Function.update_self] at still
    rcases closer stream owes still with ⟨none, order, less⟩ | ⟨once, less⟩
    · have := Nat.mul_le_mul_left bound less
      rw [Nat.mul_add] at this
      rw [none, order]
      omega
    · have := Nat.mul_le_mul_left bound (Nat.succ_le_of_lt less)
      rw [Nat.mul_succ] at this
      omega
  · have := turned.nearer scope same (holds.waits owes)
    rw [turned.groups scope same]
    omega

theorem Holds.changed {version : Nat} {replacement : Bool} (holds : Holds world)
    (performed : world.perform (.changed place version replacement) = some after)
    : Kept world after 0 joins := by
  have sound := holds.sound place
  have queued := holds.queued place
  simp only [World.perform] at performed
  split at performed
  · cases performed
    exact ⟨holds, fun _ _ _ _ _ _ => Nat.le_add_right _ _⟩
  rename_i populated
  split at performed
  · cases performed
  rename_i later
  cases performed
  unfold Queue.publish
  dsimp only
  generalize isGroup : world.queue.groups place = group at *
  have told : (Progress.publish group.toGroup version replacement).first.isSome := by
    cases known : group.first <;> simp [Progress.publish, known]
  split
  next idle =>
    have out : place ∉ world.queue.order := fun member => queued.mp member idle.1
    refine holds.kept isGroup (Turned.enter (world.queue.amend place _) holds.distinct out ?_).amend
      ?_ fun stream owes => absurd (holds.waits owes) out
    · rw [Queue.groups_amend]
      exact idle.2
    · dsimp only [Queue.append]
      rw [Queue.groups_amend]
      refine ⟨fun _ => told, le_refl _, fun stream listed => .inl ?_⟩
      simpa [Route.upcoming, idle.1] using listed
  next busy =>
    have waits : group.ahead ≠ [] := fun none =>
      busy ⟨none, fun empty => populated (by rw [Route.upcoming, none, empty]; rfl)⟩
    have newer : group.through < version :=
      lt_of_le_of_lt sound.behind (not_le.mp fun old => later ⟨sound.heard waits, old⟩)
    refine holds.kept isGroup (.stay _ holds.distinct queued) ?_ fun stream _ _ => ?_
    all_goals rw [Queue.groups_amend]
    · refine ⟨fun _ => told, newer.le, fun stream listed => ?_⟩
      rcases List.mem_append.mp (List.mem_toFinset.mp listed) with member | member
      · exact .inl member
      · exact .inr ⟨member, waits, newer.ne⟩
    · exact .inl ⟨rfl, rfl, Nat.le_add_right _ _⟩

theorem Holds.take (holds : Holds world) (performed : world.perform .take = some after)
    : Kept world after 1 joins := by
  simp only [World.perform, Queue.take] at performed
  cases isOrder : world.queue.order with
  | nil =>
      simp only [isOrder] at performed
      cases performed
      refine ⟨holds, fun scope stream bound owes => ?_⟩
      have := holds.waits owes
      rw [isOrder] at this
      cases this
  | cons head rest =>
      have sound := holds.sound head
      have waits := (holds.queued head).mp (by rw [isOrder]; exact List.mem_cons_self)
      obtain ⟨cursor, ahead, isAhead⟩ := List.exists_cons_of_ne_nil waits
      simp only [isOrder, isAhead] at performed
      cases performed
      generalize isGroup : world.queue.groups head = group at *
      have settled := Turned.settle { group with passed := group.passed ++ [cursor], ahead }
        (holds.distinct.filter _) (world.queue.detached head)
      refine holds.kept isGroup (settled.1.pop isOrder) ?_
        fun stream owes still => .inr ⟨le_refl _, ?_⟩
      all_goals rw [settled.2]
      · refine Route.sound_settle (sound.heard waits) sound.behind fun stream listed => ?_
        obtain ⟨differs, listed⟩ := Finset.mem_erase.mp listed
        refine (sound.owes stream listed).imp (fun member => ?_) fun passed =>
          ⟨List.mem_append_left _ passed.1, passed.2.2⟩
        rw [isAhead] at member
        exact (List.mem_cons.mp member).resolve_left differs
      · have differs := Finset.ne_of_mem_erase still
        have member := sound.upcoming owes
        rw [Route.upcoming, isAhead, List.cons_append] at member
        rw [Route.upcoming_settle, Route.upcoming, Route.upcoming, isAhead, List.cons_append,
          List.idxOf_cons_ne _ differs.symm]
        dsimp only
        rw [← List.append_assoc,
          List.idxOf_append_of_mem ((List.mem_cons.mp member).resolve_left differs)]
        exact Nat.lt_succ_self _

theorem Holds.retire (holds : Holds world)
    (performed : world.perform (.retire place stream) = some after)
    : Kept world after 0 joins := by
  have sound := holds.sound place
  have queued := holds.queued place
  cases performed
  have left {other : Stream} {list : List Stream} (still : other ∈ (world.owed place).erase stream)
      (member : other ∈ list)
      : other ∈ list.filter (· ≠ stream) :=
    List.mem_filter.mpr ⟨member, decide_eq_true (Finset.ne_of_mem_erase still)⟩
  have nearer {other : Stream} (still : other ∈ (world.owed place).erase stream)
      (list : List Stream)
      : (list.filter (· ≠ stream)).idxOf other ≤ list.idxOf other :=
    idxOf_filter_le (decide_eq_true (Finset.ne_of_mem_erase still))
  unfold Queue.erase
  dsimp only
  generalize isGroup : world.queue.groups place = group at *
  split
  next ends =>
    have settled := Turned.settle { group with
      passed := group.passed.filter (· ≠ stream)
      ahead := group.ahead.filter (· ≠ stream) }
      (holds.distinct.filter _) (world.queue.detached place)
    rw [Queue.settle, if_pos ends.2] at settled
    have gone {other : Stream} (still : other ∈ (world.owed place).erase stream)
        : other ∉ group.ahead := fun member => by
      have := left still member
      rw [ends.2] at this
      cases this
    refine holds.kept isGroup settled.1.detach ?_ fun other owes still => .inr ⟨Nat.zero_le _, ?_⟩
    all_goals rw [settled.2]
    · refine Route.sound_settle (sound.heard ends.1) sound.behind fun other still => .inr ?_
      obtain ⟨member, _, again⟩ :=
        (sound.owes other (Finset.mem_of_mem_erase still)).resolve_left (gone still)
      exact ⟨left still member, again⟩
    · rw [Route.upcoming_settle, Route.upcoming, Route.upcoming, ends.2,
        List.idxOf_append_of_notMem (gone still)]
      have := List.length_pos_iff.mpr ends.1
      have := nearer still group.passed
      simp only [List.nil_append]
      omega
  next stays =>
    have waits : group.ahead ≠ [] ↔ group.ahead.filter (· ≠ stream) ≠ [] :=
      ⟨fun some none => stays ⟨some, none⟩, fun some none => some (by rw [none]; rfl)⟩
    refine holds.kept isGroup (.stay _ holds.distinct (queued.trans waits)) ?_
      fun other _ still => .inl ⟨rfl, rfl, ?_⟩
    all_goals rw [Queue.groups_amend]
    · refine ⟨fun some => sound.heard (waits.mpr some), sound.behind, fun other still => ?_⟩
      exact (sound.owes other (Finset.mem_of_mem_erase still)).imp (left still) fun passed =>
        ⟨left still passed.1, waits.mp passed.2.1, passed.2.2⟩
    · rw [Route.upcoming, Route.upcoming, ← List.filter_append]
      exact (nearer still _).trans (Nat.le_add_right _ _)

theorem Holds.watch {index : Nat} (holds : Holds world)
    (performed : world.perform (.watch place index stream) = some after)
    : Kept world after 0 fun scope => if scope = place then 1 else 0 := by
  have sound := holds.sound place
  have queued := holds.queued place
  cases performed
  rw [← Function.update_eq_self place world.owed]
  unfold Queue.emplace
  dsimp only
  generalize isGroup : world.queue.groups place = group at *
  split
  next early =>
    refine holds.kept isGroup (.stay _ holds.distinct queued) ?_
      fun other owes _ => .inl ⟨rfl, rfl, ?_⟩
    all_goals rw [Queue.groups_amend]
    · refine ⟨sound.heard, sound.behind, fun other owes => ?_⟩
      exact (sound.owes other owes).imp_right fun passed => ⟨mem_insert index _ passed.1, passed.2⟩
    · have later := @idxOf_insert_le _ other _ stream (group.ahead ++ group.passed.take index)
        (group.passed.drop index)
      rw [List.append_assoc, List.append_assoc, List.take_append_drop] at later
      rw [if_pos rfl]
      exact later
  next late =>
    have waits := (not_or.mp late).1
    refine holds.kept isGroup (.stay _ holds.distinct (queued.trans (iff_of_true waits ?_))) ?_
      fun other owes _ => .inl ⟨rfl, rfl, ?_⟩
    · simp
    all_goals rw [Queue.groups_amend]
    · refine ⟨fun _ => sound.heard waits, sound.behind, fun other owes => ?_⟩
      exact (sound.owes other owes).imp (mem_insert _ _) fun passed =>
        ⟨passed.1, by simp, passed.2.2⟩
    · have later := @idxOf_insert_le _ other _ stream
        (group.ahead.take (index - group.passed.length))
        (group.ahead.drop (index - group.passed.length) ++ group.passed)
      rw [← List.append_assoc (List.take _ _) (List.drop _ _), List.take_append_drop] at later
      rw [if_pos rfl, Route.upcoming, List.append_assoc, List.cons_append]
      exact later

theorem Holds.perform {action : Action Stream} (holds : Holds world)
    (performed : world.perform action = some after)
    : Kept world after action.turn fun scope => action.adds scope := by
  cases action with
  | changed => exact holds.changed performed
  | take => exact holds.take performed
  | retire => exact holds.retire performed
  | watch => exact holds.watch performed

theorem Holds.reached {actions : List (Action Stream)}
    (reached : run World.perform {} actions = some world)
    : Holds world := by
  refine run_invariant (fun _ _ _ holds performed => (Holds.perform holds performed).holds)
    ⟨fun _ => ⟨fun some => absurd rfl some, le_refl _, ?_⟩, List.nodup_nil, fun _ => ?_⟩ reached
  · rintro _ ⟨⟩
  · exact iff_of_false List.not_mem_nil fun some => some rfl

/-- In every run a Scope is in the queue once, exactly while a traversal of it goes on, and no
announcement is lost: a stream that has not been handed out since the last one is in its group,
and its Scope waits.
-/
theorem announcement_law {actions : List (Action Stream)}
    (reached : run World.perform {} actions = some world)
    : world.queue.order.Nodup
      ∧ (∀ scope, scope ∈ world.queue.order ↔ (world.queue.groups scope).ahead ≠ [])
      ∧ (world.queue.take.1 = none ↔ world.queue.order = [])
      ∧ (∀ scope, ∀ stream ∈ world.owed scope,
        stream ∈ (world.queue.groups scope).upcoming ∧ scope ∈ world.queue.order) := by
  have holds := Holds.reached reached
  refine ⟨holds.distinct, holds.queued, ?_, fun scope stream owes =>
    ⟨(holds.sound scope).upcoming owes, holds.waits owes⟩⟩
  unfold Queue.take
  split
  next empty => exact iff_of_true rfl empty
  next head rest isOrder =>
    have waits := (holds.queued head).mp (by rw [isOrder]; exact List.mem_cons_self)
    dsimp only
    split
    · exact absurd ‹_› waits
    · exact iff_of_false (by rintro ⟨⟩) (by rw [isOrder]; rintro ⟨⟩)

/-- No Scope starves another: a stream with an announcement is handed out within `bound` takes
for every stream of its Scope, when `bound` Scopes wait at most, whatever is announced meanwhile.
-/
theorem turn_law {before actions : List (Action Stream)} {last : World Stream} {bound : Nat}
    (reached : run World.perform {} before = some world) (owes : stream ∈ world.owed scope)
    (few : world.queue.order.length ≤ bound) (ran : run World.perform world actions = some last)
    (waits : Along World.perform (fun state action => ∀ next, state.perform action = some next
      → stream ∈ next.owed scope ∧ next.queue.order.length ≤ bound) world actions)
    : (actions.map Action.turn).sum
      < bound * ((world.queue.groups scope).upcoming.length
        + (actions.map (·.adds scope)).sum) := by
  have holds := Holds.reached reached
  have member := List.idxOf_lt_length_iff.mpr (holds.waits owes)
  have near := Nat.mul_le_mul_left bound (Nat.succ_le_of_lt
    (List.idxOf_lt_length_iff.mpr ((holds.sound scope).upcoming owes)))
  suffices total : (actions.map Action.turn).sum
      ≤ world.queue.rank bound scope stream + bound * (actions.map (·.adds scope)).sum by
    rw [Queue.rank] at total
    rw [Nat.mul_succ] at near
    rw [Nat.mul_add]
    omega
  clear reached near member few
  induction actions generalizing world with
  | nil => exact Nat.zero_le _
  | cons action rest ih =>
      obtain ⟨next, performed, continued⟩ := Option.bind_eq_some_iff.mp ran
      have kept := holds.perform performed
      obtain ⟨still, few⟩ := waits.1 next performed
      have less := kept.rank scope stream bound owes still few
      have := ih still continued (waits.2 next performed) kept.holds
      rw [List.map_cons, List.map_cons, List.sum_cons, List.sum_cons, Nat.mul_add]
      omega

def joined : List (Action Nat) :=
  [.watch default 0 1, .watch default 1 2, .changed default 7 false]

theorem announcement_law_joined
    : ∃ world, run World.perform {} joined = some world
        ∧ ∀ stream ∈ world.owed default, default ∈ world.queue.order :=
  ⟨_, rfl, fun stream owes =>
    ((@announcement_law _ _ _ joined rfl).2.2.2 default stream owes).2⟩

/-- The second stream waits for the first one. -/
theorem turn_law_joined
    : ∃ world, run World.perform {} joined = some world
        ∧ (([.take] : List (Action Nat)).map Action.turn).sum
          < 1 * ((world.queue.groups default).upcoming.length
            + (([.take] : List (Action Nat)).map (·.adds default)).sum) :=
  ⟨_, rfl, @turn_law _ 2 default _ _ joined _ _ 1 rfl (by decide) (by decide) rfl
    ⟨fun next performed => by cases performed; decide, fun _ _ => trivial⟩⟩

end Astra.Rotation
