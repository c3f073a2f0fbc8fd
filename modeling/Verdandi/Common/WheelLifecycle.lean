import Verdandi.Common.Wheel

/-! Every node of a timing wheel fires at the tick that it was scheduled for. A bucket of a level has nodes
for which the clock has yet to come to the begin of that bucket; by then they have been distributed again.
-/

namespace Astra.Wheel

open Support

variable {Node Note : Type} [DecidableEq Node] {shape : Shape} {wheel : Wheel Node} {timers : Timers Node}

-- Levels and slots

/-- The tick at which the clock comes to the bucket of a level for a tick. -/
def Shape.base (shape : Shape) (level tick : Nat) : Nat :=
  tick / 2 ^ (level * shape.bits) * 2 ^ (level * shape.bits)

theorem Shape.base_le (shape : Shape) (level tick : Nat) : shape.base level tick ≤ tick :=
  Nat.div_mul_le_self _ _

theorem Shape.base_zero (shape : Shape) (tick : Nat) : shape.base 0 tick = tick := by
  simp [base]

theorem Shape.width (shape : Shape) : shape.levels * shape.bits ≤ 64 :=
  (Nat.le_div_iff_mul_le shape.some_bits).mp shape.whole

theorem Shape.limit_eq (shape : Shape) : shape.limit = 2 ^ (shape.levels * shape.bits) - 1 := by
  have width := shape.width
  have split : word = 2 ^ (64 - shape.levels * shape.bits) * 2 ^ (shape.levels * shape.bits) := by
    rw [word, ← Nat.pow_add]
    congr 1
    omega
  have positive : 0 < word := by decide
  rw [limit, Nat.shiftRight_eq_div_pow, split]
  rw [split] at positive
  simpa using Nat.mul_sub_div 0 _ _ positive

/-- The slot of a tick is the same for its word. -/
theorem slot_eq (shape : Shape) (tick : Nat) {level : Nat} (inside : level < shape.levels)
    : (tick % word) >>> (level * shape.bits) &&& shape.mask
      = tick / 2 ^ (level * shape.bits) % 2 ^ shape.bits := by
  have width := shape.width
  have room : (level + 1) * shape.bits ≤ 64 := (Nat.mul_le_mul_right _ inside).trans width
  rw [Nat.add_mul, Nat.one_mul] at room
  have split : word = 2 ^ (level * shape.bits) * 2 ^ (64 - level * shape.bits) := by
    rw [word, ← Nat.pow_add]
    congr 1
    omega
  rw [Shape.mask, Shape.slots, Nat.and_two_pow_sub_one_eq_mod, Nat.shiftRight_eq_div_pow, split,
    Nat.mod_mul_right_div_self]
  exact Nat.mod_mod_of_dvd _ (Nat.pow_dvd_pow 2 (by omega))

/-- The level for a remaining time is that of its highest bit. -/
theorem level_spec (shape : Shape) {remaining : Nat}
    (short : remaining < 2 ^ (shape.levels * shape.bits))
    : let level := Nat.log2 (remaining ||| 1) / shape.bits
      level < shape.levels ∧ (level ≠ 0 → 2 ^ (level * shape.bits) ≤ remaining)
        ∧ remaining < 2 ^ ((level + 1) * shape.bits) := by
  intro level
  have some_ : remaining ||| 1 ≠ 0 := by
    have odd : 1 ≤ remaining ||| 1 := Nat.right_le_or
    omega
  have positive : 0 < shape.levels * shape.bits := Nat.mul_pos shape.some_levels shape.some_bits
  have inside : remaining ||| 1 < 2 ^ (shape.levels * shape.bits) :=
    Nat.or_lt_two_pow short (Nat.one_lt_two_pow positive.ne')
  refine ⟨?_, fun high => ?_, ?_⟩
  · exact Nat.div_lt_of_lt_mul (by rwa [Nat.mul_comm, Nat.log2_lt some_])
  · obtain ⟨bit, isBit⟩ : ∃ bit, level * shape.bits = bit + 1 :=
      Nat.exists_eq_succ_of_ne_zero (Nat.mul_ne_zero high shape.some_bits.ne')
    have low : bit + 1 ≤ Nat.log2 (remaining ||| 1) := isBit ▸ Nat.div_mul_le_self _ _
    rw [Nat.le_log2 some_, Nat.pow_succ] at low
    have half : (remaining ||| 1) / 2 = remaining / 2 := by
      rw [Nat.or_div_two]
      simp
    rw [isBit, Nat.pow_succ]
    omega
  · have below : Nat.log2 (remaining ||| 1) < (level + 1) * shape.bits := by
      rw [Nat.mul_comm]
      exact Nat.lt_mul_div_succ _ shape.some_bits
    rw [Nat.log2_lt some_] at below
    exact Nat.left_le_or.trans_lt below

/-- The clock has yet to come to the bucket of a tick, and it is the next time that it comes to that slot.
-/
structure Sits (shape : Shape) (now tick level slot : Nat) : Prop where
  inside : level < shape.levels
  isSlot : slot = tick / 2 ^ (level * shape.bits) % 2 ^ shape.bits
  begins : now ≤ shape.base level tick
  ends : shape.base level tick < now + 2 ^ ((level + 1) * shape.bits)

variable {now : Nat}

/-- A tick within the range of a wheel has its bucket; it is due at once or lies ahead with its bucket. -/
theorem sits_level (shape : Shape) {tick : Nat} (reached : now ≤ tick)
    (short : tick - now ≤ shape.limit)
    : let level := Nat.log2 ((tick - now) ||| 1) / shape.bits
      Sits shape now tick level ((tick % word) >>> (level * shape.bits) &&& shape.mask)
        ∧ (now < tick → now < shape.base level tick) ∧ (now = tick → level = 0) := by
  intro level
  have positive : 0 < 2 ^ (shape.levels * shape.bits) := Nat.two_pow_pos _
  rw [shape.limit_eq] at short
  obtain ⟨inside, low, high⟩ : level < shape.levels
      ∧ (level ≠ 0 → 2 ^ (level * shape.bits) ≤ tick - now)
      ∧ tick - now < 2 ^ ((level + 1) * shape.bits) :=
    level_spec shape (by omega)
  have below := shape.base_le level tick
  have above : tick < shape.base level tick + 2 ^ (level * shape.bits) :=
    Nat.lt_div_mul_add (Nat.two_pow_pos _)
  have ahead : now < tick → now < shape.base level tick := by
    intro later
    by_cases lowest : level = 0
    · rw [lowest, shape.base_zero]
      exact later
    · have := low lowest
      omega
  refine ⟨⟨inside, slot_eq shape tick inside, ?_, ?_⟩, ahead, ?_⟩
  · rcases Nat.eq_or_lt_of_le reached with same | later
    · have lowest : level = 0 := by
        by_contra higher
        have := low higher
        have := Nat.two_pow_pos (level * shape.bits)
        omega
      rw [lowest, shape.base_zero]
      exact reached
    · exact (ahead later).le
  · omega
  · intro same
    by_contra higher
    have := low higher
    have := Nat.two_pow_pos (level * shape.bits)
    omega

/-- The bucket of the lowest level that the clock has come to is that of the nodes that are due. -/
theorem Sits.due {tick : Nat} (sits : Sits shape now tick 0 (now % 2 ^ shape.bits))
    : tick = now := by
  have isSlot := sits.isSlot
  have begins := sits.begins
  have ends := sits.ends
  rw [shape.base_zero] at begins ends
  rw [Nat.zero_add, Nat.one_mul] at ends
  rw [Nat.zero_mul, Nat.pow_zero, Nat.div_one] at isSlot
  have apart : tick - now < 2 ^ shape.bits := by omega
  have same : (tick - now) % 2 ^ shape.bits = 0 := Nat.sub_mod_eq_zero_of_mod_eq isSlot.symm
  rw [Nat.mod_eq_of_lt apart] at same
  omega

/-- A clock of which a power of two is a divisor ends in that many zeros. -/
theorem le_countrZero {value count : Nat} (small : count ≤ 64) (divides : 2 ^ count ∣ value)
    : count ≤ countrZero value := by
  rw [countrZero]
  cases isFound : (List.range 64).find? fun bit => value.testBit bit with
  | none => exact small
  | some bit =>
      rw [Option.getD_some]
      by_contra below
      have isSet := List.find?_some isFound
      obtain ⟨factor, rfl⟩ := divides
      rw [Nat.testBit_two_pow_mul] at isSet
      simp only [Bool.and_eq_true, decide_eq_true_eq] at isSet
      omega

-- Buckets

/-- Every node that is set is aside or in one bucket, to whose begin the clock comes not before the floor of
its level.
-/
structure Lies (shape : Shape) (wheel : Wheel Node) (timers : Timers Node) (floor : Nat → Nat)
    (aside : List Node) : Prop where
  clock : wheel.clock = timers.now % word
  deadline : ∀ node tick, timers.due node = some tick → wheel.deadline node = tick % word
  range : ∀ node tick, timers.due node = some tick
    → timers.now ≤ tick ∧ tick - timers.now ≤ shape.limit
  sits : ∀ level slot, ∀ node ∈ wheel.wheels level slot, ∃ tick, timers.due node = some tick
    ∧ Sits shape timers.now tick level slot ∧ floor level ≤ shape.base level tick
  placed : ∀ node tick, timers.due node = some tick
    → node ∈ aside ∨ ∃ level slot, node ∈ wheel.wheels level slot
  known : ∀ node ∈ aside, (timers.due node).isSome = true
  apart : ∀ node ∈ aside, ∀ level slot, node ∉ wheel.wheels level slot
  alone : ∀ node level slot level' slot', node ∈ wheel.wheels level slot
    → node ∈ wheel.wheels level' slot' → level = level' ∧ slot = slot'
  single : ∀ level slot, (wheel.wheels level slot).Nodup
  distinct : aside.Nodup

structure Keeps (shape : Shape) (wheel : Wheel Node) (timers : Timers Node) : Prop where
  lies : Lies shape wheel timers (fun _ => timers.now + 1) wheel.ready
  due : ∀ node ∈ wheel.ready, timers.due node = some timers.now

section Buckets

variable {floor : Nat → Nat} {aside : List Node} {node : Node} {tick delay : Nat}

omit [DecidableEq Node] in
@[simp] theorem wheels_put (wheel : Wheel Node) (level slot : Nat) (bucket : List Node)
    (level' slot' : Nat)
    : (wheel.put level slot bucket).wheels level' slot'
      = if level' = level ∧ slot' = slot then bucket else wheel.wheels level' slot' := by
  rw [put]
  dsimp only
  by_cases isLevel : level' = level
  · subst isLevel
    rw [Function.update_self, Function.update_apply]
    simp
  · rw [Function.update_of_ne isLevel, if_neg (fun same => isLevel same.1)]

theorem mem_cancel (lies : Lies shape wheel timers floor aside) (level slot : Nat) (other : Node)
    : other ∈ (wheel.cancel node).wheels level slot ↔ other ≠ node ∧ other ∈ wheel.wheels level slot :=
  (lies.single level slot).mem_erase_iff

/-- A node that is cancelled is nowhere. -/
theorem Lies.cancel (lies : Lies shape wheel timers floor aside) (node : Node)
    : Lies shape (wheel.cancel node) (timers.step (.drop node : Happening Node Note)) floor (aside.erase node) where
  clock := lies.clock
  deadline other tick isSet := by
    rw [Timers.due_drop] at isSet
    split at isSet
    · cases isSet
    · exact lies.deadline other tick isSet
  range other tick isSet := by
    rw [Timers.due_drop] at isSet
    split at isSet
    · cases isSet
    · exact lies.range other tick isSet
  sits level slot other listed := by
    obtain ⟨different, before⟩ := (mem_cancel lies level slot other).mp listed
    rw [Timers.due_drop, if_neg different]
    exact lies.sits level slot other before
  placed other tick isSet := by
    rw [Timers.due_drop] at isSet
    split at isSet
    · cases isSet
    rename_i different
    rcases lies.placed other tick isSet with isAside | ⟨level, slot, listed⟩
    · exact .inl (lies.distinct.mem_erase_iff.mpr ⟨different, isAside⟩)
    · exact .inr ⟨level, slot, (mem_cancel lies level slot other).mpr ⟨different, listed⟩⟩
  known other listed := by
    obtain ⟨different, before⟩ := lies.distinct.mem_erase_iff.mp listed
    rw [Timers.due_drop, if_neg different]
    exact lies.known other before
  apart other listed level slot isListed :=
    lies.apart other (List.mem_of_mem_erase listed) level slot (List.mem_of_mem_erase isListed)
  alone other level slot level' slot' first second :=
    lies.alone other level slot level' slot' (List.mem_of_mem_erase first) (List.mem_of_mem_erase second)
  single level slot := (lies.single level slot).erase node
  distinct := lies.distinct.erase node

omit [DecidableEq Node] in
/-- A node that is aside is put into the bucket for its deadline, if the floor allows it. -/
theorem Lies.insert (lies : Lies shape wheel timers floor (node :: aside))
    (isSet : timers.due node = some tick)
    (allowed : let level := Nat.log2 ((tick - timers.now) ||| 1) / shape.bits
      floor level ≤ shape.base level tick)
    : Lies shape (wheel.insert shape node) timers floor aside := by
  obtain ⟨reached, short⟩ := lies.range node tick isSet
  have isRemaining : (wheel.deadline node + word - wheel.clock) % word = tick - timers.now := by
    rw [lies.deadline node tick isSet, lies.clock]
    have limit : shape.limit ≤ word - 1 := Nat.shiftRight_le _ _
    simp only [word] at *
    omega
  obtain ⟨sits, -, -⟩ := sits_level shape reached short
  rw [← lies.deadline node tick isSet] at sits
  rw [Wheel.insert, isRemaining]
  dsimp only at allowed ⊢
  generalize Nat.log2 ((tick - timers.now) ||| 1) / shape.bits = level at sits allowed ⊢
  generalize wheel.deadline node >>> (level * shape.bits) &&& shape.mask = slot at sits ⊢
  have absent := lies.apart node List.mem_cons_self
  have members (level' slot' : Nat) (other : Node)
      : other ∈ (wheel.put level slot (node :: wheel.wheels level slot)).wheels level' slot'
        ↔ (other = node ∧ level' = level ∧ slot' = slot) ∨ other ∈ wheel.wheels level' slot' := by
    rw [wheels_put]
    split
    next same =>
      rw [same.1, same.2, List.mem_cons]
      simp
    next different => simp [different]
  refine ⟨lies.clock, lies.deadline, lies.range, ?_, ?_, ?_, ?_, ?_, ?_, (List.nodup_cons.mp lies.distinct).2⟩
  · intro level' slot' other listed
    rcases (members level' slot' other).mp listed with ⟨rfl, rfl, rfl⟩ | before
    · exact ⟨tick, isSet, sits, allowed⟩
    · exact lies.sits level' slot' other before
  · intro other tick' isSet'
    rcases lies.placed other tick' isSet' with isAside | ⟨level', slot', listed⟩
    · rcases List.mem_cons.mp isAside with rfl | later
      · exact .inr ⟨level, slot, (members _ _ _).mpr (.inl ⟨rfl, rfl, rfl⟩)⟩
      · exact .inl later
    · exact .inr ⟨level', slot', (members _ _ _).mpr (.inr listed)⟩
  · intro other listed
    exact lies.known other (List.mem_cons_of_mem _ listed)
  · intro other listed level' slot' isListed
    rcases (members level' slot' other).mp isListed with ⟨rfl, -, -⟩ | before
    · exact (List.nodup_cons.mp lies.distinct).1 listed
    · exact lies.apart other (List.mem_cons_of_mem _ listed) level' slot' before
  · intro other first firstSlot second secondSlot isFirst isSecond
    rcases (members _ _ other).mp isFirst with ⟨rfl, rfl, rfl⟩ | before
    · rcases (members _ _ _).mp isSecond with ⟨-, rfl, rfl⟩ | listed
      · exact ⟨rfl, rfl⟩
      · exact (absent _ _ listed).elim
    · rcases (members _ _ other).mp isSecond with ⟨rfl, -, -⟩ | listed
      · exact (absent _ _ before).elim
      · exact lies.alone other _ _ _ _ before listed
  · intro level' slot'
    rw [wheels_put]
    split
    · exact List.nodup_cons.mpr ⟨absent level slot, lies.single level slot⟩
    · exact lies.single level' slot'

/-- A node that is nowhere is aside once it has a deadline. -/
theorem Lies.set (lies : Lies shape wheel timers floor aside) (unset : timers.due node = none)
    (short : delay ≤ shape.limit) (note : Note)
    : Lies shape
        { wheel with deadline :=
            Function.update wheel.deadline node ((wheel.clock + max delay 1) % word) }
        (timers.step (.set node delay note)) floor (node :: aside) := by
  have some_ : 1 ≤ shape.limit := by
    have positive : 0 < shape.levels * shape.bits := Nat.mul_pos shape.some_levels shape.some_bits
    have two := Nat.one_lt_two_pow positive.ne'
    rw [shape.limit_eq]
    omega
  have absent (level slot : Nat) : node ∉ wheel.wheels level slot := by
    intro listed
    obtain ⟨tick, isSet, -⟩ := lies.sits level slot node listed
    rw [unset] at isSet
    cases isSet
  have outside : node ∉ aside := by
    intro listed
    have known := lies.known node listed
    rw [unset] at known
    cases known
  refine ⟨lies.clock, ?_, ?_, ?_, ?_, ?_, ?_, lies.alone, lies.single,
    List.nodup_cons.mpr ⟨outside, lies.distinct⟩⟩
  · intro other tick isSet
    rw [Timers.due_set] at isSet
    dsimp only
    split at isSet
    next same =>
      cases isSet
      rw [same, Function.update_self, lies.clock, Nat.mod_add_mod]
    rename_i different
    rw [Function.update_of_ne different]
    exact lies.deadline other tick isSet
  · intro other tick isSet
    rw [Timers.due_set] at isSet
    split at isSet
    · cases isSet
      simp only [Timers.step]
      omega
    · exact lies.range other tick isSet
  · intro level slot other listed
    have different : other ≠ node := by
      rintro rfl
      exact absent level slot listed
    rw [Timers.due_set, if_neg different]
    exact lies.sits level slot other listed
  · intro other tick isSet
    rw [Timers.due_set] at isSet
    split at isSet
    next same => exact .inl (same ▸ List.mem_cons_self)
    · rcases lies.placed other tick isSet with isAside | listed
      · exact .inl (List.mem_cons_of_mem _ isAside)
      · exact .inr listed
  · intro other listed
    rw [Timers.due_set]
    split
    · rfl
    rename_i different
    exact lies.known other ((List.mem_cons.mp listed).resolve_left different)
  · intro other listed level slot
    rcases List.mem_cons.mp listed with rfl | before
    · exact absent level slot
    · exact lies.apart other before level slot

theorem Keeps.cancel (keeps : Keeps shape wheel timers) (node : Node)
    : Keeps shape (wheel.cancel node) (timers.step (.drop node : Happening Node Note)) where
  lies := keeps.lies.cancel node
  due other listed := by
    obtain ⟨different, before⟩ := keeps.lies.distinct.mem_erase_iff.mp listed
    rw [Timers.due_drop, if_neg different]
    exact keeps.due other before

/-- A node is scheduled for the tick that is asked for, unless that is too far away. -/
theorem Keeps.schedule (keeps : Keeps shape wheel timers) (short : delay ≤ shape.limit) (node : Node)
    (note : Note)
    : ∃ next, wheel.schedule shape node delay = (true, next)
      ∧ Keeps shape next (timers.step (.set node delay note)) := by
  have idle : Keeps shape (wheel.cancel node) (timers.step (.drop node : Happening Node Note)) :=
    keeps.cancel node
  have isSet := idle.lies.set (by rw [Timers.due_drop, if_pos rfl]) short note
  have again : (timers.step (.drop node : Happening Node Note)).step (.set node delay note) = timers.step (.set node delay note) := by
    simp [Timers.step]
  rw [again] at isSet
  have isDue : (timers.step (.set node delay note)).due node = some (timers.now + max delay 1) := by
    rw [Timers.due_set, if_pos rfl]
  rw [Wheel.schedule, if_neg (by omega)]
  refine ⟨_, rfl, isSet.insert isDue ?_, ?_⟩
  · obtain ⟨reached, near⟩ := isSet.range node _ isDue
    obtain ⟨-, ahead, -⟩ := sits_level shape reached near
    exact ahead (Nat.lt_add_of_pos_right (by omega))
  · intro other listed
    have isIdle := idle.due other listed
    rw [Timers.due_drop] at isIdle
    rw [Timers.due_set]
    split at isIdle
    · cases isIdle
    rename_i different
    rw [if_neg different]
    exact isIdle

omit [DecidableEq Node] in
/-- Nodes that are aside are put into their buckets. A node that is due is on the lowest level. -/
theorem Lies.inserts {bucket : List Node} (lies : Lies shape wheel timers floor bucket)
    (lowest : floor 0 ≤ timers.now) (low : ∀ level, floor level ≤ timers.now + 1)
    : Lies shape (bucket.foldl (Wheel.insert shape) wheel) timers floor [] := by
  induction bucket generalizing wheel with
  | nil => exact lies
  | cons node rest ih =>
      obtain ⟨tick, isSet⟩ := Option.isSome_iff_exists.mp (lies.known node List.mem_cons_self)
      obtain ⟨reached, short⟩ := lies.range node tick isSet
      obtain ⟨-, ahead, due⟩ := sits_level shape reached short
      refine ih (lies.insert isSet ?_)
      rcases Nat.eq_or_lt_of_le reached with same | later
      · dsimp only
        rw [due same, shape.base_zero]
        omega
      · exact (low _).trans (ahead later)

omit [DecidableEq Node] in
/-- Distributing a bucket leaves nothing on its level for which the clock is there. -/
theorem Lies.spill {level : Nat}
    (lies : Lies shape wheel timers (fun other => if level + 1 < other then timers.now + 1 else timers.now) [])
    : Lies shape (wheel.spill shape (level + 1)) timers
        (fun other => if level < other then timers.now + 1 else timers.now) [] := by
  rw [Wheel.spill]
  generalize isSlot : wheel.clock >>> ((level + 1) * shape.bits) &&& shape.mask = slot
  have members (level' slot' : Nat) (other : Node)
      : other ∈ (wheel.put (level + 1) slot []).wheels level' slot'
        ↔ other ∈ wheel.wheels level' slot' ∧ ¬(level' = level + 1 ∧ slot' = slot) := by
    rw [wheels_put]
    split
    next same => simp [same]
    next different => simp [different]
  refine Lies.inserts ⟨lies.clock, lies.deadline, lies.range, ?_, ?_, ?_, ?_, ?_, ?_, lies.single _ _⟩
    (by simp) (fun other => by split <;> omega)
  · intro level' slot' other listed
    obtain ⟨before, different⟩ := (members level' slot' other).mp listed
    obtain ⟨tick, isSet, sits, above⟩ := lies.sits level' slot' other before
    refine ⟨tick, isSet, sits, ?_⟩
    by_cases here : level' = level + 1
    · have away : shape.base level' tick ≠ timers.now := by
        intro same
        apply different
        refine ⟨here, ?_⟩
        rw [← isSlot, lies.clock, slot_eq shape timers.now (here ▸ sits.inside), sits.isSlot, ← here,
          ← same, Shape.base, Nat.mul_div_cancel _ (Nat.two_pow_pos _)]
      have begins := sits.begins
      rw [if_pos (by omega)]
      omega
    · split at above
      · rwa [if_pos (by omega)]
      · rwa [if_neg (by omega)]
  · intro other tick isSet
    rcases lies.placed other tick isSet with isAside | ⟨level', slot', listed⟩
    · cases isAside
    · by_cases here : level' = level + 1 ∧ slot' = slot
      · exact .inl (here.1 ▸ here.2 ▸ listed)
      · exact .inr ⟨level', slot', (members _ _ _).mpr ⟨listed, here⟩⟩
  · intro other listed
    obtain ⟨tick, isSet, -⟩ := lies.sits _ _ other listed
    rw [isSet]
    rfl
  · intro other listed level' slot' isListed
    obtain ⟨before, different⟩ := (members level' slot' other).mp isListed
    exact different (lies.alone other _ _ _ _ before listed)
  · intro other first firstSlot second secondSlot isFirst isSecond
    exact lies.alone other _ _ _ _ ((members _ _ _).mp isFirst).1 ((members _ _ _).mp isSecond).1
  · intro level' slot'
    rw [wheels_put]
    split
    · exact List.nodup_nil
    · exact lies.single level' slot'

omit [DecidableEq Node] in
/-- Distribution comes down to the second level. Witness: induction over the levels. -/
theorem Lies.cascade {level : Nat}
    (lies : Lies shape wheel timers (fun other => if level < other then timers.now + 1 else timers.now) [])
    : Lies shape (wheel.cascade shape level) timers
        (fun other => if 0 < other then timers.now + 1 else timers.now) [] := by
  induction level generalizing wheel with
  | zero => exact lies
  | succ level ih => exact ih lies.spill

omit [DecidableEq Node] in
/-- When nothing is ready, all nodes that are set are due later. -/
theorem Keeps.later (keeps : Keeps shape wheel timers) (empty : wheel.ready = [])
    (isSet : timers.due node = some tick)
    : timers.now < tick := by
  rcases keeps.lies.placed node tick isSet with isReady | ⟨level, slot, listed⟩
  · rw [empty] at isReady
    cases isReady
  · obtain ⟨_, same, -, above⟩ := keeps.lies.sits level slot node listed
    cases isSet.symm.trans same
    exact (Nat.lt_of_succ_le above).trans_le (shape.base_le level tick)

/-- The clock goes on by one if nothing is ready, and what is due then is ready. -/
theorem Keeps.turn (keeps : Keeps shape wheel timers) (empty : wheel.ready = [])
    : Keeps shape (wheel.turn shape) (timers.step (.tick : Happening Node Note)) := by
  have lies := keeps.lies
  rw [empty] at lies
  have isClock : (wheel.clock + 1) % word = (timers.now + 1) % word := by
    rw [lies.clock, Nat.mod_add_mod]
  have begun : Lies shape { wheel with clock := (wheel.clock + 1) % word } (timers.step (.tick : Happening Node Note))
      (fun level =>
        if min (shape.levels - 1) (countrZero ((wheel.clock + 1) % word) / shape.bits) < level then
          timers.now + 1 + 1
        else
          timers.now + 1) [] := by
    refine ⟨isClock, lies.deadline, fun node tick isSet => ?_, ?_, lies.placed, nofun, nofun, lies.alone,
      lies.single, lies.distinct⟩
    · have := keeps.later empty isSet
      have range := lies.range node tick isSet
      simp only [Timers.step]
      omega
    · intro level slot node listed
      obtain ⟨tick, isSet, sits, above⟩ := lies.sits level slot node listed
      refine ⟨tick, isSet, ⟨sits.inside, sits.isSlot, above, sits.ends.trans (by simp [Timers.step])⟩, ?_⟩
      split
      next high =>
        -- The clock has not come to the begin of any bucket of the levels above.
        rw [isClock] at high
        have inside := sits.inside
        have width : level * shape.bits ≤ 64 :=
          (Nat.mul_le_mul_right _ inside.le).trans shape.width
        refine Nat.succ_le_of_lt (Nat.lt_of_le_of_ne above fun same => ?_)
        have divides : 2 ^ (level * shape.bits) ∣ (timers.now + 1) % word := by
          rw [Nat.dvd_mod_iff (show 2 ^ (level * shape.bits) ∣ word from Nat.pow_dvd_pow 2 width), same]
          exact Nat.dvd_mul_left _ _
        have zeros := le_countrZero width divides
        rw [← Nat.le_div_iff_mul_le shape.some_bits] at zeros
        omega
      · exact above
  have spread := begun.cascade
  rw [Wheel.turn]
  dsimp only
  generalize Wheel.cascade shape _ _ = low at spread ⊢
  have isSlot : low.clock &&& shape.mask = (timers.now + 1) % 2 ^ shape.bits := by
    have slot := @slot_eq shape (timers.now + 1) 0 shape.some_levels
    simp only [Nat.zero_mul, Nat.shiftRight_zero, Nat.pow_zero, Nat.div_one] at slot
    rw [spread.clock]
    exact slot
  rw [isSlot]
  have dueNow (node : Node) : node ∈ low.wheels 0 ((timers.now + 1) % 2 ^ shape.bits)
      → timers.due node = some (timers.now + 1) := by
    intro listed
    obtain ⟨tick, isSet, sits, -⟩ := spread.sits 0 _ node listed
    rw [sits.due] at isSet
    exact isSet
  have members (level slot : Nat) (node : Node)
      : node ∈ (low.put 0 ((timers.now + 1) % 2 ^ shape.bits) []).wheels level slot
        ↔ node ∈ low.wheels level slot ∧ ¬(level = 0 ∧ slot = (timers.now + 1) % 2 ^ shape.bits) := by
    rw [wheels_put]
    split
    next same => simp [same]
    next different => simp [different]
  refine ⟨⟨spread.clock, spread.deadline, spread.range, ?_, ?_, ?_, ?_, ?_, ?_, spread.single _ _⟩, dueNow⟩
  · intro level slot node listed
    obtain ⟨before, different⟩ := (members level slot node).mp listed
    obtain ⟨tick, isSet, sits, above⟩ := spread.sits level slot node before
    refine ⟨tick, isSet, sits, ?_⟩
    split at above
    · exact above
    rename_i lowest
    have isZero : level = 0 := by omega
    subst isZero
    refine Nat.succ_le_of_lt (Nat.lt_of_le_of_ne sits.begins fun same => different ⟨rfl, ?_⟩)
    rw [sits.isSlot, Nat.zero_mul, Nat.pow_zero, Nat.div_one]
    rw [shape.base_zero] at same
    rw [← same]
    rfl
  · intro node tick isSet
    rcases spread.placed node tick isSet with isAside | ⟨level, slot, listed⟩
    · cases isAside
    · by_cases here : level = 0 ∧ slot = (timers.now + 1) % 2 ^ shape.bits
      · exact .inl (here.1 ▸ here.2 ▸ listed)
      · exact .inr ⟨level, slot, (members _ _ _).mpr ⟨listed, here⟩⟩
  · intro node listed
    have isDue := dueNow node listed
    exact Option.isSome_of_eq_some isDue
  · intro node listed level slot isListed
    obtain ⟨before, different⟩ := (members level slot node).mp isListed
    exact different (spread.alone node _ _ _ _ before listed)
  · intro node first firstSlot second secondSlot isFirst isSecond
    exact spread.alone node _ _ _ _ ((members _ _ _).mp isFirst).1 ((members _ _ _).mp isSecond).1
  · intro level slot
    change ((low.put 0 ((timers.now + 1) % 2 ^ shape.bits) []).wheels level slot).Nodup
    rw [wheels_put]
    split
    · exact List.nodup_nil
    · exact spread.single level slot

end Buckets

-- Runs

structure Use.Sound {World : Type} (shape : Shape) (start : Nat) (use : Use World Node Note) : Prop where
  keeps : Keeps shape use.wheel (Timers.run { now := start } use.history)
  lawful : Timers.Lawful { now := start } use.history

section Runs

variable {World : Type} {start : Nat} {use : Use World Node Note} {callback : Callback World Node Note}

theorem run_snoc (timers : Timers Node) (history : List (Happening Node Note)) (happening : Happening Node Note)
    : timers.run (history ++ [happening]) = (timers.run history).step happening :=
  Timers.run_append timers history [happening]

/-- What is set and dropped is always allowed. -/
theorem Use.Sound.perform (sound : use.Sound shape start) (command : Command Node Note)
    : (use.perform shape command).Sound shape start := by
  cases command with
  | cancel node =>
      refine ⟨?_, sound.lawful.snoc trivial⟩
      rw [Use.perform, run_snoc]
      exact sound.keeps.cancel node
  | schedule node delay note =>
      rw [Use.perform]
      by_cases short : delay ≤ shape.limit
      · obtain ⟨next, isNext, keeps⟩ := sound.keeps.schedule short node note
        rw [isNext]
        refine ⟨?_, sound.lawful.snoc trivial⟩
        dsimp only
        rw [run_snoc]
        exact keeps
      · rw [schedule, if_pos (by omega)]
        exact sound

theorem ready_perform (use : Use World Node Note) (command : Command Node Note)
    : (use.perform shape command).wheel.ready.length ≤ use.wheel.ready.length := by
  cases command with
  | cancel node => exact List.length_erase_le
  | schedule node delay note =>
      rw [Use.perform, schedule]
      by_cases far : delay > shape.limit
      · rw [if_pos far]
      · rw [if_neg far]
        exact List.length_erase_le

theorem Use.Sound.performs (sound : use.Sound shape start) (commands : List (Command Node Note))
    : (commands.foldl (Use.perform shape) use).Sound shape start := by
  induction commands generalizing use with
  | nil => exact sound
  | cons command rest ih => exact ih (sound.perform command)

theorem ready_performs (use : Use World Node Note) (commands : List (Command Node Note))
    : (commands.foldl (Use.perform shape) use).wheel.ready.length ≤ use.wheel.ready.length := by
  induction commands generalizing use with
  | nil => exact le_rfl
  | cons command rest ih => exact (ih _).trans (ready_perform use command)

/-- A node that is taken from the ready ones is due, and nowhere any more. -/
theorem Keeps.pop {node : Node} {rest : List Node} (keeps : Keeps shape wheel timers)
    (isReady : wheel.ready = node :: rest)
    : timers.due node = some timers.now
      ∧ Keeps shape { wheel with ready := rest } (timers.step (.fire node : Happening Node Note)) := by
  have idle : Keeps shape (wheel.cancel node) (timers.step (.drop node : Happening Node Note)) :=
    keeps.cancel node
  have isDue := keeps.due node (by rw [isReady]; exact List.mem_cons_self)
  have isRest : (wheel.cancel node).ready = rest := by
    rw [Wheel.cancel, isReady, List.erase_cons_head]
  have away : (wheel.cancel node).wheels = wheel.wheels := by
    funext level slot
    refine List.erase_of_not_mem (keeps.lies.apart node ?_ level slot)
    rw [isReady]
    exact List.mem_cons_self
  refine ⟨isDue, ?_⟩
  have same : ({ wheel with ready := rest } : Wheel Node) = wheel.cancel node := by
    rw [← isRest, ← away]
    rfl
  rw [same]
  exact idle

theorem Use.Sound.fire {node : Node} {rest : List Node} (sound : use.Sound shape start)
    (isReady : use.wheel.ready = node :: rest)
    : (use.fire shape callback node rest).Sound shape start
      ∧ (use.fire shape callback node rest).wheel.ready.length ≤ rest.length := by
  obtain ⟨isDue, popped⟩ := sound.keeps.pop isReady
  rw [Use.fire]
  generalize callback use.world _ node = reply
  obtain ⟨world, commands, thrown⟩ := reply
  have begun : Use.Sound shape start
      { world, wheel := { use.wheel with ready := rest }, history := use.history ++ [.fire node] } := by
    refine ⟨?_, sound.lawful.snoc isDue⟩
    dsimp only
    rw [run_snoc]
    exact popped
  have after := begun.performs commands
  exact ⟨⟨after.keeps, after.lawful⟩, ready_performs _ commands⟩

/-- Draining ends with nothing ready, unless a callback throws. Witness: induction over the rounds. -/
theorem Use.Sound.drain {rounds : Nat} (sound : use.Sound shape start)
    (enough : use.wheel.ready.length ≤ rounds)
    : (use.drain shape callback rounds).Sound shape start
      ∧ ((use.drain shape callback rounds).thrown = false
        → (use.drain shape callback rounds).wheel.ready = []) := by
  induction rounds generalizing use with
  | zero => exact ⟨sound, fun _ => List.length_eq_zero_iff.mp (Nat.le_zero.mp enough)⟩
  | succ rounds ih =>
      rw [Use.drain]
      split
      next isReady => exact ⟨sound, fun _ => isReady⟩
      rename_i node rest isReady
      obtain ⟨after, shorter⟩ := @Use.Sound.fire _ _ _ _ _ _ _ callback _ _ sound isReady
      dsimp only
      split
      next isThrown =>
        refine ⟨after, fun quiet => ?_⟩
        rw [quiet] at isThrown
        cases isThrown
      · rw [isReady] at enough
        exact ih after (shorter.trans (Nat.le_of_succ_le_succ enough))

/-- Time goes on when nothing is ready. -/
theorem Use.Sound.turn (sound : use.Sound shape start) (empty : use.wheel.ready = [])
    : Use.Sound shape start
        { use with wheel := use.wheel.turn shape, history := use.history ++ [.tick] } := by
  refine ⟨?_, sound.lawful.snoc fun node tick isSet => sound.keeps.later empty isSet⟩
  dsimp only
  rw [run_snoc]
  exact sound.keeps.turn empty

/-- A tick that does not throw leaves nothing that is due. -/
theorem Use.Sound.tick (sound : use.Sound shape start)
    : (use.tick shape callback).Sound shape start
      ∧ ((use.tick shape callback).thrown = false → (use.tick shape callback).wheel.ready = []) := by
  have quiet : Use.Sound shape start { use with thrown := false } := ⟨sound.keeps, sound.lawful⟩
  obtain ⟨drained, empties⟩ := @Use.Sound.drain _ _ _ _ _ _ _ callback _ quiet le_rfl
  rw [Use.tick]
  dsimp only at drained empties ⊢
  generalize Use.drain shape callback use.wheel.ready.length _ = first at drained empties ⊢
  split
  next isThrown =>
    refine ⟨drained, fun calm => ?_⟩
    rw [calm] at isThrown
    cases isThrown
  rename_i calm
  have empty := empties (by simpa using calm)
  exact Use.Sound.drain (drained.turn empty) le_rfl

/-- What callbacks keep holds after draining. Witness: induction over the rounds. -/
theorem Use.Sound.drain_keeps {Holds : Use World Node Note → Prop} {rounds : Nat}
    (sound : use.Sound shape start) (holds : Holds use)
    (fires : ∀ before node rest, Use.Sound shape start before → Holds before
      → before.wheel.ready = node :: rest → Holds (before.fire shape callback node rest))
    : Holds (use.drain shape callback rounds) := by
  induction rounds generalizing use with
  | zero => exact holds
  | succ rounds ih =>
      rw [Use.drain]
      split
      · exact holds
      rename_i node rest isReady
      have after := fires use node rest sound holds isReady
      dsimp only
      split
      · exact after
      · exact ih (@Use.Sound.fire _ _ _ _ _ _ _ callback _ _ sound isReady).1 after

/-- What callbacks keep before the clock goes on, and after it, holds after a tick. -/
theorem Use.Sound.tick_keeps {Before After : Use World Node Note → Prop} (sound : use.Sound shape start)
    (holds : Before { use with thrown := false })
    (firesBefore : ∀ before node rest, Use.Sound shape start before → Before before
      → before.wheel.ready = node :: rest → Before (before.fire shape callback node rest))
    (turns : ∀ before, Use.Sound shape start before → Before before → before.thrown = false
      → before.wheel.ready = []
      → After { before with wheel := before.wheel.turn shape, history := before.history ++ [.tick] })
    (firesAfter : ∀ before node rest, Use.Sound shape start before → After before
      → before.wheel.ready = node :: rest → After (before.fire shape callback node rest))
    : ((use.tick shape callback).thrown = true ∧ Before (use.tick shape callback))
      ∨ After (use.tick shape callback) := by
  have quiet : Use.Sound shape start { use with thrown := false } := ⟨sound.keeps, sound.lawful⟩
  have drained := @Use.Sound.drain _ _ _ _ _ _ _ callback _ quiet le_rfl
  have first := @Use.Sound.drain_keeps _ _ _ _ _ _ _ callback Before use.wheel.ready.length quiet holds
    firesBefore
  rw [Use.tick]
  dsimp only at drained first ⊢
  generalize Use.drain shape callback use.wheel.ready.length _ = middle at drained first ⊢
  split
  next isThrown => exact .inl ⟨isThrown, first⟩
  rename_i calm
  have isCalm : middle.thrown = false := by simpa using calm
  have empty := drained.2 isCalm
  exact .inr ((drained.1.turn empty).drain_keeps (turns middle drained.1 first isCalm empty) firesAfter)

/-- Every run of a wheel is lawful. Witness: induction over what is done with it. -/
theorem Use.sound_run (start : Nat) (world : World) (actions : List (Action World Node Note))
    : (Use.run shape { world, wheel := { clock := start % word } } actions).Sound shape start := by
  induction actions using List.reverseRecOn with
  | nil =>
      refine ⟨⟨?_, nofun⟩, Timers.lawful_nil _⟩
      exact ⟨rfl, nofun, nofun, nofun, nofun, nofun, nofun, nofun, fun _ _ => .nil, .nil⟩
  | append_singleton before action ih =>
      rw [Use.run, List.foldl_append]
      cases action with
      | command command =>
          have after := ih.perform command
          exact ⟨after.keeps, after.lawful⟩
      | tick callback => exact ih.tick.1

end Runs

end Astra.Wheel
