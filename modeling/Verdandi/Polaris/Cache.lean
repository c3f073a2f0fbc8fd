import Verdandi.Common.Scope
import Verdandi.Support.Assoc
import Verdandi.Support.Run
import Verdandi.Support.Slots

/-! The snapshots that Polaris is preparing or sending. Requests for the same target share one
preparation, which the first of them runs under its own context; the last pin drops it.
-/

namespace Polaris

open Support
open Astra (Bytes)

-- The cache

structure Position where
  scope : Astra.Scope
  version : Nat
  deriving DecidableEq

structure Snapshot where
  version : Nat := 0
  records : List (Bytes × Bytes) := []
  deriving DecidableEq

/-- Errors of an acquisition. A context error is `cancelled`; `storage` is anything else that the
store answers.
-/
inductive Failure where
  | cancelled
  | capacity
  | version
  | storage (code : Nat)
  deriving DecidableEq

structure Prepared where
  ready : Bool := false
  snapshot : Snapshot := {}
  err : Option Failure := none
  references : Nat := 0
  deriving DecidableEq

structure Limits where
  bytes : Nat
  records : Nat

def Limits.reserve (limits : Limits) : Nat :=
  limits.bytes + limits.records * 128 + 2 * 2 ^ 20

/-- Where a request stands between two sections under the lock. From `loading` to `leaving` and in
`holding` it has a pin on an entry.
-/
inductive Stage where
  | arrived
  | checked
  | loading (entry : Nat)
  | waiting (entry : Nat)
  | leaving (entry : Nat) (failure : Failure)
  | holding (entry : Nat)
  | failed (failure : Failure)
  | released
  deriving DecidableEq

/-- A call of `acquire` and the pin that it returns. `done` is its own context. -/
structure Request where
  key : Position
  done : Bool := false
  stage : Stage := .arrived
  deriving DecidableEq

def Request.entry (request : Request) : Option Nat :=
  match request.stage with
  | .loading entry | .waiting entry | .leaving entry _ | .holding entry => some entry
  | _ => none

structure Cache where
  limits : Limits
  maximum : Nat
  entries : Assoc Position Nat := ∅
  used : Nat := 0
  heap : List Prepared := []
  requests : List Request := []

namespace Cache

def turn (cache : Cache) (index : Nat) (request : Request) (stage : Stage) : Cache :=
  { cache with requests := cache.requests.set index { request with stage } }

/-- The section of `acquire` under the lock: share an entry, or make one within the budget. -/
def lock (cache : Cache) (index : Nat) (request : Request) : Cache :=
  match cache.entries.get? request.key with
  | some entry =>
      match cache.heap[entry]? with
      | some prepared =>
          { cache with
            heap :=
              cache.heap.set entry { prepared with references := prepared.references + 1 }
            requests := cache.requests.set index { request with stage := .waiting entry } }
      | none => cache
  | none =>
      if (cache.limits.reserve : Int) > cache.maximum - cache.used then
        cache.turn index request (.failed .capacity)
      else
        { cache with
          entries := cache.entries.set request.key cache.heap.length
          used := cache.used + cache.limits.reserve
          heap := cache.heap ++ [{ references := 1 }]
          requests :=
            cache.requests.set index { request with stage := .loading cache.heap.length } }

/-- What `Load` answered, published by closing `ready`. -/
def publish (prepared : Prepared) (minimum : Nat) : Except Failure Snapshot → Prepared
  | .error failure => { prepared with ready := true, err := some failure }
  | .ok snapshot =>
      { prepared with
        ready := true
        snapshot
        err := if snapshot.version < minimum then some .version else none }

/-- `release`: the last pin drops the entry and returns its charge. -/
def release (cache : Cache) (key : Position) (entry : Nat) : Cache :=
  match cache.heap[entry]? with
  | none => cache
  | some prepared =>
      let dropped :=
        { cache with
          heap := cache.heap.set entry { prepared with references := prepared.references - 1 } }
      if prepared.references - 1 = 0 then
        { dropped with
          entries := cache.entries.remove key
          used := cache.used - cache.limits.reserve }
      else
        dropped

inductive Act where
  | arrive (key : Position)
  | cancel (index : Nat)
  | check (index : Nat)
  | lock (index : Nat)
  | load (index : Nat) (result : Except Failure Snapshot)
  | select (index : Nat) (byContext : Bool)
  | leave (index : Nat)
  | release (index : Nat)

/-- The `select` of `acquire` takes a branch that is ready, and looks at the context again. -/
def select (cache : Cache) (index : Nat) (request : Request) (entry : Nat) (byContext : Bool)
    : Option Cache :=
  if byContext then
    if request.done then some (cache.turn index request (.leaving entry .cancelled)) else none
  else
    match cache.heap[entry]? with
    | none => none
    | some prepared =>
        if !prepared.ready then
          none
        else if request.done then
          some (cache.turn index request (.leaving entry .cancelled))
        else
          match prepared.err with
          | some failure => some (cache.turn index request (.leaving entry failure))
          | none => some (cache.turn index request (.holding entry))

/-- A step of one request. `Load` answers with a context error only if the context that it runs
under is done.
-/
def act (cache : Cache) (index : Nat) (request : Request) : Act → Option Cache
  | .arrive _ => none
  | .cancel _ =>
      some { cache with requests := cache.requests.set index { request with done := true } }
  | .check _ =>
      match request.stage with
      | .arrived =>
          if request.done then
            some (cache.turn index request (.failed .cancelled))
          else
            some (cache.turn index request .checked)
      | _ => none
  | .lock _ =>
      match request.stage with
      | .checked => some (cache.lock index request)
      | _ => none
  | .load _ result =>
      match request.stage with
      | .loading entry =>
          match cache.heap[entry]? with
          | none => none
          | some prepared =>
              if result = .error .cancelled ∧ request.done = false then
                none
              else
                some
                  { cache with
                    heap := cache.heap.set entry (publish prepared request.key.version result)
                    requests :=
                      cache.requests.set index { request with stage := .waiting entry } }
      | _ => none
  | .select _ byContext =>
      match request.stage with
      | .waiting entry => cache.select index request entry byContext
      | _ => none
  | .leave _ =>
      match request.stage with
      | .leaving entry failure =>
          some ((cache.release request.key entry).turn index request (.failed failure))
      | _ => none
  | .release _ =>
      match request.stage with
      | .holding entry =>
          some ((cache.release request.key entry).turn index request .released)
      | _ => none

def Act.index : Act → Nat
  | .arrive _ => 0
  | .cancel index | .check index | .lock index | .load index _ | .select index _
  | .leave index | .release index => index

def step (cache : Cache) (label : Act) : Option Cache :=
  match label with
  | .arrive key => some { cache with requests := cache.requests ++ [{ key }] }
  | label =>
      match cache.requests[label.index]? with
      | none => none
      | some request => cache.act label.index request label

-- Pins and entries

def pins (requests : List Request) (entry : Nat) : Nat :=
  requests.countP fun request => request.entry == some entry

variable {requests : List Request} {index : Nat} {request : Request}

/-- What another stage of a request changes. -/
theorem pins_set (found : requests[index]? = some request) (next : Request) (entry : Nat)
    : pins (requests.set index next) entry + (if request.entry = some entry then 1 else 0)
      = pins requests entry + (if next.entry = some entry then 1 else 0) := by
  obtain ⟨inside, same⟩ := List.getElem?_eq_some_iff.mp found
  have positive : request.entry = some entry → 0 < pins requests entry := fun pinned =>
    List.countP_pos_iff.mpr ⟨request, List.mem_of_getElem? found, by simpa using pinned⟩
  simp only [pins, List.countP_set inside, same, beq_iff_eq] at positive ⊢
  split
  next pinned =>
    have := positive pinned
    split <;> omega
  · split <;> omega

variable {entry : Nat}

theorem pins_pos (member : request ∈ requests) (pinned : request.entry = some entry)
    : 0 < pins requests entry :=
  List.countP_pos_iff.mpr ⟨request, member, by simpa using pinned⟩

/-- The cache has the entries that are pinned, with the number of their pins, and their charge is
used. An entry that is ready without an error has a version that is high enough.
-/
structure Sound (cache : Cache) : Prop where
  pinned
    : ∀ request ∈ cache.requests,
        ∀ entry, request.entry = some entry → cache.entries.get? request.key = some entry
  counted
    : ∀ key entry, cache.entries.get? key = some entry → ∃ prepared : Prepared,
          cache.heap[entry]? = some prepared
          ∧ prepared.references = pins cache.requests entry
          ∧ 0 < prepared.references
          ∧ (prepared.ready = true → prepared.err = none → key.version ≤ prepared.snapshot.version)
  single
    : ∀ one other entry,
        cache.entries.get? one = some entry → cache.entries.get? other = some entry → one = other
  used : cache.used = cache.limits.reserve * cache.entries.size
  bounded : cache.used ≤ cache.maximum
  loading
    : ∀ (index : Nat) (request : Request) (entry : Nat), cache.requests[index]? = some request →
        request.stage = .loading entry →
        (∃ prepared : Prepared, cache.heap[entry]? = some prepared ∧ prepared.ready = false)
        ∧ ∀ (other : Nat) (another : Request), cache.requests[other]? = some another →
            another.stage = .loading entry →
            index = other
  holding
    : ∀ request ∈ cache.requests, ∀ entry, request.stage = .holding entry → ∃ prepared : Prepared,
            cache.heap[entry]? = some prepared
            ∧ prepared.ready = true
            ∧ prepared.err = none

def Frozen (before after : List Prepared) : Prop :=
  ∀ (entry : Nat) (prepared : Prepared), before[entry]? = some prepared → prepared.ready = true →
    ∃ same : Prepared, after[entry]? = some same ∧ same.ready = true
      ∧ same.snapshot = prepared.snapshot
      ∧ same.err = prepared.err

theorem Frozen.refl (heap : List Prepared) : Frozen heap heap :=
  fun _ prepared found ready => ⟨prepared, found, ready, rfl, rfl⟩

theorem Frozen.trans {first second third : List Prepared} (early : Frozen first second)
    (late : Frozen second third)
    : Frozen first third := by
  intro entry prepared found ready
  obtain ⟨middle, there, stays, snapshot, err⟩ := early entry prepared found ready
  obtain ⟨last, here, still, again, error⟩ := late entry middle there stays
  exact ⟨last, here, still, again.trans snapshot, error.trans err⟩

variable {heap : List Prepared} {prepared : Prepared}

/-- Counting references does not touch a result. -/
theorem frozen_set {next : Prepared}
    (found : heap[entry]? = some prepared)
    (same
      : prepared.ready = true →
          next.ready = true ∧ next.snapshot = prepared.snapshot ∧ next.err = prepared.err)
    : Frozen heap (heap.set entry next) := by
  intro other held there ready
  rw [List.getElem?_set]
  split
  next equal =>
    subst equal
    rw [found] at there
    cases there
    have inside := (List.getElem?_eq_some_iff.mp found).1
    obtain ⟨ready, snapshot, err⟩ := same ready
    exact ⟨next, by simp [inside], ready, snapshot, err⟩
  · exact ⟨held, there, ready, rfl, rfl⟩

theorem frozen_append (heap more : List Prepared) : Frozen heap (heap ++ more) := by
  intro entry prepared found ready
  have inside := (List.getElem?_eq_some_iff.mp found).1
  exact ⟨prepared, by rw [List.getElem?_append_left inside, found], ready, rfl, rfl⟩

theorem sound_empty (limits : Limits) (maximum : Nat) : Sound { limits, maximum } where
  pinned := nofun
  counted := nofun
  single := nofun
  used := by simp [Assoc.size]
  bounded := Nat.zero_le _
  loading := nofun
  holding := nofun

/-- A request goes on with the pin that it has. -/
theorem Sound.turn {cache : Cache} (sound : cache.Sound) {index : Nat} {request next : Request}
    (found : cache.requests[index]? = some request) (key : next.key = request.key)
    (entry : next.entry = request.entry)
    (loading : ∀ entry, next.stage = .loading entry → request.stage = .loading entry)
    (holding
      : ∀ entry, next.stage = .holding entry → ∃ prepared : Prepared,
            cache.heap[entry]? = some prepared
            ∧ prepared.ready = true
            ∧ prepared.err = none)
    : Sound { cache with requests := cache.requests.set index next } := by
  have same (entry' : Nat) : pins (cache.requests.set index next) entry'
      = pins cache.requests entry' := by
    have counted := pins_set found next entry'
    rw [entry] at counted
    omega
  have own : request ∈ cache.requests := List.mem_of_getElem? found
  constructor
  · intro another member entry' pinned
    rcases List.mem_or_eq_of_mem_set member with old | rfl
    · exact sound.pinned another old entry' pinned
    · rw [key]
      exact sound.pinned request own entry' (entry ▸ pinned)
  · intro key entry' held
    obtain ⟨prepared, there, count, rest⟩ := sound.counted key entry' held
    exact ⟨prepared, there, count.trans (same entry').symm, rest⟩
  · exact sound.single
  · exact sound.used
  · exact sound.bounded
  · intro first one entry' here stage
    rcases getElem?_set_or here with ⟨rfl, rfl⟩ | ⟨differ, old⟩
    · obtain ⟨unready, only⟩ := sound.loading first request entry' found (loading entry' stage)
      refine ⟨unready, fun second another there again => ?_⟩
      rcases getElem?_set_or there with ⟨rfl, _⟩ | ⟨_, older⟩
      · rfl
      · exact only second another older again
    · obtain ⟨unready, only⟩ := sound.loading first one entry' old stage
      refine ⟨unready, fun second another there again => ?_⟩
      rcases getElem?_set_or there with ⟨rfl, rfl⟩ | ⟨_, older⟩
      · exact only second request found (loading entry' again)
      · exact only second another older again
  · intro another member entry' stage
    rcases List.mem_or_eq_of_mem_set member with old | rfl
    · exact sound.holding another old entry' stage
    · exact holding entry' stage

variable {cache : Cache}

theorem Sound.arrive (sound : cache.Sound) (key : Position)
    : Sound { cache with requests := cache.requests ++ [{ key }] } := by
  have plain {request : Request} (member : request ∈ cache.requests ++ [({ key := key } : Request)])
      : request ∈ cache.requests ∨ request = { key := key } := by
    simpa using member
  have there {index : Nat} {request : Request}
      (found : (cache.requests ++ [({ key := key } : Request)])[index]? = some request)
      : cache.requests[index]? = some request ∨ request = { key := key } := by
    rw [List.getElem?_append] at found
    split at found
    · exact .inl found
    · exact .inr (List.mem_singleton.mp (List.mem_of_getElem? found))
  constructor
  · intro request member entry pinned
    rcases plain member with old | rfl
    · exact sound.pinned request old entry pinned
    · cases pinned
  · intro key' entry held
    obtain ⟨prepared, found, count, rest⟩ := sound.counted key' entry held
    exact ⟨prepared, found, by simpa [pins, Request.entry] using count, rest⟩
  · exact sound.single
  · exact sound.used
  · exact sound.bounded
  · intro index request entry found stage
    rcases there found with old | rfl
    · obtain ⟨unready, only⟩ := sound.loading index request entry old stage
      refine ⟨unready, fun other another here again => ?_⟩
      rcases there here with older | rfl
      · exact only other another older again
      · cases again
    · cases stage
  · intro request member entry stage
    rcases plain member with old | rfl
    · exact sound.holding request old entry stage
    · cases stage

/-- A request shares the entry of its target. -/
theorem Sound.share {cache : Cache} (sound : cache.Sound) {index : Nat} {request : Request}
    (found : cache.requests[index]? = some request) (free : request.entry = none) {entry : Nat}
    (held : cache.entries.get? request.key = some entry) {prepared : Prepared}
    (there : cache.heap[entry]? = some prepared)
    : Sound
        { cache with
          heap := cache.heap.set entry { prepared with references := prepared.references + 1 }
          requests := cache.requests.set index { request with stage := .waiting entry } } := by
  have inside := (List.getElem?_eq_some_iff.mp there).1
  have counted (other : Nat)
      : pins (cache.requests.set index { request with stage := .waiting entry }) other
        = pins cache.requests other + if other = entry then 1 else 0 := by
    have both := pins_set found { request with stage := .waiting entry } other
    rw [free] at both
    simpa [Request.entry, eq_comm] using both
  have frozen {other : Nat} {old : Prepared} (here : cache.heap[other]? = some old)
      : ∃ next : Prepared,
          (cache.heap.set entry { prepared with references := prepared.references + 1 })[other]?
              = some next
            ∧ next.ready = old.ready ∧ next.snapshot = old.snapshot ∧ next.err = old.err
            ∧ next.references = old.references + if other = entry then 1 else 0 := by
    rw [List.getElem?_set]
    by_cases same : other = entry
    · subst same
      rw [there] at here
      cases here
      exact ⟨{ prepared with references := prepared.references + 1 }, by simp [inside], rfl, rfl,
        rfl, by simp⟩
    · exact ⟨old, by rw [if_neg fun equal => same equal.symm]; exact here, rfl, rfl, rfl,
        by simp [same]⟩
  constructor
  · intro another member other pinned
    rcases List.mem_or_eq_of_mem_set member with old | rfl
    · exact sound.pinned another old other pinned
    · cases pinned
      exact held
  · intro key other stored
    obtain ⟨old, here, count, positive, good⟩ := sound.counted key other stored
    obtain ⟨next, now, ready, snapshot, err, more⟩ := frozen here
    refine ⟨next, now, ?_, by omega, ?_⟩
    · rw [counted, more, count]
    · rw [ready, snapshot, err]
      exact good
  · exact sound.single
  · exact sound.used
  · exact sound.bounded
  · intro first one other here stage
    rcases getElem?_set_or here with ⟨rfl, rfl⟩ | ⟨_, old⟩
    · cases stage
    · obtain ⟨⟨unready, found', isUnready⟩, only⟩ := sound.loading first one other old stage
      obtain ⟨next, now, ready, _⟩ := frozen found'
      refine ⟨⟨next, now, ready.trans isUnready⟩, fun second another there' again => ?_⟩
      rcases getElem?_set_or there' with ⟨rfl, rfl⟩ | ⟨_, older⟩
      · cases again
      · exact only second another older again
  · intro another member other stage
    rcases List.mem_or_eq_of_mem_set member with old | rfl
    · obtain ⟨held', here, ready, err⟩ := sound.holding another old other stage
      obtain ⟨next, now, same, _, same', _⟩ := frozen here
      exact ⟨next, now, same.trans ready, same'.trans err⟩
    · cases stage

/-- A request makes the entry of its target. -/
theorem Sound.make {cache : Cache} (sound : cache.Sound) {index : Nat} {request : Request}
    (found : cache.requests[index]? = some request) (free : request.entry = none)
    (missing : cache.entries.get? request.key = none)
    (room : ¬ (cache.limits.reserve : Int) > cache.maximum - cache.used)
    : Sound
        { cache with
          entries := cache.entries.set request.key cache.heap.length
          used := cache.used + cache.limits.reserve
          heap := cache.heap ++ [{ references := 1 }]
          requests :=
            cache.requests.set index { request with stage := .loading cache.heap.length } } := by
  have old {key : Position} {entry : Nat} (held : cache.entries.get? key = some entry)
      : entry < cache.heap.length := by
    obtain ⟨_, there, _⟩ := sound.counted key entry held
    exact (List.getElem?_eq_some_iff.mp there).1
  have pinned {another : Request} (member : another ∈ cache.requests) {entry : Nat}
      (pin : another.entry = some entry)
      : entry < cache.heap.length :=
    old (sound.pinned another member entry pin)
  have counted (other : Nat)
      : pins (cache.requests.set index { request with stage := .loading cache.heap.length }) other
        = pins cache.requests other + if other = cache.heap.length then 1 else 0 := by
    have both := pins_set found { request with stage := .loading cache.heap.length } other
    rw [free] at both
    simpa [Request.entry, eq_comm] using both
  have none' : pins cache.requests cache.heap.length = 0 := by
    apply List.countP_eq_zero.mpr
    intro another member pin
    have := pinned member (by simpa using pin)
    omega
  have stays {entry : Nat} {prepared : Prepared} (here : cache.heap[entry]? = some prepared)
      : (cache.heap ++ [({ references := 1 } : Prepared)])[entry]? = some prepared := by
    rw [List.getElem?_append_left (List.getElem?_eq_some_iff.mp here).1, here]
  constructor
  · intro another member other pin
    simp only [Assoc.get?_set]
    rcases List.mem_or_eq_of_mem_set member with before | rfl
    · have kept := sound.pinned another before other pin
      rw [if_neg fun same => by rw [same, missing] at kept; cases kept]
      exact kept
    · cases pin
      rw [if_pos rfl]
  · intro key other stored
    simp only [Assoc.get?_set] at stored
    split at stored
    · cases stored
      refine ⟨{ references := 1 }, by simp, ?_, Nat.one_pos, (by intros; contradiction)⟩
      rw [counted, none', if_pos rfl]
    · obtain ⟨prepared, here, count, positive, good⟩ := sound.counted key other stored
      refine ⟨prepared, stays here, ?_, positive, good⟩
      have := old stored
      rw [counted, if_neg (by omega), count, Nat.add_zero]
  · intro one other entry first second
    simp only [Assoc.get?_set] at first second
    split at first
    next mine =>
      cases first
      split at second
      next again => rw [mine, again]
      · have := old second
        omega
    · split at second
      · cases second
        have := old first
        omega
      · exact sound.single one other entry first second
  · simp only [Assoc.size_set_of_none missing, sound.used]
    rw [Nat.mul_add, Nat.mul_one]
  · have := sound.bounded
    simp only
    omega
  · intro first one other here stage
    rcases getElem?_set_or here with ⟨rfl, rfl⟩ | ⟨_, before⟩
    · cases stage
      refine ⟨⟨{ references := 1 }, by simp, rfl⟩, fun second another there again => ?_⟩
      rcases getElem?_set_or there with ⟨rfl, _⟩ | ⟨_, older⟩
      · rfl
      · have := pinned (List.mem_of_getElem? older)
          (show another.entry = some cache.heap.length by simp [Request.entry, again])
        omega
    · obtain ⟨⟨unready, found', isUnready⟩, only⟩ := sound.loading first one other before stage
      have inside := (List.getElem?_eq_some_iff.mp found').1
      refine ⟨⟨unready, stays found', isUnready⟩, fun second another there again => ?_⟩
      rcases getElem?_set_or there with ⟨rfl, rfl⟩ | ⟨_, older⟩
      · cases again
        omega
      · exact only second another older again
  · intro another member other stage
    rcases List.mem_or_eq_of_mem_set member with before | rfl
    · obtain ⟨prepared, here, ready, err⟩ := sound.holding another before other stage
      exact ⟨prepared, stays here, ready, err⟩
    · cases stage

/-- A request publishes what it loaded. -/
theorem Sound.settle (sound : cache.Sound) (found : cache.requests[index]? = some request)
    (stage : request.stage = .loading entry) (there : cache.heap[entry]? = some prepared)
    (result : Except Failure Snapshot)
    : Sound
        { cache with
          heap := cache.heap.set entry (publish prepared request.key.version result)
          requests := cache.requests.set index { request with stage := .waiting entry } } := by
  have inside := (List.getElem?_eq_some_iff.mp there).1
  have pinned : request.entry = some entry := by simp [Request.entry, stage]
  have own := sound.pinned request (List.mem_of_getElem? found) entry pinned
  obtain ⟨⟨unready, same, isUnready⟩, only⟩ := sound.loading index request entry found stage
  rw [there] at same
  cases same
  have counted (other : Nat)
      : pins (cache.requests.set index { request with stage := .waiting entry }) other
        = pins cache.requests other := by
    have both := pins_set found { request with stage := .waiting entry } other
    rw [pinned] at both
    simpa [Request.entry] using both
  have references : (publish prepared request.key.version result).references
      = prepared.references := by
    cases result <;> rfl
  have good : (publish prepared request.key.version result).err = none →
      request.key.version ≤ (publish prepared request.key.version result).snapshot.version := by
    cases result with
    | error failure => nofun
    | ok snapshot =>
        simp only [Cache.publish]
        split
        · nofun
        · omega
  have elsewhere {other : Nat} (differ : other ≠ entry)
      : (cache.heap.set entry (publish prepared request.key.version result))[other]?
        = cache.heap[other]? := by
    rw [List.getElem?_set, if_neg fun equal => differ equal.symm]
  constructor
  · intro another member other pin
    rcases List.mem_or_eq_of_mem_set member with old | rfl
    · exact sound.pinned another old other pin
    · cases pin
      exact own
  · intro key other stored
    obtain ⟨old, here, count, positive, isGood⟩ := sound.counted key other stored
    by_cases same : other = entry
    · subst same
      rw [there] at here
      cases here
      have named := sound.single key request.key other stored own
      subst named
      exact ⟨_, by simp [inside], by rw [references, counted, count], references ▸ positive,
        fun _ => good⟩
    · exact ⟨old, (elsewhere same).trans here, by rw [counted, count], positive, isGood⟩
  · exact sound.single
  · exact sound.used
  · exact sound.bounded
  · intro first one other here stage'
    rcases getElem?_set_or here with ⟨rfl, rfl⟩ | ⟨differ, old⟩
    · cases stage'
    · obtain ⟨⟨unready, found', isUnready⟩, only'⟩ := sound.loading first one other old stage'
      have apart : other ≠ entry := by
        rintro rfl
        exact differ (only first one old stage').symm
      refine ⟨⟨unready, (elsewhere apart).trans found', isUnready⟩,
        fun second another there' again => ?_⟩
      rcases getElem?_set_or there' with ⟨rfl, rfl⟩ | ⟨_, older⟩
      · cases again
      · exact only' second another older again
  · intro another member other stage'
    rcases List.mem_or_eq_of_mem_set member with old | rfl
    · obtain ⟨held, here, ready, err⟩ := sound.holding another old other stage'
      have apart : other ≠ entry := by
        rintro rfl
        rw [there] at here
        cases here
        rw [isUnready] at ready
        cases ready
      exact ⟨held, (elsewhere apart).trans here, ready, err⟩
    · cases stage'

/-- A request gives its pin back. -/
theorem Sound.drop (sound : cache.Sound) (found : cache.requests[index]? = some request)
    (pinned : request.entry = some entry) {stage : Stage}
    (free : ({ request with stage } : Request).entry = none)
    : ((cache.release request.key entry).turn index request stage).Sound := by
  have member : request ∈ cache.requests := List.mem_of_getElem? found
  have own := sound.pinned request member entry pinned
  obtain ⟨prepared, there, count, positive, good⟩ := sound.counted request.key entry own
  have inside := (List.getElem?_eq_some_iff.mp there).1
  have counted (other : Nat)
      : pins (cache.requests.set index { request with stage }) other
          + (if other = entry then 1 else 0)
        = pins cache.requests other := by
    have both := pins_set found { request with stage } other
    rw [pinned, free] at both
    simpa [eq_comm] using both
  have elsewhere {other : Nat} (differ : other ≠ entry) (next : Prepared)
      : (cache.heap.set entry next)[other]? = cache.heap[other]? := by
    rw [List.getElem?_set, if_neg fun equal => differ equal.symm]
  have placed (next : Prepared) : (cache.heap.set entry next)[entry]? = some next := by
    simp [inside]
  -- The stages of the others, on a heap where only references were counted.
  have loading (first : Nat) (one : Request) (other : Nat)
      (here : (cache.requests.set index { request with stage })[first]? = some one)
      (stage' : one.stage = .loading other)
      : (∃ held : Prepared,
          (cache.heap.set entry { prepared with references := prepared.references - 1 })[other]?
              = some held
            ∧ held.ready = false)
        ∧ ∀ (second : Nat) (another : Request),
            (cache.requests.set index { request with stage })[second]? = some another →
            another.stage = .loading other →
            first = second := by
    have refused : ∀ entry', ({ request with stage } : Request).stage ≠ .loading entry' := by
      intro entry' same
      simp only [Request.entry] at free
      simp [show stage = .loading entry' from same] at free
    rcases getElem?_set_or here with ⟨rfl, rfl⟩ | ⟨differ, old⟩
    · exact absurd stage' (refused other)
    · obtain ⟨⟨unready, found', isUnready⟩, only⟩ := sound.loading first one other old stage'
      constructor
      · by_cases same : other = entry
        · subst same
          rw [there] at found'
          cases found'
          exact ⟨_, placed _, isUnready⟩
        · exact ⟨unready, (elsewhere same _).trans found', isUnready⟩
      · intro second another there' again
        rcases getElem?_set_or there' with ⟨rfl, rfl⟩ | ⟨_, older⟩
        · exact absurd again (refused other)
        · exact only second another older again
  have holding (another : Request)
      (listed : another ∈ cache.requests.set index { request with stage }) (other : Nat)
      (stage' : another.stage = .holding other)
      : ∃ held : Prepared,
          (cache.heap.set entry { prepared with references := prepared.references - 1 })[other]?
              = some held
            ∧ held.ready = true ∧ held.err = none := by
    rcases List.mem_or_eq_of_mem_set listed with old | rfl
    · obtain ⟨held, here, ready, err⟩ := sound.holding another old other stage'
      by_cases same : other = entry
      · subst same
        rw [there] at here
        cases here
        exact ⟨_, placed _, ready, err⟩
      · exact ⟨held, (elsewhere same _).trans here, ready, err⟩
    · simp only [Request.entry] at free
      simp [show stage = .holding other from stage'] at free
  unfold release
  rw [there]
  simp only
  split
  next last =>
    have only : pins cache.requests entry = 1 := by omega
    have unpinned (another : Request)
        (listed : another ∈ cache.requests.set index { request with stage })
        : another.entry ≠ some entry := by
      intro pin
      have left := pins_pos listed pin
      have := counted entry
      rw [if_pos rfl] at this
      omega
    have size := Assoc.size_remove_of_some own
    have used := sound.used
    have bounded := sound.bounded
    constructor
    · intro another listed other pin
      simp only [Cache.turn, Assoc.get?_remove]
      rcases List.mem_or_eq_of_mem_set listed with old | rfl
      · have kept := sound.pinned another old other pin
        rw [if_neg]
        · exact kept
        · intro same
          rw [same, own] at kept
          cases kept
          exact unpinned another listed pin
      · rw [free] at pin
        cases pin
    · intro key other stored
      simp only [Cache.turn, Assoc.get?_remove] at stored
      split at stored
      · cases stored
      rename_i differ
      have apart : other ≠ entry := by
        rintro rfl
        exact differ (sound.single key request.key other stored own)
      obtain ⟨old, here, count', positive', good'⟩ := sound.counted key other stored
      refine ⟨old, (elsewhere apart _).trans here, ?_, positive', good'⟩
      have := counted other
      rw [if_neg apart] at this
      simp only [Cache.turn]
      omega
    · intro one other entry' first second
      simp only [Cache.turn, Assoc.get?_remove] at first second
      split at first
      · cases first
      · split at second
        · cases second
        · exact sound.single one other entry' first second
    · simp only [Cache.turn]
      rw [used, ← size, Nat.mul_add, Nat.mul_one, Nat.add_sub_cancel]
    · simp only [Cache.turn]
      omega
    · exact loading
    · exact holding
  rename_i more
  constructor
  · intro another listed other pin
    rcases List.mem_or_eq_of_mem_set listed with old | rfl
    · exact sound.pinned another old other pin
    · rw [free] at pin
      cases pin
  · intro key other stored
    obtain ⟨old, here, count', positive', good'⟩ := sound.counted key other stored
    have shift := counted other
    by_cases same : other = entry
    · subst same
      rw [there] at here
      cases here
      rw [if_pos rfl] at shift
      refine ⟨_, placed _, ?_, ?_, good'⟩
      · simp only [Cache.turn]
        omega
      · simp only
        omega
    · rw [if_neg same] at shift
      refine ⟨old, (elsewhere same _).trans here, ?_, positive', good'⟩
      simp only [Cache.turn]
      omega
  · exact sound.single
  · exact sound.used
  · exact sound.bounded
  · exact loading
  · exact holding

-- What a step does

inductive Stepped (cache : Cache) : Act → Cache → Prop where
  | arrive (key : Position)
      : Stepped cache (.arrive key) { cache with requests := cache.requests ++ [{ key := key }] }
  | cancel {index : Nat} {request : Request} (found : cache.requests[index]? = some request)
      : Stepped cache (.cancel index)
          { cache with requests := cache.requests.set index { request with done := true } }
  | check {index : Nat} {request : Request} {stage : Stage}
      (found : cache.requests[index]? = some request) (before : request.stage = .arrived)
      (after : (stage = .failed .cancelled ∧ request.done = true) ∨ stage = .checked)
      : Stepped cache (.check index) (cache.turn index request stage)
  | share {index entry : Nat} {request : Request} {prepared : Prepared}
      (found : cache.requests[index]? = some request) (before : request.stage = .checked)
      (held : cache.entries.get? request.key = some entry)
      (there : cache.heap[entry]? = some prepared)
      : Stepped cache (.lock index)
          { cache with
            heap :=
              cache.heap.set entry { prepared with references := prepared.references + 1 }
            requests := cache.requests.set index { request with stage := .waiting entry } }
  | stuck (index : Nat) : Stepped cache (.lock index) cache
  | refuse {index : Nat} {request : Request} (found : cache.requests[index]? = some request)
      (before : request.stage = .checked)
      : Stepped cache (.lock index) (cache.turn index request (.failed .capacity))
  | make {index : Nat} {request : Request} (found : cache.requests[index]? = some request)
      (before : request.stage = .checked) (missing : cache.entries.get? request.key = none)
      (room : ¬ (cache.limits.reserve : Int) > cache.maximum - cache.used)
      : Stepped cache (.lock index)
          { cache with
            entries := cache.entries.set request.key cache.heap.length
            used := cache.used + cache.limits.reserve
            heap := cache.heap ++ [{ references := 1 }]
            requests :=
              cache.requests.set index { request with stage := .loading cache.heap.length } }
  | load {index entry : Nat} {request : Request} {prepared : Prepared}
      {result : Except Failure Snapshot} (found : cache.requests[index]? = some request)
      (before : request.stage = .loading entry) (there : cache.heap[entry]? = some prepared)
      (caused : result = .error .cancelled → request.done = true)
      : Stepped cache (.load index result)
          { cache with
            heap := cache.heap.set entry (publish prepared request.key.version result)
            requests := cache.requests.set index { request with stage := .waiting entry } }
  | select {index entry : Nat} {request : Request} {failure : Failure} {byContext : Bool}
      (found : cache.requests[index]? = some request) (before : request.stage = .waiting entry)
      (cause
        : (failure = .cancelled ∧ request.done = true) ∨ ∃ prepared,
              cache.heap[entry]? = some prepared ∧ prepared.err = some failure)
      : Stepped cache (.select index byContext) (cache.turn index request (.leaving entry failure))
  | hold {index entry : Nat} {request : Request} {prepared : Prepared} {byContext : Bool}
      (found : cache.requests[index]? = some request) (before : request.stage = .waiting entry)
      (there : cache.heap[entry]? = some prepared) (ready : prepared.ready = true)
      (plain : prepared.err = none)
      : Stepped cache (.select index byContext) (cache.turn index request (.holding entry))
  | leave {index entry : Nat} {request : Request} {failure : Failure}
      (found : cache.requests[index]? = some request)
      (before : request.stage = .leaving entry failure)
      : Stepped cache (.leave index)
          ((cache.release request.key entry).turn index request (.failed failure))
  | release {index entry : Nat} {request : Request} (found : cache.requests[index]? = some request)
      (before : request.stage = .holding entry)
      : Stepped cache (.release index)
          ((cache.release request.key entry).turn index request .released)

variable {next : Cache} {label : Act}

theorem stepped_of_step (stepped : cache.step label = some next)
    : Stepped cache label next := by
  unfold step at stepped
  split at stepped
  next key =>
    cases stepped
    exact .arrive key
  rename_i fresh
  split at stepped
  · cases stepped
  rename_i request found
  cases label with
  | arrive key => exact absurd rfl (fresh key)
  | cancel index =>
      cases stepped
      exact .cancel found
  | check index =>
      simp only [act] at stepped
      split at stepped
      next before =>
        split at stepped
        next done =>
          cases stepped
          exact .check found before (.inl ⟨rfl, done⟩)
        · cases stepped
          exact .check found before (.inr rfl)
      · cases stepped
  | lock index =>
      simp only [act] at stepped
      split at stepped
      next before =>
        cases stepped
        unfold Cache.lock
        split
        next entry held =>
          split
          next prepared there => exact .share found before held there
          · exact .stuck index
        rename_i missing
        split
        · exact .refuse found before
        next room => exact .make found before missing room
      · cases stepped
  | load index result =>
      simp only [act] at stepped
      split at stepped
      next entry before =>
        split at stepped
        · cases stepped
        rename_i prepared there
        split at stepped
        · cases stepped
        rename_i caused
        cases stepped
        exact .load found before there fun failed => by simpa [failed] using caused
      · cases stepped
  | select index byContext =>
      simp only [act] at stepped
      split at stepped
      next entry before =>
        unfold Cache.select at stepped
        split at stepped
        · split at stepped
          next done =>
            cases stepped
            exact .select found before (.inl ⟨rfl, done⟩)
          · cases stepped
        · split at stepped
          · cases stepped
          rename_i prepared there
          split at stepped
          · cases stepped
          rename_i ready
          split at stepped
          next done =>
            cases stepped
            exact .select found before (.inl ⟨rfl, done⟩)
          · split at stepped
            next failure failed =>
              cases stepped
              exact .select found before (.inr ⟨prepared, there, failed⟩)
            rename_i plain
            cases stepped
            exact .hold found before there (by simpa using ready) plain
      · cases stepped
  | leave index =>
      simp only [act] at stepped
      split at stepped
      next entry failure before =>
        cases stepped
        exact .leave found before
      · cases stepped
  | release index =>
      simp only [act] at stepped
      split at stepped
      next entry before =>
        cases stepped
        exact .release found before
      · cases stepped

theorem Sound.step {cache next : Cache} {label : Act} (sound : cache.Sound)
    (stepped : Stepped cache label next)
    : next.Sound := by
  cases stepped with
  | arrive key => exact sound.arrive key
  | cancel found =>
      exact sound.turn found rfl rfl (fun _ same => same)
        fun entry same => sound.holding _ (List.mem_of_getElem? found) entry same
  | @check index request stage found before after =>
      refine @Sound.turn cache sound index request { request with stage } found rfl ?_ ?_ ?_
      · rcases after with ⟨rfl, _⟩ | rfl <;> simp [Request.entry, before]
      · rcases after with ⟨rfl, _⟩ | rfl <;> nofun
      · rcases after with ⟨rfl, _⟩ | rfl <;> nofun
  | share found before held there =>
      exact sound.share found (by simp [Request.entry, before]) held there
  | stuck index => exact sound
  | refuse found before =>
      exact sound.turn found rfl (by simp [Request.entry, before]) nofun nofun
  | make found before missing room =>
      exact sound.make found (by simp [Request.entry, before]) missing room
  | load found before there caused => exact sound.settle found before there _
  | select found before cause =>
      exact sound.turn found rfl (by simp [Request.entry, before]) nofun nofun
  | @hold index entry request prepared _ found before there ready plain =>
      refine @Sound.turn cache sound index request { request with stage := .holding entry } found
        rfl (by simp [Request.entry, before]) nofun ?_
      intro other same
      cases same
      exact ⟨_, there, ready, plain⟩
  | leave found before =>
      exact sound.drop found (by simp [Request.entry, before]) (by simp [Request.entry])
  | release found before =>
      exact sound.drop found (by simp [Request.entry, before]) (by simp [Request.entry])

-- Pinned content

theorem frozen_release (key : Position) (entry : Nat)
    : Frozen cache.heap (cache.release key entry).heap := by
  unfold release
  split
  · exact .refl _
  rename_i prepared there
  have frozen : Frozen cache.heap
      (cache.heap.set entry { prepared with references := prepared.references - 1 }) :=
    frozen_set there fun ready => ⟨ready, rfl, rfl⟩
  dsimp only
  split
  · exact frozen
  · exact frozen

theorem requests_release (cache : Cache) (key : Position) (entry : Nat)
    : (cache.release key entry).requests = cache.requests := by
  unfold release
  split
  · rfl
  · dsimp only
    split
    · rfl
    · rfl

/-- A result that was published does not change. -/
theorem Sound.frozen (sound : cache.Sound) (stepped : Stepped cache label next)
    : Frozen cache.heap next.heap := by
  cases stepped with
  | arrive key => exact .refl _
  | cancel found => exact .refl _
  | check found before after => exact .refl _
  | share found before held there => exact frozen_set there fun ready => ⟨ready, rfl, rfl⟩
  | stuck index => exact .refl _
  | refuse found before => exact .refl _
  | make found before missing room => exact frozen_append _ _
  | load found before there caused =>
      refine frozen_set there fun ready => ?_
      obtain ⟨⟨unready, same, isUnready⟩, _⟩ := sound.loading _ _ _ found before
      rw [there] at same
      cases same
      rw [isUnready] at ready
      cases ready
  | select found before cause => exact .refl _
  | hold found before there ready plain => exact .refl _
  | leave found before => exact frozen_release _ _
  | release found before => exact frozen_release _ _

/-- A request that holds a pin keeps it until it is released, and is not heard of again. -/
def Stays (before after : List Request) : Prop :=
  ∀ (index entry : Nat) (request : Request), before[index]? = some request →
    request.stage = .holding entry ∨ request.stage = .released →
    ∃ later : Request, after[index]? = some later
      ∧ (later.stage = request.stage ∨ later.stage = .released)

variable {last : Cache} {acts : List Act}

/-- No other request has a pin on a preparation that ends in an error of its context, and none
comes to share it.
-/
def Alone (cache : Cache) : Act → Prop
  | .load index (.error .cancelled) =>
      ∀ (other : Nat) (request another : Request) (entry : Nat),
        cache.requests[index]? = some request →
        request.stage = .loading entry →
        cache.requests[other]? = some another →
        another.entry = some entry →
        other = index
  | .lock index =>
      ∀ (request : Request) (entry : Nat) (prepared : Prepared),
        cache.requests[index]? = some request →
        cache.entries.get? request.key = some entry →
        cache.heap[entry]? = some prepared →
        prepared.err ≠ some .cancelled
  | _ => True

structure Isolated (cache : Cache) : Prop where
  pinned
    : ∀ request ∈ cache.requests, ∀ (entry : Nat) (prepared : Prepared),
          request.entry = some entry →
          cache.heap[entry]? = some prepared →
          prepared.err = some .cancelled →
          request.done = true
  failed
    : ∀ request ∈ cache.requests,
        ((∃ entry, request.stage = .leaving entry .cancelled)
            ∨ request.stage = .failed .cancelled) →
          request.done = true

/-- A request changes, and no result becomes a context error that another one has a pin on. -/
theorem Isolated.put (isolated : cache.Isolated) (index : Nat)
    (changed : Request) (requests : next.requests = cache.requests.set index changed)
    (others
      : ∀ (place : Nat) (other : Request) (entry : Nat) (prepared : Prepared),
          cache.requests[place]? = some other →
          place ≠ index →
          other.entry = some entry →
          next.heap[entry]? = some prepared →
          prepared.err = some .cancelled →
          ∃ old : Prepared, cache.heap[entry]? = some old ∧ old.err = some .cancelled)
    (pinned
      : ∀ (entry : Nat) (prepared : Prepared), changed.entry = some entry →
          next.heap[entry]? = some prepared →
          prepared.err = some .cancelled →
          changed.done = true)
    (failed
      : ((∃ entry, changed.stage = .leaving entry .cancelled)
            ∨ changed.stage = .failed .cancelled) →
          changed.done = true)
    : next.Isolated := by
  constructor
  · intro request member entry prepared pin there err
    rw [requests] at member
    obtain ⟨place, here⟩ := List.mem_iff_getElem?.mp member
    rcases getElem?_set_or here with ⟨_, rfl⟩ | ⟨differ, old⟩
    · exact pinned entry prepared pin there err
    · obtain ⟨before, held, same⟩ := others place request entry prepared old differ pin there err
      exact isolated.pinned request (List.mem_of_getElem? old) entry before pin held same
  · intro request member stage
    rw [requests] at member
    rcases List.mem_or_eq_of_mem_set member with old | rfl
    · exact isolated.failed request old stage
    · exact failed stage

variable {other : Nat} {found : Prepared}

/-- Counting references leaves the errors. -/
theorem err_of_set (next : Prepared) (there : heap[entry]? = some prepared)
    (same : next.err = prepared.err) (now : (heap.set entry next)[other]? = some found)
    : ∃ old : Prepared, heap[other]? = some old ∧ old.err = found.err := by
  rcases getElem?_set_or now with ⟨rfl, rfl⟩ | ⟨_, old⟩
  · exact ⟨prepared, there, same.symm⟩
  · exact ⟨found, old, rfl⟩

theorem err_of_release {key : Position} (now : (cache.release key entry).heap[other]? = some found)
    : ∃ old : Prepared, cache.heap[other]? = some old ∧ old.err = found.err := by
  unfold release at now
  split at now
  · exact ⟨found, now, rfl⟩
  rename_i prepared there
  dsimp only at now
  split at now
  · exact err_of_set { prepared with references := prepared.references - 1 } there rfl now
  · exact err_of_set { prepared with references := prepared.references - 1 } there rfl now

theorem Isolated.step {cache next : Cache} {label : Act} (isolated : cache.Isolated)
    (alone : Alone cache label) (stepped : Stepped cache label next)
    : next.Isolated := by
  -- Where the heap stays, so do the errors of the others.
  have same (index place : Nat) (other : Request) (entry : Nat) (prepared : Prepared)
      (_ : cache.requests[place]? = some other) (_ : place ≠ index)
      (_ : other.entry = some entry) (held : cache.heap[entry]? = some prepared)
      (err : prepared.err = some .cancelled)
      : ∃ old : Prepared, cache.heap[entry]? = some old ∧ old.err = some .cancelled :=
    ⟨prepared, held, err⟩
  cases stepped with
  | arrive key =>
      constructor
      · intro request member entry prepared pin there err
        rcases List.mem_append.mp member with old | new
        · exact isolated.pinned request old entry prepared pin there err
        · rw [List.mem_singleton.mp new] at pin
          cases pin
      · intro request member stage
        rcases List.mem_append.mp member with old | new
        · exact isolated.failed request old stage
        · rw [List.mem_singleton.mp new] at stage
          simp at stage
  | @cancel index request found =>
      exact isolated.put index { request with done := true } rfl (same index)
        (fun _ _ _ _ _ => rfl) (fun _ => rfl)
  | @check index request stage found before after =>
      refine isolated.put index { request with stage } rfl (same index) ?_ ?_
      · intro entry prepared pin
        rcases after with ⟨rfl, _⟩ | rfl <;> cases pin
      · intro failed
        rcases after with ⟨_, done⟩ | rfl
        · exact done
        · simp at failed
  | @share index entry request prepared found before held there =>
      refine isolated.put index { request with stage := .waiting entry } rfl ?_ ?_ ?_
      · intro place other entry' prepared' old _ _ now err
        obtain ⟨before', here, equal⟩ := err_of_set _ there (by rfl) now
        exact ⟨before', here, equal.trans err⟩
      · intro entry' prepared' pin now err
        cases pin
        obtain ⟨before', here, equal⟩ := err_of_set _ there (by rfl) now
        exact absurd (equal.trans err) (alone request entry before' found held here)
      · intro failed
        simp at failed
  | stuck index => exact isolated
  | @refuse index request found before =>
      refine isolated.put index { request with stage := .failed .capacity } rfl (same index) ?_ ?_
      · intro entry prepared pin
        cases pin
      · intro failed
        simp at failed
  | @make index request found before missing room =>
      refine isolated.put index { request with stage := .loading cache.heap.length } rfl ?_ ?_ ?_
      · intro place other entry prepared old _ _ now err
        rw [List.getElem?_append] at now
        split at now
        · exact ⟨prepared, now, err⟩
        · have fresh := List.mem_singleton.mp (List.mem_of_getElem? now)
          subst fresh
          cases err
      · intro entry prepared pin now err
        cases pin
        simp at now
        subst now
        cases err
      · intro failed
        simp at failed
  | @load index entry request prepared result found before there caused =>
      have cancelled (next : Prepared)
          (now : (cache.heap.set entry (publish prepared request.key.version result))[entry]?
            = some next)
          (err : next.err = some .cancelled)
          : result = .error .cancelled := by
        rcases getElem?_set_or now with ⟨_, rfl⟩ | ⟨differ, _⟩
        · cases result with
          | error failure =>
              cases err
              rfl
          | ok snapshot =>
              simp only [publish] at err
              split at err
              · cases err
              · cases err
        · exact absurd rfl differ
      refine isolated.put index { request with stage := .waiting entry } rfl ?_ ?_ ?_
      · intro place other entry' prepared' old differ pin now err
        by_cases same' : entry' = entry
        · subst same'
          have failed := cancelled prepared' now err
          subst failed
          exact absurd (alone place request other entry' found before old pin) differ
        · rw [List.getElem?_set, if_neg fun equal => same' equal.symm] at now
          exact ⟨prepared', now, err⟩
      · intro entry' prepared' pin now err
        cases pin
        exact caused (cancelled prepared' now err)
      · intro failed
        simp at failed
  | @select index entry request failure byContext found before cause =>
      have done (cancelled : failure = .cancelled) : request.done = true := by
        rcases cause with ⟨_, done⟩ | ⟨prepared, there, err⟩
        · exact done
        · exact isolated.pinned request (List.mem_of_getElem? found) entry prepared
            (by simp [Request.entry, before]) there (cancelled ▸ err)
      refine isolated.put index { request with stage := .leaving entry failure } rfl
        (same index) ?_ ?_
      · intro entry' prepared' pin now err
        cases pin
        exact isolated.pinned request (List.mem_of_getElem? found) entry prepared'
          (by simp [Request.entry, before]) now err
      · intro failed
        apply done
        simpa using failed
  | @hold index entry request prepared byContext found before there ready plain =>
      refine isolated.put index { request with stage := .holding entry } rfl (same index) ?_ ?_
      · intro entry' prepared' pin now err
        cases pin
        exact isolated.pinned request (List.mem_of_getElem? found) entry prepared'
          (by simp [Request.entry, before]) now err
      · intro failed
        simp at failed
  | @leave index entry request failure found before =>
      refine isolated.put index { request with stage := .failed failure }
        (requests_release cache request.key entry ▸ rfl) ?_ ?_ ?_
      · intro place other entry' prepared' old _ _ now err
        obtain ⟨before', here, equal⟩ := err_of_release now
        exact ⟨before', here, equal.trans err⟩
      · intro entry' prepared' pin
        cases pin
      · intro failed
        apply isolated.failed request (List.mem_of_getElem? found)
        simp only [reduceCtorEq, exists_false, Stage.failed.injEq, false_or] at failed
        exact .inl ⟨entry, failed ▸ before⟩
  | @release index entry request found before =>
      refine isolated.put index { request with stage := .released }
        (requests_release cache request.key entry ▸ rfl) ?_ ?_ ?_
      · intro place other entry' prepared' old _ _ now err
        obtain ⟨before', here, equal⟩ := err_of_release now
        exact ⟨before', here, equal.trans err⟩
      · intro entry' prepared' pin
        cases pin
      · intro failed
        simp at failed

-- Runs

theorem sound_of_run {limits : Limits} {maximum : Nat}
    (reached : run Cache.step { limits, maximum } acts = some cache)
    : cache.Sound :=
  run_invariant (fun _ _ _ sound stepped => sound.step (stepped_of_step stepped))
    (sound_empty limits maximum) reached

/-- The same requests, where the preparation is loaded before they are released. -/
def shared : List Act :=
  [.arrive { scope := ⟨[115], [112]⟩, version := 1 },
    .arrive { scope := ⟨[115], [112]⟩, version := 1 }, .check 0, .check 1, .lock 0, .lock 1,
    .load 0 (.ok { version := 1 }), .select 0 false, .select 1 false, .release 0]

end Cache

end Polaris
