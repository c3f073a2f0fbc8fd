import Verdandi.Polaris.Window

/-! The window of a stream and its pages, in every run. -/

namespace Polaris.Window

open Support
open Support.Protobuf (writeField write)
open Support.Pages (andThen Emits Sends Good)
open Astra (Bytes Scope)

variable {transfer next middle : Transfer} {scope : Scope} {version : UInt64} {cost : Nat}

-- Sizes

theorem length_nested {number groups : Nat} {message : Bytes} (small : number < 16)
    (positive : 0 < groups) (short : message.length < 128 ^ groups)
    : (nested number message).length ≤ 1 + groups + message.length := by
  have tag := @Protobuf.length_varint (number * 8 + 2) 1 (by decide) (by omega)
  have length := Protobuf.length_varint positive short
  simp only [nested, writeField, List.length_append]
  omega

theorem length_number {number groups value : Nat} (small : number < 16) (positive : 0 < groups)
    (short : value < 128 ^ groups)
    : (writeField (number, .number value)).length ≤ 1 + groups := by
  have tag := @Protobuf.length_varint (number * 8) 1 (by decide) (by omega)
  have length := Protobuf.length_varint positive short
  simp only [writeField, List.length_append]
  omega

/-- A field that may be left out. -/
theorem length_write (field : Protobuf.Field) : (write [field]).length ≤ (writeField field).length := by
  unfold write
  cases default : field.2.default <;> simp [default]

/-- Messages that are small take no more than what they are reckoned at. -/
theorem length_messages {Item : Type} {number : Nat} (small : number < 16) (encode : Item → Bytes)
    (items : List Item)
    (short : (items.map fun item => (encode item).length + 6).sum < 128 ^ 4)
    : (items.flatMap fun item => nested number (encode item)).length
      ≤ (items.map fun item => (encode item).length + 6).sum := by
  induction items with
  | nil => exact Nat.le_refl _
  | cons item rest ih =>
      simp only [List.map_cons, List.sum_cons, List.flatMap_cons, List.length_append] at short ⊢
      have own := @length_nested number 4 (encode item) small (by decide) (by omega)
      have others := ih (by omega)
      omega

variable {complete : Bool}

theorem size_plan {positions : List Position}
    (short : 16 + (positions.map fun position => position.encode.length + 6).sum ≤ 8 * 2 ^ 20)
    : (Packet.plan positions complete).size
      ≤ 16 + (positions.map fun position => position.encode.length + 6).sum := by
  have messages := @length_messages _ 1 (by decide) Position.encode positions (by omega)
  have flag := (length_write (2, .number complete.toNat)).trans
    (@length_number 2 1 complete.toNat (by decide) (by decide) (by cases complete <;> decide))
  have whole := @length_nested 3 4
    (positions.flatMap (fun position => nested 1 position.encode)
      ++ write [(2, .number complete.toNat)]) (by decide) (by decide)
    (by rw [List.length_append]; omega)
  rw [Packet.size, Packet.encode]
  rw [List.length_append] at whole
  omega

theorem size_snapshot {entries : List Entry}
    (short : (encodeScope scope).length + 32
      + (entries.map fun entry => entry.encode.length + 6).sum ≤ 8 * 2 ^ 20)
    : (Packet.snapshot scope version entries complete).size
      ≤ (encodeScope scope).length + 32 + (entries.map fun entry => entry.encode.length + 6).sum := by
  have messages := @length_messages _ 2 (by decide) Entry.encode entries (by omega)
  have flag := (length_write (3, .number complete.toNat)).trans
    (@length_number 3 1 complete.toNat (by decide) (by decide) (by cases complete <;> decide))
  have number := @length_number 4 10 version.toNat (by decide) (by decide)
    (version.toNat_lt.trans (by decide))
  have address := @length_nested 1 4 (encodeScope scope) (by decide) (by decide) (by omega)
  have whole := @length_nested 4 4
    (nested 1 (encodeScope scope) ++ entries.flatMap (fun entry => nested 2 entry.encode)
      ++ write [(3, .number complete.toNat)] ++ writeField (4, .number version.toNat))
    (by decide) (by decide) (by simp only [List.length_append]; omega)
  rw [Packet.size, Packet.encode]
  simp only [List.length_append] at whole
  omega

theorem size_updates {patches : List Patch}
    (short : (nested 1 (encodeScope scope)).length + 16
      + (patches.map fun patch => patch.encode.length + 6).sum ≤ 8 * 2 ^ 20)
    : (Packet.updates scope patches).size ≤ (nested 1 (encodeScope scope)).length + 16
        + (patches.map fun patch => patch.encode.length + 6).sum := by
  have messages := @length_messages _ 2 (by decide) Patch.encode patches (by omega)
  have whole := @length_nested 5 4
    (nested 1 (encodeScope scope) ++ patches.flatMap (fun patch => nested 2 patch.encode))
    (by decide) (by decide) (by rw [List.length_append]; omega)
  rw [Packet.size, Packet.encode]
  rw [List.length_append] at whole
  omega

/-- A scope is small. -/
theorem length_encodeScope (valid : scope.valid = true) : (encodeScope scope).length ≤ 262 := by
  simp only [Scope.valid, Scope.text, Bool.and_eq_true, decide_eq_true_eq] at valid
  have sector := @length_nested 1 2 scope.sector (by decide) (by decide) (by omega)
  have spectrum := @length_nested 2 2 scope.spectrum (by decide) (by decide) (by omega)
  have parts : (encodeScope scope).length
      ≤ (nested 1 scope.sector).length + (nested 2 scope.spectrum).length := by
    unfold encodeScope write nested
    cases first : (Protobuf.Value.bytes scope.sector).default <;>
      cases second : (Protobuf.Value.bytes scope.spectrum).default <;> simp [first, second]
  omega

theorem length_position {position : Position} (valid : position.scope.valid = true)
    : position.encode.length ≤ 276 := by
  have address := @length_nested 1 2 (encodeScope position.scope) (by decide) (by decide)
    ((length_encodeScope valid).trans_lt (by decide))
  have number := (length_write (2, .number position.version.toNat)).trans
    (@length_number 2 10 position.version.toNat (by decide) (by decide)
      (position.version.toNat_lt.trans (by decide)))
  have scope := length_encodeScope valid
  rw [Position.encode, List.length_append]
  omega

namespace Transfer

-- Frames

/-- What handling frames does to the window: credits go, and their bytes with them. -/
structure Loosens (transfer next : Transfer) : Prop where
  credits : next.credits.Sublist transfer.credits
  bytes : transfer.bytes = total transfer.credits → next.bytes = total next.credits
  maximum : next.maximum = transfer.maximum
  wire : next.wire = transfer.wire

structure Listens (transfer : Transfer) (result : Result) : Prop where
  loosens : transfer.Loosens result.2
  quiet : result.1 ≠ some .frame

theorem Loosens.refl (transfer : Transfer) : transfer.Loosens transfer :=
  ⟨.refl _, fun same => same, rfl, rfl⟩

theorem Loosens.trans (one : transfer.Loosens middle) (other : middle.Loosens next)
    : transfer.Loosens next :=
  ⟨other.credits.trans one.credits, fun same => other.bytes (one.bytes same),
    other.maximum.trans one.maximum, other.wire.trans one.wire⟩

theorem Listens.of_loosens {failure : Option Failure} (loosens : transfer.Loosens next)
    (quiet : failure ≠ some .frame)
    : transfer.Listens (failure, next) :=
  ⟨loosens, quiet⟩

variable {result : Result} {go : Transfer → Result}

theorem Listens.andThen (listens : transfer.Listens result)
    (further : ∀ middle : Transfer, middle.Listens (go middle))
    : transfer.Listens (andThen result go) := by
  obtain ⟨failure, middle⟩ := result
  cases failure with
  | some failure => exact listens
  | none => exact ⟨listens.loosens.trans (further middle).loosens, (further middle).quiet⟩

theorem released_eq (scope : Scope) (version : UInt64) (credits : List Credit) (bytes : Int)
    : released scope version credits bytes
      = (credits.filter fun item => !item.covered scope version,
        bytes - total (credits.filter (·.covered scope version))) := by
  induction credits generalizing bytes with
  | nil => simp [released, total]
  | cons item rest ih =>
      rw [released]
      split
      next covered => simp [ih, covered, total, sub_sub]
      next stays => simp [ih, stays, total]

theorem install_credits (transfer : Transfer) (scope : Scope) (version : UInt64)
    : (transfer.install scope version).credits
      = transfer.credits.filter fun item => !item.covered scope version := by
  simp [install, release, released_eq]

theorem install_loosens (transfer : Transfer) (scope : Scope) (version : UInt64)
    : transfer.Loosens (transfer.install scope version) where
  credits := by
    rw [install_credits]
    exact List.filter_sublist
  bytes same := by
    rw [install_credits]
    simp only [install, release, released_eq, same, total]
    induction transfer.credits with
    | nil => rfl
    | cons item rest ih =>
        cases covered : item.covered scope version <;> simp [covered] at ih ⊢ <;> omega
  maximum := rfl
  wire := rfl

variable {failure : Failure}

theorem collect_quiet {scopes : Nat} {positions : List (Option Scope × UInt64)}
    {target : Assoc Scope UInt64} (refused : collect scopes positions target = .error failure)
    : failure ≠ .frame := by
  induction positions generalizing target with
  | nil => cases refused
  | cons position rest ih =>
      obtain ⟨address, version⟩ := position
      cases address with
      | none =>
          cases refused
          decide
      | some scope =>
          rw [collect] at refused
          split at refused
          · cases refused
            decide
          split at refused
          · cases refused
            decide
          · exact ih refused

theorem confirm_listens (positions : List (Scope × UInt64)) (transfer : Transfer)
    : transfer.Listens (confirm positions transfer) := by
  induction positions generalizing transfer with
  | nil => exact .of_loosens (.refl _) nofun
  | cons position rest ih =>
      obtain ⟨scope, version⟩ := position
      rw [confirm]
      split
      · exact .of_loosens (.refl _) nofun
      · have further := ih (transfer.install scope version)
        exact ⟨(install_loosens transfer scope version).trans further.loosens, further.quiet⟩

theorem control_listens (transfer : Transfer) (frame : Frame)
    : transfer.Listens (transfer.control frame) := by
  unfold control
  split
  · split
    · exact .of_loosens (.refl _) (by rintro ⟨⟩)
    · exact .of_loosens (install_loosens _ _ _) (by rintro ⟨⟩)
  · split
    · exact .of_loosens (.refl _) (by rintro ⟨⟩)
    split
    next refused =>
      exact .of_loosens (.refl _) fun same => collect_quiet refused (Option.some.inj same)
    rename_i probe _
    have noted : transfer.Loosens { transfer with probe := some probe } :=
      ⟨.refl _, fun same => same, rfl, rfl⟩
    dsimp only
    split
    · exact .of_loosens noted (by rintro ⟨⟩)
    split
    · exact .of_loosens noted (by rintro ⟨⟩)
    · have confirmed := confirm_listens probe.toPairs { transfer with probe := some probe }
      refine Listens.andThen ⟨noted.trans confirmed.loosens, confirmed.quiet⟩ fun middle => ?_
      exact .of_loosens ⟨.refl _, fun same => same, rfl, rfl⟩ (by rintro ⟨⟩)
  · exact .of_loosens (.refl _) (by rintro ⟨⟩)

/-- Afterwards there is room, unless the stream has ended. -/
theorem await_spec (cost : Nat) (items : List (Option Frame)) (transfer : Transfer)
    : transfer.Listens (await cost items transfer)
      ∧ ((await cost items transfer).1 = none → (await cost items transfer).2.full cost = false) := by
  induction items generalizing transfer with
  | nil =>
      have emptied : transfer.Loosens { transfer with input := [] } :=
        ⟨.refl _, fun same => same, rfl, rfl⟩
      rw [await]
      cases full : transfer.full cost with
      | true => exact ⟨.of_loosens emptied nofun, nofun⟩
      | false => exact ⟨.of_loosens emptied nofun, fun _ => full⟩
  | cons item rest ih =>
      unfold await
      split
      · cases item with
        | none => exact ⟨.of_loosens (.refl _) nofun, nofun⟩
        | some frame =>
            refine ⟨(control_listens transfer frame).andThen fun middle => (ih middle).1, ?_⟩
            dsimp only
            generalize transfer.control frame = result
            obtain ⟨failure, middle⟩ := result
            cases failure with
            | some failure => exact nofun
            | none => exact (ih middle).2
      next room =>
        exact ⟨.of_loosens ⟨.refl _, fun same => same, rfl, rfl⟩ nofun,
          fun _ => Bool.not_eq_true _ |>.mp room⟩

theorem take_listens (count : Nat) (transfer : Transfer) : transfer.Listens (take count transfer) := by
  induction count generalizing transfer with
  | zero => exact .of_loosens (.refl _) nofun
  | succ count ih =>
      unfold take
      split
      · exact .of_loosens (.refl _) nofun
      · exact .of_loosens (.refl _) nofun
      rename_i frame rest _
      have taken : transfer.Loosens { transfer with input := rest } :=
        ⟨.refl _, fun same => same, rfl, rfl⟩
      have listens := control_listens { transfer with input := rest } frame
      exact Listens.andThen ⟨taken.trans listens.loosens, listens.quiet⟩ ih

theorem drain_listens (transfer : Transfer) : transfer.Listens transfer.drain := by
  have listens := take_listens (min 16 (transfer.arrived.headD 0))
    { transfer with arrived := transfer.arrived.tail }
  have looked : transfer.Loosens { transfer with arrived := transfer.arrived.tail } :=
    ⟨.refl _, fun same => same, rfl, rfl⟩
  exact ⟨looked.trans listens.loosens, listens.quiet⟩

-- The window

theorem Loosens.total_le (loosens : transfer.Loosens next)
    : total next.credits ≤ total transfer.credits := by
  have less := (loosens.credits.map Credit.bytes).sum_le_sum fun _ _ => Nat.zero_le _
  exact Int.ofNat_le.mpr less

theorem Within.loosens (within : transfer.Within) (loosens : transfer.Loosens next) : next.Within := by
  have bytes := loosens.bytes within.bytes
  have fewer := loosens.credits.length_le
  have less := loosens.total_le
  refine ⟨bytes, fewer.trans within.count, ?_, ?_⟩
  · rcases within.room with room | alone
    · rw [within.bytes] at room
      exact .inl (bytes ▸ less.trans room)
    · cases isCredits : next.credits with
      | nil =>
          rw [bytes, isCredits]
          exact .inl (by decide)
      | cons item rest =>
          rw [isCredits, alone] at fewer
          exact .inr (by simpa using fewer)
  · rw [loosens.wire, loosens.maximum]
    exact within.small

/-- There is room, and if frames are handled there is more. -/
theorem roomy (within : transfer.Within) (room : transfer.full cost = false)
    (loosens : transfer.Loosens next)
    : next.full cost = false := by
  have fewer := loosens.credits.length_le
  have less := loosens.total_le
  rw [← loosens.bytes within.bytes, ← within.bytes] at less
  cases isCredits : next.credits with
  | nil => simp [full, isCredits]
  | cons item rest =>
      have filled : transfer.credits ≠ [] := by
        intro empty
        simp [empty, isCredits] at fewer
      rw [isCredits, List.length_cons] at fewer
      simp [full, isCredits, filled] at room ⊢
      omega

theorem Within.charge (within : transfer.Within) (room : transfer.full cost = false) (scope : Scope)
    (version : UInt64)
    : (transfer.charge scope version cost).Within := by
  refine ⟨?_, ?_, ?_, within.small⟩
  · simp [Transfer.charge, total, within.bytes]
  · cases isCredits : transfer.credits with
    | nil => simp [Transfer.charge, isCredits]
    | cons item rest =>
        simp [full, isCredits] at room
        simp only [Transfer.charge, isCredits, List.length_append, List.length_cons, List.length_nil]
        omega
  · cases isCredits : transfer.credits with
    | nil => exact .inr (by simp [Transfer.charge, isCredits])
    | cons item rest =>
        simp [full, isCredits] at room
        refine .inl ?_
        simp only [Transfer.charge]
        omega

-- Sending

def Keeps (maximum : Nat) (transfer : Transfer) : Prop :=
  transfer.Within ∧ transfer.maximum = maximum

/-- A packet that is sent fits; one that does not is refused for it. -/
theorem send_emits (within : transfer.Within) (packet : Packet)
    : Emits (fun next => next.Within ∧ next.maximum = transfer.maximum ∧ next.credits = transfer.credits
        ∧ next.bytes = transfer.bytes)
      (fun failure => failure = .frame → transfer.maximum < packet.size) wire packet transfer
      (transfer.send packet) := by
  unfold send
  split
  · exact ⟨⟨within, rfl, rfl, rfl⟩, by rintro _ ⟨⟩; nofun, .inl rfl, nofun⟩
  split
  next large => exact ⟨⟨within, rfl, rfl, rfl⟩, by rintro _ ⟨⟩ _; exact large, .inl rfl, nofun⟩
  rename_i small
  refine ⟨⟨⟨within.bytes, within.count, within.room, fun sent listed => ?_⟩, rfl, rfl, rfl⟩, nofun,
    .inr rfl, fun _ => rfl⟩
  rcases List.mem_append.mp listed with earlier | new
  · exact within.small sent earlier
  · rw [List.mem_singleton.mp new]
    exact Nat.not_lt.mp small

variable {maximum : Nat}

theorem Keeps.loosens (keeps : transfer.Keeps maximum) (loosens : transfer.Loosens next)
    : next.Keeps maximum :=
  ⟨keeps.1.loosens loosens, loosens.maximum.trans keeps.2⟩

variable {Fails : Failure → Prop}

/-- Frames that are handled after a page change nothing of what was sent. -/
theorem listen_after {Kept : Transfer → Prop} {packet : Packet}
    (emits : Emits Kept Fails wire packet transfer result)
    (listens : ∀ middle : Transfer, middle.Listens (go middle))
    (keeps : ∀ middle last : Transfer, Kept middle → middle.Loosens last → Kept last)
    (quiet : ∀ failure, failure ≠ .frame → Fails failure)
    : Emits Kept Fails wire packet transfer (andThen result go) := by
  obtain ⟨failure, middle⟩ := result
  cases failure with
  | some failure => exact emits
  | none =>
      have listens := listens middle
      have sent := listens.loosens.wire.trans (emits.sent rfl)
      exact ⟨keeps _ _ emits.kept listens.loosens, fun failure failed => quiet failure fun same =>
        listens.quiet (failed.trans (congrArg some same)), .inr sent, fun _ => sent⟩

theorem pause_listens (complete : Bool) (transfer : Transfer)
    : transfer.Listens (if complete then (none, transfer) else transfer.drain) := by
  split
  · exact .of_loosens (.refl _) nofun
  · exact drain_listens transfer

/-- A plan: a page is refused for its size only if a scope is none. -/
theorem manifest_sends (within : transfer.Within)
    (capacity : 1024 ≤ transfer.maximum ∧ transfer.maximum ≤ 8 * 2 ^ 20) (positions : List Position)
    : Sends (Keeps transfer.maximum)
        (fun failure => failure = .frame → ∃ position ∈ positions, position.scope.valid = false) wire
        Packet.plan positions transfer (transfer.manifest positions) := by
  have emits (page : List Position) (complete : Bool) (state : Transfer)
      (keeps : state.Keeps transfer.maximum)
      (good : (planPages transfer.maximum).Good (· ∈ positions) True page)
      : Emits (Keeps transfer.maximum)
          (fun failure => failure = .frame → ∃ position ∈ positions, position.scope.valid = false) wire
          (.plan page complete) state (state.send (.plan page complete)) := by
    have emits := send_emits keeps.1 (.plan page complete)
    refine ⟨⟨emits.kept.1, emits.kept.2.1.trans keeps.2⟩, fun failure failed same => ?_, emits.logged,
      emits.sent⟩
    have large := emits.failed failure failed same
    rw [keeps.2] at large
    have reckoned : transfer.maximum < (planPages transfer.maximum).size page := by
      by_contra small
      exact absurd (size_plan ((Nat.not_lt.mp small).trans capacity.2)) (by
        have := Nat.not_lt.mp small
        exact Nat.not_le.mpr (this.trans_lt large))
    rcases good.fits with rfl | fits | ⟨position, rfl, listed⟩
    · simp [Pages.size, planPages] at reckoned
      omega
    · exact absurd (fits.trans (Nat.min_le_left _ _)) (Nat.not_le.mpr reckoned)
    · refine ⟨position, listed, Bool.not_eq_true _ |>.mp fun valid => ?_⟩
      have least := length_position valid
      simp [Pages.size, planPages] at reckoned
      omega
  exact Pages.pack_all emits (by intros; contradiction) (fun _ listed _ => listed)
    ⟨within, rfl⟩ fun _ => trivial

/-- The pages of a snapshot, however they are sent: each fits. -/
theorem pages_sends {State Message : Type} {Kept : State → Prop} {Fails : Failure → Prop}
    {log : State → List Message} {message : List Entry → Bool → Message} {state : State}
    {send : List Entry → Bool → State → Option Failure × State} {maximum : Nat} (snapshot : Snapshot)
    (emits : ∀ page complete state, Kept state
      → (snapshot.scope.valid = true
        → (Packet.snapshot snapshot.scope snapshot.version page complete).size ≤ maximum)
      → Emits Kept Fails log (message page complete) state (send page complete state))
    (kept : Kept state) (capacity : Fails .capacity) (record : Fails .record)
    : Sends Kept Fails log message snapshot.entries state (pages snapshot maximum send state) := by
  unfold pages
  split
  · exact .refused kept capacity
  rename_i within
  simp only [not_or, Nat.not_lt] at within
  refine @Pages.pack_all _ _ _ _ (snapshot.pages maximum) Kept Fails log message
    (fun entry => (snapshot.pages maximum).size [entry] ≤ maximum) True send snapshot.entries state
    (fun page complete state keeps good => emits page complete state keeps fun valid => ?_) ?_ ?_ kept
    fun _ => trivial
  · have reckoned : (snapshot.pages maximum).size page ≤ maximum := by
      rcases good.fits with rfl | fits | ⟨entry, rfl, small⟩
      · have least := length_encodeScope valid
        simp only [Pages.size, Snapshot.pages, List.map_nil, List.sum_nil]
        omega
      · exact fits.trans (Nat.min_le_left _ _)
      · exact small
    exact (size_snapshot (reckoned.trans within.2)).trans reckoned
  · intro entry _ failure refused
    simp only [Snapshot.pages] at refused
    split at refused
    · cases refused
      exact record
    · cases refused
  · intro entry _ accepted
    simp only [Snapshot.pages] at accepted
    split at accepted
    · cases accepted
    · simp only [Pages.size, Snapshot.pages, List.map_cons, List.map_nil, List.sum_cons, List.sum_nil]
      omega

/-- Nothing was sent when the stream ended. -/
theorem Listens.sends {Item : Type} {message : List Item → Bool → Packet} {items : List Item}
    (keeps : transfer.Keeps maximum) (listens : transfer.Listens (some failure, next))
    (quiet : ∀ failure, failure ≠ .frame → Fails failure)
    : Sends (Keeps maximum) Fails wire message items transfer (some failure, next) := by
  have wire : next.wire = transfer.wire := listens.loosens.wire
  refine ⟨keeps.loosens listens.loosens, ?_, ⟨[], by simp [wire], List.nil_prefix⟩, nofun⟩
  rintro _ ⟨⟩
  exact quiet failure fun same => listens.quiet (congrArg some same)

theorem snapshot_sends (within : transfer.Within) (snapshot : Snapshot)
    : Sends (Keeps transfer.maximum) (fun failure => failure = .frame → snapshot.scope.valid = false)
        wire (Packet.snapshot snapshot.scope snapshot.version) snapshot.entries transfer
        (transfer.snapshot snapshot) := by
  have quiet (failure : Failure) (other : failure ≠ .frame)
      : failure = .frame → snapshot.scope.valid = false := fun same => absurd same other
  unfold Transfer.snapshot budget
  obtain ⟨listens, room⟩ := await_spec snapshot.cost transfer.input transfer
  generalize await snapshot.cost transfer.input transfer = result at listens room
  obtain ⟨failure, middle⟩ := result
  cases failure with
  | some failure => exact listens.sends ⟨within, rfl⟩ quiet
  | none =>
      have keeps : middle.Keeps transfer.maximum := Keeps.loosens ⟨within, rfl⟩ listens.loosens
      have sends := @pages_sends Transfer Packet
        (fun next => next.Keeps transfer.maximum ∧ next.full snapshot.cost = false)
        (fun failure => failure = .frame → snapshot.scope.valid = false) wire
        (Packet.snapshot snapshot.scope snapshot.version) middle (page snapshot) transfer.maximum
        snapshot ?_ ⟨keeps, room rfl⟩ nofun nofun
      · rw [Pages.andThen_none, keeps.2]
        generalize pages snapshot transfer.maximum (page snapshot) middle = result at sends
        obtain ⟨failure, last⟩ := result
        have wire : middle.wire = transfer.wire := listens.loosens.wire
        cases failure with
        | some failure => exact ⟨sends.kept.1, sends.failed, wire ▸ sends.part, nofun⟩
        | none =>
            exact ⟨⟨sends.kept.1.1.charge sends.kept.2 _ _, sends.kept.1.2⟩, nofun, wire ▸ sends.part,
              fun _ => wire ▸ sends.all rfl⟩
      · intro page complete state kept small
        refine listen_after ?_ (pause_listens complete) ?_ quiet
        · have emits := send_emits kept.1.1 (.snapshot snapshot.scope snapshot.version page complete)
          obtain ⟨stays, maximum, credits, bytes⟩ := emits.kept
          refine ⟨⟨⟨stays, maximum.trans kept.1.2⟩, ?_⟩, fun failure failed same => ?_, emits.logged,
            emits.sent⟩
          · have room := kept.2
            simpa only [full, credits, bytes] using room
          · refine Bool.not_eq_true _ |>.mp fun valid => ?_
            exact absurd (small valid) (Nat.not_le.mpr (kept.1.2 ▸ emits.failed failure failed same))
        · intro middle last kept loosens
          exact ⟨kept.1.loosens loosens, roomy kept.1.1 kept.2 loosens⟩

/-- One page of patches. -/
theorem updates_emits (keeps : transfer.Keeps maximum) (scope : Scope) (page : List Patch)
    : Emits (Keeps maximum) (fun failure => failure = .frame → maximum < (Packet.updates scope page).size)
        wire (.updates scope page) transfer (transfer.updates scope page) := by
  unfold updates budget
  dsimp only
  obtain ⟨listens, room⟩ := await_spec (Packet.updates scope page).size transfer.input transfer
  generalize await (Packet.updates scope page).size transfer.input transfer = result at listens room
  obtain ⟨failure, middle⟩ := result
  have kept := keeps.loosens listens.loosens
  cases failure with
  | some failure =>
      refine ⟨kept, ?_, .inl listens.loosens.wire, nofun⟩
      rintro _ ⟨⟩ same
      exact absurd (congrArg some same) listens.quiet
  | none =>
      have emits := send_emits kept.1 (.updates scope page)
      have room := room rfl
      dsimp only [andThen]
      generalize middle.send (.updates scope page) = result at emits
      obtain ⟨failure, last⟩ := result
      obtain ⟨stays, same, credits, bytes⟩ := emits.kept
      have wire := listens.loosens.wire
      cases failure with
      | some failure =>
          refine ⟨⟨stays, same.trans kept.2⟩, ?_, wire ▸ emits.logged, nofun⟩
          rintro _ ⟨⟩ same
          exact kept.2 ▸ emits.failed failure rfl same
      | none =>
          have room : last.full (Packet.updates scope page).size = false := by
            dsimp only at credits bytes
            simpa only [full, credits, bytes] using room
          exact ⟨⟨stays.charge room _ _, same.trans kept.2⟩, nofun, .inr (wire ▸ emits.sent rfl),
            fun _ => wire ▸ emits.sent rfl⟩

/-- Patches: a page is refused for its size only if it is a single patch. -/
theorem update_sends (within : transfer.Within) (capacity : transfer.maximum ≤ 8 * 2 ^ 20)
    (scope : Scope) {changes : List Patch} (filled : changes ≠ [])
    : Sends (Keeps transfer.maximum)
        (fun failure => failure = .frame
          → ∃ patch ∈ changes, transfer.maximum < (Packet.updates scope [patch]).size)
        wire (fun page _ => .updates scope page) changes transfer (transfer.update scope changes) := by
  refine @Pages.pack_all _ _ _ _ (updatePages transfer.maximum scope) _ _ _ _ (· ∈ changes) False _ _ _
    (fun page complete state keeps good => ?_) nofun (fun _ listed _ => listed) ⟨within, rfl⟩ filled
  have isPage : page.isEmpty = false := List.isEmpty_eq_false_iff.mpr good.filled
  simp only [isPage, Bool.false_eq_true, if_false]
  refine listen_after ?_ (pause_listens complete) (fun _ _ keeps => keeps.loosens)
    fun _ other same => absurd same other
  have emits := updates_emits keeps scope page
  refine ⟨emits.kept, fun failure failed same => ?_, emits.logged, emits.sent⟩
  have large := emits.failed failure failed same
  rcases good.fits with rfl | fits | ⟨patch, rfl, listed⟩
  · exact absurd rfl good.filled
  · have small := fits.trans (Nat.min_le_left _ _)
    exact absurd ((size_updates (small.trans capacity)).trans small) (Nat.not_le.mpr large)
  · exact ⟨patch, listed, large⟩

-- Runs

def Sound (transfer : Transfer) : Prop :=
  transfer.Within ∧ 1024 ≤ transfer.maximum ∧ transfer.maximum ≤ 8 * 2 ^ 20

theorem Sound.of_keeps (keeps : next.Keeps maximum)
    (capacity : 1024 ≤ maximum ∧ maximum ≤ 8 * 2 ^ 20)
    : next.Sound :=
  ⟨keeps.1, keeps.2 ▸ capacity⟩

theorem Sound.loosens (sound : transfer.Sound) (loosens : transfer.Loosens next) : next.Sound :=
  .of_keeps (Keeps.loosens ⟨sound.1, rfl⟩ loosens) sound.2

/-- What one step keeps. Witness: one case for each of them. -/
theorem Sound.perform (sound : transfer.Sound) (step : Step) : (transfer.perform step).2.Sound := by
  cases step with
  | manifest positions =>
      exact .of_keeps (manifest_sends sound.1 sound.2 positions).kept sound.2
  | update scope changes =>
      cases changes with
      | nil => exact sound
      | cons change rest =>
          exact .of_keeps (update_sends sound.1 sound.2.2 scope (List.cons_ne_nil change rest)).kept
            sound.2
  | snapshot snapshot => exact .of_keeps (snapshot_sends sound.1 snapshot).kept sound.2
  | drain => exact sound.loosens (drain_listens transfer).loosens
  | next => exact sound.loosens (take_listens 1 transfer).loosens
  | assess =>
      change transfer.assess.2.Sound
      unfold assess
      split
      · exact sound
      have asked : transfer.Loosens { transfer with probe := some ∅, floor := transfer.installed } :=
        ⟨.refl _, fun same => same, rfl, rfl⟩
      have middle := sound.loosens asked
      have emits := send_emits middle.1 .probe
      exact .of_keeps ⟨emits.kept.1, emits.kept.2.1⟩ middle.2
  | examine authoritative =>
      change (transfer.examine authoritative).2.Sound
      unfold examine
      split
      · exact sound
      split
      · exact sound
      · exact sound.loosens ⟨.refl _, fun same => same, rfl, rfl⟩
  | settle => exact sound.loosens ⟨.refl _, fun same => same, rfl, rfl⟩

theorem sound_of_run {start : Transfer} {steps : List Step} (fresh : start.Fresh)
    (reached : run act start steps = some transfer)
    : transfer.Sound := by
  refine @run_invariant _ _ act Sound ?_ _ _ steps ⟨⟨?_, ?_, .inl ?_, ?_⟩, fresh.capacity⟩ reached
  · intro state step next sound acted
    unfold act at acted
    split at acted
    · cases acted
    · cases acted
      exact (sound.perform step).loosens ⟨.refl _, fun same => same, rfl, rfl⟩
  · rw [fresh.bytes, fresh.credits]
    rfl
  · simp [fresh.credits]
  · simp [fresh.bytes]
  · simp [fresh.wire]

/-- What an acknowledgement does. -/
theorem acknowledge_spec (within : transfer.Within) (scope : Scope) (version : UInt64)
    : (scope.valid = true → transfer.reached scope version = true
        → (transfer.control (.acknowledged (some scope) version)).1 = none
        ∧ (transfer.control (.acknowledged (some scope) version)).2.credits
          = transfer.credits.filter (fun item => !item.covered scope version)
        ∧ (transfer.control (.acknowledged (some scope) version)).2.bytes
          = total (transfer.credits.filter fun item => !item.covered scope version))
      ∧ (transfer.reached scope version = false
        → transfer.control (.acknowledged (some scope) version) = (some .exceeded, transfer)) := by
  refine ⟨fun valid sent => ?_, fun beyond => by simp [control, beyond]⟩
  rw [show transfer.control (.acknowledged (some scope) version)
    = (none, transfer.install scope version) by simp [control, valid, sent]]
  have credits := install_credits transfer scope version
  exact ⟨rfl, credits, credits ▸ (install_loosens transfer scope version).bytes within.bytes⟩

end Transfer

open Transfer

/-- In every run of a stream: what is in flight is what the credits say, at most 128 of them and 8 MiB,
unless a larger one is alone; whatever is sent is not too large for the receiver. An acknowledgement
gives back the credits of its scope up to its version, and is refused if it is beyond what was sent. The
pages of a plan, a snapshot and of updates have everything once and in order, or the first of it if the
stream ends; a page is refused for its size only if a scope is none, or a single patch is too large.
-/
theorem window_law {start : Transfer} {steps : List Step} (fresh : start.Fresh)
    (reached : run act start steps = some transfer)
    : transfer.Within
      ∧ (∀ scope version,
        (scope.valid = true → transfer.reached scope version = true
          → (transfer.control (.acknowledged (some scope) version)).1 = none
          ∧ (transfer.control (.acknowledged (some scope) version)).2.credits
            = transfer.credits.filter (fun item => !item.covered scope version)
          ∧ (transfer.control (.acknowledged (some scope) version)).2.bytes
            = total (transfer.credits.filter fun item => !item.covered scope version))
        ∧ (transfer.reached scope version = false
          → transfer.control (.acknowledged (some scope) version) = (some .exceeded, transfer)))
      ∧ (∀ positions,
        Sends (fun next => next.Within)
          (fun failure => failure = .frame → ∃ position ∈ positions, position.scope.valid = false) wire
          Packet.plan positions transfer (transfer.manifest positions))
      ∧ (∀ snapshot,
        Sends (fun next => next.Within)
          (fun failure => failure = .frame → snapshot.scope.valid = false) wire
          (Packet.snapshot snapshot.scope snapshot.version) snapshot.entries transfer
          (transfer.snapshot snapshot))
      ∧ (∀ scope changes, changes ≠ []
        → Sends (fun next => next.Within)
          (fun failure => failure = .frame
            → ∃ patch ∈ changes, transfer.maximum < (Packet.updates scope [patch]).size)
          wire (fun page _ => .updates scope page) changes transfer (transfer.update scope changes))
      ∧ ∀ (snapshot : Snapshot) (maximum : Nat), snapshot.scope.valid = true → Sends
          (fun sent : List (List Entry × Bool) => ∀ page ∈ sent,
            (Packet.snapshot snapshot.scope snapshot.version page.1 page.2).size ≤ maximum)
          (fun failure => failure = .capacity ∨ failure = .record) id Prod.mk snapshot.entries []
          (pages snapshot maximum (fun page complete sent => (none, sent ++ [(page, complete)])) []) := by
  have sound := sound_of_run fresh reached
  refine ⟨sound.1, fun scope version => acknowledge_spec sound.1 scope version, fun positions => ?_,
    fun snapshot => ?_, fun scope changes filled => ?_, fun snapshot maximum valid => ?_⟩
  · have sends := manifest_sends sound.1 sound.2 positions
    exact ⟨sends.kept.1, sends.failed, sends.part, sends.all⟩
  · have sends := snapshot_sends sound.1 snapshot
    exact ⟨sends.kept.1, sends.failed, sends.part, sends.all⟩
  · have sends := update_sends sound.1 sound.2.2 scope filled
    exact ⟨sends.kept.1, sends.failed, sends.part, sends.all⟩
  · refine pages_sends snapshot (fun page complete sent kept small => ?_) (by simp) (.inl rfl) (.inr rfl)
    refine ⟨fun other listed => ?_, nofun, .inr rfl, fun _ => rfl⟩
    rcases List.mem_append.mp listed with earlier | new
    · exact kept other earlier
    · rw [List.mem_singleton.mp new]
      exact small valid

/-- One patch is sent, and is in flight. -/
theorem window_law_patch
    : let scope : Scope := ⟨[97], [98]⟩
      let start : Transfer := { maximum := 1024, scopes := 1, links := 1, sent := Assoc.set ∅ scope 0 }
      ∃ transfer, run act start [.update scope [⟨1, [107], some [118]⟩]] = some transfer
        ∧ transfer.Within := by
  intro scope start
  have fresh : start.Fresh := ⟨rfl, rfl, rfl, by decide⟩
  obtain ⟨transfer, reached⟩
      : ∃ transfer, run act start [.update scope [⟨1, [107], some [118]⟩]] = some transfer := ⟨_, rfl⟩
  exact ⟨transfer, reached, (window_law fresh reached).1⟩

end Polaris.Window
