import Verdandi.Pulsar.Coding

/-! The ledger accepts every database that a history of registrations leads to, and restores what
they say.
-/

namespace Astra.Ledger

open Support

-- Histories

structure Commit where
  request : Bytes
  member : Member

/-- The current members after some starts, the newest of which stands first. -/
def book : List Commit → Assoc Bytes Member
  | [] => ∅
  | commit :: earlier => (book earlier).set commit.member.principal.text commit.member

def requests : List Commit → Assoc Bytes Start
  | [] => ∅
  | commit :: earlier =>
      (requests earlier).set commit.request
        { principal := commit.member.principal.text, epoch := commit.member.epoch }

def payload (library : Library) (member : Member) : Bytes := library.serialize (encode member)

structure Admits (library : Library) (config : Config) (commits : List Commit)
    (request : Bytes) (member : Member)
    : Prop where
  valid : member.validate library.net = .ok ()
  galaxy : member.galaxy = config.galaxy
  length : request.length = 32
  fresh : (requests commits).get? request = none
  room : commits.length < config.maximumStarts
  follows
    : member.epoch = ((book commits).get? member.principal.text).elim 0 Member.epoch + 1
  small : member.epoch ≤ maxWord
  same : ∀ old, (book commits).get? member.principal.text = some old
    → old.role = member.role ∧ old.address = member.address ∧ old.id ≠ member.id
  other : ∀ principal current, (book commits).get? principal = some current
    → principal ≠ member.principal.text
    → current.id ≠ member.id ∧ current.address ≠ member.address
  capacity : (book commits).get? member.principal.text = none
    → roleCount (book commits) member.role < config.maximum
  written
    : (payload library member).isEmpty = false ∧ (payload library member).length ≤ 1024

inductive History (library : Library) (config : Config) : List Commit → Prop where
  | empty : History library config []
  | commit {commits : List Commit} {request : Bytes} {member : Member}
      (history : History library config commits)
      (admits : Admits library config commits request member)
      : History library config ({ request, member } :: commits)

variable {library : Library} {config : Config} {commits : List Commit}

structure Sitting (library : Library) (config : Config) (principal : Bytes) (member : Member)
    : Prop where
  named : member.principal.text = principal
  valid : member.validate library.net = .ok ()
  galaxy : member.galaxy = config.galaxy
  small : member.epoch ≤ maxWord
  written : (payload library member).isEmpty = false ∧ (payload library member).length ≤ 1024

variable {principal : Bytes} {member : Member}

theorem History.sitting (history : History library config commits)
    (current : (book commits).get? principal = some member)
    : Sitting library config principal member := by
  induction history with
  | empty => cases current
  | commit _ admits ih =>
      rw [book, Assoc.get?_set] at current
      split at current
      next same =>
        cases current
        exact ⟨same.symm, admits.valid, admits.galaxy, admits.small, admits.written⟩
      · exact ih current

/-- No two current members share an id or an address. -/
theorem History.distinct (history : History library config commits) {one two : Bytes}
    {first second : Member} (isFirst : (book commits).get? one = some first)
    (isSecond : (book commits).get? two = some second) (different : one ≠ two)
    : first.id ≠ second.id ∧ first.address ≠ second.address := by
  induction history with
  | empty => cases isFirst
  | commit _ admits ih =>
      rw [book, Assoc.get?_set] at isFirst isSecond
      split at isFirst
      next newest =>
        cases isFirst
        rw [if_neg (fun again => different (newest.trans again.symm))] at isSecond
        have apart := admits.other two second isSecond (newest ▸ different.symm)
        exact ⟨apart.1.symm, apart.2.symm⟩
      rename_i older
      split at isSecond
      next newest =>
        cases isSecond
        exact admits.other one first isFirst older
      · exact ih isFirst isSecond

theorem roleCount_congr {left right : Assoc Bytes Member} (same : left.get? = right.get?)
    (role : Member.Role)
    : roleCount left role = roleCount right role := by
  apply Assoc.size_congr
  funext key
  rw [Assoc.get?_filter, Assoc.get?_filter, same]

/-- The members of a role are within their bound. -/
theorem History.bounded (history : History library config commits) (role : Member.Role)
    : roleCount (book commits) role ≤ config.maximum := by
  induction history with
  | empty => exact Nat.zero_le _
  | @commit earlier request member _ admits ih =>
      -- A member of the role after the start was one before, or is the one that starts.
      have inside : ∀ key ∈ ((book ({ request, member } :: earlier)).filter
          fun _ member => member.role == role).keys,
          key = member.principal.text ∧ member.role = role
          ∨ key ∈ ((book earlier).filter fun _ member => member.role == role).keys := by
        intro key found
        obtain ⟨current, isCurrent⟩ := (Assoc.mem_keys _ _).mp found
        rw [Assoc.get?_filter, Option.filter_eq_some_iff, book, Assoc.get?_set] at isCurrent
        obtain ⟨stored, matching⟩ := isCurrent
        split at stored
        next newest =>
          cases stored
          exact .inl ⟨newest, by simpa using matching⟩
        · refine .inr ((Assoc.mem_keys _ _).mpr ⟨current, ?_⟩)
          rw [Assoc.get?_filter, Option.filter_eq_some_iff]
          exact ⟨stored, matching⟩
      have keys : ((book earlier).filter fun _ member => member.role == role).keys.length
          = roleCount (book earlier) role := by
        simp [roleCount, Assoc.keys, Assoc.size]
      cases known : (book earlier).get? member.principal.text with
      | some old =>
          refine le_trans (Assoc.size_le_length fun key found => ?_) (keys.trans_le ih)
          rcases inside key found with ⟨rfl, isRole⟩ | before
          · refine (Assoc.mem_keys _ _).mpr ⟨old, ?_⟩
            rw [Assoc.get?_filter, Option.filter_eq_some_iff]
            exact ⟨known, by simp [(admits.same old known).1, isRole]⟩
          · exact before
      | none =>
          by_cases isRole : member.role = role
          · have room := admits.capacity known
            rw [isRole, ← keys] at room
            have among : ∀ key ∈ ((book ({ request, member } :: earlier)).filter
                fun _ member => member.role == role).keys,
                key ∈ member.principal.text
                  :: ((book earlier).filter fun _ member => member.role == role).keys := by
              intro key found
              rcases inside key found with ⟨rfl, _⟩ | before
              · exact List.mem_cons_self
              · exact List.mem_cons_of_mem _ before
            exact le_trans (Assoc.size_le_length among) room
          · refine le_trans (Assoc.size_le_length fun key found => ?_) (keys.trans_le ih)
            rcases inside key found with ⟨_, equal⟩ | before
            · exact absurd equal isRole
            · exact before

def reached (commits : List Commit) (principal : Bytes) : Nat :=
  ((book commits).get? principal).elim 0 Member.epoch

theorem History.request_iff (history : History library config commits) {request : Bytes}
    {start : Start}
    : (requests commits).get? request = some start ↔ ∃ commit ∈ commits, commit.request = request
        ∧ start = { principal := commit.member.principal.text, epoch := commit.member.epoch } := by
  induction history with
  | empty => simp [requests]
  | @commit earlier newest member _ admits ih =>
      rw [requests, Assoc.get?_set]
      constructor
      · intro found
        split at found
        next same =>
          cases found
          exact ⟨_, List.mem_cons_self, same.symm, rfl⟩
        · obtain ⟨commit, listed, isRequest⟩ := ih.mp found
          exact ⟨commit, List.mem_cons_of_mem _ listed, isRequest⟩
      · rintro ⟨commit, listed, rfl, rfl⟩
        rcases List.mem_cons.mp listed with rfl | before
        · rw [if_pos rfl]
        · have known := ih.mpr ⟨commit, before, rfl, rfl⟩
          rw [if_neg, known]
          rintro again
          rw [again, admits.fresh] at known
          cases known

variable {commit : Commit}

theorem History.request_length (history : History library config commits)
    (listed : commit ∈ commits)
    : commit.request.length = 32 := by
  induction history with
  | empty => cases listed
  | commit _ admits ih =>
      rcases List.mem_cons.mp listed with rfl | before
      · exact admits.length
      · exact ih before

theorem History.length_le (history : History library config commits)
    : commits.length ≤ config.maximumStarts := by
  cases history with
  | empty => exact Nat.zero_le _
  | commit _ admits => exact admits.room

/-- The epochs of a deployment, the newest first, count down without a gap. -/
theorem History.epochs (history : History library config commits) (principal : Bytes)
    : ((commits.filter (·.member.principal.text = principal)).map (·.member.epoch))
      = (List.range' 1 (reached commits principal)).reverse := by
  induction history with
  | empty => rfl
  | @commit earlier request member _ admits ih =>
      have follows := admits.follows
      by_cases same : member.principal.text = principal
      · have next : reached ({ request, member } :: earlier) principal
            = reached earlier principal + 1 := by
          rw [reached, book, Assoc.get?_set, if_pos same.symm, Option.elim_some, follows, same,
            reached]
        rw [List.filter_cons_of_pos (by simpa using same), List.map_cons, ih, next,
          List.range'_1_concat, List.reverse_append, List.reverse_singleton,
          List.singleton_append]
        congr 1
        rw [follows, same, ← reached]
        omega
      · have kept : reached ({ request, member } :: earlier) principal
            = reached earlier principal := by
          rw [reached, book, Assoc.get?_set, if_neg (Ne.symm same), ← reached]
        rw [List.filter_cons_of_neg (by simpa using same), ih, kept]

/-- A deployment has started with every epoch up to the current one. -/
theorem History.mem_epoch (history : History library config commits) {epoch : Nat}
    : (∃ commit ∈ commits, commit.member.principal.text = principal ∧ commit.member.epoch = epoch)
      ↔ 1 ≤ epoch ∧ epoch ≤ reached commits principal := by
  have listed := history.epochs principal
  have member : epoch ∈ (commits.filter (·.member.principal.text = principal)).map
      (·.member.epoch) ↔ 1 ≤ epoch ∧ epoch ≤ reached commits principal := by
    rw [listed, List.mem_reverse, List.mem_range'_1]
    omega
  rw [← member]
  simp [and_assoc]

/-- Two starts of a deployment with the same epoch are the same. -/
theorem History.epoch_unique (history : History library config commits) {one other : Commit}
    (first : one ∈ commits) (second : other ∈ commits)
    (deployment : one.member.principal.text = other.member.principal.text)
    (epoch : one.member.epoch = other.member.epoch)
    : one = other := by
  have distinct : ((commits.filter
      (·.member.principal.text = other.member.principal.text)).map (·.member.epoch)).Nodup := by
    rw [history.epochs, List.nodup_reverse]
    exact List.nodup_range'
  have inside (commit : Commit) (listed : commit ∈ commits)
      (named : commit.member.principal.text = other.member.principal.text)
      : commit ∈ commits.filter (·.member.principal.text = other.member.principal.text) :=
    List.mem_filter.mpr ⟨listed, by simpa using named⟩
  exact List.inj_on_of_nodup_map distinct (inside one first deployment)
    (inside other second rfl) epoch

/-- A current member is one that has started. -/
theorem mem_of_book (current : (book commits).get? principal = some member)
    : ∃ commit ∈ commits, commit.member = member := by
  induction commits with
  | nil => cases current
  | cons newest earlier ih =>
      rw [book, Assoc.get?_set] at current
      split at current
      · exact ⟨newest, List.mem_cons_self, Option.some.inj current⟩
      · obtain ⟨commit, listed, isMember⟩ := ih current
        exact ⟨commit, List.mem_cons_of_mem _ listed, isMember⟩

/-- The role and the address of a deployment never change. -/
theorem History.fixed (history : History library config commits) (listed : commit ∈ commits)
    : ∃ current, (book commits).get? commit.member.principal.text = some current
      ∧ current.role = commit.member.role ∧ current.address = commit.member.address := by
  induction history with
  | empty => cases listed
  | @commit earlier request member _ admits ih =>
      rw [book]
      simp only [Assoc.get?_set]
      rcases List.mem_cons.mp listed with rfl | before
      · exact ⟨member, if_pos rfl, rfl, rfl⟩
      · obtain ⟨current, isCurrent, role, address⟩ := ih before
        by_cases same : commit.member.principal.text = member.principal.text
        · rw [same] at isCurrent
          obtain ⟨sameRole, sameAddress, _⟩ := admits.same current isCurrent
          exact ⟨member, if_pos same, sameRole.symm.trans role, sameAddress.symm.trans address⟩
        · exact ⟨current, (if_neg same).trans isCurrent, role, address⟩

theorem History.reached_le (history : History library config commits) (principal : Bytes)
    : reached commits principal ≤ maxWord := by
  unfold reached
  cases current : (book commits).get? principal with
  | none => exact Nat.zero_le _
  | some member => exact (history.sitting current).small

/-- Only deployments that have started are current. -/
theorem History.reached_pos (history : History library config commits)
    : 1 ≤ reached commits principal ↔ principal ∈ (book commits).keys := by
  rw [Assoc.mem_keys]
  unfold reached
  cases current : (book commits).get? principal with
  | none => simp
  | some member =>
      have positive := (validate_ok (history.sitting current).valid).2.2.2.1
      simp only [Option.elim_some, Option.some.injEq, exists_eq', iff_true]
      omega

-- Members

structure Rolled (read : List Member) (roll : Roll) : Prop where
  members : ∀ principal member,
    roll.members.get? principal = some member ↔ member ∈ read ∧ member.principal.text = principal
  ids : roll.ids = read.map Member.id
  addresses : roll.addresses = read.map Member.address
  counts : ∀ role, roll.counts role = read.countP (·.role = role)

structure Among (commits : List Commit) (members : List Member) : Prop where
  current : ∀ member ∈ members, (book commits).get? member.principal.text = some member
  once : (members.map (·.principal.text)).Nodup

variable {members : List Member}

theorem Among.bounded (history : History library config commits) (among : Among commits members)
    (role : Member.Role)
    : members.countP (·.role = role) ≤ config.maximum := by
  have distinct : ((members.filter (·.role = role)).map (·.principal.text)).Nodup :=
    among.once.sublist (List.filter_sublist.map _)
  have inside : (members.filter (·.role = role)).map (·.principal.text)
      ⊆ ((book commits).filter fun _ member => member.role == role).keys := by
    intro principal listed
    obtain ⟨member, isMember, rfl⟩ := List.mem_map.mp listed
    obtain ⟨isMember, isRole⟩ := List.mem_filter.mp isMember
    refine (Assoc.mem_keys _ _).mpr ⟨member, ?_⟩
    rw [Assoc.get?_filter, Option.filter_eq_some_iff]
    exact ⟨among.current member isMember, by simpa using isRole⟩
  have fewer := (List.subperm_of_subset distinct inside).length_le
  rw [List.length_map, ← List.countP_eq_length_filter] at fewer
  refine fewer.trans (le_trans (le_of_eq ?_) (history.bounded role))
  simp [roleCount, Assoc.keys, Assoc.size]

variable {read : List Member} {roll : Roll}

/-- The row of a current member is accepted. -/
theorem restoreMember_row (sound : library.Sound) (history : History library config commits)
    (rolled : Rolled read roll) (among : Among commits (member :: read))
    : ∃ next, restoreMember library config roll (member.principal.text, payload library member)
          = some next
        ∧ Rolled (member :: read) next := by
  have current := among.current member List.mem_cons_self
  have sitting := history.sitting current
  have fresh : ∀ other ∈ read, other.principal.text ≠ member.principal.text := by
    intro other listed same
    have apart := (List.nodup_cons.mp among.once).1
    exact apart (List.mem_map.mpr ⟨other, listed, same⟩)
  have apart : ∀ other ∈ read, other.id ≠ member.id ∧ other.address ≠ member.address := by
    intro other listed
    exact history.distinct (among.current other (List.mem_cons_of_mem _ listed)) current
      (fresh other listed)
  have counted := among.bounded history member.role
  rw [List.countP_cons_of_pos (by simp), ← rolled.counts] at counted
  have unknown : roll.members.contains member.principal.text = false := by
    rw [Assoc.contains_eq_false_iff]
    cases found : roll.members.get? member.principal.text with
    | none => rfl
    | some other =>
        obtain ⟨listed, same⟩ := (rolled.members _ _).mp found
        exact absurd same (fresh other listed)
  have newId : roll.ids.contains member.id = false := by
    rw [rolled.ids, List.contains_eq_mem, decide_eq_false_iff_not, List.mem_map]
    rintro ⟨other, listed, same⟩
    exact (apart other listed).1 same
  have newAddress : roll.addresses.contains member.address = false := by
    rw [rolled.addresses, List.contains_eq_mem, decide_eq_false_iff_not, List.mem_map]
    rintro ⟨other, listed, same⟩
    exact (apart other listed).2 same
  unfold restoreMember
  dsimp only
  rw [if_neg (by simp [Principal.length_text, sitting.written.1, sitting.written.2]), payload,
    parse_serialize sound sitting.valid sitting.small]
  dsimp only
  rw [show (encode member).principal = member.principal.text from rfl, Principal.parse_text]
  dsimp only
  rw [if_neg (not_not.mpr rfl), decodeMember_encode sitting.valid]
  dsimp only
  have accepted : ¬ (member.galaxy ≠ config.galaxy
      ∨ member.principal.text ≠ member.principal.text
      ∨ roll.counts member.role + 1 > config.maximum ∨ roll.ids.contains member.id = true
      ∨ roll.addresses.contains member.address = true
      ∨ roll.members.contains member.principal.text = true) := by
    rw [newId, newAddress, unknown]
    simpa [sitting.galaxy] using counted
  rw [if_neg accepted]
  refine ⟨_, rfl, ?_, ?_, ?_, ?_⟩
  · intro principal other
    rw [Assoc.get?_set]
    split
    next same =>
      constructor
      · rintro ⟨⟩
        exact ⟨List.mem_cons_self, same.symm⟩
      · rintro ⟨listed, named⟩
        rcases List.mem_cons.mp listed with rfl | before
        · rfl
        · exact absurd (named.trans same) (fresh other before)
    rename_i different
    rw [rolled.members]
    constructor
    · rintro ⟨listed, named⟩
      exact ⟨List.mem_cons_of_mem _ listed, named⟩
    · rintro ⟨listed, named⟩
      rcases List.mem_cons.mp listed with rfl | before
      · exact absurd named.symm different
      · exact ⟨before, named⟩
  · rw [List.map_cons, rolled.ids]
  · rw [List.map_cons, rolled.addresses]
  · intro role
    dsimp only
    rw [List.countP_cons, Function.update_apply]
    by_cases same : role = member.role
    · subst same
      simp [rolled.counts]
    · simp [same, Ne.symm same, rolled.counts]

/-- All rows of members are accepted. Witness: induction over the rows. -/
theorem restoreMember_rows (sound : library.Sound) (history : History library config commits)
    (rolled : Rolled read roll) (among : Among commits (members.reverse ++ read))
    : ∃ last, (members.map fun member => (member.principal.text, payload library member)).foldlM
          (restoreMember library config) roll = some last
        ∧ Rolled (members.reverse ++ read) last := by
  induction members generalizing read roll with
  | nil => exact ⟨roll, rfl, rolled⟩
  | cons member rest ih =>
      rw [List.reverse_cons, List.append_assoc, List.singleton_append] at among ⊢
      have first : Among commits (member :: read) := by
        refine ⟨fun other listed => among.current other (List.mem_append_right _ listed), ?_⟩
        have once := among.once
        rw [List.map_append] at once
        exact once.of_append_right
      obtain ⟨next, accepted, rolledNext⟩ := restoreMember_row sound history rolled first
      obtain ⟨last, continued, rolledLast⟩ := ih rolledNext among
      refine ⟨last, ?_, rolledLast⟩
      rw [List.map_cons, List.foldlM_cons, accepted]
      exact continued

-- Starts

/-- A list of starts counts the epochs of one deployment after the other. -/
def Counts (members : Assoc Bytes Member) : Bytes → Nat → List (Bytes × Nat) → Prop
  | previous, sequence, [] => previous = [] ∨ current members previous = some sequence
  | previous, sequence, (principal, epoch) :: rest =>
      (previous ≠ principal → previous = [] ∨ current members previous = some sequence)
      ∧ epoch = (if previous = principal then sequence else 0) + 1
      ∧ (∃ last, current members principal = some last ∧ epoch ≤ last)
      ∧ Counts members principal epoch rest

def switches : Bytes → List (Bytes × Nat) → Nat
  | _, [] => 0
  | previous, (principal, _) :: rest =>
      (if previous = principal then 0 else 1) + switches principal rest

theorem counts_epochs {members : Assoc Bytes Member} {principal : Bytes} {last : Nat}
    (isLast : current members principal = some last) {sequence count : Nat}
    (within : sequence + count ≤ last) {rest : List (Bytes × Nat)}
    (later : Counts members principal (sequence + count) rest)
    : Counts members principal sequence
        ((List.range' (sequence + 1) count).map (principal, ·) ++ rest)
      ∧ switches principal ((List.range' (sequence + 1) count).map (principal, ·) ++ rest)
        = switches principal rest := by
  induction count generalizing sequence with
  | zero => exact ⟨later, rfl⟩
  | succ count ih =>
      have shifted : sequence + 1 + count = sequence + (count + 1) := by omega
      obtain ⟨counted, switched⟩ := @ih (sequence + 1) (by omega) (by rwa [shifted])
      rw [List.range'_succ, List.map_cons, List.cons_append]
      refine ⟨⟨fun different => absurd rfl different, by simp, ⟨last, isLast, by omega⟩,
        counted⟩, ?_⟩
      simpa [switches] using switched

/-- Deployments one after the other are counted. Witness: induction over the deployments. -/
theorem counts_deployments {members : Assoc Bytes Member} {last : Bytes → Nat}
    {principals : List Bytes} {previous : Bytes} {sequence : Nat}
    (isLast : ∀ principal ∈ principals,
      current members principal = some (last principal) ∧ 1 ≤ last principal)
    (once : (previous :: principals).Nodup)
    (complete : previous = [] ∨ current members previous = some sequence)
    : Counts members previous sequence
        (principals.flatMap fun principal =>
          (List.range' 1 (last principal)).map (principal, ·))
      ∧ switches previous
          (principals.flatMap fun principal =>
            (List.range' 1 (last principal)).map (principal, ·))
        = principals.length := by
  induction principals generalizing previous sequence with
  | nil => exact ⟨complete, rfl⟩
  | cons principal rest ih =>
      obtain ⟨isCurrent, positive⟩ := isLast principal List.mem_cons_self
      have different : previous ≠ principal := by
        rintro rfl
        exact (List.nodup_cons.mp once).1 List.mem_cons_self
      obtain ⟨counted, switched⟩ := @ih principal (last principal)
        (fun other listed => isLast other (List.mem_cons_of_mem _ listed))
        (List.nodup_cons.mp once).2 (.inr isCurrent)
      have first : List.range' 1 (last principal) = 1 :: List.range' 2 (last principal - 1) := by
        rw [show last principal = (last principal - 1) + 1 by omega, List.range'_succ]
        rfl
      have whole : 1 + (last principal - 1) = last principal := by omega
      obtain ⟨countedAll, switchedAll⟩ := @counts_epochs members principal (last principal)
        isCurrent 1 (last principal - 1) (by omega) _ (by rwa [whole])
      rw [List.flatMap_cons, first, List.map_cons, List.cons_append]
      refine ⟨⟨fun _ => complete, by simp [different],
        ⟨last principal, isCurrent, positive⟩, countedAll⟩, ?_⟩
      rw [switches, if_neg different, switchedAll, switched, List.length_cons, Nat.add_comm]

structure Tallied (commits : List Commit) (read : List Bytes) (tally : Tally) : Prop where
  starts : ∀ request,
    tally.starts.get? request = if request ∈ read then (requests commits).get? request else none
  few : tally.starts.size ≤ read.length

def RowOf (commits : List Commit) (row : Bytes × Bytes × Bytes) (start : Bytes × Nat) : Prop :=
  (requests commits).get? row.1 = some { principal := start.1, epoch := start.2 }
  ∧ row.2 = (start.1, Database.epoch start.2) ∧ row.1.length = 32 ∧ start.2 ≤ maxWord

/-- All rows of starts are accepted if they are counted. Witness: induction over the rows. -/
theorem restoreStart_rows {members : Assoc Bytes Member}
    {rows : List (Bytes × Bytes × Bytes)} {starts : List (Bytes × Nat)} {read : List Bytes}
    {tally : Tally} (matching : List.Forall₂ (RowOf commits) rows starts)
    (once : (rows.map Prod.fst ++ read).Nodup)
    (room : rows.length + read.length ≤ config.maximumStarts)
    (tallied : Tallied commits read tally)
    (counted : Counts members tally.previous tally.sequence starts)
    : ∃ last, rows.foldlM (restoreStart config members) tally = some last
        ∧ (last.previous = [] ∨ current members last.previous = some last.sequence)
        ∧ last.deployments = tally.deployments + switches tally.previous starts
        ∧ Tallied commits ((rows.map Prod.fst).reverse ++ read) last := by
  induction matching generalizing read tally with
  | nil => exact ⟨tally, rfl, counted, rfl, tallied⟩
  | @cons row start rows starts isRow _ ih =>
      obtain ⟨request, principal, blob⟩ := row
      obtain ⟨named, epoch⟩ := start
      obtain ⟨known, isPair, length, small⟩ := isRow
      obtain ⟨rfl, rfl⟩ := Prod.mk.inj isPair
      obtain ⟨complete, isEpoch, ⟨last, isLast, within⟩, later⟩ := counted
      dsimp only at known length small isEpoch within later
      rw [List.map_cons, List.cons_append, List.nodup_cons] at once
      rw [List.length_cons] at room
      have fresh : request ∉ read := fun listed => once.1 (List.mem_append_right _ listed)
      have unknown : tally.starts.contains request = false := by
        rw [Assoc.contains_eq_false_iff, tallied.starts, if_neg fresh]
      have few := tallied.few
      have positive : epoch ≠ 0 := by omega
      have accepted : restoreStart config members tally (request, principal, Database.epoch epoch)
          = some
              { starts := tally.starts.set request { principal, epoch }
                previous := principal
                sequence := epoch
                deployments :=
                  if tally.previous = principal then tally.deployments
                  else tally.deployments + 1 } := by
        unfold restoreStart
        dsimp only
        rw [Database.number_epoch positive small, isLast]
        dsimp only
        rw [if_neg, if_neg]
        · rw [unknown]
          simp only [Bool.false_eq_true, or_false, not_or]
          refine ⟨?_, by omega, by omega⟩
          omega
        · rintro (long | full | ⟨different, unfinished⟩)
          · exact long length
          · omega
          · exact unfinished (complete different)
      have talliedNext : Tallied commits (request :: read)
          { starts := tally.starts.set request { principal, epoch }
            previous := principal
            sequence := epoch
            deployments :=
              if tally.previous = principal then tally.deployments
              else tally.deployments + 1 } := by
        constructor
        · intro other
          rw [Assoc.get?_set, tallied.starts]
          by_cases same : other = request
          · subst same
            rw [if_pos rfl, if_pos List.mem_cons_self, known]
          · rw [if_neg same]
            simp [same]
        · have size := Assoc.size_set_le tally.starts request ({ principal, epoch } : Start)
          dsimp only
          rw [List.length_cons]
          omega
      have onceNext : (rows.map Prod.fst ++ request :: read).Nodup := by
        rw [List.nodup_middle]
        exact List.nodup_cons.mpr once
      obtain ⟨final, continued, done, deployments, talliedLast⟩ :=
        ih onceNext (by rw [List.length_cons]; omega) talliedNext later
      refine ⟨final, ?_, done, ?_, ?_⟩
      · rw [List.foldlM_cons, accepted]
        exact continued
      · rw [deployments, switches]
        dsimp only
        split <;> omega
      · rw [List.map_cons, List.reverse_cons, List.append_assoc, List.singleton_append]
        exact talliedLast

-- The whole database

structure Stored (library : Library) (commits : List Commit) (database : Database) : Prop where
  members : ∀ principal,
    database.members.get? principal = ((book commits).get? principal).map (payload library)
  starts : ∀ request, database.starts.get? request
      = ((requests commits).get? request).map fun start =>
          (start.principal, Database.epoch start.epoch)

variable {database : Database}

theorem exists_map {A B : Type} {list : List A} {f : B → A} {P : B → Prop}
    (each : ∀ item ∈ list, ∃ source, P source ∧ item = f source)
    : ∃ sources : List B, list = sources.map f ∧ ∀ source ∈ sources, P source := by
  induction list with
  | nil => exact ⟨[], rfl, nofun⟩
  | cons item rest ih =>
      obtain ⟨source, holds, rfl⟩ := each item List.mem_cons_self
      obtain ⟨sources, rfl, all⟩ := ih fun other listed => each other (List.mem_cons_of_mem _ listed)
      refine ⟨source :: sources, rfl, ?_⟩
      intro other listed
      rcases List.mem_cons.mp listed with rfl | later
      · exact holds
      · exact all other later

/-- The rows of members are those of the current members, each one once. -/
theorem Stored.memberRows (stored : Stored library commits database)
    (history : History library config commits)
    : ∃ members, database.memberRows
          = members.map (fun member => (member.principal.text, payload library member))
        ∧ Among commits members
        ∧ ∀ principal member, (book commits).get? principal = some member → member ∈ members := by
  have permuted : database.memberRows.Perm database.members.toPairs := List.mergeSort_perm _ _
  have row (entry : Bytes × Bytes)
      : entry ∈ database.memberRows ↔ ∃ member, (book commits).get? entry.1 = some member
          ∧ payload library member = entry.2 := by
    rw [permuted.mem_iff, Assoc.mem_toPairs, stored.members, Option.map_eq_some_iff]
  have each : ∀ entry ∈ database.memberRows,
      ∃ member : Member, (book commits).get? member.principal.text = some member
        ∧ entry = (member.principal.text, payload library member) := by
    rintro ⟨principal, body⟩ listed
    obtain ⟨member, isCurrent, isBody⟩ := (row _).mp listed
    have named := (history.sitting isCurrent).named
    dsimp only at named isCurrent isBody
    exact ⟨member, named.symm ▸ isCurrent, by rw [named, isBody]⟩
  obtain ⟨members, isMap, current⟩ := exists_map each
  refine ⟨members, isMap, ⟨current, ?_⟩, ?_⟩
  · have keys : (database.memberRows.map Prod.fst).Nodup := by
      rw [(permuted.map Prod.fst).nodup_iff]
      have same : database.members.toPairs.map Prod.fst = database.members.keys := by
        simp [Assoc.toPairs, Assoc.keys]
      rw [same]
      exact database.members.nodup_keys
    rwa [isMap, List.map_map] at keys
  · intro principal member isCurrent
    have listed := (row (principal, payload library member)).mpr ⟨member, isCurrent, rfl⟩
    rw [isMap, List.mem_map] at listed
    obtain ⟨other, isOther, same⟩ := listed
    have named : other.principal.text = principal := (Prod.mk.inj same).1
    have known := current other isOther
    rw [named, isCurrent] at known
    exact Option.some.inj known ▸ isOther

def inOrder (commits : List Commit) : List (Bytes × Nat) :=
  ((book commits).keys.mergeSort fun left right => left.rank ≤ right.rank).flatMap fun principal =>
    (List.range' 1 (reached commits principal)).map (principal, ·)

def placeOf (start : Bytes × Nat) : List ℕ ×ₗ List ℕ :=
  toLex (start.1.rank, (Database.epoch start.2).rank)

theorem sorted_by {A B : Type} [LinearOrder B] (key : A → B) (list : List A)
    : (list.mergeSort fun left right => key left ≤ key right).Pairwise
        fun left right => key left ≤ key right := by
  have sorted := @List.pairwise_mergeSort A (fun left right => decide (key left ≤ key right))
    (fun _ _ _ first second => by
      simp only [decide_eq_true_eq] at first second ⊢
      exact first.trans second)
    (fun left right => by simpa using le_total (key left) (key right)) list
  exact sorted.imp fun below => by simpa using below

theorem mem_inOrder (history : History library config commits) {start : Bytes × Nat}
    : start ∈ inOrder commits ↔ 1 ≤ start.2 ∧ start.2 ≤ reached commits start.1 := by
  obtain ⟨principal, epoch⟩ := start
  simp only [inOrder, List.mem_flatMap, List.mem_mergeSort, List.mem_map, List.mem_range'_1,
    Prod.mk.injEq]
  constructor
  · rintro ⟨named, _, number, within, rfl, rfl⟩
    omega
  · intro within
    refine ⟨principal, history.reached_pos.mp (by omega), epoch, by omega, rfl, rfl⟩

/-- They are ordered strictly. -/
theorem inOrder_sorted (history : History library config commits)
    : (inOrder commits).Pairwise fun left right => placeOf left < placeOf right := by
  unfold inOrder
  rw [List.pairwise_flatMap]
  constructor
  · intro principal _
    rw [List.pairwise_map]
    refine (List.pairwise_lt_range' (s := 1)).imp_of_mem ?_
    intro left right _ listed below
    refine Prod.Lex.toLex_lt_toLex.mpr (.inr ⟨rfl, ?_⟩)
    have within := List.mem_range'_1.mp listed
    have small := history.reached_le principal
    exact Database.epoch_lt below (by omega)
  · have distinct : ((book commits).keys.mergeSort
        fun left right => left.rank ≤ right.rank).Nodup := by
      rw [(List.mergeSort_perm _ _).nodup_iff]
      exact (book commits).nodup_keys
    refine ((sorted_by Bytes.rank (book commits).keys).and distinct).imp ?_
    rintro left right ⟨below, different⟩ one first other second
    obtain ⟨_, _, rfl⟩ := List.mem_map.mp first
    obtain ⟨_, _, rfl⟩ := List.mem_map.mp second
    refine Prod.Lex.toLex_lt_toLex.mpr (.inl (lt_of_le_of_ne below ?_))
    exact fun same => different (Bytes.rank_injective same)

theorem forall₂_of_map {A B C : Type} {R : A → B → Prop} {f : A → C} {g : B → C}
    {left : List A} {right : List B} (same : left.map f = right.map g)
    (each : ∀ one ∈ left, ∀ other ∈ right, f one = g other → R one other)
    : List.Forall₂ R left right := by
  induction left generalizing right with
  | nil =>
      cases right with
      | nil => exact .nil
      | cons other rest => cases same
  | cons one rest ih =>
      cases right with
      | nil => cases same
      | cons other later =>
          obtain ⟨first, continued⟩ := List.cons.inj same
          refine .cons (each one List.mem_cons_self other List.mem_cons_self first) ?_
          exact ih continued fun one isOne other isOther =>
            each one (List.mem_cons_of_mem _ isOne) other (List.mem_cons_of_mem _ isOther)

/-- A stored row is that of a committed start. -/
theorem Stored.rowOf (stored : Stored library commits database)
    (history : History library config commits) {row : Bytes × Bytes × Bytes}
    (listed : row ∈ database.startRows)
    : ∃ commit ∈ commits, commit.request = row.1
        ∧ RowOf commits row (commit.member.principal.text, commit.member.epoch) := by
  have member : row ∈ database.starts.toPairs := (List.mergeSort_perm _ _).mem_iff.mp listed
  obtain ⟨request, principal, blob⟩ := row
  rw [Assoc.mem_toPairs, stored.starts, Option.map_eq_some_iff] at member
  obtain ⟨start, known, isPair⟩ := member
  obtain ⟨commit, isCommit, rfl, rfl⟩ := history.request_iff.mp known
  refine ⟨commit, isCommit, rfl, known, isPair.symm, history.request_length isCommit, ?_⟩
  have within := history.mem_epoch.mp ⟨commit, isCommit, rfl, rfl⟩
  exact within.2.trans (history.reached_le _)

/-- The rows of starts are the starts in order. -/
theorem Stored.startRows (stored : Stored library commits database)
    (history : History library config commits)
    : List.Forall₂ (RowOf commits) database.startRows (inOrder commits) := by
  have small {start : Bytes × Nat} (listed : start ∈ inOrder commits) : start.2 ≤ maxWord :=
    ((mem_inOrder history).mp listed).2.trans (history.reached_le _)
  have same : database.startRows.map Prod.snd
      = (inOrder commits).map fun start => (start.1, Database.epoch start.2) := by
    refine @List.Perm.eq_of_pairwise _
      (fun left right => toLex (left.1.rank, left.2.rank)
        ≤ (toLex (right.1.rank, right.2.rank) : List ℕ ×ₗ List ℕ)) _ _ ?_ ?_ ?_ ?_
    · rintro ⟨one, first⟩ ⟨two, second⟩ _ _ below above
      have equal := toLex.injective (below.antisymm above)
      obtain ⟨names, epochs⟩ := Prod.mk.inj equal
      exact Prod.ext (Bytes.rank_injective names) (Bytes.rank_injective epochs)
    · rw [List.pairwise_map]
      exact sorted_by Database.place database.starts.toPairs
    · rw [List.pairwise_map]
      exact (inOrder_sorted history).imp le_of_lt
    · refine (List.perm_ext_iff_of_nodup ?_ ?_).mpr ?_
      · refine List.Nodup.map_on ?_ ?_
        · intro one isOne other isOther equal
          obtain ⟨first, isFirst, named, _, pair, _, fits⟩ := stored.rowOf history isOne
          obtain ⟨second, isSecond, namedOther, _, pairOther, _, fitsOther⟩ :=
            stored.rowOf history isOther
          rw [pair, pairOther, Prod.mk.injEq] at equal
          have commits := history.epoch_unique isFirst isSecond equal.1
            (Database.epoch_inj fits fitsOther equal.2)
          refine Prod.ext ?_ ?_
          · rw [← named, ← namedOther, commits]
          · rw [pair, pairOther, Prod.mk.injEq]
            exact equal
        · rw [Database.startRows, (List.mergeSort_perm _ _).nodup_iff]
          exact database.starts.nodup_toPairs
      · have strict : ((inOrder commits).map fun start =>
            (start.1, Database.epoch start.2)).Pairwise fun left right =>
              toLex (left.1.rank, left.2.rank)
                < (toLex (right.1.rank, right.2.rank) : List ℕ ×ₗ List ℕ) := by
          rw [List.pairwise_map]
          exact inOrder_sorted history
        refine strict.imp ?_
        rintro left right below rfl
        exact lt_irrefl _ below
      · rintro ⟨principal, blob⟩
        constructor
        · intro listed
          obtain ⟨row, isRow, pair⟩ := List.mem_map.mp listed
          obtain ⟨commit, isCommit, _, _, isPair, _⟩ := stored.rowOf history isRow
          refine List.mem_map.mpr
            ⟨(commit.member.principal.text, commit.member.epoch), ?_, isPair.symm.trans pair⟩
          exact (mem_inOrder history).mpr (history.mem_epoch.mp ⟨commit, isCommit, rfl, rfl⟩)
        · intro listed
          obtain ⟨start, isStart, pair⟩ := List.mem_map.mp listed
          obtain ⟨commit, isCommit, named, isEpoch⟩ :=
            history.mem_epoch.mpr ((mem_inOrder history).mp isStart)
          have known := history.request_iff.mpr ⟨commit, isCommit, rfl, rfl⟩
          refine List.mem_map.mpr ⟨(commit.request, principal, blob), ?_, rfl⟩
          rw [Database.startRows, (List.mergeSort_perm _ _).mem_iff, Assoc.mem_toPairs,
            stored.starts, known, Option.map_some, named, isEpoch, pair]
  refine forall₂_of_map same ?_
  intro row listed start isStart equal
  obtain ⟨commit, isCommit, _, known, pair, length, fits⟩ := stored.rowOf history listed
  dsimp only at equal known pair fits
  rw [pair, Prod.mk.injEq] at equal
  have epochs := Database.epoch_inj fits (small isStart) equal.2
  refine ⟨?_, ?_, length, small isStart⟩
  · rw [known, equal.1, epochs]
  · rw [pair, equal.1, epochs]

/-- A ledger that starts on what was committed finds exactly that. -/
theorem Stored.restore (sound : library.Sound) (history : History library config commits)
    (stored : Stored library commits database)
    : ∃ members starts, restore library config database = some (members, starts)
        ∧ members.get? = (book commits).get?
        ∧ starts.get? = (requests commits).get? := by
  obtain ⟨listed, memberRows, among, all⟩ := stored.memberRows history
  have nothing : Rolled [] ({} : Roll) :=
    ⟨fun _ _ => by simp, rfl, rfl, fun _ => rfl⟩
  have reversed : Among commits (listed.reverse ++ []) := by
    rw [List.append_nil]
    refine ⟨fun member found => among.current member (List.mem_reverse.mp found), ?_⟩
    rw [List.map_reverse, List.nodup_reverse]
    exact among.once
  obtain ⟨roll, restored, rolled⟩ := restoreMember_rows sound history nothing reversed
  have members : roll.members.get? = (book commits).get? := by
    funext principal
    apply Option.ext
    intro member
    rw [rolled.members]
    simp only [List.append_nil, List.mem_reverse]
    constructor
    · rintro ⟨found, rfl⟩
      exact among.current member found
    · intro current
      exact ⟨all principal member current, (history.sitting current).named⟩
  have isLast : ∀ principal ∈ (book commits).keys.mergeSort
      (fun left right => left.rank ≤ right.rank),
      current roll.members principal = some (reached commits principal)
      ∧ 1 ≤ reached commits principal := by
    intro principal found
    have key := List.mem_mergeSort.mp found
    obtain ⟨member, isCurrent⟩ := (Assoc.mem_keys _ _).mp key
    refine ⟨?_, history.reached_pos.mpr key⟩
    rw [current, members, reached, isCurrent]
    rfl
  have once : ([] :: (book commits).keys.mergeSort
      fun left right => left.rank ≤ right.rank).Nodup := by
    refine List.nodup_cons.mpr ⟨?_, ?_⟩
    · intro found
      obtain ⟨member, isCurrent⟩ := (Assoc.mem_keys _ _).mp (List.mem_mergeSort.mp found)
      have length := member.principal.length_text
      rw [(history.sitting isCurrent).named] at length
      cases length
    · rw [(List.mergeSort_perm _ _).nodup_iff]
      exact (book commits).nodup_keys
  obtain ⟨counted, switched⟩ := @counts_deployments _ _ _ [] 0 isLast once (.inl rfl)
  have pairs : database.starts.toPairs.map Prod.fst = database.starts.keys := by
    simp [Assoc.toPairs, Assoc.keys]
  have permuted : database.startRows.Perm database.starts.toPairs := List.mergeSort_perm _ _
  have distinct : (database.startRows.map Prod.fst ++ []).Nodup := by
    rw [List.append_nil, (permuted.map Prod.fst).nodup_iff, pairs]
    exact database.starts.nodup_keys
  have room : database.startRows.length + ([] : List Bytes).length ≤ config.maximumStarts := by
    have inside : ∀ request ∈ database.starts.keys, request ∈ commits.map Commit.request := by
      intro request found
      obtain ⟨row, known⟩ := (Assoc.mem_keys _ _).mp found
      rw [stored.starts, Option.map_eq_some_iff] at known
      obtain ⟨start, isStart, _⟩ := known
      obtain ⟨commit, isCommit, isRequest, _⟩ := history.request_iff.mp isStart
      exact List.mem_map.mpr ⟨commit, isCommit, isRequest⟩
    have fewer := Assoc.size_le_length inside
    rw [List.length_map] at fewer
    have length : database.startRows.length = database.starts.size := by
      rw [permuted.length_eq, Assoc.toPairs, List.length_map, Assoc.size]
    rw [length, List.length_nil]
    exact fewer.trans history.length_le
  have empty : Tallied commits [] ({} : Tally) := ⟨fun _ => by simp, le_rfl⟩
  obtain ⟨tally, read, complete, deployments, tallied⟩ :=
    restoreStart_rows (stored.startRows history) distinct room empty counted
  have whole : tally.deployments = roll.members.size := by
    rw [deployments]
    change 0 + switches [] (inOrder commits) = _
    rw [inOrder, switched, Assoc.size_congr members, List.length_mergeSort, Nat.zero_add,
      Assoc.keys, List.length_map, Assoc.size]
  refine ⟨roll.members, tally.starts, ?_, members, ?_⟩
  · unfold Ledger.restore
    rw [memberRows, restored]
    dsimp only
    rw [read]
    dsimp only
    rw [if_pos ⟨whole, complete⟩]
  · funext request
    rw [tallied.starts, List.append_nil]
    split
    · rfl
    rename_i absent
    cases known : (requests commits).get? request with
    | none => rfl
    | some start =>
        refine absurd ?_ absent
        rw [List.mem_reverse, (permuted.map Prod.fst).mem_iff, pairs, Assoc.mem_keys]
        exact ⟨_, by rw [stored.starts, known, Option.map_some]⟩

end Astra.Ledger
