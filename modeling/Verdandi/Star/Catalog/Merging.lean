import Verdandi.Star.Catalog.Record

/-! Merging facts is taking the largest one: of two records, the one with the newer version, and
of equal versions the one that lasts longer, where a record without a value lasts not at all.
Ending a lease early changes nothing for an observer who looks later, so neither order nor
repetition nor the times of merging matter.
-/

namespace Astra.Catalog

def Record.rank (record : Record) : ℕ ×ₗ WithBot ℤ :=
  toLex (record.version, record.deadline)

def Record.rankAt (record : Record) (time : Int) : ℕ ×ₗ WithBot ℤ :=
  (record.expire time).rank

variable {record known incoming : Record} {now time : Int} {change : Change}

/-- What a valid record is like. -/
theorem Record.valid_iff
    : record.valid = true ↔ record.version ≠ 0 ∧ record.value.isSome = record.deadline.isSome
        ∧ (∀ value, record.value = some value → value.length ≤ 1024 * 1024)
        ∧ ∀ deadline, record.deadline = some deadline → 0 ≤ deadline := by
  simp only [Record.valid, Bool.and_eq_true, bne_iff_ne, ne_eq, beq_iff_eq, Option.all_eq_true,
    decide_eq_true_eq, and_assoc]

/-- Either a lease or only a version. -/
theorem Record.valid_cases (valid : record.valid = true)
    : (record.value = none ∧ record.deadline = none)
      ∨ ∃ value deadline, record.value = some value ∧ record.deadline = some deadline := by
  have paired := (Record.valid_iff.mp valid).2.1
  cases isValue : record.value with
  | none =>
      cases isDeadline : record.deadline with
      | none => exact .inl ⟨rfl, rfl⟩
      | some deadline => simp [isValue, isDeadline] at paired
  | some value =>
      cases isDeadline : record.deadline with
      | none => simp [isValue, isDeadline] at paired
      | some deadline => exact .inr ⟨value, deadline, rfl, rfl⟩

@[simp]
theorem Record.version_expire : (record.expire now).version = record.version := by
  unfold Record.expire
  split <;> rfl

variable {deadline : Int}

/-- What is left of a lease. -/
theorem Record.expire_of_lt (held : record.deadline = some deadline) (lasts : now < deadline)
    : record.expire now = record := by
  unfold Record.expire
  rw [if_neg]
  simpa [held] using lasts

theorem Record.expire_of_le (held : record.deadline = some deadline) (ended : deadline ≤ now)
    : record.expire now = { version := record.version, value := none, deadline := none } := by
  unfold Record.expire
  rw [if_pos]
  simpa [held] using ended

theorem Record.expire_of_none (none : record.deadline = none) : record.expire now = record := by
  unfold Record.expire
  rw [if_neg]
  simp [none]

theorem Record.valid_expire (valid : record.valid = true) : (record.expire now).valid = true := by
  unfold Record.expire
  split
  · simpa [Record.valid] using (Record.valid_iff.mp valid).1
  · exact valid

/-- An early end of a lease makes no difference later. -/
theorem Record.expire_expire (before : now ≤ time)
    : (record.expire now).expire time = record.expire time := by
  cases held : record.deadline with
  | none => rw [Record.expire_of_none held]
  | some deadline =>
      rcases Int.lt_or_le now deadline with lasts | ended
      · rw [Record.expire_of_lt held lasts]
      · rw [Record.expire_of_le held ended, Record.expire_of_le held (ended.trans before)]
        rfl

-- Merging is the maximum

def left (deadline : Option Int) (time : Int) : WithBot ℤ :=
  deadline.elim ⊥ fun held => if held ≤ time then ⊥ else (held : WithBot ℤ)

theorem Record.rankAt_eq
    : record.rankAt time = toLex (record.version, left record.deadline time) := by
  unfold Record.rankAt Record.rank
  rw [Record.version_expire]
  cases held : record.deadline with
  | none =>
      rw [Record.expire_of_none held, held]
      rfl
  | some deadline =>
      rcases Int.lt_or_le time deadline with lasts | ended
      · rw [Record.expire_of_lt held lasts, held]
        simp only [left, Option.elim_some, if_neg (not_le.mpr lasts)]
        rfl
      · rw [Record.expire_of_le held ended]
        simp only [left, Option.elim_some, if_pos ended]
        rfl

/-- The longer of two leases is left longer. -/
theorem left_max (first second : Int)
    : left (some (max first second)) time = max (left (some first) time) (left (some second) time) := by
  simp only [left, Option.elim_some]
  rcases le_total first second with below | above
  · rw [max_eq_right below]
    split
    next ended => rw [if_pos (below.trans ended), max_self]
    · split
      · exact (max_eq_right bot_le).symm
      · exact (max_eq_right (WithBot.coe_le_coe.mpr below)).symm
  · rw [max_eq_left above]
    split
    next ended => rw [if_pos (above.trans ended), max_self]
    · split
      · exact (max_eq_left bot_le).symm
      · exact (max_eq_left (WithBot.coe_le_coe.mpr above)).symm

theorem max_toLex (version : ℕ) (first second : WithBot ℤ)
    : max (toLex (version, first)) (toLex (version, second))
      = (toLex (version, max first second) : ℕ ×ₗ WithBot ℤ) := by
  rcases le_total first second with below | above
  · rw [max_eq_right below, max_eq_right]
    exact Prod.Lex.toLex_le_toLex.mpr (.inr ⟨rfl, below⟩)
  · rw [max_eq_left above, max_eq_left]
    exact Prod.Lex.toLex_le_toLex.mpr (.inr ⟨rfl, above⟩)

/-- A lease that has ended at some time is worth nothing later. -/
theorem left_of_expired (valid : record.valid = true) (ended : (record.expire now).value = none)
    (before : now ≤ time)
    : left record.deadline time = ⊥ := by
  rcases record.valid_cases valid with ⟨_, none⟩ | ⟨value, deadline, present, held⟩
  · rw [none]
    rfl
  · rw [held]
    rcases Int.lt_or_le now deadline with lasts | gone
    · rw [Record.expire_of_lt held lasts, present] at ended
      cases ended
    · simp only [left, Option.elim_some, if_pos (gone.trans before)]

/-- A lease that has not ended is the record's own. -/
theorem lease_of_expire (valid : record.valid = true) {value : Bytes}
    (lasts : (record.expire now).value = some value)
    : ∃ deadline, record.value = some value ∧ record.deadline = some deadline
        ∧ record.expire now = record := by
  rcases record.valid_cases valid with ⟨none, absent⟩ | ⟨held, deadline, present, lease⟩
  · rw [Record.expire_of_none absent, none] at lasts
    cases lasts
  · rcases Int.lt_or_le now deadline with kept | ended
    · rw [Record.expire_of_lt lease kept] at lasts ⊢
      exact ⟨deadline, lasts, lease, rfl⟩
    · rw [Record.expire_of_le lease ended] at lasts
      cases lasts

/-- What a merge makes of a known record: a newer fact replaces it, an older one does nothing,
and an equal one counts if it lasts and the known one does not, or longer.
-/
inductive Merged (known incoming : Record) (now : Int) : Record → Prop where
  | newer (above : known.version < incoming.version)
      : Merged known incoming now (incoming.expire now)
  | older (below : incoming.version < known.version)
      : Merged known incoming now (known.expire now)
  | ended (same : incoming.version = known.version) (gone : (incoming.expire now).value = none)
      : Merged known incoming now (known.expire now)
  | revived (same : incoming.version = known.version) (gone : (known.expire now).value = none)
      : Merged known incoming now (incoming.expire now)
  | prolonged (same : incoming.version = known.version) {value : Bytes} {held fact : Int}
      (values : known.value = some value ∧ incoming.value = some value)
      (deadlines : known.deadline = some held ∧ incoming.deadline = some fact)
      (lasts : now < held)
      : Merged known incoming now { known with deadline := some (max held fact) }

variable {current : Option Record}

/-- Both records of a merge are valid, and the time is one. -/
theorem valid_of_merge (merged : Record.merge current incoming now = .ok change)
    : current.all Record.valid = true ∧ incoming.valid = true ∧ 0 ≤ now := by
  unfold Record.merge at merged
  split at merged
  · cases merged
  rename_i checked
  simp only [Catalog.valid, Option.all_some, not_or, Bool.not_eq_true', Bool.not_eq_false,
    Bool.and_eq_true, not_lt] at checked
  exact ⟨checked.1.1, checked.1.2, checked.2⟩

/-- A merge meets `Merged`. Witness: its branches. -/
theorem merged_of_merge (merged : Record.merge (some known) incoming now = .ok change)
    : Merged known incoming now change.record
      ∧ change.visible = visible (some known) change.record := by
  obtain ⟨validKnown, validIncoming, _⟩ := valid_of_merge merged
  rw [Option.all_some] at validKnown
  unfold Record.merge at merged
  split at merged
  · cases merged
  dsimp only at merged
  split at merged
  · cases merged
  rename_i agree
  cases merged
  refine ⟨?_, rfl⟩
  dsimp only
  split
  next above => exact .newer above
  rename_i notAbove
  split
  next both =>
    obtain ⟨same, lasts⟩ := both
    split
    next gone => exact .revived same (by simpa using gone)
    rename_i kept
    obtain ⟨value, isValue⟩ := Option.isSome_iff_exists.mp lasts
    obtain ⟨held, isHeld⟩ : ∃ held, (known.expire now).value = some held :=
      Option.ne_none_iff_exists'.mp (by simpa using kept)
    obtain ⟨fact, present, lease, unchanged⟩ := lease_of_expire validIncoming isValue
    obtain ⟨limit, presentKnown, leaseKnown, unchangedKnown⟩ :=
      lease_of_expire validKnown isHeld
    have equal : held = value := by
      by_contra different
      exact agree ⟨same.symm, by simp [presentKnown], by simp [present],
        by simpa [present, presentKnown] using different⟩
    subst equal
    have lasting : now < limit := by
      by_contra gone
      rw [Record.expire_of_le leaseKnown (not_lt.mp gone)] at isHeld
      cases isHeld
    rw [unchanged, unchangedKnown, lease, leaseKnown]
    exact .prolonged same ⟨presentKnown, present⟩ ⟨leaseKnown, lease⟩ lasting
  rename_i either
  rcases Nat.lt_or_ge incoming.version known.version with below | above
  · exact .older below
  · have same : incoming.version = known.version := by omega
    refine .ended same ?_
    simpa [same] using either

variable {result : Record}

/-- Merging is taking the larger record, for every observer who looks later. -/
theorem Merged.rankAt (merged : Merged known incoming now result) (validKnown : known.valid = true)
    (validIncoming : incoming.valid = true) (before : now ≤ time)
    : result.rankAt time = max (known.rankAt time) (incoming.rankAt time) := by
  have early (record : Record) : (record.expire now).rankAt time = record.rankAt time := by
    unfold Record.rankAt
    rw [Record.expire_expire before]
  cases merged with
  | newer above =>
      rw [early, Record.rankAt_eq, Record.rankAt_eq, max_eq_right]
      exact Prod.Lex.toLex_le_toLex.mpr (.inl above)
  | older below =>
      rw [early, Record.rankAt_eq, Record.rankAt_eq, max_eq_left]
      exact Prod.Lex.toLex_le_toLex.mpr (.inl below)
  | ended same gone =>
      rw [early, Record.rankAt_eq, Record.rankAt_eq, same, max_toLex,
        left_of_expired validIncoming gone before, max_eq_left bot_le]
  | revived same gone =>
      rw [early, Record.rankAt_eq, Record.rankAt_eq, same, max_toLex,
        left_of_expired validKnown gone before, max_eq_right bot_le]
  | prolonged same values deadlines lasts =>
      rw [Record.rankAt_eq, Record.rankAt_eq, Record.rankAt_eq, same, max_toLex, deadlines.1,
        deadlines.2, left_max]

theorem Merged.valid (merged : Merged known incoming now result) (validKnown : known.valid = true)
    (validIncoming : incoming.valid = true)
    : result.valid = true := by
  cases merged with
  | newer above => exact Record.valid_expire validIncoming
  | older below => exact Record.valid_expire validKnown
  | ended same gone => exact Record.valid_expire validKnown
  | revived same gone => exact Record.valid_expire validIncoming
  | prolonged same values deadlines lasts =>
      obtain ⟨version, paired, sizes, times⟩ := Record.valid_iff.mp validKnown
      refine Record.valid_iff.mpr ⟨version, by simp [values.1], sizes, ?_⟩
      rintro deadline ⟨⟩
      exact le_max_of_le_left (times _ deadlines.1)

/-- Leases that have ended are gone. -/
theorem Merged.expire_eq (merged : Merged known incoming now result)
    : result.expire now = result := by
  cases merged with
  | newer above => exact Record.expire_expire le_rfl
  | older below => exact Record.expire_expire le_rfl
  | ended same gone => exact Record.expire_expire le_rfl
  | revived same gone => exact Record.expire_expire le_rfl
  | prolonged same values deadlines lasts =>
      exact Record.expire_of_lt rfl (lt_max_of_lt_left lasts)

/-- The version never falls. -/
theorem Merged.version_eq (merged : Merged known incoming now result)
    : result.version = max known.version incoming.version := by
  cases merged with
  | newer above => rw [Record.version_expire, max_eq_right above.le]
  | older below => rw [Record.version_expire, max_eq_left below.le]
  | ended same gone => rw [Record.version_expire, same, max_self]
  | revived same gone => rw [Record.version_expire, same, max_self]
  | prolonged same values deadlines lasts => rw [same, max_self]

-- Runs

/-- What happens to the record of a key: a fact is merged, or leases are ended. -/
inductive Task where
  | merge (fact : Record) (now : Int)
  | expire (now : Int)

def Task.moment : Task → Int
  | .merge _ moment => moment
  | .expire moment => moment

def facts (tasks : List Task) : List Record :=
  tasks.filterMap fun
    | .merge fact _ => some fact
    | .expire _ => none

def perform (current : Option Record) : Task → Except Error (Option Record)
  | .merge fact now =>
      match Record.merge current fact now with
      | .error refused => .error refused
      | .ok change => .ok (some change.record)
  | .expire now => .ok (current.map (·.expire now))

def performs (current : Option Record) (tasks : List Task) : Except Error (Option Record) :=
  tasks.foldlM perform current

def Consistent (facts : List Record) : Prop :=
  ∀ first ∈ facts, ∀ second ∈ facts, first.version = second.version
    → ∀ one other, first.value = some one → second.value = some other → one = other

def Drawn (facts : List Record) (record : Record) : Prop :=
  ∀ value, record.value = some value
    → ∃ fact ∈ facts, fact.version = record.version ∧ fact.value = some value

/-- The stored record is the largest of the facts, for an observer at `time`. -/
structure Largest (facts : List Record) (time : Int) (record : Record) : Prop where
  valid : record.valid = true
  drawn : Drawn facts record
  above : ∀ fact ∈ facts, fact.rankAt time ≤ record.rankAt time
  among : ∃ fact ∈ facts, fact.rankAt time = record.rankAt time

def Stores (facts : List Record) (time : Int) : Option Record → Prop
  | none => facts = []
  | some record => Largest facts time record

theorem Drawn.mono {fewer more : List Record} (drawn : Drawn fewer record)
    (inside : ∀ fact ∈ fewer, fact ∈ more)
    : Drawn more record := by
  intro value present
  obtain ⟨fact, member, same⟩ := drawn value present
  exact ⟨fact, inside fact member, same⟩

theorem Drawn.expire {facts : List Record} (drawn : Drawn facts record)
    : Drawn facts (record.expire now) := by
  intro value present
  unfold Record.expire at present
  split at present
  · cases present
  · rw [Record.version_expire]
    exact drawn value present

theorem drawn_self {facts : List Record} (member : record ∈ facts) : Drawn facts record :=
  fun _ present => ⟨record, member, rfl, present⟩

/-- A merge that has nothing to object to succeeds. -/
theorem merge_total (validCurrent : current.all Record.valid = true)
    (validIncoming : incoming.valid = true) (started : 0 ≤ now)
    (agree : ∀ known, current = some known → known.version = incoming.version
      → ∀ one other, known.value = some one → incoming.value = some other → one = other)
    : ∃ change, Record.merge current incoming now = .ok change := by
  unfold Record.merge
  rw [if_neg (by simp [Catalog.valid, validCurrent, validIncoming, started])]
  cases current with
  | none => exact ⟨_, rfl⟩
  | some known =>
      dsimp only
      rw [if_neg]
      · exact ⟨_, rfl⟩
      rintro ⟨same, isKnown, isIncoming, different⟩
      obtain ⟨one, first⟩ := Option.isSome_iff_exists.mp isKnown
      obtain ⟨other, second⟩ := Option.isSome_iff_exists.mp isIncoming
      exact different (by rw [first, second, agree known rfl same one other first second])

/-- The first fact is stored. -/
theorem largest_single (valid : record.valid = true) (before : now ≤ time)
    : Largest [record] time (record.expire now) := by
  have early : (record.expire now).rankAt time = record.rankAt time := by
    unfold Record.rankAt
    rw [Record.expire_expire before]
  refine ⟨Record.valid_expire valid, (drawn_self (List.mem_singleton_self _)).expire, ?_, ?_⟩
  · intro fact member
    rw [List.mem_singleton.mp member, early]
  · exact ⟨record, List.mem_singleton_self _, early.symm⟩

/-- A further fact is taken into account. -/
theorem Largest.merged {facts : List Record} (largest : Largest facts time known)
    (merged : Merged known incoming now result) (valid : incoming.valid = true)
    (before : now ≤ time)
    : Largest (facts ++ [incoming]) time result := by
  have rank := merged.rankAt largest.valid valid before
  have old : ∀ fact ∈ facts, fact ∈ facts ++ [incoming] :=
    fun fact member => List.mem_append_left _ member
  have new : incoming ∈ facts ++ [incoming] :=
    List.mem_append_right _ (List.mem_singleton_self _)
  refine ⟨merged.valid largest.valid valid, ?_, ?_, ?_⟩
  · cases merged with
    | newer above => exact (drawn_self new).expire
    | older below => exact (largest.drawn.mono old).expire
    | ended same gone => exact (largest.drawn.mono old).expire
    | revived same gone => exact (drawn_self new).expire
    | prolonged same values deadlines lasts => exact largest.drawn.mono old
  · intro fact member
    rw [rank]
    rcases List.mem_append.mp member with earlier | last
    · exact le_max_of_le_left (largest.above fact earlier)
    · rw [List.mem_singleton.mp last]
      exact le_max_right _ _
  · rw [rank]
    rcases le_total (known.rankAt time) (incoming.rankAt time) with below | above
    · rw [max_eq_right below]
      exact ⟨incoming, new, rfl⟩
    · rw [max_eq_left above]
      obtain ⟨fact, member, same⟩ := largest.among
      exact ⟨fact, old fact member, same⟩

theorem Largest.expire {facts : List Record} (largest : Largest facts time record)
    (before : now ≤ time)
    : Largest facts time (record.expire now) := by
  have early : (record.expire now).rankAt time = record.rankAt time := by
    unfold Record.rankAt
    rw [Record.expire_expire before]
  refine ⟨Record.valid_expire largest.valid, largest.drawn.expire, ?_, ?_⟩
  · rw [early]
    exact largest.above
  · rw [early]
    exact largest.among

/-- What all tasks of a run have in common: they happen up to `time`, with valid facts. -/
def Fair (time : Int) (task : Task) : Prop :=
  0 ≤ task.moment ∧ task.moment ≤ time ∧ ∀ fact now, task = .merge fact now → fact.valid = true

variable {tasks : List Task}

/-- A run succeeds and stores the largest fact. Witness: induction over the tasks. -/
theorem performs_stores {earlier : List Record} (fair : ∀ task ∈ tasks, Fair time task)
    (consistent : Consistent (earlier ++ facts tasks)) (stores : Stores earlier time current)
    : ∃ last, performs current tasks = .ok last ∧ Stores (earlier ++ facts tasks) time last := by
  induction tasks generalizing earlier current with
  | nil => exact ⟨current, rfl, by simpa [facts] using stores⟩
  | cons task rest ih =>
      obtain ⟨started, before, valid⟩ := fair task List.mem_cons_self
      have fairRest : ∀ other ∈ rest, Fair time other :=
        fun other member => fair other (List.mem_cons_of_mem _ member)
      cases task with
      | expire now =>
          have ended : Stores earlier time (current.map (·.expire now)) := by
            cases current with
            | none => exact stores
            | some record => exact Largest.expire stores before
          obtain ⟨last, done, stored⟩ := ih fairRest consistent ended
          exact ⟨last, done, stored⟩
      | merge fact now =>
          have isValid := valid fact now rfl
          have split : earlier ++ facts (.merge fact now :: rest)
              = (earlier ++ [fact]) ++ facts rest := by
            simp [facts]
          rw [split] at consistent ⊢
          have inside : fact ∈ earlier ++ [fact] ++ facts rest := by simp
          obtain ⟨change, merged⟩ : ∃ change, Record.merge current fact now = .ok change := by
            refine merge_total ?_ isValid started ?_
            · cases current with
              | none => rfl
              | some known => exact stores.valid
            · rintro known ⟨⟩ same one other first second
              obtain ⟨source, member, version, value⟩ := stores.drawn one first
              exact consistent source (by simp [member]) fact inside (version.trans same) one
                other value second
          have stored : Stores (earlier ++ [fact]) time (some change.record) := by
            cases current with
            | none =>
                rw [show earlier = [] from stores]
                unfold Record.merge at merged
                split at merged
                · cases merged
                · cases merged
                  exact largest_single isValid before
            | some known => exact Largest.merged stores (merged_of_merge merged).1 isValid before
          obtain ⟨last, done, final⟩ := ih fairRest consistent stored
          refine ⟨last, ?_, final⟩
          simp only [performs, List.foldlM_cons, perform, merged]
          exact done

variable {one other : Record}

/-- Records with the same worth at some time are the same to an observer then. -/
theorem expire_eq_of_rankAt {facts : List Record} (consistent : Consistent facts)
    (first : Largest facts time one) (second : Largest facts time other)
    (same : one.rankAt time = other.rankAt time)
    : one.expire time = other.expire time := by
  have ranks : ((one.expire time).version, (one.expire time).deadline)
      = ((other.expire time).version, (other.expire time).deadline) :=
    toLex.injective same
  obtain ⟨versions, deadlines⟩ := Prod.mk.inj ranks
  have values : (one.expire time).value = (other.expire time).value := by
    have validOne : (one.expire time).valid = true := Record.valid_expire first.valid
    have validOther : (other.expire time).valid = true := Record.valid_expire second.valid
    have paired := (Record.valid_iff.mp validOne).2.1
    have pairedOther := (Record.valid_iff.mp validOther).2.1
    rw [deadlines, ← pairedOther] at paired
    cases isOne : (one.expire time).value with
    | none =>
        rw [isOne] at paired
        exact (Option.isNone_iff_eq_none.mp (by simpa using paired.symm)).symm
    | some value =>
        rw [isOne] at paired
        obtain ⟨shown, isOther⟩ := Option.isSome_iff_exists.mp paired.symm
        obtain ⟨fact, member, version, present⟩ := first.drawn.expire value isOne
        obtain ⟨twin, memberTwin, versionTwin, presentTwin⟩ :=
          second.drawn.expire shown isOther
        rw [isOther, consistent fact member twin memberTwin
          (version.trans (versions.trans versionTwin.symm)) value shown present presentTwin]
  exact Record.ext versions values deadlines

/-- Only which facts there are matters. -/
theorem Largest.congr {facts others : List Record} (largest : Largest facts time record)
    (same : ∀ fact, fact ∈ facts ↔ fact ∈ others)
    : Largest others time record := by
  refine ⟨largest.valid, largest.drawn.mono fun fact member => (same fact).mp member, ?_, ?_⟩
  · intro fact member
    exact largest.above fact ((same fact).mpr member)
  · obtain ⟨fact, member, equal⟩ := largest.among
    exact ⟨fact, (same fact).mp member, equal⟩

/-- The largest of the same facts are the same to an observer. -/
theorem Largest.expire_eq {facts : List Record} (consistent : Consistent facts)
    (first : Largest facts time one) (second : Largest facts time other)
    : one.expire time = other.expire time := by
  apply expire_eq_of_rankAt consistent first second
  obtain ⟨fact, member, isOne⟩ := first.among
  obtain ⟨twin, memberTwin, isOther⟩ := second.among
  apply le_antisymm
  · rw [← isOne]
    exact second.above fact member
  · rw [← isOther]
    exact first.above twin memberTwin

/-- A fact that is already counted changes nothing, except that leases end. -/
theorem Merged.eq_expire {facts : List Record} (merged : Merged known incoming now result)
    (consistent : Consistent facts) (largest : Largest facts now known)
    (valid : incoming.valid = true) (member : incoming ∈ facts)
    : result = known.expire now := by
  have counted : ∀ fact, fact ∈ facts ++ [incoming] ↔ fact ∈ facts := by
    intro fact
    simp only [List.mem_append, List.mem_singleton, or_iff_left_iff_imp]
    rintro rfl
    exact member
  rw [← merged.expire_eq]
  exact ((largest.merged merged valid le_rfl).congr counted).expire_eq consistent largest

/-- Merging a counted fact again ends leases and does nothing else. -/
theorem merge_counted {facts : List Record} (consistent : Consistent facts)
    (largest : Largest facts now known) (valid : incoming.valid = true) (started : 0 ≤ now)
    (member : incoming ∈ facts)
    : Record.merge (some known) incoming now
      = .ok { record := known.expire now, visible := visible (some known) (known.expire now) } := by
  obtain ⟨change, merged⟩ : ∃ change, Record.merge (some known) incoming now = .ok change := by
    refine merge_total largest.valid valid started ?_
    rintro known ⟨⟩ same one other first second
    obtain ⟨source, listed, version, value⟩ := largest.drawn one first
    exact consistent source listed incoming member (version.trans same) one other value second
  obtain ⟨isMerged, shown⟩ := merged_of_merge merged
  have kept := isMerged.eq_expire consistent largest valid member
  rw [merged, ← kept, ← shown]

theorem mem_facts {fact : Record}
    : fact ∈ facts tasks ↔ ∃ moment, Task.merge fact moment ∈ tasks := by
  unfold facts
  rw [List.mem_filterMap]
  constructor
  · rintro ⟨task, member, isFact⟩
    cases task with
    | merge other moment =>
        cases isFact
        exact ⟨moment, member⟩
    | expire moment => cases isFact
  · rintro ⟨moment, member⟩
    exact ⟨_, member, rfl⟩

-- The law

def version (current : Option Record) : Nat := current.elim 0 Record.version

theorem version_perform {next : Option Record} {task : Task}
    (performed : perform current task = .ok next)
    : version current ≤ version next := by
  cases task with
  | merge fact moment =>
      cases merged : Record.merge current fact moment with
      | error refused => simp [perform, merged] at performed
      | ok change =>
          simp only [perform, merged, Except.ok.injEq] at performed
          subst performed
          cases current with
          | none => exact Nat.zero_le _
          | some known =>
              change known.version ≤ change.record.version
              rw [(merged_of_merge merged).1.version_eq]
              exact le_max_left _ _
  | expire moment =>
      cases performed
      cases current with
      | none => exact le_rfl
      | some known =>
          rw [version, version, Option.map_some, Option.elim_some, Option.elim_some,
            Record.version_expire]

theorem version_performs {last : Option Record} (performed : performs current tasks = .ok last)
    : version current ≤ version last := by
  induction tasks generalizing current with
  | nil =>
      cases performed
      exact le_rfl
  | cons task rest ih =>
      rw [performs, List.foldlM_cons] at performed
      cases isNext : perform current task with
      | error refused =>
          rw [isNext] at performed
          cases performed
      | ok next =>
          rw [isNext] at performed
          exact (version_perform isNext).trans (ih performed)

/-- What a run of merges is worth: the same facts leave the same record to every observer who
looks at `time`, in whatever order, however often and whenever they were merged before then; a
fact that was merged once changes nothing but that leases end; and no task takes the version
back.
-/
theorem merge_law {time : Int} {one other : List Task}
    (fair : ∀ task ∈ one ++ other, Fair time task) (consistent : Consistent (facts one))
    (same : ∀ fact, fact ∈ facts one ↔ fact ∈ facts other)
    : ∃ first second, performs none one = .ok first ∧ performs none other = .ok second
        ∧ first.map (·.expire time) = second.map (·.expire time)
        ∧ (∀ current, (first.map (·.expire time)).map (visible current)
          = (second.map (·.expire time)).map (visible current))
        ∧ (∀ record fact, first = some record → fact ∈ facts one
          → Record.merge first fact time
            = .ok
                { record := record.expire time
                  visible := visible first (record.expire time) })
        ∧ ∀ earlier later reached, one = earlier ++ later → performs none earlier = .ok reached
          → version reached ≤ version first := by
  have consistentOther : Consistent (facts other) := by
    intro fact member twin memberTwin
    exact consistent fact ((same fact).mpr member) twin ((same twin).mpr memberTwin)
  have fairOne : ∀ task ∈ one, Fair time task :=
    fun task member => fair task (List.mem_append_left _ member)
  have fairOther : ∀ task ∈ other, Fair time task :=
    fun task member => fair task (List.mem_append_right _ member)
  obtain ⟨first, isFirst, storesFirst⟩ :=
    performs_stores fairOne (show Consistent ([] ++ facts one) from consistent)
      (show Stores [] time none from rfl)
  obtain ⟨second, isSecond, storesSecond⟩ :=
    performs_stores fairOther (show Consistent ([] ++ facts other) from consistentOther)
      (show Stores [] time none from rfl)
  rw [List.nil_append] at storesFirst storesSecond
  have equal : first.map (·.expire time) = second.map (·.expire time) := by
    cases first with
    | none =>
        have empty : facts other = [] := by
          rw [List.eq_nil_iff_forall_not_mem]
          intro fact member
          have listed := (same fact).mpr member
          rw [show facts one = [] from storesFirst] at listed
          cases listed
        cases second with
        | none => rfl
        | some record =>
            obtain ⟨fact, member, _⟩ := storesSecond.among
            rw [empty] at member
            cases member
    | some record =>
        cases second with
        | none =>
            obtain ⟨fact, member, _⟩ := storesFirst.among
            have listed := (same fact).mp member
            rw [show facts other = [] from storesSecond] at listed
            cases listed
        | some twin =>
            have counted := Largest.congr storesSecond fun fact => (same fact).symm
            exact congrArg some (Largest.expire_eq consistent storesFirst counted)
  refine ⟨first, second, isFirst, isSecond, equal, ?_, ?_, ?_⟩
  · intro current
    rw [equal]
  · rintro record fact rfl member
    obtain ⟨moment, listed⟩ := mem_facts.mp member
    obtain ⟨started, before, valid⟩ := fairOne _ listed
    exact merge_counted consistent storesFirst (valid fact moment rfl) (started.trans before) member
  · rintro earlier later reached rfl isReached
    rw [performs, List.foldlM_append] at isFirst
    rw [performs] at isReached
    rw [isReached] at isFirst
    exact version_performs isFirst

/-- Two facts of one version and a later one without a value, merged in two ways. -/
theorem merge_law_twice
    : ∃ first second, performs none
          [ .merge ⟨1, some [1], some 50⟩ 10, .merge ⟨1, some [1], some 90⟩ 60, .expire 70,
            .merge ⟨2, none, none⟩ 75 ] = .ok first
        ∧ performs none
          [ .merge ⟨2, none, none⟩ 5, .merge ⟨1, some [1], some 90⟩ 20,
            .merge ⟨1, some [1], some 50⟩ 30, .merge ⟨2, none, none⟩ 80 ] = .ok second
        ∧ first.map (·.expire 80) = second.map (·.expire 80) := by
  obtain ⟨first, second, isFirst, isSecond, same, _⟩ := @merge_law 80
    [ .merge ⟨1, some [1], some 50⟩ 10, .merge ⟨1, some [1], some 90⟩ 60, .expire 70,
      .merge ⟨2, none, none⟩ 75 ]
    [ .merge ⟨2, none, none⟩ 5, .merge ⟨1, some [1], some 90⟩ 20,
      .merge ⟨1, some [1], some 50⟩ 30, .merge ⟨2, none, none⟩ 80 ]
    (by simp [Fair, Task.moment, Record.valid]) (by simp [Consistent, facts])
    (by simp only [facts, List.filterMap]; grind)
  exact ⟨first, second, isFirst, isSecond, same⟩

end Astra.Catalog
