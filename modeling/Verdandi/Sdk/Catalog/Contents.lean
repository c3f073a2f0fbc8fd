import Verdandi.Sdk.Catalog.Zone

/-! What the arguments of a mutation say once its checks have passed: numbers in range, fields of one
kind in their order, and a record that is valid again.
-/

namespace Sdk.Catalog

open Support
open Support.Redis (Text Database)

-- Numbers in range

theorem maximumRevision_eq : maximumRevision = Decimal.text lastRevision := by
  decide

@[simp]
theorem text_zero : ascii "0" = Decimal.text 0 := rfl

theorem startsPositive_iff {value : Text}
    : startsPositive value = true ↔ ∃ number, number ≠ 0 ∧ value = Decimal.text number := by
  constructor
  · intro starts
    have canonical : Decimal.Canonical value := by
      cases value with
      | nil => cases starts
      | cons first rest =>
          simp only [startsPositive, Bool.and_eq_true, decide_eq_true_eq, List.all_eq_true]
            at starts
          obtain ⟨⟨low, high⟩, digits⟩ := starts
          refine .inr ⟨first, rest, rfl, ?_, ?_, digits⟩
          · rw [Decimal.isDigit_iff]
            rw [UInt8.le_iff_toNat_le] at low high
            exact ⟨(by decide : 48 ≤ (49 : UInt8).toNat).trans low, high⟩
          · rintro rfl
            exact absurd low (by decide)
    refine ⟨Decimal.value value, ?_, canonical.text_value.symm⟩
    intro zero
    have isZero := canonical.text_value
    rw [zero] at isZero
    rw [← isZero] at starts
    exact absurd starts (by decide)
  · rintro ⟨number, positive, rfl⟩
    rcases Decimal.canonical_text number with zero | ⟨first, rest, isText, digit, other, digits⟩
    · have isZero := congrArg Decimal.value zero
      rw [Decimal.value_text] at isZero
      exact absurd isZero positive
    · have bounds := Decimal.isDigit_iff.mp digit
      have low : (49 : UInt8) ≤ first := by
        have different : first.toNat ≠ 48 := fun same => other (UInt8.toNat_inj.mp same)
        rw [UInt8.le_iff_toNat_le]
        exact Nat.lt_of_le_of_ne bounds.1 (Ne.symm different)
      have high : first ≤ 57 := UInt8.le_iff_toNat_le.mpr bounds.2
      rw [isText, startsPositive]
      simpa [low, high] using digits

theorem startsPositive_text (number : Nat)
    : startsPositive (Decimal.text number) = decide (number ≠ 0) := by
  rw [Bool.eq_iff_iff, startsPositive_iff, decide_eq_true_iff]
  constructor
  · rintro ⟨other, positive, same⟩
    rwa [Decimal.text_injective same]
  · exact fun positive => ⟨number, positive, rfl⟩

@[simp]
theorem canonicalNonnegative_text (number : Nat)
    : canonicalNonnegative (some (Decimal.text number)) = decide (number ≤ lastRevision) := by
  have most := Decimal.less_text lastRevision number
  rw [← maximumRevision_eq, Decimal.less] at most
  by_cases zero : number = 0
  · subst zero
    rfl
  · have different : (Decimal.text number == ascii "0") = false := by
      rw [text_zero, beq_eq_false_iff_ne]
      exact fun same => zero (Decimal.text_injective same)
    rw [canonicalNonnegative, different, startsPositive_text, decide_eq_true zero, Bool.false_or,
      Bool.true_and]
    rcases Nat.lt_trichotomy (Decimal.text number).length maximumRevision.length
      with shorter | same | longer
    · rw [if_pos (by omega), decide_eq_false (by omega), eq_comm, decide_eq_false_iff_not] at most
      simp only [shorter, decide_true, Bool.true_or, eq_comm (a := true), decide_eq_true_eq]
      omega
    · rw [if_neg (by simp [same])] at most
      simp only [same, lt_self_iff_false, decide_false, beq_self_eq_true, Bool.true_and,
        Bool.false_or]
      rw [decide_eq_decide] at most ⊢
      rw [← List.not_lt, most, Nat.not_lt]
    · rw [if_pos (by omega), decide_eq_true (by omega), eq_comm, decide_eq_true_eq] at most
      rw [decide_eq_false (by omega), beq_eq_false_iff_ne.mpr (by omega), Bool.false_and,
        Bool.false_or, eq_comm, decide_eq_false_iff_not]
      omega

@[simp]
theorem canonicalPositive_text (number : Nat)
    : canonicalPositive (some (Decimal.text number))
      = decide (1 ≤ number ∧ number ≤ lastRevision) := by
  rw [canonicalPositive, canonicalNonnegative_text, Bool.eq_iff_iff]
  simp [Decimal.text_injective.eq_iff]
  omega

variable {value : Option Text}

theorem canonicalNonnegative_iff
    : canonicalNonnegative value = true
      ↔ ∃ number, number ≤ lastRevision ∧ value = some (Decimal.text number) := by
  constructor
  · intro canonical
    cases value with
    | none => cases canonical
    | some value =>
        have whole : ∃ number, value = Decimal.text number := by
          simp only [canonicalNonnegative, Bool.or_eq_true, Bool.and_eq_true] at canonical
          rcases canonical with zero | ⟨starts, _⟩
          · exact ⟨0, eq_of_beq zero⟩
          · obtain ⟨number, _, isText⟩ := startsPositive_iff.mp starts
            exact ⟨number, isText⟩
        obtain ⟨number, rfl⟩ := whole
        rw [canonicalNonnegative_text, decide_eq_true_iff] at canonical
        exact ⟨number, canonical, rfl⟩
  · rintro ⟨number, small, rfl⟩
    rw [canonicalNonnegative_text, decide_eq_true small]

/-- A count is the text of a number that is small enough. -/
theorem canonicalCount_iff {maximum count : Nat}
    : canonicalCount value maximum = some count
      ↔ count ≤ maximum ∧ value = some (Decimal.text count) := by
  cases value with
  | none => simp [canonicalCount]
  | some value =>
      have whole : ¬(value ≠ ascii "0" ∧ startsPositive value = false)
          ↔ ∃ number, value = Decimal.text number := by
        constructor
        · intro canonical
          by_cases zero : value = ascii "0"
          · exact ⟨0, zero⟩
          · by_cases starts : startsPositive value = true
            · obtain ⟨number, _, isText⟩ := startsPositive_iff.mp starts
              exact ⟨number, isText⟩
            · exact absurd ⟨zero, Bool.eq_false_of_not_eq_true starts⟩ canonical
        · rintro ⟨number, rfl⟩ ⟨notZero, starts⟩
          rw [startsPositive_text, decide_eq_false_iff_not, not_not] at starts
          exact notZero (by rw [starts, text_zero])
      rw [canonicalCount]
      split
      next wrong =>
        constructor
        · nofun
        · rintro ⟨_, isText⟩
          exact absurd wrong (whole.mpr ⟨count, Option.some.inj isText⟩)
      rename_i right
      obtain ⟨number, rfl⟩ := whole.mp right
      rw [Decimal.value_text]
      split
      next large =>
        constructor
        · nofun
        · rintro ⟨small, isText⟩
          rw [Decimal.text_injective (Option.some.inj isText)] at large
          omega
      rename_i small
      rw [Option.some.injEq, Option.some.injEq, Decimal.text_injective.eq_iff]
      constructor
      · rintro rfl
        exact ⟨Nat.not_lt.mp small, rfl⟩
      · exact fun found => found.2

@[simp]
theorem Kind.parse_text (kind : Kind) : Kind.parse kind.text = some kind := by
  cases kind <;> decide

-- Listed fields

/-- What the loop over a new value has checked, from one of its fields on. -/
def Kind.Follows (kind : Kind) (index : Nat) (previous : Option Text) (names : List Text) : Prop :=
  match kind with
  | .value => ∀ name ∈ names, name = ascii "value"
  | .array => names = (List.range' index names.length).map Decimal.text
  | .map => (previous.toList ++ names).Pairwise (· < ·)

variable {name : Text} {names : List Text}

theorem pairwise_cons {first : Text} (less : first < name)
    (later : (name :: names).Pairwise (· < ·))
    : (first :: name :: names).Pairwise (· < ·) := by
  refine List.pairwise_cons.mpr ⟨?_, later⟩
  intro other listed
  rcases List.mem_cons.mp listed with rfl | below
  · exact less
  · exact List.lt_trans less ((List.pairwise_cons.mp later).1 other below)

variable {kind : Kind} {fields : List (Text × Text)}

/-- An accepted value is in order and as large as it is counted. Witness: induction over the fields;
each is checked against its index and the one before it.
-/
theorem calculate_some {index bytes total : Nat} {previous : Option Text}
    (accepted : calculate kind index previous bytes fields = some total)
    : total = bytes + listBytes fields ∧ (∀ field ∈ fields, userField field.1 = true)
      ∧ kind.Follows index previous (fields.map Prod.fst) := by
  induction fields generalizing index bytes previous with
  | nil =>
      cases accepted
      refine ⟨rfl, nofun, ?_⟩
      cases kind <;> cases previous <;> simp [Kind.Follows]
  | cons field rest ih =>
      obtain ⟨name, value⟩ := field
      simp only [calculate] at accepted
      by_cases user : userField name = false
      · rw [if_pos user] at accepted
        cases accepted
      rw [if_neg user] at accepted
      by_cases misplaced : kind.places index previous name = false
      · rw [if_pos misplaced] at accepted
        cases accepted
      rw [if_neg misplaced] at accepted
      have placed := Bool.eq_true_of_not_eq_false misplaced
      obtain ⟨isTotal, users, follows⟩ := ih accepted
      refine ⟨?_, ?_, ?_⟩
      · simp only [isTotal, listBytes, List.map_cons, List.sum_cons, fieldBytes]
        omega
      · intro field listed
        rcases List.mem_cons.mp listed with rfl | later
        · exact Bool.eq_true_of_not_eq_false user
        · exact users field later
      · cases kind with
        | value =>
            intro other listed
            rcases List.mem_cons.mp listed with rfl | later
            · exact of_decide_eq_true placed
            · exact follows other later
        | array =>
            have first : name = Decimal.text index := of_decide_eq_true placed
            simp only [Kind.Follows] at follows ⊢
            rw [List.map_cons, List.length_cons, List.range'_succ, List.map_cons, ← follows,
              ← first]
        | map =>
            cases previous with
            | none => exact follows
            | some before =>
                have less : before < name := of_decide_eq_true placed
                exact pairwise_cons less follows

section Project

variable {store : Store} {path : Path} {kind : Kind} {currentRevision : Text}
  {previous : Option Text} {bytes projectedBytes : Int} {count projectedFields : Nat}
  {sets : List (Text × Text)}

variable {result : Int × Nat}

/-- What the loop over a patch does with its first field, unless it refuses. -/
theorem project_cons {name value : Text}
    (accepted
      : project store path kind currentRevision previous bytes count ((name, value) :: sets)
        = .ok result)
    : userField name = true ∧ (∀ before ∈ previous, before < name)
      ∧ ((store.hget (.catalog path) name = none ∧ kind ≠ .array
          ∧ project store path kind currentRevision (some name)
              (bytes + name.length + value.length) (count + 1) sets = .ok result)
        ∨ ∃ old, store.hget (.catalog path) name = some old
          ∧ project store path kind currentRevision (some name)
              (bytes + value.length - old.length) count sets = .ok result) := by
  rw [project] at accepted
  by_cases user : userField name = false
  · rw [if_pos user] at accepted
    cases accepted
  rw [if_neg user] at accepted
  by_cases indexed : kind = .array ∧ name ≠ ascii "0" ∧ startsPositive name = false
  · rw [if_pos indexed] at accepted
    cases accepted
  rw [if_neg indexed] at accepted
  by_cases misplaced : (previous.all fun previous => decide (previous < name)) = false
  · rw [if_pos misplaced] at accepted
    cases accepted
  rw [if_neg misplaced] at accepted
  refine ⟨Bool.eq_true_of_not_eq_false user, ?_, ?_⟩
  · rintro before rfl
    simpa using misplaced
  · cases found : store.hget (.catalog path) name with
    | none =>
        simp only [found] at accepted
        by_cases isArray : kind = .array
        · rw [if_pos isArray] at accepted
          cases accepted
        · rw [if_neg isArray] at accepted
          exact .inl ⟨rfl, isArray, accepted⟩
    | some old =>
        simp only [found] at accepted
        exact .inr ⟨old, rfl, accepted⟩

/-- An accepted patch is in order. Witness: induction over its fields. -/
theorem project_listed
    (accepted
      : project store path kind currentRevision previous bytes count sets = .ok result)
    : (∀ set ∈ sets, userField set.1 = true)
      ∧ (previous.toList ++ sets.map Prod.fst).Pairwise (· < ·)
      ∧ (kind = .array → ∀ set ∈ sets, (store.hget (.catalog path) set.1).isSome) := by
  induction sets generalizing previous bytes count with
  | nil =>
      refine ⟨nofun, ?_, nofun⟩
      cases previous <;> simp
  | cons set rest ih =>
      obtain ⟨name, value⟩ := set
      obtain ⟨user, placed, step⟩ := project_cons accepted
      have later : (∀ set ∈ rest, userField set.1 = true)
          ∧ (name :: rest.map Prod.fst).Pairwise (· < ·)
          ∧ (kind = .array → ∀ set ∈ rest, (store.hget (.catalog path) set.1).isSome) := by
        rcases step with ⟨_, _, after⟩ | ⟨_, _, after⟩
        · exact ih after
        · exact ih after
      obtain ⟨users, orders, known⟩ := later
      refine ⟨?_, ?_, ?_⟩
      · intro set listed
        rcases List.mem_cons.mp listed with rfl | member
        · exact user
        · exact users set member
      · cases previous with
        | none => exact orders
        | some before => exact pairwise_cons (placed before rfl) orders
      · intro isArray set listed
        rcases List.mem_cons.mp listed with rfl | member
        · rcases step with ⟨_, other, _⟩ | ⟨old, found, _⟩
          · exact absurd isArray other
          · rw [found, Option.isSome_some]
        · exact known isArray set member

/-- An accepted patch is counted against what it overwrites. Witness: induction over its fields; names
do not repeat, so each overwrites what was there before the patch.
-/
theorem project_counts {fields : Assoc Text Text}
    (accepted
      : project store path kind currentRevision previous bytes count sets
        = .ok (projectedBytes, projectedFields))
    (same : ∀ set ∈ sets, store.hget (.catalog path) set.1 = fields.get? set.1)
    : projectedBytes + fields.weight fieldBytes
        = bytes + (Database.setAll fields sets).weight fieldBytes
      ∧ projectedFields + fields.size = count + (Database.setAll fields sets).size := by
  induction sets generalizing previous bytes count fields with
  | nil =>
      cases accepted
      exact ⟨rfl, rfl⟩
  | cons set rest ih =>
      obtain ⟨name, value⟩ := set
      obtain ⟨_, orders, _⟩ := project_listed accepted
      obtain ⟨_, _, step⟩ := project_cons accepted
      have first : store.hget (.catalog path) name = fields.get? name :=
        same (name, value) List.mem_cons_self
      have write : Database.setAll fields ((name, value) :: rest)
          = Database.setAll (fields.set name value) rest := rfl
      have later : ∀ set ∈ rest,
          store.hget (.catalog path) set.1 = (fields.set name value).get? set.1 := by
        intro set listed
        have less : name < set.1 :=
          (List.pairwise_cons.mp (List.pairwise_append.mp orders).2.1).1 set.1
            (List.mem_map_of_mem listed)
        have different : set.1 ≠ name := by
          intro repeated
          rw [repeated] at less
          exact List.lt_irrefl name less
        rw [Assoc.get?_set, if_neg different]
        exact same set (List.mem_cons_of_mem _ listed)
      rcases step with ⟨missing, _, after⟩ | ⟨old, found, after⟩
      · obtain ⟨weights, sizes⟩ := ih after later
        rw [missing] at first
        rw [Assoc.weight_set_of_none first.symm, fieldBytes] at weights
        rw [Assoc.size_set_of_none first.symm] at sizes
        rw [write]
        constructor
        · push_cast at weights ⊢
          omega
        · omega
      · obtain ⟨weights, sizes⟩ := ih after later
        rw [found] at first
        have replaced := Assoc.weight_set_of_some first.symm fieldBytes value
        rw [Assoc.size_set_of_some first.symm] at sizes
        rw [fieldBytes, fieldBytes] at replaced
        rw [write]
        constructor
        · omega
        · omega

/-- A patch is never refused as corrupt. -/
theorem project_error {answer : Answer}
    (refused
      : project store path kind currentRevision previous bytes count sets = .error answer)
    : ∃ status field revision, answer = .error status field revision ∧ status ≠ .corrupt := by
  induction sets generalizing previous bytes count with
  | nil => cases refused
  | cons set rest ih =>
      obtain ⟨name, value⟩ := set
      rw [project] at refused
      by_cases user : userField name = false
      · rw [if_pos user] at refused
        cases refused
        exact ⟨_, _, _, rfl, nofun⟩
      rw [if_neg user] at refused
      by_cases indexed : kind = .array ∧ name ≠ ascii "0" ∧ startsPositive name = false
      · rw [if_pos indexed] at refused
        cases refused
        exact ⟨_, _, _, rfl, nofun⟩
      rw [if_neg indexed] at refused
      by_cases misplaced : (previous.all fun previous => decide (previous < name)) = false
      · rw [if_pos misplaced] at refused
        cases refused
        exact ⟨_, _, _, rfl, nofun⟩
      rw [if_neg misplaced] at refused
      cases found : store.hget (.catalog path) name with
      | none =>
          simp only [found] at refused
          by_cases isArray : kind = .array
          · rw [if_pos isArray] at refused
            cases refused
            exact ⟨_, _, _, rfl, nofun⟩
          · rw [if_neg isArray] at refused
            exact ih refused
      | some old =>
          simp only [found] at refused
          exact ih refused

end Project

/-- The names of a value are distinct. -/
theorem Kind.Orders.nodup {kind : Kind} {names : List Text} (orders : kind.Orders names)
    : names.Nodup := by
  cases kind with
  | value =>
      rw [show names = [ascii "value"] from orders]
      exact List.nodup_singleton _
  | array =>
      rw [show names = (List.range names.length).map Decimal.text from orders]
      exact List.nodup_range.map Decimal.text_injective
  | map =>
      refine List.Pairwise.imp ?_ (show names.Pairwise (· < ·) from orders)
      rintro first _ less rfl
      exact List.lt_irrefl first less

theorem Record.Takes.nodup {record : Record} {sets : List (Text × Text)} (takes : record.Takes sets)
    : (sets.map Prod.fst).Nodup :=
  @Kind.Orders.nodup .map _ takes.orders

variable {revision : Nat}

theorem Record.isSome_whole
    : ((Record.whole revision kind fields).fields.get? name).isSome
      ↔ name ∈ fields.map Prod.fst := by
  rw [Record.whole, Redis.isSome_setAll, Assoc.get?_empty]
  simp

theorem Record.written_whole
    : (Record.whole revision kind fields).written.get? name
      = if name ∈ fields.map Prod.fst then some revision else none := by
  rw [Record.whole, Redis.get?_setAll_const, Assoc.get?_empty]

variable {record : Record} {sets : List (Text × Text)}

theorem Record.isSome_write
    : ((record.write revision sets).fields.get? name).isSome
      ↔ name ∈ sets.map Prod.fst ∨ (record.fields.get? name).isSome :=
  Redis.isSome_setAll

theorem Record.written_write
    : (record.write revision sets).written.get? name
      = if name ∈ sets.map Prod.fst then some revision else record.written.get? name := by
  rw [Record.write, Redis.get?_setAll_const]

theorem Kind.Lists.size_whole (lists : kind.Lists fields) (revision : Nat)
    : (Record.whole revision kind fields).fields.size = fields.length :=
  (Redis.size_setAll lists.orders.nodup fun _ _ => Assoc.get?_empty _).trans (Nat.zero_add _)

theorem Kind.Lists.encodedBytes_whole (lists : kind.Lists fields) (revision : Nat)
    : (Record.whole revision kind fields).encodedBytes = listBytes fields :=
  (Redis.weight_setAll _ lists.orders.nodup fun _ _ => Assoc.get?_empty _).trans (Nat.zero_add _)

/-- What is written as a whole is valid. -/
theorem Kind.Lists.valid (lists : kind.Lists fields) (positive : 1 ≤ revision)
    : (Record.whole revision kind fields).Valid := by
  refine ⟨positive, Nat.le_refl _, ?_, (lists.size_whole revision).trans_le lists.few,
    (lists.encodedBytes_whole revision).trans_le lists.small, ?_, ?_, ?_⟩
  · intro name found
    obtain ⟨field, listed, rfl⟩ := List.mem_map.mp (Record.isSome_whole.mp found)
    exact lists.users field listed
  · cases kind with
    | value =>
        intro name
        rw [Record.isSome_whole, show fields.map Prod.fst = [ascii "value"] from lists.orders,
          List.mem_singleton]
    | array =>
        have orders : fields.map Prod.fst
            = (List.range (fields.map Prod.fst).length).map Decimal.text := lists.orders
        rw [List.length_map] at orders
        intro name
        rw [Record.isSome_whole, lists.size_whole, orders, List.mem_map]
        constructor
        · rintro ⟨index, inside, rfl⟩
          exact ⟨index, List.mem_range.mp inside, rfl⟩
        · rintro ⟨index, inside, rfl⟩
          exact ⟨index, List.mem_range.mpr inside, rfl⟩
    | map => trivial
  · intro name
    rw [Bool.eq_iff_iff, Record.isSome_whole, Record.written_whole]
    split <;> simp_all
  · intro name found has
    rw [Record.written_whole] at has
    split at has <;> cases has
    exact ⟨Nat.le_refl _, Nat.le_refl _⟩

theorem Record.Valid.unwritten (valid : record.Valid) (nothing : record.written.size = 0)
    : record.fields.size = 0 := by
  have empty : record.fields.get? = (∅ : Assoc Text Text).get? := by
    funext name
    have both := valid.indexed name
    rw [Redis.eq_empty_of_size nothing, Assoc.get?_empty, Option.isSome_none, eq_comm,
      Option.isSome_eq_false_iff, Option.isNone_iff_eq_none] at both
    rw [both, Assoc.get?_empty]
  exact Assoc.size_congr empty

/-- The loop over a whole value leaves its names in order. -/
theorem Kind.Follows.orders (follows : kind.Follows 0 none names)
    (single : kind = .value → names.length = 1)
    : kind.Orders names := by
  cases kind with
  | value =>
      obtain ⟨name, rfl⟩ := List.length_eq_one_iff.mp (single rfl)
      exact congrArg (fun name => [name]) (follows name (List.mem_singleton_self _))
  | array =>
      have whole : names = (List.range' 0 names.length).map Decimal.text := follows
      rw [← List.range_eq_range'] at whole
      exact whole
  | map => exact follows

/-- What is written to a valid record leaves it valid. -/
theorem Record.Takes.valid (takes : record.Takes sets) (valid : record.Valid)
    (later : record.revision ≤ revision)
    : (record.write revision sets).Valid := by
  refine ⟨valid.positive, valid.ordered.trans later, ?_, takes.few, takes.small, ?_, ?_, ?_⟩
  · intro name found
    rcases Record.isSome_write.mp found with written | before
    · obtain ⟨field, listed, rfl⟩ := List.mem_map.mp written
      exact takes.users field listed
    · exact valid.names name before
  · have size : record.kind = .array
        → (record.write revision sets).fields.size = record.fields.size := fun isArray =>
      Redis.size_setAll_of_known (takes.known isArray)
    have shape := valid.shape
    change record.kind.Shapes _
    cases isKind : record.kind with
    | value => exact absurd isKind takes.several
    | array =>
        rw [isKind] at shape
        intro name
        rw [size isKind, Record.isSome_write]
        constructor
        · rintro (written | before)
          · obtain ⟨field, listed, rfl⟩ := List.mem_map.mp written
            exact (shape field.1).mp (takes.known isKind field listed)
          · exact (shape name).mp before
        · exact fun inside => .inr ((shape name).mpr inside)
    | map => trivial
  · intro name
    have before := valid.indexed name
    rw [Bool.eq_iff_iff] at before ⊢
    rw [Record.written_write, Record.isSome_write, ← before]
    split <;> simp_all
  · intro name found has
    rw [Record.written_write] at has
    split at has
    · cases has
      exact ⟨valid.ordered.trans later, Nat.le_refl _⟩
    · have before := valid.since name found has
      exact ⟨before.1, before.2.trans later⟩

-- Mutations keep a zone valid

theorem Mutates.valid {zone next : Zone} {path : Path} {answer : Answer} {event : Option Event}
    (mutates : Mutates zone path answer event next) (valid : zone.Valid)
    : next.Valid := by
  cases mutates with
  | refused => exact valid
  | replaced kind fields room lists =>
      exact valid.replace room (lists.valid (Nat.le_add_left 1 _))
  | patched record sets room found takes =>
      have counted := valid.counted path record.revision (by rw [found, Item.revision])
      exact valid.patch room
        (takes.valid (valid.records path record found) (counted.2.trans (Nat.le_succ _)))
  | deleted time next pruned room timely deletes => exact deletes.valid valid room timely

end Sdk.Catalog
