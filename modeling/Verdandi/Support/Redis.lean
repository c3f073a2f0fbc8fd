import Verdandi.Support.Assoc

/-! A keyspace of hashes and sorted sets. A key exists as long as what it holds is not empty, and the
commands on one kind of value see an empty value where the key is missing.
-/

namespace Support.Redis

/-- A binary-safe string. -/
abbrev Text := List UInt8

inductive Value where
  | string (text : Text)
  | hash (fields : Assoc Text Text)
  | zset (scores : Assoc Text Nat)

inductive Kind where
  | none
  | string
  | hash
  | zset
  deriving DecidableEq, Repr

/-- The keys of a database, with what they hold. -/
abbrev Database (Key : Type) := Assoc Key Value

namespace Database

variable {Key : Type} [DecidableEq Key]

def type (database : Database Key) (key : Key) : Kind :=
  match database.get? key with
  | .none => .none
  | some (.string _) => .string
  | some (.hash _) => .hash
  | some (.zset _) => .zset

def hash (database : Database Key) (key : Key) : Assoc Text Text :=
  match database.get? key with
  | some (.hash fields) => fields
  | _ => ∅

def zset (database : Database Key) (key : Key) : Assoc Text Nat :=
  match database.get? key with
  | some (.zset scores) => scores
  | _ => ∅

def unlink (database : Database Key) (key : Key) : Database Key := database.remove key

def putHash (database : Database Key) (key : Key) (fields : Assoc Text Text) : Database Key :=
  if fields.size = 0 then database.remove key else database.set key (.hash fields)

def putZset (database : Database Key) (key : Key) (scores : Assoc Text Nat) : Database Key :=
  if scores.size = 0 then database.remove key else database.set key (.zset scores)

def setAll {Entry : Type} (map : Assoc Text Entry) (pairs : List (Text × Entry))
    : Assoc Text Entry :=
  pairs.foldl (fun map pair => map.set pair.1 pair.2) map

def hset (database : Database Key) (key : Key) (pairs : List (Text × Text)) : Database Key :=
  database.putHash key (setAll (database.hash key) pairs)

def hget (database : Database Key) (key : Key) (field : Text) : Option Text :=
  (database.hash key).get? field

def hlen (database : Database Key) (key : Key) : Nat := (database.hash key).size

def zadd (database : Database Key) (key : Key) (pairs : List (Text × Nat)) : Database Key :=
  database.putZset key (setAll (database.zset key) pairs)

def zrem (database : Database Key) (key : Key) (members : List Text) : Database Key :=
  database.putZset key (members.foldl (fun scores member => scores.remove member)
    (database.zset key))

def zscore (database : Database Key) (key : Key) (member : Text) : Option Nat :=
  (database.zset key).get? member

def zcard (database : Database Key) (key : Key) : Nat := (database.zset key).size

end Database

/-- The members of a sorted set from the lowest score to the highest; equal scores are in the order
of their members.
-/
def ordered (scores : Assoc Text Nat) : List (Text × Nat) :=
  scores.toPairs.insertionSort fun left right =>
    left.2 < right.2 ∨ (left.2 = right.2 ∧ left.1 ≤ right.1)

def range (scores : Assoc Text Nat) (inside : Nat → Bool) : List (Text × Nat) :=
  (ordered scores).filter fun pair => inside pair.2

-- Commands and what they leave

theorem eq_empty_of_size {Entry : Type} {map : Assoc Text Entry} (none : map.size = 0)
    : map = ∅ :=
  AList.ext (List.length_eq_zero_iff.mp none)

variable {name : Text}

theorem size_ne_zero {Entry : Type} {map : Assoc Text Entry} {entry : Entry}
    (found : map.get? name = some entry)
    : map.size ≠ 0 := by
  intro none
  rw [eq_empty_of_size none, Assoc.get?_empty] at found
  cases found

/-- What is written last to a name stays. Witness: induction over the pairs. -/
theorem get?_setAll {Entry : Type} {map : Assoc Text Entry} {pairs : List (Text × Entry)}
    : (Database.setAll map pairs).get? name
      = ((pairs.reverse.find? (·.1 = name)).map Prod.snd).or (map.get? name) := by
  induction pairs generalizing map with
  | nil => simp [Database.setAll]
  | cons pair rest ih =>
      have later := @ih (map.set pair.1 pair.2)
      rw [Database.setAll, List.foldl_cons, ← Database.setAll, later, Assoc.get?_set,
        List.reverse_cons, List.find?_append]
      by_cases same : pair.1 = name
      · cases rest.reverse.find? (·.1 = name) <;> simp [same]
      · cases rest.reverse.find? (·.1 = name) <;> simp [same, Ne.symm same]

/-- Pairs of distinct names all stay. -/
theorem get?_setAll_of_mem {Entry : Type} {map : Assoc Text Entry} {pairs : List (Text × Entry)}
    {pair : Text × Entry} (distinct : (pairs.map Prod.fst).Nodup) (listed : pair ∈ pairs)
    : (Database.setAll map pairs).get? pair.1 = some pair.2 := by
  rw [get?_setAll]
  cases found : pairs.reverse.find? (·.1 = pair.1) with
  | none =>
      have missing := List.find?_eq_none.mp found pair (List.mem_reverse.mpr listed)
      simp at missing
  | some other =>
      have isOther := List.mem_reverse.mp (List.mem_of_find?_eq_some found)
      have same : other.1 = pair.1 := by simpa using List.find?_some found
      have whole := List.inj_on_of_nodup_map distinct isOther listed same
      simp [whole]

/-- What no pair names stays. -/
theorem get?_setAll_of_notMem {Entry : Type} {map : Assoc Text Entry} {pairs : List (Text × Entry)}
    (absent : name ∉ pairs.map Prod.fst)
    : (Database.setAll map pairs).get? name = map.get? name := by
  have missing : pairs.reverse.find? (·.1 = name) = none := by
    apply List.find?_eq_none.mpr
    intro pair listed same
    apply absent
    rw [← of_decide_eq_true same]
    exact List.mem_map_of_mem (List.mem_reverse.mp listed)
  rw [get?_setAll, missing, Option.map_none, Option.none_or]

/-- One map is written over another. -/
theorem get?_setAll_toPairs {Entry : Type} (map other : Assoc Text Entry) (name : Text)
    : (Database.setAll map other.toPairs).get? name = (other.get? name).or (map.get? name) := by
  have distinct : (other.toPairs.map Prod.fst).Nodup := by
    rw [← Assoc.keys_eq_toPairs]
    exact Assoc.nodup_keys _
  cases found : other.get? name with
  | some entry =>
      rw [get?_setAll_of_mem distinct ((Assoc.mem_toPairs other name entry).mpr found)]
      rfl
  | none =>
      rw [get?_setAll_of_notMem]
      · rfl
      · rw [← Assoc.keys_eq_toPairs, Assoc.mem_keys, found]
        nofun

/-- A map that has the pairs, and the rest from another. -/
theorem get?_eq_setAll {Entry : Type} {map old : Assoc Text Entry} {pairs : List (Text × Entry)}
    (distinct : (pairs.map Prod.fst).Nodup)
    (written : ∀ pair ∈ pairs, map.get? pair.1 = some pair.2)
    (rest : ∀ name, name ∉ pairs.map Prod.fst → map.get? name = old.get? name)
    : map.get? = (Database.setAll old pairs).get? := by
  funext name
  by_cases listed : name ∈ pairs.map Prod.fst
  · obtain ⟨pair, member, rfl⟩ := List.mem_map.mp listed
    rw [written pair member, get?_setAll_of_mem distinct member]
  · rw [rest name listed, get?_setAll_of_notMem listed]

theorem setAll_congr {Entry : Type} {left right : Assoc Text Entry}
    {pairs : List (Text × Entry)} (same : left.get? = right.get?)
    : (Database.setAll left pairs).get? = (Database.setAll right pairs).get? := by
  funext name
  rw [get?_setAll, get?_setAll, same]

theorem setAll_append {Entry : Type} (map : Assoc Text Entry) (first second : List (Text × Entry))
    : Database.setAll map (first ++ second) = Database.setAll (Database.setAll map first) second :=
  List.foldl_append

theorem isSome_setAll {Entry : Type} {map : Assoc Text Entry} {pairs : List (Text × Entry)}
    {name : Text}
    : ((Database.setAll map pairs).get? name).isSome
      ↔ name ∈ pairs.map Prod.fst ∨ (map.get? name).isSome := by
  induction pairs generalizing map with
  | nil => simp [Database.setAll]
  | cons pair rest ih =>
      have later := @ih (map.set pair.1 pair.2)
      rw [Database.setAll, List.foldl_cons, ← Database.setAll, later, Assoc.get?_set,
        List.map_cons, List.mem_cons]
      by_cases same : name = pair.1 <;> simp [same]

/-- Many names are given one entry. -/
theorem get?_setAll_const {Entry Item : Type} {map : Assoc Text Entry} {pairs : List (Text × Item)}
    {entry : Entry}
    : (Database.setAll map (pairs.map fun pair => (pair.1, entry))).get? name
      = if name ∈ pairs.map Prod.fst then some entry else map.get? name := by
  have names := @Assoc.get?_sets Text Entry _ (pairs.map Prod.fst) map name entry
  rw [List.foldl_map] at names
  rw [Database.setAll, List.foldl_map]
  by_cases listed : name ∈ pairs.map Prod.fst
  · rw [if_pos listed] at names ⊢
    exact names
  · rw [if_neg listed] at names ⊢
    exact names

/-- New names add what they weigh. -/
theorem weight_setAll {Entry : Type} (charge : Text → Entry → Nat) {map : Assoc Text Entry}
    {pairs : List (Text × Entry)} (distinct : (pairs.map Prod.fst).Nodup)
    (absent : ∀ pair ∈ pairs, map.get? pair.1 = none)
    : (Database.setAll map pairs).weight charge
      = map.weight charge + (pairs.map fun pair => charge pair.1 pair.2).sum := by
  induction pairs generalizing map with
  | nil => simp [Database.setAll]
  | cons pair rest ih =>
      rw [List.map_cons, List.nodup_cons] at distinct
      have later : ∀ other ∈ rest, (map.set pair.1 pair.2).get? other.1 = none := by
        intro other listed
        have different : other.1 ≠ pair.1 := by
          intro same
          exact distinct.1 (same ▸ List.mem_map_of_mem listed)
        rw [Assoc.get?_set, if_neg different]
        exact absent other (List.mem_cons_of_mem _ listed)
      have first := absent pair List.mem_cons_self
      rw [Database.setAll, List.foldl_cons, ← Database.setAll, ih distinct.2 later,
        Assoc.weight_set_of_none first, List.map_cons, List.sum_cons]
      omega

theorem size_setAll {Entry : Type} {map : Assoc Text Entry} {pairs : List (Text × Entry)}
    (distinct : (pairs.map Prod.fst).Nodup) (absent : ∀ pair ∈ pairs, map.get? pair.1 = none)
    : (Database.setAll map pairs).size = map.size + pairs.length := by
  rw [Assoc.size_eq_weight, weight_setAll _ distinct absent, ← Assoc.size_eq_weight]
  simp

/-- Known names only get new values. -/
theorem size_setAll_of_known {Entry : Type} {map : Assoc Text Entry}
    {pairs : List (Text × Entry)} (known : ∀ pair ∈ pairs, (map.get? pair.1).isSome)
    : (Database.setAll map pairs).size = map.size := by
  induction pairs generalizing map with
  | nil => rfl
  | cons pair rest ih =>
      obtain ⟨old, found⟩ := Option.isSome_iff_exists.mp (known pair List.mem_cons_self)
      rw [Database.setAll, List.foldl_cons, ← Database.setAll, ih, Assoc.size_set_of_some found]
      intro other listed
      rw [Assoc.get?_set]
      split
      · rfl
      · exact known other (List.mem_cons_of_mem _ listed)

namespace Database

variable {Key : Type} [DecidableEq Key] {database : Database Key} {key other : Key}

@[simp]
theorem hash_unlink : (database.unlink key).hash other
    = if other = key then ∅ else database.hash other := by
  rw [hash, unlink, Assoc.get?_remove]
  by_cases same : other = key <;> simp [same, hash]

@[simp]
theorem zset_unlink : (database.unlink key).zset other
    = if other = key then ∅ else database.zset other := by
  rw [zset, unlink, Assoc.get?_remove]
  by_cases same : other = key <;> simp [same, zset]

@[simp]
theorem type_unlink : (database.unlink key).type other
    = if other = key then .none else database.type other := by
  rw [type, unlink, Assoc.get?_remove]
  by_cases same : other = key <;> simp [same, type]

variable {fields : Assoc Text Text}

@[simp]
theorem hash_putHash
    : (database.putHash key fields).hash other
      = if other = key then fields else database.hash other := by
  rw [putHash]
  split
  next none => rw [← unlink, hash_unlink, eq_empty_of_size none]
  · rw [hash, Assoc.get?_set]
    by_cases same : other = key <;> simp [same, hash]

@[simp]
theorem zset_putHash
    : (database.putHash key fields).zset other
      = if other = key then ∅ else database.zset other := by
  rw [putHash]
  split
  · rw [← unlink, zset_unlink]
  · rw [zset, Assoc.get?_set]
    by_cases same : other = key <;> simp [same, zset]

variable {scores : Assoc Text Nat}

@[simp]
theorem hash_putZset
    : (database.putZset key scores).hash other
      = if other = key then ∅ else database.hash other := by
  rw [putZset]
  split
  · rw [← unlink, hash_unlink]
  · rw [hash, Assoc.get?_set]
    by_cases same : other = key <;> simp [same, hash]

@[simp]
theorem zset_putZset
    : (database.putZset key scores).zset other
      = if other = key then scores else database.zset other := by
  rw [putZset]
  split
  next none => rw [← unlink, zset_unlink, eq_empty_of_size none]
  · rw [zset, Assoc.get?_set]
    by_cases same : other = key <;> simp [same, zset]

variable {pairs : List (Text × Text)}

@[simp]
theorem hash_hset
    : (database.hset key pairs).hash other
      = if other = key then setAll (database.hash key) pairs else database.hash other :=
  hash_putHash

@[simp]
theorem zset_hset
    : (database.hset key pairs).zset other = if other = key then ∅ else database.zset other :=
  zset_putHash

@[simp]
theorem hash_zadd {pairs : List (Text × Nat)}
    : (database.zadd key pairs).hash other = if other = key then ∅ else database.hash other :=
  hash_putZset

@[simp]
theorem zset_zadd {pairs : List (Text × Nat)}
    : (database.zadd key pairs).zset other
      = if other = key then setAll (database.zset key) pairs else database.zset other :=
  zset_putZset

variable {members : List Text}

@[simp]
theorem hash_zrem
    : (database.zrem key members).hash other = if other = key then ∅ else database.hash other :=
  hash_putZset

@[simp]
theorem zset_zrem
    : (database.zrem key members).zset other = if other = key then
          members.foldl (fun scores member => scores.remove member) (database.zset key)
        else
          database.zset other :=
  zset_putZset

/-- Every key holds the kind of value it is meant for, and never an empty one. -/
structure Shaped (shape : Key → Kind) (database : Database Key) : Prop where
  kinds : ∀ key, database.type key = .none ∨ database.type key = shape key
  hashes : ∀ key, shape key = .hash → (database.type key = .none ↔ database.hash key = ∅)
  zsets : ∀ key, shape key = .zset → (database.type key = .none ↔ database.zset key = ∅)

variable {shape : Key → Kind}

theorem Shaped.empty : Shaped shape (∅ : Database Key) where
  kinds _ := .inl rfl
  hashes _ _ := ⟨fun _ => rfl, fun _ => rfl⟩
  zsets _ _ := ⟨fun _ => rfl, fun _ => rfl⟩

theorem Shaped.unlink (shaped : Shaped shape database) : Shaped shape (database.unlink key) where
  kinds other := by
    rw [type_unlink]
    split
    · exact .inl rfl
    · exact shaped.kinds other
  hashes other isHash := by
    rw [type_unlink, hash_unlink]
    split
    · simp
    · exact shaped.hashes other isHash
  zsets other isZset := by
    rw [type_unlink, zset_unlink]
    split
    · simp
    · exact shaped.zsets other isZset

theorem Shaped.putHash (shaped : Shaped shape database) (isHash : shape key = .hash)
    (fields : Assoc Text Text)
    : Shaped shape (database.putHash key fields) := by
  by_cases none : fields.size = 0
  · rw [Database.putHash, if_pos none, ← Database.unlink]
    exact shaped.unlink
  have type (other : Key) : (database.putHash key fields).type other
      = if other = key then .hash else database.type other := by
    rw [Database.putHash, if_neg none, Database.type, Assoc.get?_set]
    by_cases same : other = key <;> simp [same, Database.type]
  refine ⟨fun other => ?_, fun other wanted => ?_, fun other wanted => ?_⟩
  · rw [type]
    split
    next same => exact .inr (same ▸ isHash.symm)
    · exact shaped.kinds other
  · rw [type, hash_putHash]
    split
    · constructor
      · intros; contradiction
      · intro nothing
        rw [nothing] at none
        exact absurd rfl none
    · exact shaped.hashes other wanted
  · rw [type, zset_putHash]
    split
    next same =>
      rw [same, isHash] at wanted
      cases wanted
    · exact shaped.zsets other wanted

theorem Shaped.putZset (shaped : Shaped shape database) (isZset : shape key = .zset)
    (scores : Assoc Text Nat)
    : Shaped shape (database.putZset key scores) := by
  by_cases none : scores.size = 0
  · rw [Database.putZset, if_pos none, ← Database.unlink]
    exact shaped.unlink
  have type (other : Key) : (database.putZset key scores).type other
      = if other = key then .zset else database.type other := by
    rw [Database.putZset, if_neg none, Database.type, Assoc.get?_set]
    by_cases same : other = key <;> simp [same, Database.type]
  refine ⟨fun other => ?_, fun other wanted => ?_, fun other wanted => ?_⟩
  · rw [type]
    split
    next same => exact .inr (same ▸ isZset.symm)
    · exact shaped.kinds other
  · rw [type, hash_putZset]
    split
    next same =>
      rw [same, isZset] at wanted
      cases wanted
    · exact shaped.hashes other wanted
  · rw [type, zset_putZset]
    split
    · constructor
      · intros; contradiction
      · intro nothing
        rw [nothing] at none
        exact absurd rfl none
    · exact shaped.zsets other wanted

theorem Shaped.hset (shaped : Shaped shape database) (isHash : shape key = .hash)
    (pairs : List (Text × Text))
    : Shaped shape (database.hset key pairs) :=
  shaped.putHash isHash _

theorem Shaped.zadd (shaped : Shaped shape database) (isZset : shape key = .zset)
    (pairs : List (Text × Nat))
    : Shaped shape (database.zadd key pairs) :=
  shaped.putZset isZset _

theorem Shaped.zrem (shaped : Shaped shape database) (isZset : shape key = .zset)
    (members : List Text)
    : Shaped shape (database.zrem key members) :=
  shaped.putZset isZset _

end Database

-- Ranges

variable {scores : Assoc Text Nat} {member : Text} {score : Nat}

@[simp]
theorem mem_ordered
    : (member, score) ∈ ordered scores ↔ scores.get? member = some score := by
  rw [ordered, List.mem_insertionSort, Assoc.mem_toPairs]

@[simp]
theorem mem_range {inside : Nat → Bool}
    : (member, score) ∈ range scores inside
      ↔ scores.get? member = some score ∧ inside score = true := by
  rw [range, List.mem_filter, mem_ordered]

theorem nodup_ordered (scores : Assoc Text Nat) : ((ordered scores).map Prod.fst).Nodup := by
  have permuted := (List.perm_insertionSort
    (fun left right : Text × Nat =>
      left.2 < right.2 ∨ (left.2 = right.2 ∧ left.1 ≤ right.1)) scores.toPairs).map Prod.fst
  have keys : scores.toPairs.map Prod.fst = scores.keys := by
    simp [Assoc.toPairs, Assoc.keys]
  rw [ordered]
  refine permuted.nodup_iff.mpr ?_
  rw [keys]
  exact scores.nodup_keys

/-- A member is once in a range. -/
theorem nodup_range (scores : Assoc Text Nat) (inside : Nat → Bool)
    : ((range scores inside).map Prod.fst).Nodup :=
  (nodup_ordered scores).sublist (List.filter_sublist.map _)

/-- A range is no longer than the set. -/
theorem length_range_le (scores : Assoc Text Nat) (inside : Nat → Bool)
    : (range scores inside).length ≤ scores.size := by
  refine (List.length_filter_le _ _).trans_eq ?_
  rw [ordered, List.length_insertionSort]
  simp [Assoc.toPairs, Assoc.size]

end Support.Redis
