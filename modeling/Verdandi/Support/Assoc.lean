import Mathlib

/-! Finite maps with decidable keys, as the non-dependent case of association lists.
Contents are compared by lookup; the order of the stored entries carries no meaning.
-/

namespace Support

/-- Byte strings are the keys of most maps; they are equal when they compare equal. -/
instance lawfulBytes : LawfulBEq (List UInt8) := inferInstance

universe u v

/-- A finite map from `K` to `V`, with at most one entry for a key. -/
abbrev Assoc (K : Type u) (V : Type v) := AList fun _ : K => V

namespace Assoc

variable {K : Type u} {V W : Type v} [DecidableEq K]

def get? (map : Assoc K V) (key : K) : Option V :=
  AList.lookup key map

/-- Store `value` for `key`, replacing an earlier value. -/
def set (map : Assoc K V) (key : K) (value : V) : Assoc K V :=
  AList.insert key value map

/-- Drop the entry of `key`; a missing key leaves the map as it is. -/
def remove (map : Assoc K V) (key : K) : Assoc K V :=
  AList.erase key map

def amend (map : Assoc K V) (key : K) : Option V → Assoc K V
  | some value => map.set key value
  | none => map.remove key

def contains (map : Assoc K V) (key : K) : Bool :=
  (map.get? key).isSome

def size (map : Assoc K V) : Nat :=
  map.entries.length

def toPairs (map : Assoc K V) : List (K × V) :=
  map.entries.map fun entry => (entry.1, entry.2)

def mapValues (map : Assoc K V) (f : K → V → W) : Assoc K W where
  entries := map.entries.map fun entry => ⟨entry.1, f entry.1 entry.2⟩
  nodupKeys := by
    have same : (map.entries.map fun entry => (⟨entry.1, f entry.1 entry.2⟩ : Σ _ : K, W)).keys
        = map.entries.keys := by
      simp [List.keys]
    rw [List.NodupKeys, same]
    exact map.nodupKeys

def filter (map : Assoc K V) (keep : K → V → Bool) : Assoc K V where
  entries := map.entries.filter fun entry => keep entry.1 entry.2
  nodupKeys := map.nodupKeys.sublist List.filter_sublist

def weight (map : Assoc K V) (charge : K → V → Nat) : Nat :=
  (map.entries.map fun entry => charge entry.1 entry.2).sum

def keys (map : Assoc K V) : List K :=
  map.entries.map Sigma.fst

@[simp]
theorem get?_empty (key : K) : get? (∅ : Assoc K V) key = none :=
  AList.lookup_empty key

@[simp]
theorem get?_set (map : Assoc K V) (key other : K) (value : V)
    : (map.set key value).get? other = if other = key then some value else map.get? other := by
  by_cases same : other = key
  · subst same
    simp [get?, set]
  · simp [get?, set, same]

@[simp]
theorem get?_remove (map : Assoc K V) (key other : K)
    : (map.remove key).get? other = if other = key then none else map.get? other := by
  by_cases same : other = key
  · subst same
    simp [get?, remove]
  · simp [get?, remove, same]

@[simp]
theorem get?_amend (map : Assoc K V) (key other : K) (value : Option V)
    : (map.amend key value).get? other = if other = key then value else map.get? other := by
  cases value <;> simp [amend]

theorem contains_iff (map : Assoc K V) (key : K)
    : map.contains key = true ↔ ∃ value, map.get? key = some value := by
  simp [contains, Option.isSome_iff_exists]

theorem contains_eq_false_iff (map : Assoc K V) (key : K)
    : map.contains key = false ↔ map.get? key = none := by
  simp [contains]

@[simp]
theorem get?_mapValues (map : Assoc K V) (f : K → V → W) (key : K)
    : (map.mapValues f).get? key = (map.get? key).map (f key) := by
  obtain ⟨entries, nodup⟩ := map
  simp only [get?, mapValues, AList.lookup]
  clear nodup
  induction entries with
  | nil => rfl
  | cons entry rest ih =>
      obtain ⟨stored, value⟩ := entry
      by_cases same : stored = key
      · subst same
        simp
      · rw [List.map_cons, List.dlookup_cons_ne _ _ (Ne.symm same),
          List.dlookup_cons_ne _ _ (Ne.symm same)]
        exact ih

variable {map : Assoc K V} {key : K}

theorem remove_of_none (absent : map.get? key = none)
    : map.remove key = map := by
  refine AList.ext (List.kerase_of_notMem_keys fun listed => ?_)
  have found := AList.lookup_isSome.mpr listed
  rw [show AList.lookup key map = none from absent] at found
  cases found


omit [DecidableEq K] in
theorem nodup_keys (map : Assoc K V) : map.keys.Nodup :=
  map.nodupKeys

theorem mem_keys (map : Assoc K V) (key : K)
    : key ∈ map.keys ↔ ∃ value, map.get? key = some value := by
  rw [← contains_iff, contains, get?, AList.lookup_isSome]
  exact Iff.rfl

theorem mem_toPairs (map : Assoc K V) (key : K) (value : V)
    : (key, value) ∈ map.toPairs ↔ map.get? key = some value := by
  rw [get?, ← Option.mem_def, AList.mem_lookup_iff]
  simp only [toPairs, List.mem_map, Prod.mk.injEq]
  constructor
  · rintro ⟨⟨stored, held⟩, member, rfl, rfl⟩
    exact member
  · intro member
    exact ⟨⟨key, value⟩, member, rfl, rfl⟩

/-- At most one pair has a given key. -/
theorem filter_toPairs (map : Assoc K V) (key : K)
    : map.toPairs.filter (·.1 = key) = ((map.get? key).map (key, ·)).toList := by
  obtain ⟨entries, distinct⟩ := map
  simp only [toPairs, get?, AList.lookup]
  induction entries with
  | nil => rfl
  | cons entry rest ih =>
      obtain ⟨stored, value⟩ := entry
      have distinctRest := (List.nodupKeys_cons.mp distinct).2
      by_cases same : stored = key
      · subst same
        have absent : stored ∉ rest.keys := (List.nodupKeys_cons.mp distinct).1
        have continued := ih distinctRest
        rw [List.dlookup_eq_none.mpr absent] at continued
        simpa using continued
      · rw [List.dlookup_cons_ne _ _ (Ne.symm same)]
        simpa [same] using ih distinctRest

/-- Where every value knows its key, at most one of the values kept has a given key. -/
theorem filter_values (map : Assoc K V) {name : V → K} (keep : V → Bool)
    (named : ∀ key value, map.get? key = some value → name value = key) (key : K)
    : ((map.toPairs.map Prod.snd).filter keep).filter (name · = key)
      = ((map.get? key).filter keep).toList := by
  have sameName : ∀ entry ∈ map.toPairs,
      ((fun value => decide (name value = key)) ∘ Prod.snd) entry = decide (entry.1 = key) := by
    rintro ⟨stored, value⟩ member
    simp [named stored value ((mem_toPairs _ _ _).mp member)]
  have swapped : ((map.toPairs.map Prod.snd).filter keep).filter (name · = key)
      = ((map.toPairs.map Prod.snd).filter (name · = key)).filter keep := by
    rw [List.filter_filter, List.filter_filter]
    exact List.filter_congr fun value _ => Bool.and_comm _ _
  rw [swapped, List.filter_map, List.filter_congr sameName, filter_toPairs]
  cases map.get? key with
  | none => rfl
  | some value => cases kept : keep value <;> simp [kept, Option.filter_some]

@[simp]
theorem get?_filter (map : Assoc K V) (keep : K → V → Bool) (key : K)
    : (map.filter keep).get? key = (map.get? key).filter (keep key) := by
  apply Option.ext
  intro value
  rw [Option.filter_eq_some_iff, ← mem_toPairs, ← mem_toPairs]
  simp only [toPairs, filter, List.mem_map, List.mem_filter, Prod.mk.injEq]
  constructor
  · rintro ⟨⟨stored, held⟩, ⟨member, kept⟩, rfl, rfl⟩
    exact ⟨⟨_, member, rfl, rfl⟩, kept⟩
  · rintro ⟨⟨⟨stored, held⟩, member, rfl, rfl⟩, kept⟩
    exact ⟨_, ⟨member, kept⟩, rfl, rfl⟩

omit [DecidableEq K] in
theorem size_eq_weight (map : Assoc K V) : map.size = map.weight fun _ _ => 1 := by
  simp [size, weight]

/-- A map whose entries come from two others weighs at most as much as both. Witness: its
entries are distinct, so they are among those of the two up to order.
-/
theorem weight_le_add {map left right : Assoc K V} (charge : K → V → Nat)
    (mixed : ∀ key value, map.get? key = some value
      → left.get? key = some value ∨ right.get? key = some value)
    : map.weight charge ≤ left.weight charge + right.weight charge := by
  have entry {map : Assoc K V} {key : K} {value : V}
      : (⟨key, value⟩ : Σ _ : K, V) ∈ map.entries ↔ map.get? key = some value := by
    rw [get?, ← Option.mem_def, AList.mem_lookup_iff]
  have inside : map.entries ⊆ left.entries ++ right.entries := by
    rintro ⟨key, value⟩ member
    rw [List.mem_append, entry, entry]
    exact mixed key value (entry.mp member)
  have distinct : map.entries.Nodup := List.Nodup.of_map Sigma.fst map.nodupKeys
  obtain ⟨same, permuted, kept⟩ := List.subperm_of_subset distinct inside
  have total (entries : List (Σ _ : K, V)) (shorter : same.Sublist entries)
      : (same.map fun entry => charge entry.1 entry.2).sum
        ≤ (entries.map fun entry => charge entry.1 entry.2).sum :=
    (shorter.map _).sum_le_sum fun _ _ => Nat.zero_le _
  have whole := total _ kept
  rw [List.map_append, List.sum_append] at whole
  rw [weight, ← (permuted.map fun entry => charge entry.1 entry.2).sum_eq]
  exact whole

variable {left right : Assoc K V}

/-- Equal contents weigh the same. -/
theorem weight_congr (charge : K → V → Nat) (same : left.get? = right.get?)
    : left.weight charge = right.weight charge := by
  have bounded {left right : Assoc K V} (same : left.get? = right.get?)
      : left.weight charge ≤ right.weight charge := by
    have nothing : (∅ : Assoc K V).weight charge = 0 := rfl
    have both : left.weight charge ≤ right.weight charge + (∅ : Assoc K V).weight charge :=
      weight_le_add charge fun key value found => .inl (same ▸ found)
    omega
  exact Nat.le_antisymm (bounded same) (bounded same.symm)

theorem size_congr (same : left.get? = right.get?)
    : left.size = right.size := by
  rw [size_eq_weight, size_eq_weight]
  exact weight_congr _ same

omit [DecidableEq K] in
/-- Keys are distinct, so a list that has them all is as long. -/
theorem size_le_length {map : Assoc K V} {list : List K} (inside : ∀ key ∈ map.keys, key ∈ list)
    : map.size ≤ list.length := by
  have shorter := (List.subperm_of_subset map.nodup_keys inside).length_le
  simpa [keys, size] using shorter

theorem size_set_le (map : Assoc K V) (key : K) (value : V)
    : (map.set key value).size ≤ map.size + 1 := by
  have inside : ∀ other ∈ (map.set key value).keys, other ∈ key :: map.keys := by
    intro other member
    rw [mem_keys] at member
    simp only [get?_set] at member
    split at member
    next same => exact List.mem_cons.mpr (.inl same)
    · exact List.mem_cons_of_mem _ ((mem_keys _ _).mpr member)
  have shorter := size_le_length inside
  simpa [keys, size] using shorter

/-- A new entry adds its charge. -/
theorem weight_set_of_none (absent : map.get? key = none) (charge : K → V → Nat) (value : V)
    : (map.set key value).weight charge = charge key value + map.weight charge := by
  have missing : key ∉ map := AList.lookup_eq_none.mp absent
  rw [weight, set, AList.entries_insert_of_notMem missing, List.map_cons, List.sum_cons, weight]

variable {old : V}

/-- A replaced entry gives its charge back. -/
theorem weight_set_of_some (found : map.get? key = some old) (charge : K → V → Nat) (value : V)
    : (map.set key value).weight charge + charge key old
      = map.weight charge + charge key value := by
  have listed : key ∈ map.entries.keys := by
    rw [← AList.keys, ← AList.mem_keys, ← AList.lookup_isSome, ← get?, found, Option.isSome_some]
  obtain ⟨stored, before, after, _, whole, erased⟩ := List.exists_of_kerase listed
  have same : stored = old := by
    have member : (⟨key, stored⟩ : Σ _ : K, V) ∈ map.entries := by
      rw [whole]
      exact List.mem_append_right _ List.mem_cons_self
    have isStored := AList.mem_lookup_iff.mpr member
    rw [Option.mem_def, ← get?, found] at isStored
    exact (Option.some.inj isStored).symm
  subst same
  rw [weight, set, AList.entries_insert, erased, weight, whole]
  simp only [List.map_cons, List.map_append, List.sum_cons, List.sum_append]
  omega

theorem size_set_of_none (absent : map.get? key = none) (value : V)
    : (map.set key value).size = map.size + 1 := by
  rw [size_eq_weight, weight_set_of_none absent, size_eq_weight]
  exact Nat.add_comm _ _

theorem size_set_of_some (found : map.get? key = some old) (value : V)
    : (map.set key value).size = map.size := by
  have both := weight_set_of_some found (fun _ _ => 1) value
  rw [← size_eq_weight, ← size_eq_weight] at both
  omega

/-- A dropped entry gives its charge back. -/
theorem weight_remove_of_some (found : map.get? key = some old) (charge : K → V → Nat)
    : (map.remove key).weight charge + charge key old = map.weight charge := by
  have back : ((map.remove key).set key old).get? = map.get? := by
    funext other
    by_cases same : other = key
    · simp [same, found]
    · simp [same]
  have absent : (map.remove key).get? key = none := by simp
  have whole := weight_set_of_none absent charge old
  have same := weight_congr charge back
  omega

theorem size_remove_of_some (found : map.get? key = some old) : (map.remove key).size + 1 = map.size := by
  have less := weight_remove_of_some found fun _ _ => 1
  simp only [size_eq_weight]
  exact less

/-- A new entry that is dropped again leaves the map as it was. -/
theorem remove_set_of_none (absent : map.get? key = none) (value : V)
    : (map.set key value).remove key = map := by
  have dropped : (map.set key value).remove key = map.remove key := by
    apply AList.ext
    simp [set, remove, AList.erase]
  exact dropped.trans (remove_of_none absent)

/-- No entry weighs more than the map. -/
theorem le_weight {value : V} (found : map.get? key = some value) (charge : K → V → Nat) : charge key value ≤ map.weight charge := by
  have whole := weight_remove_of_some found charge
  omega

omit [DecidableEq K] in
theorem weight_eq_toPairs (map : Assoc K V) (charge : K → V → Nat)
    : map.weight charge = (map.toPairs.map fun pair => charge pair.1 pair.2).sum := by
  simp [weight, toPairs, Function.comp_def]

omit [DecidableEq K] in
theorem keys_eq_toPairs (map : Assoc K V) : map.keys = map.toPairs.map Prod.fst := by
  simp [toPairs, Assoc.keys]

/-- The weight is that of the keys with their values. -/
theorem weight_eq_keys (map : Assoc K V) (charge : K → V → Nat) (missing : V)
    : map.weight charge
      = (map.keys.map fun key => charge key ((map.get? key).getD missing)).sum := by
  rw [weight_eq_toPairs, keys_eq_toPairs, List.map_map]
  congr 1
  apply List.map_congr_left
  intro pair listed
  rw [Function.comp_apply, (map.mem_toPairs pair.1 pair.2).mp listed, Option.getD_some]

omit [DecidableEq K] in
theorem nodup_toPairs (map : Assoc K V) : map.toPairs.Nodup := by
  have keys : (map.toPairs.map Prod.fst).Nodup := by
    have same : map.toPairs.map Prod.fst = map.keys := by simp [toPairs, Assoc.keys]
    rw [same]
    exact map.nodup_keys
  exact List.Nodup.of_map Prod.fst keys

end Assoc

-- Many updates of a function

section Updates

variable {Row K V : Type} [DecidableEq K] {rows : List Row} {key : Row → K} {value : Row → V}
  {content : K → V}

variable {name : K}

/-- What no row names stays. -/
theorem foldl_update_of_notMem (absent : name ∉ rows.map key)
    : rows.foldl (fun content row => Function.update content (key row) (value row)) content name
      = content name := by
  induction rows generalizing content with
  | nil => rfl
  | cons row rest ih =>
      rw [List.map_cons, List.mem_cons, not_or] at absent
      rw [List.foldl_cons, ih absent.2, Function.update_of_ne absent.1]

/-- Rows of distinct names have their way. -/
theorem foldl_update_of_mem {row : Row} (distinct : (rows.map key).Nodup) (listed : row ∈ rows)
    : rows.foldl (fun content row => Function.update content (key row) (value row)) content
        (key row)
      = value row := by
  induction rows generalizing content with
  | nil => cases listed
  | cons first rest ih =>
      rw [List.map_cons, List.nodup_cons] at distinct
      rcases List.mem_cons.mp listed with rfl | later
      · rw [List.foldl_cons, foldl_update_of_notMem distinct.1, Function.update_self]
      · rw [List.foldl_cons, ih distinct.2 later]

/-- Many names may be given one value. -/
theorem foldl_update_const {names : List K} {value : V}
    : names.foldl (fun content name => Function.update content name value) content name
      = if name ∈ names then value else content name := by
  induction names generalizing content with
  | nil => rw [List.foldl_nil, if_neg List.not_mem_nil]
  | cons first rest ih =>
      rw [List.foldl_cons, ih, Function.update_apply]
      by_cases same : name = first <;> simp [same]

end Updates

section Folds

variable {K V : Type} [DecidableEq K] {names : List K} {map : Assoc K V} {name : K}

/-- Many names are removed. -/
theorem Assoc.get?_removes
    : (names.foldl (fun map name => map.remove name) map).get? name
      = if name ∈ names then none else map.get? name := by
  induction names generalizing map with
  | nil => rw [List.foldl_nil, if_neg List.not_mem_nil]
  | cons first rest ih =>
      rw [List.foldl_cons, ih, Assoc.get?_remove]
      by_cases same : name = first <;> simp [same]

/-- Many names are given one value. -/
theorem Assoc.get?_sets {value : V}
    : (names.foldl (fun map name => map.set name value) map).get? name
      = if name ∈ names then some value else map.get? name := by
  induction names generalizing map with
  | nil => rw [List.foldl_nil, if_neg List.not_mem_nil]
  | cons first rest ih =>
      rw [List.foldl_cons, ih, Assoc.get?_set]
      by_cases same : name = first <;> simp [same]

variable {rows : List (K × V)}

theorem Assoc.get?_setRows_of_notMem (absent : name ∉ rows.map Prod.fst)
    : (rows.foldl (fun map row => map.set row.1 row.2) map).get? name = map.get? name := by
  induction rows generalizing map with
  | nil => rfl
  | cons row rest ih =>
      rw [List.map_cons, List.mem_cons, not_or] at absent
      rw [List.foldl_cons, ih absent.2, Assoc.get?_set, if_neg absent.1]

theorem Assoc.get?_setRows_of_mem {value : V} (distinct : (rows.map Prod.fst).Nodup)
    (listed : (name, value) ∈ rows)
    : (rows.foldl (fun map row => map.set row.1 row.2) map).get? name = some value := by
  induction rows generalizing map with
  | nil => cases listed
  | cons row rest ih =>
      rw [List.map_cons, List.nodup_cons] at distinct
      rcases List.mem_cons.mp listed with rfl | later
      · rw [List.foldl_cons, Assoc.get?_setRows_of_notMem distinct.1, Assoc.get?_set, if_pos rfl]
      · rw [List.foldl_cons, ih distinct.2 later]

/-- A map is copied in any order of its entries. -/
theorem Assoc.get?_copy {source : Assoc K V} (same : rows.Perm source.toPairs)
    : (rows.foldl (fun map row => map.set row.1 row.2) (∅ : Assoc K V)).get? = source.get? := by
  have names := same.map Prod.fst
  rw [← Assoc.keys_eq_toPairs] at names
  funext name
  cases found : source.get? name with
  | some value =>
      refine Assoc.get?_setRows_of_mem (names.nodup_iff.mpr source.nodup_keys) ?_
      exact same.mem_iff.mpr ((Assoc.mem_toPairs source name value).mpr found)
  | none =>
      rw [Assoc.get?_setRows_of_notMem, Assoc.get?_empty]
      intro listed
      obtain ⟨value, held⟩ := (Assoc.mem_keys source name).mp (names.mem_iff.mp listed)
      rw [found] at held
      cases held

end Folds

end Support
