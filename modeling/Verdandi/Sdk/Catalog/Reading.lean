import Verdandi.Sdk.Catalog.Refinement

/-! What a read answers: that the caller has the record, what changed in it since, or all of it. -/

namespace Sdk.Catalog

open Support
open Support.Redis (Text Database)

def Record.heading (record : Record) : Header where
  revision := Decimal.text record.revision
  replaceRevision := Decimal.text record.replaceRevision
  kind := record.kind
  encodedBytes := Decimal.text record.encodedBytes

structure Record.Changed (record : Record) (since : Nat) (fields : List (Text × Text)) : Prop where
  nodup : (fields.map Prod.fst).Nodup
  mem : ∀ name value, (name, value) ∈ fields ↔ record.fields.get? name = some value
      ∧ ∃ revision, record.written.get? name = some revision ∧ since < revision

structure Record.Whole (record : Record) (fields : List (Text × Text)) : Prop where
  orders : (fields.map Prod.fst).Pairwise (· < ·)
  mem : ∀ name value, (name, value) ∈ fields ↔ record.fields.get? name = some value

inductive Item.Reads (since : Nat) : Item → Reading → Prop
  | absent : Item.Reads since .absent .absent
  | deleted (revision time : Nat)
    : Item.Reads since (.deleted revision time) (.deleted (Decimal.text revision))
  | unchanged (record : Record) (same : since = record.revision)
    : Item.Reads since (.present record) (.present .unchanged record.heading [])
  | patch (record : Record) (fields : List (Text × Text)) (known : record.replaceRevision ≤ since)
    (older : since < record.revision) (changed : record.Changed since fields)
    : Item.Reads since (.present record) (.present .patch record.heading fields)
  | replace (record : Record) (fields : List (Text × Text)) (different : since ≠ record.revision)
    (unknown : record.replaceRevision ≤ since → record.revision < since)
    (whole : record.Whole fields)
    : Item.Reads since (.present record) (.present .replace record.heading fields)

section Fields

variable {store : Store} {zone : Zone} {path : Path} {record : Record}

theorem mapM_eq_some {Item Result : Type} {items : List Item} {function : Item → Option Result}
    {result : Item → Result} (each : ∀ item ∈ items, function item = some (result item))
    : items.mapM function = some (items.map result) := by
  induction items with
  | nil => rfl
  | cons first rest ih =>
      rw [List.mapM_cons, each first List.mem_cons_self,
        ih fun item listed => each item (List.mem_cons_of_mem _ listed)]
      rfl

theorem Record.Valid.size_written (valid : record.Valid)
    : record.written.size ≤ record.fields.size := by
  have inside : ∀ name ∈ record.written.keys, name ∈ record.fields.keys := by
    intro name listed
    rw [Assoc.mem_keys, ← Option.isSome_iff_exists] at listed ⊢
    rwa [← valid.indexed]
  have shorter := Assoc.size_le_length inside
  simpa [Assoc.keys, Assoc.size] using shorter

/-- The index finds what changed. -/
theorem Represents.changedFields (represents : Represents store zone)
    (present : zone.items path = .present record) (since : Nat)
    : ∃ fields, Catalog.changedFields store path (Decimal.text since)
        (Decimal.text record.revision) = some fields
      ∧ record.Changed since fields := by
  have valid := represents.valid.records path record present
  have written : (store.zset (.fieldRevisions path)).get? = record.written.get? := by
    rw [represents.written, present, Item.written]
  have few (inside : Nat → Bool)
      : (Redis.range (store.zset (.fieldRevisions path)) inside).length ≤ maximumFields := by
    refine (Redis.length_range_le _ _).trans ?_
    rw [Assoc.size_congr written]
    exact valid.size_written.trans valid.few
  have stored {name : Text} {revision : Nat}
      (has : (store.zset (.fieldRevisions path)).get? name = some revision)
      : userField name = true ∧ ∃ value, record.fields.get? name = some value
        ∧ store.hget (.catalog path) name = some value := by
    rw [written] at has
    have found : (record.fields.get? name).isSome := by
      rw [← valid.indexed, has, Option.isSome_some]
    have user := valid.names name found
    obtain ⟨value, isValue⟩ := Option.isSome_iff_exists.mp found
    refine ⟨user, value, isValue, ?_⟩
    rw [Database.hget, represents.hash_present present, Record.get?_hash (notMem_reserved user),
      isValue]
  refine ⟨(Redis.range (store.zset (.fieldRevisions path)) fun score =>
      decide (Decimal.value (Decimal.text since) < score)
        && decide (score ≤ Decimal.value (Decimal.text record.revision))).map
      fun name => (name.1, (store.hget (.catalog path) name.1).getD []), ?_, ?_⟩
  · rw [Catalog.changedFields, if_neg (Nat.not_lt.mpr (few _))]
    apply mapM_eq_some
    rintro ⟨name, revision⟩ listed
    obtain ⟨user, value, _, found⟩ := stored (Redis.mem_range.mp listed).1
    simp [found, user]
  · constructor
    · rw [List.map_map]
      exact Redis.nodup_range _ _
    · intro name value
      simp only [Decimal.value_text, List.mem_map, Prod.mk.injEq, Prod.exists,
        Redis.mem_range, Bool.and_eq_true, decide_eq_true_eq]
      constructor
      · rintro ⟨name, revision, ⟨has, later, _⟩, rfl, rfl⟩
        obtain ⟨_, value, isValue, found⟩ := stored has
        rw [written] at has
        exact ⟨by rw [found, isValue, Option.getD_some], revision, has, later⟩
      · rintro ⟨isValue, revision, has, later⟩
        have upper := (valid.since name revision has).2
        rw [← written] at has
        obtain ⟨_, other, isOther, found⟩ := stored has
        rw [isValue] at isOther
        cases isOther
        exact ⟨name, revision, ⟨has, later, upper⟩, rfl, by rw [found, Option.getD_some]⟩

theorem sorted_names {fields : List (Text × Text)} (distinct : (fields.map Prod.fst).Nodup)
    : ((fields.insertionSort fun left right => left.1 ≤ right.1).map Prod.fst).Pairwise
        (· < ·) := by
  have : Std.Total fun left right : Text × Text => left.1 ≤ right.1 :=
    ⟨fun left right => List.le_total left.1 right.1⟩
  have : IsTrans (Text × Text) fun left right : Text × Text => left.1 ≤ right.1 :=
    ⟨fun _ _ _ first second => List.le_trans first second⟩
  have sorted := List.pairwise_insertionSort (fun left right : Text × Text => left.1 ≤ right.1)
    fields
  have permuted := (List.perm_insertionSort (fun left right : Text × Text => left.1 ≤ right.1)
    fields).map Prod.fst
  have apart := permuted.nodup_iff.mpr distinct
  rw [List.Nodup, List.pairwise_map] at apart
  rw [List.pairwise_map]
  refine sorted.imp₂ ?_ apart
  intro left right below different
  exact (List.le_iff_lt_or_eq.mp below).resolve_right different

/-- A record is read whole. -/
theorem Represents.allFields (represents : Represents store zone)
    (present : zone.items path = .present record)
    : ∃ fields, Catalog.allFields store path = some fields ∧ record.Whole fields := by
  have valid := represents.valid.records path record present
  have hash := represents.hash_present present
  -- A stored name is one of the header or that of a field.
  have stored {name value : Text} (listed : (name, value) ∈ (store.hash (.catalog path)).toPairs)
      : name ∈ reserved ∨ (userField name = true ∧ record.fields.get? name = some value) := by
    rw [Assoc.mem_toPairs, hash] at listed
    by_cases isReserved : name ∈ reserved
    · exact .inl isReserved
    · rw [Record.get?_hash isReserved] at listed
      exact .inr ⟨valid.names name (Option.isSome_iff_exists.mpr ⟨_, listed⟩), listed⟩
  have marked {name : Text} (isReserved : name ∈ reserved) : name.head? = some 64 := by
    simp only [reserved, List.mem_cons, List.not_mem_nil, or_false] at isReserved
    rcases isReserved with rfl | rfl | rfl | rfl <;> decide
  have unmarked {name : Text} (user : userField name = true)
      : name ≠ [] ∧ name.head? ≠ some 64 := by
    simpa [userField] using user
  let user := (store.hash (.catalog path)).toPairs.filter fun field => field.1.head? != some 64
  have mem (name value : Text)
      : (name, value) ∈ user ↔ record.fields.get? name = some value := by
    simp only [user, List.mem_filter, bne_iff_ne, ne_eq]
    constructor
    · rintro ⟨listed, free⟩
      rcases stored listed with isReserved | ⟨_, found⟩
      · exact absurd (marked isReserved) free
      · exact found
    · intro found
      have isUser := valid.names name (Option.isSome_iff_exists.mpr ⟨_, found⟩)
      refine ⟨?_, (unmarked isUser).2⟩
      rw [Assoc.mem_toPairs, hash, Record.get?_hash (notMem_reserved isUser)]
      exact found
  have distinct : (user.map Prod.fst).Nodup := by
    refine List.Nodup.sublist (List.filter_sublist.map _) ?_
    have keys : (store.hash (.catalog path)).toPairs.map Prod.fst
        = (store.hash (.catalog path)).keys := by
      simp [Assoc.toPairs, Assoc.keys]
    rw [keys]
    exact Assoc.nodup_keys _
  have few : user.length ≤ maximumFields := by
    have inside : user.map Prod.fst ⊆ record.fields.keys := by
      intro name listed
      obtain ⟨field, member, rfl⟩ := List.mem_map.mp listed
      exact (Assoc.mem_keys _ _).mpr ⟨_, (mem field.1 field.2).mp member⟩
    have shorter := (List.subperm_of_subset distinct inside).length_le
    rw [List.length_map] at shorter
    refine (shorter.trans_eq ?_).trans valid.few
    simp [Assoc.keys, Assoc.size]
  refine ⟨user.insertionSort fun left right => left.1 ≤ right.1, ?_, sorted_names distinct, ?_⟩
  · have clean : (store.hash (.catalog path)).toPairs.any
        (fun field => field.1.head? == some 64 && !reserved.contains field.1) = false := by
      rw [List.any_eq_false]
      rintro ⟨name, value⟩ listed
      rcases stored listed with isReserved | ⟨isUser, _⟩
      · simp [isReserved]
      · simp [(unmarked isUser).2]
    have named : user.any (fun field => field.1.isEmpty) = false := by
      rw [List.any_eq_false]
      rintro ⟨name, value⟩ listed
      have isUser := valid.names name (Option.isSome_iff_exists.mpr ⟨_, (mem name value).mp listed⟩)
      simpa using (unmarked isUser).1
    simp only [Catalog.allFields]
    rw [if_neg]
    rintro (wrong | wrong | wrong)
    · rw [clean] at wrong
      cases wrong
    · rw [named] at wrong
      cases wrong
    · exact absurd few (Nat.not_le.mpr wrong)
  · intro name value
    rw [List.mem_insertionSort]
    exact mem name value

end Fields

section Answer

variable {store : Store} {zone : Zone} {call : Call}

def Call.Asks (call : Call) (since : Nat) : Prop :=
  call.keys = 5 ∧ call.argv = [call.path.member, Decimal.text since] ∧ since ≤ lastRevision

/-- A read that asks properly is answered from the item of its path. -/
theorem Represents.read (represents : Represents store zone) {since : Nat} (asks : call.Asks since)
    : (zone.items call.path).Reads since (Catalog.read store call) := by
  obtain ⟨keys, argv, small⟩ := asks
  have valid := represents.valid
  have named : call.member = call.path.member := by
    rw [Call.member, argv]
    rfl
  have revision : call.argv.getD 1 [] = Decimal.text since := by
    rw [argv]
    rfl
  rw [Catalog.read, revision, if_neg (by simp [keys, argv]),
    if_neg (by simp [named, Path.member_ne_nil, small]), represents.typesMatch, named,
    represents.indexRevisions]
  cases isItem : zone.items call.path with
  | absent =>
      have type := represents.type_missing
        (show (zone.items call.path).liveRevision = none by rw [isItem]; rfl)
      have index : store.type (.fieldRevisions call.path) = .none :=
        represents.type_index.mpr (by rw [isItem]; rfl)
      simp only [type, index, Item.liveRevision, Item.deletedRevision]
      exact .absent
  | deleted revision time =>
      have type := represents.type_missing
        (show (zone.items call.path).liveRevision = none by rw [isItem]; rfl)
      have index : store.type (.fieldRevisions call.path) = .none :=
        represents.type_index.mpr (by rw [isItem]; rfl)
      simp only [type, index, Item.liveRevision, Item.deletedRevision]
      exact .deleted revision time
  | present record =>
      have type := represents.type_present isItem
      have header := represents.header isItem
      have indexed := represents.indexed isItem
      have isLive : (Item.present record).liveRevision = some record.revision := rfl
      have notDeleted : (Item.present record).deletedRevision = none := rfl
      simp only [type, isLive, notDeleted, Option.map_some, Option.map_none, header,
        decimalLess, Decimal.less_text, Decimal.text_injective.eq_iff]
      rw [if_neg (by rintro ⟨⟩), if_neg (by rintro ⟨⟩), if_neg (by simpa using indexed)]
      by_cases same : since = record.revision
      · rw [if_pos same]
        exact .unchanged record same
      · rw [if_neg same]
        by_cases known : record.replaceRevision ≤ since ∧ since < record.revision
        · rw [if_pos (by simpa using known)]
          obtain ⟨fields, isFields, changed⟩ := represents.changedFields isItem since
          rw [isFields]
          exact .patch record fields known.1 known.2 changed
        · rw [if_neg (by simpa using known)]
          obtain ⟨fields, isFields, whole⟩ := represents.allFields isItem
          rw [isFields]
          exact .replace record fields same (by omega) whole

/-- Any other read is refused, but never for what is stored. -/
theorem read_refused (names : call.Names)
    : read store call = .error .contract ∨ ∃ since, call.Asks since := by
  rw [read]
  by_cases malformed : call.keys ≠ 5 ∨ call.argv.length ≠ 2
  · rw [if_pos malformed]
    exact .inl rfl
  rw [if_neg malformed]
  by_cases wrong : call.member = [] ∨ canonicalNonnegative (some (call.argv.getD 1 [])) = false
  · rw [if_pos wrong]
    exact .inl rfl
  obtain ⟨keys, length⟩ := not_or.mp malformed
  obtain ⟨named, canonical⟩ := not_or.mp wrong
  obtain ⟨since, small, isText⟩ :=
    canonicalNonnegative_iff.mp (Bool.eq_true_of_not_eq_false canonical)
  obtain ⟨first, second, isArgv⟩ := List.length_eq_two.mp (not_not.mp length)
  refine .inr ⟨since, not_not.mp keys, ?_, small⟩
  have isMember := names.resolve_right named
  rw [Call.member, isArgv] at isMember
  rw [isArgv] at isText
  simp only [List.headD_cons] at isMember
  simp only [List.getD_cons_succ, List.getD_cons_zero, Option.some.injEq] at isText
  rw [isArgv, isMember, isText]

end Answer

end Sdk.Catalog
