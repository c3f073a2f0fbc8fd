import Mathlib

/-! Sorting keyed items and merging each run of equal keys into one item. The result has one
item for each key: the fold of that key's items in their own order.
-/

namespace Support

universe u v

variable {A : Type u} {K : Type v} [DecidableEq K]

def merged (key : A → K) (merge : A → A → A) (items : List A) (name : K) : Option A :=
  match items.filter (key · = name) with
  | [] => none
  | first :: rest => some (rest.foldl merge first)

/-- A later item is merged into what its key had. -/
theorem merged_append_singleton (key : A → K) (merge : A → A → A) (items : List A) (item : A)
    (name : K)
    : merged key merge (items ++ [item]) name = if key item = name then
          some ((merged key merge items name).elim item (merge · item))
        else
          merged key merge items name := by
  unfold merged
  by_cases same : key item = name
  · cases earlier : items.filter (key · = name) <;> simp [same, earlier]
  · simp [same]

variable {items : List A} {name : K}

/-- A single item of a key needs no merging. -/
theorem merged_of_filter {key : A → K} {merge : A → A → A} {found : Option A}
    (only : items.filter (key · = name) = found.toList)
    : merged key merge items name = found := by
  unfold merged
  rw [only]
  cases found <;> rfl

/-- A key has a merged item exactly if one of the items is its own. -/
theorem merged_isSome (key : A → K) (merge : A → A → A) (items : List A) (name : K)
    : (merged key merge items name).isSome = true ↔ name ∈ items.map key := by
  unfold merged
  cases found : items.filter (key · = name) with
  | nil => simpa [List.filter_eq_nil_iff] using found
  | cons first rest =>
      have member : first ∈ items.filter (key · = name) := by simp [found]
      simp only [List.mem_filter, decide_eq_true_eq] at member
      simp only [Option.isSome_some, List.mem_map, true_iff]
      exact ⟨first, member⟩

/-- What merging takes from the newer item comes from one of the items of the key. -/
theorem merged_source {W : Type*} {take : A → W} {key : A → K} {merge : A → A → A}
    (keeps : ∀ old new, take (merge old new) = take new) {item : A}
    (found : merged key merge items name = some item)
    : ∃ source ∈ items, key source = name ∧ take item = take source := by
  induction items using List.reverseRecOn generalizing item with
  | nil => cases found
  | append_singleton items last ih =>
      rw [merged_append_singleton] at found
      split at found
      next same =>
        refine ⟨last, List.mem_append_right _ List.mem_cons_self, same, ?_⟩
        rw [Option.some.injEq] at found
        rw [← found]
        cases merged key merge items name with
        | none => rfl
        | some old => exact keeps old last
      · obtain ⟨source, member, same⟩ := ih found
        exact ⟨source, List.mem_append_left _ member, same⟩

variable [LinearOrder K]

/-- Merge runs of equal adjacent keys from the left, with `latest` as the open run. -/
def mergeFrom (key : A → K) (merge : A → A → A) (latest : A) : List A → List A
  | [] => [latest]
  | next :: rest =>
      if key next = key latest then
        mergeFrom key merge (merge latest next) rest
      else
        latest :: mergeFrom key merge next rest

def mergeRuns (key : A → K) (merge : A → A → A) : List A → List A
  | [] => []
  | first :: rest => mergeFrom key merge first rest

/-- Order items by key, and items of one key by `rank`. -/
def sortByKey (key : A → K) (rank : A → Nat) (items : List A) : List A :=
  items.insertionSort fun left right => toLex (key left, rank left) ≤ toLex (key right, rank right)

variable {key : A → K} {merge : A → A → A} {rank : A → Nat}

def KeepsKey (key : A → K) (merge : A → A → A) : Prop :=
  ∀ left right, key right = key left → key (merge left right) = key left

/-- In an ordered list each key's items become one item, their fold. Witness: induction over
the list; an open run of another key that is left behind never comes back.
-/
theorem mergeFrom_filter (keeps : KeepsKey key merge) {latest : A}
    (ordered : (latest :: items).Pairwise fun left right => key left ≤ key right) (name : K)
    : (mergeFrom key merge latest items).filter (key · = name)
      = (merged key merge (latest :: items) name).toList := by
  induction items generalizing latest with
  | nil => by_cases same : key latest = name <;> simp [mergeFrom, merged, same]
  | cons next rest ih =>
      obtain ⟨above, tail⟩ := List.pairwise_cons.mp ordered
      unfold mergeFrom
      split
      next same =>
        have kept := keeps latest next same
        have still : (merge latest next :: rest).Pairwise fun left right => key left ≤ key right := by
          refine List.pairwise_cons.mpr ⟨fun item member => ?_, (List.pairwise_cons.mp tail).2⟩
          rw [kept]
          exact above item (List.mem_cons_of_mem _ member)
        rw [ih still]
        by_cases hit : key latest = name
        · simp [merged, kept, same, hit]
        · simp [merged, kept, same, hit]
      rename_i different
      rw [List.filter_cons, ih tail]
      by_cases hit : key latest = name
      · -- Everything after a finished run has a greater key.
        have none : (next :: rest).filter (key · = name) = [] := by
          rw [List.filter_eq_nil_iff]
          intro item member
          have first : key latest < key next :=
            lt_of_le_of_ne (above next List.mem_cons_self) (Ne.symm different)
          have later : key next ≤ key item := by
            rcases List.mem_cons.mp member with same | later
            · rw [same]
            · exact (List.pairwise_cons.mp tail).1 item later
          have apart : name < key item := hit ▸ lt_of_lt_of_le first later
          simp [ne_of_gt apart]
        simp [merged, hit, none]
      · simp [merged, hit]

theorem mergeRuns_filter (keeps : KeepsKey key merge)
    (ordered : items.Pairwise fun left right => key left ≤ key right) (name : K)
    : (mergeRuns key merge items).filter (key · = name) = (merged key merge items name).toList := by
  cases items with
  | nil => rfl
  | cons first rest => exact mergeFrom_filter keeps ordered name

omit [LinearOrder K] in
/-- At most one item for each key. -/
theorem nodup_of_filter_length (single : ∀ name, (items.filter (key · = name)).length ≤ 1)
    : (items.map key).Nodup := by
  rw [List.nodup_iff_count_le_one]
  intro name
  have counted : (items.map key).count name = (items.filter (key · = name)).length := by
    rw [List.count_eq_countP, List.countP_map, List.countP_eq_length_filter]
    congr 2
  rw [counted]
  exact single name

omit [DecidableEq K] in
/-- Sorting orders the keys. -/
theorem sortByKey_ordered (items : List A)
    : (sortByKey key rank items).Pairwise fun left right => key left ≤ key right := by
  have total : Std.Total fun left right : A =>
      toLex (key left, rank left) ≤ toLex (key right, rank right) :=
    ⟨fun left right => le_total _ _⟩
  have trans : IsTrans A fun left right =>
      toLex (key left, rank left) ≤ toLex (key right, rank right) :=
    ⟨fun _ _ _ first second => le_trans first second⟩
  refine (List.pairwise_insertionSort _ items).imp fun {left right} below => ?_
  rcases Prod.Lex.le_iff.mp below with less | ⟨same, _⟩
  · exact le_of_lt less
  · exact le_of_eq same

/-- Sorting leaves the items of one key as they are, if they are ordered by rank already.
Witness: both lists are permutations of each other and strictly increasing in rank.
-/
theorem sortByKey_filter
    (increasing : (items.filter (key · = name)).Pairwise fun left right => rank left < rank right)
    : (sortByKey key rank items).filter (key · = name) = items.filter (key · = name) := by
  have total : Std.Total fun left right : A =>
      toLex (key left, rank left) ≤ toLex (key right, rank right) :=
    ⟨fun left right => le_total _ _⟩
  have trans : IsTrans A fun left right =>
      toLex (key left, rank left) ≤ toLex (key right, rank right) :=
    ⟨fun _ _ _ first second => le_trans first second⟩
  have same : ((sortByKey key rank items).filter (key · = name)).Perm
      (items.filter (key · = name)) :=
    (List.perm_insertionSort _ items).filter _
  have sorted : ((sortByKey key rank items).filter (key · = name)).Pairwise
      fun left right => rank left ≤ rank right := by
    have all := (List.pairwise_insertionSort (fun left right : A =>
      toLex (key left, rank left) ≤ toLex (key right, rank right)) items).filter (key · = name)
    refine all.imp_of_mem fun {left right} inLeft inRight below => ?_
    have leftKey : key left = name := by simpa using (List.mem_filter.mp inLeft).2
    have rightKey : key right = name := by simpa using (List.mem_filter.mp inRight).2
    rcases Prod.Lex.le_iff.mp below with less | ⟨_, ranked⟩
    · simp only [ofLex_toLex, leftKey, rightKey, lt_self_iff_false] at less
    · exact ranked
  -- Ranks of one key's items determine them, so the two orders agree.
  have distinct : ((items.filter (key · = name)).map rank).Nodup :=
    List.pairwise_map.mpr (increasing.imp fun less => ne_of_lt less)
  refine List.Perm.eq_of_pairwise ?_ sorted (increasing.imp fun less => le_of_lt less) same
  intro left right inLeft inRight below above
  exact List.inj_on_of_nodup_map distinct (same.subset inLeft) inRight (le_antisymm below above)

/-- The merged items of one key after sorting: the fold of the key's items, which were
ordered by rank.
-/
theorem mergeRuns_sortByKey_filter (keeps : KeepsKey key merge)
    (increasing : (items.filter (key · = name)).Pairwise fun left right => rank left < rank right)
    : (mergeRuns key merge (sortByKey key rank items)).filter (key · = name)
      = (merged key merge items name).toList := by
  rw [mergeRuns_filter keeps (sortByKey_ordered items), merged, sortByKey_filter increasing, merged]

/-- Sorting and merging leaves one item for each key. -/
theorem mergeRuns_sortByKey_nodup (keeps : KeepsKey key merge) (items : List A)
    : ((mergeRuns key merge (sortByKey key rank items)).map key).Nodup := by
  apply nodup_of_filter_length
  intro name
  rw [mergeRuns_filter keeps (sortByKey_ordered items)]
  cases merged key merge items name <;> simp

section

variable {B : Type*} [DecidableEq B] {order : B → K} {name : A → B}

/-- One item for each name: order by name and rank, and merge each run. Names are ordered by
their image under `order`.
-/
def compress (order : B → K) (name : A → B) (rank : A → Nat) (merge : A → A → A) (items : List A)
    : List A :=
  mergeRuns (order ∘ name) merge (sortByKey (order ∘ name) rank items)

omit [LinearOrder K] [DecidableEq K] [DecidableEq B] in
theorem KeepsKey.comp (keeps : KeepsKey name merge) (injective : Function.Injective order)
    : KeepsKey (order ∘ name) merge :=
  fun left right same => congrArg order (keeps left right (injective same))

variable {items : List A}

/-- The items that compression keeps are the merged ones. -/
theorem mem_compress (injective : Function.Injective order) (keeps : KeepsKey name merge)
    (increasing : ∀ key, (items.filter (name · = key)).Pairwise
      fun left right => rank left < rank right)
    (item : A)
    : item ∈ compress order name rank merge items
      ↔ merged name merge items (name item) = some item := by
  have grouping : items.filter ((order ∘ name) · = order (name item))
      = items.filter (name · = name item) :=
    List.filter_congr fun other _ => decide_eq_decide.mpr injective.eq_iff
  have kept := mergeRuns_sortByKey_filter (keeps.comp injective)
    (show (items.filter ((order ∘ name) · = order (name item))).Pairwise
      fun left right => rank left < rank right by rw [grouping]; exact increasing _)
  have inside : item ∈ compress order name rank merge items
      ↔ item ∈ (compress order name rank merge items).filter
          ((order ∘ name) · = order (name item)) := by
    simp [List.mem_filter]
  rw [inside, compress, kept, Option.mem_toList, merged, grouping]
  rfl

omit [DecidableEq B] in
theorem nodup_compress (injective : Function.Injective order) (keeps : KeepsKey name merge)
    (items : List A)
    : ((compress order name rank merge items).map name).Nodup := by
  have apart : ((compress order name rank merge items).map (order ∘ name)).Nodup :=
    mergeRuns_sortByKey_nodup (keeps.comp injective) items
  rw [← List.map_map] at apart
  exact List.Nodup.of_map order apart

/-- Merging keeps the name. -/
theorem name_merged (keeps : KeepsKey name merge) {key : B} {item : A}
    (found : merged name merge items key = some item)
    : name item = key := by
  unfold merged at found
  split at found
  · cases found
  rename_i first rest group
  cases found
  have named : ∀ other ∈ first :: rest, name other = key := by
    intro other member
    rw [← group] at member
    simpa using (List.mem_filter.mp member).2
  clear group
  induction rest generalizing first with
  | nil => exact named first List.mem_cons_self
  | cons next rest ih =>
      refine ih (merge first next) fun other member => ?_
      rcases List.mem_cons.mp member with same | later
      · have firstName := named first List.mem_cons_self
        have nextName := named next (by simp)
        rw [same, keeps first next (nextName.trans firstName.symm), firstName]
      · exact named other (by simp [later])

end

end Support
