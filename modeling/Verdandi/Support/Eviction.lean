import Mathlib

/-! A set of sized items of which the least ones leave until the others fit. -/

namespace Support.Eviction

variable {ι κ : Type} [LinearOrder κ] (key : ι → κ) (size : ι → Nat) (limit : Nat)

def reach (items : Finset ι) (item : ι) : Nat :=
  ∑ other ∈ items.filter fun other => key item ≤ key other, size other

def trim (items : Finset ι) : Finset ι :=
  items.filter fun item => reach key size items item ≤ limit

def fill [DecidableEq ι] (items : Finset ι) (arriving : List ι) : Finset ι :=
  arriving.foldl (fun items item => trim key size limit (insert item items)) items

variable {key size limit} {items others : Finset ι} {item other : ι}

-- Upper parts

theorem mem_trim
    : item ∈ trim key size limit items ↔ item ∈ items ∧ reach key size items item ≤ limit :=
  Finset.mem_filter

theorem trim_subset : trim key size limit items ⊆ items := Finset.filter_subset _ _

theorem reach_mono (inside : items ⊆ others) (item : ι)
    : reach key size items item ≤ reach key size others item :=
  Finset.sum_le_sum_of_subset (Finset.filter_subset_filter _ inside)

theorem reach_le_sum (items : Finset ι) (item : ι)
    : reach key size items item ≤ ∑ other ∈ items, size other :=
  Finset.sum_le_sum_of_subset (Finset.filter_subset _ _)

/-- Later items reach less. -/
theorem reach_anti (later : key item ≤ key other)
    : reach key size items other ≤ reach key size items item := by
  refine Finset.sum_le_sum_of_subset ?_
  intro third listed
  rw [Finset.mem_filter] at listed ⊢
  exact ⟨listed.1, later.trans listed.2⟩

/-- The items from a kept one on are kept. -/
theorem trim_upper (kept : item ∈ trim key size limit items) (listed : other ∈ items)
    (later : key item ≤ key other)
    : other ∈ trim key size limit items :=
  mem_trim.mpr ⟨listed, (reach_anti later).trans (mem_trim.mp kept).2⟩

/-- What fits stays. -/
theorem trim_of_fits (fits : ∑ other ∈ items, size other ≤ limit)
    : trim key size limit items = items :=
  Finset.filter_true_of_mem fun item _ => (reach_le_sum items item).trans fits

/-- Below a kept item, nothing is missing from what it reaches. -/
theorem reach_trim (kept : item ∈ trim key size limit items)
    : reach key size (trim key size limit items) item = reach key size items item := by
  unfold reach
  congr 1
  ext other
  rw [Finset.mem_filter, Finset.mem_filter]
  constructor
  · rintro ⟨listed, later⟩
    exact ⟨trim_subset listed, later⟩
  · rintro ⟨listed, later⟩
    exact ⟨trim_upper kept listed later, later⟩

/-- What is kept fits. -/
theorem trim_fits : ∑ other ∈ trim key size limit items, size other ≤ limit := by
  by_cases none' : (trim key size limit items).Nonempty
  · obtain ⟨least, kept, first⟩ := Finset.exists_min_image (trim key size limit items) key none'
    have whole
        : ∑ other ∈ trim key size limit items, size other
          = reach key size (trim key size limit items) least := by
      unfold reach
      rw [Finset.filter_true_of_mem first]
    rw [whole, reach_trim kept]
    exact (mem_trim.mp kept).2
  · rw [Finset.not_nonempty_iff_eq_empty.mp none', Finset.sum_empty]
    exact Nat.zero_le _

variable [DecidableEq ι]

/-- Where the items do not fit, the least one leaves and the others go on. -/
theorem trim_erase_least (listed : item ∈ items)
    (least : ∀ other ∈ items, other ≠ item → key item < key other)
    (many : limit < ∑ other ∈ items, size other)
    : trim key size limit (items.erase item) = trim key size limit items := by
  have whole : reach key size items item = ∑ other ∈ items, size other := by
    unfold reach
    rw [Finset.filter_true_of_mem]
    intro other inside
    by_cases same : other = item
    · rw [same]
    · exact (least other inside same).le
  have reaches {other : ι} (inside : other ∈ items) (apart : other ≠ item)
      : reach key size (items.erase item) other = reach key size items other := by
    unfold reach
    rw [Finset.filter_erase, Finset.erase_eq_of_notMem]
    rw [Finset.mem_filter, not_and, not_le]
    intro _
    exact least other inside apart
  ext other
  rw [mem_trim, mem_trim, Finset.mem_erase]
  by_cases same : other = item
  · subst same
    rw [whole]
    simp only [ne_eq, not_true_eq_false, false_and, false_iff, not_and]
    omega
  · constructor
    · rintro ⟨⟨_, inside⟩, within⟩
      rw [reaches inside same] at within
      exact ⟨inside, within⟩
    · rintro ⟨inside, within⟩
      rw [reaches inside same]
      exact ⟨⟨same, inside⟩, within⟩

/-- An item that comes after those that left may come before they leave. -/
theorem trim_insert (later
      : ∀ other ∈ items, other ∉ trim key size limit items → key other < key item)
    : trim key size limit (insert item (trim key size limit items))
      = trim key size limit (insert item items) := by
  have reaches {other : ι} (kept : other ∈ trim key size limit items ∨ other = item)
      : reach key size (insert item (trim key size limit items)) other
        = reach key size (insert item items) other := by
    unfold reach
    congr 1
    ext third
    simp only [Finset.mem_filter, Finset.mem_insert]
    constructor
    · rintro ⟨same | listed, after⟩
      · exact ⟨.inl same, after⟩
      · exact ⟨.inr (trim_subset listed), after⟩
    · rintro ⟨same | listed, after⟩
      · exact ⟨.inl same, after⟩
      · refine ⟨.inr ?_, after⟩
        rcases kept with kept | rfl
        · exact trim_upper kept listed after
        · by_contra left
          exact absurd (later third listed left) (not_lt.mpr after)
  ext other
  rw [mem_trim, mem_trim, Finset.mem_insert, Finset.mem_insert]
  constructor
  · rintro ⟨same | listed, within⟩
    · rw [reaches (.inr same)] at within
      exact ⟨.inl same, within⟩
    · rw [reaches (.inl listed)] at within
      exact ⟨.inr (trim_subset listed), within⟩
  · rintro ⟨same | listed, within⟩
    · rw [reaches (.inr same)]
      exact ⟨.inl same, within⟩
    · have kept : other ∈ trim key size limit items :=
        mem_trim.mpr ⟨listed, (reach_mono (Finset.subset_insert _ _) other).trans within⟩
      rw [reaches (.inl kept)]
      exact ⟨.inr kept, within⟩

-- Arrivals

variable {arriving : List ι}

theorem fill_fits (key : ι → κ) (arriving : List ι) (fits : ∑ other ∈ items, size other ≤ limit)
    : ∑ other ∈ fill key size limit items arriving, size other ≤ limit := by
  induction arriving generalizing items with
  | nil => exact fits
  | cons first rest ih => exact ih trim_fits

theorem fill_append {later : List ι}
    : fill key size limit items (arriving ++ later)
      = fill key size limit (fill key size limit items arriving) later :=
  List.foldl_append

/-- Where all fit, all stay. -/
theorem fill_of_fits (fits : ∑ other ∈ items ∪ arriving.toFinset, size other ≤ limit)
    : fill key size limit items arriving = items ∪ arriving.toFinset := by
  induction arriving generalizing items with
  | nil => simp [fill]
  | cons first rest ih =>
      have same : insert first items ∪ rest.toFinset = items ∪ (first :: rest).toFinset := by
        rw [List.toFinset_cons, Finset.union_insert, Finset.insert_union]
      have less : ∑ other ∈ insert first items, size other ≤ limit := by
        refine le_trans (Finset.sum_le_sum_of_subset ?_) fits
        rw [← same]
        exact Finset.subset_union_left
      have step
          : fill key size limit items (first :: rest)
            = fill key size limit (insert first items) rest := by
        show fill key size limit (trim key size limit (insert first items)) rest = _
        rw [trim_of_fits less]
      rw [step, ih (by rwa [same]), same]

theorem fill_subset
    : fill key size limit items arriving ⊆ items ∪ arriving.toFinset := by
  induction arriving generalizing items with
  | nil => simp [fill]
  | cons first rest ih =>
      intro other listed
      have inside : other ∈ trim key size limit (insert first items) ∪ rest.toFinset := ih listed
      rw [Finset.mem_union] at inside
      rcases inside with kept | later
      · have among := trim_subset kept
        rw [Finset.mem_insert] at among
        rw [Finset.mem_union, List.mem_toFinset, List.mem_cons]
        tauto
      · rw [Finset.mem_union, List.mem_toFinset, List.mem_cons]
        rw [List.mem_toFinset] at later
        exact .inr (.inr later)

variable {all : Finset ι}

/-- The longest upper part of all that fits is kept in every order. -/
theorem trim_subset_fill (inside : items ⊆ all) (arrive : arriving.toFinset ⊆ all)
    (kept : item ∈ trim key size limit all) (comes : item ∈ items ∨ item ∈ arriving)
    : item ∈ fill key size limit items arriving := by
  induction arriving generalizing items with
  | nil => simpa [fill] using comes
  | cons first rest ih =>
      rw [List.toFinset_cons, Finset.insert_subset_iff] at arrive
      have within : insert first items ⊆ all := Finset.insert_subset_iff.mpr ⟨arrive.1, inside⟩
      apply ih (trim_subset.trans within) arrive.2
      by_cases later : item ∈ rest
      · exact .inr later
      · left
        rw [mem_trim]
        refine ⟨?_, (reach_mono within item).trans (mem_trim.mp kept).2⟩
        rw [Finset.mem_insert]
        rcases comes with here | listed
        · exact .inr here
        · exact (List.mem_cons.mp listed).imp_right fun there => absurd there later

variable {start : Finset ι}

/-- An item that was there from the start stays only if all that come later stay. -/
theorem fill_start (apart : ∀ other ∈ arriving, other ∉ start) (inside : items ⊆ all)
    (whole : ∀ other ∈ items, other ∈ start → ∀ third ∈ all, key other < key third → third ∈ items)
    (kept : item ∈ fill key size limit items arriving) (first : item ∈ start)
    : ∀ third ∈ all ∪ arriving.toFinset,
        key item < key third → third ∈ fill key size limit items arriving := by
  induction arriving generalizing items all with
  | nil =>
      intro third listed after
      rw [List.toFinset_nil, Finset.union_empty] at listed
      exact whole item kept first third listed after
  | cons next rest ih =>
      intro third listed after
      have isNew := apart next List.mem_cons_self
      refine ih (fun other later => apart other (List.mem_cons_of_mem _ later))
        (trim_subset.trans (Finset.insert_subset_insert next inside)) ?_ kept third ?_ after
      · intro other stays isFirst fourth among later
        have before := trim_subset stays
        rw [Finset.mem_insert] at before
        rcases before with rfl | before
        · exact absurd isFirst isNew
        · refine trim_upper stays ?_ later.le
          rw [Finset.mem_insert] at among ⊢
          exact among.imp_right fun old => whole other before isFirst fourth old later
      · rw [Finset.mem_union, List.toFinset_cons, Finset.mem_insert] at listed
        rw [Finset.mem_union, Finset.mem_insert]
        tauto

/-- Where no arriving item fits beside the upper part, every order keeps just that part. -/
theorem fill_eq (distinct : Function.Injective key) (fits : ∑ other ∈ start, size other ≤ limit)
    (apart : ∀ other ∈ arriving, other ∉ start)
    (large
      : ∀ other ∈ arriving, other ∉ trim key size limit (start ∪ arriving.toFinset) →
            limit < size other
              + ∑ third ∈ trim key size limit (start ∪ arriving.toFinset), size third)
    : fill key size limit start arriving = trim key size limit (start ∪ arriving.toFinset) := by
  have upper
      : trim key size limit (start ∪ arriving.toFinset) ⊆ fill key size limit start arriving := by
    intro item kept
    refine trim_subset_fill Finset.subset_union_left Finset.subset_union_right kept ?_
    simpa using trim_subset kept
  have total := fill_fits key arriving fits
  refine Finset.Subset.antisymm ?_ upper
  intro item kept
  by_contra left
  have among := fill_subset kept
  rw [Finset.mem_union, List.mem_toFinset] at among
  rcases among with first | arrives
  · -- What was there from the start has all that is later beside it.
    apply left
    rw [mem_trim, Finset.mem_union]
    refine ⟨.inl first, le_trans ?_ total⟩
    refine Finset.sum_le_sum_of_subset ?_
    intro third listed
    rw [Finset.mem_filter] at listed
    rcases listed.2.lt_or_eq with later | same
    · exact fill_start apart subset_rfl (fun _ _ _ third listed _ => listed) kept first third
        listed.1 later
    · rwa [← distinct same]
  · have both
        : ∑ third ∈ insert item (trim key size limit (start ∪ arriving.toFinset)), size third
          ≤ limit :=
      (Finset.sum_le_sum_of_subset (Finset.insert_subset_iff.mpr ⟨kept, upper⟩)).trans total
    rw [Finset.sum_insert left] at both
    have more := large item arrives left
    omega

/-- In the order of their keys, what arrives leaves just the longest upper part. -/
theorem fill_sorted (fits : ∑ other ∈ start, size other ≤ limit)
    (sorted : arriving.Pairwise fun left right => key left < key right)
    : fill key size limit start arriving = trim key size limit (start ∪ arriving.toFinset) := by
  induction arriving using List.reverseRecOn with
  | nil =>
      rw [List.toFinset_nil, Finset.union_empty, trim_of_fits fits]
      rfl
  | append_singleton before last ih =>
      rw [List.pairwise_append] at sorted
      obtain ⟨ordered, _, under⟩ := sorted
      have earlier : ∀ other ∈ before, key other < key last :=
        fun other listed => under other listed last List.mem_cons_self
      have step
          : fill key size limit start (before ++ [last])
            = trim key size limit (insert last (fill key size limit start before)) := by
        unfold fill
        rw [List.foldl_append]
        rfl
      rw [step, ih ordered, trim_insert]
      · congr 1
        rw [List.toFinset_append, List.toFinset_cons, List.toFinset_nil, ← Finset.union_assoc,
          insert_empty_eq, Finset.union_comm _ {last}, ← Finset.insert_eq]
      · intro other listed left
        rw [Finset.mem_union, List.mem_toFinset] at listed
        rcases listed with first | arrived
        · by_contra after
          -- What is later than the last one was there from the start, and all that fits.
          apply left
          rw [mem_trim, Finset.mem_union]
          refine ⟨.inl first, le_trans (Finset.sum_le_sum_of_subset ?_) fits⟩
          intro third among
          rw [Finset.mem_filter, Finset.mem_union, List.mem_toFinset] at among
          rcases among with ⟨old | new, later⟩
          · exact old
          · exact absurd ((earlier third new).trans_le ((not_lt.mp after).trans later))
              (lt_irrefl _)
        · exact earlier other arrived

/-- An item that fits beside the upper part makes another set if it comes last. -/
theorem fill_last_ne (distinct : Function.Injective key)
    (fits : ∑ other ∈ start, size other ≤ limit) (left : item ∉ trim key size limit all)
    (small : size item + ∑ other ∈ trim key size limit all, size other ≤ limit)
    : fill key size limit start (arriving ++ [item]) ≠ trim key size limit all := by
  have total := fill_fits key arriving fits
  have step
      : fill key size limit start (arriving ++ [item])
        = trim key size limit (insert item (fill key size limit start arriving)) := by
    unfold fill
    rw [List.foldl_append]
    rfl
  rw [step]
  intro same
  by_cases upper
      : ∀ other ∈ fill key size limit start arriving,
          key item < key other → other ∈ trim key size limit all
  · -- Nothing but the upper part is later, so the item stays.
    apply left
    rw [← same, mem_trim]
    refine ⟨Finset.mem_insert_self _ _, le_trans ?_ small⟩
    rw [← Finset.sum_insert left]
    refine Finset.sum_le_sum_of_subset ?_
    intro other among
    rw [Finset.mem_filter, Finset.mem_insert] at among
    rw [Finset.mem_insert]
    rcases among with ⟨isItem | there, later⟩
    · exact .inl isItem
    · rcases later.lt_or_eq with after | equal
      · exact .inr (upper other there after)
      · exact .inl (distinct equal).symm
  · push Not at upper
    obtain ⟨other, there, after, gone⟩ := upper
    apply gone
    rw [← same, mem_trim]
    refine ⟨Finset.mem_insert_of_mem there, le_trans ?_ total⟩
    refine Finset.sum_le_sum_of_subset ?_
    intro third among
    rw [Finset.mem_filter, Finset.mem_insert] at among
    rcases among with ⟨rfl | listed, later⟩
    · exact absurd (after.trans_le later) (lt_irrefl _)
    · exact listed

end Support.Eviction
