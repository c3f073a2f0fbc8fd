import Verdandi.Support.Timeline

/-! One item for each key, merged from the patches of a timeline since some version. An item
acts on the value its key had at any version since then and leaves the value of its own
version, whatever the actions are.
-/

namespace Support

universe u v w

variable {K : Type u} {V : Type v} {A : Type w}

/-- What merging relies on: `final` is the value that an item announces, and a merged item
leaves it wherever the newer item alone, or both in order, would have.
-/
structure Mergeable (act : A → Option V → Option V) (final : A → Option V)
    (version : A → Nat) (merge : A → A → A)
    : Prop where
  again : ∀ item value, act item value = final item → act item (final item) = final item
  later : ∀ old new value, act new value = final new → act (merge old new) value = final new
  earlier
    : ∀ old new value, act new (act old value) = final new → act (merge old new) value = final new
  version : ∀ old new, version (merge old new) = version new
  final : ∀ old new, final (merge old new) = final new

/-- The items collected since `low`: each carries its key from any version since then to its
own one, unless the whole content was replaced between the two, and no concerned patch is
missing. Items at or below `low` may remain; they are not used.
-/
structure Collected (act : A → Option V → Option V) (version : A → Nat)
    (items : K → Option A) (timeline : List (Commit K V)) (concerned : K → Prop) (low : Nat)
    : Prop where
  within : ∀ key item, items key = some item → version item ≤ Timeline.version timeline
  relevant : ∀ key item, items key = some item → concerned key
  carries
    : ∀ key item, items key = some item → ∀ base, low ≤ base → base ≤ version item
      → Timeline.Patched timeline base (version item)
      → act item (Timeline.contentAt timeline base key)
        = Timeline.contentAt timeline (version item) key
  complete
    : ∀ commit ∈ timeline, low < commit.version → ∀ key value, commit.change = some (key, value)
      → concerned key
      → ∃ item, items key = some item ∧ commit.version ≤ version item

namespace Collected

variable {act : A → Option V → Option V} {version : A → Nat} {items : K → Option A}
  {timeline : List (Commit K V)} {concerned : K → Prop} {low : Nat}

/-- Items at or below a later start are not needed there. -/
theorem prune (collected : Collected act version items timeline concerned low) {start : Nat}
    (later : low ≤ start)
    : Collected act version (fun key => (items key).filter (start < version ·)) timeline
        concerned start := by
  have kept {key : K} {item : A} (found : (items key).filter (start < version ·) = some item)
      : items key = some item ∧ start < version item := by
    simpa [Option.filter_eq_some_iff] using found
  constructor
  · intro key item found
    exact collected.within key item (kept found).1
  · intro key item found
    exact collected.relevant key item (kept found).1
  · intro key item found base above
    exact collected.carries key item (kept found).1 base (by omega)
  · intro commit member above key value change relevant
    obtain ⟨item, found, newer⟩ :=
      collected.complete commit member (by omega) key value change relevant
    refine ⟨item, ?_, newer⟩
    rw [found, Option.filter_eq_some_iff]
    exact ⟨rfl, by simpa using Nat.lt_of_lt_of_le above newer⟩

variable [DecidableEq K]

/-- Nothing has to be collected at the newest version. -/
theorem empty (valid : Timeline.Valid timeline) (within : Timeline.version timeline ≤ low)
    : Collected act version (fun _ => none) timeline concerned low := by
  refine ⟨by simp, by simp, by simp, ?_⟩
  intro commit member above
  have := Timeline.le_version valid member
  omega

variable {key : K}

/-- The newest value of a concerned key, from its value at any version since the start: its
item acts, unless the version has it already.
-/
theorem settled (collected : Collected act version items timeline concerned low)
    (valid : Timeline.Valid timeline) {base : Nat} (since : low ≤ base)
    (within : base ≤ Timeline.version timeline)
    (patched : Timeline.Patched timeline base (Timeline.version timeline))
    (relevant : concerned key)
    : Timeline.contentAt timeline (Timeline.version timeline) key
      = match (items key).filter (base < version ·) with
        | none => Timeline.contentAt timeline base key
        | some item => act item (Timeline.contentAt timeline base key) := by
  have pruned := collected.prune since
  cases found : (items key).filter (base < version ·) with
  | none =>
      refine Timeline.contentAt_version_of_untouched valid within patched ?_
      intro commit member value change
      by_contra above
      obtain ⟨item, present, _⟩ :=
        pruned.complete commit member (by omega) key value change relevant
      rw [found] at present
      cases present
  | some item =>
      have above : base < version item := by
        simpa using (Option.filter_eq_some_iff.mp found).2
      have bounded := pruned.within key item found
      have narrower : Timeline.Patched timeline (version item) (Timeline.version timeline) :=
        fun commit member low => patched commit member (by omega)
      have carried := pruned.carries key item found base (Nat.le_refl _) (by omega)
        fun commit member low high => patched commit member low (by omega)
      dsimp only
      rw [carried]
      refine Timeline.contentAt_version_of_untouched valid bounded narrower ?_
      intro commit member value change
      by_contra beyond
      obtain ⟨other, present, newer⟩ :=
        pruned.complete commit member (by omega) key value change relevant
      rw [found, Option.some.injEq] at present
      subst present
      omega

/-- A newer commit that no concerned key notices leaves the items alone. -/
theorem skip (collected : Collected act version items timeline concerned low)
    {commit : Commit K V} (valid : Timeline.Valid (commit :: timeline))
    (rooted : Timeline.Rooted (commit :: timeline))
    (unnoticed : ∀ key value, commit.change = some (key, value) → ¬ concerned key)
    : Collected act version items (commit :: timeline) concerned low := by
  have suffix : timeline <:+ commit :: timeline := List.suffix_cons _ _
  constructor
  · intro key item found
    exact Nat.le_trans (collected.within key item found) (Timeline.version_le_cons valid)
  · exact collected.relevant
  · intro key item found base since below patched
    have bounded := collected.within key item found
    rw [Timeline.contentAt_of_suffix valid rooted suffix (by omega),
      Timeline.contentAt_of_suffix valid rooted suffix bounded]
    exact collected.carries key item found base since below
      fun other member => patched other (List.mem_cons_of_mem _ member)
  · intro other member above key value change relevant
    rcases List.mem_cons.mp member with same | old
    · subst same
      exact absurd relevant (unnoticed key value change)
    · exact collected.complete other old above key value change relevant

/-- A concerned patch is merged into the item of its key. Witness: a version since the old
item has the value that the patch acted on, and from an older one the old item leads there.
-/
theorem insert (collected : Collected act version items timeline concerned low)
    {final : A → Option V} {merge : A → A → A} (lawful : Mergeable act final version merge)
    {commit : Commit K V} (valid : Timeline.Valid (commit :: timeline))
    (rooted : Timeline.Rooted (commit :: timeline)) {item : A}
    (change : commit.change = some (key, final item)) (relevant : concerned key)
    (stamped : version item = commit.version)
    (acts : act item (Timeline.contentAt timeline (Timeline.version timeline) key) = final item)
    : Collected act version
        (Function.update items key
          (some (match items key with | none => item | some old => merge old item)))
        (commit :: timeline) concerned low := by
  have suffix : timeline <:+ commit :: timeline := List.suffix_cons _ _
  obtain ⟨before, rest, split, follows, content⟩ := valid.2.1 key (final item) change
  have current : Timeline.version timeline + 1 = commit.version := by
    rw [split, Timeline.version_cons, follows]
  have written : Timeline.contentAt (commit :: timeline) commit.version key = final item := by
    rw [Timeline.contentAt_head, content, Function.update_self]
  have mergedVersion : version (match items key with | none => item | some old => merge old item)
      = commit.version := by
    cases items key with
    | none => exact stamped
    | some old => rw [← stamped]; exact lawful.version old item
  have mergedLater (value : Option V) (reaches : act item value = final item)
      : act (match items key with | none => item | some old => merge old item) value
        = final item := by
    cases items key with
    | none => exact reaches
    | some old => exact lawful.later old item value reaches
  constructor
  · intro name present found
    by_cases same : name = key
    · subst same
      rw [Function.update_self, Option.some.injEq] at found
      rw [← found, Timeline.version_cons]
      exact Nat.le_of_eq mergedVersion
    · rw [Function.update_of_ne same] at found
      exact Nat.le_trans (collected.within name present found) (Timeline.version_le_cons valid)
  · intro name present found
    by_cases same : name = key
    · rw [same]
      exact relevant
    · rw [Function.update_of_ne same] at found
      exact collected.relevant name present found
  · intro name present found base since below patched
    by_cases same : name = key
    · subst same
      rw [Function.update_self, Option.some.injEq] at found
      subst found
      rw [mergedVersion] at below patched ⊢
      rw [written]
      rcases Nat.eq_or_lt_of_le below with newest | older
      · rw [newest, written]
        exact mergedLater _ (lawful.again item _ acts)
      · have narrower : Timeline.Patched timeline base (Timeline.version timeline) :=
          fun other member low high =>
            patched other (List.mem_cons_of_mem _ member) low (by omega)
        have settled := collected.settled valid.2.2 since (by omega) narrower relevant
        rw [Timeline.contentAt_of_suffix valid rooted suffix (by omega)]
        rw [settled] at acts
        cases stored : items name with
        | none => simpa [stored] using acts
        | some old =>
            by_cases above : base < version old
            · refine lawful.earlier old item _ ?_
              simpa [stored, above, Option.filter_some] using acts
            · refine lawful.later old item _ ?_
              simpa [stored, above, Option.filter_some] using acts
    · rw [Function.update_of_ne same] at found
      have bounded := collected.within name present found
      rw [Timeline.contentAt_of_suffix valid rooted suffix (by omega),
        Timeline.contentAt_of_suffix valid rooted suffix bounded]
      exact collected.carries name present found base since below
        fun other member => patched other (List.mem_cons_of_mem _ member)
  · intro other member above name value changed concernedName
    by_cases same : name = key
    · subst same
      refine ⟨_, Function.update_self .., ?_⟩
      rw [mergedVersion]
      exact Timeline.le_version valid member
    · rw [Function.update_of_ne same]
      rcases List.mem_cons.mp member with isNew | old
      · subst isNew
        rw [change, Option.some.injEq, Prod.mk.injEq] at changed
        exact absurd changed.1.symm same
      · exact collected.complete other old above name value changed concernedName

end Collected

end Support
