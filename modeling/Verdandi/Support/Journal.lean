import Mathlib

/-! A log whose items are numbered without a gap, of which only a newest part is retained. What
was asked for since a position is answered from the retained part exactly if it reaches back
that far.
-/

namespace Support

universe u

variable {A : Type u} {position : A → Nat} {log retained : List A}

structure Journal (position : A → Nat) (log retained : List A) : Prop where
  numbered : log.map position = List.range' 1 log.length
  suffix : retained <:+ log

namespace Journal

theorem empty : Journal position [] ([] : List A) :=
  ⟨rfl, List.suffix_rfl⟩

variable {kept : List A}

/-- The next item continues the log; what is retained may be cut off. -/
theorem push (journal : Journal position log retained) {item : A}
    (next : position item = log.length + 1) (cut : kept <:+ retained ++ [item])
    : Journal position (log ++ [item]) kept := by
  constructor
  · rw [List.map_append, journal.numbered, List.length_append, List.length_singleton,
      List.map_singleton, next, List.range'_1_concat, Nat.add_comm 1]
  · obtain ⟨gone, whole⟩ := journal.suffix
    exact cut.trans ⟨gone, by rw [← List.append_assoc, whole]⟩

/-- Whatever is retained is still a journal of the same log. -/
theorem evict (journal : Journal position log retained) (cut : kept <:+ retained)
    : Journal position log kept :=
  ⟨journal.numbered, cut.trans journal.suffix⟩

/-- Numbered items up to a position are those before it. Witness: induction over the items. -/
theorem dropWhile_numbered {items : List A} {before since : Nat}
    (numbered : items.map position = List.range' (before + 1) items.length)
    : items.dropWhile (position · ≤ since) = items.drop (since - before) := by
  induction items generalizing before with
  | nil => simp
  | cons first rest ih =>
      rw [List.map_cons, List.length_cons, List.range'_succ, List.cons.injEq] at numbered
      obtain ⟨isFirst, later⟩ := numbered
      by_cases within : position first ≤ since
      · rw [List.dropWhile_cons_of_pos (by simpa using within), ih later]
        have more : since - before = (since - (before + 1)) + 1 := by omega
        rw [more, List.drop_succ_cons]
      · have none : since - before = 0 := by omega
        rw [List.dropWhile_cons_of_neg (by simpa using within), none, List.drop_zero]

/-- The retained items are numbered on from those that are gone. -/
theorem retained_numbered (journal : Journal position log retained)
    : retained.map position = List.range' (log.length - retained.length + 1) retained.length := by
  obtain ⟨gone, rfl⟩ := journal.suffix
  have numbered := journal.numbered
  rw [List.map_append, List.length_append, List.range'_append_1.symm] at numbered
  have split := List.append_inj_right numbered (by simp)
  rw [split, List.length_append]
  congr 1
  omega

variable {first : A}

/-- The oldest retained item says how far the retained part reaches back. -/
theorem oldest {rest : List A} (journal : Journal position log (first :: rest))
    : position first = log.length - (first :: rest).length + 1 := by
  have numbered := journal.retained_numbered
  rw [List.map_cons, List.length_cons, List.range'_succ, List.cons.injEq] at numbered
  rw [numbered.1, List.length_cons]

/-- A retained part that reaches back far enough has everything since a position. -/
theorem since {since : Nat} (journal : Journal position log retained)
    (reaches : log.length - retained.length ≤ since)
    : retained.dropWhile (position · ≤ since) = log.drop since := by
  rw [dropWhile_numbered journal.retained_numbered]
  have same : retained = log.drop (log.length - retained.length) :=
    List.suffix_iff_eq_drop.mp journal.suffix
  generalize log.length - retained.length = gone at same reaches
  rw [same, List.drop_drop]
  congr 1
  omega

theorem drop_numbered (journal : Journal position log retained) (since : Nat)
    : (log.drop since).map position = List.range' (since + 1) (log.length - since) := by
  rw [List.map_drop, journal.numbered, List.drop_range']
  simp [Nat.add_comm]

/-- Where everything above a position is retained, it starts right there. -/
theorem next_of_suffix {since : Nat} (journal : Journal position log retained)
    (kept : log.drop since <:+ retained) (behind : since < log.length)
    : ∃ first later, retained.dropWhile (position · ≤ since) = first :: later
      ∧ position first = since + 1 := by
  have length := kept.length_le
  rw [List.length_drop] at length
  have whole := journal.since (show log.length - retained.length ≤ since by omega)
  have numbered := journal.drop_numbered since
  cases above : log.drop since with
  | nil =>
      rw [List.drop_eq_nil_iff] at above
      omega
  | cons first later =>
      rw [above] at numbered whole
      refine ⟨first, later, whole, ?_⟩
      have count : log.length - since = (log.length - since - 1) + 1 := by omega
      rw [count, List.map_cons, List.range'_succ, List.cons.injEq] at numbered
      exact numbered.1

end Journal

end Support
