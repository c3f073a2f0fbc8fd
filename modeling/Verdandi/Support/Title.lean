import Mathlib

/-! A name under which several parties may hold a record, while it is shown for one of them: the one
that has the title to it. Without any other party the title is at home.
-/

namespace Support

structure Title (Party Record Item : Type) where
  held : Party → Option Record
  owner : Party
  shown : Option Item

namespace Title

variable {Party Record Item : Type}

/-- The record of the owner is shown. Where the owner is not at home, there is a record of it and none
at home. What others hold is spent.
-/
structure Sound (home : Party) (display : Record → Item) (spent : Record → Prop)
    (title : Title Party Record Item)
    : Prop where
  shown : title.shown = (title.held title.owner).map display
  away : title.owner ≠ home → (title.held title.owner).isSome = true ∧ title.held home = none
  others : ∀ party record, title.held party = some record → title.owner = party ∨ spent record

variable {home actor : Party} {display : Record → Item} {spent : Record → Prop}
  {before after title : Title Party Record Item}

/-- What is not shown is nobody's. -/
theorem Sound.unseen (sound : title.Sound home display spent) (hidden : title.shown = none)
    : title.owner = home ∧ title.held home = none := by
  have none : title.held title.owner = none := by
    rw [sound.shown] at hidden
    exact Option.map_eq_none_iff.mp hidden
  by_cases isHome : title.owner = home
  · exact ⟨isHome, isHome ▸ none⟩
  · have some := (sound.away isHome).1
    rw [none] at some
    cases some

/-- What lives is shown, for its owner. -/
theorem Sound.live (sound : title.Sound home display spent) {party : Party} {record : Record}
    (holds : title.held party = some record) (living : ¬ spent record)
    : title.owner = party ∧ title.shown = some (display record) := by
  have isOwner := (sound.others party record holds).resolve_right living
  refine ⟨isOwner, ?_⟩
  rw [sound.shown, isOwner, holds, Option.map_some]

/-- Time only spends more. -/
theorem Sound.later {later : Record → Prop} (sound : title.Sound home display spent)
    (more : ∀ record, spent record → later record)
    : title.Sound home display later :=
  ⟨sound.shown, sound.away, fun party record holds =>
    (sound.others party record holds).imp id (more record)⟩

section

variable [DecidableEq Party]

/-- A party has another record, or none, that is not shown; what was shown of it is hidden. -/
def lay (home actor : Party) (record : Option Record) (title : Title Party Record Item)
    : Title Party Record Item where
  held := Function.update title.held actor record
  owner := if title.owner = actor then home else title.owner
  shown := if title.owner = actor then none else title.shown

def put (home actor : Party) (display : Record → Item) (record : Option Record)
    (title : Title Party Record Item)
    : Title Party Record Item where
  held := Function.update title.held actor record
  owner := if record.isSome then actor else home
  shown := record.map display

def Ends (home : Party) (spent : Record → Prop) (before after : Title Party Record Item) : Prop :=
  ∃ actor record, before.held actor = some record ∧ spent record
    ∧ after = before.lay home actor none

/-- What one party may do: to show a record where nobody else is shown, and to hold one that is spent.
-/
inductive Changes (home actor : Party) (display : Record → Item) (spent : Record → Prop)
    (title : Title Party Record Item)
    : Title Party Record Item → Prop where
  | same : Changes home actor display spent title title
  | put (record : Option Record) (free : title.owner = actor ∨ title.shown = none)
      : Changes home actor display spent title (title.put home actor display record)
  | lay (record : Option Record) (away : actor ≠ home)
      (ended : ∀ held, record = some held → spent held)
      : Changes home actor display spent title (title.lay home actor record)

/-- A spent record may be laid down by anybody, and by everybody none. -/
theorem Sound.lay (sound : title.Sound home display spent) {record : Option Record}
    (ended : ∀ held, record = some held → spent held) (away : actor ≠ home ∨ record = none)
    : (title.lay home actor record).Sound home display spent where
  shown := by
    unfold Title.lay
    dsimp only
    split
    next isActor =>
      have none : Function.update title.held actor record home = none := by
        rw [Function.update_apply]
        split
        next isHome => exact away.resolve_left fun differs => differs isHome.symm
        next isAway => exact (sound.away fun same => isAway (same.symm.trans isActor)).2
      rw [none, Option.map_none]
    next isOther => rw [Function.update_of_ne isOther, sound.shown]
  away := by
    unfold Title.lay
    dsimp only
    split
    · exact fun absurd => (absurd rfl).elim
    rename_i isOther
    intro isAway
    rw [Function.update_of_ne isOther]
    refine ⟨(sound.away isAway).1, ?_⟩
    rw [Function.update_apply]
    split
    next isHome => exact away.resolve_left fun differs => differs isHome.symm
    · exact (sound.away isAway).2
  others := by
    unfold Title.lay
    dsimp only
    intro party held holds
    rw [Function.update_apply] at holds
    split at holds
    · exact .inr (ended held holds)
    rename_i differs
    refine (sound.others party held holds).imp ?_ id
    intro isOwner
    rw [if_neg fun isActor => differs (isOwner.symm.trans isActor), isOwner]

theorem Sound.put (sound : title.Sound home display spent) (record : Option Record)
    (free : title.owner = actor ∨ title.shown = none)
    : (title.put home actor display record).Sound home display spent := by
  have homeless : actor ≠ home → title.held home = none := by
    intro away
    rcases free with isActor | hidden
    · exact (sound.away (isActor ▸ away)).2
    · exact (sound.unseen hidden).2
  constructor
  · unfold Title.put
    cases record with
    | some record => simp
    | none =>
        simp only [Option.map_none, Option.isSome_none, Bool.false_eq_true, if_false]
        rw [Function.update_apply]
        split
        · rfl
        next differs => rw [homeless fun same => differs same.symm, Option.map_none]
  · unfold Title.put
    cases record with
    | none => simp
    | some record =>
        simp only [Option.isSome_some, if_true]
        intro away
        refine ⟨by simp, ?_⟩
        rw [Function.update_of_ne away.symm]
        exact homeless away
  · unfold Title.put
    intro party held holds
    dsimp only at holds ⊢
    rw [Function.update_apply] at holds
    split at holds
    next isActor =>
      rw [holds]
      exact .inl isActor.symm
    rename_i differs
    refine .inr ((sound.others party held holds).resolve_left fun isOwner => ?_)
    rcases free with isActor | hidden
    · exact differs (isOwner.symm.trans isActor)
    · rw [sound.shown, isOwner, holds] at hidden
      cases hidden

theorem Ends.sound (ends : Ends home spent before after) (sound : before.Sound home display spent)
    : after.Sound home display spent := by
  obtain ⟨actor, record, holds, ended, rfl⟩ := ends
  exact sound.lay nofun (.inr rfl)

theorem Changes.sound (changes : Changes home actor display spent before after)
    (sound : before.Sound home display spent)
    : after.Sound home display spent := by
  cases changes with
  | same => exact sound
  | put record free => exact sound.put record free
  | lay record away ended => exact sound.lay ended (.inl away)

/-- Nobody loses what others have. -/
theorem Changes.others (changes : Changes home actor display spent before after) {party : Party}
    (differs : party ≠ actor)
    : after.held party = before.held party := by
  cases changes with
  | same => rfl
  | put record free => exact Function.update_of_ne differs _ _
  | lay record away ended => exact Function.update_of_ne differs _ _

/-- What is shown for somebody else stays, and stays theirs. -/
theorem Changes.frame (changes : Changes home actor display spent before after)
    (differs : before.owner ≠ actor) (seen : before.shown.isSome = true)
    : after.shown = before.shown ∧ after.owner = before.owner := by
  cases changes with
  | same => exact ⟨rfl, rfl⟩
  | put record free =>
      rcases free with isActor | hidden
      · exact absurd isActor differs
      · rw [hidden] at seen
        cases seen
  | lay record away ended => exact ⟨if_neg differs, if_neg differs⟩

-- As time goes by

/-- Some spent records are given up, one after the other. -/
abbrev Fades (home : Party) (spent : Record → Prop)
    : Title Party Record Item → Title Party Record Item → Prop :=
  Relation.ReflTransGen (Ends home spent)

theorem Fades.later {later : Record → Prop} (fades : Fades home spent before after)
    (more : ∀ record, spent record → later record)
    : Fades home later before after :=
  Relation.ReflTransGen.mono
    (fun _ _ ⟨actor, record, holds, ended, same⟩ => ⟨actor, record, holds, more record ended, same⟩)
    _ _ fades

theorem Fades.sound (fades : Fades home spent before after)
    (sound : before.Sound home display spent)
    : after.Sound home display spent := by
  induction fades with
  | refl => exact sound
  | tail _ ends ih => exact ends.sound ih

/-- Whoever has lost a record had a spent one. -/
theorem Fades.held (fades : Fades home spent before after) (party : Party)
    : after.held party = before.held party
      ∨ after.held party = none ∧ ∃ record, before.held party = some record ∧ spent record := by
  induction fades with
  | refl => exact .inl rfl
  | tail _ ends ih =>
      obtain ⟨actor, record, holds, ended, rfl⟩ := ends
      unfold Title.lay
      dsimp only
      rw [Function.update_apply]
      split
      next isActor =>
        subst isActor
        rcases ih with same | ⟨gone, _⟩
        · exact .inr ⟨rfl, record, same.symm.trans holds, ended⟩
        · rw [gone] at holds
          cases holds
      · exact ih

/-- What is not shown any more was spent. -/
theorem Fades.frame (fades : Fades home spent before after)
    : after.shown = before.shown ∧ after.owner = before.owner ∨ after.shown = none
        ∧ ∃ record, before.held before.owner = some record ∧ spent record := by
  induction fades with
  | refl => exact .inl ⟨rfl, rfl⟩
  | tail fades ends ih =>
      obtain ⟨actor, record, holds, ended, rfl⟩ := ends
      unfold Title.lay
      dsimp only
      rcases ih with ⟨shown, owner⟩ | ⟨hidden, spent⟩
      · split
        next isActor =>
          refine .inr ⟨rfl, ?_⟩
          rcases Fades.held fades actor with same | ⟨gone, _⟩
          · exact ⟨record, by rw [← owner, isActor, ← same, holds], ended⟩
          · rw [gone] at holds
            cases holds
        · exact .inl ⟨shown, owner⟩
      · right
        split
        · exact ⟨rfl, spent⟩
        · exact ⟨hidden, spent⟩

end

end Title

end Support
