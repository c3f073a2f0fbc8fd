import Verdandi.Star.Landing

/-! What a reception yields over all pages that it is given. The pages since it was last cleared are kept
beside it; they decide what it accepts and what it yields.
-/

namespace Astra

open Support
open Origin (Name)

namespace Landing

variable {Item Message : Type}

def rowsOfPages (domain : Domain Item Message) (pages : List (Page Message × Nat))
    : List (Name × Item) :=
  rowsOf domain (pages.flatMap fun page => page.1.entries)

/-- Pages, each with the least position that was asked for, that may begin a complete state. -/
structure Begins (domain : Domain Item Message) (limits : Origin.Limits) (maximum : Nat)
    (pages : List (Page Message × Nat)) : Prop where
  position : ∀ one ∈ pages, ∀ other ∈ pages, one.1.position = other.1.position
  minimum : ∀ page ∈ pages, page.2 ≤ page.1.position
  last : ∀ page ∈ pages.dropLast, page.1.complete = false
  small : ∀ page ∈ pages, page.1.entries.length ≤ 256 ∧ page.1.bytes ≤ 8 * 1024 * 1024
  total : (pages.map fun page => page.1.bytes).sum ≤ maximum
  filled : ∀ page ∈ pages, (page.1.complete = false → page.1.entries ≠ [])
    ∧ (page.1.position = 0 → page.1.entries = [])
  formed : ∀ page ∈ pages, ∀ entry ∈ page.1.entries, (entry.row domain).isSome = true
  fits : Fits domain.traits limits (rowsOfPages domain pages)

def completes (pages : List (Page Message × Nat)) : Bool :=
  pages.getLast?.any fun page => page.1.complete

structure Whole (domain : Domain Item Message) (limits : Origin.Limits) (maximum : Nat)
    (pages : List (Page Message × Nat)) (minimum : Nat) : Prop where
  begins : Begins domain limits maximum pages
  completed : completes pages = true
  reached : ∀ page ∈ pages, minimum ≤ page.1.position

structure Collects (domain : Domain Item Message) (limits : Origin.Limits) (landing : Landing Item)
    (pages : List (Page Message × Nat)) : Prop where
  begins : Begins domain limits landing.maximum pages
  received : landing.received = (pages.map fun page => page.1.bytes).sum
  complete : landing.complete = completes pages
  draft : ∀ draft, landing.draft = some draft
    → Holds domain.traits limits draft (rowsOfPages domain pages) ∧ draft.position = landing.position
  position : ∀ page ∈ pages, page.1.position = landing.position
  opened : pages ≠ [] → landing.draft.isSome = true
  source : ∀ source, landing.source = some source → source.limits = limits

section Pages

variable {domain : Domain Item Message} {limits : Origin.Limits} {maximum minimum : Nat}
  {landing : Landing Item} {pages : List (Page Message × Nat)} {page : Page Message} {now : Int}

theorem rowsOfPages_append (domain : Domain Item Message) (pages : List (Page Message × Nat))
    (page : Page Message) (minimum : Nat)
    : rowsOfPages domain (pages ++ [(page, minimum)])
      = rowsOfPages domain pages ++ rowsOf domain page.entries := by
  simp [rowsOfPages, rowsOf]

theorem completes_append (pages : List (Page Message × Nat)) (page : Page Message) (minimum : Nat)
    : completes (pages ++ [(page, minimum)]) = page.complete := by
  simp [completes]

structure Follows (domain : Domain Item Message) (limits : Origin.Limits) (maximum : Nat)
    (pages : List (Page Message × Nat)) (page : Page Message) (minimum : Nat) : Prop where
  open_ : completes pages = false
  position : ∀ other ∈ pages, other.1.position = page.position
  minimum : minimum ≤ page.position
  small : page.entries.length ≤ 256 ∧ page.bytes ≤ 8 * 1024 * 1024
  total : (pages.map fun page => page.1.bytes).sum + page.bytes ≤ maximum
  filled : (page.complete = false → page.entries ≠ []) ∧ (page.position = 0 → page.entries = [])
  formed : ∀ entry ∈ page.entries, (entry.row domain).isSome = true
  fits : Fits domain.traits limits (rowsOfPages domain pages ++ rowsOf domain page.entries)

/-- No page is the last one as long as they are not complete. -/
theorem Begins.incomplete (begins : Begins domain limits maximum pages)
    (unfinished : completes pages = false)
    : ∀ page ∈ pages, page.1.complete = false := by
  intro page listed
  rcases List.eq_nil_or_concat pages with rfl | ⟨before, last, rfl⟩
  · cases listed
  · rw [List.concat_eq_append] at listed
    rcases List.mem_append.mp listed with earlier | isLast
    · exact begins.last page (by simpa using earlier)
    · rw [List.mem_singleton.mp isLast]
      simpa [completes] using unfinished

/-- Pages are continued by what may follow them, and by nothing else. -/
theorem Begins.append_iff (begins : Begins domain limits maximum pages)
    : Begins domain limits maximum (pages ++ [(page, minimum)])
      ↔ Follows domain limits maximum pages page minimum := by
  constructor
  · intro whole
    have listed : (page, minimum) ∈ pages ++ [(page, minimum)] := by simp
    have total := whole.total
    have fits := whole.fits
    rw [List.map_append, List.sum_append] at total
    rw [rowsOfPages_append] at fits
    refine ⟨?_, fun other isOther => whole.position other (List.mem_append_left _ isOther) _ listed,
      whole.minimum _ listed, whole.small _ listed, by simpa using total, whole.filled _ listed,
      whole.formed _ listed, fits⟩
    have last := whole.last
    rw [List.dropLast_concat] at last
    rw [completes, Option.any_eq_false]
    intro other isLast
    exact Bool.not_eq_true _ ▸ last other (List.mem_of_getLast? isLast)
  · intro follows
    have all {P : Page Message × Nat → Prop} (before : ∀ other ∈ pages, P other)
        (last : P (page, minimum))
        : ∀ other ∈ pages ++ [(page, minimum)], P other := by
      intro other listed
      rcases List.mem_append.mp listed with earlier | isLast
      · exact before other earlier
      · rw [List.mem_singleton.mp isLast]
        exact last
    refine ⟨?_, all begins.minimum follows.minimum, ?_, all begins.small follows.small, ?_,
      all begins.filled follows.filled, all begins.formed follows.formed, ?_⟩
    · refine all (fun one isOne => all (begins.position one isOne) (follows.position one isOne)) ?_
      exact all (fun other isOther => (follows.position other isOther).symm) rfl
    · rw [List.dropLast_concat]
      exact begins.incomplete follows.open_
    · simpa using follows.total
    · rw [rowsOfPages_append]
      exact follows.fits

def Opens (landing : Landing Item) (page : Page Message) : Prop :=
  (landing.draft = none → landing.source.isSome = true)
    ∧ (landing.draft.isSome = true → page.position = landing.position)

/-- The draft for a page has what came before it. -/
theorem Collects.open_ (collects : Collects domain limits landing pages) (opens : landing.Opens page)
    : ∃ draft, landing.open_ page.position = some draft
      ∧ Holds domain.traits limits draft (rowsOfPages domain pages)
      ∧ draft.position = page.position := by
  rw [Landing.open_]
  cases isDraft : landing.draft with
  | some draft =>
      obtain ⟨holds, position⟩ := collects.draft draft isDraft
      exact ⟨draft, rfl, holds, position.trans (opens.2 (by rw [isDraft]; rfl)).symm⟩
  | none =>
      obtain ⟨source, isSource⟩ := Option.isSome_iff_exists.mp (opens.1 isDraft)
      have empty : pages = [] := by
        by_contra filled
        have isSome := collects.opened filled
        rw [isDraft] at isSome
        cases isSome
      subst empty
      refine ⟨source.draft page.position, by rw [isSource]; rfl, ?_, rfl⟩
      rw [← collects.source source isSource]
      exact holds_draft source page.position

/-- A page that may not follow the others is refused, and nothing is left. -/
theorem append_cases (domain : Domain Item Message) (landing : Landing Item) (page : Page Message)
    (minimum : Nat) (now : Int)
    : (∃ error, landing.append domain page minimum now = (.error error, landing.clear))
      ∨ ∃ draft next, landing.complete = false ∧ minimum ≤ page.position
        ∧ (landing.draft.isSome = true → page.position = landing.position)
        ∧ (page.entries.length ≤ 256 ∧ page.bytes ≤ 8 * 1024 * 1024)
        ∧ page.bytes ≤ landing.maximum - landing.received
        ∧ ((page.complete = false → page.entries ≠ []) ∧ (page.position = 0 → page.entries = []))
        ∧ landing.open_ page.position = some draft
        ∧ page.entries.foldlM (add domain now) draft = .ok next
        ∧ landing.append domain page minimum now = (.ok (), { landing with
            draft := some next
            position := page.position
            received := landing.received + page.bytes
            complete := page.complete }) := by
  rw [append]
  split
  · exact .inl ⟨_, rfl⟩
  rename_i version
  split
  · exact .inl ⟨_, rfl⟩
  rename_i capacity
  split
  · exact .inl ⟨_, rfl⟩
  rename_i input
  cases isOpen : landing.open_ page.position with
  | none => exact .inl ⟨_, rfl⟩
  | some draft =>
      cases isAdded : page.entries.foldlM (add domain now) draft with
      | error error =>
          dsimp only
          rw [isAdded]
          exact .inl ⟨error, rfl⟩
      | ok next =>
          dsimp only
          rw [isAdded]
          simp only [not_or, not_and, not_lt, Bool.not_eq_true, not_not] at version capacity input
          exact .inr ⟨draft, next, version.1, version.2.1, version.2.2, ⟨capacity.1, capacity.2.1⟩,
            capacity.2.2, input, rfl, isAdded, rfl⟩

/-- A page is accepted if and only if it may follow the others. -/
theorem Collects.append_iff (collects : Collects domain limits landing pages)
    : (landing.append domain page minimum now).1 = .ok ()
      ↔ landing.Opens page ∧ Follows domain limits landing.maximum pages page minimum := by
  have total := collects.begins.total
  rw [← collects.received] at total
  constructor
  · intro accepted
    rcases append_cases domain landing page minimum now with ⟨error, isError⟩
      | ⟨draft, next, unfinished, reached, same, small, fits, filled, isOpen, isAdded, -⟩
    · rw [isError] at accepted
      cases accepted
    have opens : landing.Opens page := by
      refine ⟨fun isDraft => ?_, same⟩
      rw [Landing.open_, isDraft] at isOpen
      obtain ⟨source, isSource, -⟩ := Option.map_eq_some_iff.mp isOpen
      rw [isSource]
      rfl
    obtain ⟨draft', isOpen', holds, -⟩ := collects.open_ opens
    rw [isOpen] at isOpen'
    cases isOpen'
    obtain ⟨formed, within⟩ := (@Holds.adds _ _ _ _ _ _ now page.entries holds).1.mp ⟨next, isAdded⟩
    refine ⟨opens, collects.complete ▸ unfinished, fun other listed => ?_, reached, small, ?_, filled,
      formed, within⟩
    · have filled : pages ≠ [] := List.ne_nil_of_mem listed
      exact (collects.position other listed).trans (opens.2 (collects.opened filled)).symm
    · rw [← collects.received]
      omega
  · rintro ⟨opens, follows⟩
    obtain ⟨draft, isOpen, holds, -⟩ := collects.open_ opens
    obtain ⟨next, isAdded⟩ := (@Holds.adds _ _ _ _ _ _ now page.entries holds).1.mpr
      ⟨follows.formed, follows.fits⟩
    have unfinished := collects.complete.trans follows.open_
    have fits := follows.total
    rw [← collects.received] at fits
    rw [append, if_neg, if_neg, if_neg, isOpen]
    · dsimp only
      rw [isAdded]
    · rintro (⟨open_, empty⟩ | ⟨start, filled⟩)
      · exact follows.filled.1 open_ empty
      · exact filled (follows.filled.2 start)
    · have small := follows.small
      omega
    · have minimum := follows.minimum
      rintro (complete | below | ⟨isSome, different⟩)
      · rw [unfinished] at complete
        cases complete
      · omega
      · exact different (opens.2 isSome)

/-- An accepted page is one more that was given. -/
theorem Collects.append (collects : Collects domain limits landing pages)
    (accepted : (landing.append domain page minimum now).1 = .ok ())
    : Collects domain limits (landing.append domain page minimum now).2 (pages ++ [(page, minimum)])
      ∧ (landing.append domain page minimum now).2.source = landing.source
      ∧ (landing.append domain page minimum now).2.maximum = landing.maximum
      ∧ (landing.append domain page minimum now).2.position = page.position := by
  obtain ⟨opens, follows⟩ := collects.append_iff.mp accepted
  rcases append_cases domain landing page minimum now with ⟨error, isError⟩
    | ⟨draft, next, -, -, -, -, -, -, isOpen, isAdded, isNext⟩
  · rw [isError] at accepted
    cases accepted
  obtain ⟨draft', isOpen', holds, position⟩ := collects.open_ opens
  rw [isOpen] at isOpen'
  cases isOpen'
  obtain ⟨holdsNext, positionNext⟩ := (@Holds.adds _ _ _ _ _ _ now page.entries holds).2 next isAdded
  rw [isNext]
  refine ⟨⟨collects.begins.append_iff.mpr follows, ?_, ?_, ?_, ?_, fun _ => rfl, collects.source⟩, rfl,
    rfl, rfl⟩
  · simp [collects.received]
  · rw [completes_append]
  · intro last isLast
    cases isLast
    rw [rowsOfPages_append]
    exact ⟨holdsNext, positionNext.trans position⟩
  · intro other listed
    rcases List.mem_append.mp listed with earlier | isLast
    · exact follows.position other earlier
    · rw [List.mem_singleton.mp isLast]

/-- What has come is yielded if and only if it is complete. -/
theorem Collects.take_iff (collects : Collects domain limits landing pages)
    : (∃ draft, (landing.take minimum).1 = .ok draft) ↔ Whole domain limits landing.maximum pages minimum := by
  have filled (completed : completes pages = true) : pages ≠ [] := by
    rintro rfl
    cases completed
  rw [take]
  constructor
  · rintro ⟨draft, isTaken⟩
    split at isTaken
    next isDraft =>
      split at isTaken
      · cases isTaken
      rename_i ready
      simp only [not_or, Bool.not_eq_true', Bool.not_eq_false, not_lt] at ready
      have completed := collects.complete.symm.trans ready.1
      refine ⟨collects.begins, completed, fun page listed => ?_⟩
      rw [collects.position page listed]
      exact ready.2
    · cases isTaken
  · intro whole
    obtain ⟨draft, isDraft⟩ := Option.isSome_iff_exists.mp (collects.opened (filled whole.completed))
    obtain ⟨page, listed⟩ := List.exists_mem_of_ne_nil _ (filled whole.completed)
    have reached := whole.reached page listed
    rw [collects.position page listed] at reached
    rw [isDraft]
    dsimp only
    rw [if_neg]
    · exact ⟨draft, rfl⟩
    · rintro (unfinished | below)
      · rw [collects.complete, whole.completed] at unfinished
        cases unfinished
      · omega

/-- What is yielded has the records of the pages. -/
theorem Collects.take (collects : Collects domain limits landing pages) {draft : Origin.Draft Item}
    (isTaken : (landing.take minimum).1 = .ok draft)
    : Holds domain.traits limits draft (rowsOfPages domain pages)
      ∧ ∀ page ∈ pages, draft.position = page.1.position := by
  rw [Landing.take] at isTaken
  split at isTaken
  next isDraft =>
    split at isTaken
    · cases isTaken
    · cases isTaken
      obtain ⟨holds, position⟩ := collects.draft draft isDraft
      exact ⟨holds, fun page listed => position.trans (collects.position page listed).symm⟩
  · cases isTaken

theorem take_clear (landing : Landing Item) (minimum : Nat)
    : (landing.take minimum).2 = landing.clear := by
  rw [take]
  split
  · split <;> rfl
  · rfl

end Pages

-- Runs

/-- What is done with a reception. A `fault` is an exception while a page is added. -/
inductive Action (Message : Type) where
  | append (page : Page Message) (minimum : Nat) (now : Int)
  | fault
  | take (minimum : Nat)
  | clear

structure Reception (Item Message : Type) where
  landing : Landing Item
  pages : List (Page Message × Nat) := []
  cleared : Bool := false

def Reception.step (domain : Domain Item Message) (reception : Reception Item Message)
    : Action Message → Reception Item Message
  | .append page minimum now =>
      match reception.landing.append domain page minimum now with
      | (.ok (), landing) => { reception with landing, pages := reception.pages ++ [(page, minimum)] }
      | (.error _, landing) => { landing, cleared := true }
  | .fault => { landing := reception.landing.clear, cleared := true }
  | .take minimum => { landing := (reception.landing.take minimum).2, cleared := true }
  | .clear => { landing := reception.landing.clear, cleared := true }

def Reception.run (domain : Domain Item Message) (landing : Landing Item)
    (actions : List (Action Message))
    : Reception Item Message :=
  actions.foldl (Reception.step domain) { landing }

def begin_ (source : Origin Item) (maximum : Nat) : Option Nat → Option (Landing Item)
  | none => forSource source maximum
  | some position => ofDraft (source.draft position) maximum

def emptied (source : Origin Item) (maximum : Nat) (start : Option Nat) : Landing Item :=
  { source := if start.isSome then none else some source, maximum }

/-- Whether a reception still takes pages. One into a draft takes pages of its position until it is cleared
for the first time.
-/
def Reception.Takes (reception : Reception Item Message) (start : Option Nat) (page : Page Message)
    : Prop :=
  ∀ position, start = some position → reception.cleared = false ∧ page.position = position

structure Reception.Sound (domain : Domain Item Message) (source : Origin Item) (maximum : Nat)
    (start : Option Nat) (reception : Reception Item Message) : Prop where
  collects : Collects domain source.limits reception.landing reception.pages
  isMaximum : reception.landing.maximum = maximum
  isSource : reception.landing.source = if start.isSome then none else some source
  fresh : reception.cleared = false → ∀ position, start = some position
    → reception.landing.draft.isSome = true ∧ reception.landing.position = position
  empty : reception.pages = [] → reception.cleared = true ∨ start = none
    → reception.landing = emptied source maximum start
  spent : reception.cleared = true → start.isSome = true → reception.pages = []

section Runs

variable {domain : Domain Item Message} {source : Origin Item} {maximum minimum : Nat}
  {start : Option Nat} {landing : Landing Item} {reception : Reception Item Message}
  {page : Page Message} {now : Int}

/-- No pages begin every complete state. -/
theorem begins_nil (domain : Domain Item Message) (source : Origin Item) (maximum : Nat)
    : Begins domain source.limits maximum [] := by
  have fits := (@holds_draft _ _ domain source 0).fits
  exact ⟨nofun, nofun, nofun, nofun, Nat.zero_le _, nofun, nofun, fits⟩

/-- What a cleared reception has is nothing. -/
theorem Reception.Sound.clear (sound : reception.Sound domain source maximum start)
    : Sound domain source maximum start { landing := reception.landing.clear, cleared := true } where
  collects := by
    refine ⟨begins_nil domain source _, rfl, rfl, nofun, nofun, fun filled => (filled rfl).elim, ?_⟩
    exact sound.collects.source
  isMaximum := sound.isMaximum
  isSource := sound.isSource
  fresh := nofun
  empty _ _ := by
    rw [Landing.clear, sound.isMaximum, sound.isSource]
    rfl
  spent _ _ := rfl

theorem sound_begin (begun : begin_ source maximum start = some landing)
    : Reception.Sound domain source maximum start { landing } := by
  cases start with
  | none =>
      rw [begin_, forSource] at begun
      split at begun
      · cases begun
      · cases begun
        refine ⟨⟨begins_nil domain source _, rfl, rfl, nofun, nofun, fun filled => (filled rfl).elim, ?_⟩,
          rfl, rfl, nofun, fun _ _ => rfl, nofun⟩
        intro other same
        cases same
        rfl
  | some position =>
      rw [begin_, ofDraft] at begun
      split at begun
      · cases begun
      · cases begun
        refine ⟨⟨begins_nil domain source _, rfl, rfl, ?_, nofun, fun filled => (filled rfl).elim, nofun⟩,
          rfl, rfl, ?_, ?_, nofun⟩
        · intro draft isDraft
          cases isDraft
          exact ⟨holds_draft source position, rfl⟩
        · intro _ other same
          cases same
          exact ⟨rfl, rfl⟩
        · rintro - (cleared | missing)
          · cases cleared
          · cases missing

/-- A page is accepted if and only if it is taken and may follow the others. -/
theorem Reception.Sound.append_iff (sound : reception.Sound domain source maximum start)
    : (reception.landing.append domain page minimum now).1 = .ok () ↔ reception.Takes start page
        ∧ Begins domain source.limits maximum (reception.pages ++ [(page, minimum)]) := by
  have collects := sound.collects
  have begins := collects.begins
  rw [sound.isMaximum] at begins
  rw [collects.append_iff, sound.isMaximum, begins.append_iff]
  refine and_congr_left fun follows => ?_
  constructor
  · rintro ⟨source_, same⟩ position isStart
    have noSource := sound.isSource
    rw [isStart, Option.isSome_some, if_pos rfl] at noSource
    have isSome : reception.landing.draft.isSome = true := by
      rw [← Bool.not_eq_false, Option.isSome_eq_false_iff, Option.isNone_iff_eq_none]
      intro isNone
      have isSome := source_ isNone
      rw [noSource] at isSome
      cases isSome
    cases isCleared : reception.cleared with
    | true =>
        have missing := sound.empty (sound.spent isCleared (by rw [isStart]; rfl)) (.inl isCleared)
        rw [missing, emptied] at isSome
        cases isSome
    | false => exact ⟨rfl, (same isSome).trans (sound.fresh isCleared position isStart).2⟩
  · intro takes
    cases isStart : start with
    | some position =>
        obtain ⟨isCleared, isPosition⟩ := takes position isStart
        obtain ⟨isSome, same⟩ := sound.fresh isCleared position isStart
        refine ⟨fun isNone => ?_, fun _ => isPosition.trans same.symm⟩
        rw [isNone] at isSome
        cases isSome
    | none =>
        have isSource := sound.isSource
        rw [isStart] at isSource
        refine ⟨fun _ => by rw [isSource]; rfl, fun isSome => ?_⟩
        have filled : reception.pages ≠ [] := by
          intro none_
          rw [sound.empty none_ (.inr isStart), emptied] at isSome
          cases isSome
        obtain ⟨other, listed⟩ := List.exists_mem_of_ne_nil _ filled
        exact (follows.position other listed).symm.trans (collects.position other listed)

/-- A step keeps a reception sound. -/
theorem Reception.Sound.step (sound : reception.Sound domain source maximum start)
    (action : Action Message)
    : (reception.step domain action).Sound domain source maximum start := by
  cases action with
  | append page minimum now =>
      rw [Reception.step]
      split
      next landing isAppend =>
        have accepted : (reception.landing.append domain page minimum now).1 = .ok () := by rw [isAppend]
        obtain ⟨takes, -⟩ := sound.append_iff.mp accepted
        obtain ⟨collects, isSource, isMaximum, isPosition⟩ := sound.collects.append accepted
        rw [isAppend] at collects isSource isMaximum isPosition
        refine ⟨collects, isMaximum.trans sound.isMaximum, isSource.trans sound.isSource, ?_, ?_, ?_⟩
        · intro cleared position isStart
          exact ⟨collects.opened (by simp), isPosition.trans (takes position isStart).2⟩
        · intro empty
          simp at empty
        · intro cleared isSome
          obtain ⟨position, isStart⟩ := Option.isSome_iff_exists.mp isSome
          have uncleared := (takes position isStart).1
          rw [show reception.cleared = true from cleared] at uncleared
          cases uncleared
      rename_i error landing isAppend
      rcases append_cases domain reception.landing page minimum now with ⟨refused, isError⟩
        | ⟨_, _, -, -, -, -, -, -, -, -, isOk⟩
      · rw [isAppend] at isError
        cases isError
        exact sound.clear
      · rw [isAppend] at isOk
        cases isOk
  | fault => exact sound.clear
  | take minimum =>
      rw [Reception.step, take_clear]
      exact sound.clear
  | clear => exact sound.clear

/-- A reception is sound at any time. Witness: induction over what is done with it. -/
theorem Reception.sound_run (begun : begin_ source maximum start = some landing)
    (actions : List (Action Message))
    : (Reception.run domain landing actions).Sound domain source maximum start := by
  induction actions using List.reverseRecOn with
  | nil => exact sound_begin begun
  | append_singleton before last ih =>
      rw [Reception.run, List.foldl_append]
      exact ih.step last

end Runs

/-- A page is accepted exactly if it may follow the pages since the last clear, and what is refused clears
all; a draft is yielded exactly if the pages are one complete state, and it has their records.
-/
theorem landing_law (domain : Domain Item Message) (source : Origin Item) (maximum : Nat)
    (start : Option Nat) (initial : Landing Item) (begun : begin_ source maximum start = some initial)
    (actions : List (Action Message))
    : let reception := Reception.run domain initial actions
      (∀ page minimum now,
        ((reception.landing.append domain page minimum now).1 = .ok ()
          ↔ reception.Takes start page
            ∧ Begins domain source.limits maximum (reception.pages ++ [(page, minimum)]))
        ∧ ((reception.landing.append domain page minimum now).1 ≠ .ok ()
          → (reception.landing.append domain page minimum now).2 = reception.landing.clear))
      ∧ (∀ minimum, (∃ draft, (reception.landing.take minimum).1 = .ok draft)
        ↔ Whole domain source.limits maximum reception.pages minimum)
      ∧ (∀ minimum draft, (reception.landing.take minimum).1 = .ok draft
        → (∀ page ∈ reception.pages, draft.position = page.1.position)
          ∧ draft.candidate.entries.size = (rowsOfPages domain reception.pages).length
          ∧ ∀ name item, draft.candidate.find name = some item
            ↔ (name, item) ∈ rowsOfPages domain reception.pages)
      ∧ (∀ minimum, (reception.landing.take minimum).2 = reception.landing.clear)
      ∧ (reception.pages = [] → reception.cleared = true → reception.landing = initial.clear) := by
  intro reception
  have sound : reception.Sound domain source maximum start := Reception.sound_run begun actions
  have collects := sound.collects
  refine ⟨fun page minimum now => ⟨sound.append_iff, fun refused => ?_⟩, fun minimum => ?_,
    fun minimum draft isTaken => ?_, take_clear _, fun empty cleared => ?_⟩
  · rcases append_cases domain reception.landing page minimum now with ⟨error, isError⟩
      | ⟨_, _, -, -, -, -, -, -, -, -, isOk⟩
    · rw [isError]
    · rw [isOk] at refused
      exact (refused rfl).elim
  · rw [collects.take_iff, sound.isMaximum]
  · obtain ⟨holds, position⟩ := collects.take isTaken
    exact ⟨position, holds.size, holds.finds⟩
  · rw [sound.empty empty (.inl cleared)]
    cases start with
    | none =>
        rw [begin_, forSource] at begun
        split at begun <;> cases begun
        rfl
    | some position =>
        rw [begin_, ofDraft] at begun
        split at begun <;> cases begun
        rfl

def samplePage (entries : List (Entry Parcel.CatalogRecord)) (complete : Bool)
    : Page Parcel.CatalogRecord where
  position := 7
  entries
  complete
  bytes := 32

def sampleEntry : Entry Parcel.CatalogRecord where
  scope := { sector := [115], spectrum := [120] }
  key := [107]
  record := some { version := 3, body := some (.value [1, 2] 5000) }

def sampleDomain : Domain Catalog.Record Parcel.CatalogRecord :=
  catalog { record := 64, content := 64, name := 32, fact := 96, event := 96 }

/-- A page that repeats a name gives up what came before it, and the next complete state is taken. -/
theorem landing_law_repeatedName
    : ∃ landing, begin_ { owned := false } 1000 none = some landing
        ∧ let reception := Reception.run sampleDomain landing
            [.append (samplePage [sampleEntry, sampleEntry] false) 5 0,
              .append (samplePage [sampleEntry] true) 5 0]
          Whole sampleDomain {} 1000 reception.pages 7 := by
  refine ⟨_, rfl, ?_⟩
  intro reception
  have law := landing_law sampleDomain { owned := false } 1000 none _ rfl
    [.append (samplePage [sampleEntry, sampleEntry] false) 5 0, .append (samplePage [sampleEntry] true) 5 0]
  exact (law.2.1 7).mp ⟨_, rfl⟩

/-- A reception into a draft that gave up a page refuses the complete state that follows, though it takes it
when it is new.
-/
theorem draft_is_not_begun_again
    : ∃ landing, begin_ { owned := false } 1000 (some 7) = some landing
        ∧ Whole sampleDomain {} 1000 [(samplePage [sampleEntry] true, 5)] 7
        ∧ (landing.append sampleDomain (samplePage [sampleEntry] true) 5 0).1 = .ok ()
        ∧ ((Reception.run sampleDomain landing
              [.append (samplePage [] false) 5 0]).landing.append sampleDomain
            (samplePage [sampleEntry] true) 5 0).1
          = .error .input
        ∧ ¬∃ draft, ((Reception.run sampleDomain landing
              [.append (samplePage [] false) 5 0, .append (samplePage [sampleEntry] true) 5 0]).landing.take
            7).1
          = .ok draft := by
  refine ⟨_, rfl, ?_, rfl, rfl, ?_⟩
  · have sound := @Reception.sound_run _ _ sampleDomain { owned := false } 1000 none _ rfl
      [.append (samplePage [sampleEntry] true) 5 0]
    exact (@Collects.take_iff _ _ _ _ 7 _ _ sound.collects).mp ⟨_, rfl⟩
  · rintro ⟨draft, isTaken⟩
    cases isTaken

end Landing

end Astra
