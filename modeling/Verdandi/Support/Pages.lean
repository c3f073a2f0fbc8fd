import Mathlib

/-! Items that are put into pages in order: a page that is full is handed on before the next one
begins, and the last one says that it is complete.
-/

namespace Support

variable {Item Failure State Message : Type}

/-- What a page takes by itself, how large it becomes, what an item takes in it, and why an item
cannot be sent at all.
-/
structure Pages (Item Failure : Type) where
  base : Nat
  limit : Nat
  cost : Item → Nat
  refuse : Item → Option Failure

namespace Pages

def andThen (result : Option Failure × State) (next : State → Option Failure × State)
    : Option Failure × State :=
  match result with
  | (some failure, state) => (some failure, state)
  | (none, state) => next state

@[simp]
theorem andThen_none (state : State) (next : State → Option Failure × State)
    : andThen (none, state) next = next state := rfl

def pack (pages : Pages Item Failure) (emit : List Item → Bool → State → Option Failure × State)
    : List Item → List Item → Nat → State → Option Failure × State
  | [], page, _, state => emit page true state
  | item :: rest, page, size, state =>
      if page ≠ [] ∧ size + pages.cost item > pages.limit then
        andThen (emit page false state) fun state =>
          match pages.refuse item with
          | some failure => (some failure, state)
          | none => pack pages emit rest [item] (pages.base + pages.cost item) state
      else
        match pages.refuse item with
        | some failure => (some failure, state)
        | none => pack pages emit rest (page ++ [item]) (size + pages.cost item) state

def size (pages : Pages Item Failure) (page : List Item) : Nat :=
  pages.base + (page.map pages.cost).sum

/-- What is known of a page that is handed on: it stays within the limit, or has one item. -/
structure Good (pages : Pages Item Failure) (Single : Item → Prop) (vacant : Prop)
    (page : List Item)
    : Prop where
  filled : page = [] → vacant
  fits : page = [] ∨ pages.size page ≤ pages.limit ∨ ∃ item, page = [item] ∧ Single item

structure Emits (Kept : State → Prop) (Fails : Failure → Prop) (log : State → List Message)
    (message : Message) (state : State) (result : Option Failure × State)
    : Prop where
  kept : Kept result.2
  failed : ∀ failure, result.1 = some failure → Fails failure
  logged : log result.2 = log state ∨ log result.2 = log state ++ [message]
  sent : result.1 = none → log result.2 = log state ++ [message]

/-- What the loop does: every item is sent once and in order, or the first of them are. -/
structure Sends (Kept : State → Prop) (Fails : Failure → Prop) (log : State → List Message)
    (message : List Item → Bool → Message) (items : List Item) (state : State)
    (result : Option Failure × State)
    : Prop where
  kept : Kept result.2
  failed : ∀ failure, result.1 = some failure → Fails failure
  part : ∃ sent : List (List Item × Bool),
    log result.2 = log state ++ sent.map (fun page => message page.1 page.2)
      ∧ sent.flatMap Prod.fst <+: items
  all : result.1 = none → ∃ (front : List (List Item)) (last : List Item),
    log result.2 = log state ++ (front.map (message · false) ++ [message last true])
      ∧ front.flatten ++ last = items

variable {pages : Pages Item Failure} {Kept : State → Prop} {Fails : Failure → Prop}
  {log : State → List Message} {message : List Item → Bool → Message} {Single : Item → Prop}
  {vacant : Prop} {emit : List Item → Bool → State → Option Failure × State}
  {items page : List Item} {state : State} {result : Option Failure × State}

variable {failure : Failure}

/-- A page that may not have been sent. -/
theorem Emits.sends {complete : Bool} {rest : List Item}
    (emits : Emits Kept Fails log (message page complete) state result)
    (failed : result.1 = some failure)
    : Sends Kept Fails log message (page ++ rest) state result := by
  refine ⟨emits.kept, emits.failed, ?_, fun done => absurd (failed.symm.trans done) nofun⟩
  rcases emits.logged with same | sent
  · exact ⟨[], by simpa using same, List.nil_prefix⟩
  · exact ⟨[(page, complete)], sent, by simp⟩

/-- Nothing is sent. -/
theorem Sends.refused (kept : Kept state) (fails : Fails failure)
    : Sends Kept Fails log message items state (some failure, state) := by
  refine ⟨kept, ?_, ⟨[], by simp, List.nil_prefix⟩, nofun⟩
  rintro _ ⟨⟩
  exact fails

/-- What the loop sends. Witness: induction over the items. -/
theorem pack_sends
    (emits : ∀ page complete state, Kept state → pages.Good Single vacant page
      → Emits Kept Fails log (message page complete) state (emit page complete state))
    (refuses : ∀ item ∈ items, ∀ failure, pages.refuse item = some failure → Fails failure)
    (single : ∀ item ∈ items, pages.refuse item = none → Single item) (kept : Kept state)
    (fits : page = [] ∨ pages.size page ≤ pages.limit ∨ ∃ item, page = [item] ∧ Single item)
    (filled : page = [] → items = [] → vacant)
    : Sends Kept Fails log message (page ++ items) state
        (pages.pack emit items page (pages.size page) state) := by
  induction items generalizing page state with
  | nil =>
      have emits := emits page true state kept ⟨fun empty => filled empty rfl, fits⟩
      rw [pack]
      cases failed : (emit page true state).1 with
      | some failure => exact emits.sends failed
      | none =>
          refine ⟨emits.kept, emits.failed, ⟨[(page, true)], emits.sent failed, by simp⟩,
            fun _ => ⟨[], page, by simpa using emits.sent failed, by simp⟩⟩
  | cons item rest ih =>
      have restRefuses := fun other (listed : other ∈ rest) => refuses other (List.mem_cons_of_mem _ listed)
      have restSingle := fun other (listed : other ∈ rest) => single other (List.mem_cons_of_mem _ listed)
      rw [pack]
      split
      next full =>
        have emits := emits page false state kept ⟨fun empty => absurd empty full.1, fits⟩
        generalize emit page false state = handed at emits
        obtain ⟨failed, middle⟩ := handed
        cases failed with
        | some failure => exact emits.sends rfl
        | none =>
            have sent := emits.sent rfl
            dsimp only [andThen] at sent ⊢
            cases refused : pages.refuse item with
            | some failure =>
                refine ⟨emits.kept, ?_, ⟨[(page, false)], sent, by simp⟩, nofun⟩
                rintro _ ⟨⟩
                exact refuses item (List.mem_cons_self ..) failure refused
            | none =>
                have sends := @ih [item] middle restRefuses restSingle emits.kept
                  (.inr (.inr ⟨item, rfl, single item (List.mem_cons_self ..) refused⟩)) nofun
                rw [show pages.size [item] = pages.base + pages.cost item by simp [size]] at sends
                refine ⟨sends.kept, sends.failed, ?_, fun done => ?_⟩
                · obtain ⟨later, isLog, begins⟩ := sends.part
                  refine ⟨(page, false) :: later, by rw [isLog, sent]; simp, ?_⟩
                  rw [List.flatMap_cons]
                  exact (List.prefix_append_right_inj page).mpr begins
                · obtain ⟨front, last, isLog, all⟩ := sends.all done
                  exact ⟨page :: front, last, by rw [isLog, sent]; simp, by simp [all]⟩
      next more =>
        cases refused : pages.refuse item with
        | some failure => exact .refused kept (refuses item (List.mem_cons_self ..) failure refused)
        | none =>
            have sends := @ih (page ++ [item]) state restRefuses restSingle kept ?_ (by simp)
            · rw [show pages.size (page ++ [item]) = pages.size page + pages.cost item by
                simp [size, Nat.add_assoc]] at sends
              simpa using sends
            · by_cases empty : page = []
              · subst empty
                exact .inr (.inr ⟨item, rfl, single item (List.mem_cons_self ..) refused⟩)
              · refine .inr (.inl ?_)
                have within : pages.size page + pages.cost item ≤ pages.limit := by
                  by_contra exceeds
                  exact more ⟨empty, Nat.not_le.mp exceeds⟩
                simpa [size, Nat.add_assoc] using within

/-- What the whole loop sends. -/
theorem pack_all
    (emits : ∀ page complete state, Kept state → pages.Good Single vacant page
      → Emits Kept Fails log (message page complete) state (emit page complete state))
    (refuses : ∀ item ∈ items, ∀ failure, pages.refuse item = some failure → Fails failure)
    (single : ∀ item ∈ items, pages.refuse item = none → Single item) (kept : Kept state)
    (filled : items = [] → vacant)
    : Sends Kept Fails log message items state (pages.pack emit items [] pages.base state) :=
  pack_sends emits refuses single kept (.inl rfl) fun _ => filled

end Pages

end Support
