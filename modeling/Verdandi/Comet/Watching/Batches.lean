import Verdandi.Comet.Watching.Model

/-! What an accepted page does to the candidate of a view, whatever its limits are, and where
the pages of a stream stand that have not been taken yet.
-/

namespace Comet

open Astra Support Proto

variable {Change Record : Type}

/-- What a batch starts from: nothing, or what was installed before. -/
def baseOf (mode : Mode) (previous : Option (Contents Record)) : Assoc Bytes Record :=
  if mode = .reset then ∅ else previous.elim ∅ Contents.data

/-- The content that the changes of a batch lead to, one after the other. -/
def Policy.applied (policy : Policy Change Record) (mode : Mode)
    (previous : Option (Contents Record)) (base : Assoc Bytes Record) (changes : List Change)
    : Except Code (Assoc Bytes Record) :=
  changes.foldlM
    (fun draft change =>
      (policy.install mode (previous.bind (·.data.get? (policy.key change))) change).map
        (draft.amend (policy.key change)))
    base

section

variable {policy : Policy Change Record} {room : Room Record}
  {projection next opened : Installer Record} {page : WatchReply Change}
  {work last : Work Record} {track : Bool}

variable {mode : Mode}

theorem applied_append {previous : Option (Contents Record)} {base middle : Assoc Bytes Record}
    {first second : List Change} (led : policy.applied mode previous base first = .ok middle)
    : policy.applied mode previous base (first ++ second)
      = policy.applied mode previous middle second := by
  unfold Policy.applied at led ⊢
  rw [List.foldlM_append, led]
  rfl

/-- A row that is taken does to the candidate what the policy says. -/
theorem row_applied {change : Change} (taken : opened.row policy track work change = .ok last)
    : (policy.install opened.mode (opened.current.bind (·.data.get? (policy.key change)))
        change).map (work.draft.amend (policy.key change))
      = .ok last.draft := by
  unfold Installer.row at taken
  dsimp only at taken
  split at taken
  · cases taken
  split at taken
  · cases taken
  split at taken
  · cases taken
  split at taken
  · cases taken
  rename_i record installed
  split at taken
  · cases taken
  · cases taken
    rw [installed]
    rfl

/-- Rows that are taken lead the candidate on. Witness: induction over the rows. -/
theorem rows_applied {changes : List Change}
    (filled : changes.foldlM (opened.row policy track) work = .ok last)
    : policy.applied opened.mode opened.current work.draft changes = .ok last.draft := by
  induction changes generalizing work with
  | nil =>
      cases filled
      rfl
  | cons change rest ih =>
      rw [List.foldlM_cons] at filled
      cases first : opened.row policy track work change with
      | error code =>
          rw [first] at filled
          cases filled
      | ok middle =>
          rw [first] at filled
          unfold Policy.applied
          rw [List.foldlM_cons, row_applied first]
          exact ih filled

/-- Everything an accepted page does: it continues the candidate under way, or starts one, and
if it is the last page of its batch the candidate is installed.
-/
structure Taken (policy : Policy Change Record) (projection next : Installer Record)
    (page : WatchReply Change)
    : Prop where
  leads
    : ∃ draft, policy.applied page.mode projection.current
            (projection.draft.getD (baseOf page.mode projection.current)) page.changes
          = .ok draft
        ∧ if page.complete then
            next.draft = none
            ∧ next.current = some
                { data := draft, «instance» := page.instance, version := page.version.getD 0 }
          else
            next.draft = some draft
            ∧ next.mode = page.mode
            ∧ next.current = projection.current

/-- An opened candidate. -/
theorem open_ok (done : projection.open' mode = .ok opened)
    : opened.draft = some (projection.draft.getD (baseOf mode projection.current))
      ∧ opened.mode = mode
      ∧ opened.current = projection.current := by
  unfold Installer.open' at done
  split at done
  next fresh =>
    split at done
    · cases done
    · cases done
      exact ⟨by rw [fresh]; rfl, rfl, rfl⟩
  rename_i draft present
  split at done
  · cases done
  rename_i same
  cases done
  exact ⟨by rw [present]; rfl, not_not.mp same, rfl⟩

/-- An accepted page meets `Taken`. -/
theorem taken_of_attempt (accepted : projection.attempt policy room page = .ok next)
    : Taken policy projection next page := by
  unfold Installer.attempt at accepted
  split at accepted
  · cases accepted
  split at accepted
  · cases accepted
  split at accepted
  · cases accepted
  rename_i opened done
  obtain ⟨draft, mode, current⟩ := open_ok done
  split at accepted
  · cases accepted
  dsimp only at accepted
  split at accepted
  · cases accepted
  rename_i work filled
  have applied := rows_applied filled
  rw [mode, current, draft, Option.getD_some] at applied
  refine ⟨work.draft, applied, ?_⟩
  split at accepted
  · cases accepted
  split at accepted
  next more =>
    cases accepted
    have partial' : page.complete = false := by simpa using more
    simp [partial', mode, current]
  rename_i whole
  have complete : page.complete = true := by simpa using whole
  split at accepted
  · cases accepted
  split at accepted
  · cases accepted
  split at accepted
  · cases accepted
  · cases accepted
    simp [complete, Installer.discard]

end

-- The pages that have not been taken yet

namespace Watching

def Stream.pending (stream : Stream Change) : List (WatchReply Change) :=
  match stream.stage with
  | .ready page => page :: stream.coming
  | _ => stream.coming

structure Midway (policy : Policy Change Record) (projection : Installer Record)
    (stream : Stream Change) (batch : Sending Change)
    : Prop where
  sent : batch ∈ stream.batches
  split
    : ∃ (done rest : List Change) (pages : List (WatchReply Change))
        (later : List (Sending Change)),
        batch.changes = done ++ rest
        ∧ Batched batch.mode batch.version batch.instance rest pages
        ∧ (∀ other ∈ later, other ∈ stream.batches)
        ∧ stream.pending = pages ++ later.flatMap Sending.pages
        ∧ policy.applied batch.mode projection.current (baseOf batch.mode projection.current) done
          = .ok (projection.draft.getD (baseOf batch.mode projection.current))

/-- Where a stream stands: its page was dropped, or it is between two batches, or in one. -/
inductive Between (policy : Policy Change Record) (projection : Installer Record)
    (stream : Stream Change)
    : Prop where
  | dropped (overflow : stream.stage = .overflow)
  | fresh (later : List (Sending Change)) (clean : projection.draft = none)
      (sent : ∀ batch ∈ later, batch ∈ stream.batches)
      (pending : stream.pending = later.flatMap Sending.pages)
  | midway (batch : Sending Change) (within : Midway policy projection stream batch)

variable {policy : Policy Change Record} {projection next : Installer Record}
  {stream : Stream Change} {page : WatchReply Change}

/-- A stream with the same pages pending stands where it stood. -/
theorem Between.of_pending {other : Stream Change} (between : Between policy projection stream)
    (kept : stream.stage ≠ .overflow) (batches : other.batches = stream.batches)
    (pending : other.pending = stream.pending)
    : Between policy projection other := by
  cases between with
  | dropped overflow => exact absurd overflow kept
  | fresh later clean sent left =>
      exact .fresh later clean (by rw [batches]; exact sent) (pending.trans left)
  | midway batch within =>
      obtain ⟨sent, done, rest, pages, later, changes, batched, laterSent, left, led⟩ := within
      exact .midway batch ⟨by rw [batches]; exact sent, done, rest, pages, later, changes,
        batched, by rw [batches]; exact laterSent, pending.trans left, led⟩

/-- A page that is ready belongs to a batch whose earlier pages are in the candidate. -/
theorem midway_of_ready (between : Between policy projection stream)
    (ready : stream.stage = .ready page)
    : ∃ batch, Midway policy projection stream batch := by
  cases between with
  | dropped overflow =>
      rw [ready] at overflow
      cases overflow
  | midway batch within => exact ⟨batch, within⟩
  | fresh later clean sent pending =>
      cases later with
      | nil =>
          rw [Stream.pending, ready] at pending
          cases pending
      | cons batch later =>
          refine ⟨batch, sent batch List.mem_cons_self, [], batch.changes, batch.pages, later,
            rfl, batch.batched, fun other member => sent other (List.mem_cons_of_mem _ member),
            pending, ?_⟩
          rw [clean]
          rfl

/-- A page that is accepted continues its batch, or installs the whole of it. -/
theorem Midway.taken {batch : Sending Change} (midway : Midway policy projection stream batch)
    (ready : stream.stage = .ready page) (taken : Taken policy projection next page)
    {rest : Stream Change}
    (follows : rest.batches = stream.batches ∧ rest.pending = stream.coming)
    : Between policy next rest ∧ if page.complete then
          ∃ data, policy.applied batch.mode projection.current
                (baseOf batch.mode projection.current) batch.changes
              = .ok data
            ∧ next.current = some
                { data, «instance» := batch.instance, version := batch.version }
        else
          next.current = projection.current := by
  obtain ⟨sent, done, left, pages, later, changes, batched, laterSent, pending, led⟩ := midway
  rw [Stream.pending, ready] at pending
  obtain ⟨draft, applied, outcome⟩ := taken.leads
  cases batched with
  | last =>
      rw [List.singleton_append, List.cons.injEq] at pending
      obtain ⟨rfl, coming⟩ := pending
      simp only [if_true] at outcome ⊢
      refine ⟨.fresh later outcome.1 (by rw [follows.1]; exact laterSent)
        (follows.2.trans coming), draft, ?_, outcome.2⟩
      rw [changes, applied_append led]
      exact applied
  | @more first second tail progress continued =>
      rw [List.cons_append, List.cons.injEq] at pending
      obtain ⟨rfl, coming⟩ := pending
      simp only [Bool.false_eq_true, if_false] at outcome ⊢
      obtain ⟨kept, mode, current⟩ := outcome
      refine ⟨.midway batch ⟨by rw [follows.1]; exact sent, done ++ first, second, tail, later,
        by rw [changes, List.append_assoc], continued, by rw [follows.1]; exact laterSent,
        follows.2.trans coming, ?_⟩, current⟩
      rw [current, kept, Option.getD_some, applied_append led]
      exact applied

end Watching

end Comet
