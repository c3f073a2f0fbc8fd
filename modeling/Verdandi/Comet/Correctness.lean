import Verdandi.Comet.Domains
import Verdandi.Comet.Synchrony
import Verdandi.Star.AlmanacRuns
import Verdandi.Support.Run

/-! A Star and its clients together: what a Star makes of its history since the content that a
view holds, or of its whole content, is what the view installs.
-/

namespace Comet

open Astra Support Proto Paging

variable {Item Change : Type}

-- Scenes

/-- A run of tasks with good changes leads from one Scene to another. -/
def Reaches (measure : Scene.Measure Item) (good : Bytes → Option Item → Prop)
    (scene next : Scene Item)
    : Prop :=
  ∃ tasks : List (Scene.Task Item), (∀ task ∈ tasks, ∀ edit ∈ task.edits, good edit.key edit.record)
    ∧ scene.performs measure tasks = .ok next

/-- A view understands the rows of a domain: what a row does to the record that the changes
started from is what the view makes of it.
-/
structure Understands (encoding : Encoding Item Change)
    (act : Row Item → Option Item → Option Item) (policy : Policy Change Item)
    (size : Change → Nat) (good : Bytes → Option Item → Prop)
    : Prop where
  lawful : encoding.Lawful act
  acting : Scene.Acting (fun event => act event.row) good
  agree : Agree (Pagination.format encoding) policy size fun row => good row.1 row.2.record
  apply
    : ∀ key (row : Row Item) old, good key row.record
      → (∀ held, old = some held → good key (some held))
      → act row old = row.record
      → policy.install .apply old (encoding.encode key row) = .ok row.record
  reset
    : ∀ key record old, good key (some record)
      → policy.install .reset old (encoding.encode key (.whole record)) = .ok (some record)

section

variable {encoding : Encoding Item Change} {act : Row Item → Option Item → Option Item}
  {policy : Policy Change Item} {size : Change → Nat} {good : Bytes → Option Item → Prop}
  {measure : Scene.Measure Item} {limits : Scene.Limits} {before after scene : Scene Item}
  {events : List (Scene.Event Item)} {start : Installer Item} {room : Room Item}
  {serving : Bytes} {base goal : Assoc Bytes Item}

/-- What nothing is restricted to is nothing. -/
theorem size_of_empty {Record : Type} {goal : Assoc Bytes Record} {target : Bytes}
    {content : Bytes → Option Record} {version : Nat}
    (wanted : goal.get? = restrict (concerns target) content)
    (empty : version = 0 → content = fun _ => none) (zero : version = 0)
    : goal.size = 0 := by
  have nothing : goal.get? = (∅ : Assoc Bytes Record).get? := by
    funext key
    rw [wanted, empty zero, Assoc.get?_empty]
    exact ite_self _
  rw [Assoc.size_congr nothing]
  rfl

structure Passage (act : Row Item → Option Item → Option Item)
    (good : Bytes → Option Item → Prop) (before after : Scene Item)
    (events : List (Scene.Event Item))
    : Prop where
  stocked : Scene.Stocked good before ∧ Scene.Stocked good after
  admitted : ∀ event ∈ events,
    good event.key event.record ∧ (event.data = true → event.record.isSome = true)
  between : ∀ event ∈ events, before.version < event.version ∧ event.version ≤ after.version
  behind : before.version ≤ after.version
  ascending : events.Pairwise fun left right => left.version < right.version
  empty : after.version = 0 → after.entries.get? = fun _ => none
  settled
    : ∀ merge, Mergeable (fun event => act event.row) Scene.Event.record Scene.Event.version merge
      → ∀ key, after.entries.get? key
          = (merged Scene.Event.key merge events key).elim (before.entries.get? key)
              fun event => act event.row (before.entries.get? key)
  announced
    : ∀ merge, Mergeable (fun event => act event.row) Scene.Event.record Scene.Event.version merge
      → ∀ key event, merged Scene.Event.key merge events key = some event
      → after.entries.get? key = event.record

namespace Passage

variable (passage : Passage act good before after events)

include passage

/-- The events pass the check of a batch. -/
theorem unbroken : events.any (Pagination.broken after.version) = false := by
  rw [List.any_eq_false]
  intro event member
  have between := passage.between event member
  have whole : (event.data && event.record.isNone) = false := by
    cases only : event.data with
    | false => rfl
    | true => simpa using (passage.admitted event member).2 only
  simp only [Pagination.broken, whole, Bool.or_false, Bool.or_eq_true, beq_iff_eq,
    decide_eq_true_eq]
  omega

variable {target key : Bytes} {row : Row Item} (lawful : encoding.Lawful act)

include lawful

theorem good_row (found : Pagination.mergedRow encoding events target key = some row)
    : good key row.record := by
  obtain ⟨_, event, last, rfl⟩ := Pagination.mergedRow_some found
  obtain ⟨source, member, rfl, same⟩ := merged_source lawful.mergeable.final last
  have fit := (passage.admitted source member).1
  rw [← same] at fit
  exact fit

/-- A row has the record of the later Scene, and acts so on that of the earlier one. -/
theorem row_acts (found : Pagination.mergedRow encoding events target key = some row)
    : after.entries.get? key = row.record ∧ act row (before.entries.get? key) = row.record := by
  obtain ⟨_, event, last, rfl⟩ := Pagination.mergedRow_some found
  have announced := passage.announced _ lawful.mergeable key event last
  have settled := passage.settled _ lawful.mergeable key
  rw [last, Option.elim_some, announced] at settled
  exact ⟨announced, settled.symm⟩

/-- What a concerned key without a row had, it still has. -/
theorem no_row (relevant : concerns target key = true)
    (none : Pagination.mergedRow encoding events target key = none)
    : after.entries.get? key = before.entries.get? key := by
  rw [Pagination.mergedRow, if_pos relevant, Option.map_eq_none_iff] at none
  rw [passage.settled _ lawful.mergeable key, none, Option.elim_none]

end Passage

/-- The changes of a Scene since the content that a view holds are installed exactly if the
view can remember their keys.
-/
theorem Understands.changes (understands : Understands encoding act policy size good)
    (passage : Passage act good before after events)
    (holds : Holds start serving before.version base)
    (held : base.get? = restrict (concerns start.target) before.entries.get?)
    (wanted : goal.get? = restrict (concerns start.target) after.entries.get?)
    (fits : Fits policy room start base goal (events.map Scene.Event.key))
    (moved : after.version = before.version → start.first = true) (capacity width : Nat)
    : ∃ edition pages,
        Pagination.ofChanges encoding after.version events start.target capacity width = .ok edition
        ∧ edition.batch.pages (Pagination.format encoding) serving (edition.batch.rows.length + 1)
          = .ok pages
        ∧ (Installs policy room start pages serving after.version goal.get?
          ↔ ((events.map Scene.Event.key).filter (concerns start.target)).dedup.length
            ≤ start.records * 2) := by
  have lawful := understands.lawful
  cases frozen : Pagination.ofChanges encoding after.version events start.target capacity width with
  | error message =>
      rw [Pagination.ofChanges, passage.unbroken] at frozen
      cases frozen
  | ok edition =>
      have listed := Pagination.ofChanges_listed lawful.keeps passage.ascending frozen
      have unmoved : after.version = before.version
          → start.first = true ∧ edition.batch.rows = [] := fun same => by
        refine ⟨moved same, List.eq_nil_iff_forall_not_mem.mpr fun row member => ?_⟩
        obtain ⟨_, event, last, _⟩ :=
          Pagination.mergedRow_some ((listed.exact row.1 row.2).mp member)
        obtain ⟨source, inside, _⟩ := merged_source lawful.mergeable.final last
        have between := passage.between source inside
        omega
      have installs : ∀ key row, Pagination.mergedRow encoding events start.target key = some row
          → policy.install .apply (base.get? key) (encoding.encode key row)
            = .ok (goal.get? key) := by
        intro key row found
        have relevant := (Pagination.mergedRow_some found).1
        obtain ⟨announced, acts⟩ := passage.row_acts lawful found
        rw [held, wanted, restrict, restrict, if_pos relevant, if_pos relevant, announced]
        exact understands.apply key row _ (passage.good_row lawful found)
          (fun record kept => passage.stocked.1.entries key record kept) acts
      have rest : ∀ key, Pagination.mergedRow encoding events start.target key = none
          → goal.get? key = base.get? key := by
        intro key none
        rw [held, wanted, restrict, restrict]
        split
        next relevant => exact passage.no_row lawful relevant none
        · rfl
      obtain ⟨pages, made, installed⟩ := changes_installed understands.agree
        (Pagination.frozen_ofChanges frozen) listed
        (fun row member => passage.good_row lawful ((listed.exact row.1 row.2).mp member))
        passage.stocked.2.word (size_of_empty wanted passage.empty) holds passage.behind unmoved
        fits (fun key => Pagination.mem_mergedRow) installs rest
      exact ⟨edition, pages, rfl, made, installed⟩

/-- The whole content of a Scene is installed. -/
theorem Understands.baseline (understands : Understands encoding act policy size good)
    (reached : Reaches measure good { limits } scene)
    (opens : Opens policy start serving scene.version)
    (wanted : goal.get? = restrict (concerns start.target) scene.entries.get?)
    (fits : Fits policy room start ∅ goal goal.keys)
    : ∃ pages, (Pagination.baseline encoding scene start.target).batch.pages
            (Pagination.format encoding) serving
            ((Pagination.baseline encoding scene start.target).batch.rows.length + 1)
          = .ok pages
        ∧ Installs policy room start pages serving scene.version goal.get? := by
  obtain ⟨tasks, fit, ran⟩ := reached
  obtain ⟨stocked, newer, records⟩ := (Scene.Records.root limits).performs understands.acting
    (.empty good limits) fit ran
  have kept {key : Bytes} {record : Item} (found : goal.get? key = some record)
      : concerns start.target key = true ∧ good key (some record) := by
    rw [wanted, restrict] at found
    split at found
    next relevant => exact ⟨relevant, stocked.entries key record found⟩
    · cases found
  have listed := Pagination.baseline_listed encoding scene start.target
  rw [← wanted] at listed
  exact baseline_installed understands.agree
    (Pagination.frozen_baseline encoding scene start.target) listed
    (fun key record found => (kept found).2) stocked.word
    (size_of_empty wanted records.content_zero) opens fits
    (fun key record found => (kept found).1)
    fun key record old found => understands.reset key record old (kept found).2

end

theorem Catalog.understands
    : Understands Catalog.encoding Catalog.act subscription Wire.catalogChange
        Catalog.Admitted where
  lawful := Catalog.lawful
  acting := Catalog.acting
  agree := Catalog.agree
  apply _ _ old admitted _ _ := Catalog.install_encode admitted (fun _ => rfl) old
  reset key record old admitted := by
    have whole : Catalog.Admitted key (Row.whole record).record := admitted
    exact Catalog.install_encode whole nofun old

theorem Ephemeris.understands (attr : Bytes → Bytes)
    : Understands Ephemeris.encoding Ephemeris.act selection Wire.ephemerisChange
        (Ephemeris.Admitted attr) where
  lawful := Ephemeris.lawful
  acting := Ephemeris.acting attr
  agree := Ephemeris.agree attr
  apply _ _ _ admitted known acts := Ephemeris.install_encode admitted (fun _ => rfl)
    (fun _ held present => (known held present).fixed held rfl) acts
  reset key record old admitted := by
    have whole : Ephemeris.Admitted attr key (Row.whole record).record := admitted
    exact Ephemeris.install_encode whole (by simp [Row.whole]) nofun rfl

-- The Almanac

namespace Almanac

/-- A run of tasks with admitted records leads from one book to another. -/
def Reaches (book next : Astra.Almanac) : Prop :=
  ∃ tasks : List Astra.Almanac.Task,
    (∀ task ∈ tasks, task.Good fun key value => Admitted (key, value))
    ∧ book.performs tasks = .ok next

variable {limits : Astra.Almanac.Limits} {before after book : Astra.Almanac}
  {changes : List Astra.Almanac.Change} {start : Installer Bytes} {room : Room Bytes}
  {serving : Bytes} {base goal : Assoc Bytes Bytes} {version : Nat}

/-- The changes of a book since the content that a view holds are installed exactly if the
view can remember their keys.
-/
theorem changes_installed (reached : Reaches { limits } before) (ready : before.ready = true)
    (continued : Reaches before after)
    (replayed : after.replay before.state.version = .ok (version, changes))
    (holds : Holds start serving before.state.version base)
    (held : base.get? = restrict (concerns start.target) before.state.entries.get?)
    (wanted : goal.get? = restrict (concerns start.target) after.state.entries.get?)
    (fits : Fits projection room start base goal (changes.map Astra.Almanac.Change.name))
    (moved : version = before.state.version → start.first = true) (capacity : Nat)
    : ∃ pages, (Edition.ofReplay version changes start.target capacity).batch.pages Edition.format
            serving
            ((Edition.ofReplay version changes start.target capacity).batch.rows.length + 1)
          = .ok pages
        ∧ (Installs projection room start pages serving version goal.get?
          ↔ ((changes.map Astra.Almanac.Change.name).filter (concerns start.target)).dedup.length
            ≤ start.records * 2) := by
  obtain ⟨past, fitPast, ranPast⟩ := reached
  obtain ⟨later, fitLater, ranLater⟩ := continued
  obtain ⟨stockedBefore, earlier, standingBefore⟩ :=
    (Astra.Almanac.Standing.created_book limits).performs (.created_book _ limits) fitPast ranPast
  obtain ⟨stocked, newer, standing⟩ :=
    standingBefore.performs stockedBefore fitLater ranLater
  have recordsBefore := standingBefore.installed ready
  have records := standing.installed (Astra.Almanac.ready_of_replay replayed)
  obtain ⟨rfl, replays⟩ := records.replay replayed
  have since : Timeline.contentAt (newer ++ (earlier ++ [])) before.state.version
      = before.state.entries.get? := by
    rw [Timeline.contentAt_of_suffix records.valid records.rooted (List.suffix_append _ _)
      (by rw [recordsBefore.version]), recordsBefore.content]
  have settled := records.settled replays
  rw [since] at settled
  have listed : Listed
      (Edition.ofReplay after.state.version changes start.target capacity).batch.rows
      (Edition.finalRow changes start.target) :=
    Edition.ofReplay_listed fun key => (replays.ascending records.valid).filter _
  have unmoved : after.state.version = before.state.version → start.first = true
      ∧ (Edition.ofReplay after.state.version changes start.target capacity).batch.rows
        = [] := fun same => by
    refine ⟨moved same, List.eq_nil_iff_forall_not_mem.mpr fun row member => ?_⟩
    obtain ⟨_, change, inside, _⟩ := Edition.finalRow_some ((listed.exact row.1 row.2).mp member)
    have newerChange := replays.newer change inside
    have bounded := replays.le_version records.valid inside
    rw [records.version] at bounded
    omega
  have admitted : ∀ row ∈ (Edition.ofReplay after.state.version changes start.target
      capacity).batch.rows, Admitted row := by
    rintro ⟨key, value⟩ member
    obtain ⟨_, change, inside, _, rfl, rfl⟩ :=
      Edition.finalRow_some ((listed.exact key value).mp member)
    exact stocked.history change (Astra.Almanac.mem_history_of_replay replayed inside)
  have installs : ∀ key value, Edition.finalRow changes start.target key = some value
      → projection.install .apply (base.get? key) (Edition.format.encode (key, value))
        = .ok (goal.get? key) := by
    intro key value found
    obtain ⟨relevant, change, _, last, _, rfl⟩ := Edition.finalRow_some found
    rw [wanted, restrict, if_pos relevant, settled, last, Option.elim_some]
    exact install_encode (admitted _ ((listed.exact key change.value).mpr found)) (fun _ => rfl) _
  have rest : ∀ key, Edition.finalRow changes start.target key = none
      → goal.get? key = base.get? key := by
    intro key none
    rw [held, wanted, restrict, restrict]
    split
    next relevant =>
      rw [Edition.finalRow, if_pos relevant, Option.map_eq_none_iff] at none
      rw [settled, none, Option.elim_none]
    · rfl
  have behind : before.state.version ≤ after.state.version := by
    have within := replays.within
    rwa [records.version] at within
  exact Comet.changes_installed agree (Edition.frozen_ofReplay _ _ _ _) listed admitted
    stocked.word (size_of_empty wanted records.recorded.content_zero) holds behind unmoved fits
    (fun key => Edition.mem_finalRow) installs rest

/-- The whole content of a book is installed. -/
theorem baseline_installed (reached : Reaches { limits } book) (ready : book.ready = true)
    (opens : Opens projection start serving book.state.version)
    (wanted : goal.get? = restrict (concerns start.target) book.state.entries.get?)
    (fits : Fits projection room start ∅ goal goal.keys)
    : ∃ pages, (Edition.baseline book.state start.target).batch.pages Edition.format serving
            ((Edition.baseline book.state start.target).batch.rows.length + 1)
          = .ok pages
        ∧ Installs projection room start pages serving book.state.version goal.get? := by
  obtain ⟨tasks, fit, ran⟩ := reached
  obtain ⟨stocked, newer, standing⟩ :=
    (Astra.Almanac.Standing.created_book limits).performs (.created_book _ limits) fit ran
  have records := standing.installed ready
  have kept {key value : Bytes} (found : goal.get? key = some value)
      : concerns start.target key = true ∧ Admitted (key, some value) := by
    rw [wanted, restrict] at found
    split at found
    next relevant => exact ⟨relevant, stocked.entries key value found⟩
    · cases found
  have listed := Edition.baseline_listed book.state start.target
  rw [← wanted] at listed
  exact Comet.baseline_installed agree (Edition.frozen_baseline book.state start.target) listed
    (fun key value found => (kept found).2) stocked.word
    (size_of_empty wanted records.recorded.content_zero) opens fits
    (fun key value found => (kept found).1)
    fun key value old found => install_encode (kept found).2 (by intros; contradiction) old

end Almanac

def passing (keys : List Bytes) : List (Scene.Task Catalog.Content) :=
  keys.flatMap fun key =>
    [.single { key, record := some { version := 1, value := [] } }, .single { key, record := none }]

def charges : Scene.Measure Catalog.Content where
  payload record := record.value.length
  item := 40
  name := 32
  event := 72

/-- A view with room for one record that has installed an empty Catalog. -/
def idle : Installer Catalog.Content where
  bytes := 16384
  records := 1
  expected := [115]
  valid := true
  current := some { data := ∅, «instance» := [115], version := 0 }

def spacious : Room Catalog.Content where
  prepared _ _ := true
  published _ := true

variable {keys : List Bytes}

/-- The number of keys that came and went, and what a view makes of them. -/
def watched (keys : List Bytes) : Option (Nat × Except Code Unit) :=
  (({} : Scene Catalog.Content).performs charges (passing keys)).toOption.bind fun after =>
    (after.replay 0).toOption.bind fun events =>
      (Pagination.ofChanges Catalog.encoding after.version events [] 0 0).toOption.bind
        fun edition =>
          (edition.batch.pages (Pagination.format Catalog.encoding) [115]
            (edition.batch.rows.length + 1)).toOption.bind fun pages =>
              if after.entries.toPairs = [] then
                some
                  (((events.map Scene.Event.key).filter (concerns [])).dedup.length,
                    (idle.feed subscription spacious pages).2)
              else
                none

end Comet
