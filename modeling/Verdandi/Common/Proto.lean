import Verdandi.Common.Scope

/-! The messages of the public watch protocol, after Protobuf decoding. -/

namespace Astra.Proto

/-- How a batch is applied; a decoder reads an absent or unknown value as unspecified. -/
inductive Mode where
  | unspecified
  | reset
  | apply
  deriving DecidableEq, Repr

inductive Action where
  | unset
  | value (bytes : Bytes)
  | erase
  deriving DecidableEq, Repr

def Action.value? : Action → Option Bytes
  | .value bytes => some bytes
  | _ => none

structure AlmanacChange where
  key : Bytes
  action : Action
  deriving DecidableEq, Repr

def AlmanacChange.payload (change : AlmanacChange) : Option Bytes :=
  change.action.value?

/-- The `value` accessor, which reads an unset field as empty. -/
def AlmanacChange.value (change : AlmanacChange) : Bytes :=
  change.payload.getD []

structure CatalogChange where
  key : Bytes
  action : Action
  version : Nat := 0
  deriving DecidableEq, Repr

/-- The `action` of an `EphemerisChange`: a whole registration, its data alone, or a Delete. -/
inductive Registering where
  | unset
  | record (attr data : Bytes)
  | erase
  | data (bytes : Bytes)
  deriving DecidableEq, Repr

structure EphemerisChange where
  uuid : Bytes
  action : Registering
  deriving DecidableEq, Repr

/-- One page of a watch stream. Only the last page of a batch is complete and names the
version and the serving instance.
-/
structure WatchReply (Change : Type) where
  mode : Mode
  changes : List Change
  complete : Bool := false
  version : Option Nat := none
  «instance» : Bytes := []
  deriving DecidableEq, Repr

abbrev AlmanacWatchReply := WatchReply AlmanacChange

abbrev CatalogWatchReply := WatchReply CatalogChange

abbrev EphemerisWatchReply := WatchReply EphemerisChange

/-- The pages of one batch of changes: only the last page is complete, and every other page
has some of the changes.
-/
inductive Batched {Change : Type} (mode : Mode) (version : Nat) («instance» : Bytes)
    : List Change → List (WatchReply Change) → Prop where
  | last (changes : List Change)
      : Batched mode version «instance» changes
          [{ mode, changes, complete := true, version := some version, «instance» }]
  | more {changes rest : List Change} {pages : List (WatchReply Change)}
      (progress : changes ≠ []) (continued : Batched mode version «instance» rest pages)
      : Batched mode version «instance» (changes ++ rest) ({ mode, changes } :: pages)

/-- Only the last page names the version and the instance. -/
theorem Batched.named {Change : Type} {mode : Mode} {version : Nat} {serving : Bytes}
    {changes : List Change} {pages : List (WatchReply Change)}
    (batched : Batched mode version serving changes pages) {page : WatchReply Change}
    (member : page ∈ pages)
    : (page.version = none ∧ page.instance = [])
      ∨ (page.version = some version ∧ page.instance = serving) := by
  induction batched with
  | last changes =>
      rw [List.mem_singleton.mp member]
      exact .inr ⟨rfl, rfl⟩
  | more progress continued ih =>
      rcases List.mem_cons.mp member with same | later
      · rw [same]
        exact .inl ⟨rfl, rfl⟩
      · exact ih later

end Astra.Proto
