import Verdandi.Support.Assoc

/-! Names with entries that are dropped at their deadlines. -/

namespace Support

universe u v

structure Leased (Value : Type v) where
  value : Value
  deadline : Option Nat := none
  deriving DecidableEq

/-- Entries by name; one that is past its deadline is still here until time is said to have come. -/
abbrev Expiring (Name : Type u) (Value : Type v) [DecidableEq Name] := Assoc Name (Leased Value)

def Leased.lasts {Value : Type v} (entry : Leased Value) (now : Nat) : Bool :=
  entry.deadline.all fun deadline => decide (now < deadline)

namespace Expiring

variable {Name : Type u} {Value : Type v} [DecidableEq Name]

def expire (map : Expiring Name Value) (now : Nat) : Expiring Name Value :=
  map.filter fun _ entry => entry.lasts now

def write (map : Expiring Name Value) (name : Name) (value : Value) : Expiring Name Value :=
  map.set name { value, deadline := (map.get? name).bind Leased.deadline }

def expireAt (map : Expiring Name Value) (now : Nat) (name : Name) (deadline : Nat)
    : Expiring Name Value :=
  match map.get? name with
  | none => map
  | some entry =>
      if deadline ≤ now then map.remove name
      else map.set name { entry with deadline := some deadline }

def lease (map : Expiring Name Value) (now : Nat) (name : Name) (value : Value) (deadline : Nat)
    : Expiring Name Value :=
  if deadline ≤ now then map.remove name
  else map.set name { value, deadline := some deadline }

@[simp]
theorem get?_expire (map : Expiring Name Value) (now : Nat) (name : Name)
    : (map.expire now).get? name = (map.get? name).filter fun entry => entry.lasts now := by
  rw [expire, Assoc.get?_filter]

@[simp]
theorem get?_write (map : Expiring Name Value) (name other : Name) (value : Value)
    : (map.write name value).get? other = if other = name then
          some { value, deadline := (map.get? name).bind Leased.deadline }
        else
          map.get? other := by
  rw [write, Assoc.get?_set]

variable {map : Expiring Name Value} {now deadline : Nat} {name : Name}

theorem get?_expireAt {entry : Leased Value} (found : map.get? name = some entry)
    (later : now < deadline) (other : Name)
    : (map.expireAt now name deadline).get? other = if other = name then
          some { entry with deadline := some deadline }
        else
          map.get? other := by
  rw [expireAt, found]
  simp [Nat.not_le.mpr later]

theorem get?_lease {value : Value} (later : now < deadline) (other : Name)
    : (map.lease now name value deadline).get? other
      = if other = name then some { value, deadline := some deadline } else map.get? other := by
  rw [lease, if_neg (Nat.not_le.mpr later), Assoc.get?_set]

end Expiring

end Support
