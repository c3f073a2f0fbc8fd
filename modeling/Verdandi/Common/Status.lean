import Mathlib

/-! Failure categories shared by the components, with the diagnostic texts of the source. -/

namespace Astra

inductive Status.Code where
  | configuration
  | identity
  | protocol
  | conflict
  | capacity
  | timeout
  | transport
  | cancelled
  | internal
  deriving DecidableEq, Repr

structure Status where
  code : Status.Code
  message : String
  deriving DecidableEq, Repr

namespace Status

def configuration (message : String) : Status := { code := .configuration, message }

def identity (message : String) : Status := { code := .identity, message }

def protocol (message : String) : Status := { code := .protocol, message }

def conflict (message : String) : Status := { code := .conflict, message }

def capacity (message : String) : Status := { code := .capacity, message }

def transport (message : String) : Status := { code := .transport, message }

def internal (message : String) : Status := { code := .internal, message }

end Status

/-- `Result<T>`: a value or a failure. -/
abbrev Result (Value : Type) := Except Status Value

end Astra
