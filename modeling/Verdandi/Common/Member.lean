import Verdandi.Common.Scope
import Verdandi.Common.Status

/-! The identities of the infrastructure: deployments, endpoints, members and their checks. -/

namespace Astra

-- Deployments

structure Principal where
  bytes : Bytes
  length : bytes.length = 32
  deriving DecidableEq

namespace Principal

/-- One of `0123456789abcdef`. -/
def digit (nibble : UInt8) : UInt8 :=
  if nibble < 10 then 48 + nibble else 87 + nibble

def nibble (digit : UInt8) : Option UInt8 :=
  if 48 ≤ digit ∧ digit ≤ 57 then
    some (digit - 48)
  else if 97 ≤ digit ∧ digit ≤ 102 then
    some (digit - 97 + 10)
  else
    none

def text (principal : Principal) : Bytes :=
  principal.bytes.flatMap fun byte : UInt8 => [digit (byte >>> 4), digit (byte &&& 15)]

def bytesOf : Bytes → Option Bytes
  | [] => some []
  | [_] => none
  | high :: low :: rest =>
      match nibble high, nibble low, bytesOf rest with
      | some high, some low, some rest => some (((high <<< 4) ||| low) :: rest)
      | _, _, _ => none

def parse (value : Bytes) : Result Principal :=
  if value.length ≠ 64 then
    .error (.identity "Invalid principal length")
  else
    match bytesOf value with
    | none => .error (.identity "Principal must use lowercase hexadecimal")
    | some bytes =>
        if length : bytes.length = 32 then
          .ok { bytes, length }
        else
          .error (.identity "Invalid principal length")

theorem nibble_digit (byte : UInt8)
    : (nibble (digit (byte >>> 4))).bind (fun high =>
        (nibble (digit (byte &&& 15))).map fun low => (high <<< 4) ||| low)
      = some byte := by
  have each : ∀ number : Fin 256,
      (nibble (digit (UInt8.ofNat number >>> 4))).bind (fun high =>
        (nibble (digit (UInt8.ofNat number &&& 15))).map fun low => (high <<< 4) ||| low)
      = some (UInt8.ofNat number) := by
    decide +kernel
  have isByte : UInt8.ofNat byte.toNat = byte := UInt8.ofNat_toNat
  simpa [isByte] using each ⟨byte.toNat, byte.toNat_lt⟩

theorem bytesOf_digits (bytes : Bytes)
    : bytesOf (bytes.flatMap fun byte : UInt8 => [digit (byte >>> 4), digit (byte &&& 15)])
      = some bytes := by
  induction bytes with
  | nil => rfl
  | cons byte rest ih =>
      have pair := nibble_digit byte
      obtain ⟨high, isHigh, rest'⟩ := Option.bind_eq_some_iff.mp pair
      obtain ⟨low, isLow, whole⟩ := Option.map_eq_some_iff.mp rest'
      rw [List.flatMap_cons, List.cons_append, List.cons_append, List.nil_append, bytesOf, isHigh,
        isLow, ih]
      simp [whole]

theorem length_text (principal : Principal) : principal.text.length = 64 := by
  simp [text, List.length_flatMap, principal.length]

/-- A text names its deployment. -/
theorem parse_text (principal : Principal) : parse principal.text = .ok principal := by
  unfold parse
  rw [if_neg (by simp [length_text]), text, bytesOf_digits]
  simp [principal.length]

theorem text_injective : Function.Injective text := by
  intro one other same
  have parsed := parse_text one
  rw [same, parse_text other] at parsed
  exact (Except.ok.inj parsed).symm

end Principal

-- Endpoints

structure Net where
  pton : Bool → Bytes → Option Bytes
  ntop : Bool → Bytes → Option Bytes

structure Endpoint where
  host : Bytes
  port : Nat
  ipv6 : Bool := false
  wildcard : Bool := false
  deriving DecidableEq, Repr

namespace Endpoint

def decimal (value : Nat) : Bytes :=
  (Nat.toDigits 10 value).map fun digit => UInt8.ofNat digit.toNat

def text (endpoint : Endpoint) : Bytes :=
  (if endpoint.ipv6 then [91] ++ endpoint.host ++ [93] else endpoint.host) ++ [58]
    ++ decimal endpoint.port

/-- All characters are decimal digits of a port; only a listener may leave it open. -/
def portNumber (value : Bytes) («local» : Bool) : Result Nat :=
  let number := value.foldl (fun number digit => number * 10 + (digit.toNat - 48)) 0
  if value.isEmpty ∨ !value.all (fun digit => 48 ≤ digit ∧ digit ≤ 57) ∨ number > 65535
      ∨ («local» = false ∧ number = 0) then
    .error (.configuration "Invalid endpoint port")
  else
    .ok number

def separate (value : Bytes) : Option (Bytes × Bytes) :=
  let after := value.reverse.takeWhile (· != 58)
  if value.contains 58 then
    some (value.take (value.length - after.length - 1), after.reverse)
  else
    none

def bracketed (front : Bytes) : Bool :=
  front.head? == some 91 && front.getLast? == some 93

def inner (front : Bytes) : Bytes :=
  if bracketed front then (front.drop 1).take (front.length - 2) else front

def numeric (net : Net) (ipv6 : Bool) (host : Bytes) : Option Bytes :=
  if host.contains 0 then none else net.pton ipv6 host

def multicast (ipv6 : Bool) (bytes : Bytes) : Bool :=
  if ipv6 then bytes.getD 0 0 == 255 else 224 ≤ bytes.getD 0 0 && bytes.getD 0 0 ≤ 239

def mapped (ipv6 : Bool) (bytes : Bytes) : Bool :=
  ipv6 && (bytes.take 10).all (· == 0) && bytes.getD 10 0 == 255 && bytes.getD 11 0 == 255

def parse (net : Net) (value : Bytes) («local» : Bool := false) : Result Endpoint :=
  match separate value with
  | none => .error (.configuration "Endpoint requires IP:PORT")
  | some (front, back) =>
      match portNumber back «local» with
      | .error failure => .error failure
      | .ok port =>
          let ipv6 := bracketed front
          match numeric net ipv6 (inner front) with
          | none => .error (.configuration "Endpoint requires a numeric IP without scope")
          | some bytes =>
              let wildcard := bytes.all (· == 0)
              if multicast ipv6 bytes ∨ mapped ipv6 bytes ∨ («local» = false ∧ wildcard) then
                .error (.configuration "Endpoint is not a supported unicast address")
              else
                match net.ntop ipv6 bytes with
                | none => .error (.internal "Address normalization failed")
                | some host => .ok { host, port, ipv6, wildcard }

end Endpoint

-- Members

inductive Member.Role where
  | star
  | planet
  | polaris
  | astrolabe
  deriving DecidableEq, Repr

structure Member where
  galaxy : Bytes
  id : Bytes
  principal : Principal
  address : Endpoint
  epoch : Nat := 0
  role : Member.Role := .star
  group : Bytes
  deriving DecidableEq

namespace Member

def validName (value : Bytes) : Bool :=
  !value.isEmpty && value.length ≤ 64 && value.all fun c =>
      (97 ≤ c && c ≤ 122) || (65 ≤ c && c ≤ 90) || (48 ≤ c && c ≤ 57) || c == 46 || c == 95
        || c == 45

def validId (id : Bytes) : Bool :=
  !id.isEmpty && id.length ≤ 128
    && (id.splitOn 0).all fun part => part.isEmpty || Scope.text part 128

def validate (net : Net) (member : Member) : Result Unit :=
  if !validName member.galaxy ∨ !validName member.group ∨ !validId member.id ∨ member.epoch = 0 then
    .error (.identity "Invalid member identity")
  else
    match Endpoint.parse net member.address.text with
    | .error _ => .error (.identity "Invalid canonical member endpoint")
    | .ok endpoint =>
        if endpoint ≠ member.address then
          .error (.identity "Invalid canonical member endpoint")
        else
          .ok ()

end Member

end Astra
