import Verdandi.Star.Topology.Model

/-! The part of the control loop that keeps the directory of a Star: it dials, pumps the streams,
reaps those that are over, and merges the complete lists of the admission.
-/

namespace Astra

open Support Policy

/-- A stream as the control loop sees it. `expected` is the member that was dialed. -/
structure Session where
  direction : Direction
  generation : Nat
  expected : Option Member := none
  installed : Bool := false
  peer : Option Member := none
  error : Option Status.Code := none
  done : Bool := false

namespace Session

inductive Event where
  /-- The transport or a deadline has failed, or a packet is refused. -/
  | broken (code : Status.Code)
  /-- A compatible greeting of a verified member. -/
  | hello (remote : Member) (moment : Int)

def cancel (session : Session) (code : Status.Code := .cancelled) : Session :=
  if session.error.isNone ∧ session.done = false then
    { session with error := some code }
  else
    session

/-- One turn: the first packet has to be a greeting that the directory accepts. -/
def pump (config : Config) (topology : Topology) (session : Session)
    : Event → List Nat × Topology × Session
  | .broken code => ([], topology, session.cancel code)
  | .hello remote moment =>
      if session.done ∨ session.error.isSome then
        ([], topology, session)
      else if session.installed then
        ([], topology, session.cancel .protocol)
      else
        match topology.accept config remote session.direction session.generation session.expected
            moment with
        | (.error failure, topology) => ([], topology, session.cancel failure.code)
        | (.ok cancelled, topology) =>
            (cancelled, topology, { session with peer := some remote, installed := true })

def ended (hash : Bytes → Nat) (config : Config) (topology : Topology) (session : Session)
    (now : Int)
    : Topology :=
  if session.installed then
    topology.closed hash config session.generation now
  else
    match session.expected with
    | none => topology
    | some target => topology.failed hash config target now

end Session

/-- `Runtime`: the streams with what has not been collected yet, and what admits new ones. -/
structure Runtime where
  topology : Topology := {}
  sessions : List Session := []
  incoming : List Session := []
  inbound : Nat := 0
  nextGeneration : Nat := 1
  hello : Bool := false
  almanacReady : Bool := false
  accepting : Bool := false
  nextDial : Int := 0
  stopping : Bool := false

namespace Runtime

def generate (runtime : Runtime) : Option (Nat × Runtime) :=
  if runtime.nextGeneration = 2 ^ 64 - 1 then
    none
  else
    some (runtime.nextGeneration, { runtime with nextGeneration := runtime.nextGeneration + 1 })

/-- `OpenSession`: a stream of another member, which is refused or waits to be collected. -/
def openSession (config : Config) (runtime : Runtime) : Runtime :=
  if !runtime.accepting ∨ runtime.inbound ≥ config.maxInbound then
    runtime
  else
    match runtime.generate with
    | none => runtime
    | some (generation, runtime) =>
        { runtime with
          incoming := runtime.incoming ++ [{ direction := .inbound, generation }]
          inbound := runtime.inbound + 1 }

def collect (runtime : Runtime) : Runtime :=
  { runtime with sessions := runtime.sessions ++ runtime.incoming, incoming := [] }

def stop (generation : Nat) : List Session → List Session
  | [] => []
  | session :: rest =>
      if session.generation = generation then
        session.cancel :: rest
      else
        session :: stop generation rest

/-- One stream of `pump_sessions`, with the former streams that it replaces. -/
def pump (config : Config) (runtime : Runtime) (index : Nat) (event : Session.Event) : Runtime :=
  match runtime.sessions[index]? with
  | none => runtime
  | some session =>
      let (cancelled, topology, session) := session.pump config runtime.topology event
      { runtime with
        topology
        sessions := cancelled.foldl (fun sessions generation => stop generation sessions)
          (runtime.sessions.set index session) }

/-- The streams that are not over, and the directory that has learned of the others. -/
def reaped (hash : Bytes → Nat) (config : Config) (now : Int)
    : List Session → Topology → List Session × Topology
  | [], topology => ([], topology)
  | session :: rest, topology =>
      if session.done then
        reaped hash config now rest (session.ended hash config topology now)
      else
        let (kept, topology) := reaped hash config now rest topology
        (session :: kept, topology)

def reap (hash : Bytes → Nat) (config : Config) (runtime : Runtime) (now : Int) : Runtime :=
  let (sessions, topology) := reaped hash config now runtime.sessions runtime.topology
  let lost := runtime.sessions.countP fun session => session.done && session.direction = .inbound
  { runtime with sessions, topology, inbound := runtime.inbound - lost }

/-- A complete list of the admission: the first one is installed, a later one is merged. One that is
refused stops the process.
-/
def advanceAdmission (net : Net) (config : Config) (runtime : Runtime) (own : Member)
    (members : List Member)
    : Runtime :=
  if runtime.hello then
    match runtime.topology.refresh net config own members with
    | (.error _, topology) => { runtime with topology, stopping := true }
    | (.ok cancelled, topology) =>
        { runtime with
          topology
          sessions := runtime.sessions.map fun session =>
            if session.generation ∈ cancelled then session.cancel else session }
  else
    match runtime.topology.initialise net config own members with
    | (.error _, topology) => { runtime with topology, stopping := true }
    | (.ok (), topology) => { runtime with topology, hello := true }

/-- Open at most one stream each turn, and a few at a time. Without a number for it the loop ends. -/
def dial (config : Config) (runtime : Runtime) (now : Int) : Option Runtime :=
  let pending := runtime.sessions.countP fun session =>
    session.direction = .outbound && !session.installed
  if runtime.hello ∧ runtime.almanacReady ∧ runtime.nextDial ≤ now ∧ pending < config.maxDials then
    match runtime.topology.due now with
    | (none, topology) => some { runtime with topology }
    | (some target, topology) =>
        match runtime.generate with
        | none => none
        | some (generation, runtime) =>
            some
              { runtime with
                topology
                sessions := runtime.sessions
                  ++ [{ direction := .outbound, generation, expected := some target }]
                nextDial := now + Topology.nanoseconds 250 }
  else
    some runtime

/-- `shutdown`: no stream is admitted any more, and all are cancelled. -/
def shutdown (runtime : Runtime) : Runtime :=
  let runtime := runtime.collect
  { runtime with
    accepting := false
    stopping := true
    sessions := runtime.sessions.map fun session => session.cancel }

-- Steps

inductive Action where
  | openSession
  | collect
  | pump (index : Nat) (event : Session.Event)
  /-- The business layer gives a stream up. -/
  | cancel (index : Nat) (code : Status.Code)
  /-- gRPC has finished with a stream. -/
  | completed (index : Nat)
  | reap (now : Int)
  | admission (own : Member) (members : List Member)
  /-- The first complete Almanac is there, and with a clock streams are admitted. -/
  | almanac (clock : Bool)
  | dial (now : Int)
  | shutdown

/-- A part of a turn of the loop, or what another thread does. A process that stops neither dials nor
takes lists.
-/
def step (net : Net) (hash : Bytes → Nat) (config : Config) (runtime : Runtime)
    : Action → Option Runtime
  | .openSession => some (runtime.openSession config)
  | .collect => some runtime.collect
  | .pump index event => some (runtime.pump config index event)
  | .cancel index code =>
      some { runtime with sessions := runtime.sessions.modify index (·.cancel code) }
  | .completed index =>
      some { runtime with sessions := runtime.sessions.modify index ({ · with done := true }) }
  | .reap now => some (runtime.reap hash config now)
  | .admission own members =>
      if runtime.stopping then none else some (runtime.advanceAdmission net config own members)
  | .almanac clock =>
      if runtime.stopping then
        none
      else
        some { runtime with almanacReady := true, accepting := clock || runtime.accepting }
  | .dial now => if runtime.stopping then none else runtime.dial config now
  | .shutdown => some runtime.shutdown

end Runtime

end Astra
