import CloudServer.Recent
import CloudServer.Scan

/-! What a robot is told about its uploads: the acks of its bundles and the retained high-water
mark of its current run. -/
namespace CloudServer.Acks

open Scan (Text)

inductive Kind
  | image
  | depth
  | costmap
  deriving DecidableEq, Repr

structure Part where
  kind : Kind
  sub : Text
  deriving DecidableEq, Repr

inductive Status
  | accepted
  | duplicate
  | rejected
  deriving DecidableEq, Repr

inductive Resend
  | none
  | parts
  | node
  deriving DecidableEq, Repr

inductive Reason
  | noSession
  | sessionUnplaced
  | sessionPaused
  | mapDeleting
  | mapMissing
  | datumChanged
  | lookupFailed
  | bufferFull
  | runIdMismatch
  | sessionUnknown
  | sourceMismatch
  | sessionBusy
  | invalidPayload
  | storeFailed
  deriving DecidableEq, Repr

def Reason.terminal : Reason → Bool
  | noSession | mapDeleting | mapMissing | datumChanged | runIdMismatch | invalidPayload
  | sessionUnknown | sourceMismatch => true
  | _ => false

def Reason.retryable : Reason → Bool
  | sessionPaused | sessionUnplaced | lookupFailed | bufferFull | storeFailed | sessionBusy => true
  | _ => false

/-- A `session_node_id`: an integer, or a name. -/
inductive Sid
  | int (n : Int)
  | text (t : Text)
  deriving DecidableEq, Repr

abbrev Run := Option Text

structure Key where
  robot : Text
  run : Run
  sid : Sid
  ns : Option Text
  deriving DecidableEq, Repr

structure Entry where
  declared : List Part
  sessionId : Option Text
  status : Option Status
  stored : List Part
  missing : Dict Part Reason
  since : Int
  timeouts : Nat
  deriving DecidableEq

/-- `publishedAt` is `none` before anything was published. -/
structure State where
  run : Run
  highest : Int
  dirty : Bool
  publishedAt : Option Int
  deriving DecidableEq, Repr

structure Ack where
  robot : Text
  run : Run
  sid : Sid
  status : Status
  reason : Option Reason
  resend : Resend
  stored : List Part
  missing : List Part
  complete : Option Bool
  sessionId : Option Text
  ns : Option Text
  deriving DecidableEq, Repr

def Ack.key (a : Ack) : Key := ⟨a.robot, a.run, a.sid, a.ns⟩

inductive Message
  | ack (a : Ack)
  | state (robot : Text) (run : Run) (highest : Int)
  deriving DecidableEq, Repr

structure Config where
  partTimeout : Int
  maxTrackers : Nat
  stateMinInterval : Int

/-- The acknowledgements of one ingest process. -/
structure Manager where
  entries : Dict Key Entry
  lastAck : Dict Key (Ack × Int)
  states : Dict Text State
  runs : Dict Text (List Run)

def Manager.init : Manager := ⟨.empty, .empty, .empty, .empty⟩

def ackCoalesce : Int := 1000
def unacceptedTtlFactor : Int := 2
def runsSeenCap : Nat := 8
def maxTimeoutAcks : Nat := 3
def lastAckCap : Nat := 5000
def robotCap : Nat := 10000

def validTopicLevel (name : Text) : Bool :=
  !name.isEmpty && name.all fun c => c ∉ ['/', '+', '#', Char.ofNat 0]

def Kind.name : Kind → Text
  | image => ['i', 'm', 'a', 'g', 'e']
  | depth => ['d', 'e', 'p', 't', 'h']
  | costmap => ['c', 'o', 's', 't', 'm', 'a', 'p']

def Part.le (p q : Part) : Prop :=
  p.kind.name < q.kind.name ∨ p.kind = q.kind ∧ p.sub ≤ q.sub

instance : DecidableRel Part.le := fun _ _ => inferInstanceAs (Decidable (_ ∨ _))

def partDicts (parts : List Part) : List Part := parts.insertionSort Part.le

def Entry.new (declared : List Part) (sessionId : Option Text) (since : Int) : Entry :=
  ⟨declared, sessionId, none, [], .empty, since, 0⟩

def Entry.pending (e : Entry) : List Part := e.declared.filter fun p => p ∉ e.stored

variable (cfg : Config)

def evict (m : Manager) : Manager := { m with entries := m.entries.newest cfg.maxTrackers }

/-- A node was accepted: its run becomes the latest unless it was seen before. -/
def noteRun (m : Manager) (robot : Text) (run : Run) : Manager :=
  if validTopicLevel robot then
    let runs := (m.runs.get robot).getD []
    let runs := if run ∈ runs then runs else
      (runs ++ [run]).drop ((runs ++ [run]).length - runsSeenCap)
    { m with runs := (m.runs.put robot runs).newest robotCap }
  else m

def coalesced (m : Manager) (a : Ack) (now : Int) : Bool :=
  match m.lastAck.get a.key with
  | some (last, sentAt) => last = a && now - sentAt < ackCoalesce
  | none => false

/-- A locked step: the manager it leaves and the messages it hands to the broker. -/
abbrev Step := Manager × List Message

def Step.andThen (x : Step) (f : Manager → Step) : Step := ((f x.1).1, x.2 ++ (f x.1).2)

def ack (m : Manager) (robot : Text) (run : Run) (sid : Sid) (status : Status)
    (reason : Option Reason) (resend : Resend) (stored missing : List Part)
    (complete : Option Bool) (sessionId ns : Option Text) (now : Int) : Step :=
  if validTopicLevel robot then
    let a : Ack := ⟨robot, run, sid, status, reason, resend, partDicts stored, partDicts missing,
      complete, sessionId, ns⟩
    if coalesced m a now then (m, [])
    else ({ m with lastAck := (m.lastAck.put a.key (a, now)).newest lastAckCap }, [.ack a])
  else (m, [])

def State.due (st : State) (now : Int) : Bool :=
  st.dirty && match st.publishedAt with
    | none => true
    | some t => !decide (now - t < cfg.stateMinInterval)

def maybeState (robot : Text) (st : State) (now : Int) : State × List Message :=
  if st.due cfg now then
    ({ st with dirty := false, publishedAt := some now }, [.state robot st.run st.highest])
  else (st, [])

def raise (m : Manager) (robot : Text) (st : State) (now : Int) : Step :=
  ({ m with states := m.states.set robot (maybeState cfg robot st now).1 },
    (maybeState cfg robot st now).2)

def superseded (m : Manager) (robot : Text) (run : Run) : Bool :=
  match ((m.runs.get robot).getD []).getLast? with
  | none => false
  | some latest => latest ≠ run

/-- A bundle is complete: the high-water mark of the robot's latest run grows. -/
def complete (m : Manager) (robot : Text) (run : Run) (sid : Sid) (ns : Option Text)
    (now : Int) : Step :=
  match ns, sid with
  | none, .int n =>
    if !validTopicLevel robot || superseded m robot run then (m, [])
    else match m.states.get robot with
      | none =>
        let st : State := ⟨run, n, true, none⟩
        raise cfg { m with states := (m.states.set robot st).newest robotCap } robot st now
      | some st =>
        if st.run ≠ run then
          let st : State := ⟨run, n, true, none⟩
          raise cfg { m with states := (m.states.set robot st).newest robotCap } robot st now
        else if n > st.highest then
          raise cfg m robot { st with highest := n, dirty := true } now
        else (m, [])
  | _, _ => (m, [])

/-- No declared part is pending: the ack that ends the bundle, or asks for its refused parts. -/
def final (clock : Nat → Int) (m : Manager) (key : Key) (e : Entry) (status : Status) : Step :=
  if e.missing.items.isEmpty then
    ((ack m key.robot key.run key.sid status none .none e.declared [] (some true) e.sessionId
      key.ns (clock 1)).andThen fun m => ({ m with entries := m.entries.erase key }, [])).andThen
        fun m => complete cfg m key.robot key.run key.sid key.ns (clock 2)
  else match (e.missing.items.map Prod.snd).filter Reason.terminal with
    | reason :: _ =>
      (ack m key.robot key.run key.sid .rejected (some reason) .none e.stored e.missing.keys
        (some false) e.sessionId key.ns (clock 1)).andThen
          fun m => ({ m with entries := m.entries.erase key }, [])
    | [] =>
      (ack m key.robot key.run key.sid status (e.missing.items.map Prod.snd).head? .parts e.stored
        e.missing.keys (some false) e.sessionId key.ns (clock 1)).andThen fun m =>
          let e := { e with missing := .empty, since := clock 2 }
          ({ m with entries := m.entries.set key e }, [])

def evaluate (clock : Nat → Int) (m : Manager) (key : Key) (e : Entry) (status : Status) : Step :=
  if e.declared.any fun p => p ∉ e.stored && p ∉ e.missing.keys then (m, [])
  else final cfg clock m key e status

/-- A node with a manifest was received; a second receipt keeps what is known. -/
def begin (clock : Nat → Int) (m : Manager) (key : Key) (manifest : List Part)
    (sessionId : Option Text) : Manager :=
  if manifest.isEmpty then m
  else match m.entries.get key with
    | none =>
      evict cfg { m with entries := m.entries.set key (.new manifest sessionId (clock 0)) }
    | some e =>
      { m with entries := m.entries.put key { e with declared := manifest, sessionId } }

def track (m : Manager) (key : Key) (manifest : List Part) (sessionId : Option Text) : Manager :=
  match m.entries.get key with
  | none => evict cfg { m with entries := m.entries.set key (.new manifest sessionId 0) }
  | some _ => m

def accept (clock : Nat → Int) (m : Manager) (key : Key) (status : Status)
    (sessionId : Option Text) (manifest truth : List Part) : Step :=
  let m := track cfg m key manifest sessionId
  match m.entries.get key with
  -- the tracker was evicted at once: `move_to_end` raises
  | none => (m, [])
  | some e =>
    let e := { e with declared := manifest, sessionId, status := some status, since := clock 0,
                      missing := .empty, stored := e.stored ∪ truth }
    let m := { m with entries := m.entries.put key e }
    if e.pending.isEmpty then final cfg clock m key e status
    else ack m key.robot key.run key.sid status none
      (if status = .duplicate then .parts else .none) e.stored e.pending (some false) sessionId
      key.ns (clock 1)

/-- The node is durable: the first ack. `truth` holds the parts found in storage. -/
def nodeOk (clock : Nat → Int) (m : Manager) (key : Key) (status : Status)
    (sessionId : Option Text) (manifest : Option (List Part)) (truth : List Part) : Step :=
  let m := if key.ns = none then noteRun m key.robot key.run else m
  match manifest with
  | none =>
    ack { m with entries := m.entries.erase key } key.robot key.run key.sid status none .none [] []
      none sessionId key.ns (clock 0)
  | some [] =>
    (ack { m with entries := m.entries.erase key } key.robot key.run key.sid status none .none
      [] [] (some true) sessionId key.ns (clock 0)).andThen
        fun m => complete cfg m key.robot key.run key.sid key.ns (clock 1)
  | some (p :: ps) => accept cfg clock m key status sessionId (p :: ps) truth

def nodeFailed (clock : Nat → Int) (m : Manager) (key : Key) (reason : Reason)
    (manifest : List Part) (sessionId : Option Text) : Step :=
  ack { m with entries := m.entries.erase key } key.robot key.run key.sid .rejected (some reason)
    (if reason.retryable then .node else .none) [] manifest (some false) sessionId key.ns (clock 0)

/-- The handler of a begun node ended abnormally; only a node not acked yet fails. -/
def nodeAbandoned (clock : Nat → Int) (m : Manager) (key : Key) (manifest : List Part)
    (sessionId : Option Text) : Step :=
  match m.entries.get key with
  | some e => if e.status = none then nodeFailed clock m key .storeFailed manifest sessionId
    else (m, [])
  | none => (m, [])

def partStored (clock : Nat → Int) (m : Manager) (key : Key) (part : Part) : Step :=
  match m.entries.get key with
  | none => (m, [])
  | some e =>
    let e := { e with stored := e.stored.insert part, missing := e.missing.erase part }
    let m := { m with entries := m.entries.set key e }
    match e.status with
    | none => (m, [])
    | some status => evaluate cfg clock m key e status

/-- A part was not stored: recorded for an accepted bundle, else acked on its own. -/
def partRejected (clock : Nat → Int) (m : Manager) (key : Key) (part : Part) (reason : Reason)
    (sessionId : Option Text) : Step :=
  let alone := ack m key.robot key.run key.sid .rejected (some reason)
    (if reason.retryable then .parts else .none) [] [part] (some false) sessionId key.ns (clock 0)
  match m.entries.get key with
  | none => alone
  | some e =>
    if part ∈ e.stored then (m, [])
    else match e.status with
      | none => alone
      | some status =>
        if part ∈ e.declared then
          let e := { e with missing := e.missing.set part reason }
          evaluate cfg clock { m with entries := m.entries.set key e } key e status
        else alone

def timeoutAck (m : Manager) (key : Key) (e : Entry) (status : Status) (now : Int) : Step :=
  if e.pending.isEmpty then (m, [])
  else ack m key.robot key.run key.sid status none .parts e.stored e.pending (some false)
    e.sessionId key.ns now

def timeoutEntry (key : Key) (e : Entry) (now : Int) (m : Manager) : Manager :=
  if e.pending.isEmpty || e.timeouts + 1 ≥ maxTimeoutAcks then
    { m with entries := m.entries.erase key }
  else
    let e := { e with timeouts := e.timeouts + 1, since := now, missing := .empty }
    { m with entries := m.entries.set key e }

def flushEntry (clock : Nat → Int) (m : Manager) (item : Key × Entry) (reading : Nat) : Step :=
  let (key, e) := item
  match e.status with
  | none =>
    if clock 0 - e.since ≥ cfg.partTimeout * unacceptedTtlFactor then
      ({ m with entries := m.entries.erase key }, [])
    else (m, [])
  | some status =>
    if clock 0 - e.since < cfg.partTimeout then (m, [])
    else (timeoutAck m key e status (clock reading)).andThen fun m =>
      (timeoutEntry key e (clock 0) m, [])

def flushEntries (clock : Nat → Int) : List (Key × Entry) → Nat → Manager → Step
  | [], _, m => (m, [])
  | item :: rest, reading, m =>
    (flushEntry cfg clock m item reading).andThen (flushEntries clock rest (reading + 1))

def flushStates (now : Int) (m : Manager) : Step :=
  ({ m with states := m.states.map fun robot st => (maybeState cfg robot st now).1 },
    m.states.items.flatMap fun x => (maybeState cfg x.1 x.2 now).2)

def flush (clock : Nat → Int) (m : Manager) : Step :=
  (flushEntries cfg clock m.entries.items 1 m).andThen (flushStates cfg (clock 0))

def seedState (m : Manager) (robot : Text) (run : Run) (highest : Option Int) : Manager :=
  match highest with
  | none => m
  | some n =>
    if !validTopicLevel robot then m
    else match m.states.get robot with
      | none => { m with states := (m.states.set robot ⟨run, n, false, none⟩).newest robotCap }
      | some st =>
        if st.run ≠ run then m
        else if n > st.highest then
          let st := { st with highest := n, dirty := st.publishedAt.isSome }
          { m with states := m.states.set robot st }
        else if st.highest > n then
          { m with states := m.states.set robot { st with dirty := true } }
        else m

inductive Event
  | begin (key : Key) (manifest : List Part) (sessionId : Option Text)
  | nodeOk (key : Key) (status : Status) (sessionId : Option Text)
      (manifest : Option (List Part)) (truth : List Part)
  | nodeFailed (key : Key) (reason : Reason) (manifest : List Part) (sessionId : Option Text)
  | nodeAbandoned (key : Key) (manifest : List Part) (sessionId : Option Text)
  | partStored (key : Key) (part : Part)
  | partRejected (key : Key) (part : Part) (reason : Reason) (sessionId : Option Text)
  | flush
  | seedState (robot : Text) (run : Run) (highest : Option Int)

/-- `clock` gives the readings taken during the event, in their order. -/
def Event.apply (clock : Nat → Int) (m : Manager) : Event → Step
  | begin key manifest sessionId => (Acks.begin cfg clock m key manifest sessionId, [])
  | nodeOk key status sessionId manifest truth =>
    Acks.nodeOk cfg clock m key status sessionId manifest truth
  | nodeFailed key reason manifest sessionId =>
    Acks.nodeFailed clock m key reason manifest sessionId
  | nodeAbandoned key manifest sessionId => Acks.nodeAbandoned clock m key manifest sessionId
  | partStored key part => Acks.partStored cfg clock m key part
  | partRejected key part reason sessionId =>
    Acks.partRejected cfg clock m key part reason sessionId
  | flush => Acks.flush cfg clock m
  | seedState robot run highest => (Acks.seedState m robot run highest, [])

end CloudServer.Acks
