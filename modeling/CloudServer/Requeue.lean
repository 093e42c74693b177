import CloudServer.Steps

/-! The mission queue of one robot's controller: which delivered rows are new missions and which
are echoes of missions that ran, with status writes that are stored late. -/
namespace CloudServer.Requeue
open Steps Function

inductive State
  | pending
  | running
  | completed
  | canceled
  | failed
deriving DecidableEq

def State.done : State → Bool
  | .pending | .running => false
  | .completed | .canceled | .failed => true

/-- `started` says whether there is a start timestamp. -/
structure Status where
  state : State
  started : Bool
  runId : Option ℕ
deriving DecidableEq

/-- A mission as its row or the controller holds it; `inc` tells the creations of a name apart and
`alive` is false once the lifecycle is PENDING_DELETE. -/
structure Mission where
  inc : ℕ
  alive : Bool
  needsCanceled : Bool
  status : Status
deriving DecidableEq

def Mission.created (inc : ℕ) : Mission := ⟨inc, true, false, ⟨.pending, false, none⟩⟩

def Mission.looksFreshlyCreated (m : Mission) : Bool :=
  m.status.state = .pending && !m.status.started

variable {ν : Type}

/-- The stored rows, the deliveries on their way in order, and the memory of the controller:
its queue, the mission it runs and whether its tree is built, the finished names, and the status
writes waiting and in flight. `starts` logs what was dispatched. -/
structure World (ν : Type) where
  rows : ν → Option Mission
  born : ℕ
  inbox : List (ν × Mission)
  missions : List (ν × Mission)
  current : Option ν
  tree : Bool
  finished : List ν
  queued : ν → Option Status
  inFlight : ν → Option Status
  starts : List (ν × ℕ)

def World.fresh (rows : ν → Option Mission) (born : ℕ) : World ν :=
  ⟨rows, born, [], [], none, false, [], fun _ => none, fun _ => none, []⟩

def World.empty : World ν := .fresh (fun _ => none) 0

inductive Act (ν : Type)
  | create (n : ν)
  | cancel (n : ν)
  | markDelete (n : ν)
  | delete (n : ν)
  | deliver (n : ν)
  | restart
  | handle (ok : Bool)
  | pick
  | assignRunId (id : ℕ) (ok : Bool)
  | dispatch
  | run
  | finish (s : State)
  | getNext
  | writeStarts (n : ν)
  | writeLands (n : ν)
  | writeFails (n : ν)

def updateMissionFromApi (m message : Mission) : Mission :=
  if m.needsCanceled ≠ message.needsCanceled then
    { m with needsCanceled := message.needsCanceled }
  else if m.alive ≠ message.alive then { m with alive := message.alive }
  else m

section
variable [DecidableEq ν]

namespace World

variable (w : World ν)

def mission (n : ν) : Option Mission := (w.missions.find? fun e => e.1 = n).map Prod.snd

def alter (n : ν) (f : Mission → Mission) : World ν :=
  { w with missions := w.missions.map fun e => if e.1 = n then (e.1, f e.2) else e }

def drop (n : ν) : World ν := { w with missions := w.missions.filter fun e => e.1 ≠ n }

/-- `update_status`: a row that is gone is not written. -/
def store (n : ν) (s : Status) : World ν :=
  { w with rows := update w.rows n ((w.rows n).map fun r => { r with status := s }) }

def eraseRow (n : ν) : World ν := { w with rows := update w.rows n none }

def setStatus (n : ν) (s : Status) : World ν :=
  { w.alter n fun m => { m with status := s } with queued := update w.queued n (some s) }

/-- `_remember_finished` -/
def remember (limit : ℕ) (n : ν) : World ν :=
  let finished := w.finished.filter (fun k => k ≠ n) ++ [n]
  { w with finished := finished.drop (finished.length - limit) }

def forget (n : ν) : World ν := { w with finished := w.finished.filter fun k => k ≠ n }

/-- The first part of `_on_mission_change`: a name that is not in the queue. -/
def onUnknown (n : ν) (message : Mission) : World ν :=
  if !message.alive then w.forget n
  else
    let w := if message.looksFreshlyCreated then w.forget n else w
    if n ∈ w.finished then w
    else if message.status.state.done then w
    else if message.status.started then { w with missions := (n, message) :: w.missions }
    else { w with missions := w.missions ++ [(n, message)] }

/-- The rest of it: a name in the queue. `ok` says whether its database call succeeds. -/
def onKnown (n : ν) (message : Mission) (ok : Bool) (m : Mission) : World ν :=
  let m := updateMissionFromApi m message
  if w.current = some n then
    w.alter n fun _ => if m.alive then m else { m with needsCanceled := true }
  else if !message.alive then
    if ok then ((w.alter n fun _ => m).eraseRow n).drop n else w.alter n fun _ => m
  else if message.needsCanceled then
    let s : Status := { m.status with state := .canceled }
    let w := w.alter n fun _ => { m with status := s }
    if ok ∧ (w.rows n).isSome then (w.store n s).drop n else w
  else w.alter n fun _ => m

def onMissionChange (n : ν) (message : Mission) (ok : Bool) : World ν :=
  match w.mission n with
  | none => w.onUnknown n message
  | some m => w.onKnown n message ok m

/-- `_process_mission_change` of the server, then the robot's controller. -/
def process (n : ν) (message : Mission) (ok : Bool) : World ν :=
  if message.status.state.done then
    if !message.alive ∧ ok then w.eraseRow n else w
  else w.onMissionChange n message ok

end World

/-- The mission `_try_start_mission` picks: one that already started goes first. -/
def pickFrom (missions : List (ν × Mission)) : Option ν :=
  ((missions.find? fun e => e.2.status.started) <|> missions.head?).map Prod.fst

def step (limit : ℕ) (w : World ν) : Act ν → Option (World ν)
  | .create n =>
    if w.rows n = none then
      some { w with rows := update w.rows n (some (.created w.born)), born := w.born + 1 }
    else none
  | .cancel n =>
    (w.rows n).map fun r => { w with rows := update w.rows n (some { r with needsCanceled := true }) }
  | .markDelete n =>
    (w.rows n).map fun r => { w with rows := update w.rows n (some { r with alive := false }) }
  | .delete n => some (w.eraseRow n)
  | .deliver n => (w.rows n).map fun r => { w with inbox := w.inbox ++ [(n, r)] }
  | .restart => some (.fresh w.rows w.born)
  | .handle ok =>
    match w.inbox with
    | [] => none
    | (n, message) :: rest => some (World.process { w with inbox := rest } n message ok)
  | .pick =>
    if w.current = none then
      (pickFrom w.missions).map fun n => { w with current := some n, tree := false }
    else none
  | .assignRunId id ok => do
    let n ← w.current
    let m ← w.mission n
    if !w.tree ∧ m.status.runId = none ∧ m.status.started = false ∧ w.inFlight n = none then
      if ok ∧ (w.rows n).isSome then
        let s : Status := { m.status with runId := some id }
        some ((({ w with queued := update w.queued n none } : World ν).alter n
          fun m => { m with status := s }).store n s)
      else some w
    else none
  | .dispatch => do
    let n ← w.current
    let m ← w.mission n
    if !w.tree ∧ !m.needsCanceled ∧ (m.status.runId.isSome ∨ m.status.started = true) then
      some { w with tree := true, starts := (n, m.inc) :: w.starts }
    else none
  | .run => do
    let n ← w.current
    let m ← w.mission n
    if w.tree ∧ !m.status.state.done then
      some (w.setStatus n { m.status with state := .running, started := true })
    else none
  | .finish s => do
    let n ← w.current
    let m ← w.mission n
    if s.done then some (w.setStatus n { m.status with state := s }) else none
  | .getNext => do
    let n ← w.current
    let m ← w.mission n
    if m.status.state.done then some { (w.remember limit n).drop n with current := none } else none
  | .writeStarts n =>
    if w.inFlight n = none ∧ (w.queued n).isSome then
      some { w with inFlight := update w.inFlight n (w.queued n), queued := update w.queued n none }
    else none
  | .writeLands n =>
    (w.inFlight n).map fun s =>
      { w.store n s with
        inFlight := update w.inFlight n none
        queued := if (w.rows n).isSome then w.queued else update w.queued n none }
  | .writeFails n =>
    (w.inFlight n).map fun s =>
      { w with
        inFlight := update w.inFlight n none
        queued := update w.queued n (w.queued n <|> some s) }

end

def Few (limit : ℕ) (w : World ν) : Act ν → Prop
  | .getNext => w.finished.length < limit
  | _ => True

/-- No row that looks freshly created comes back for a mission that was dispatched and has left
the queue. -/
def Timely [DecidableEq ν] (limit : ℕ) (w : World ν) : Act ν → Prop
  | .handle _ => ∀ n m, w.inbox.head? = some (n, m) → m.looksFreshlyCreated = true →
    w.mission n = none → (n, m.inc) ∉ w.starts
  | a => Few limit w a

end CloudServer.Requeue
