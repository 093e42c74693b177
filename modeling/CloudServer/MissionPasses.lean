import CloudServer.Steps

/-! The passes of a repeating mission: its behavior tree, its status in the dispatcher and in the
database, the writes between them, and crashes of the dispatcher. -/
namespace CloudServer.MissionPasses

abbrev Node := ℕ
abbrev RunId := ℕ

inductive MissionState
  | pending
  | running
  | completed
  | canceled
  | failed
deriving DecidableEq

def MissionState.done : MissionState → Bool
  | .completed | .canceled | .failed => true
  | _ => false

inductive TreeStatus
  | success
  | failure
  | running
deriving DecidableEq

/-- `tree2mission_state`. -/
def TreeStatus.toState : TreeStatus → MissionState
  | .success => .completed
  | .failure => .failed
  | .running => .running

/-- `MissionLeafNode.update`: a pending leaf counts as running. -/
def leafStatus : MissionState → TreeStatus
  | .pending | .running => .running
  | .completed => .success
  | .canceled | .failed => .failure

inductive Tree
  | leaf (node : Node)
  | constant (success : Bool)
  | sequence (children : List Tree)
  | selector (children : List Tree)

mutual

def Tree.status (nodes : Node → MissionState) : Tree → TreeStatus
  | .leaf node => leafStatus (nodes node)
  | .constant success => if success then .success else .failure
  | .sequence children => sequenceStatus nodes children
  | .selector children => selectorStatus nodes children

def sequenceStatus (nodes : Node → MissionState) : List Tree → TreeStatus
  | [] => .success
  | child :: rest => match child.status nodes with
    | .success => sequenceStatus nodes rest
    | status => status

def selectorStatus (nodes : Node → MissionState) : List Tree → TreeStatus
  | [] => .failure
  | child :: rest => match child.status nodes with
    | .failure => selectorStatus nodes rest
    | status => status

end

/-- `MissionStatusV1`, as far as passes go: `progress` is `task_status`, `started` whether there is a
`start_timestamp`, `sentOrder` the record of the last order. -/
structure Status where
  state : MissionState
  nodes : Node → MissionState
  progress : Node → Option ℕ
  started : Bool
  runId : Option RunId
  passesCompleted : ℕ
  orderRev : ℕ
  sentOrder : Option ℕ

def Status.new : Status := ⟨.pending, fun _ => .pending, fun _ => none, false, none, 0, 0, none⟩

/-- `_set_mission_state`. -/
def Status.setState (x : Status) (state : MissionState) : Status :=
  if state = x.state then x
  else { x with
    state := state
    nodes := fun n => if state.done && !(x.nodes n).done then state else x.nodes n
    started := x.started || state = .running }

/-- The status of the next pass in `_start_next_pass`. -/
def Status.nextPass (x : Status) (id : RunId) : Status :=
  { x with
    passesCompleted := x.passesCompleted + 1
    state := .pending
    nodes := fun _ => .pending
    progress := fun _ => none
    runId := some id
    orderRev := 0
    sentOrder := none }

structure Mission where
  repeats : ℕ
  tree : Tree

def Mission.willRunAnotherPass (m : Mission) (x : Status) : Bool :=
  x.state = .completed && (m.repeats = 0 || x.passesCompleted + 1 < m.repeats)

inductive Phase
  | held
  | assigning
  | running
  | ending
  | next (status : Status)
  | counting

/-- The mission in the memory of the dispatcher; `queued` when a write of its status waits. -/
structure Live where
  status : Status
  phase : Phase
  queued : Bool

structure Pass where
  runId : RunId
  status : Status

/-- The stored status, the dispatcher (`finished` is `_finished_missions`), and an account: the run
ids made so far, the passes begun, the leaves completed under a run id, the run ids whose tree
succeeded. -/
structure World where
  stored : Status
  live : Option Live
  finished : Bool
  ids : ℕ
  began : List Pass
  completions : List (RunId × Node)
  passed : List RunId

def World.new : World := ⟨.new, none, false, 0, [], [], []⟩

def World.land (w : World) (x : Status) : World :=
  { w with
    stored := x
    began := match x.runId with
      | none => w.began
      | some id => if w.stored.runId = some id then w.began else ⟨id, x⟩ :: w.began }

inductive Act
  | receive
  | hold
  | start
  | assigned
  | setNode (node : Node) (state : MissionState)
  | reach (node : Node) (waypoint : ℕ)
  | bumpOrderRev
  | sendOrder (record : ℕ)
  | tick
  | complete
  | nextPass
  | counted
  | write
  | crash

/-- A change of the status while the mission runs; its write is queued, or awaited. -/
def World.change (w : World) (f : Status → Status) : Option World :=
  match w.live with
  | some ⟨x, .running, _⟩ => some { w with live := some ⟨f x, .running, true⟩ }
  | _ => none

/-- `_on_mission_change` of a mission that is not in the queue. -/
def World.receive (w : World) : Option World :=
  match w.live with
  | some _ => none
  | none =>
    if w.stored.state.done then some w
    else if w.finished && !(w.stored.state = .pending && !w.stored.started) then some w
    else some { w with live := some ⟨w.stored, .held, false⟩, finished := false }

/-- `_try_start_mission` of a mission that is not held: `_assign_run_id`, or at once the tree. -/
def World.start (w : World) : Option World :=
  match w.live with
  | some ⟨x, .held, queued⟩ =>
    if x.runId = none ∧ x.started = false then
      some { w with
        live := some ⟨{ x with runId := some w.ids }, .assigning, queued⟩
        ids := w.ids + 1 }
    else some { w with live := some ⟨x, .running, queued⟩ }
  | _ => none

/-- `update_mission_from_behavior_tree`. -/
def World.tick (m : Mission) (w : World) : Option World :=
  match w.live with
  | some ⟨x, .running, queued⟩ =>
    let state := (m.tree.status x.nodes).toState
    some { w with
      live := some ⟨x.setState state, if state.done then .ending else .running,
        queued || state ≠ x.state⟩
      passed := if state = .completed then x.runId.toList ++ w.passed else w.passed }
  | _ => none

/-- `post_mission_completion` and `get_next_mission`, up to the write they await. -/
def World.complete (m : Mission) (w : World) : Option World :=
  match w.live with
  | some ⟨x, .ending, queued⟩ =>
    if m.willRunAnotherPass x then
      some { w with live := some ⟨x, .next (x.nextPass w.ids), queued⟩, ids := w.ids + 1 }
    else if x.state = .completed then
      some { w with live := some ⟨{ x with passesCompleted := x.passesCompleted + 1 }, .counting,
        queued⟩ }
    else some { w with live := none, finished := true }
  | _ => none

/-- A queued write takes effect where it reads the status; one that waits when an awaited write of
the mission lands is dropped. -/
def step (m : Mission) (w : World) : Act → Option World
  | .receive => w.receive
  | .hold => match w.live with
    | some ⟨x, .held, _⟩ => some { w with live := some ⟨x, .held, true⟩ }
    | _ => none
  | .start => w.start
  | .assigned => match w.live with
    | some ⟨x, .assigning, _⟩ => some { w.land x with live := some ⟨x, .running, false⟩ }
    | _ => none
  | .setNode node state =>
    (w.change fun x => { x with nodes := Function.update x.nodes node state }).map fun w' =>
      match w.live with
      | some ⟨x, _, _⟩ => if state = .completed then
          { w' with completions := x.runId.toList.map (·, node) ++ w.completions } else w'
      | none => w'
  | .reach node waypoint =>
    w.change fun x => { x with progress := Function.update x.progress node (some waypoint) }
  | .bumpOrderRev => w.change fun x => { x with orderRev := x.orderRev + 1 }
  | .sendOrder record => w.change fun x => { x with sentOrder := some record }
  | .tick => w.tick m
  | .complete => w.complete m
  | .nextPass => match w.live with
    | some ⟨_, .next y, _⟩ => some { w.land y with live := some ⟨y, .running, false⟩ }
    | _ => none
  | .counted => match w.live with
    | some ⟨x, .counting, _⟩ => some { w.land x with live := none, finished := true }
    | _ => none
  | .write => match w.live with
    | some ⟨x, phase, true⟩ => some { w.land x with live := some ⟨x, phase, false⟩ }
    | _ => none
  | .crash => some { w with live := none, finished := false }

end CloudServer.MissionPasses
