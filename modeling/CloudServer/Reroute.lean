import CloudServer.Steps

/-! A mission's row between the API's edits and reroutes and the dispatcher, which works on a copy of
its own: who reads and writes which revision of the routes. -/
namespace CloudServer.Reroute
open Function

variable {ν ρ κ : Type} [DecidableEq ν]

structure Spec (ν ρ κ : Type) where
  missionTree : ν → Option ρ
  plannedPath : Option κ
  routeRev : ℕ

inductive State
  | pending
  | running
  | done
deriving DecidableEq

/-- `commit` is the dispatcher's status write that the status goes back to. -/
structure Status (ν : Type) where
  state : State
  nodeDone : ν → Bool
  appliedRouteRev : ℕ
  commit : ℕ

structure Row (ν ρ κ : Type) where
  spec : Spec ν ρ κ
  status : Status ν

/-- The body of a PUT: edits of a PENDING mission, and a reroute (`update_nodes`). -/
structure Put (ν ρ κ : Type) where
  missionTree : Option (ν → Option ρ)
  plannedPath : Option (Option κ)
  updateNodes : List (ν × ρ)

def foldRoutes (tree : ν → Option ρ) (us : List (ν × ρ)) (n : ν) : Option ρ :=
  match us.lookup n with
  | some r => some r
  | none => tree n

def nodeStatus (tree : ν → Option ρ) (nodeDone : ν → Bool) (n : ν) : Bool :=
  (tree n).isSome && nodeDone n

def Spec.view (s : Spec ν ρ κ) : (ν → Option ρ) × ℕ := (s.missionTree, s.routeRev)

namespace Put

variable (p : Put ν ρ κ)

def edits : Bool := p.missionTree.isSome || p.plannedPath.isSome

def setsTree : Bool := p.missionTree.isSome || !p.updateNodes.isEmpty

def sets (n : ν) : Bool := p.missionTree.isSome || (p.updateNodes.lookup n).isSome

def edit (m : Row ν ρ κ) : Row ν ρ κ where
  spec := { m.spec with
    missionTree := p.missionTree.getD m.spec.missionTree
    plannedPath := p.plannedPath.getD m.spec.plannedPath }
  status := match p.missionTree with
    | some tree => { m.status with nodeDone := nodeStatus tree m.status.nodeDone }
    | none => m.status

def store (edited stored : Spec ν ρ κ) : Spec ν ρ κ where
  missionTree := if p.setsTree then edited.missionTree else stored.missionTree
  plannedPath := if p.plannedPath.isSome || !p.updateNodes.isEmpty then edited.plannedPath
    else stored.plannedPath
  routeRev := if p.updateNodes.isEmpty then stored.routeRev else edited.routeRev

end Put

/-- `MissionObjectV1.update`. -/
def Row.update (m : Row ν ρ κ) (us : List (ν × ρ)) : Option (Row ν ρ κ) :=
  if m.status.state = .done then none
  else if us.all fun u => (m.spec.missionTree u.1).isSome &&
      !(decide (m.status.state = .running) && m.status.nodeDone u.1) then
    some { m with spec := ⟨foldRoutes m.spec.missionTree us, none, m.spec.routeRev + 1⟩ }
  else none

def Put.apply (p : Put ν ρ κ) (m : Row ν ρ κ) : Option (Row ν ρ κ) :=
  if p.updateNodes.isEmpty then some (p.edit m) else (p.edit m).update p.updateNodes

/-- A PUT between its read and its write of the spec (the blocked-node query and the planner are
asked meanwhile), or before its write of the status. -/
inductive Request (ν ρ κ : Type)
  | measuring (p : Put ν ρ κ) (read : Row ν ρ κ)
  | storingStatus (status : Status ν)

/-- The dispatcher with the mission: queued, between `_try_start_mission` and the behavior tree, at
the write of a new route over the spec it had before, or dispatched. -/
inductive Stage (ν ρ κ : Type)
  | waiting
  | starting
  | storing (base : Spec ν ρ κ) (planned : Bool)
  | dispatched

structure Mission (ν ρ κ : Type) where
  spec : Spec ν ρ κ
  status : Status ν
  stage : Stage ν ρ κ

namespace Mission

variable (c : Mission ν ρ κ)

/-- `_apply_spec_edit` before the dispatch. -/
def applySpecEdit (m : Spec ν ρ κ) : Mission ν ρ κ :=
  { c with
    spec := m
    status := { c.status with nodeDone := nodeStatus m.missionTree c.status.nodeDone } }

def adopt (tree new : ν → Option ρ) (n : ν) : Option ρ :=
  match tree n, new n with
  | some _, some r => some r
  | old, _ => old

/-- The reroute of `_update_mission_from_api`. -/
def updateFromApi (m : Spec ν ρ κ) : Mission ν ρ κ :=
  if c.status.appliedRouteRev < m.routeRev then
    { c with
      spec := ⟨adopt c.spec.missionTree m.missionTree, m.plannedPath, m.routeRev⟩
      status := { c.status with appliedRouteRev := m.routeRev } }
  else c

/-- `_settle_route_rev`. -/
def settle : Mission ν ρ κ :=
  { c with
    stage := .starting
    status := if c.spec.routeRev ≤ c.status.appliedRouteRev then c.status
      else { c.status with appliedRouteRev := c.spec.routeRev } }

def bump (tree : ν → Option ρ) (path : Option κ) (planned : Bool) : Mission ν ρ κ where
  spec := ⟨tree, path, c.spec.routeRev + 1⟩
  status := { c.status with appliedRouteRev := c.spec.routeRev + 1 }
  stage := .storing c.spec planned

/-- `_replan_goto` with the planner's answer for the route node. -/
def replanGoto (n : ν) (r : ρ) (path : Option κ) : Mission ν ρ κ :=
  c.bump (update c.spec.missionTree n (some r)) path true

/-- `_enrich_routes` with the planner's answers. -/
def enrichRoutes (us : List (ν × ρ)) : Mission ν ρ κ :=
  c.bump (foldRoutes c.spec.missionTree us) c.spec.plannedPath false

def known : Spec ν ρ κ :=
  match c.stage with
  | .storing base _ => base
  | _ => c.spec

end Mission

/-- `owed` says that an API write was notified after the last read for a delivery, `writing` is the
status write in flight, and `committed` the last one that landed. `log` has the requests whose
spec was stored and `revs` the revisions given to stored reroutes, replans and enrichments, newest first. -/
structure World (ν ρ κ : Type) where
  row : Row ν ρ κ
  owed : Bool
  inbox : List (Row ν ρ κ)
  requests : ℕ → Option (Request ν ρ κ)
  mission : Option (Mission ν ρ κ)
  finished : Bool
  writing : Option (Status ν)
  committed : ℕ
  log : List (Put ν ρ κ)
  revs : List ℕ

def World.created (tree : ν → Option ρ) (path : Option κ) : World ν ρ κ where
  row := ⟨⟨tree, path, 0⟩, ⟨.pending, fun _ => false, 0, 0⟩⟩
  owed := true
  inbox := []
  requests := fun _ => none
  mission := none
  finished := false
  writing := none
  committed := 0
  log := []
  revs := []

def World.Quiet (w : World ν ρ κ) : Prop := w.owed = false ∧ w.inbox = []

inductive Act (ν ρ κ : Type)
  | put (i : ℕ) (p : Put ν ρ κ)
  | refuse (i : ℕ)
  | write (i : ℕ)
  | writeStatus (i : ℕ)
  | deliver
  | handle
  | settle
  | replan (n : ν) (r : ρ) (path : Option κ)
  | enrich (us : List (ν × ρ))
  | store (ok : Bool)
  | giveUp
  | dispatch
  | progress (state : State) (nodeDone : ν → Bool)
  | startCommit
  | land
  | lose
  | finish

def write (w : World ν ρ κ) (i : ℕ) (p : Put ν ρ κ) (edited : Row ν ρ κ) : World ν ρ κ :=
  { w with
    row := { w.row with spec := p.store edited.spec w.row.spec }
    owed := w.owed || p.edits || p.setsTree
    requests := update w.requests i
      (if p.missionTree.isSome then some (.storingStatus edited.status) else none)
    log := p :: w.log
    revs := if p.updateNodes.isEmpty then w.revs else edited.spec.routeRev :: w.revs }

/-- `_on_mission_change`. -/
def handle (w : World ν ρ κ) (m : Row ν ρ κ) (rest : List (Row ν ρ κ)) : Option (World ν ρ κ) :=
  match w.mission with
  | none =>
    if w.finished || decide (m.status.state = .done) then some { w with inbox := rest }
    else some { w with inbox := rest, mission := some ⟨m.spec, m.status, .waiting⟩ }
  | some c =>
    match c.stage with
    | .waiting => some { w with inbox := rest, mission := some (c.applySpecEdit m.spec) }
    | .dispatched => some { w with inbox := rest, mission := some (c.updateFromApi m.spec) }
    | _ => none

def store (w : World ν ρ κ) (c : Mission ν ρ κ) (planned ok : Bool) : World ν ρ κ :=
  { w with
    mission := some { c with stage := .starting }
    row := if ok then
        { w.row with
          spec := ⟨c.spec.missionTree,
            if planned then c.spec.plannedPath else w.row.spec.plannedPath, c.spec.routeRev⟩ }
      else w.row
    revs := if ok then c.spec.routeRev :: w.revs else w.revs }

def step (w : World ν ρ κ) : Act ν ρ κ → Option (World ν ρ κ)
  | .put i p =>
    match w.requests i with
    | none =>
      if p.edits = true → w.row.status.state = .pending then
        some { w with requests := update w.requests i (some (.measuring p w.row)) }
      else none
    | some _ => none
  | .refuse i =>
    match w.requests i with
    | some (.measuring _ _) => some { w with requests := update w.requests i none }
    | _ => none
  | .write i =>
    match w.requests i with
    | some (.measuring p m) =>
      match p.apply m with
      | some edited => some (write w i p edited)
      | none => some { w with requests := update w.requests i none }
    | _ => none
  | .writeStatus i =>
    match w.requests i with
    | some (.storingStatus s) => some { w with
        row := { w.row with status := s }, owed := true, requests := update w.requests i none }
    | _ => none
  | .deliver => some { w with inbox := w.inbox ++ [w.row], owed := false }
  | .handle =>
    match w.inbox with
    | m :: rest => handle w m rest
    | [] => none
  | .settle => w.mission.bind fun c =>
    match c.stage with
    | .waiting => some { w with mission := some c.settle }
    | _ => none
  | .replan n r path => w.mission.bind fun c =>
    match c.stage with
    | .starting =>
      if (c.spec.missionTree n).isSome then some { w with mission := some (c.replanGoto n r path) }
      else none
    | _ => none
  | .enrich us => w.mission.bind fun c =>
    match c.stage with
    | .starting =>
      if us.all fun u => (c.spec.missionTree u.1).isSome then
        some { w with mission := some (c.enrichRoutes us) }
      else none
    | _ => none
  | .store ok => w.mission.bind fun c =>
    match c.stage with
    | .storing _ planned => some (store w c planned ok)
    | _ => none
  | .giveUp => w.mission.bind fun c =>
    match c.stage with
    | .starting => some { w with mission := some { c with stage := .waiting } }
    | _ => none
  | .dispatch => w.mission.bind fun c =>
    match c.stage with
    | .starting => some { w with mission := some { c with stage := .dispatched } }
    | _ => none
  | .progress state nodeDone => w.mission.bind fun c =>
    match c.stage with
    | .dispatched => some { w with
        mission := some { c with status := { c.status with state := state, nodeDone := nodeDone } } }
    | _ => none
  | .startCommit => w.mission.bind fun c =>
    match w.writing with
    | none => some { w with writing := some { c.status with commit := w.committed + 1 } }
    | some _ => none
  | .land => w.writing.bind fun s =>
    some { w with row := { w.row with status := s }, writing := none, committed := s.commit }
  | .lose => w.writing.bind fun _ => some { w with writing := none }
  | .finish => w.mission.bind fun c =>
    match c.stage with
    | .dispatched => some { w with mission := none, finished := true }
    | _ => none

end CloudServer.Reroute
