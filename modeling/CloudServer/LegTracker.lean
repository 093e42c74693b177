import CloudServer.OrderIds
import CloudServer.Steps

/-! The legs of a mission run: the orders built from its routes, the nodes the robot reports, the
legs they end, and the planned length of a leg. -/
namespace CloudServer.LegTracker
open Scan OrderIds

structure Waypoint (K : Type) where
  x : K
  y : K
  theta : K
  mapId : Text
deriving DecidableEq

structure TrajectoryLeg (K : Type) where
  from_index : ℕ
  to_index : ℕ
  points : List (K × K)
deriving DecidableEq

structure Route (K : Type) where
  waypoints : List (Waypoint K)
  trajectory : Option (List (TrajectoryLeg K))
deriving DecidableEq

inductive Node (K : Type)
  | route (r : Route K)
  | move
  | action
  | control
deriving DecidableEq

structure Mission (K : Type) where
  name : Text
  runId : Option Text
  orderRev : ℕ
  passesCompleted : ℕ
  missionTree : List (Node K)
  plannedPath : List Text
deriving DecidableEq

variable {K : Type}

def Node.size : Node K → ℕ
  | .route r => r.waypoints.length
  | _ => 0

def routeRows (idx offset : ℕ) : List (Node K) → List (ℕ × ℕ × List (Waypoint K))
  | [] => []
  | .route r :: tree =>
    (idx, offset, r.waypoints) :: routeRows (idx + 1) (offset + r.waypoints.length) tree
  | _ :: tree => routeRows (idx + 1) offset tree

namespace Mission

variable (m : Mission K)

def orderPrefix : Text := runPrefix m.name m.runId m.orderRev

def routeTable : List (ℕ × ℕ × List (Waypoint K)) := routeRows 0 0 m.missionTree

def planned : Option (List Text) :=
  if m.plannedPath ≠ [] ∧ m.plannedPath.length = (m.missionTree.map Node.size).sum then
    some m.plannedPath
  else none

def waypoints (idx : ℕ) : Option (List (Waypoint K)) :=
  match m.missionTree[idx]? with
  | some (.route r) => some r.waypoints
  | _ => none

/-- The topomap id of a waypoint of a route node: its place in the concatenated route. -/
def topomap (idx wp : ℕ) : Option Text :=
  m.planned.bind fun path => path[((m.missionTree.take idx).map Node.size).sum + wp]?

end Mission

structure Math (K : Type) where
  hypot : K → K → K
  round3 : K → K
  wrapAngle : K → K

structure Limits (K : Type) where
  speedMax : Option K
  accelerationMax : Option K
  angularSpeedMax : Option K

structure Message (K : Type) where
  lastNodeId : Text
  orderId : Text
  driving : Option Bool
  ts : K
  received : K
  limits : Limits K
  defaultMap : Option Text

structure Reach (K : Type) where
  vdaNode : Text
  seq : ℕ
  nodeIdx : ℕ
  ts : K
  received : K
  orderRev : ℕ
  pose : Option (Waypoint K)
  wp : Option ℕ
  topomap : Option Text
  stopped : K
  isVirtual : Bool

/-- What is measured of a robot between two waypoints. -/
structure Leg (K : Type) where
  seq : ℕ
  passIndex : ℕ
  orderRev : ℕ
  fromVdaNode : Text
  toVdaNode : Text
  fromTopomapNode : Option Text
  toTopomapNode : Option Text
  mapId : Option Text
  startedAt : K
  endedAt : K
  receivedStartedAt : K
  receivedEndedAt : K
  duration : K
  stopped : K
  straight : Option K
  planned : Option K
  expected : Option K

structure Tracker (K : Type) where
  nLegs : ℕ
  passIndex : Option ℕ
  anchor : Option (Reach K)
  lastNode : Option Text
  prev : Option (K × Bool)

def Tracker.new : Tracker K := ⟨0, none, none, none, none⟩

section
variable [Field K] [LinearOrder K]

namespace Math

variable (math : Math K)

def dist (a b : Waypoint K) : K := math.hypot (b.x - a.x) (b.y - a.y)

def expectedSeconds (distance heading : Option K) (limits : Limits K) : Option K :=
  let known (limit : Option K) := limit.filter fun v => 0 < v
  let drive := (known limits.speedMax).bind fun v => distance.map fun d => max 0 d / v
  let accelerate := (known limits.speedMax).bind fun v =>
    (known limits.accelerationMax).map fun a => v / a
  let turn := (known limits.angularSpeedMax).bind fun v =>
    heading.map fun h => |math.wrapAngle h| / v
  let terms := [drive, accelerate, turn].filterMap id
  if terms = [] then none else some (math.round3 terms.sum)

def straight (a b : Option (Waypoint K)) : Option K :=
  a.bind fun a => b.map fun b => math.dist a b

def leg (t : Tracker K) (start stop : Reach K) (limits : Limits K) (mapId : Option Text) : Leg K :=
  let straight := math.straight start.pose stop.pose
  let heading := start.pose.bind fun a => stop.pose.map fun b => b.theta - a.theta
  let duration := max 0 (stop.ts - start.ts)
  { seq := t.nLegs + 1
    passIndex := t.passIndex.getD 0
    orderRev := stop.orderRev
    fromVdaNode := start.vdaNode
    toVdaNode := stop.vdaNode
    fromTopomapNode := start.topomap
    toTopomapNode := stop.topomap
    mapId := mapId
    startedAt := start.ts
    endedAt := stop.ts
    receivedStartedAt := start.received
    receivedEndedAt := stop.received
    duration := math.round3 duration
    stopped := math.round3 (min start.stopped duration)
    straight := straight.map math.round3
    planned := straight.map math.round3
    expected := straight.bind fun d => math.expectedSeconds (some d) heading limits }

end Math

namespace Tracker

variable (t : Tracker K)

def forPass (pass : ℕ) : Tracker K :=
  if t.passIndex = some pass then t else ⟨t.nLegs, some pass, none, none, none⟩

def clock (msg : Message K) : Tracker K :=
  let anchor := t.anchor.map fun a =>
    match t.prev with
    | some (ts, false) =>
      if 0 < msg.ts - ts then { a with stopped := a.stopped + min (msg.ts - ts) 30 } else a
    | _ => a
  { t with anchor := anchor, prev := some (msg.ts, msg.driving.getD true) }

/-- The start node of an order the robot echoes before it reports a node of it. -/
def echo (msg : Message K) (m : Mission K) : Tracker K :=
  if t.anchor.isNone && isOrderOf m.orderPrefix msg.orderId then
    match orderNodeIndex msg.orderId with
    | some idx =>
      if (m.routeTable.lookup idx).isSome then
        { t with anchor := some ⟨nodeId m.orderPrefix idx 0, 0, idx, msg.ts, msg.received, m.orderRev,
          none, none, none, 0, true⟩ }
      else t
    | none => t
  else t

def base (msg : Message K) (m : Mission K) (idx : ℕ) : Tracker K :=
  let fresh : Reach K := ⟨msg.lastNodeId, 0, idx, msg.ts, msg.received, m.orderRev, none, none, none, 0,
    false⟩
  match t.anchor with
  | none => { t with anchor := some fresh }
  | some a =>
    if a.isVirtual then { t with anchor := some fresh }
    else if a.nodeIdx ≠ idx then
      { t with anchor := some { a with ts := msg.ts, received := msg.received, stopped := 0, nodeIdx := idx } }
    else t

def reach (math : Math K) (msg : Message K) (m : Mission K) (idx seq offset : ℕ)
    (waypoints : List (Waypoint K)) : Tracker K × Option (Leg K) :=
  match waypoints[seq / 2 - 1]? with
  | none => (t, none)
  | some pose =>
    if seq < 2 then (t, none)
    else
      let wp := seq / 2 - 1
      let stop : Reach K := ⟨msg.lastNodeId, seq, idx, msg.ts, msg.received, m.orderRev, some pose,
        some wp, m.planned.bind fun path => path[offset + wp]?, 0, false⟩
      let mapId := msg.defaultMap <|> if pose.mapId = [] then none else some pose.mapId
      match t.anchor with
      | none => ({ t with anchor := some stop }, none)
      | some start =>
        ({ t with anchor := some stop, nLegs := t.nLegs + 1 },
          some (math.leg t start stop msg.limits mapId))

def progress (math : Math K) (msg : Message K) (m : Mission K) : Tracker K × Option (Leg K) :=
  let t := { t with lastNode := some msg.lastNodeId }
  let idx := nodeIndex msg.lastNodeId
  match idx.bind fun idx => (m.routeTable.lookup idx).map fun row => (idx, row) with
  | none => ({ t with anchor := none }, none)
  | some (idx, offset, waypoints) =>
    match nodeSequence msg.lastNodeId with
    | none => (t, none)
    | some 0 => (t.base msg m idx, none)
    | some seq => t.reach math msg m idx seq offset waypoints

def observe (math : Math K) (msg : Message K) (m : Mission K) : Tracker K × Option (Leg K) :=
  let t := (t.forPass m.passesCompleted).clock msg
  if !isNodeOf m.orderPrefix msg.lastNodeId then (t.echo msg m, none)
  else if t.lastNode = some msg.lastNodeId then (t, none)
  else t.progress math msg m

end Tracker

/-- `-n(\d+)-s(\d+)$` at the start of the text. -/
def pairSuffix (t : Text) : Option (Text × Text) := do
  let (ds, r) ← field 'n' t
  let s ← sequenceSuffix r
  some (ds, s)

def parseNode (node : Text) : Option (ℕ × ℕ) :=
  (search pairSuffix node).map fun m => (int m.2.1, int m.2.2)

structure Trajectory (K : Type) where
  waypoints : List (Waypoint K)
  legs : List (TrajectoryLeg K)

def parseTrajectory (r : Route K) : Option (Trajectory K) :=
  let legs := (r.trajectory.getD []).filter fun t => 2 ≤ t.points.length
  if legs = [] then none else some ⟨r.waypoints, legs⟩

def Trajectory.leg (t : Trajectory K) (i j : ℕ) : Option (List (K × K)) :=
  (t.legs.reverse.find? fun l => l.from_index = i ∧ l.to_index = j).map TrajectoryLeg.points

def trajectories (tree : List (Node K)) (idx : ℕ) : Option (Trajectory K) :=
  match tree[idx]? with
  | some (.route r) => parseTrajectory r
  | _ => none

inductive PlanSource
  | trajectory
  | straight
  | stale
deriving DecidableEq

namespace Math

variable (math : Math K)

def polyline (points : List (K × K)) : K :=
  ((points.zip points.tail).map fun p => math.hypot (p.2.1 - p.1.1) (p.2.2 - p.1.2)).sum

/-- Whether two nodes are consecutive waypoints of one route node: it and the second one. -/
def consecutive (src dst : Option (ℕ × ℕ)) : Option (ℕ × ℕ) :=
  match src, dst with
  | some src, some dst =>
    if src.1 = dst.1 ∧ 4 ≤ dst.2 ∧ dst.2 % 2 = 0 ∧ src.2 = dst.2 - 2 then some (dst.1, dst.2 / 2 - 1)
    else none
  | _, _ => none

def planLength (tolerance : K) (leg : Leg K) (trajs : ℕ → Option (Trajectory K)) :
    Option K × Option PlanSource :=
  match consecutive (parseNode leg.fromVdaNode) (parseNode leg.toVdaNode) with
  | none => (leg.straight, leg.straight.map fun _ => .straight)
  | some (idx, k) =>
    match (trajs idx).bind fun traj => (traj.leg (k - 1) k).map fun points => (traj, points) with
    | none => (leg.straight, leg.straight.map fun _ => .straight)
    | some (traj, points) =>
      match leg.straight, traj.waypoints[k - 1]?, traj.waypoints[k]? with
      | some straight, some a, some b =>
        if |math.dist a b - straight| ≤ tolerance then (some (math.polyline points), some .trajectory)
        else (some straight, some .stale)
      | straight, _, _ => (straight, straight.map fun _ => .stale)

end Math
end

structure Source (K : Type) where
  idx : ℕ
  wp : ℕ
  pose : Waypoint K

structure OrderNode (K : Type) where
  nodeId : Text
  source : Option (Source K)

/-- An order and what it was built from: the whole stored route, for an order of a route node, and
how many of its first waypoints were left out. -/
structure Order (K : Type) where
  head : Text
  idx : ℕ
  stored : Option (List (Waypoint K))
  waypointOffset : ℕ
  nodes : List (OrderNode K)

def fromRoute (p : Text) (idx offset : ℕ) (waypoints : List (Waypoint K)) : List (OrderNode K) :=
  ⟨nodeId p idx 0, none⟩ :: waypoints.zipIdx.map fun w =>
    ⟨nodeId p idx (w.2 * 2 + 2), some ⟨idx, offset + w.2, w.1⟩⟩

/-- `skipped` more waypoints are left out because the robot has passed them. -/
def buildOrder (m : Mission K) (idx waypointOffset skipped : ℕ) : Option (Order K) :=
  let p := m.orderPrefix
  match m.missionTree[idx]? with
  | some (.route r) =>
    let offset := min waypointOffset (r.waypoints.length - 1) + skipped
    some ⟨p, idx, some r.waypoints, offset, fromRoute p idx offset (r.waypoints.drop offset)⟩
  | some .move => some ⟨p, idx, none, 0, [⟨nodeId p idx 0, none⟩, ⟨nodeId p idx 2, none⟩]⟩
  | some .action => some ⟨p, idx, none, 0, [⟨nodeId p idx 0, none⟩]⟩
  | _ => none

structure Reached (K : Type) where
  nodeId : Text
  source : Option (Source K)
  topomap : Option Text

structure World (K : Type) where
  mission : Mission K
  orders : List (Order K)
  tracker : Tracker K
  reports : List (Reached K)

def World.begin (m : Mission K) : World K := ⟨m, [], .new, []⟩

inductive Act (K : Type)
  | build (idx waypointOffset skipped : ℕ)
  | revise
  | reroute (idx : ℕ) (r : Route K) (plannedPath : List Text)
  | pass (runId : Text)
  | report (order node : ℕ) (msg : Message K)
  | silent (msg : Message K)

section
variable [Field K] [LinearOrder K] (math : Math K)

def World.observe (w : World K) (msg : Message K) : World K × Option (Leg K) :=
  let r := w.tracker.observe math msg w.mission
  ({ w with tracker := r.1 }, r.2)

def stepLeg (w : World K) : Act K → Option (World K × Option (Leg K))
  | .build idx waypointOffset skipped =>
    (buildOrder w.mission idx waypointOffset skipped).map fun o =>
      ({ w with orders := o :: w.orders }, none)
  | .revise => some ({ w with mission := { w.mission with orderRev := w.mission.orderRev + 1 } }, none)
  | .reroute idx r plannedPath =>
    match w.mission.missionTree[idx]? with
    | some (.route _) =>
      some ({ w with
        mission := { w.mission with
          missionTree := w.mission.missionTree.set idx (.route r)
          plannedPath := plannedPath } }, none)
    | _ => none
  | .pass runId =>
    some ({ w with
      mission := { w.mission with
        passesCompleted := w.mission.passesCompleted + 1
        runId := some runId
        orderRev := 0 } }, none)
  | .report order node msg => do
    let o ← w.orders[order]?
    let n ← o.nodes[node]?
    let r := w.observe math { msg with lastNodeId := n.nodeId }
    let topomap := n.source.bind fun s => w.mission.topomap s.idx s.wp
    some ({ r.1 with reports := ⟨n.nodeId, n.source, topomap⟩ :: w.reports }, r.2)
  | .silent msg => some (w.observe math { msg with lastNodeId := [] })

def step (w : World K) (a : Act K) : Option (World K) := (stepLeg math w a).map Prod.fst

end

/-- A reported waypoint of the current revision is one of an order that left no waypoint out and
was built from the route that is stored now. -/
def Uncut (w : World K) : Act K → Prop
  | .report order node _ => ∀ o, w.orders[order]? = some o → o.head = w.mission.orderPrefix → 0 < node →
    ∀ stored, o.stored = some stored →
      o.waypointOffset = 0 ∧ w.mission.waypoints o.idx = some stored
  | _ => True

end CloudServer.LegTracker
