import CloudServer.OrderIds
import CloudServer.Dict
import CloudServer.Steps

/-! The orders and the instant actions that the dispatcher sends to a robot. The handlers of its
message loop decide when to call what is here; any order of the calls is a run. -/
namespace CloudServer.Dispatch

open Scan OrderIds

instance : DecidableEq RunId := fun a b => decidable_of_iff (a.text = b.text) RunId.ext_iff.symm

/-- `CancelPurpose`: what a cancelOrder is for. -/
inductive Purpose
  | mission
  | replace
  | stop
  | clear
deriving DecidableEq

inductive Ours
  | run
  | sent
  | dispatcher
  | any

/-- `SEND_NODE` and `NEW_REVISION`. -/
inductive Owed
  | node
  | revision
deriving DecidableEq

inductive ActionType
  | cancelOrder
  | factsheetRequest
  | startTeleop
  | stopTeleop
  | orderAction
deriving DecidableEq

/-- `VDA5050ActionStatus`; `busy` is WAITING, INITIALIZING, RUNNING or PAUSED. -/
inductive ActionStatus
  | finished
  | failed
  | busy
deriving DecidableEq

/-- `noOrder`: its result description is "noOrderToCancel". -/
structure ActionState where
  actionId : Text
  actionType : ActionType
  status : ActionStatus
  noOrder : Bool

/-- `VDA5050State`: `executing` is whether it lists nodes or edges, `dropped` whether its
missionStatus is "failed" or "canceled", `noOrder` whether an error of it is "noOrderToCancel". -/
structure RobotState where
  orderId : Text
  manufacturer : Text
  executing : Bool
  driving : Bool
  dropped : Bool
  actionStates : List ActionState
  noOrder : Bool

structure Mission where
  name : Text
  runId : Option RunId
  orderRev : ℕ
  started : Bool
  done : Bool
  needsCanceled : Bool

def Mission.new (name : Text) : Mission := ⟨name, none, 0, false, false, false⟩

/-- `_run_key`: one pass of the mission. -/
abbrev RunKey := Option (Text × Option RunId)

inductive LeafKind
  | notify
  | wait
  | order
deriving DecidableEq

structure Leaf where
  idx : ℕ
  kind : LeafKind
  digest : Option Text

/-- A VDA5050 order without `headerId` and `timestamp`. -/
structure Order where
  orderId : Text
  manufacturer : Text
  content : Text
deriving DecidableEq

/-- An order as it went out, with what the controller held at that moment. -/
structure Publish where
  order : Order
  again : Bool
  cancelling : Bool
  done : Bool
  needsCanceled : Bool
  robotOrder : Option Text
  dead : List Text
  released : List Text

/-- An entry of `_resolved_cancels`, and the action it is about. -/
structure Resolved where
  actionId : Text
  purpose : Purpose
  run : RunKey
  abandoned : Bool

/-- The controller of a robot, the stored missions, and an account: the orders published, the
cancelOrders sent in which run, the ones resolved, the ones acted on in which run. -/
structure World where
  rows : Text → Option Mission
  topicManufacturer : Text
  processTag : Text
  manufacturer : Text
  robot : Bool
  mission : Option Mission
  tree : Option (Option Leaf)
  sentOrder : Option Order
  unknownContent : Option Text
  adoptedPrefix : Option Text
  records : List (Text × Option Text)
  revisions : List ℚ
  pendingSend : Option Owed
  gateSince : Option ℚ
  deadOrders : List Text
  releasedOrders : List Text
  robotOrderId : Option Text
  robotExecuting : Bool
  robotDriving : Bool
  actions : Dict Text ActionType
  purposes : Dict Text (Purpose × RunKey)
  resends : Dict Text ℕ
  resentAt : Dict Text ℚ
  resolvedCancels : List Resolved
  header : ℕ
  published : List Publish
  cancels : List (Text × RunKey)
  resolutions : List Text
  acted : List (Text × RunKey)

def World.fresh (rows : Text → Option Mission) (topic tag : Text) (header : ℕ) : World where
  rows := rows
  topicManufacturer := topic
  processTag := tag
  manufacturer := topic
  robot := false
  mission := none
  tree := none
  sentOrder := none
  unknownContent := none
  adoptedPrefix := none
  records := []
  revisions := []
  pendingSend := none
  gateSince := none
  deadOrders := []
  releasedOrders := []
  robotOrderId := none
  robotExecuting := false
  robotDriving := false
  actions := .empty
  purposes := .empty
  resends := .empty
  resentAt := .empty
  resolvedCancels := []
  header := header
  published := []
  cancels := []
  resolutions := []
  acted := []

inductive Write
  | stored
  | lost
  | raised

/-- What the awaited calls of a send return: `built` is the content of the order, if there is one,
`revised` and `recorded` the writes. -/
structure Answers where
  now : ℚ
  runId : RunId
  revised : Write
  built : Option Text
  recorded : Write

namespace World
variable (w : World)

def runKey : RunKey := w.mission.map fun m => (m.name, m.runId)

def orderPrefix (m : Mission) : Text :=
  w.adoptedPrefix.getD (runPrefix m.name (m.runId.map (·.text)) m.orderRev)

/-- `_current_order_id`. -/
def currentOrderId : Option Text :=
  match w.mission, w.tree with
  | some m, some (some leaf) => some (orderId (w.orderPrefix m) leaf.idx)
  | _, _ => none

/-- `_is_order_of_run`: of the current run, of any revision. -/
def isOrderOfRun (order : Text) : Bool :=
  match w.mission with
  | none => false
  | some m => (List.range (m.orderRev + 1)).any fun rev =>
      OrderIds.orderPrefix order = some (runPrefix m.name (m.runId.map (·.text)) rev)

def robotRunsOurOrder : Bool := w.robotExecuting && w.robotOrderId.any w.isOrderOfRun

/-- `_robot_runs_dispatcher_order`: the order, when the robot executes one of a dispatcher. -/
def dispatcherOrder : Option Text :=
  if w.robotExecuting then w.robotOrderId.filter fun o => (OrderIds.orderPrefix o).isSome else none

def robotMayHoldOurOrder : Bool :=
  w.robotRunsOurOrder || w.mission.isSome && w.sentOrder.isSome && !w.robotExecuting

def cancelRun (actionId : Text) : RunKey := (w.purposes.get actionId).bind (·.2)

def hasOutstandingCancel (currentRunOnly : Bool) : Bool :=
  w.actions.items.any fun a =>
    a.2 = .cancelOrder && (!currentRunOnly || w.cancelRun a.1 = w.runKey)

/-- `_action_id`. -/
def actionId (stem : Text) : Text := orderId (stem ++ '-' :: w.processTag) w.header

/-- `_send_instant_action` of a new action. -/
def sendAction (stem : Text) (type : ActionType) : World :=
  { w with header := w.header + 1, actions := w.actions.set (w.actionId stem) type }

def cancelStem (why : Text) : Text :=
  match w.mission with
  | none => why ++ "-cancel".toList
  | some m => w.orderPrefix m ++ '-' :: (why ++ "-cancel".toList)

/-- `_send_cancel_order`. -/
def sendCancelOrder (why : Text) (purpose : Purpose) : World :=
  let id := w.actionId (w.cancelStem why)
  { w.sendAction (w.cancelStem why) .cancelOrder with
    purposes := w.purposes.set id (purpose, w.runKey)
    cancels := (id, w.runKey) :: w.cancels }

def reports : Ours → Bool
  | .run => w.robotRunsOurOrder
  | .sent => w.robotMayHoldOurOrder
  | .dispatcher => w.dispatcherOrder.isSome
  | .any => true

/-- `_cancel_order`. -/
def cancelOrder (purpose : Purpose) (why : Text) (ours : Ours) (currentRunOnly : Bool) : World :=
  if w.hasOutstandingCancel currentRunOnly || !w.reports ours then w
  else w.sendCancelOrder why purpose

/-- `_cancel_resolved` of an action that leaves the ones in flight. -/
def resolve (actionId : Text) (type : ActionType) (abandoned : Bool) : World :=
  let w := { w with
    actions := w.actions.erase actionId
    resends := w.resends.erase actionId
    resentAt := w.resentAt.erase actionId }
  if type ≠ .cancelOrder then w
  else
    let p := (w.purposes.get actionId).getD (.stop, none)
    { w with
      purposes := w.purposes.erase actionId
      resolvedCancels := w.resolvedCancels ++ [⟨actionId, p.1, p.2, abandoned⟩]
      resolutions := actionId :: w.resolutions
      releasedOrders := if abandoned && w.robotExecuting then
        w.robotOrderId.toList ++ w.releasedOrders else w.releasedOrders }

/-- `_failed_cancel_leaves_our_order`. -/
def failedCancelLeavesOurOrder (type : ActionType) (s : ActionState) (msg : RobotState) : Bool :=
  if type ≠ .cancelOrder || !msg.executing then false
  else if s.noOrder || msg.noOrder then false
  else
    let p := (w.purposes.get s.actionId).getD (.stop, none)
    if p.1 = .clear then true
    else w.mission.isSome && p.2 = w.runKey && w.isOrderOfRun msg.orderId

/-- One action state of `handle_instant_action`, and the actions the robot reports. -/
def noteAction (msg : RobotState) (p : World × List Text) (s : ActionState) : World × List Text :=
  if s.actionType = .orderAction then p
  else match p.1.actions.get s.actionId with
    | none => p
    | some type => match s.status with
      | .finished => (p.1.resolve s.actionId type false, p.2 ++ [s.actionId])
      | .failed =>
        if p.1.failedCancelLeavesOurOrder type s msg then p
        else (p.1.resolve s.actionId type false, p.2 ++ [s.actionId])
      | .busy => (p.1, p.2 ++ [s.actionId])

def resendInterval (resends : ℕ) : ℚ := min (2 ^ (resends - 1)) 8

def resendLimit (maxResends : ℕ) (actionId : Text) : ℕ :=
  if (w.purposes.get actionId).map (·.1) = some .stop then min maxResends 6 else maxResends

def resendAction (maxResends : ℕ) (now : ℚ) (p : World × List (Text × ActionType))
    (a : Text × ActionType) : World × List (Text × ActionType) :=
  let resends := (p.1.resends.get a.1).getD 0
  if (p.1.resentAt.get a.1).any fun t => now - t < resendInterval resends then p
  else if p.1.resendLimit maxResends a.1 < resends + 1 then (p.1, p.2 ++ [a])
  else ({ p.1 with
    resends := p.1.resends.set a.1 (resends + 1)
    resentAt := p.1.resentAt.set a.1 now
    header := p.1.header + 1 }, p.2)

def handleInstantAction (maxResends : ℕ) (msg : RobotState) (now : ℚ) : World :=
  let noted := msg.actionStates.reverse.foldl (noteAction msg) (w, [])
  let resent := (noted.1.actions.items.filter fun a => a.1 ∉ noted.2).foldl
    (resendAction maxResends now) (noted.1, [])
  resent.2.foldl (fun w a => w.resolve a.1 a.2 true) resent.1

def endMission : World := { w with mission := w.mission.map fun m => { m with done := true } }

/-- `_act_on_resolved_cancels`, up to the end of the mission. -/
def actOnResolved (msg : RobotState) (w : World) : List Resolved → World
  | [] => w
  | r :: rest =>
    match w.mission with
    | none => actOnResolved msg w rest
    | some m =>
      if m.done || r.run ≠ w.runKey then actOnResolved msg w rest
      else
        let w := { w with acted := (r.actionId, w.runKey) :: w.acted }
        if m.needsCanceled || r.purpose = .mission then w.endMission
        else if r.purpose = .clear then actOnResolved msg w rest
        else if r.purpose = .stop then w.endMission
        else if r.abandoned && msg.executing then w.endMission
        else actOnResolved msg { w with pendingSend := some .revision } rest

def persist (m : Mission) : World := { w with rows := Function.update w.rows m.name (some m) }

def putStatus (m : Mission) : Write → World × Bool
  | .stored => ({ w.persist m with mission := some m }, true)
  | .lost => (w, false)
  | .raised => (w.persist m, false)

/-- `_bump_order_rev`; a legacy mission gets its run id. -/
def bumpOrderRev (m : Mission) (a : Answers) : World × Bool :=
  let recent := w.revisions.dropWhile fun t => 60 < a.now - t
  if 5 ≤ recent.length then
    ({ w with revisions := recent, pendingSend := none }.endMission.cancelOrder .stop
      "churn".toList .run false, false)
  else
    let replaced := w.currentOrderId
    let next := if m.runId = none then { m with runId := some a.runId }
      else { m with orderRev := m.orderRev + 1 }
    let p := { w with revisions := recent, adoptedPrefix := none }.putStatus next a.revised
    if p.2 then ({ p.1 with
      revisions := recent ++ [a.now]
      unknownContent := none
      releasedOrders := replaced.toList ++ w.robotOrderId.toList ++ w.releasedOrders }, true)
    else p

/-- The robot still executes an order of a dispatcher that holds this one back. -/
def robotStillOnPreviousOrder (order : Text) : Bool :=
  w.dispatcherOrder.any fun o => o ≠ order && o ∉ w.deadOrders && o ∉ w.releasedOrders

def owe (kind : Owed) : World := { w with pendingSend := w.pendingSend.or (some kind) }

/-- `_wait_for_previous_order`. -/
def waitForPreviousOrder (now : ℚ) : World :=
  let w := w.owe .node
  match w.gateSince with
  | none => { w with gateSince := some now }
  | some since =>
    if w.robotDriving then { w with gateSince := some now }
    else if now - since < 10 then w
    else if w.hasOutstandingCancel false || !w.reports .dispatcher then w
    else { w.sendCancelOrder "clear".toList .clear with gateSince := some now }

def publish (m : Mission) (order : Order) (again : Bool) : World :=
  let order := { order with manufacturer := w.manufacturer }
  { w with
    sentOrder := some order
    published := ⟨order, again, w.hasOutstandingCancel false, m.done, m.needsCanceled,
      w.dispatcherOrder, w.deadOrders, w.releasedOrders⟩ :: w.published }

/-- `_send_order` of a leaf, once its id is settled. -/
def sendLeaf (m : Mission) (leaf : Leaf) (a : Answers) : World :=
  let order := orderId (w.orderPrefix m) leaf.idx
  match w.sentOrder.filter fun o => o.orderId = order with
  | some o =>
    if order ∈ w.deadOrders then { w with pendingSend := some .revision } else w.publish m o true
  | none =>
    if w.robotStillOnPreviousOrder order then w.waitForPreviousOrder a.now
    else
      let w := { w with gateSince := none }
      match a.built with
      | none => w
      | some content =>
        let p := w.putStatus m a.recorded
        if p.2 then
          { p.1 with records := (order, leaf.digest) :: p.1.records }.publish m ⟨order, [], content⟩
            false
        else p.1.owe .node

/-- `_send_order`. -/
def sendOrder (a : Answers) : World :=
  match w.mission, w.tree with
  | some m, some node =>
    if !w.robot || m.done || m.needsCanceled then w
    else if w.hasOutstandingCancel false then w.owe .node
    else match node with
      | some leaf =>
        if leaf.kind ≠ .order then w
        else if w.unknownContent = some (orderId (w.orderPrefix m) leaf.idx) then
          let p := w.bumpOrderRev m a
          match p.1.mission with
          | some m => if p.2 then p.1.sendLeaf m leaf a else if m.done then p.1 else p.1.owe .node
          | none => p.1
        else w.sendLeaf m leaf a
      | none => w
  | _, _ => w

/-- `_flush_pending_send`. -/
def flushPendingSend (a : Answers) : World :=
  match w.mission, w.pendingSend with
  | some m, some .revision =>
    let p := { w with pendingSend := none }.bumpOrderRev m a
    if p.2 then p.1.sendOrder a
    else if p.1.mission.any (·.done) then p.1
    else { p.1 with pendingSend := some .revision }
  | some _, some .node => { w with pendingSend := none }.sendOrder a
  | _, _ => w

end World

/-- What happens at the controller: the calls of its handlers in any order, what the behavior tree
and the API do to the mission, and a new process. -/
inductive Act
  | create (name : Text)
  | delete (name : Text)
  | robot (present : Bool)
  | take (name : Text)
  | assignRunId (id : RunId) (write : Write)
  | buildTree (leaf : Option Leaf)
  | moveTree (leaf : Option Leaf)
  | needsCanceled (flag : Bool)
  | finish
  | startNextPass (id : RunId) (leaf : Option Leaf) (write : Write)
  | leave
  | writeStatus
  | state (msg : RobotState)
  | resetResendBudgets
  | instantActions (msg : RobotState) (now : ℚ)
  | resolvedCancels (msg : RobotState)
  | adopt (msg : RobotState) (write : Write)
  | orderDropped (msg : RobotState)
  | owe (kind : Option Owed)
  | ask (stem : Text) (type : ActionType)
  | cancelOrder (purpose : Purpose) (why : Text) (ours : Ours) (currentRunOnly : Bool)
  | sendOrder (a : Answers)
  | flushPendingSend (a : Answers)
  | restart (tag : Text) (header : ℕ)

namespace World
variable (w : World)

/-- A mission of the queue becomes the current one in `_try_start_mission`. -/
def take (name : Text) : Option World :=
  match w.mission, w.rows name with
  | none, some m =>
    if w.robot && !m.done then
      some { w with
        mission := some m
        tree := none
        sentOrder := none
        records := []
        adoptedPrefix := none
        unknownContent := none
        revisions := []
        pendingSend := none
        gateSince := none
        deadOrders := [] }
    else none
  | _, _ => none

/-- `_assign_run_id` of a mission that has none. -/
def assignRunId (id : RunId) (write : Write) : Option World :=
  match w.mission, w.tree with
  | some m, none =>
    if m.runId = none ∧ m.started = false then
      some (w.putStatus { m with runId := some id } write).1
    else none
  | _, _ => none

/-- The tree of the mission is built and ticked; a mission that has started is resumed. -/
def buildTree (leaf : Option Leaf) : Option World :=
  match w.mission, w.tree with
  | some m, none =>
    if (m.runId.isSome || m.started) && !m.needsCanceled then
      let w := { w with tree := some leaf, mission := some { m with started := true } }
      some { w with unknownContent := if m.started then w.currentOrderId else w.unknownContent }
    else none
  | _, _ => none

/-- `_start_next_pass`. -/
def startNextPass (id : RunId) (leaf : Option Leaf) (write : Write) : Option World :=
  match w.mission, w.tree with
  | some m, some _ =>
    if m.done && !m.needsCanceled then
      let p := w.putStatus { m with runId := some id, orderRev := 0, done := false } write
      some (if p.2 then { p.1 with
        tree := some leaf
        revisions := []
        pendingSend := none
        gateSince := none
        deadOrders := [] } else p.1)
    else none
  | _, _ => none

/-- What `_on_client_message` notes first. -/
def noteState (msg : RobotState) : World :=
  { w with
    manufacturer := if msg.manufacturer = [] then w.manufacturer else msg.manufacturer
    robotOrderId := some msg.orderId
    robotExecuting := msg.executing
    robotDriving := msg.driving
    releasedOrders := if msg.executing then w.releasedOrders else [] }

/-- `_try_adopt_running_order`. -/
def adopt (msg : RobotState) (write : Write) : Option World :=
  match w.mission, w.tree, w.currentOrderId with
  | some m, some (some leaf), some current =>
    if m.needsCanceled || w.hasOutstandingCancel false || !msg.executing then none
    else if msg.orderId = current ∨ msg.orderId ∈ w.deadOrders ∨ !w.isOrderOfRun msg.orderId ∨
        orderNodeIndex msg.orderId ≠ orderNodeIndex current then none
    else if leaf.digest.isSome && w.records.lookup msg.orderId = some leaf.digest then
      some { (w.putStatus m write).1 with
        adoptedPrefix := OrderIds.orderPrefix msg.orderId
        sentOrder := none
        pendingSend := none
        deadOrders := w.deadOrders.filter (· ≠ msg.orderId)
        releasedOrders := w.releasedOrders.filter (· ≠ msg.orderId) }
    else none
  | _, _, _ => none

def changeMission (f : Mission → Mission) : Option World :=
  w.mission.map fun m => { w with mission := some (f m) }

end World

def step (maxResends : ℕ) (w : World) : Act → Option World
  | .create name =>
    if w.rows name = none then
      some { w with rows := Function.update w.rows name (some (.new name)) }
    else none
  | .delete name =>
    if w.mission.any (·.name = name) then none
    else some { w with rows := Function.update w.rows name none }
  | .robot present => some { w with robot := present }
  | .take name => w.take name
  | .assignRunId id write => w.assignRunId id write
  | .buildTree leaf => w.buildTree leaf
  | .moveTree leaf => w.tree.map fun _ => { w with tree := some leaf }
  | .needsCanceled flag => w.changeMission fun m => { m with needsCanceled := flag }
  | .finish => w.changeMission fun m => { m with done := true }
  | .startNextPass id leaf write => w.startNextPass id leaf write
  | .leave => some { w with mission := none }
  | .writeStatus => w.mission.map w.persist
  | .state msg => some (w.noteState msg)
  | .resetResendBudgets => some { w with resends := .empty, resentAt := .empty }
  | .instantActions msg now => some (w.handleInstantAction maxResends msg now)
  | .resolvedCancels msg =>
    some (World.actOnResolved msg { w with resolvedCancels := [] } w.resolvedCancels)
  | .adopt msg write => w.adopt msg write
  | .orderDropped msg =>
    if msg.dropped then some { w with deadOrders := msg.orderId :: w.deadOrders } else none
  | .owe kind => some { w with pendingSend := kind }
  | .ask stem type => if type = .cancelOrder then none else some (w.sendAction stem type)
  | .cancelOrder purpose why ours currentRunOnly =>
    some (w.cancelOrder purpose why ours currentRunOnly)
  | .sendOrder a => some (w.sendOrder a)
  | .flushPendingSend a => some (w.flushPendingSend a)
  | .restart tag header => some { World.fresh w.rows w.topicManufacturer tag header with
      published := w.published
      cancels := w.cancels
      resolutions := w.resolutions
      acted := w.acted }

end CloudServer.Dispatch
