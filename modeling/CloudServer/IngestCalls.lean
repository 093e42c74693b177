import CloudServer.Ingest

/-! The handlers of node messages and of image, depth and costmap uploads. -/
namespace CloudServer.Ingest

open Acks (Kind Part Sid Run Key Reason Message)
open UploadBuffer (NodeKey Upload Placed)
open Scan (Text)
open Interact (Prog)

abbrev Handler (α : Type) := Prog Op Res α

def call (o : Op) : Handler (Res o) := Prog.perform o

inductive Site
  | probe
  | received
  | taken
  | written
  | part (u : Upload)
  | verdict
  | abandoned

/-- How the calls of one handler into other services turn out, and its clock readings. `slots`
says how often a free place is found among the waiting resends. -/
structure Luck where
  robotRaises : Bool
  lastRun : Option (Option Text)
  token : Text
  slots : Nat
  lookup : Gid → Bool
  marker : Gid → Bool
  add : Add
  edges : Bool
  object : Upload → Bool
  records : Kind → Bool
  count : Bool
  mark : Bool
  truthDoc : Bool
  truthList : Bool
  publishRaises : Bool
  clock : Site → Nat → Int

/-- Why a node message was turned away before anything was done for it; `pops` when what is
buffered for the node goes with it. -/
structure Refusal where
  reason : Reason
  sessionId : Option Text
  pops : Bool

structure Delivery where
  worker : Nat
  node : NodeKey
  session : Text
  run : Run
  ns : Option Text
  manifest : Option (List Part)
  refusal : Option Refusal
  luck : Luck

structure Arrival where
  upload : Upload
  refusal : Option (Reason × Option Text)
  luck : Luck

def Delivery.key (d : Delivery) : Key := ⟨d.node.robot, d.run, d.node.sid, d.ns⟩

def Delivery.parts (d : Delivery) : List Part := d.manifest.getD []

def uploadKey (u : Upload) : Key := ⟨u.robot, u.run, u.sid, u.ns⟩

def ack (e : Acks.Event) (clock : Nat → Int) : Handler Unit := call (.ack e clock)

def notePartStored (luck : Luck) (u : Upload) : Handler Unit :=
  ack (.partStored (uploadKey u) u.part) (luck.clock (.part u))

def notePartsStored (luck : Luck) : List Upload → Handler Unit
  | [] => pure ()
  | u :: us => do
    notePartStored luck u
    notePartsStored luck us

def saveImages (luck : Luck) (g : Gid) : List Upload → Handler Bool
  | [] => pure false
  | u :: us => do
    let ok : Bool ← call (.storeObject g u (luck.object u))
    if ok then
      notePartStored luck u
      let _ ← saveImages luck g us
      pure true
    else saveImages luck g us

def storeObjects (luck : Luck) (g : Gid) : List Upload → Handler (List Upload)
  | [] => pure []
  | u :: us => do
    let ok : Bool ← call (.storeObject g u (luck.object u))
    let rest ← storeObjects luck g us
    pure (if ok then u :: rest else rest)

/-- Each entry's PNG, then the records of those that stored in one update of the node. -/
def saveLayers (luck : Luck) (kind : Kind) (g : Gid) (us : List Upload) : Handler Bool := do
  let stored ← storeObjects luck g us
  if stored.isEmpty then pure false
  else
    let ok : Bool ← call (.setRecords g (stored.map Upload.part) (luck.records kind))
    if ok then
      notePartsStored luck (us.filter fun u => u.sub ∈ stored.map Upload.sub)
      pure true
    else pure false

def saveBuffered (luck : Luck) (g : Gid) (images depth costmap : List Upload) : Handler Unit := do
  let _ ← saveImages luck g images
  let _ ← saveLayers luck .depth g depth
  let _ ← saveLayers luck .costmap g costmap

def probeRun (luck : Luck) (robot : Text) : Handler Unit := do
  let ask : Bool ← call (.probing robot (luck.clock .probe 0))
  if ask then call (.probed robot luck.lastRun (luck.clock .probe 1)) else pure ()

inductive Found
  | complete (g : Gid)
  | incomplete (g : Gid)
  | absent
  | unknown

def locateNode (luck : Luck) (unknown : Bool) : List Gid → Handler Found
  | [] => pure (if unknown then .unknown else .absent)
  | g :: ids => do
    let found : Option Bool ← call (.nodeExists g (luck.lookup g))
    match found with
    | none => locateNode luck true ids
    | some false => locateNode luck unknown ids
    | some true =>
      let half : Bool ← call (.isIncomplete g)
      if half then pure (.incomplete g)
      else
        let marked : Option Bool ← call (.nodeIngestIncomplete g (luck.marker g))
        match marked with
        | none => pure .unknown
        | some true => pure (.incomplete g)
        | some false => pure (.complete g)

def waitClaim (claim : Gid) : Handler Bool := do
  let event : Option Nat ← call (.enroll claim)
  match event with
  | none => pure true
  | some n => call (.woken claim n)

/-- What the topology worker hands back: the node it holds the claim for, or why there is
none. `node` is the id under which a failed attempt left the node in storage. -/
inductive Topology
  | raised
  | busy
  | failed (reason : Reason) (node : Option Gid)
  | duplicate (g : Gid)
  | held (g : Gid) (repaired : Bool)

def attachDuplicate (d : Delivery) (g : Gid) : Handler Topology := do
  let (images, depth, costmap) : List Upload × List Upload × List Upload ←
    call (.restore d.node g d.session d.run (d.luck.clock .taken 0))
  call (.cacheNode g)
  saveBuffered d.luck g images depth costmap
  pure (.duplicate g)

def repairNode (d : Delivery) (g : Gid) : Handler Topology := do
  call (.addIncomplete g)
  let (images, depth, costmap) : List Upload × List Upload × List Upload ←
    call (.restore d.node g d.session d.run (d.luck.clock .taken 0))
  call (.cacheNode g)
  saveBuffered d.luck g images depth costmap
  pure (if d.luck.edges then .held g true else .failed .storeFailed (some g))

def storeNode (d : Delivery) (g : Gid) : Handler Topology := do
  let images : List Upload ←
    call (.mapNode d.node g d.session d.run (d.luck.clock .taken 0))
  let _ ← saveImages d.luck g images
  let added : Bool ← call (.addNode g d.luck.add)
  if added then
    let (depth, costmap) : List Upload × List Upload ←
      call (.nodeStored d.node g d.session d.run (d.luck.clock .written 0))
    call (.cacheNode g)
    let _ ← saveLayers d.luck .depth g depth
    let _ ← saveLayers d.luck .costmap g costmap
    pure (if d.luck.edges then .held g false else .failed .storeFailed (some g))
  else pure (.failed .storeFailed none)

def releaseClaim (d : Delivery) (claim : Gid) : Handler Unit :=
  call (.release d.worker claim)

def settleNode (d : Delivery) (claim : Gid) (ids : List Gid) : Handler Topology := do
  let found ← locateNode d.luck false ids
  match found with
  | .unknown => pure (.failed .lookupFailed none)
  | .complete g => do
    call (.cacheComplete g)
    attachDuplicate d g
  | .incomplete g => repairNode d g
  | .absent => storeNode d claim

def processClaimed (d : Delivery) (claim : Gid) (ids : List Gid) : Handler Topology := do
  let result ← settleNode d claim ids
  match result with
  | .held g repaired => pure (.held g repaired)
  | result => do
    releaseClaim d claim
    pure result

def lookNode (d : Delivery) (claim : Gid) (busy : Gid → Handler Topology) : Handler Topology := do
  let seen : Look ← call (.look d.worker d.node d.session d.run claim)
  match seen with
  | .known g => attachDuplicate d g
  | .taken ids => processClaimed d claim ids
  | .busy g => busy g

def processLoop (d : Delivery) (claim : Gid) : Nat → Handler Topology
  | 0 => lookNode d claim fun _ => pure .busy
  | slots + 1 => lookNode d claim fun g => do
    let waited ← waitClaim g
    if waited then processLoop d claim slots else pure .busy

def processTopology (d : Delivery) : Handler (Option Gid × Topology) := do
  if d.run.isNone then probeRun d.luck d.node.robot else pure ()
  let id : Option Gid ← call (.detect d.node d.session d.run d.luck.token)
  match id with
  | none => pure (none, .raised)
  | some claim => do
    let result ← processLoop d claim d.luck.slots
    pure (some claim, result)

def completeNode (d : Delivery) (g : Gid) : Handler Unit := do
  let _ : Bool ← call (.markComplete g d.luck.mark)
  call (.discardIncomplete g)
  call (.cacheComplete g)

def readTruth (d : Delivery) (g : Gid) : Handler (List Part) :=
  if d.parts.isEmpty then pure []
  else call (.partsTruth g d.parts d.luck.truthDoc d.luck.truthList)

def nodeOk (d : Delivery) (status : Acks.Status) (truth : List Part) : Handler Unit :=
  ack (.nodeOk d.key status (some d.session) d.manifest truth) (d.luck.clock .verdict)

def nodeFailed (d : Delivery) (reason : Reason) (sessionId : Option Text) : Handler Unit :=
  ack (.nodeFailed d.key reason d.parts sessionId) (d.luck.clock .verdict)

def nodeAbandoned (d : Delivery) : Handler Unit :=
  ack (.nodeAbandoned d.key d.parts (some d.session)) (d.luck.clock .abandoned)

def readRepaired (d : Delivery) (g : Gid) (repaired : Bool) : Handler (List Part) :=
  if repaired then readTruth d g else pure []

def countHeld (d : Delivery) (claim g : Gid) (repaired : Bool) : Handler Unit := do
  let counted : Bool ← call (.countNode g d.luck.count)
  if counted then
    completeNode d g
    releaseClaim d claim
    let truth ← readRepaired d g repaired
    nodeOk d .accepted truth
  else
    releaseClaim d claim
    nodeFailed d .storeFailed (some d.session)

def finishNode (d : Delivery) (claim g : Gid) (repaired : Bool) : Handler Unit := do
  countHeld d claim g repaired
  if d.luck.publishRaises then nodeAbandoned d else pure ()

def popBuffered (node : NodeKey) (kind : Kind) : Handler Unit := do
  let us : List Upload ← call (.pop kind node)
  call (.drop us)

/-- The handler of a node message; its answer is the id under which it left the node in
storage. -/
def handleNodeUpdate (d : Delivery) : Handler (Option Gid) := do
  match d.refusal with
  | some refusal => do
    if refusal.pops && d.ns.isNone then
      popBuffered d.node .image
      popBuffered d.node .depth
      popBuffered d.node .costmap
    else pure ()
    nodeFailed d refusal.reason refusal.sessionId
    pure none
  | none => do
    ack (.begin d.key d.parts (some d.session)) (d.luck.clock .received)
    if d.luck.robotRaises then
      nodeAbandoned d
      pure none
    else do
      let (claim, result) ← processTopology d
      match result with
      | .raised => do
        nodeAbandoned d
        pure none
      | .busy => pure none
      | .failed reason node => do
        nodeFailed d reason (some d.session)
        pure node
      | .duplicate g => do
        let truth ← readTruth d g
        nodeOk d .duplicate truth
        pure (some g)
      | .held g repaired => do
        finishNode d (claim.getD g) g repaired
        pure (some g)

def findCached : List Gid → Handler (Option Gid)
  | [] => pure none
  | g :: ids => do
    let hit : Bool ← call (.cached g)
    if hit then pure (some g) else findCached ids

def findStored (luck : Luck) : List Gid → Handler (Option Gid)
  | [] => pure none
  | g :: ids => do
    let found : Option Bool ← call (.nodeExists g (luck.lookup g))
    if found = some true then
      call (.cacheNode g)
      pure (some g)
    else findStored luck ids

def findPartNode (luck : Luck) (u : Upload) : Handler (Option Gid) := do
  if u.run.isNone then
    let ask : Bool ← call (.unprobed u.robot)
    if ask then probeRun luck u.robot else pure ()
  else pure ()
  let ids : List Gid ← call (.candidates u)
  let hit ← findCached ids
  match hit with
  | some g => pure (some g)
  | none => findStored luck ids

def rejectPart (a : Arrival) (reason : Reason) (sessionId : Option Text) : Handler Unit := do
  call (.drop [a.upload])
  ack (.partRejected (uploadKey a.upload) a.upload.part reason sessionId) (a.luck.clock .verdict)

def knownNode (luck : Luck) (u : Upload) : Handler (Option Gid) := do
  let here : Option Gid ← call (.known u)
  match here with
  | some g => pure (some g)
  | none => findPartNode luck u

def saveUpload (luck : Luck) (g : Gid) (u : Upload) : Handler Bool :=
  match u.kind with
  | .image => saveImages luck g [u]
  | kind => saveLayers luck kind g [u]

/-- The handlers of image, depth and costmap uploads: saved against the node when it is there,
else buffered until it arrives. -/
def handleUpload (a : Arrival) : Handler Unit := do
  match a.refusal with
  | some (reason, sessionId) => rejectPart a reason sessionId
  | none => do
    let known ← knownNode a.luck a.upload
    let placed : Placed Gid ← call (.putUnless a.upload known (a.luck.clock .taken 0))
    match placed with
    | .dropped => rejectPart a .bufferFull (some a.upload.session)
    | .buffered => pure ()
    | .found g => do
      let saved ← saveUpload a.luck g a.upload
      if saved then pure () else rejectPart a .storeFailed (some a.upload.session)

/-- What a worker is called for. -/
inductive Call
  | node (d : Delivery)
  | upload (a : Arrival)
  | acks (e : Acks.Event) (clock : Nat → Int)
  | cleanup (threshold now : Int)

def body : Call → Unit → Handler (Option Gid × Unit)
  | .node d, _ => do
    let stored ← handleNodeUpdate d
    pure (stored, ())
  | .upload a, _ => do
    handleUpload a
    pure (none, ())
  | .acks e clock, _ => do
    ack e clock
    pure (none, ())
  | .cleanup threshold now, _ => do
    call (.cleanup threshold now)
    pure (none, ())

end CloudServer.Ingest
