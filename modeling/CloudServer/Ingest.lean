import CloudServer.Interact
import CloudServer.UploadBuffer

/-! The node and upload handlers of the graph builder as programs over its memory and storage.
Each operation is one section under the upload lock, one call of a storage, or one event of the
ack manager. -/
namespace CloudServer.Ingest

open Function
open Acks (Kind Part Sid Run Key Reason Message)
open UploadBuffer (NodeKey Upload Buffer Caps Placed)
open Scan (Text)
open Interact (Prog)

/-- What the global id of a robot's node is derived from; `run` is the run or epoch token. -/
structure Gid where
  robot : Text
  session : Text
  sid : Sid
  run : Run
  deriving DecidableEq, Repr

/-- A node document: `ingest_complete`, absent on nodes of before the marker, and the depth and
costmap records on it. -/
structure Doc where
  marker : Option Bool
  records : List Part
  deriving DecidableEq, Repr

def Doc.incomplete (d : Doc) : Bool := d.marker = some false

structure Mapped where
  gid : Gid
  since : Int
  session : Text
  deriving DecidableEq, Repr

structure Config where
  acks : Acks.Config
  caps : Kind → Caps
  bufferTimeout : Int
  probeBackoff : Int

/-- The memory of the process, its storages, and below them what is only recorded for the
statements: which delivery took a claim, how often an id was added and counted, the failed
completion markers, and what became of the uploads. -/
structure State where
  mapping : Dict NodeKey Mapped
  stored : Dict NodeKey (Gid × Text)
  nodeCache : Finset Gid
  processing : Finset Gid
  runs : Dict Text Text
  epochs : Dict Text Text
  incomplete : Finset Gid
  completeCache : Finset Gid
  releases : Gid → Nat
  runProbed : Finset Text
  probeRetry : Dict Text Int
  buffers : Kind → Buffer
  acks : Acks.Manager
  sent : List Message
  docs : Gid → Option Doc
  objects : Finset (Gid × Part)
  nodeCount : Text → Nat
  holder : Gid → Option Nat
  adds : Gid → Nat
  counted : Gid → Nat
  unmarked : Finset Gid
  handed : List (Gid × Upload)
  dropped : List Upload
  replaced : List Upload

def nodeGlobalId (s : State) (node : NodeKey) (session : Text) (run : Run) : Gid :=
  ⟨node.robot, session, node.sid, run.or (s.epochs.get node.robot)⟩

/-- The ids a node may be stored under, most likely first; `parts` for an upload of it. -/
def candidateIds (s : State) (node : NodeKey) (session : Text) (run : Run) (parts : Bool) :
    List Gid :=
  let current := s.runs.get node.robot
  let runs : List Run := match run with
    | some r => if parts && (current = none || current = some r) then [some r, none] else [some r]
    | none => match current with
      | some c => [some c, none]
      | none => [none]
  (runs.map (nodeGlobalId s node session)).dedup

def knownComplete (s : State) (node : NodeKey) (session : Text) (ids : List Gid) : Option Gid :=
  ids.find? fun g => g ∉ s.incomplete &&
    ((s.stored.get node).any (fun x => x.1 = g ∧ x.2 = session) || g ∈ s.completeCache)

def staleRun (s : State) (robot : Text) (run : Run) : Bool :=
  run.any fun r => (s.runs.get robot).any fun c => r ≠ c

def mappedNode (s : State) (node : NodeKey) (session : Text) (run : Run) : Option Gid :=
  if staleRun s node.robot run then none
  else ((s.mapping.get node).filter fun m => m.session = session).map Mapped.gid

def storedNode (s : State) (node : NodeKey) (session : Text) (run : Run) : Option Gid :=
  if staleRun s node.robot run then none
  else ((s.stored.get node).filter fun x => x.2 = session).map Prod.fst

/-- Drops what a robot has mapped and buffered, except the uploads that are kept. -/
def clearRobot (s : State) (robot : Text) (keep : Upload → Bool) : State :=
  { s with mapping := s.mapping.filter fun k _ => k.robot ≠ robot
           stored := s.stored.filter fun k _ => k.robot ≠ robot || k ∉ s.mapping.keys
           buffers := fun kind => UploadBuffer.clearRobot (s.buffers kind) robot keep }

def maxSessionId (s : State) (robot : Text) : Option Int :=
  (s.mapping.keys.filter fun k => k.robot = robot).foldl (fun m k => match m, k.sid with
    | some m, .int n => some (max m n)
    | _, _ => none) (some (-1))

/-- Without a run, a smaller id than any seen before looks like a restarted counter. -/
def counterRestarted (s : State) (node : NodeKey) : Option Bool :=
  (maxSessionId s node.robot).bind fun m =>
    if 0 ≤ m then match node.sid with
      | .int n => some (n < m)
      | .text _ => none
    else some false

def detectAndClearSessionReset (s : State) (node : NodeKey) (run : Run) (token : Text) :
    Option State :=
  match run with
  | some r =>
    let s' := { s with runs := s.runs.set node.robot r }
    match s.runs.get node.robot with
    | none => some s'
    | some previous =>
      if previous = r then some s' else some (clearRobot s' node.robot fun u => u.run = some r)
  | none =>
    if (s.runs.get node.robot).isSome then some s
    else (counterRestarted s node).map fun restarted =>
      if restarted then
        clearRobot { s with epochs := s.epochs.set node.robot token } node.robot fun _ => false
      else s

inductive Look
  | known (g : Gid)
  | busy (g : Gid)
  | taken (ids : List Gid)

/-- What became of an `add_node`: written, written but answered as failed, or not written. -/
inductive Add
  | written
  | lost
  | failed
  deriving DecidableEq, Repr

/-- The statements that the handlers share the stores through. -/
inductive Op
  | probing (robot : Text) (now : Int)
  | probed (robot : Text) (answer : Option (Option Text)) (now : Int)
  | unprobed (robot : Text)
  | detect (node : NodeKey) (session : Text) (run : Run) (token : Text)
  | look (worker : Nat) (node : NodeKey) (session : Text) (run : Run) (claim : Gid)
  | enroll (claim : Gid)
  | woken (claim : Gid) (release : Nat)
  | nodeExists (g : Gid) (ok : Bool)
  | isIncomplete (g : Gid)
  | nodeIngestIncomplete (g : Gid) (ok : Bool)
  | cacheComplete (g : Gid)
  | cacheNode (g : Gid)
  | addIncomplete (g : Gid)
  | restore (node : NodeKey) (g : Gid) (session : Text) (run : Run) (now : Int)
  | mapNode (node : NodeKey) (g : Gid) (session : Text) (run : Run) (now : Int)
  | addNode (g : Gid) (fate : Add)
  | nodeStored (node : NodeKey) (g : Gid) (session : Text) (run : Run) (now : Int)
  | countNode (g : Gid) (ok : Bool)
  | markComplete (g : Gid) (ok : Bool)
  | discardIncomplete (g : Gid)
  | release (worker : Nat) (claim : Gid)
  | partsTruth (g : Gid) (manifest : List Part) (docOk listOk : Bool)
  | known (u : Upload)
  | candidates (u : Upload)
  | cached (g : Gid)
  | putUnless (u : Upload) (known : Option Gid) (now : Int)
  | storeObject (g : Gid) (u : Upload) (ok : Bool)
  | setRecords (g : Gid) (parts : List Part) (ok : Bool)
  | pop (kind : Kind) (node : NodeKey)
  | drop (us : List Upload)
  | ack (e : Acks.Event) (clock : Nat → Int)
  | cleanup (threshold now : Int)

def Res : Op → Type
  | .probing _ _ | .unprobed _ => Bool
  | .detect _ _ _ _ => Option Gid
  | .look _ _ _ _ _ => Look
  | .enroll _ => Option Nat
  | .woken _ _ => Bool
  | .nodeExists _ _ | .nodeIngestIncomplete _ _ => Option Bool
  | .isIncomplete _ => Bool
  | .restore _ _ _ _ _ => List Upload × List Upload × List Upload
  | .mapNode _ _ _ _ _ => List Upload
  | .addNode _ _ => Bool
  | .nodeStored _ _ _ _ _ => List Upload × List Upload
  | .countNode _ _ | .markComplete _ _ => Bool
  | .partsTruth _ _ _ _ => List Part
  | .known _ => Option Gid
  | .candidates _ => List Gid
  | .cached _ => Bool
  | .putUnless _ _ _ => Placed Gid
  | .storeObject _ _ _ | .setRecords _ _ _ => Bool
  | .pop _ _ => List Upload
  | _ => Unit

variable (cfg : Config)

def takeBuffered (s : State) (kind : Kind) (node : NodeKey) (session : Text) (run : Run)
    (now : Int) : List Upload × State :=
  let (us, b) := UploadBuffer.take (s.buffers kind) node cfg.bufferTimeout (some session) run now
  (us, { s with buffers := update s.buffers kind b })

def target (s : State) (u : Upload) : Option Gid :=
  match u.kind with
  | .image => mappedNode s u.node u.session u.run
  | _ => storedNode s u.node u.session u.run

def restoreMemory (s : State) (node : NodeKey) (g : Gid) (session : Text) (now : Int) : State :=
  let mapping := if (s.mapping.get node).any fun m => m.gid = g ∧ m.session = session then s.mapping
    else s.mapping.set node ⟨g, now, session⟩
  { s with mapping, stored := s.stored.set node (g, session) }

def claimNode (s : State) (worker : Nat) (claim : Gid) : State :=
  { s with processing := insert claim s.processing
           holder := update s.holder claim (some worker) }

def look (s : State) (worker : Nat) (node : NodeKey) (session : Text) (run : Run) (claim : Gid) :
    Look × State :=
  let ids := candidateIds s node session run false
  match knownComplete s node session ids with
  | some g => (.known g, s)
  | none => match ids.find? fun g => g ∈ s.processing with
    | some g => (.busy g, s)
    | none => (.taken ids, claimNode s worker claim)

def writeDoc (s : State) (g : Gid) : State :=
  let records := ((s.docs g).map Doc.records).getD []
  { s with docs := update s.docs g (some ⟨some false, records⟩) }

def addNode (s : State) (g : Gid) : Add → Bool × State
  | .written => (true, { writeDoc s g with adds := update s.adds g (s.adds g + 1) })
  | .lost => (false, writeDoc s g)
  | .failed => (false, s)

def partsTruth (s : State) (g : Gid) (manifest : List Part) (docOk listOk : Bool) : List Part :=
  manifest.filter fun p => match p.kind with
    | .image => listOk && (g, p) ∈ s.objects
    | _ => docOk && (s.docs g).any fun d => p ∈ d.records

def putUnless (s : State) (u : Upload) (known : Option Gid) (now : Int) : Placed Gid × State :=
  let subs := ((s.buffers u.kind).entries.get u.node).getD .empty
  let (placed, b) := UploadBuffer.putUnless (cfg.caps u.kind) (s.buffers u.kind) u.node u.sub u now
    ((target s u).or known)
  let old := if placed = .buffered then (subs.get u.sub).map Prod.fst else none
  (placed, { s with buffers := update s.buffers u.kind b
                    replaced := s.replaced ++ old.toList })

def storeObject (s : State) (g : Gid) (u : Upload) (ok : Bool) : Bool × State :=
  let s := { s with handed := s.handed ++ [(g, u)] }
  if ok then (true, { s with objects := insert (g, u.part) s.objects }) else (false, s)

def setRecords (s : State) (g : Gid) (parts : List Part) (ok : Bool) : Bool × State :=
  match s.docs g with
  | some d =>
    if ok then
      let d := { d with records := d.records ∪ parts }
      (true, { s with docs := update s.docs g (some d) })
    else (false, s)
  | none => (false, s)

def markComplete (s : State) (g : Gid) (ok : Bool) : Bool × State :=
  match s.docs g with
  | some d =>
    if ok then (true, { s with docs := update s.docs g (some ⟨some true, d.records⟩) })
    else (false, { s with unmarked := insert g s.unmarked })
  | none => (false, { s with unmarked := insert g s.unmarked })

def countNode (s : State) (g : Gid) : State :=
  { s with nodeCount := update s.nodeCount g.session (s.nodeCount g.session + 1)
           counted := update s.counted g (s.counted g + 1) }

def release (s : State) (claim : Gid) : State :=
  { s with processing := s.processing.erase claim
           holder := update s.holder claim none
           releases := update s.releases claim (s.releases claim + 1) }

def ackEvent (s : State) (e : Acks.Event) (clock : Nat → Int) : State :=
  let (acks, messages) := e.apply cfg.acks clock s.acks
  { s with acks, sent := s.sent ++ messages }

def cleanupOldMappings (s : State) (threshold now : Int) : State :=
  let old := s.mapping.filter fun _ m => now - m.since > threshold
  { s with mapping := s.mapping.filter fun k _ => k ∉ old.keys
           stored := s.stored.filter fun k _ => k ∉ old.keys
           buffers := fun kind => UploadBuffer.cleanup (s.buffers kind) threshold now }

def probed (s : State) (robot : Text) (answer : Option (Option Text)) (now : Int) : State :=
  match answer with
  | none => { s with probeRetry := s.probeRetry.set robot (now + cfg.probeBackoff) }
  | some run =>
    let runs := match run with
      | some r => if r ≠ [] ∧ s.runs.get robot = none then s.runs.set robot r else s.runs
      | none => s.runs
    { s with runProbed := insert robot s.runProbed, probeRetry := s.probeRetry.erase robot, runs }

def perform : (o : Op) → State → Res o × State
  | .probing robot now, s => ((s.runs.get robot).isNone && robot ∉ s.runProbed &&
      !decide (now < (s.probeRetry.get robot).getD 0), s)
  | .probed robot answer now, s => ((), probed cfg s robot answer now)
  | .unprobed robot, s => ((s.runs.get robot).isNone && robot ∉ s.runProbed, s)
  | .detect node session run token, s => match detectAndClearSessionReset s node run token with
    | none => (none, s)
    | some s' => (some (nodeGlobalId s' node session run), s')
  | .look worker node session run claim, s => look s worker node session run claim
  | .enroll claim, s => (if claim ∈ s.processing then some (s.releases claim) else none, s)
  | .woken claim n, s => (decide (n < s.releases claim), s)
  | .nodeExists g ok, s => (if ok then some (s.docs g).isSome else none, s)
  | .isIncomplete g, s => (decide (g ∈ s.incomplete), s)
  | .nodeIngestIncomplete g ok, s => (if ok then some ((s.docs g).any Doc.incomplete) else none, s)
  | .cacheComplete g, s => ((), { s with completeCache := insert g s.completeCache })
  | .cacheNode g, s => ((), { s with nodeCache := insert g s.nodeCache })
  | .addIncomplete g, s => ((), { s with incomplete := insert g s.incomplete })
  | .restore node g session run now, s =>
    let s := restoreMemory s node g session now
    let (images, s) := takeBuffered cfg s .image node session run now
    let (depth, s) := takeBuffered cfg s .depth node session run now
    let (costmap, s) := takeBuffered cfg s .costmap node session run now
    ((images, depth, costmap), s)
  | .mapNode node g session run now, s =>
    let s := { s with stored := s.stored.erase node, mapping := s.mapping.set node ⟨g, now, session⟩ }
    takeBuffered cfg s .image node session run now
  | .addNode g fate, s => addNode s g fate
  | .nodeStored node g session run now, s =>
    let s := { s with stored := s.stored.set node (g, session), incomplete := insert g s.incomplete }
    let (depth, s) := takeBuffered cfg s .depth node session run now
    let (costmap, s) := takeBuffered cfg s .costmap node session run now
    ((depth, costmap), s)
  | .countNode g ok, s => (ok, if ok then countNode s g else s)
  | .markComplete g ok, s => markComplete s g ok
  | .discardIncomplete g, s => ((), { s with incomplete := s.incomplete.erase g })
  | .release _ claim, s => ((), release s claim)
  | .partsTruth g manifest docOk listOk, s => (partsTruth s g manifest docOk listOk, s)
  | .known u, s => (target s u, s)
  | .candidates u, s => (candidateIds s u.node u.session u.run true, s)
  | .cached g, s => (decide (g ∈ s.nodeCache), s)
  | .putUnless u known now, s => putUnless cfg s u known now
  | .storeObject g u ok, s => storeObject s g u ok
  | .setRecords g parts ok, s => setRecords s g parts ok
  | .pop kind node, s =>
    let (us, b) := UploadBuffer.pop (s.buffers kind) node
    (us, { s with buffers := update s.buffers kind b })
  | .drop us, s => ((), { s with dropped := s.dropped ++ us })
  | .ack e clock, s => ((), ackEvent cfg s e clock)
  | .cleanup threshold now, s => ((), cleanupOldMappings s threshold now)

end CloudServer.Ingest
