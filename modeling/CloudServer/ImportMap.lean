import CloudServer.Execution

/-! The imports of one map of this server, statement by statement, beside the deletion of the map
and imports of other maps: the row of the map, its graph, its objects, its sessions and its view
settings. -/
namespace CloudServer.ImportMap

open Interact (Prog)

abbrev MapName := ℕ
abbrev Key := ℕ
abbrev SessionId := ℕ
abbrev ImportId := ℕ

inductive MapState
  | draft
  | mapping
  | paused
  | ready
  | archived
deriving DecidableEq

inductive Lifecycle
  | alive
  | deleting
  | deleted
deriving DecidableEq

inductive Phase
  | importing
  | complete
deriving DecidableEq

/-- `status.imported_from`. -/
structure Marker where
  source : ℕ
  map : MapName
  importId : ImportId
  importIds : List ImportId
  phase : Phase
  sourceState : Option MapState
deriving DecidableEq

structure Row where
  lifecycle : Lifecycle
  state : Option MapState
  importedFrom : Option Marker
deriving DecidableEq

inductive Coll
  | nodes
  | edges
deriving DecidableEq

/-- A document of the graph; `fromNode` and `toNode` are the collection of a map and a key. -/
structure Doc (β : Type) where
  key : Key
  mapId : Option MapName
  fromNode : Option (MapName × Key)
  toNode : Option (MapName × Key)
  body : β
deriving DecidableEq

/-- A line of `objects.ndjson`; `present` was left out of the bundle. -/
structure Object (β : Type) where
  key : Key
  size : ℕ
  present : Bool
  body : β

structure Stored (β : Type) where
  size : ℕ
  body : β
deriving DecidableEq

inductive Holder (β : Type)
  | here (record : β)
  | elsewhere
deriving DecidableEq

structure Bundle (β : Type) where
  source : ℕ
  map : MapName
  sourceState : Option MapState
  sessions : List (SessionId × β)
  nodes : List (Doc β)
  edges : List (Doc β)
  objects : List (Object β)
  view : Option β
  nodeKeys : (nodes.map (·.key)).Nodup
  edgeKeys : (edges.map (·.key)).Nodup
  objectKeys : (objects.map (·.key)).Nodup

section
variable {β : Type}

def Doc.rewriteNode (dst : MapName) (d : Doc β) : Doc β := { d with mapId := d.mapId.map fun _ => dst }

def renameEnd (src dst : MapName) (e : MapName × Key) : MapName × Key :=
  if e.1 = src then (dst, e.2) else e

def Doc.rewriteEdge (src dst : MapName) (d : Doc β) : Doc β :=
  { d with
    fromNode := d.fromNode.map (renameEnd src dst)
    toNode := d.toNode.map (renameEnd src dst)
    mapId := d.mapId.map fun _ => dst }

def Bundle.docs (b : Bundle β) (dst : MapName) : Coll → List (Doc β)
  | .nodes => b.nodes.map (·.rewriteNode dst)
  | .edges => b.edges.map (·.rewriteEdge b.map dst)

def batch : ℕ := 500

/-- `_batches`, after some items of a batch. -/
def batchesFrom {α : Type} (size : ℕ) (items : List α) : List α → List (List α)
  | [] => if items.isEmpty then [] else [items]
  | x :: rest =>
    if (items ++ [x]).length ≥ size then (items ++ [x]) :: batchesFrom size [] rest
    else batchesFrom size (items ++ [x]) rest

def batches {α : Type} (size : ℕ) (items : List α) : List (List α) := batchesFrom size [] items

/-- One map of the target while imports write it. -/
structure Store (β : Type) where
  row : Option Row
  docs : Coll → Key → Option (Doc β)
  objects : Key → Option (Stored β)
  sessions : SessionId → Option (Holder β)
  view : Option β
  reported : Bool

inductive Fate
  | done
  | failed
  | lost
deriving DecidableEq

def Fate.ok : Fate → Bool
  | .done => true
  | _ => false

inductive PutFate
  | done
  | broken (got : List Key)

inductive ObjectFate
  | done
  | failed
  | lost
  | torn (size : ℕ)

inductive DropFate (α : Type)
  | done
  | broken (gone : List α)

inductive Op (β : Type)
  | lock (granted : Bool)
  | getRow (ok : Bool)
  | beginMap (marker : Marker) (fate : Fate)
  | addSessions (sessions : List (SessionId × β)) (fate : Fate)
  | insertMany (coll : Coll) (docs : List (Doc β)) (fate : PutFate)
  | objectSize (key : Key) (ok : Bool)
  | putObject (object : Object β) (fate : ObjectFate)
  | putViewSettings (settings : β) (fate : Fate)
  | commitMap (state : MapState) (marker : Marker) (fate : Fate)
  | leave (ok closed : Bool)
  | addElsewhere (sessions : List SessionId)
  | mark (fate : Fate)
  | load (ok : Bool)
  | deleteGraph (fate : DropFate Coll)
  | deleteImages (fate : DropFate Key)
  | finish (fate : Fate)

/-- What a statement returns: `none` or `false` when it raises. -/
def Res {β : Type} : Op β → Type
  | .getRow _ | .load _ => Option (Option Row)
  | .beginMap .. => Option Bool
  | .objectSize .. => Option ℕ
  | _ => Bool

abbrev Import (β α : Type) := Prog (Op β) Res α

abbrev Log (β : Type) := List (Σ o : Op β, Res o)

def insertDocs (old : Key → Option (Doc β)) (docs : List (Doc β)) (k : Key) : Option (Doc β) :=
  (old k).or (docs.find? (·.key = k))

def Store.beginMap (s : Store β) (marker : Marker) : Bool × Store β :=
  match s.row with
  | none => (true, { s with
      row := some ⟨.alive, some .archived, some marker⟩
      reported := false })
  | some _ => (false, s)

def Store.addSessions (s : Store β) (sessions : List (SessionId × β)) : Store β :=
  { s with
    sessions := fun id =>
      (s.sessions id).or ((sessions.find? (·.1 = id)).map fun x => .here x.2) }

def Store.insertMany (s : Store β) (coll : Coll) (docs : List (Doc β)) : Store β :=
  { s with docs := Function.update s.docs coll (insertDocs (s.docs coll) docs) }

def Store.putObject (s : Store β) (key : Key) (stored : Stored β) : Store β :=
  { s with objects := Function.update s.objects key (some stored) }

def Store.putViewSettings (s : Store β) (settings : β) : Store β :=
  { s with view := s.view.or (some settings) }

def Store.commitMap (s : Store β) (state : MapState) (marker : Marker) : Store β :=
  { s with row := s.row.map fun r => { r with state := some state, importedFrom := some marker } }

def Store.addElsewhere (s : Store β) (sessions : List SessionId) : Store β :=
  { s with
    sessions := fun id => (s.sessions id).or (if id ∈ sessions then some .elsewhere else none) }

/-- `MARK_SQL`. -/
def Store.mark (s : Store β) : Store β :=
  { s with row := some (match s.row with
    | none => ⟨.deleting, none, none⟩
    | some r => { r with lifecycle := .deleting }) }

def Store.deleteGraph (s : Store β) (gone : Coll → Bool) : Store β :=
  { s with docs := fun coll k => if gone coll then none else s.docs coll k }

def Store.deleteImages (s : Store β) (gone : Key → Bool) : Store β :=
  { s with objects := fun k => if gone k then none else s.objects k }

/-- The transaction of `_finish`. -/
def Store.finish (s : Store β) : Store β :=
  match s.row with
  | none => s
  | some r => if r.lifecycle = .deleting then { s with
      row := none
      sessions := fun id => match s.sessions id with
        | some (.here _) => none
        | held => held
      view := none }
    else s

def step : (o : Op β) → Store β → Res o × Store β
  | .lock granted, s => (granted, s)
  | .getRow ok, s => (if ok then some (s.row.filter (·.lifecycle ≠ .deleted)) else none, s)
  | .beginMap marker fate, s => match fate with
    | .done => (some (s.beginMap marker).1, (s.beginMap marker).2)
    | .failed => (none, s)
    | .lost => (none, (s.beginMap marker).2)
  | .addSessions sessions fate, s =>
    (fate.ok, if fate = .failed then s else s.addSessions sessions)
  | .insertMany coll docs fate, s => match fate with
    | .done => (true, s.insertMany coll docs)
    | .broken got => (false, s.insertMany coll (docs.filter (·.key ∈ got)))
  | .objectSize key ok, s => (if ok then (s.objects key).map (·.size) else none, s)
  | .putObject o fate, s => match fate with
    | .done => (true, s.putObject o.key ⟨o.size, o.body⟩)
    | .failed => (false, s)
    | .lost => (false, s.putObject o.key ⟨o.size, o.body⟩)
    | .torn size => (false, if size = o.size then s else s.putObject o.key ⟨size, o.body⟩)
  | .putViewSettings settings fate, s =>
    (fate.ok, if fate = .failed then s else s.putViewSettings settings)
  | .commitMap state marker fate, s =>
    (fate.ok, if fate = .failed then s else s.commitMap state marker)
  | .leave ok closed, s => (closed, { s with reported := s.reported || (ok && closed) })
  | .addElsewhere sessions, s => (true, s.addElsewhere sessions)
  | .mark fate, s => (fate.ok, if fate = .failed then s else s.mark)
  | .load ok, s => (if ok then some s.row else none, s)
  | .deleteGraph fate, s => match fate with
    | .done => (true, s.deleteGraph fun _ => true)
    | .broken gone => (false, s.deleteGraph fun coll => decide (coll ∈ gone))
  | .deleteImages fate, s => match fate with
    | .done => (true, s.deleteImages fun _ => true)
    | .broken gone => (false, s.deleteImages fun k => decide (k ∈ gone))
  | .finish fate, s => (fate.ok, if fate = .failed then s else s.finish)

/-- Where `should_stop` is asked. -/
inductive Place
  | batch (coll : Coll) (i : ℕ)
  | object (i : ℕ)
  | last

structure Script where
  granted : Bool
  row : Bool
  opened : Fate
  again : Bool
  sessions : Fate
  put : Coll → ℕ → PutFate
  stat : ℕ → Bool
  object : ℕ → ObjectFate
  view : Fate
  commit : Fate
  closed : Bool
  stop : Place → Bool

def Script.smooth : Script :=
  ⟨true, true, .done, true, .done, fun _ _ => .done, fun _ => true, fun _ => .done, .done, .done,
    true, fun _ => false⟩

def lock (granted : Bool) : Import β Bool := Prog.perform (Op.lock granted)

def getRow (ok : Bool) : Import β (Option (Option Row)) := Prog.perform (Op.getRow ok)

def beginMap (marker : Marker) (fate : Fate) : Import β (Option Bool) :=
  Prog.perform (Op.beginMap marker fate)

def addSessions (sessions : List (SessionId × β)) (fate : Fate) : Import β Bool :=
  Prog.perform (Op.addSessions sessions fate)

def insertMany (coll : Coll) (docs : List (Doc β)) (fate : PutFate) : Import β Bool :=
  Prog.perform (Op.insertMany coll docs fate)

def objectSize (key : Key) (ok : Bool) : Import β (Option ℕ) := Prog.perform (Op.objectSize key ok)

def putObject (object : Object β) (fate : ObjectFate) : Import β Bool :=
  Prog.perform (Op.putObject object fate)

def putViewSettings (settings : β) (fate : Fate) : Import β Bool :=
  Prog.perform (Op.putViewSettings settings fate)

def commitMap (state : MapState) (marker : Marker) (fate : Fate) : Import β Bool :=
  Prog.perform (Op.commitMap state marker fate)

/-- The connection of the lock is closed, and the map is reported ok if all went well. -/
def leave (ok closed : Bool) : Import β Bool := Prog.perform (Op.leave ok closed)

def load (ok : Bool) : Import β (Option (Option Row)) := Prog.perform (Op.load ok)

def andThen (p q : Import β Bool) : Import β Bool := do
  if ← p then q else pure false

def Bundle.opening (b : Bundle β) (importId : ImportId) : Marker :=
  ⟨b.source, b.map, importId, [], .importing, b.sourceState⟩

/-- The row was imported from the same map of the same server: the marker to go on with. -/
def Row.resumes (r : Row) (b : Bundle β) (importId : ImportId) : Option Marker :=
  match r.importedFrom with
  | none => none
  | some theirs =>
    if theirs.source = b.source ∧ theirs.map = b.map then
      some ⟨b.source, b.map, if theirs.phase = .complete then theirs.importId else importId, [],
        .importing, none⟩
    else none

def Marker.touch (m : Marker) (importId : ImportId) : Marker :=
  { m with importIds :=
      let ids := if m.importIds.isEmpty then [m.importId] else m.importIds
      if importId ∈ ids then ids else ids ++ [importId] }

def reread (local_ : Marker) (importId : ImportId) (w : Script) : Import β (Option Marker) := do
  match ← getRow w.again with
  | some (some row) => pure (some ((row.importedFrom.getD local_).touch importId))
  | _ => pure none

def openRow (b : Bundle β) (importId : ImportId) (w : Script) : Import β (Option Marker) := do
  match ← getRow w.row with
  | none => pure none
  | some (some row) =>
    match row.resumes b importId with
    | none => pure none
    | some marker => reread marker importId w
  | some none =>
    match ← beginMap (b.opening importId) w.opened with
    | some true => reread (b.opening importId) importId w
    | _ => pure none

def putBatches (coll : Coll) (w : Script) : ℕ → List (List (Doc β)) → Import β Bool
  | _, [] => pure true
  | i, docs :: rest =>
    if w.stop (.batch coll i) then pure false
    else andThen (insertMany coll docs (w.put coll i)) (putBatches coll w (i + 1) rest)

def copyObjects (w : Script) : ℕ → List (Object β) → Import β Bool
  | _, [] => pure true
  | i, o :: rest =>
    if w.stop (.object i) then pure false
    else do
      let size ← objectSize o.key (w.stat i)
      if size = some o.size then copyObjects w (i + 1) rest
      else if o.present then pure false
      else andThen (putObject o (w.object i)) (copyObjects w (i + 1) rest)

def copyView (b : Bundle β) (w : Script) : Import β Bool :=
  if w.stop .last then pure false
  else match b.view with
    | none => pure true
    | some settings => putViewSettings settings w.view

def copyContent (dst : MapName) (b : Bundle β) (w : Script) : Import β Bool :=
  andThen (addSessions b.sessions w.sessions)
    (andThen (putBatches .nodes w 0 (batches batch (b.docs dst .nodes)))
      (andThen (putBatches .edges w 0 (batches batch (b.docs dst .edges)))
        (andThen (copyObjects w 0 b.objects) (copyView b w))))

def finalState (sourceState : Option MapState) (nodeCount : ℕ) : MapState :=
  if sourceState = some .archived then .archived
  else if nodeCount > 0 then .ready else .draft

/-- What `_apply_map` does while it holds the lock. -/
def copyMap (dst : MapName) (b : Bundle β) (importId : ImportId) (w : Script) : Import β Bool := do
  match ← openRow b importId w with
  | none => pure false
  | some marker =>
    andThen (copyContent dst b w)
      (commitMap (finalState marker.sourceState b.nodes.length) { marker with phase := .complete }
        w.commit)

/-- `_apply_map`, and the map's part of the report. -/
def applyMap (dst : MapName) (b : Bundle β) (importId : ImportId) (w : Script) :
    Import β Bool := do
  if ← lock w.granted then
    let ok ← copyMap dst b importId w
    let closed ← leave ok w.closed
    pure (ok && closed)
  else pure false

structure Attempt where
  load : Bool
  graph : DropFate Coll
  images : DropFate Key
  finish : Fate

/-- `_round`. The drops of an attempt are both made, whatever the first one returns. -/
def round : List Attempt → Import β Unit
  | [] => pure ()
  | a :: rest => do
    match ← load a.load with
    | some (some row) =>
      if row.lifecycle = .deleting then
        let graph ← (Prog.perform (Op.deleteGraph a.graph) : Import β Bool)
        let images ← (Prog.perform (Op.deleteImages a.images) : Import β Bool)
        if graph && images then
          let _ ← (Prog.perform (Op.finish a.finish) : Import β Bool)
          pure ()
        else round rest
      else pure ()
    | _ => pure ()

inductive Call (β : Type)
  | applyMap (b : Bundle β) (importId : ImportId) (w : Script)
  | elsewhere (sessions : List SessionId)
  | request (fate : Fate)
  | round (attempts : List Attempt)

def body (dst : MapName) : Call β → Unit → Import β (Bool × Unit)
  | .applyMap b importId w, _ => do
    let ok ← applyMap dst b importId w
    pure (ok, ())
  | .elsewhere sessions, _ => do
    let _ ← (Prog.perform (Op.addElsewhere sessions) : Import β Bool)
    pure (true, ())
  | .request fate, _ => do
    let _ ← (Prog.perform (Op.mark fate) : Import β Bool)
    pure (true, ())
  | .round attempts, _ => do
    round attempts
    pure (true, ())

end
end CloudServer.ImportMap
