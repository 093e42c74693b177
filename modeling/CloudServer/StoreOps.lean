import CloudServer.Interact
import CloudServer.StoreSave

/-! The calls of a store as programs over the blob and document operations of its backend. -/
namespace CloudServer.StoreOps
open SceneFold SceneApi StoreTiles StoreSave Interact

inductive Op
  | readMeta
  | cas (expected : Option ℕ) (m : Meta)
  | put (n : Name) (o : Obj)
  | get (n : Name)
  | list
  | delete (n : Name)
  | dropMeta
  | putIndex (version : ℕ)

def Res : Op → Type
  | .readMeta => Option Meta
  | .cas _ _ => Bool
  | .get _ => Option Obj
  | .list => List Name
  | _ => Unit

/-- The object store and the document. -/
structure Backend where
  blobs : Dict Name Obj
  doc : Option Meta

def Backend.empty : Backend := ⟨.empty, none⟩

/-- One backend operation. The compare-and-set tests the version number only; `indexed`
says that the index of a version is recorded in the meta document (the document database
does, the memory backend does not). -/
def perform (indexed : Bool) : (o : Op) → Backend → Res o × Backend
  | .readMeta, s => (s.doc, s)
  | .cas expected m, s =>
    if s.doc.map Meta.version = expected then (true, { s with doc := some m }) else (false, s)
  | .put n o, s => ((), { s with blobs := s.blobs.set n o })
  | .get n, s => (s.blobs.get n, s)
  | .list, s => (s.blobs.keys, s)
  | .delete n, s => ((), { s with blobs := s.blobs.erase n })
  | .dropMeta, s => ((), { s with doc := none })
  | .putIndex v, s => ((), if indexed
      then { s with doc := s.doc.map fun m => { m with index_version := some v } } else s)

abbrev StoreProg := Prog Op Res

def readMeta : StoreProg (Option Meta) := Prog.perform Op.readMeta
def cas (expected : Option ℕ) (m : Meta) : StoreProg Bool := Prog.perform (Op.cas expected m)
def put (n : Name) (o : Obj) : StoreProg Unit := Prog.perform (Op.put n o)
def get (n : Name) : StoreProg (Option Obj) := Prog.perform (Op.get n)

def putAll : List (Name × Obj) → StoreProg Unit
  | [] => pure ()
  | e :: rest => do put e.1 e.2; putAll rest

def deleteAll : List Name → StoreProg Unit
  | [] => pure ()
  | n :: rest => do Prog.perform (Op.delete n); deleteAll rest

def readPages (g : ℕ) : List Hash → StoreProg (Except SaveError (List Page))
  | [] => pure (.ok [])
  | h :: rest => do
    match ← get (.page g h) with
    | some (.page p) => match ← readPages g rest with
      | .ok ps => pure (.ok (p :: ps))
      | .error e => pure (.error e)
    | _ => pure (.error (.notFound (.page g h)))

def expandWith (b : Body) (ps : List Page) : Manifest :=
  let charts := sortCharts (ps.flatMap Page.charts)
  ⟨b, Dict.ofList (ps.flatMap fun p => p.tiles.items), charts, sortLinks (ps.flatMap Page.links),
    Dict.ofList (charts.map fun c => (c.key, c.id))⟩

def rawManifest (n : Name) : StoreProg (Except SaveError Body) := do
  match ← get n with
  | some (.manifest b) => pure (.ok b)
  | _ => pure (.error (.notFound n))

def expand (n : Name) : StoreProg (Except SaveError Manifest) := do
  match ← rawManifest n with
  | .error e => pure (.error e)
  | .ok b => match ← readPages b.generation (b.pages.items.map Prod.snd) with
    | .ok ps => pure (.ok (expandWith b ps))
    | .error e => pure (.error e)

/-- The expanded manifest of a name, from the memory or read back and remembered. -/
def manifestByName (mem : Memory) : Option Name →
    StoreProg (Except SaveError (Option Manifest) × Memory)
  | none => pure (.ok none, mem)
  | some n => do
    let epoch := (← readMeta).map Meta.epoch
    match mem.expanded.get (epoch, n) with
    | some m => pure (.ok (some m), mem)
    | none => match ← expand n with
      | .ok m => pure (.ok (some m), mem.remember epoch n m)
      | .error e => pure (.error e, mem)

def checkDue (cfg : Config) (mem : Memory) (c : SaveCall) : Bool :=
  c.full || (decide (cfg.verify_every ≠ 0) && decide ((mem.saves + 1) % cfg.verify_every = 0))

def writeVersion (mem : Memory) (cur : Option ℕ) (gen : ℕ) (pend : Bool) (w : Write) :
    StoreProg (Except SaveError ℕ × Memory) := do
  putAll w.puts
  put w.name (.manifest w.body)
  if ← cas cur w.newMeta then
    let mem := { mem with
      last_segments := mem.last_segments.set gen (w.name, w.segs)
      last_pages := mem.last_pages.set gen (w.name, w.pages) }
    let mem := mem.remember (some w.newMeta.epoch) w.name w.expanded
    if pend then pure (.ok w.result, mem)
    else do
      Prog.perform (Op.putIndex w.result)
      pure (.ok w.result, mem)
  else pure (.error .lostCompareAndSet, mem)

def save (codec : Codec) (cfg : Config) (c : SaveCall) (mem : Memory) :
    StoreProg (Except SaveError ℕ × Memory) := do
  let md ← readMeta
  match saveTarget md c with
  | .error e => pure (.error e, mem)
  | .ok (gen, pend) =>
    match ← manifestByName mem (baseName md pend) with
    | (.error e, mem) => pure (.error e, mem)
    | (.ok prev, mem) =>
      let due := checkDue cfg mem c
      let counted := { mem with saves := if due then 0 else mem.saves + 1 }
      match draftSave codec cfg mem md gen pend prev c due with
      | .error e => pure (.error e, if e = .keyError then counted else mem)
      | .ok d => match planSave codec md gen pend prev c d with
        | .same none r => pure (.ok r, counted)
        | .same (some m) r => do
          if ← cas (md.map Meta.version) m then pure (.ok r, counted)
          else pure (.error .lostCompareAndSet, counted)
        | .write w => writeVersion counted (md.map Meta.version) gen pend.isSome w

def nextGeneration (m : Meta) : ℕ :=
  (m.generations.keys ++ [m.generation] ++ (m.pending.map Pending.generation).toList).foldr max 0 + 1

structure BeginCall where
  params_hash : Option Hash
  fresh : Bool
  rebuild_batch : Option ℕ
  now : ℤ

def beginGeneration (c : BeginCall) : StoreProg (Except SaveError ℕ) := do
  match ← readMeta with
  | none => pure (.error .keyError)
  | some m =>
    let start : StoreProg (Except SaveError ℕ) := do
      let g := nextGeneration m
      let p : Pending := ⟨g, 0, none, c.params_hash, none, none, c.rebuild_batch, c.now⟩
      if ← cas (some m.version) { m with pending := some p } then pure (.ok g)
      else pure (.error .lostCompareAndSet)
    match m.pending with
    | none => start
    | some p =>
      if !c.fresh && (c.params_hash.isNone || p.params_hash.isNone || p.params_hash = c.params_hash)
      then
        if c.params_hash.isSome && p.params_hash.isNone then do
          if ← cas (some m.version)
              { m with pending := some { p with params_hash := c.params_hash } }
          then pure (.ok p.generation)
          else pure (.error .lostCompareAndSet)
        else pure (.ok p.generation)
      else start

/-- Reads the two tiles at a place both versions hold; equal hashes are read once. -/
def readPair (go gn : ℕ) (ho hn : Hash) : StoreProg (Except SaveError (Tile × Tile)) := do
  match ← get (.tile go ho) with
  | some (.tile a) =>
    if ho = hn then pure (.ok (a, a))
    else match ← get (.tile gn hn) with
      | some (.tile b) => pure (.ok (a, b))
      | _ => pure (.error (.notFound (.tile gn hn)))
  | _ => pure (.error (.notFound (.tile go ho)))

def readPairs (go gn : ℕ) : List (Hash × Hash) → StoreProg (Except SaveError (List (Tile × Tile)))
  | [] => pure (.ok [])
  | e :: rest => do
    match ← readPair go gn e.1 e.2 with
    | .error e => pure (.error e)
    | .ok p => match ← readPairs go gn rest with
      | .ok ps => pure (.ok (p :: ps))
      | .error e => pure (.error e)

def commonTiles (old new : Manifest) : List (Hash × Hash) :=
  old.tiles.items.filterMap fun e => (new.tiles.get e.1).map fun h => (e.2, h)

def keyOfId (m : Manifest) (id : ℕ) : Option Key :=
  (m.charts.reverse.find? fun c => c.id = id).map ChartDoc.key

/-- The pairs of chart keys that share a cell of a tile pair, once for each cell. -/
def sharedKeys (old new : Manifest) (p : Tile × Tile) : List (Key × Key) :=
  match p.1.own, p.2.own with
  | some a, some b =>
    (List.finRange TILE_L).flatMap fun r => (List.finRange TILE_L).filterMap fun c =>
      if 0 < a r c ∧ 0 < b r c then
        (keyOfId old (a r c)).bind fun ko => (keyOfId new (b r c)).bind fun kn =>
          if ko ≠ "" ∧ kn ≠ "" then some (ko, kn) else none
      else none
  | _, _ => []

/-- Every old key with the new keys that share cells with it, largest overlap first. -/
def overlapKeymap (old new : Manifest) (pairs : List (Tile × Tile)) : Dict Key (List Key) :=
  let shared := pairs.flatMap (sharedKeys old new)
  Dict.ofList (old.charts.map fun c =>
    let mine := (shared.filter fun e => e.1 = c.key).map Prod.snd
    (c.key, (mine.dedup.mergeSort fun a b =>
      decide (toLex (mine.count b, a) ≤ toLex (mine.count a, b)))))

def switchMeta (m : Meta) (new : Manifest) (generation newv : ℕ) (n : Name) : Meta :=
  { m with
    version := newv, generation := generation, params := new.body.params
    params_hash := new.body.params_hash, cursor := new.body.cursor, watermark := new.body.watermark
    manifest := n, generations := m.generations.set generation newv, pending := none }

def commitGeneration (generation : ℕ) (mem : Memory) :
    StoreProg (Except SaveError (ℕ × Dict Key (List Key)) × Memory) := do
  let md ← readMeta
  match md, md.bind Meta.pending with
  | some m, some p =>
    match p.manifest with
    | none => pure (.error .generation, mem)
    | some pn =>
      if p.generation ≠ generation then pure (.error .generation, mem)
      else match ← manifestByName mem (some m.manifest) with
      | (.ok (some old), mem) => match ← manifestByName mem (some pn) with
        | (.ok (some new), mem) =>
          match ← readPairs old.body.generation new.body.generation (commonTiles old new) with
          | .error e => pure (.error e, mem)
          | .ok pairs =>
            let kmap := overlapKeymap old new pairs
            let newv := m.version + 1
            match ← rawManifest pn with
            | .error e => pure (.error e, mem)
            | .ok raw =>
              let n := Name.manifest generation newv
              put n (.manifest { raw with
                version := some newv, retired := kmap, from_generation := some old.body.generation })
              if ← cas (some m.version) (switchMeta m new generation newv n)
              then pure (.ok (newv, kmap), mem)
              else pure (.error .lostCompareAndSet, mem)
        | (.ok none, mem) => pure (.error .generation, mem)
        | (.error e, mem) => pure (.error e, mem)
      | (.ok none, mem) => pure (.error .generation, mem)
      | (.error e, mem) => pure (.error e, mem)
  | _, _ => pure (.error .generation, mem)

/-- The generation a version was committed in, from the start versions of the generations. -/
def generationOf (m : Meta) (v : ℕ) : ℕ :=
  let gs := (m.generations.items.filter fun e => e.2 ≤ v).map Prod.fst
  if gs = [] then m.generation else gs.foldr max 0

def nameOf (m : Meta) (v : ℕ) : Name := .manifest (generationOf m v) v

def pageRefs (g : ℕ) : List Hash → StoreProg (List Name)
  | [] => pure []
  | h :: rest => do
    let tiles := match ← get (.page g h) with
      | some (.page p) => p.tiles.items.map fun e => Name.tile g e.2
      | _ => []
    return .page g h :: tiles ++ (← pageRefs g rest)

def bodyRefs (b : Body) : StoreProg (List Name) := do
  let pages ← pageRefs b.generation (b.pages.items.map Prod.snd)
  return pages ++ b.segments.map (.segment b.generation)

/-- The manifests of these names that exist, and everything reachable from them. -/
def keepRefs : List Name → StoreProg (List Name)
  | [] => pure []
  | n :: rest => do
    match ← get n with
    | some (.manifest b) => do
      let refs ← bodyRefs b
      return n :: refs ++ (← keepRefs rest)
    | _ => keepRefs rest

structure GcCall where
  keep_last : ℤ
  leased : List ℕ

def keepVersions (cur : ℕ) (c : GcCall) : List ℕ :=
  (List.range (cur + 1)).filter fun v =>
    1 ≤ v ∧ ((cur : ℤ) - c.keep_last + 1 ≤ v ∨ v ∈ c.leased)

def gc (c : GcCall) (mem : Memory) : StoreProg (Except SaveError ℕ × Memory) := do
  match ← readMeta with
  | none => pure (.ok 0, mem)
  | some m =>
    let kept ← keepRefs ((keepVersions m.version c).map (nameOf m))
    let pn := m.pending.bind Pending.manifest
    let pkept ← match pn with
      | none => pure (.ok [])
      | some n => do
        match ← get n with
        | some (.manifest b) => do
          let refs ← bodyRefs b
          pure (Except.ok (n :: refs))
        | _ => pure (.error (SaveError.notFound n))
    match pkept with
    | .error e => pure (.error e, mem)
    | .ok pkept => do
      let names : List Name ← Prog.perform Op.list
      let dead := names.filter fun n => n ∉ kept ∧ n ∉ pkept
      deleteAll dead
      pure (.ok dead.length, { mem with expanded := mem.expanded.filter fun k _ => k.2 ∉ dead })

def drop (mem : Memory) : StoreProg (Except SaveError ℕ × Memory) := do
  let names : List Name ← Prog.perform Op.list
  deleteAll names
  let rest : List Name ← Prog.perform Op.list
  deleteAll rest
  Prog.perform Op.dropMeta
  pure (.ok 0, { mem with expanded := .empty })

/-- Name of the manifest a reader asks for: a version (`none` the current one) or the
pending generation's. -/
def wantedName (m : Meta) (version : Option ℕ) (pending : Bool) : Option Name :=
  if pending then m.pending.bind Pending.manifest
  else match version with
    | none => some m.manifest
    | some v => some (if v = m.version then m.manifest else nameOf m v)

def manifest (version : Option ℕ) (pending : Bool) (mem : Memory) :
    StoreProg (Except SaveError Manifest × Memory) := do
  match ← readMeta with
  | none => pure (.error .keyError, mem)
  | some m => match ← manifestByName mem (wantedName m version pending) with
    | (.ok (some man), mem) => pure (.ok man, mem)
    | (.ok none, mem) => pure (.error .keyError, mem)
    | (.error e, mem) => pure (.error e, mem)

end CloudServer.StoreOps
