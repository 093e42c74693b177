import CloudServer.SceneFold
import CloudServer.StoreTiles

/-! Records the scene-graph engine hands to its callers, numbers as exact rationals. Then the
computation of a save: key ids, dirty tiles, segments, pages and the manifest body, from the meta
document, the base manifest and the engine state. Objects are taken decoded; their names are hashes
of their content. -/
namespace CloudServer.SceneApi
open SceneFold

abbrev Key := String
abbrev Pt := ℚ × ℚ

structure Dirty where
  bbox : Option BBox
  changed : List Key
  retired : Dict Key (List Key)
  links : List (Key × Key)
  watermark : ℤ ×ₗ String

structure Chart where
  key : Key
  anchor : Pt
  cells : ℕ
  area_m2 : ℚ
  clearance : ℚ
  driven_frac : ℚ
  ever_blocked_frac : ℚ
  leaf : Option String
  parent : Dict ℕ Key
  peak : ℚ
  region : ℕ
  deriving DecidableEq

structure Link where
  a : Key
  b : Key
  length : ℚ
  width : ℚ
  portal : Pt × Pt
  channels : Dict String ℚ
  saddle : ℚ
  deriving DecidableEq

/-- The owner plane over a box: `0` is no chart cell, `i > 0` is `keys[i - 1]`. -/
structure OwnerRaster where
  origin : Pt
  step : ℚ
  rows : ℕ
  cols : ℕ
  index : Cells ℕ
  keys : List Key

structure ViewResult where
  version : ℕ
  charts : List Chart
  links : List Link
  raster : Option OwnerRaster
  levels : ℕ

end CloudServer.SceneApi

namespace CloudServer.StoreSave
open SceneFold SceneApi StoreTiles

abbrev Hash := String
abbrev Coord := ℤ ×ₗ ℤ

def coord (x y : ℤ) : Coord := toLex (x, y)

def SEGMENT : ℕ := 1024
def SUPER : ℤ := 8

structure ChartDoc where
  key : Key
  id : ℕ
  peak : ℚ
  region : ℕ
  anchor : Pt
  cell : ℤ × ℤ
  cells : ℕ
  area : ℚ
  clearance : ℚ
  driven : ℚ
  ever_blocked : ℚ
  leaf : Option String
  deriving DecidableEq

structure LinkDoc where
  a : Key
  b : Key
  length : ℚ
  width : ℚ
  saddle : ℚ
  portal : Pt × Pt
  channels : Dict String ℚ
  deriving DecidableEq

structure Page where
  tiles : Dict Coord Hash
  charts : List ChartDoc
  links : List LinkDoc
  deriving DecidableEq

structure Content where
  pipeline : String
  generation : ℕ
  params : SceneParams
  params_hash : Hash
  watermark : ℤ ×ₗ String
  channels : List String
  next_id : ℕ
  pages : Dict Coord Hash
  order : List ℕ
  chart_count : ℕ
  tile_count : ℕ
  segments : List Hash
  leaf_count : ℕ

structure Body extends Content where
  cursor : Option String
  engine_version : ℕ
  canvas : Canvas
  retired : Dict Key (List Key)
  content_hash : Hash
  version : Option ℕ
  created_ms : ℤ
  from_generation : Option ℕ

structure Manifest where
  body : Body
  tiles : Dict Coord Hash
  charts : List ChartDoc
  links : List LinkDoc
  key_ids : Dict Key ℕ

/-- The names of the objects of a map, by generation. -/
inductive Name
  | tile (g : ℕ) (h : Hash)
  | segment (g : ℕ) (h : Hash)
  | page (g : ℕ) (h : Hash)
  | manifest (g v : ℕ)
  | pending (g pv : ℕ)
  deriving DecidableEq

inductive Obj
  | tile (t : Tile)
  | segment (rows : List LeafRecord)
  | page (p : Page)
  | manifest (b : Body)

/-- The hashes that objects are stored under. -/
structure Codec where
  tile : Tile → Hash
  segment : List LeafRecord → Hash
  page : Page → Hash
  params : SceneParams → Hash
  content : Content → Hash

structure Pending where
  generation : ℕ
  version : ℕ
  manifest : Option Name
  params_hash : Option Hash
  cursor : Option String
  watermark : Option (ℤ ×ₗ String)
  rebuild_batch : Option ℕ
  begun_ms : ℤ
  deriving DecidableEq

/-- The document of a map. -/
structure Meta where
  version : ℕ
  generation : ℕ
  params : SceneParams
  params_hash : Hash
  cursor : Option String
  watermark : ℤ ×ₗ String
  manifest : Name
  generations : Dict ℕ ℕ
  created_ms : ℤ
  epoch : String
  pending : Option Pending
  index_version : Option ℕ

def pipelineOf (p : SceneParams) : String :=
  if p.place_peak_m.isSome then "morse/2+close+valid+place"
  else if p.near_range_m.isSome then "morse/2+close+valid" else "morse/2"

inductive SaveError
  | stale (expected stored : Option ℕ)
  | lostCompareAndSet
  | generation
  | noState
  | paramsDiffer
  | coverage
  | notFound (n : Name)
  | keyError
  deriving DecidableEq

/-- One call of `save`: the engine's state and view, and what the caller passes. `now` and
`uuid` are what the clock and the generator would return. -/
structure SaveCall where
  state : Option EngineState
  charts : List Chart
  links : List Link
  dirty : Option Dirty
  expected_version : Option ℕ
  cursor : Option String
  generation : Option ℕ
  full : Bool
  now : ℤ
  uuid : String

structure Config where
  verify_every : ℕ
  strict : Bool

/-- What a store keeps between its calls. -/
structure Memory where
  expanded : Dict (Option String × Name) Manifest
  last_segments : Dict ℕ (Name × List (List LeafRecord) × List Hash)
  last_pages : Dict ℕ (Name × Dict Coord (Page × Hash))
  saves : ℕ

def Memory.blank : Memory := ⟨.empty, .empty, .empty, 0⟩

def CACHE_SIZE : ℕ := 8

def evict (d : Dict (Option String × Name) Manifest) : Dict (Option String × Name) Manifest :=
  ⟨d.items.drop (d.items.length - (CACHE_SIZE - 1)),
    ((List.drop_sublist _ _).map Prod.fst).nodup d.nodup⟩

def Memory.remember (m : Memory) (epoch : Option String) (n : Name) (man : Manifest) : Memory :=
  { m with expanded := (evict m.expanded).set (epoch, n) man }

/-- The generation a save goes into, with the pending one it continues. -/
def saveTarget (md : Option Meta) (c : SaveCall) : Except SaveError (ℕ × Option Pending) :=
  let cur := md.map Meta.version
  let expected := c.expected_version.filter (· ≠ 0)
  if expected ≠ cur then .error (.stale c.expected_version cur)
  else
    let gen_cur := md.elim 1 Meta.generation
    let pending := md.bind Meta.pending
    match c.generation with
    | none => .ok (gen_cur, none)
    | some g =>
      if g = gen_cur then .ok (gen_cur, none)
      else match pending with
        | some p => if p.generation = g then .ok (g, some p) else .error .generation
        | none => .error .generation

def baseName (md : Option Meta) (pend : Option Pending) : Option Name :=
  pend.elim (md.map Meta.manifest) Pending.manifest

def knownNames (man : Option Manifest) : List Name :=
  man.elim [] fun m =>
    let g := m.body.generation
    m.tiles.items.map (fun e => .tile g e.2) ++ m.body.segments.map (.segment g) ++
      m.body.pages.items.map fun e => .page g e.2

def tilesOf (b : BBox) (t : Coord) : Prop :=
  (⌊b.x0 / SceneLeaf.RES⌋ / TILE_F ≤ (ofLex t).1 ∧ (ofLex t).1 ≤ ⌊b.x1 / SceneLeaf.RES⌋ / TILE_F) ∧
    (⌊b.y0 / SceneLeaf.RES⌋ / TILE_F ≤ (ofLex t).2 ∧ (ofLex t).2 ≤ ⌊b.y1 / SceneLeaf.RES⌋ / TILE_F)

instance (b : BBox) (t : Coord) : Decidable (tilesOf b t) := inferInstanceAs (Decidable (_ ∧ _))

def padBox (b : BBox) : BBox :=
  let pad := 4 * SceneLeaf.RES
  ⟨b.x0 - pad, b.y0 - pad, b.x1 + pad, b.y1 + pad⟩

def allTiles (c : Canvas) : List Coord :=
  let r := tileRange c
  (intRange r.1 (r.2.2.1 + 1)).flatMap fun tx =>
    (intRange r.2.1 (r.2.2.2 + 1)).map fun ty => coord tx ty

def dirtyTiles (c : Canvas) (dirty : Option Dirty) : List Coord :=
  match dirty.bind Dirty.bbox with
  | none => []
  | some b => (allTiles c).filter fun t => tilesOf (padBox b) t

def packTile (codec : Codec) (st : EngineState) (lut : Option (List ℕ)) (gen : ℕ)
    (against : Dict Coord Hash) (known : List Name) (acc : Dict Coord Hash × Dict Name Obj)
    (t : Coord) : Dict Coord Hash × Dict Name Obj :=
  match tileArrays st (ofLex t).1 (ofLex t).2 lut with
  | none => (acc.1.erase t, acc.2)
  | some arrs =>
    let h := codec.tile arrs
    let name := Name.tile gen h
    let blobs := if against.get t ≠ some h ∧ (acc.2.get name).isNone ∧ name ∉ known
      then acc.2.set name (.tile arrs) else acc.2
    (acc.1.set t h, blobs)

def packTiles (codec : Codec) (st : EngineState) (lut : Option (List ℕ)) (gen : ℕ)
    (against : Dict Coord Hash) (known : List Name) (acc : Dict Coord Hash × Dict Name Obj)
    (coords : List Coord) : Dict Coord Hash × Dict Name Obj :=
  coords.foldl (packTile codec st lut gen against known) acc

structure Ids where
  table : Dict Key ℕ
  next_id : ℕ
  keys : List Key

def idsOf (prev : Option Manifest) (st : EngineState) : Ids :=
  let keys := st.keys.map fmt
  let r := assignIds (prev.elim (.empty, 1) fun m => (m.key_ids, m.body.next_id)) keys
  ⟨r.1, r.2, keys⟩

def Ids.id (i : Ids) (k : Key) : ℕ := (i.table.get k).getD 0

def Ids.lut (i : Ids) : Option (List ℕ) := if i.keys = [] then none else some (i.keys.map i.id)

def restarts (pend : Option Pending) (prev : Option Manifest) (st : EngineState) : Bool :=
  pend.isSome && prev.any fun m =>
    decide (st.leaves.length < m.body.leaf_count) || decide (st.watermark < m.body.watermark)

/-- The tile table of a save and its new tile objects; `full` is this save's turn for the
check against a full hash. -/
def saveTiles (codec : Codec) (cfg : Config) (st : EngineState) (ids : Ids) (gen : ℕ)
    (pend : Option Pending) (prev : Option Manifest) (dirty : Option Dirty) (full : Bool) :
    Except SaveError (Dict Coord Hash × Dict Name Obj) :=
  let allc := allTiles st.canvas
  let known := knownNames prev
  match prev with
  | none => .ok (packTiles codec st ids.lut gen .empty known (.empty, .empty) allc)
  | some m =>
    if restarts pend prev st then
      .ok (packTiles codec st ids.lut gen .empty known (.empty, .empty) allc)
    else
      let cand := dirtyTiles st.canvas dirty
      let r := packTiles codec st ids.lut gen m.tiles known (m.tiles, .empty) cand
      if full ∧ ¬allc ⊆ cand then
        let check := packTiles codec st ids.lut gen r.1 known (.empty, .empty) allc
        if check.1.same r.1 then .ok r
        else if cfg.strict then .error .coverage
        else .ok (check.1, r.2.update check.2.items)
      else .ok r

def segmentsOf (leaves : List LeafRecord) : List (List LeafRecord) := leaves.toChunks SEGMENT

/-- What the last committed save remembered, trusted only over its own manifest. -/
def trusted {α : Type} (d : Dict ℕ (Name × α)) (gen : ℕ) (base : Option Name) : Option α :=
  (d.get gen).bind fun e => if base = some e.1 then some e.2 else none

/-- A segment whose records equal the remembered ones keeps its hash, else it is packed. -/
def saveSegment (codec : Codec) (gen : ℕ) (last : Option (List (List LeafRecord) × List Hash))
    (acc : List Hash × Dict Name Obj) (e : List LeafRecord × ℕ) : List Hash × Dict Name Obj :=
  match last.bind fun l => if l.1[e.2]? = some e.1 then l.2[e.2]? else none with
  | some h => (acc.1 ++ [h], acc.2)
  | none =>
    let h := codec.segment e.1
    (acc.1 ++ [h], acc.2.set (.segment gen h) (.segment e.1))

def saveSegments (codec : Codec) (gen : ℕ) (last : Option (List (List LeafRecord) × List Hash))
    (segs : List (List LeafRecord)) (blobs : Dict Name Obj) : List Hash × Dict Name Obj :=
  segs.zipIdx.foldl (saveSegment codec gen last) ([], blobs)

def chartOf (charts : List Chart) (k : Key) : Option Chart := charts.reverse.find? fun c => c.key = k

def chartDoc (ids : Ids) (k : Key) (c : Chart) : ChartDoc :=
  ⟨k, ids.id k, c.peak, c.region, c.anchor,
    (⌊c.anchor.2 / (2 * SceneLeaf.RES)⌋, ⌊c.anchor.1 / (2 * SceneLeaf.RES)⌋),
    c.cells, c.area_m2, c.clearance, c.driven_frac, c.ever_blocked_frac, c.leaf⟩

def linkDoc (l : Link) : LinkDoc := ⟨l.a, l.b, l.length, l.width, l.saddle, l.portal, l.channels⟩

def chartDocs (ids : Ids) (charts : List Chart) : Option (List ChartDoc) :=
  ids.keys.mapM fun k => (chartOf charts k).map (chartDoc ids k)

def homeOf (c : ChartDoc) : Coord :=
  coord (⌊c.anchor.1 / SceneLeaf.RES⌋ / TILE_F / SUPER) (⌊c.anchor.2 / SceneLeaf.RES⌋ / TILE_F / SUPER)

def superOf (t : Coord) : Coord := coord ((ofLex t).1 / SUPER) ((ofLex t).2 / SUPER)

def linkKey (l : LinkDoc) : Key ×ₗ Key ×ₗ (ℚ ×ₗ ℚ) ×ₗ (ℚ ×ₗ ℚ) :=
  toLex (l.a, toLex (l.b, toLex (toLex l.portal.1, toLex l.portal.2)))

def sortCharts (cs : List ChartDoc) : List ChartDoc := cs.mergeSort fun a b => decide (a.id ≤ b.id)

def sortLinks (ls : List LinkDoc) : List LinkDoc :=
  ls.mergeSort fun a b => decide (linkKey a ≤ linkKey b)

/-- Home of the chart a link is filed under; a repeated key reads the last chart. -/
def linkHome (charts : List ChartDoc) (l : LinkDoc) : Option Coord :=
  (charts.reverse.find? fun c => c.key = l.a).map homeOf

def pageAt (tiles : Dict Coord Hash) (charts : List ChartDoc) (links : List LinkDoc) (s : Coord) :
    Page :=
  ⟨(tiles.filter fun t _ => superOf t = s).sorted, sortCharts (charts.filter fun c => homeOf c = s),
    sortLinks (links.filter fun l => linkHome charts l = some s)⟩

def pagesOf (tiles : Dict Coord Hash) (charts : List ChartDoc) (links : List LinkDoc) :
    List (Coord × Page) :=
  (tiles.keys.map superOf ++ charts.map homeOf).dedup.map fun s => (s, pageAt tiles charts links s)

def savePage (codec : Codec) (gen : ℕ) (last : Option (Dict Coord (Page × Hash)))
    (acc : Dict Coord Hash × Dict Name Obj) (e : Coord × Page) : Dict Coord Hash × Dict Name Obj :=
  match last.bind fun l => (l.get e.1).bind fun s => if s.1 = e.2 then some s.2 else none with
  | some h => (acc.1.set e.1 h, acc.2)
  | none =>
    let h := codec.page e.2
    (acc.1.set e.1 h, acc.2.set (.page gen h) (.page e.2))

def savePages (codec : Codec) (gen : ℕ) (last : Option (Dict Coord (Page × Hash)))
    (pages : List (Coord × Page)) (blobs : Dict Name Obj) : Dict Coord Hash × Dict Name Obj :=
  pages.foldl (savePage codec gen last) (.empty, blobs)

structure Write where
  puts : List (Name × Obj)
  name : Name
  body : Body
  newMeta : Meta
  result : ℕ
  expanded : Manifest
  segs : List (List LeafRecord) × List Hash
  pages : Dict Coord (Page × Hash)

inductive Outcome
  | same (newMeta : Option Meta) (result : ℕ)
  | write (w : Write)

def expandedOf (body : Body) (tiles : Dict Coord Hash) (charts : List ChartDoc)
    (links : List LinkDoc) : Manifest :=
  ⟨body, tiles, sortCharts charts, sortLinks links, Dict.ofList (charts.map fun c => (c.key, c.id))⟩

def commitMeta (md : Option Meta) (c : SaveCall) (gen newv : ℕ) (n : Name) (b : Body) : Meta :=
  let gens := md.elim .empty Meta.generations
  ⟨newv, gen, b.params, b.params_hash, c.cursor, b.watermark, n,
    if (gens.get gen).isSome then gens else gens.set gen newv, b.created_ms,
    md.elim c.uuid Meta.epoch, md.bind Meta.pending, md.bind Meta.index_version⟩

def commitPending (p : Pending) (c : SaveCall) (pv : ℕ) (n : Name) (b : Body) : Pending :=
  { p with
    version := pv, manifest := some n, params_hash := some b.params_hash, cursor := c.cursor,
    watermark := some b.watermark }

structure Draft where
  st : EngineState
  ids : Ids
  tiles : Dict Coord Hash
  charts : List ChartDoc
  links : List LinkDoc
  seg_hashes : List Hash
  page_hashes : Dict Coord Hash
  blobs : Dict Name Obj

def Draft.segs (d : Draft) : List (List LeafRecord) := segmentsOf d.st.leaves

def Draft.pages (d : Draft) : List (Coord × Page) := pagesOf d.tiles d.charts d.links

def draftSave (codec : Codec) (cfg : Config) (mem : Memory) (md : Option Meta) (gen : ℕ)
    (pend : Option Pending) (prev : Option Manifest) (c : SaveCall) (full : Bool) :
    Except SaveError Draft :=
  match c.state with
  | none => .error .noState
  | some st =>
    if pend.any fun p => p.params_hash.any fun h => h ≠ codec.params st.params then
      .error .paramsDiffer
    else
      let ids := idsOf prev st
      match saveTiles codec cfg st ids gen pend prev c.dirty full with
      | .error e => .error e
      | .ok t =>
        let base := baseName md pend
        let segs := saveSegments codec gen (trusted mem.last_segments gen base)
          (segmentsOf st.leaves) t.2
        let links := c.links.map linkDoc
        match chartDocs ids c.charts with
        | none => .error .keyError
        | some charts =>
          if links.any fun l => (linkHome charts l).isNone then .error .keyError
          else
            let pages := savePages codec gen (trusted mem.last_pages gen base)
              (pagesOf t.1 charts links) segs.2
            .ok ⟨st, ids, t.1, charts, links, segs.1, pages.1, pages.2⟩

def Draft.content (codec : Codec) (gen : ℕ) (d : Draft) : Content :=
  ⟨pipelineOf d.st.params, gen, d.st.params, codec.params d.st.params, d.st.watermark,
    d.st.chan.keys.mergeSort (· ≤ ·), d.ids.next_id, d.page_hashes.sorted,
    d.ids.keys.map d.ids.id, d.charts.length, d.tiles.items.length, d.seg_hashes,
    d.st.leaves.length⟩

def Draft.body (codec : Codec) (gen : ℕ) (version : Option ℕ) (c : SaveCall) (d : Draft) : Body :=
  ⟨d.content codec gen, c.cursor, d.st.version, d.st.canvas, c.dirty.elim .empty Dirty.retired,
    codec.content (d.content codec gen), version, c.now, none⟩

/-- The writes of a draft under a manifest name: new objects the base does not reference. -/
def Draft.write (prev : Option Manifest) (n : Name) (b : Body) (m : Meta) (result : ℕ)
    (d : Draft) : Write :=
  ⟨d.blobs.items.filter fun e => e.1 ∉ knownNames prev, n, b, m, result,
    expandedOf b d.tiles d.charts d.links, (d.segs, d.seg_hashes),
    Dict.ofList (d.pages.map fun e => (e.1, e.2, (d.page_hashes.get e.1).getD ""))⟩

/-- A draft with the content of its base moves at most the cursor, any other is written. -/
def planSave (codec : Codec) (md : Option Meta) (gen : ℕ) (pend : Option Pending)
    (prev : Option Manifest) (c : SaveCall) (d : Draft) : Outcome :=
  let unchanged := prev.any fun m => m.body.content_hash = codec.content (d.content codec gen)
  match md, pend with
  | some m, some p =>
    if unchanged then
      .same (if p.cursor ≠ c.cursor then
        some { m with pending := some { p with cursor := c.cursor } } else none) p.version
    else
      let pv := p.version + 1
      let n := Name.pending gen pv
      let b := d.body codec gen none c
      .write (d.write prev n b { m with pending := some (commitPending p c pv n b) } pv)
  | _, _ =>
    if unchanged then
      .same (md.bind fun m => if m.cursor ≠ c.cursor then some { m with cursor := c.cursor }
        else none) (md.elim 0 Meta.version)
    else
      let newv := md.elim 0 Meta.version + 1
      let n := Name.manifest gen newv
      let b := d.body codec gen (some newv) c
      .write (d.write prev n b (commitMeta md c gen newv n b) newv)

end CloudServer.StoreSave
