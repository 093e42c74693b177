import CloudServer.Patches
import CloudServer.StoreRoundTrip
import CloudServer.Searches

/-! Where a point lands on the navigable cells: the answer of the engine, from its planes, and the answer
of a view of a stored version, from the tiles around the point. -/
namespace CloudServer.Snapping
open SceneLeaf SceneFold SceneApi StoreTiles StoreSave StoreOps StoreSnapshot StoreLoad WindowSearch
open Planes (Plane sqDist)

/-- Where a point lands; `distance` is `none` for an infinite one. -/
structure Snap where
  key : Option Key
  place : Option (ℚ × ℚ)
  distance : Option ℚ
  crosses_blocked : Bool
deriving DecidableEq

def far : Snap := ⟨none, none, none, false⟩

def cellOf (v : ℚ) : ℤ := ⌊v / RES⌋

/-- The costmap cells, row then column, of the points taken on the straight way to a place. -/
def samples (x y px py dist : ℚ) : List (ℤ × ℤ) :=
  let n := max 2 (⌊dist / (RES / 2)⌋.toNat + 1)
  (List.range n).map fun k : ℕ =>
    (cellOf (y + (py - y) * (k / (n - 1 : ℕ))), cellOf (x + (px - x) * (k / (n - 1 : ℕ))))

def blocked (v : U8) : Bool := 100 ≤ v ∧ v ≠ UNKNOWN

def limit (chart_radius : ℚ) (max_dist : Option ℚ) : ℚ :=
  match max_dist with
  | none => 2 * chart_radius
  | some d => min d (2 * chart_radius)

/-- `ChartGraph.snap`: `nearest` are the indices of the distance transform, `hypot` the one of the library. -/
def engineSnap (nearest : Plane Bool → ℕ → ℕ → ℕ × ℕ) (hypot : ℚ → ℚ → ℚ) (st : EngineState) (x y : ℚ)
    (max_dist : Option ℚ) : Snap :=
  match st.plane with
  | none => far
  | some plane =>
    let H := st.canvas.H / 2
    let W := st.canvas.W / 2
    let cy := (cellOf y - st.canvas.cy0) / 2
    let cx := (cellOf x - st.canvas.cx0) / 2
    if (0 ≤ cy ∧ cy < H) ∧ (0 ≤ cx ∧ cx < W) then
      let off : Plane Bool := ⟨H, W, fun r c => !decide (0 ≤ plane r c)⟩
      let cell := nearest off cy.toNat cx.toNat
      let j := plane cell.1 cell.2
      if j < 0 then far
      else
        let px := (st.canvas.cx0 + 2 * cell.2 + 1) * RES
        let py := (st.canvas.cy0 + 2 * cell.1 + 1) * RES
        let dist := hypot (px - x) (py - y)
        let crosses := (samples x y px py dist).any fun p =>
          let gy := p.1 - st.canvas.cy0
          let gx := p.2 - st.canvas.cx0
          decide (st.canvas.box.Has gy gx) && blocked (st.V gy gx)
        ⟨if dist ≤ limit st.params.chart_radius max_dist then st.keys[j.toNat]?.map fmt else none,
          some (px, py), some dist, crosses⟩
    else far

inductive ViewError
  | missing (tiles : List Coord)
  | store (e : SaveError)

structure StoredView where
  man : Manifest
  allowed : Option (List Coord)
  tile : Coord → Except SaveError (Option Tile)

def openView (s : Backend) (man : Manifest) (allowed : Option (List Coord)) : StoredView where
  man := man
  allowed := allowed
  tile t :=
    match man.tiles.get t with
    | none => .ok none
    | some h => match s.blobs.get (.tile man.body.generation h) with
      | some (.tile a) => .ok (some a)
      | _ => .error (.notFound (.tile man.body.generation h))

def held (t : Tile) (r c : Fin TILE_F) : Bool :=
  match t.fn, t.hold, t.bn with
  | none, _, _ => false
  | some _, some hold, _ => t.v r c < 100 ∧ hold r c
  | some fn, none, some bn => t.v r c < 100 ∧ 0 ≤ bn r c ∧ fn r c < bn r c
  | some _, none, none => false

def effectiveV (t : Tile) : Square TILE_F U8 := fun r c => if held t r c then 100 else t.v r c

def within (n : ℕ) [NeZero n] (i : ℤ) : Fin n := Fin.ofNat n (i % n).toNat

instance : NeZero TILE_F := ⟨by decide⟩
instance : NeZero TILE_L := ⟨by decide⟩

namespace StoredView

variable (w : StoredView)

def need (tiles : List Coord) : Except ViewError Unit :=
  match w.allowed with
  | none => .ok ()
  | some allowed =>
    let miss := tiles.filter fun t => (w.man.tiles.get t).isSome ∧ t ∉ allowed
    if miss = [] then .ok () else .error (.missing (miss.mergeSort (· ≤ ·)))

def own (t : Coord) : Except ViewError (Option Tile) := (w.tile t).mapError .store

def indexIn (t : Option Tile) (y x : ℤ) : ℤ :=
  match t.bind Tile.own with
  | none => -1
  | some ids => indexOf (idToIdx w.man.charts) (ids (within TILE_L y) (within TILE_L x))

/-- The chart indices of the lattice cells of a box, from the tiles it touches. -/
def window (b : Box) : Except ViewError (ℤ → ℤ → ℤ) := do
  let tiles := (intRange (b.y0 / TILE_L) ((b.y1 - 1) / TILE_L + 1)).flatMap fun ty =>
    (intRange (b.x0 / TILE_L) ((b.x1 - 1) / TILE_L + 1)).map fun tx => coord tx ty
  w.need tiles
  let read ← tiles.mapM fun t => do
    let tile ← w.own t
    pure (t, tile)
  pure fun y x => w.indexIn (Dict.find read (coord (x / TILE_L) (y / TILE_L))).join y x

def extent : Option Box :=
  let xs := w.man.tiles.keys.map fun t => (ofLex t).1
  let ys := w.man.tiles.keys.map fun t => (ofLex t).2
  if w.man.tiles.keys = [] then none
  else some ⟨lowest xs * TILE_L, lowest ys * TILE_L, (highest xs + 1) * TILE_L, (highest ys + 1) * TILE_L⟩

def around (e : Box) (c : ℤ × ℤ) (r : ℤ) : Box :=
  ⟨max e.x0 (c.2 - r), max e.y0 (c.1 - r), min e.x1 (c.2 + r + 1), min e.y1 (c.1 + r + 1)⟩

def scan (e : Box) (c : ℤ × ℤ) (r : ℤ) : Except ViewError (Option ((ℤ × ℤ) × ℤ)) :=
  let b := around e c r
  if b.x0 < b.x1 ∧ b.y0 < b.y1 then do
    let idx ← w.window b
    let cells := b.cells.filter fun p => 0 ≤ idx p.1 p.2
    pure ((cells.argmin fun p => (sqDist c p).toNat).map fun p => (p, idx p.1 p.2))
  else .ok none

def near (c : ℤ × ℤ) (found : (ℤ × ℤ) × ℤ) (r : ℤ) : Bool := 0 ≤ r ∧ sqDist c found.1 ≤ r * r

/-- Some point of the way lies on a blocked cell; the tiles are read until one is found. -/
def crosses (cells : List (ℤ × ℤ)) : Except ViewError Bool := do
  let tileOf (p : ℤ × ℤ) : Coord := coord (p.2 / TILE_F) (p.1 / TILE_F)
  let tiles := (cells.map tileOf).dedup
  w.need tiles
  tiles.foldlM (fun found t => do
    if found then pure true
    else
      let tile ← w.own t
      pure (tile.any fun a => cells.any fun p =>
        decide (tileOf p = t) && blocked (effectiveV a (within TILE_F p.1) (within TILE_F p.2)))) false

/-- `StoredView.snap`; `none` when the loop does not end within the fuel. -/
def snap (hypot : ℚ → ℚ → ℚ) (fuel : ℕ) (x y : ℚ) (max_dist : Option ℚ) : Option (Except ViewError Snap) :=
  let h := w.man.body.params.lattice
  let R := 2 * w.man.body.params.chart_radius
  match w.extent with
  | none => some (.ok far)
  | some e =>
    let c := (cellOf y / 2, cellOf x / 2)
    let reach := max (max |c.2 - e.x0| |c.2 - e.x1|) (max |c.1 - e.y0| |c.1 - e.y1|) + 1
    (search (w.scan e c) (near c) reach fuel (⌈R / h⌉ + 1)).map fun answer => do
      match ← answer with
      | none => pure far
      | some (p, j) =>
        let px := (2 * p.2 + 1) * RES
        let py := (2 * p.1 + 1) * RES
        let dist := hypot (px - x) (py - y)
        let crosses ← w.crosses (samples x y px py dist)
        pure ⟨if dist ≤ limit w.man.body.params.chart_radius max_dist
            then (w.man.charts[j.toNat]?).map ChartDoc.key else none,
          some (px, py), some dist, crosses⟩

end StoredView

end CloudServer.Snapping
