import CloudServer.SceneLeaf

/-! The folded planes of the engine: one dense canvas that grows, time planes held as
32-bit offsets from an epoch or as plain stamps, and the fold of a validated batch. -/
namespace CloudServer.SceneFold
open SceneLeaf

def MARGIN : ℤ := 40
def T_HALF : ℤ := 2 ^ 30
def T_MAX : ℤ := 2 ^ 31 - 2

structure SceneParams where
  robot_half_side : ℚ
  lattice : ℚ
  chart_radius : ℚ
  near_range_m : Option ℚ
  near_min_clearance_m : Option ℚ
  place_peak_m : Option ℚ
  place_path_m : Option ℚ
  clearance_needs_range : near_min_clearance_m.isSome → near_range_m.isSome
  clearance_pos : ∀ mc ∈ near_min_clearance_m, 0 < mc
  place_both : place_peak_m.isSome = place_path_m.isSome
  place_pos : (∀ v ∈ place_peak_m, 0 < v) ∧ ∀ v ∈ place_path_m, 0 < v

lemma none_needs : (none : Option ℚ).isSome → (none : Option ℚ).isSome := id

lemma none_pos : ∀ v ∈ (none : Option ℚ), 0 < v := by simp

lemma none_both : (none : Option ℚ).isSome = (none : Option ℚ).isSome := rfl

lemma none_place : (∀ v ∈ (none : Option ℚ), 0 < v) ∧ ∀ v ∈ (none : Option ℚ), 0 < v := ⟨none_pos, none_pos⟩

abbrev Cells (α : Type*) := ℤ → ℤ → α

structure Box where
  x0 : ℤ
  y0 : ℤ
  x1 : ℤ
  y1 : ℤ
  deriving DecidableEq

def Box.join (a b : Box) : Box :=
  ⟨min a.x0 b.x0, min a.y0 b.y0, max a.x1 b.x1, max a.y1 b.y1⟩

def joinBox : Option Box → Option Box → Option Box
  | none, b => b
  | a, none => a
  | some a, some b => some (a.join b)

def Box.shift (b : Box) (dx dy : ℤ) : Box := ⟨b.x0 + dx, b.y0 + dy, b.x1 + dx, b.y1 + dy⟩

def Box.Has (b : Box) (y x : ℤ) : Prop := (b.x0 ≤ x ∧ x < b.x1) ∧ (b.y0 ≤ y ∧ y < b.y1)

instance (b : Box) (y x : ℤ) : Decidable (b.Has y x) := inferInstanceAs (Decidable (_ ∧ _))

/-- Geometry of the canvas: `cx0`, `cy0` is the global costmap cell of canvas cell `(0, 0)`. -/
structure Canvas where
  cx0 : ℤ
  cy0 : ℤ
  H : ℕ
  W : ℕ
  deriving DecidableEq

def Canvas.box (c : Canvas) : Box := ⟨0, 0, c.W, c.H⟩

structure Planes where
  canvas : Canvas
  V : Cells U8
  Tr : Cells ℤ
  Br : Cells ℤ
  Fnr : Option (Cells ℤ)
  Bnr : Option (Cells ℤ)
  chan : Dict String (Cells U8 × Cells ℤ)
  tep : Option ℤ

/-- The epoch that holds every stamp of `[lo, hi]` as an offset with room on either side. -/
def epochFor (lo hi : ℤ) : Option ℤ :=
  if lo < 0 ∨ T_HALF - 2 < hi - lo then none else some (lo - T_HALF)

def timeEpoch (planes : Option Planes) (stamps : List ℤ) : Option ℤ :=
  match planes with
  | none => epochFor (stamps.foldr min (stamps.headD 0)) (stamps.foldr max (stamps.headD 0))
  | some pl => pl.tep.filter fun ep => stamps.all fun s => 0 ≤ s - ep ∧ s - ep ≤ T_MAX

structure Plan where
  fresh : Bool
  canvas : Canvas
  oy : ℤ
  ox : ℤ
  h : ℕ
  w : ℕ
  tep : Option ℤ

def evenFloor (z : ℤ) : ℤ := z / 2 * 2

/-- `none` when the box fits and the time planes keep their epoch, else the new geometry. -/
def planCanvas (maxCells : ℕ) (planes : Option Planes) (b : Box) (tep : Option ℤ) :
    Except LeafError (Option Plan) :=
  let bounded (p : Plan) : Except LeafError (Option Plan) :=
    if maxCells < p.canvas.H * p.canvas.W then
      .error ⟨none, .canvas p.canvas.H p.canvas.W⟩
    else .ok (some p)
  match planes with
  | none =>
    let cx0 := evenFloor (b.x0 - MARGIN)
    let cy0 := evenFloor (b.y0 - MARGIN)
    let W := (evenFloor (b.x1 + MARGIN - cx0 + 1)).toNat
    let H := (evenFloor (b.y1 + MARGIN - cy0 + 1)).toNat
    bounded ⟨true, ⟨cx0, cy0, H, W⟩, 0, 0, 0, 0, tep⟩
  | some pl =>
    let c := pl.canvas
    if c.cx0 ≤ b.x0 ∧ c.cy0 ≤ b.y0 ∧ b.x1 ≤ c.cx0 + c.W ∧ b.y1 ≤ c.cy0 + c.H then
      if tep = pl.tep then .ok none
      else .ok (some ⟨false, c, 0, 0, c.H, c.W, tep⟩)
    else
      let nx0 := min c.cx0 (evenFloor (b.x0 - MARGIN))
      let ny0 := min c.cy0 (evenFloor (b.y0 - MARGIN))
      let nx1 := max (c.cx0 + c.W) (b.x1 + MARGIN)
      let ny1 := max (c.cy0 + c.H) (b.y1 + MARGIN)
      bounded ⟨false, ⟨nx0, ny0, (evenFloor (ny1 - ny0 + 1)).toNat,
        (evenFloor (nx1 - nx0 + 1)).toNat⟩, c.cy0 - ny0, c.cx0 - nx0, c.H, c.W, tep⟩

/-- An array copied into a larger one at offset `(oy, ox)`. -/
def growCells {α : Type*} (p : Plan) (fill : α) (a : Cells α) : Cells α :=
  fun y x => if (p.oy ≤ y ∧ y < p.oy + p.h) ∧ (p.ox ≤ x ∧ x < p.ox + p.w)
    then a (y - p.oy) (x - p.ox) else fill

def widenTime (ep r : ℤ) : ℤ := if r < 0 then -1 else r + ep

def widen : Option ℤ → ℤ → ℤ
  | none, r => r
  | some ep, r => widenTime ep r

/-- A time plane in the new canvas; an epoch change widens the offsets to stamps. -/
def growTime (p : Plan) (old : Option ℤ) (a : Cells ℤ) : Cells ℤ :=
  growCells p (-1) (if p.tep = old then a else fun y x => widen old (a y x))

def growCanvas (near : Bool) (planes : Option Planes) (p : Plan) : Planes :=
  match planes with
  | none =>
    ⟨p.canvas, fun _ _ => UNKNOWN, fun _ _ => -1, fun _ _ => -1,
      if near then some fun _ _ => -1 else none,
      if near then some fun _ _ => -1 else none, .empty, p.tep⟩
  | some pl =>
    ⟨p.canvas, growCells p UNKNOWN pl.V, growTime p pl.tep pl.Tr, growTime p pl.tep pl.Br,
      pl.Fnr.map (growTime p pl.tep), pl.Bnr.map (growTime p pl.tep),
      pl.chan.map fun _ c => (growCells p UNKNOWN c.1, growTime p pl.tep c.2), p.tep⟩

def cast32 (z : ℤ) : ℤ := (z + 2 ^ 31) % 2 ^ 32 - 2 ^ 31

/-- Conversion to the element type of the time planes; a stamp outside the 64-bit
range raises in `mutate` before it gets here. -/
def castTime (tep : Option ℤ) (z : ℤ) : ℤ := if tep.isSome then cast32 z else z

/-- The planes one call of `foldInto` writes. -/
structure Layer where
  V : Cells U8
  T : Cells ℤ
  B : Option (Cells ℤ)
  Fn : Option (Cells ℤ)
  Bn : Option (Cells ℤ)

/-- A cell centre within range of the pose; `(y, x)` is a global costmap cell. -/
def nearPose (pose : ℚ × ℚ × ℚ) (y x : ℤ) : Bool :=
  let dy := ((y : ℚ) + 1 / 2) * RES - pose.2.1
  let dx := ((x : ℚ) + 1 / 2) * RES - pose.1
  decide (0 ≤ pose.2.2) && decide (dy * dy + dx * dx ≤ pose.2.2 * pose.2.2)

def known (s : U8) : Bool := s ≠ UNKNOWN

/-- The report `(t, s)` replaces `(T, V)`: ties go to the larger value. -/
def wins (s : U8) (t T : ℤ) (V : U8) : Bool :=
  known s && (decide (T < 0) || decide (T < t) || (decide (t = T) && decide (V < s)))

def lethal (s : U8) : Bool := known s && decide (BLOCKED ≤ s)
def free (s : U8) : Bool := known s && decide (s < BLOCKED)

def mergeTime (cast : ℤ → ℤ) (hit : ℤ → ℤ → Bool) (t : ℤ) (a : Cells ℤ) : Cells ℤ :=
  fun y x => if hit y x then cast (max (a y x) t) else a y x

def intRange (a b : ℤ) : List ℤ := (List.range (b - a).toNat).map fun i : ℕ => a + i

def Box.cells (b : Box) : List (ℤ × ℤ) :=
  (intRange b.y0 b.y1).flatMap fun y => (intRange b.x0 b.x1).map fun x => (y, x)

def boundCells (cells : List (ℤ × ℤ)) : Option Box :=
  cells.foldr (fun c acc => joinBox (some ⟨c.2, c.1, c.2 + 1, c.1 + 1⟩) acc) none

/-- Fold one raster into the planes of the canvas, clipped to it. Returns the planes and
the box of the cells whose value, time or blocked time changed. -/
def foldInto (cv : Canvas) (cast : ℤ → ℤ) (g : Layer) (w : Window) (gx gy t : ℤ)
    (pose : Option (ℚ × ℚ × ℚ)) : Layer × Option Box :=
  let ox := gx - cv.cx0
  let oy := gy - cv.cy0
  let clip : Box := ⟨max 0 ox, max 0 oy, min cv.W (ox + w.cols), min cv.H (oy + w.rows)⟩
  let sub (y x : ℤ) : U8 := w.read (y - oy) (x - ox)
  let at' (p : U8 → Bool) (y x : ℤ) : Bool := decide (clip.Has y x) && p (sub y x)
  let near (y x : ℤ) : Bool := pose.any fun p => nearPose p (y + cv.cy0) (x + cv.cx0)
  let win (y x : ℤ) : Bool := decide (clip.Has y x) && wins (sub y x) t (g.T y x) (g.V y x)
  let isFree (y x : ℤ) : Bool := at' free y x && near y x
  let isLethal (y x : ℤ) : Bool := at' lethal y x && near y x
  let later (a : Option (Cells ℤ)) (y x : ℤ) : Bool := a.any fun a => decide (a y x < t)
  let changed (y x : ℤ) : Bool :=
    win y x || (at' lethal y x && later g.B y x) || (isFree y x && later g.Fn y x) ||
      (isLethal y x && g.Fn.isSome && later g.Bn y x)
  (⟨fun y x => if win y x then sub y x else g.V y x,
      fun y x => if win y x then cast t else g.T y x,
      g.B.map (mergeTime cast (at' lethal) t),
      g.Fn.map (mergeTime cast isFree t),
      if g.Fn.isSome then g.Bn.map (mergeTime cast isLethal t) else g.Bn⟩,
    boundCells (clip.cells.filter fun c => changed c.1 c.2))

structure Rec where
  session : Option String
  t : ℤ
  x : ℚ
  y : ℚ
  r_d : ℚ
  view : Option View
  deriving DecidableEq

/-- What a version is folded into: the planes, and the leaves they come from. -/
structure FoldState where
  planes : Option Planes
  leaves : AList fun _ : String => Rec
  leafOrder : List (ℤ ×ₗ String)
  watermark : ℤ ×ₗ String

def FoldState.fresh : FoldState := ⟨none, ∅, [], toLex (-1, "")⟩

def leafRec (lf : Leaf) : Rec := ⟨lf.session, lf.stamp_ms, lf.x, lf.y, lf.r_d, lf.view⟩

def leafPut (fs : FoldState) (key : String) (rec : Rec) : FoldState :=
  let order := match fs.leaves.lookup key with
    | some old => fs.leafOrder.erase (toLex (old.t, key))
    | none => fs.leafOrder
  { fs with
    leaves := fs.leaves.insert key rec
    leafOrder := order.orderedInsert (· ≤ ·) (toLex (rec.t, key)) }

def leafDel (fs : FoldState) (key : String) : FoldState :=
  match fs.leaves.lookup key with
  | some old => { fs with
      leaves := fs.leaves.erase key
      leafOrder := fs.leafOrder.erase (toLex (old.t, key)) }
  | none => fs

structure Report where
  touched : Option Box
  added : List String
  full : Bool

def Planes.stamp (pl : Planes) (stamp_ms : ℤ) : ℤ := stamp_ms - pl.tep.getD 0

def layerOf (pl : Planes) : Layer := ⟨pl.V, pl.Tr, some pl.Br, pl.Fnr, pl.Bnr⟩

def chanOf (pl : Planes) (name : String) : Cells U8 × Cells ℤ :=
  (pl.chan.get name).getD (fun _ _ => UNKNOWN, fun _ _ => -1)

def foldChan (p : Prepared) (pl : Planes) (c : String × Window) : Planes × Option Box :=
  let old := chanOf pl c.1
  let r := foldInto pl.canvas (castTime pl.tep) ⟨old.1, old.2, none, none, none⟩ c.2 p.gx p.gy
    (pl.stamp p.lf.stamp_ms) none
  ({ pl with chan := pl.chan.set c.1 (r.1.V, r.1.T) }, r.2)

def toGlobal (pl : Planes) (b : Option Box) : Option Box :=
  b.map fun b => b.shift pl.canvas.cx0 pl.canvas.cy0

def foldPlanes (near_range_m : Option ℚ) (pl : Planes) (p : Prepared) : Planes × Option Box :=
  let pose := near_range_m.map fun rng => (p.lf.x, p.lf.y, rng)
  let r := foldInto pl.canvas (castTime pl.tep) (layerOf pl) p.wl p.gx p.gy
    (pl.stamp p.lf.stamp_ms) pose
  let pl1 := { pl with V := r.1.V, Tr := r.1.T, Br := r.1.B.getD pl.Br, Fnr := r.1.Fn, Bnr := r.1.Bn }
  p.chans.foldl (fun acc c =>
    let r := foldChan p acc.1 c
    (r.1, joinBox acc.2 (toGlobal acc.1 r.2))) (pl1, toGlobal pl r.2)

def sameEvidence (a b : Rec) : Bool :=
  decide ((a.session, a.t, a.x) = (b.session, b.t, b.x)) && decide ((a.y, a.r_d) = (b.y, b.r_d))

def foldOne (near_range_m : Option ℚ) (acc : FoldState × Planes × Report) (p : Prepared) :
    FoldState × Planes × Report :=
  let fs := acc.1
  let r := foldPlanes near_range_m acc.2.1 p
  let rec' := leafRec p.lf
  let rep := acc.2.2
  let rep' : Report := match fs.leaves.lookup p.lf.key with
    | none => { rep with touched := joinBox rep.touched r.2, added := rep.added ++ [p.lf.key] }
    | some old => { rep with
        touched := joinBox rep.touched r.2, full := rep.full || !sameEvidence old rec' }
  ({ leafPut fs p.lf.key rec' with
      watermark := max fs.watermark (toLex (p.lf.stamp_ms, p.lf.key)) }, r.1, rep')

structure BBox where
  x0 : ℚ
  y0 : ℚ
  x1 : ℚ
  y1 : ℚ
  deriving DecidableEq

def regionOf (b : BBox) : Box := ⟨⌊b.x0 / RES⌋, ⌊b.y0 / RES⌋, ⌈b.x1 / RES⌉, ⌈b.y1 / RES⌉⟩

def deletedLeaves (fs : FoldState) (leaves : List Leaf) (b : BBox) : List String :=
  (fs.leaves.entries.filter fun e =>
    decide (b.x0 ≤ e.2.x ∧ e.2.x ≤ b.x1 ∧ b.y0 ≤ e.2.y ∧ e.2.y ≤ b.y1) &&
      !(leaves.any fun lf => lf.key = e.1)).map Sigma.fst

def resetCells {α : Type*} (b : Box) (fill : α) (a : Cells α) : Cells α :=
  fun y x => if b.Has y x then fill else a y x

def Canvas.clipBox (c : Canvas) (r : Box) : Option Box :=
  let b : Box := ⟨max (r.x0 - c.cx0) 0, max (r.y0 - c.cy0) 0,
    min (r.x1 - c.cx0) c.W, min (r.y1 - c.cy0) c.H⟩
  if b.x0 < b.x1 ∧ b.y0 < b.y1 then some b else none

def resetPlanes (pl : Planes) (b : Box) : Planes :=
  { pl with
    V := resetCells b UNKNOWN pl.V
    Tr := resetCells b (-1) pl.Tr
    Br := resetCells b (-1) pl.Br
    Fnr := pl.Fnr.map (resetCells b (-1))
    Bnr := if pl.Fnr.isSome then pl.Bnr.map (resetCells b (-1)) else pl.Bnr
    chan := pl.chan.map fun _ c => (resetCells b UNKNOWN c.1, resetCells b (-1) c.2) }

inductive ApplyError
  | leaf (e : LeafError)
  | faulted
  deriving DecidableEq

structure Applied where
  plan : Option Plan
  region : Option Box
  rbox : Option Box
  report : Report

def boundsOf (ps : List Prepared) : Option Box :=
  ps.foldl (fun acc p => joinBox acc (some ⟨p.gx, p.gy, p.gx + p.wl.cols, p.gy + p.wl.rows⟩)) none

def overflows (pl : Planes) (ps : List Prepared) : Bool :=
  ps.any fun p => decide (2 ^ 63 ≤ pl.stamp p.lf.stamp_ms) || decide (pl.stamp p.lf.stamp_ms < -2 ^ 63)

/-- The mutation phase up to the solve: deleted leaves, canvas, refold reset, fold loop. -/
def mutate (prm : SceneParams) (fs : FoldState) (leaves : List Leaf) (bbox : Option BBox)
    (ps : List Prepared) (region : Option Box) (plan : Option Plan) :
    Except ApplyError (FoldState × Applied) :=
  let gone := match bbox, fs.planes with
    | some b, some _ => deletedLeaves fs leaves b
    | _, _ => []
  let fs1 := gone.foldl leafDel fs
  let planes := match plan with
    | some p => some (growCanvas prm.near_range_m.isSome fs.planes p)
    | none => fs.planes
  match planes with
  | none => .ok (fs1, ⟨plan, region, none, ⟨none, [], !gone.isEmpty⟩⟩)
  | some pl =>
    let rbox := region.bind pl.canvas.clipBox
    let pl1 := rbox.elim pl (resetPlanes pl)
    if overflows pl1 ps then .error .faulted
    else
      let out := ps.foldl (foldOne prm.near_range_m) (fs1, pl1, ⟨none, [], !gone.isEmpty⟩)
      .ok ({ out.1 with planes := some out.2.1 }, ⟨plan, region, rbox, out.2.2⟩)

def planBatch (maxCells : ℕ) (planes : Option Planes) (ps : List Prepared) :
    Except LeafError (Option Plan) :=
  match boundsOf ps with
  | none => .ok none
  | some b =>
    planCanvas maxCells planes b (timeEpoch planes (ps.map fun p => p.lf.stamp_ms))

/-- `fold_many` (`bbox` none) and `refold`, up to the solve; `none` is a batch that has
nothing to do. -/
def apply (prm : SceneParams) (maxCells : ℕ) (fs : FoldState) (leaves : List Leaf)
    (bbox : Option BBox) : Except ApplyError (FoldState × Option Applied) :=
  match prepare leaves with
  | .error e => .error (.leaf e)
  | .ok ps =>
    let region := match bbox, fs.planes with
      | some b, some _ => some (regionOf b)
      | _, _ => none
    if ps = [] ∧ region = none then .ok (fs, none)
    else
      match planBatch maxCells fs.planes ps with
      | .error e => .error (.leaf e)
      | .ok plan =>
        match mutate prm fs leaves bbox ps region plan with
        | .error e => .error e
        | .ok r => .ok (r.1, some r.2)

/-- One accepted `fold_many`. -/
def foldMany (prm : SceneParams) (maxCells : ℕ) (fs : FoldState) (leaves : List Leaf) :
    Except ApplyError FoldState :=
  (apply prm maxCells fs leaves none).map Prod.fst

def foldAll (prm : SceneParams) (maxCells : ℕ) :
    FoldState → List (List Leaf) → Except ApplyError FoldState
  | fs, [] => .ok fs
  | fs, b :: rest => foldMany prm maxCells fs b >>= fun fs => foldAll prm maxCells fs rest

structure LeafRecord where
  key : String
  session : Option String
  t : ℤ
  x : ℚ
  y : ℚ
  r_d : ℚ
  view : Option View
  deriving DecidableEq

/-- What an engine exports: the time planes hold stamps, `-1` for never. -/
structure EngineState where
  params : SceneParams
  canvas : Canvas
  V : Cells U8
  T : Cells ℤ
  B : Cells ℤ
  chan : Dict String (Cells U8 × Cells ℤ)
  Fn : Option (Cells ℤ)
  Bn : Option (Cells ℤ)
  Hold : Option (Cells Bool)
  Val : Option (Cells Bool)
  leaves : List LeafRecord
  keys : List (String × ℕ)
  plane : Option (Cells ℤ)
  version : ℕ
  watermark : ℤ ×ₗ String

def leafRecord (key : String) (r : Rec) : LeafRecord :=
  ⟨key, r.session, r.t, r.x, r.y, r.r_d, r.view⟩

def exportLeaves (fs : FoldState) : List LeafRecord :=
  fs.leafOrder.filterMap fun e => (fs.leaves.lookup (ofLex e).2).map (leafRecord (ofLex e).2)

/-- The fold part of `export_state`: the planes widened to stamps, the leaf records in
capture order; the solved part is filled in by the engine. -/
def exportFold (prm : SceneParams) (fs : FoldState) : Option EngineState :=
  fs.planes.map fun pl =>
    let wide (a : Cells ℤ) : Cells ℤ := fun y x => widen pl.tep (a y x)
    ⟨prm, pl.canvas, pl.V, wide pl.Tr, wide pl.Br, pl.chan.map fun _ c => (c.1, wide c.2),
      pl.Fnr.map wide, pl.Bnr.map wide, none, none, exportLeaves fs, [], none, 0, fs.watermark⟩

/-- A plane read at a global costmap cell, `fill` outside the canvas. -/
def EngineState.global {α : Type*} (st : EngineState) (fill : α) (a : Cells α) (y x : ℤ) : α :=
  if st.canvas.box.Has (y - st.canvas.cy0) (x - st.canvas.cx0)
    then a (y - st.canvas.cy0) (x - st.canvas.cx0) else fill

end CloudServer.SceneFold
