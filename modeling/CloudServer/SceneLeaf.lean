import CloudServer.Dict

/-! Leaves of the scene graph and the validation phase of a batch.
Coordinates are exact rationals; the rotation of a window is given by its cosine
and sine. Checks on the Python type of a field are carried by the Lean type. -/
namespace CloudServer.SceneLeaf

open List

abbrev U8 := Fin 256

instance u8_neZero : NeZero 256 := inferInstance

def UNKNOWN : U8 := 255
def BLOCKED : U8 := 100

def RES : ℚ := 1 / 20
def MAX_WINDOW_M : ℚ := 20
def POSE_SLACK_M : ℚ := 5
def RESERVED : List String := ["undriven", "ever_blocked", "soft"]

/-- A two-dimensional `uint8` array. -/
structure Window where
  rows : ℕ
  cols : ℕ
  px : Fin rows → Fin cols → U8
  deriving DecidableEq

def Window.read (w : Window) (row col : ℤ) : U8 :=
  if h : (0 ≤ row ∧ row < w.rows) ∧ (0 ≤ col ∧ col < w.cols) then
    w.px ⟨row.toNat, by omega⟩ ⟨col.toNat, by omega⟩
  else UNKNOWN

lemma Window.read_outside {w : Window} {row col : ℤ} (h : ¬((0 ≤ row ∧ row < w.rows) ∧ (0 ≤ col ∧ col < w.cols))) :
    w.read row col = UNKNOWN := dif_neg h

lemma Window.read_inside {w : Window} {row col : ℤ} (h : w.read row col ≠ UNKNOWN) :
    (0 ≤ row ∧ row < w.rows) ∧ (0 ≤ col ∧ col < w.cols) := by
  by_contra hc
  exact h (w.read_outside hc)

structure Rotation where
  cos : ℚ
  sin : ℚ
  deriving DecidableEq

structure View where
  x : ℚ
  y : ℚ
  yaw : ℚ
  fov : ℚ
  rng : ℚ
  deriving DecidableEq

/-- One scan of a mission as the bundle tells it. -/
structure Leaf where
  key : String
  session : Option String
  stamp_ms : ℤ
  x : ℚ
  y : ℚ
  yaw : ℚ
  resolution : ℚ
  origin : ℚ × ℚ
  window_u8 : Window
  r_d : ℚ
  origin_yaw : Rotation
  channels : Dict String (Option Window)
  view : Option View
  deriving DecidableEq

def minOf (xs : List ℚ) : ℚ := xs.foldr min (xs.headD 0)
def maxOf (xs : List ℚ) : ℚ := xs.foldr max (xs.headD 0)

/-- The value of one sample of target cell `(row, col)`: the source cell under the
sample point, unknown when the point is outside the source window. -/
def sample (window : Window) (res : ℚ) (origin : ℚ × ℚ) (yaw : Rotation) (target : ℚ)
    (ix0 iy0 : ℤ) (fx fy : ℚ) (row col : ℕ) : U8 :=
  let px := (ix0 + col + fx) * target - origin.1
  let py := (iy0 + row + fy) * target - origin.2
  let u := (px * yaw.cos + py * yaw.sin) / res
  let v := (-px * yaw.sin + py * yaw.cos) / res
  window.read ⌊v⌋ ⌊u⌋

/-- Resample a window onto the axis-aligned lattice of step `target`: the source cell
under the centre, or with a finer source `BLOCKED` as soon as one of the `k * k` samples
reads at least `BLOCKED` (an unknown sample does), else free. -/
def toLattice (window : Window) (res : ℚ) (origin : ℚ × ℚ) (yaw : Rotation) (target : ℚ) :
    Window × (ℚ × ℚ) :=
  let w : ℚ := window.cols * res
  let h : ℚ := window.rows * res
  let corners : List (ℚ × ℚ) := [(0, 0), (w, 0), (0, h), (w, h)]
  let xs := corners.map fun c => origin.1 + c.1 * yaw.cos - c.2 * yaw.sin
  let ys := corners.map fun c => origin.2 + c.1 * yaw.sin + c.2 * yaw.cos
  let ix0 := ⌊minOf xs / target⌋
  let iy0 := ⌊minOf ys / target⌋
  let ix1 := ⌈maxOf xs / target⌉
  let iy1 := ⌈maxOf ys / target⌉
  let k := max 1 ⌈target / res - 1 / 10 ^ 9⌉.toNat
  let sub := (List.range k).map fun i : ℕ => ((i : ℚ) + 1 / 2) / k
  let vals (row col : ℕ) : List U8 :=
    sub.flatMap fun fy => sub.map fun fx =>
      sample window res origin yaw target ix0 iy0 fx fy row col
  let cell (row col : ℕ) : U8 :=
    if k = 1 then (vals row col).headD UNKNOWN
    else if (vals row col).any (BLOCKED ≤ ·) then BLOCKED
    else if (vals row col).any (· < BLOCKED) then 0
    else UNKNOWN
  (⟨(iy1 - iy0).toNat, (ix1 - ix0).toNat, fun row col => cell row col⟩,
    (ix0 * target, iy0 * target))

/-- A validated leaf with its rasterised occupancy and channels; `gx`, `gy` is the
global costmap cell of the raster's cell `(0, 0)`. -/
structure Prepared where
  lf : Leaf
  wl : Window
  gx : ℤ
  gy : ℤ
  chans : List (String × Window)
  deriving DecidableEq

def foldLeaf (lf : Leaf) : Prepared :=
  let raster (w : Window) := toLattice w lf.resolution lf.origin lf.origin_yaw RES
  let w := raster lf.window_u8
  let chans := lf.channels.items.filterMap fun c =>
    if c.1 ∈ RESERVED then none else c.2.map fun v => (c.1, (raster v).1)
  ⟨lf, w.1, round (w.2.1 / RES), round (w.2.2 / RES), chans⟩

inductive Reason
  | emptyKey
  | duplicateKey
  | emptyWindow
  | resolution
  | rD
  | windowSide (side : ℚ)
  | channel (name : String)
  | poseOutside (ex : ℚ)
  | canvas (H W : ℕ)
  deriving DecidableEq

structure LeafError where
  key : Option String
  reason : Reason
  deriving DecidableEq

/-- The fields the validation phase compares when a key repeats inside a batch. -/
def sameContent (o lf : Leaf) : Bool :=
  decide ((o.stamp_ms, o.x, o.y, o.session) = (lf.stamp_ms, lf.x, lf.y, lf.session)) &&
    decide ((o.r_d, o.origin, o.resolution, o.origin_yaw) =
      (lf.r_d, lf.origin, lf.resolution, lf.origin_yaw)) &&
    decide (o.window_u8 = lf.window_u8)

def poseExcess (p : Prepared) : ℚ :=
  max (max (p.gx * RES - p.lf.x) (p.lf.x - (p.gx + p.wl.cols) * RES))
    (max (p.gy * RES - p.lf.y) (p.lf.y - (p.gy + p.wl.rows) * RES))

def badChannel (lf : Leaf) : Option String :=
  (lf.channels.items.find? fun c => c.1 ∉ RESERVED ∧
    c.2.any fun v => (v.rows, v.cols) ≠ (lf.window_u8.rows, lf.window_u8.cols)).map Prod.fst

def prepareLeaf (lf : Leaf) : Except LeafError Prepared :=
  let bad (why : Reason) : Except LeafError Prepared := .error ⟨some lf.key, why⟩
  let side := max lf.window_u8.rows lf.window_u8.cols * lf.resolution
  if lf.key = "" then bad .emptyKey
  else if lf.window_u8.rows * lf.window_u8.cols = 0 then bad .emptyWindow
  else if lf.resolution ≤ 0 then bad .resolution
  else if lf.r_d ≤ 0 then bad .rD
  else if MAX_WINDOW_M < side then bad (.windowSide side)
  else match badChannel lf with
    | some name => bad (.channel name)
    | none =>
      let p := foldLeaf lf
      if POSE_SLACK_M < poseExcess p then bad (.poseOutside (poseExcess p)) else .ok p

/-- Validate and rasterise a batch; `seen` holds the leaves accepted so far. -/
def prepareFrom : List Leaf → List Leaf → Except LeafError (List Prepared)
  | _, [] => .ok []
  | seen, lf :: rest =>
    match seen.find? fun o => o.key = lf.key with
    | some o =>
      if sameContent o lf then prepareFrom seen rest
      else .error ⟨some lf.key, .duplicateKey⟩
    | none => do
      let p ← prepareLeaf lf
      let ps ← prepareFrom (seen ++ [lf]) rest
      pure (p :: ps)

def prepare (leaves : List Leaf) : Except LeafError (List Prepared) := prepareFrom [] leaves

lemma toLattice_shape {a b : Window} (h : (a.rows, a.cols) = (b.rows, b.cols)) (res : ℚ)
    (origin : ℚ × ℚ) (yaw : Rotation) (target : ℚ) :
    ((toLattice a res origin yaw target).1.rows, (toLattice a res origin yaw target).1.cols) =
      ((toLattice b res origin yaw target).1.rows, (toLattice b res origin yaw target).1.cols) := by
  obtain ⟨hr, hc⟩ := Prod.mk.inj h
  simp only [toLattice, hr, hc]

lemma foldLeaf_chan_mem {lf : Leaf} {c : String × Window} (hc : c ∈ (foldLeaf lf).chans) :
    c.1 ∉ RESERVED ∧ ∃ v, (c.1, some v) ∈ lf.channels.items ∧
      c.2 = (toLattice v lf.resolution lf.origin lf.origin_yaw RES).1 := by
  obtain ⟨e, he, hf⟩ := mem_filterMap.mp hc
  by_cases hr : e.1 ∈ RESERVED
  · simp [hr] at hf
  · obtain ⟨v, hv, rfl⟩ := Option.map_eq_some_iff.mp (by simpa only [hr, if_false] using hf)
    exact ⟨hr, v, by rw [← hv]; exact he, rfl⟩

lemma foldLeaf_chans_nodup (lf : Leaf) : ((foldLeaf lf).chans.map Prod.fst).Nodup := by
  have hsub : List.Sublist ((foldLeaf lf).chans.map Prod.fst) (lf.channels.items.map Prod.fst) := by
    unfold foldLeaf
    dsimp only
    induction lf.channels.items with
    | nil => simp
    | cons c cs ih =>
      rw [filterMap_cons]
      split
      · exact ih.cons _
      · rename_i d hd
        have hname : d.1 = c.1 := by
          split_ifs at hd
          obtain ⟨v, -, rfl⟩ := Option.map_eq_some_iff.mp hd
          rfl
        simpa [hname] using ih
  exact hsub.nodup lf.channels.nodup

lemma prepareLeaf_ok {lf : Leaf} {p : Prepared} (h : prepareLeaf lf = .ok p) :
    p = foldLeaf lf ∧ lf.key ≠ "" ∧ ∀ c ∈ p.chans, (c.2.rows, c.2.cols) = (p.wl.rows, p.wl.cols) := by
  unfold prepareLeaf at h
  dsimp only at h
  by_cases h1 : lf.key = ""
  · simp [h1] at h
  · split at h
    · exact absurd ‹_› h1
    · split_ifs at h <;> split at h <;> cases h
      refine ⟨rfl, h1, fun c hc => ?_⟩
      obtain ⟨hr, v, hv, hw⟩ := foldLeaf_chan_mem hc
      have hb : badChannel lf = none := by assumption
      have hshape : (v.rows, v.cols) = (lf.window_u8.rows, lf.window_u8.cols) := by
        by_contra hne
        have := List.find?_eq_none.mp (Option.map_eq_none_iff.mp hb) _ hv
        simp [hr] at this
        exact hne (Prod.ext this.1 this.2)
      rw [hw]
      exact toLattice_shape hshape _ _ _ _

structure Prepared.Valid (p : Prepared) : Prop where
  raster : p = foldLeaf p.lf
  key : p.lf.key ≠ ""
  shape : ∀ c ∈ p.chans, (c.2.rows, c.2.cols) = (p.wl.rows, p.wl.cols)

variable {leaves seen : List Leaf} {ps : List Prepared}

lemma prepareFrom_mem (h : prepareFrom seen leaves = .ok ps) :
    (∀ p ∈ ps, p.lf ∈ leaves ∧ p.Valid) ∧ ∀ l ∈ leaves, (∃ o ∈ seen, o.key = l.key) ∨ ∃ p ∈ ps, p.lf.key = l.key := by
  induction leaves generalizing seen ps with
  | nil =>
    simp only [prepareFrom, Except.ok.injEq] at h
    subst h
    simp
  | cons lf rest ih =>
    unfold prepareFrom at h
    split at h
    · rename_i o ho
      split_ifs at h with hs
      obtain ⟨h1, h2⟩ := ih h
      have hk : o.key = lf.key := by simpa using List.find?_some ho
      refine ⟨fun p hp => ?_, fun l hl => ?_⟩
      · obtain ⟨ha, hb⟩ := h1 p hp
        exact ⟨mem_cons_of_mem _ ha, hb⟩
      · rcases mem_cons.mp hl with rfl | hl
        · exact Or.inl ⟨o, mem_of_find?_eq_some ho, hk⟩
        · exact h2 l hl
    · simp only [bind, Except.bind, pure, Except.pure] at h
      split at h
      · cases h
      · rename_i p hp
        split at h
        · cases h
        · rename_i ps' hps
          cases h
          obtain ⟨h1, h2⟩ := ih hps
          obtain ⟨rfl, hne, hshape⟩ := prepareLeaf_ok hp
          refine ⟨fun q hq => ?_, fun l hl => ?_⟩
          · rcases mem_cons.mp hq with rfl | hq
            · exact ⟨by simp [foldLeaf], rfl, hne, hshape⟩
            · obtain ⟨ha, hb⟩ := h1 q hq
              exact ⟨mem_cons_of_mem _ ha, hb⟩
          · rcases mem_cons.mp hl with rfl | hl
            · exact Or.inr ⟨foldLeaf l, by simp, rfl⟩
            · rcases h2 l hl with ⟨o, ho, hk⟩ | ⟨q, hq, hk⟩
              · rcases mem_append.mp ho with ho | ho
                · exact Or.inl ⟨o, ho, hk⟩
                · rw [mem_singleton.mp ho] at hk
                  exact Or.inr ⟨foldLeaf lf, by simp, hk⟩
              · exact Or.inr ⟨q, mem_cons_of_mem _ hq, hk⟩

lemma prepare_mem (h : prepare leaves = .ok ps) :
    (∀ p ∈ ps, p.lf ∈ leaves ∧ p.Valid) ∧ ∀ l ∈ leaves, ∃ p ∈ ps, p.lf.key = l.key := by
  obtain ⟨h1, h2⟩ := prepareFrom_mem h
  exact ⟨h1, fun l hl => by simpa using h2 l hl⟩

end CloudServer.SceneLeaf
