import CloudServer.KeepoutLines
import CloudServer.LatticeTrail

/-! Keep-out zones of charts and of chart pairs: the cells that the planner seals, read from the owner
planes in a window around the anchors. -/
namespace CloudServer.KeepoutCharts
open KeepoutLines LatticeTrail List
open SceneFold (intRange)
open StoreRepresent (mem_intRange)

def TILE_L : ℤ := 64

/-- A chart of the stored graph. -/
structure Chart where
  id : ℕ
  key : String
  anchor : ℚ × ℚ

/-- A stored version as the planner reads it. A tile that cannot be read is `none`, an absent one, or
one without an owner plane, `some none`. -/
structure PlanGraph where
  chartRadius : ℚ
  lattice : ℚ
  charts : List Chart
  tile : ℤ × ℤ → Option (Option (ℤ → ℤ → ℤ))
  lattice_pos : 0 < lattice
  ids_pos : ∀ c ∈ charts, 0 < c.id
  ids_nodup : (charts.map Chart.id).Nodup
  keys_nodup : (charts.map Chart.key).Nodup
  /-- The cells that are owned have a key. -/
  keyed : ∀ t own, tile t = some (some own) → ∀ x y, x / TILE_L = t.1 → y / TILE_L = t.2 →
    0 < own (y % TILE_L) (x % TILE_L) → (-CELL_OFF ≤ x ∧ x < CELL_OFF) ∧ -CELL_OFF ≤ y ∧ y < CELL_OFF

/-- The answer of `owner_window` without the keys. -/
structure Window where
  ix0 : ℤ
  ix1 : ℤ
  iy0 : ℤ
  iy1 : ℤ
  idx : ℤ → ℤ → ℤ

def Window.Has (w : Window) (c : ℤ × ℤ) : Prop := (w.ix0 ≤ c.1 ∧ c.1 ≤ w.ix1) ∧ w.iy0 ≤ c.2 ∧ c.2 ≤ w.iy1

namespace PlanGraph

variable (g : PlanGraph)

def keys : List String := g.charts.map Chart.key

def chartAnchors : Dict String (ℚ × ℚ) := Dict.ofList (g.charts.map fun c => (c.key, c.anchor))

def lut (id : ℤ) : ℤ :=
  if 0 < id then
    match g.charts.findIdx? fun c => (c.id : ℤ) = id with
    | some j => j
    | none => -1
  else -1

def putTile (w : Window) (t : ℤ × ℤ) (own : ℤ → ℤ → ℤ) : Window :=
  let gx0 := t.1 * TILE_L
  let gy0 := t.2 * TILE_L
  let xa := max w.ix0 gx0
  let xb := min w.ix1 (gx0 + TILE_L - 1)
  let ya := max w.iy0 gy0
  let yb := min w.iy1 (gy0 + TILE_L - 1)
  if xa ≤ xb ∧ ya ≤ yb then
    { w with idx := fun r c =>
        if (ya - w.iy0 ≤ r ∧ r < yb - w.iy0 + 1) ∧ xa - w.ix0 ≤ c ∧ c < xb - w.ix0 + 1 then
          g.lut (own (ya - gy0 + (r - (ya - w.iy0))) (xa - gx0 + (c - (xa - w.ix0))))
        else w.idx r c }
  else w

def readTile (w : Window) (t : ℤ × ℤ) : Option Window :=
  (g.tile t).map fun v => v.elim w (g.putTile w t)

def tilesOf (w : Window) : List (ℤ × ℤ) :=
  (intRange (w.iy0 / TILE_L) (w.iy1 / TILE_L + 1)).flatMap fun ty =>
    (intRange (w.ix0 / TILE_L) (w.ix1 / TILE_L + 1)).map fun tx => (tx, ty)

def blank (x0 y0 x1 y1 : ℚ) : Window :=
  ⟨⌊x0 / g.lattice⌋, ⌊x1 / g.lattice⌋, ⌊y0 / g.lattice⌋, ⌊y1 / g.lattice⌋, fun _ _ => -1⟩

/-- `none` is TileUnavailable. -/
def ownerWindow (x0 y0 x1 y1 : ℚ) : Option Window :=
  (tilesOf (g.blank x0 y0 x1 y1)).foldlM g.readTile (g.blank x0 y0 x1 y1)

end PlanGraph

/-- `none` is the ValueError of no points. -/
def boxAround (points : List (ℚ × ℚ)) (pad : ℚ) : Option ((ℚ × ℚ) × (ℚ × ℚ)) := do
  let x0 ← (points.map Prod.fst).min?
  let y0 ← (points.map Prod.snd).min?
  let x1 ← (points.map Prod.fst).max?
  let y1 ← (points.map Prod.snd).max?
  return ((x0 - pad, y0 - pad), (x1 + pad, y1 + pad))

def pad (g : PlanGraph) : ℚ := g.chartRadius + 3 * g.lattice

def chartMask (g : PlanGraph) (anchors : Dict String (ℚ × ℚ)) (keys : List String) :
    Option (Window × (String → ℤ → ℤ → Bool)) := do
  let points ← keys.mapM anchors.get
  let box ← boxAround points (pad g)
  let w ← g.ownerWindow box.1.1 box.1.2 box.2.1 box.2.2
  return (w, fun k r c =>
    match g.keys.findIdx? fun name => name = k with
    | some i => w.idx r c = i
    | none => false)

def cellsOf (w : Window) : List (ℤ × ℤ) :=
  (intRange 0 (w.iy1 - w.iy0 + 1)).flatMap fun r => (intRange 0 (w.ix1 - w.ix0 + 1)).map fun c => (r, c)

def keysOfMask (w : Window) (mask : ℤ → ℤ → Bool) : Finset ℤ :=
  (((cellsOf w).filter fun p => mask p.1 p.2).map fun p => cellKey (p.2 + w.ix0, p.1 + w.iy0)).toFinset

def binaryDilation (w : Window) (mask : ℤ → ℤ → Bool) (r c : ℤ) : Bool :=
  (intRange (-1) 2).any fun dr => (intRange (-1) 2).any fun dc =>
    decide ((0 ≤ r + dr ∧ r + dr ≤ w.iy1 - w.iy0) ∧ 0 ≤ c + dc ∧ c + dc ≤ w.ix1 - w.ix0) && mask (r + dr) (c + dc)

def chartCells (g : PlanGraph) (anchors : Dict String (ℚ × ℚ)) (key : String) : Option (Finset ℤ) := do
  let m ← chartMask g anchors [key]
  return keysOfMask m.1 (m.2 key)

/-- The seal along the shared boundary of the charts `a` and `b`. -/
def edgeCells (g : PlanGraph) (anchors : Dict String (ℚ × ℚ)) (a b : String) : Option (Finset ℤ) := do
  let m ← chartMask g anchors [a, b]
  let ma := m.2 a
  let mb := m.2 b
  return keysOfMask m.1 fun r c =>
    (binaryDilation m.1 ma r c && mb r c) || (binaryDilation m.1 mb r c && ma r c)

def PlanGraph.ownerId (g : PlanGraph) (c : ℤ × ℤ) : ℤ :=
  match g.tile (c.1 / TILE_L, c.2 / TILE_L) with
  | some (some own) => own (c.2 % TILE_L) (c.1 % TILE_L)
  | _ => 0

/-- The cell is of the chart with this key. -/
def PlanGraph.Owns (g : PlanGraph) (key : String) (c : ℤ × ℤ) : Prop :=
  ∃ ch ∈ g.charts, ch.key = key ∧ g.ownerId c = ch.id

/-- The cell is in the window around the segment. -/
def PlanGraph.Reads (g : PlanGraph) (a b : ℚ × ℚ) (c : ℤ × ℤ) : Prop :=
  (⌊(min a.1 b.1 - pad g) / g.lattice⌋ ≤ c.1 ∧ c.1 ≤ ⌊(max a.1 b.1 + pad g) / g.lattice⌋) ∧
    ⌊(min a.2 b.2 - pad g) / g.lattice⌋ ≤ c.2 ∧ c.2 ≤ ⌊(max a.2 b.2 + pad g) / g.lattice⌋

def Neighbours (c d : ℤ × ℤ) : Prop := |c.1 - d.1| ≤ 1 ∧ |c.2 - d.2| ≤ 1

variable {g : PlanGraph} {w w' : Window} {c d : ℤ × ℤ} {key : String}

def PlanGraph.owner (g : PlanGraph) (c : ℤ × ℤ) : ℤ := g.lut (g.ownerId c)

def tileOf (c : ℤ × ℤ) : ℤ × ℤ := (c.1 / TILE_L, c.2 / TILE_L)

structure SameBox (w w' : Window) : Prop where
  ix0 : w'.ix0 = w.ix0
  ix1 : w'.ix1 = w.ix1
  iy0 : w'.iy0 = w.iy0
  iy1 : w'.iy1 = w.iy1

theorem SameBox.has (h : SameBox w w') : w'.Has c ↔ w.Has c := by
  simp only [Window.Has, h.ix0, h.ix1, h.iy0, h.iy1]

theorem putTile_box (t : ℤ × ℤ) (own : ℤ → ℤ → ℤ) : SameBox w (g.putTile w t own) := by
  unfold PlanGraph.putTile
  dsimp only
  split_ifs
  · exact ⟨rfl, rfl, rfl, rfl⟩
  · exact ⟨rfl, rfl, rfl, rfl⟩

theorem putTile_idx (t : ℤ × ℤ) (own : ℤ → ℤ → ℤ) (hc : w.Has c) :
    (g.putTile w t own).idx (c.2 - w.iy0) (c.1 - w.ix0) =
      if tileOf c = t then g.lut (own (c.2 % TILE_L) (c.1 % TILE_L))
      else w.idx (c.2 - w.iy0) (c.1 - w.ix0) := by
  obtain ⟨hx, hy⟩ := hc
  have hside : TILE_L = 64 := rfl
  have hgx : t.1 * TILE_L = t.1 * 64 := rfl
  have hgy : t.2 * TILE_L = t.2 * 64 := rfl
  unfold PlanGraph.putTile
  dsimp only
  by_cases ht : tileOf c = t
  · obtain ⟨h₁, h₂⟩ := Prod.ext_iff.mp ht
    simp only [tileOf, TILE_L] at h₁ h₂
    have hmx : c.1 % TILE_L = c.1 - t.1 * 64 := by
      rw [hside]
      omega
    have hmy : c.2 % TILE_L = c.2 - t.2 * 64 := by
      rw [hside]
      omega
    rw [if_pos ht, if_pos (by omega)]
    dsimp only
    rw [if_pos (by omega), hmx, hmy]
    congr 2
    · omega
    · omega
  · have hout : ¬((t.1 * 64 ≤ c.1 ∧ c.1 ≤ t.1 * 64 + 63) ∧ t.2 * 64 ≤ c.2 ∧ c.2 ≤ t.2 * 64 + 63) := by
      intro hin
      refine ht (Prod.ext ?_ ?_)
      · simp only [tileOf, TILE_L]
        omega
      · simp only [tileOf, TILE_L]
        omega
    rw [if_neg ht]
    split_ifs
    · dsimp only
      rw [if_neg (by omega)]
    · rfl

variable {a b ch : Chart} {keys : Finset ℤ} {k : ℤ} {t : ℤ × ℤ} {done ts : List (ℤ × ℤ)}
variable {mask : ℤ → ℤ → Bool} {m : Window × (String → ℤ → ℤ → Bool)}

theorem readTile_box (h : g.readTile w t = some w') : SameBox w w' := by
  unfold PlanGraph.readTile at h
  obtain ⟨v, -, rfl⟩ := Option.map_eq_some_iff.mp h
  cases v with
  | none => exact ⟨rfl, rfl, rfl, rfl⟩
  | some own => exact putTile_box t own

/-- The cells of the tiles that were read have their owner, the others are blank. -/
def Filled (g : PlanGraph) (done : List (ℤ × ℤ)) (w : Window) : Prop :=
  ∀ c, w.Has c → w.idx (c.2 - w.iy0) (c.1 - w.ix0) = if tileOf c ∈ done then g.owner c else -1

theorem Filled.readTile (h : Filled g done w) (hr : g.readTile w t = some w') :
    Filled g (t :: done) w' := by
  have hbox := readTile_box hr
  intro c hc
  rw [hbox.has] at hc
  have hold := h c hc
  unfold PlanGraph.readTile at hr
  obtain ⟨v, hv, rfl⟩ := Option.map_eq_some_iff.mp hr
  rw [hbox.iy0, hbox.ix0]
  by_cases ht : tileOf c = t
  · rw [if_pos (by simp [ht])]
    cases v with
    | none =>
      have hnone : g.ownerId c = 0 := by
        unfold PlanGraph.ownerId
        rw [show (c.1 / TILE_L, c.2 / TILE_L) = t from ht, hv]
      have howner : g.owner c = -1 := by
        unfold PlanGraph.owner
        rw [hnone]
        rfl
      rw [Option.elim_none, hold, howner, ite_self]
    | some own =>
      have hid : g.ownerId c = own (c.2 % TILE_L) (c.1 % TILE_L) := by
        unfold PlanGraph.ownerId
        rw [show (c.1 / TILE_L, c.2 / TILE_L) = t from ht, hv]
      rw [Option.elim_some, putTile_idx t own hc, if_pos ht]
      unfold PlanGraph.owner
      rw [hid]
  · have hmem : (tileOf c ∈ t :: done) = (tileOf c ∈ done) := by simp [ht]
    simp only [hmem]
    cases v with
    | none => exact hold
    | some own =>
      rw [Option.elim_some, putTile_idx t own hc, if_neg ht]
      exact hold

theorem Filled.readTiles (h : Filled g done w) (hr : ts.foldlM g.readTile w = some w') :
    SameBox w w' ∧ Filled g (ts.reverse ++ done) w' := by
  induction ts generalizing w done with
  | nil =>
    cases hr
    exact ⟨⟨rfl, rfl, rfl, rfl⟩, h⟩
  | cons t ts ih =>
    rw [foldlM_cons] at hr
    obtain ⟨v, hv, hrest⟩ := Option.bind_eq_some_iff.mp hr
    obtain ⟨hbox, hfill⟩ := ih (h.readTile hv) hrest
    have hstep := readTile_box hv
    refine ⟨⟨hbox.ix0.trans hstep.ix0, hbox.ix1.trans hstep.ix1, hbox.iy0.trans hstep.iy0, hbox.iy1.trans hstep.iy1⟩, ?_⟩
    rwa [reverse_cons, append_assoc]

theorem mem_tilesOf (hc : w.Has c) : tileOf c ∈ PlanGraph.tilesOf w := by
  obtain ⟨hx, hy⟩ := hc
  simp only [PlanGraph.tilesOf, mem_flatMap, mem_map, mem_intRange]
  refine ⟨c.2 / TILE_L, ?_, c.1 / TILE_L, ?_, rfl⟩
  · simp only [TILE_L]
    omega
  · simp only [TILE_L]
    omega

theorem ownerWindow_spec {x0 y0 x1 y1 : ℚ} (h : g.ownerWindow x0 y0 x1 y1 = some w) :
    SameBox (g.blank x0 y0 x1 y1) w ∧ ∀ c, w.Has c → w.idx (c.2 - w.iy0) (c.1 - w.ix0) = g.owner c := by
  have hblank : Filled g [] (g.blank x0 y0 x1 y1) := fun c hc => rfl
  obtain ⟨hbox, hfill⟩ := hblank.readTiles h
  refine ⟨hbox, fun c hc => ?_⟩
  rw [hfill c hc, if_pos]
  rw [append_nil, mem_reverse]
  exact mem_tilesOf (hbox.has.mp hc)

theorem ownerWindow_isSome (ht : ∀ t, (g.tile t).isSome) (x0 y0 x1 y1 : ℚ) :
    (g.ownerWindow x0 y0 x1 y1).isSome := by
  unfold PlanGraph.ownerWindow
  generalize g.blank x0 y0 x1 y1 = w
  generalize PlanGraph.tilesOf w = ts
  induction ts generalizing w with
  | nil => rfl
  | cons t ts ih =>
    obtain ⟨v, hv⟩ := Option.isSome_iff_exists.mp (ht t)
    rw [foldlM_cons]
    unfold PlanGraph.readTile
    rw [hv]
    exact ih _

theorem findIdx?_eq_some_iff {α β : Type} [DecidableEq β] {xs : List α} {f : α → β} (hn : (xs.map f).Nodup) {b : β}
    {i : ℕ} : (xs.findIdx? fun x => f x = b) = some i ↔ ∃ x, xs[i]? = some x ∧ f x = b := by
  rw [List.findIdx?_eq_some_iff_getElem]
  simp only [decide_eq_true_eq]
  constructor
  · rintro ⟨h, hx, -⟩
    exact ⟨xs[i], List.getElem?_eq_getElem h, hx⟩
  · rintro ⟨x, hx, hb⟩
    obtain ⟨h, rfl⟩ := List.getElem?_eq_some_iff.mp hx
    refine ⟨h, hb, fun j hj he => ?_⟩
    have hij : (xs.map f)[j]? = (xs.map f)[i]? := by
      rw [List.getElem?_map, List.getElem?_map, hx, List.getElem?_eq_getElem (hj.trans h), Option.map_some,
        Option.map_some, he, hb]
    have heq := (List.getElem?_inj (by simpa using hj.trans h) hn).mp hij
    omega

theorem lut_iff {id : ℤ} {i : ℕ} : g.lut id = i ↔ ∃ ch, g.charts[i]? = some ch ∧ (ch.id : ℤ) = id := by
  have hn : (g.charts.map fun ch => (ch.id : ℤ)).Nodup := by
    have hmap := g.ids_nodup.map (f := fun n : ℕ => (n : ℤ)) Nat.cast_injective
    rwa [map_map] at hmap
  have hidx := findIdx?_eq_some_iff hn (b := id) (i := i)
  rw [← hidx]
  unfold PlanGraph.lut
  by_cases hpos : 0 < id
  · rw [if_pos hpos]
    cases g.charts.findIdx? fun ch => (ch.id : ℤ) = id with
    | none => simp
    | some j => simp
  · rw [if_neg hpos]
    constructor
    · intro h
      omega
    · intro h
      obtain ⟨ch, hch, rfl⟩ := hidx.mp h
      have := g.ids_pos ch (mem_of_getElem? hch)
      omega

theorem mask_iff (hw : w.idx (c.2 - w.iy0) (c.1 - w.ix0) = g.owner c) :
    (match g.keys.findIdx? fun name => name = key with
      | some i => decide (w.idx (c.2 - w.iy0) (c.1 - w.ix0) = i)
      | none => false) = true ↔ g.Owns key c := by
  have hn : (g.keys.map id).Nodup := by simpa [PlanGraph.keys] using g.keys_nodup
  have hidx := fun i => findIdx?_eq_some_iff hn (b := key) (i := i)
  simp only [id_eq] at hidx
  rw [hw]
  constructor
  · intro h
    cases hf : g.keys.findIdx? fun name => name = key with
    | none => simp [hf] at h
    | some i =>
      rw [hf] at h
      obtain ⟨name, hname, rfl⟩ := (hidx i).mp hf
      obtain ⟨ch, hch, hid⟩ := lut_iff.mp (of_decide_eq_true h)
      have hkey : g.keys[i]? = some ch.key := by
        unfold PlanGraph.keys
        rw [List.getElem?_map, hch]
        rfl
      exact ⟨ch, mem_of_getElem? hch, Option.some.inj (hkey.symm.trans hname), hid.symm⟩
  · rintro ⟨ch, hch, rfl, hid⟩
    obtain ⟨i, hi⟩ := mem_iff_getElem?.mp hch
    have hf : (g.keys.findIdx? fun name => name = ch.key) = some i := by
      refine (hidx i).mpr ⟨ch.key, ?_, rfl⟩
      unfold PlanGraph.keys
      rw [List.getElem?_map, hi]
      rfl
    rw [hf]
    exact decide_eq_true (lut_iff.mpr ⟨ch, hi, hid.symm⟩)

theorem mem_keysOfMask :
    k ∈ keysOfMask w mask ↔ ∃ c, w.Has c ∧ mask (c.2 - w.iy0) (c.1 - w.ix0) ∧ k = cellKey c := by
  simp only [keysOfMask, cellsOf, mem_toFinset, mem_map, mem_filter, mem_flatMap, mem_intRange]
  constructor
  · rintro ⟨p, ⟨⟨r, hr, c, hc, rfl⟩, hm⟩, rfl⟩
    refine ⟨(c + w.ix0, r + w.iy0), ?_, ?_, rfl⟩
    · simp only [Window.Has]
      omega
    · simpa using hm
  · rintro ⟨c, ⟨hx, hy⟩, hm, rfl⟩
    refine ⟨(c.2 - w.iy0, c.1 - w.ix0), ⟨⟨c.2 - w.iy0, by omega, c.1 - w.ix0, by omega, rfl⟩, hm⟩, ?_⟩
    simp only [sub_add_cancel]

theorem binaryDilation_iff : binaryDilation w mask (c.2 - w.iy0) (c.1 - w.ix0) ↔
    ∃ d, Neighbours c d ∧ w.Has d ∧ mask (d.2 - w.iy0) (d.1 - w.ix0) := by
  simp only [binaryDilation, any_eq_true, mem_intRange, Bool.and_eq_true, decide_eq_true_eq]
  constructor
  · rintro ⟨dr, hr, dc, hc, hin, hm⟩
    refine ⟨(c.1 + dc, c.2 + dr), ?_, ?_, ?_⟩
    · simp only [Neighbours, abs_le]
      omega
    · simp only [Window.Has]
      omega
    · simpa [add_sub_right_comm] using hm
  · rintro ⟨d, hd, ⟨hx, hy⟩, hm⟩
    simp only [Neighbours, abs_le] at hd
    refine ⟨d.2 - c.2, by omega, d.1 - c.1, by omega, by omega, ?_⟩
    simpa using hm

theorem chartAnchors_get (hch : ch ∈ g.charts) : g.chartAnchors.get ch.key = some ch.anchor := by
  refine Dict.get_ofList ?_ ?_
  · rintro e he hk
    obtain ⟨ch', hch', rfl⟩ := mem_map.mp he
    rw [inj_on_of_nodup_map g.keys_nodup hch' hch hk]
  · rw [map_map]
    exact mem_map_of_mem hch

theorem boxAround_two (p q : ℚ × ℚ) (r : ℚ) :
    boxAround [p, q] r = some ((min p.1 q.1 - r, min p.2 q.2 - r), (max p.1 q.1 + r, max p.2 q.2 + r)) := rfl

theorem boxAround_one (p : ℚ × ℚ) (r : ℚ) : boxAround [p] r = boxAround [p, p] r := by
  rw [boxAround_two, min_self, min_self, max_self, max_self]
  rfl

/-- What `chart_mask` has once the anchors are looked up. -/
def Masked (g : PlanGraph) (a b : ℚ × ℚ) (m : Window × (String → ℤ → ℤ → Bool)) : Prop :=
  (∀ c, m.1.Has c ↔ g.Reads a b c) ∧
    ∀ c, m.1.Has c → ∀ key, m.2 key (c.2 - m.1.iy0) (c.1 - m.1.ix0) ↔ g.Owns key c

theorem masked_of_window {a b : ℚ × ℚ} {box : (ℚ × ℚ) × (ℚ × ℚ)} (hb : boxAround [a, b] (pad g) = some box)
    (hw : g.ownerWindow box.1.1 box.1.2 box.2.1 box.2.2 = some w) :
    Masked g a b (w, fun k r c =>
      match g.keys.findIdx? fun name => name = k with
      | some i => decide (w.idx r c = i)
      | none => false) := by
  rw [boxAround_two] at hb
  cases hb
  obtain ⟨hbox, hidx⟩ := ownerWindow_spec hw
  exact ⟨fun c => hbox.has, fun c hc key => mask_iff (hidx c hc)⟩

theorem chartMask_one (ha : a ∈ g.charts)
    (h : chartMask g g.chartAnchors [a.key] = some m) : Masked g a.anchor a.anchor m := by
  unfold chartMask at h
  rw [show [a.key].mapM g.chartAnchors.get = some [a.anchor] by simp [chartAnchors_get ha]] at h
  obtain ⟨points, hp, h⟩ := Option.bind_eq_some_iff.mp h
  cases hp
  obtain ⟨box, hb, h⟩ := Option.bind_eq_some_iff.mp h
  obtain ⟨w, hw, h⟩ := Option.bind_eq_some_iff.mp h
  cases h
  rw [boxAround_one] at hb
  exact masked_of_window hb hw

theorem chartMask_two (ha : a ∈ g.charts) (hb : b ∈ g.charts)
    (h : chartMask g g.chartAnchors [a.key, b.key] = some m) : Masked g a.anchor b.anchor m := by
  unfold chartMask at h
  rw [show [a.key, b.key].mapM g.chartAnchors.get = some [a.anchor, b.anchor] by
    simp [chartAnchors_get ha, chartAnchors_get hb]] at h
  obtain ⟨points, hp, h⟩ := Option.bind_eq_some_iff.mp h
  cases hp
  obtain ⟨box, hbox, h⟩ := Option.bind_eq_some_iff.mp h
  obtain ⟨w, hw, h⟩ := Option.bind_eq_some_iff.mp h
  cases h
  exact masked_of_window hbox hw

theorem mem_chartCells (hch : ch ∈ g.charts) (h : chartCells g g.chartAnchors ch.key = some keys) :
    k ∈ keys ↔ ∃ c, g.Reads ch.anchor ch.anchor c ∧ g.Owns ch.key c ∧ k = cellKey c := by
  obtain ⟨m, hm, h⟩ := Option.bind_eq_some_iff.mp h
  cases h
  obtain ⟨hhas, hmask⟩ := chartMask_one hch hm
  rw [mem_keysOfMask]
  constructor
  · rintro ⟨c, hc, ho, rfl⟩
    exact ⟨c, (hhas c).mp hc, (hmask c hc _).mp ho, rfl⟩
  · rintro ⟨c, hc, ho, rfl⟩
    have hc' := (hhas c).mpr hc
    exact ⟨c, hc', (hmask c hc' _).mpr ho, rfl⟩

def PlanGraph.Sealed (g : PlanGraph) (a b : ℚ × ℚ) (other : String) (c : ℤ × ℤ) : Prop :=
  g.Reads a b c ∧ ∃ d, Neighbours c d ∧ g.Reads a b d ∧ g.Owns other d

theorem mem_edgeCells (ha : a ∈ g.charts) (hb : b ∈ g.charts)
    (h : edgeCells g g.chartAnchors a.key b.key = some keys) :
    k ∈ keys ↔ ∃ c, ((g.Owns b.key c ∧ g.Sealed a.anchor b.anchor a.key c) ∨
      (g.Owns a.key c ∧ g.Sealed a.anchor b.anchor b.key c)) ∧ k = cellKey c := by
  obtain ⟨m, hm, h⟩ := Option.bind_eq_some_iff.mp h
  cases h
  obtain ⟨hhas, hmask⟩ := chartMask_two ha hb hm
  have hdil : ∀ key c, m.1.Has c → (binaryDilation m.1 (m.2 key) (c.2 - m.1.iy0) (c.1 - m.1.ix0) ↔
      g.Sealed a.anchor b.anchor key c) := by
    intro key c hc
    rw [binaryDilation_iff, PlanGraph.Sealed, and_iff_right ((hhas c).mp hc)]
    refine exists_congr fun d => and_congr_right fun _ => ?_
    rw [← hhas]
    exact and_congr_right fun hd => hmask d hd key
  have hreads : ∀ key c, g.Sealed a.anchor b.anchor key c → m.1.Has c := fun key c hs => (hhas c).mpr hs.1
  rw [mem_keysOfMask]
  refine exists_congr fun c => ?_
  rw [← and_assoc]
  refine and_congr_left fun _ => ?_
  rw [Bool.or_eq_true, Bool.and_eq_true, Bool.and_eq_true]
  constructor
  · rintro ⟨hc, ⟨hs, ho⟩ | ⟨hs, ho⟩⟩
    · exact Or.inl ⟨(hmask c hc _).mp ho, (hdil _ c hc).mp hs⟩
    · exact Or.inr ⟨(hmask c hc _).mp ho, (hdil _ c hc).mp hs⟩
  · rintro (⟨ho, hs⟩ | ⟨ho, hs⟩)
    · have hc := hreads _ c hs
      exact ⟨hc, Or.inl ⟨(hdil _ c hc).mpr hs, (hmask c hc _).mpr ho⟩⟩
    · have hc := hreads _ c hs
      exact ⟨hc, Or.inr ⟨(hdil _ c hc).mpr hs, (hmask c hc _).mpr ho⟩⟩

theorem cellKey_inj {a b : String} (hc : g.Owns a c) (hd : g.Owns b d) (h : cellKey c = cellKey d) : c = d := by
  have hrange : ∀ {key c}, g.Owns key c → (-CELL_OFF ≤ c.1 ∧ c.1 < CELL_OFF) ∧ -CELL_OFF ≤ c.2 ∧ c.2 < CELL_OFF := by
    rintro key c ⟨ch, hch, -, hid⟩
    have hpos := g.ids_pos ch hch
    unfold PlanGraph.ownerId at hid
    cases ht : g.tile (c.1 / TILE_L, c.2 / TILE_L) with
    | none =>
      rw [ht] at hid
      dsimp only at hid
      omega
    | some v =>
      cases v with
      | none =>
        rw [ht] at hid
        dsimp only at hid
        omega
      | some own =>
        rw [ht] at hid
        dsimp only at hid
        exact g.keyed _ own ht c.1 c.2 rfl rfl (by omega)
  have h₁ := hrange hc
  have h₂ := hrange hd
  simp only [cellKey, CELL_OFF, CELL_W] at h h₁ h₂
  exact Prod.ext (by omega) (by omega)

theorem Owns.unique {a b : String} (ha : g.Owns a c) (hb : g.Owns b c) : a = b := by
  obtain ⟨x, hx, rfl, hxid⟩ := ha
  obtain ⟨y, hy, rfl, hyid⟩ := hb
  have hid : x.id = y.id := by exact_mod_cast hxid.symm.trans hyid
  rw [inj_on_of_nodup_map g.ids_nodup hx hy hid]

theorem chartCells_iff (hch : ch ∈ g.charts) (h : chartCells g g.chartAnchors ch.key = some keys) :
    (keys : Set ℤ) = cellKey '' {c | g.Owns ch.key c} ↔ ∀ c, g.Owns ch.key c → g.Reads ch.anchor ch.anchor c := by
  constructor
  · intro heq c hc
    have hmem : cellKey c ∈ keys := by
      rw [← Finset.mem_coe, heq]
      exact Set.mem_image_of_mem cellKey hc
    obtain ⟨d, hd, ho, hk⟩ := (mem_chartCells hch h).mp hmem
    rwa [cellKey_inj hc ho hk]
  · intro hall
    refine Set.ext fun k => ?_
    rw [Finset.mem_coe, mem_chartCells hch h]
    constructor
    · rintro ⟨c, -, ho, rfl⟩
      exact ⟨c, ho, rfl⟩
    · rintro ⟨c, ho, rfl⟩
      exact ⟨c, hall c ho, ho, rfl⟩

theorem edgeCells_iff (ha : a ∈ g.charts) (hb : b ∈ g.charts)
    (h : edgeCells g g.chartAnchors a.key b.key = some keys) :
    (∀ c d, Neighbours c d → g.Owns a.key c → g.Owns b.key d → cellKey c ∈ keys ∨ cellKey d ∈ keys) ↔
      ∀ c d, Neighbours c d → g.Owns a.key c → g.Owns b.key d →
        g.Sealed a.anchor b.anchor b.key c ∨ g.Sealed a.anchor b.anchor a.key d := by
  have hleft : ∀ c, g.Owns a.key c → (cellKey c ∈ keys ↔ g.Sealed a.anchor b.anchor b.key c) := by
    intro c hc
    rw [mem_edgeCells ha hb h]
    constructor
    · rintro ⟨c', ⟨ho, hs⟩ | ⟨ho, hs⟩, hk⟩
      · obtain rfl := cellKey_inj hc ho hk
        rwa [← Owns.unique hc ho]
      · rwa [cellKey_inj hc ho hk]
    · intro hs
      exact ⟨c, Or.inr ⟨hc, hs⟩, rfl⟩
  have hright : ∀ d, g.Owns b.key d → (cellKey d ∈ keys ↔ g.Sealed a.anchor b.anchor a.key d) := by
    intro d hd
    rw [mem_edgeCells ha hb h]
    constructor
    · rintro ⟨d', ⟨ho, hs⟩ | ⟨ho, hs⟩, hk⟩
      · rwa [cellKey_inj hd ho hk]
      · obtain rfl := cellKey_inj hd ho hk
        rwa [← Owns.unique hd ho]
    · intro hs
      exact ⟨d, Or.inl ⟨hd, hs⟩, rfl⟩
  constructor
  · intro hall c d hcd hc hd
    exact (hall c d hcd hc hd).imp (hleft c hc).mp (hright d hd).mp
  · intro hall c d hcd hc hd
    exact (hall c d hcd hc hd).imp (hleft c hc).mpr (hright d hd).mpr

/-- The keep-out of a chart is the whole chart exactly when its cells lie in the window read around
the anchor. The seal of two charts leaves no step between them exactly when of every two cells that
touch one is read and touches a cell of the other chart that is read. -/
theorem charts_sealed_iff (g : PlanGraph) :
    (∀ ch ∈ g.charts, ∀ keys, chartCells g g.chartAnchors ch.key = some keys →
      ((keys : Set ℤ) = cellKey '' {c | g.Owns ch.key c} ↔
        ∀ c, g.Owns ch.key c → g.Reads ch.anchor ch.anchor c)) ∧
    ∀ a ∈ g.charts, ∀ b ∈ g.charts, ∀ keys, edgeCells g g.chartAnchors a.key b.key = some keys →
      ((∀ c d, Neighbours c d → g.Owns a.key c → g.Owns b.key d → cellKey c ∈ keys ∨ cellKey d ∈ keys) ↔
        ∀ c d, Neighbours c d → g.Owns a.key c → g.Owns b.key d →
          g.Sealed a.anchor b.anchor b.key c ∨ g.Sealed a.anchor b.anchor a.key d) :=
  ⟨fun _ hch _ h => chartCells_iff hch h, fun _ ha _ hb _ h => edgeCells_iff ha hb h⟩

/-- A chart as `subdivide` cuts it: every cell is within the radius of the net point, over cells of
the chart; the anchor is the centre of a cell of it. -/
structure Built (g : PlanGraph) (ch : Chart) (net mid : ℤ × ℤ) : Prop where
  owns_net : g.Owns ch.key net
  owns_mid : g.Owns ch.key mid
  centred : ch.anchor = centre g.lattice mid
  reach : ∀ c, g.Owns ch.key c → ∃ s d, Trail (g.Owns ch.key) net c s d ∧
    ((s : ℝ) + d * √2) * (g.lattice : ℝ) ≤ (g.chartRadius : ℝ)

/-- A corridor to the west of the net point (25, 32), and to its east a corridor with side arms. -/
def Comb (c : ℤ × ℤ) : Prop :=
  (c.2 = 32 ∧ 5 ≤ c.1 ∧ c.1 ≤ 43) ∨ ((24 ≤ c.1 ∧ c.1 ≤ 26) ∧ 31 ≤ c.2 ∧ c.2 ≤ 33) ∨
    ((31 ≤ c.1 ∧ c.1 ≤ 43) ∧ c.1 % 2 = 1 ∧ c.1 - 13 ≤ c.2 ∧ c.2 ≤ 77 - c.1)

instance : DecidablePred Comb := fun _ => inferInstanceAs (Decidable (_ ∨ _))

def combGraph : PlanGraph where
  chartRadius := 2
  lattice := 1 / 10
  charts := [⟨1, "comb", centre (1 / 10) (32, 32)⟩]
  tile t := some (if t = (0, 0) then some fun r c => if Comb (c, r) then 1 else 0 else none)
  lattice_pos := by norm_num
  ids_pos := by decide
  ids_nodup := by decide
  keys_nodup := by decide
  keyed := by
    intro t own ht x y hx hy hpos
    split_ifs at ht with h
    · subst h
      simp only [TILE_L, CELL_OFF] at *
      omega
    · cases Option.some.inj ht

theorem combGraph_owns : combGraph.Owns "comb" c ↔ Comb c := by
  have hid : combGraph.ownerId c = if Comb c then 1 else 0 := by
    simp only [PlanGraph.ownerId, combGraph, TILE_L]
    by_cases ht : (c.1 / 64, c.2 / 64) = ((0, 0) : ℤ × ℤ)
    · rw [if_pos ht]
      obtain ⟨h₁, h₂⟩ := Prod.ext_iff.mp ht
      dsimp only at h₁ h₂ ⊢
      rw [show c.1 % 64 = c.1 by omega, show c.2 % 64 = c.2 by omega]
    · rw [if_neg ht, if_neg]
      intro hc
      refine ht (Prod.ext ?_ ?_)
      · simp only [Comb] at hc ⊢
        omega
      · simp only [Comb] at hc ⊢
        omega
  constructor
  · rintro ⟨ch, hch, -, ho⟩
    obtain rfl := mem_singleton.mp hch
    rw [hid] at ho
    by_contra hc
    rw [if_neg hc] at ho
    cases ho
  · intro hc
    exact ⟨_, mem_singleton_self _, rfl, by rw [hid, if_pos hc]; rfl⟩

theorem combGraph_trail (hc : Comb c) :
    Trail Comb (25, 32) c ((c.1 - 25).natAbs + (c.2 - 32).natAbs) 0 := by
  have hx : Trail Comb (25, 32) (c.1, 32) (c.1 - 25).natAbs 0 := by
    have hnet : Trail Comb (25, 32) (25, 32) 0 0 := .here (by decide)
    rcases le_total 25 c.1 with hle | hle
    · have hline := hnet.line (e := (1, 0)) (by decide) (c.1 - 25).natAbs (fun i hi => by
        simp only [Comb] at hc ⊢
        omega)
      rw [zero_add] at hline
      convert hline using 1
      refine Prod.ext ?_ ?_
      · simp only
        omega
      · simp
    · have hline := hnet.line (e := (-1, 0)) (by decide) (c.1 - 25).natAbs (fun i hi => by
        simp only [Comb] at hc ⊢
        omega)
      rw [zero_add] at hline
      convert hline using 1
      refine Prod.ext ?_ ?_
      · simp only
        omega
      · simp
  rcases le_total 32 c.2 with hle | hle
  · have hline := hx.line (e := (0, 1)) (by decide) (c.2 - 32).natAbs (fun i hi => by
      simp only [Comb] at hc ⊢
      omega)
    convert hline using 1
    refine Prod.ext ?_ ?_
    · simp
    · simp only
      omega
  · have hline := hx.line (e := (0, -1)) (by decide) (c.2 - 32).natAbs (fun i hi => by
      simp only [Comb] at hc ⊢
      omega)
    convert hline using 1
    refine Prod.ext ?_ ?_
    · simp
    · simp only
      omega

theorem combGraph_built : Built combGraph ⟨1, "comb", centre (1 / 10) (32, 32)⟩ (25, 32) (32, 32) where
  owns_net := combGraph_owns.mpr (by decide)
  owns_mid := combGraph_owns.mpr (by decide)
  centred := rfl
  reach := by
    intro c hc
    have hcomb := combGraph_owns.mp hc
    have howns : combGraph.Owns "comb" = Comb := funext fun c => propext combGraph_owns
    refine ⟨_, 0, howns ▸ combGraph_trail hcomb, ?_⟩
    have hle : (c.1 - 25).natAbs + (c.2 - 32).natAbs ≤ 20 := by
      simp only [Comb] at hcomb
      omega
    have hreal : (((c.1 - 25).natAbs + (c.2 - 32).natAbs : ℕ) : ℝ) ≤ 20 := by exact_mod_cast hle
    have hsize : ((combGraph.lattice : ℚ) : ℝ) = 1 / 10 ∧ ((combGraph.chartRadius : ℚ) : ℝ) = 2 := by
      norm_num [combGraph]
    rw [hsize.1, hsize.2, Nat.cast_zero, zero_mul, add_zero]
    linarith

theorem chartCells_isSome (ht : ∀ t, (g.tile t).isSome) (hch : ch ∈ g.charts) :
    (chartCells g g.chartAnchors ch.key).isSome := by
  have hmask : (chartMask g g.chartAnchors [ch.key]).isSome := by
    unfold chartMask
    rw [show [ch.key].mapM g.chartAnchors.get = some [ch.anchor] by simp [chartAnchors_get hch]]
    obtain ⟨w, hw⟩ := Option.isSome_iff_exists.mp (ownerWindow_isSome ht (min ch.anchor.1 ch.anchor.1 - pad g)
      (min ch.anchor.2 ch.anchor.2 - pad g) (max ch.anchor.1 ch.anchor.1 + pad g) (max ch.anchor.2 ch.anchor.2 + pad g))
    simp only [Option.bind_eq_bind, Option.bind_some, boxAround_one, boxAround_two, hw]
    rfl
  obtain ⟨m, hm⟩ := Option.isSome_iff_exists.mp hmask
  unfold chartCells
  rw [hm]
  rfl

/-- The western end of the comb lies further from the anchor than the window that is read. -/
theorem comb_not_sealed : Built combGraph ⟨1, "comb", centre (1 / 10) (32, 32)⟩ (25, 32) (32, 32) ∧
    ∃ keys, chartCells combGraph combGraph.chartAnchors "comb" = some keys ∧
      (keys : Set ℤ) ≠ cellKey '' {c | combGraph.Owns "comb" c} := by
  have hch : ⟨1, "comb", centre (1 / 10) (32, 32)⟩ ∈ combGraph.charts := mem_singleton_self _
  obtain ⟨keys, hk⟩ := Option.isSome_iff_exists.mp (chartCells_isSome (fun t => rfl) hch)
  refine ⟨combGraph_built, keys, hk, fun heq => ?_⟩
  have hreads := (chartCells_iff hch hk).mp heq (5, 32) (combGraph_owns.mpr (by decide))
  have hlow := hreads.1.1
  simp only [combGraph, pad, centre, min_self] at hlow
  norm_num at hlow

end CloudServer.KeepoutCharts
