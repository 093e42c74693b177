import CloudServer.Register
import CloudServer.SceneFold

/-! Fold is a join: whatever the order, batching and repetition of a delivery, the
exported planes are the order-free maximum over the set of delivered leaves. -/
namespace CloudServer.SceneJoin
open SceneLeaf SceneFold Register

def reported (l : Leaf) (y x : ℤ) : U8 :=
  (foldLeaf l).wl.read (y - (foldLeaf l).gy) (x - (foldLeaf l).gx)

def reportOf (stamp : ℤ) (s : U8) : WithBot (ℤ ×ₗ U8) :=
  if known s then ↑(toLex (stamp, s)) else ⊥

def timeIf (p : Bool) (stamp : ℤ) : WithBot ℤ := if p then ↑stamp else ⊥

def latest (l : Leaf) (y x : ℤ) : WithBot (ℤ ×ₗ U8) := reportOf l.stamp_ms (reported l y x)

def blockedTime (l : Leaf) (y x : ℤ) : WithBot ℤ := timeIf (lethal (reported l y x)) l.stamp_ms

/-- The pose of the leaf is within `rng` of the cell centre. -/
def within (rng : ℚ) (l : Leaf) (y x : ℤ) : Bool := nearPose (l.x, l.y, rng) y x

def closeFree (rng : ℚ) (l : Leaf) (y x : ℤ) : WithBot ℤ :=
  timeIf (free (reported l y x) && within rng l y x) l.stamp_ms

def closeLethal (rng : ℚ) (l : Leaf) (y x : ℤ) : WithBot ℤ :=
  timeIf (lethal (reported l y x) && within rng l y x) l.stamp_ms

def chanValue (l : Leaf) (name : String) (y x : ℤ) : U8 :=
  ((Dict.find (foldLeaf l).chans name).map fun w =>
    w.read (y - (foldLeaf l).gy) (x - (foldLeaf l).gx)).getD UNKNOWN

def latestChan (name : String) (l : Leaf) (y x : ℤ) : WithBot (ℤ ×ₗ U8) :=
  reportOf l.stamp_ms (chanValue l name y x)

def stampKey (l : Leaf) : ℤ ×ₗ String := toLex (l.stamp_ms, l.key)

def chanPair (st : EngineState) (name : String) : Cells U8 × Cells ℤ :=
  (st.chan.get name).getD (fun _ _ => UNKNOWN, fun _ _ => -1)

/-- The order-free reference: every exported plane, at every global costmap cell, is the
maximum over the set `S`; leaf records and watermark are those of `S`. -/
structure IsJoin (prm : SceneParams) (S : Finset Leaf) (st : EngineState) : Prop where
  latest : ∀ y x, (st.global (-1) st.T y x, st.global UNKNOWN st.V y x) =
    showPair UNKNOWN (S.sup fun l => latest l y x)
  blocked : ∀ y x, st.global (-1) st.B y x = showTime (S.sup fun l => blockedTime l y x)
  near : ∀ rng, prm.near_range_m = some rng → ∃ Fn Bn, st.Fn = some Fn ∧ st.Bn = some Bn ∧
    ∀ y x, st.global (-1) Fn y x = showTime (S.sup fun l => closeFree rng l y x) ∧
      st.global (-1) Bn y x = showTime (S.sup fun l => closeLethal rng l y x)
  noNear : prm.near_range_m = none → st.Fn = none ∧ st.Bn = none
  channel : ∀ name y x, (st.global (-1) (chanPair st name).2 y x,
      st.global UNKNOWN (chanPair st name).1 y x) =
    showPair UNKNOWN (S.sup fun l => latestChan name l y x)
  channels : ∀ name, name ∈ st.chan.keys ↔
    ∃ l ∈ S, name ∈ (foldLeaf l).chans.map Prod.fst
  order : st.leaves.map (fun r => toLex (r.t, r.key)) = (S.image stampKey).sort (· ≤ ·)
  records : ∀ r ∈ st.leaves, ∃ l ∈ S, r = leafRecord l.key (leafRec l)
  watermark : IsGreatest (insert (toLex (-1, "")) (stampKey '' S)) st.watermark

def Fits (tep : Option ℤ) (t : ℤ) : Prop := tep.isSome → t ≤ T_MAX

def Shown (tep : Option ℤ) (T : ℤ) (V : U8) (r : WithBot (ℤ ×ₗ U8)) : Prop :=
  Holds (tep.getD 0) UNKNOWN T V r ∧ Fits tep T

def ShownTime (tep : Option ℤ) (T : ℤ) (r : WithBot ℤ) : Prop :=
  HoldsTime (tep.getD 0) T r ∧ Fits tep T

/-- `P` holds at the canvas cell of a global cell, and the register is empty off the canvas. -/
def OnCanvas (c : Canvas) {β : Type*} (y x : ℤ) (r : WithBot β) (P : ℤ → ℤ → Prop) : Prop :=
  if c.box.Has (y - c.cy0) (x - c.cx0) then P (y - c.cy0) (x - c.cx0) else r = ⊥

variable {T t : ℤ} {r : ℤ → ℤ → WithBot ℤ}

lemma castTime_eq {tep : Option ℤ} (h0 : -1 ≤ t) (h : Fits tep t) : castTime tep t = t := by
  unfold castTime
  split_ifs with hs
  · have := h hs
    unfold T_MAX at this
    unfold cast32
    omega
  · rfl

variable {V s : U8} {x y : ℤ} {pl : Planes} {near : Option ℚ} {S : Finset Leaf}

lemma wins_eq (hs : known s) :
    wins s t T V = true ↔ (T < 0 ∨ T < t ∨ (t = T ∧ V < s)) := by
  simp [wins, hs, or_assoc]

lemma Shown.write {tep : Option ℤ} {r : WithBot (ℤ ×ₗ U8)}
    (h : Shown tep T V r) (ht : 0 ≤ t) (hs : 0 ≤ t + tep.getD 0) (hf : Fits tep t) :
    Shown tep (if wins s t T V then castTime tep t else T) (if wins s t T V then s else V)
      (r ⊔ reportOf (t + tep.getD 0) s) := by
  rw [castTime_eq (by omega) hf]
  by_cases hk : known s = true
  · simp only [reportOf, hk, if_true, wins_eq hk]
    refine ⟨h.1.write ht hs, ?_⟩
    split_ifs
    · exact hf
    · exact h.2
  · have hw : wins s t T V = false := by simp [wins, hk]
    simpa [reportOf, hk, hw] using h

lemma ShownTime.write {tep : Option ℤ} {r : WithBot ℤ} (p : Bool)
    (h : ShownTime tep T r) (ht : 0 ≤ t) (hs : 0 ≤ t + tep.getD 0) (hf : Fits tep t) :
    ShownTime tep (if p then castTime tep (max T t) else T) (r ⊔ timeIf p (t + tep.getD 0)) := by
  cases p with
  | false => simpa [timeIf] using h
  | true =>
    have hm : Fits tep (max T t) := fun hs => max_le (h.2 hs) (hf hs)
    simp only [timeIf, if_true]
    rw [castTime_eq (by omega) hm]
    exact ⟨h.1.write ht hs, hm⟩

lemma clip_report {cv : Canvas} {ly lx : ℤ} (w : Window) (gx gy : ℤ) (p : U8 → Bool)
    (hp : p UNKNOWN = false) (hin : cv.box.Has ly lx) :
    (decide (Box.Has ⟨max 0 (gx - cv.cx0), max 0 (gy - cv.cy0),
        min cv.W (gx - cv.cx0 + w.cols), min cv.H (gy - cv.cy0 + w.rows)⟩ ly lx) &&
      p (w.read (ly - (gy - cv.cy0)) (lx - (gx - cv.cx0)))) =
    p (w.read (ly - (gy - cv.cy0)) (lx - (gx - cv.cx0))) := by
  by_cases hk : w.read (ly - (gy - cv.cy0)) (lx - (gx - cv.cx0)) = UNKNOWN
  · simp [hk, hp]
  · have hr := Window.read_inside hk
    simp only [Canvas.box, Box.Has] at hin
    have hc : Box.Has ⟨max 0 (gx - cv.cx0), max 0 (gy - cv.cy0),
        min cv.W (gx - cv.cx0 + w.cols), min cv.H (gy - cv.cy0 + w.rows)⟩ ly lx := by
      simp only [Box.Has]
      omega
    simp [hc]

lemma foldInto_cell {cv : Canvas} {ly lx : ℤ} (cast : ℤ → ℤ) (g : Layer) (w : Window)
    (gx gy t : ℤ) (pose : Option (ℚ × ℚ × ℚ)) (hin : cv.box.Has ly lx) :
    let s := w.read (ly + cv.cy0 - gy) (lx + cv.cx0 - gx)
    let near := pose.any fun p => nearPose p (ly + cv.cy0) (lx + cv.cx0)
    let out := (foldInto cv cast g w gx gy t pose).1
    out.T ly lx = (if wins s t (g.T ly lx) (g.V ly lx) then cast t else g.T ly lx) ∧
    out.V ly lx = (if wins s t (g.T ly lx) (g.V ly lx) then s else g.V ly lx) ∧
    (∀ B, g.B = some B → ∃ B', out.B = some B' ∧ B' ly lx = if lethal s then cast (max (B ly lx) t) else B ly lx) ∧
    (∀ F, g.Fn = some F → ∃ F', out.Fn = some F' ∧ F' ly lx = if free s && near then cast (max (F ly lx) t) else F ly lx) ∧
    (∀ F N, g.Fn = some F → g.Bn = some N → ∃ N', out.Bn = some N' ∧
      N' ly lx = if lethal s && near then cast (max (N ly lx) t) else N ly lx) := by
  have hy : ly + cv.cy0 - gy = ly - (gy - cv.cy0) := by ring
  have hx : lx + cv.cx0 - gx = lx - (gx - cv.cx0) := by ring
  simp only [hy, hx]
  have hwin := clip_report w gx gy
    (fun s => wins s t (g.T ly lx) (g.V ly lx)) (by simp [wins, known]) hin
  have hleth := clip_report w gx gy lethal (by simp [lethal, known]) hin
  have hfree := clip_report w gx gy free (by simp [free, known]) hin
  refine ⟨?_, ?_, fun B hB => ?_, fun F hF => ?_, fun F N hF hN => ?_⟩
  · simp only [foldInto, hwin]
  · simp only [foldInto, hwin]
  · refine ⟨_, by simp only [foldInto, hB, Option.map_some]; rfl, ?_⟩
    simp only [mergeTime, hleth]
  · refine ⟨_, by simp only [foldInto, hF, Option.map_some]; rfl, ?_⟩
    simp only [mergeTime, hfree]
  · refine ⟨_, by simp only [foldInto, hF, hN, Option.isSome_some, if_true, Option.map_some]; rfl, ?_⟩
    simp only [mergeTime, hleth]

def Inside (cv : Canvas) (w : Window) (gx gy : ℤ) : Prop :=
  (cv.cx0 ≤ gx ∧ gx + w.cols ≤ cv.cx0 + cv.W) ∧ (cv.cy0 ≤ gy ∧ gy + w.rows ≤ cv.cy0 + cv.H)

/-- The plane pair shows the register `r` at every global cell. -/
def PairPlane (c : Canvas) (tep : Option ℤ) (T : Cells ℤ) (V : Cells U8)
    (r : ℤ → ℤ → WithBot (ℤ ×ₗ U8)) : Prop :=
  ∀ y x, OnCanvas c y x (r y x) fun ly lx => Shown tep (T ly lx) (V ly lx) (r y x)

def TimePlane (c : Canvas) (tep : Option ℤ) (T : Cells ℤ) (r : ℤ → ℤ → WithBot ℤ) : Prop :=
  ∀ y x, OnCanvas c y x (r y x) fun ly lx => ShownTime tep (T ly lx) (r y x)

structure StampOk (tep : Option ℤ) (stamp : ℤ) : Prop where
  nonneg : 0 ≤ stamp
  offset : 0 ≤ stamp - tep.getD 0
  fits : Fits tep (stamp - tep.getD 0)

lemma OnCanvas.imp {c : Canvas} {β γ : Type*} {r : WithBot β} {r' : WithBot γ}
    {P Q : ℤ → ℤ → Prop} (h : OnCanvas c y x r P)
    (hin : c.box.Has (y - c.cy0) (x - c.cx0) → P (y - c.cy0) (x - c.cx0) → Q (y - c.cy0) (x - c.cx0))
    (hout : ¬c.box.Has (y - c.cy0) (x - c.cx0) → r = ⊥ → r' = ⊥) : OnCanvas c y x r' Q := by
  unfold OnCanvas at *
  split_ifs at * with hb
  · exact hin hb h
  · exact hout hb h

lemma read_off_canvas {cv : Canvas} {w : Window} {gx gy : ℤ} (hi : Inside cv w gx gy)
    (hout : ¬cv.box.Has (y - cv.cy0) (x - cv.cx0)) : w.read (y - gy) (x - gx) = UNKNOWN := by
  apply Window.read_outside
  simp only [Canvas.box, Box.Has] at hout
  unfold Inside at hi
  omega

section Fold
variable {cv : Canvas} {tep : Option ℤ} {g : Layer} {w : Window} {gx gy stamp : ℤ}
  (pose : Option (ℚ × ℚ × ℚ))

/-- The layer after one raster with capture time `stamp`. -/
def foldStep (cv : Canvas) (tep : Option ℤ) (g : Layer) (w : Window) (gx gy stamp : ℤ)
    (pose : Option (ℚ × ℚ × ℚ)) : Layer :=
  (foldInto cv (castTime tep) g w gx gy (stamp - tep.getD 0) pose).1

lemma PairPlane.fold {r : ℤ → ℤ → WithBot (ℤ ×ₗ U8)} (h : PairPlane cv tep g.T g.V r)
    (hi : Inside cv w gx gy) (hs : StampOk tep stamp) :
    PairPlane cv tep (foldStep cv tep g w gx gy stamp pose).T (foldStep cv tep g w gx gy stamp pose).V
      (fun y x => r y x ⊔ reportOf stamp (w.read (y - gy) (x - gx))) := by
  intro y x
  refine (h y x).imp (fun hin hP => ?_) (fun hout hr => ?_)
  · obtain ⟨hT, hV, -⟩ := foldInto_cell (castTime tep) g w gx gy (stamp - tep.getD 0) pose hin
    simp only [sub_add_cancel] at hT hV
    unfold foldStep
    rw [hT, hV]
    have hst : stamp - tep.getD 0 + tep.getD 0 = stamp := by ring
    have hw := hP.write (s := w.read (y - gy) (x - gx)) hs.offset (by rw [hst]; exact hs.nonneg)
      hs.fits
    rwa [hst] at hw
  · simp [hr, read_off_canvas hi hout, reportOf, known]

lemma TimePlane.merge {A A' : Cells ℤ} {p : ℤ → ℤ → U8 → Bool}
    (h : TimePlane cv tep A r) (hi : Inside cv w gx gy) (hs : StampOk tep stamp)
    (hp : ∀ y x, p y x UNKNOWN = false)
    (hA : ∀ y x, cv.box.Has (y - cv.cy0) (x - cv.cx0) → A' (y - cv.cy0) (x - cv.cx0) =
      if p y x (w.read (y - gy) (x - gx))
        then castTime tep (max (A (y - cv.cy0) (x - cv.cx0)) (stamp - tep.getD 0))
        else A (y - cv.cy0) (x - cv.cx0)) :
    TimePlane cv tep A' (fun y x => r y x ⊔ timeIf (p y x (w.read (y - gy) (x - gx))) stamp) := by
  intro y x
  refine (h y x).imp (fun hin hP => ?_) (fun hout hr => ?_)
  · rw [hA y x hin]
    have hst : stamp - tep.getD 0 + tep.getD 0 = stamp := by ring
    have hw := hP.write (p y x (w.read (y - gy) (x - gx))) hs.offset
      (by rw [hst]; exact hs.nonneg) hs.fits
    rwa [hst] at hw
  · simp [hr, read_off_canvas hi hout, timeIf, hp]

lemma TimePlane.foldB {B : Cells ℤ} (h : TimePlane cv tep B r)
    (hB : g.B = some B) (hi : Inside cv w gx gy) (hs : StampOk tep stamp) :
    ∃ B', (foldStep cv tep g w gx gy stamp pose).B = some B' ∧ TimePlane cv tep B'
      (fun y x => r y x ⊔ timeIf (lethal (w.read (y - gy) (x - gx))) stamp) := by
  refine ⟨_, by simp only [foldStep, foldInto, hB, Option.map_some]; rfl, ?_⟩
  refine h.merge (p := fun _ _ s => lethal s) hi hs (fun _ _ => by simp [lethal, known]) ?_
  intro y x hin
  obtain ⟨-, -, hc, -⟩ := foldInto_cell (castTime tep) g w gx gy (stamp - tep.getD 0) pose hin
  obtain ⟨B', hB', hv⟩ := hc B hB
  simp only [foldInto, hB, Option.map_some, Option.some.injEq] at hB'
  rw [hB', hv]
  simp only [sub_add_cancel]

lemma TimePlane.foldFn {F : Cells ℤ} (h : TimePlane cv tep F r)
    (hF : g.Fn = some F) (hi : Inside cv w gx gy) (hs : StampOk tep stamp) :
    ∃ F', (foldStep cv tep g w gx gy stamp pose).Fn = some F' ∧ TimePlane cv tep F'
      (fun y x => r y x ⊔ timeIf (free (w.read (y - gy) (x - gx)) && pose.any fun p => nearPose p y x) stamp) := by
  refine ⟨_, by simp only [foldStep, foldInto, hF, Option.map_some]; rfl, ?_⟩
  refine h.merge (p := fun y x s => free s && pose.any fun p => nearPose p y x) hi hs
    (fun _ _ => by simp [free, known]) ?_
  intro y x hin
  obtain ⟨-, -, -, hc, -⟩ := foldInto_cell (castTime tep) g w gx gy (stamp - tep.getD 0) pose hin
  obtain ⟨F', hF', hv⟩ := hc F hF
  simp only [foldInto, hF, Option.map_some, Option.some.injEq] at hF'
  rw [hF', hv]
  simp only [sub_add_cancel]

lemma TimePlane.foldBn {F N : Cells ℤ} (h : TimePlane cv tep N r)
    (hF : g.Fn = some F) (hN : g.Bn = some N) (hi : Inside cv w gx gy) (hs : StampOk tep stamp) :
    ∃ N', (foldStep cv tep g w gx gy stamp pose).Bn = some N' ∧ TimePlane cv tep N'
      (fun y x => r y x ⊔ timeIf (lethal (w.read (y - gy) (x - gx)) && pose.any fun p => nearPose p y x) stamp) := by
  refine ⟨_, by
    simp only [foldStep, foldInto, hF, hN, Option.isSome_some, if_true, Option.map_some]; rfl, ?_⟩
  refine h.merge (p := fun y x s => lethal s && pose.any fun p => nearPose p y x) hi hs
    (fun _ _ => by simp [lethal, known]) ?_
  intro y x hin
  obtain ⟨-, -, -, -, hc⟩ := foldInto_cell (castTime tep) g w gx gy (stamp - tep.getD 0) pose hin
  obtain ⟨N', hN', hv⟩ := hc F N hF hN
  simp only [foldInto, hF, hN, Option.isSome_some, if_true, Option.map_some, Option.some.injEq] at hN'
  rw [hN', hv]
  simp only [sub_add_cancel]

end Fold

structure Lays (p : Plan) (c : Canvas) (tep : Option ℤ) : Prop where
  h : p.h = c.H
  w : p.w = c.W
  oy : p.oy = c.cy0 - p.canvas.cy0
  ox : p.ox = c.cx0 - p.canvas.cx0
  left : 0 ≤ p.ox
  top : 0 ≤ p.oy
  right : p.ox + c.W ≤ p.canvas.W
  bottom : p.oy + c.H ≤ p.canvas.H
  epoch : p.tep = tep ∨ p.tep = none

lemma Shown.widen {tep : Option ℤ} {r : WithBot (ℤ ×ₗ U8)}
    (h : Shown tep T V r) : Holds 0 UNKNOWN (widen tep T) V r := by
  cases tep with
  | none => simpa [SceneFold.widen] using h.1
  | some ep => simpa [SceneFold.widen, widenTime] using h.1.rebase

lemma ShownTime.widen {tep : Option ℤ} {r : WithBot ℤ}
    (h : ShownTime tep T r) : HoldsTime 0 (widen tep T) r := by
  cases tep with
  | none => simpa [SceneFold.widen] using h.1
  | some ep => simpa [SceneFold.widen, widenTime] using h.1.rebase

section Grow
variable {p : Plan} {c : Canvas} {tep : Option ℤ}

lemma Lays.cell (h : Lays p c tep) :
    ((p.oy ≤ y - p.canvas.cy0 ∧ y - p.canvas.cy0 < p.oy + p.h) ∧ (p.ox ≤ x - p.canvas.cx0 ∧ x - p.canvas.cx0 < p.ox + p.w)) ↔
    c.box.Has (y - c.cy0) (x - c.cx0) := by
  have := h.h; have := h.w; have := h.oy; have := h.ox
  simp only [Canvas.box, Box.Has]
  omega

lemma Lays.inside (h : Lays p c tep) (hin : c.box.Has (y - c.cy0) (x - c.cx0)) :
    p.canvas.box.Has (y - p.canvas.cy0) (x - p.canvas.cx0) := by
  have := h.oy; have := h.ox; have := h.left; have := h.top; have := h.right; have := h.bottom
  simp only [Canvas.box, Box.Has] at *
  omega

lemma growCells_cell {α : Type*} (h : Lays p c tep) (fill : α) (a : Cells α) (y x : ℤ) :
    growCells p fill a (y - p.canvas.cy0) (x - p.canvas.cx0) =
      if c.box.Has (y - c.cy0) (x - c.cx0) then a (y - c.cy0) (x - c.cx0) else fill := by
  unfold growCells
  simp only [h.cell]
  have hy : y - p.canvas.cy0 - p.oy = y - c.cy0 := by rw [h.oy]; ring
  have hx : x - p.canvas.cx0 - p.ox = x - c.cx0 := by rw [h.ox]; ring
  rw [hy, hx]

/-- The time a grown plane holds where the old one held `T`. -/
def regrow (p : Plan) (tep : Option ℤ) (T : ℤ) : ℤ := if p.tep = tep then T else widen tep T

lemma growTime_cell (h : Lays p c tep) (a : Cells ℤ) (y x : ℤ) :
    growTime p tep a (y - p.canvas.cy0) (x - p.canvas.cx0) =
      if c.box.Has (y - c.cy0) (x - c.cx0) then regrow p tep (a (y - c.cy0) (x - c.cx0))
      else -1 := by
  unfold growTime regrow
  rw [growCells_cell h]
  split_ifs <;> rfl

lemma Shown.regrow (h : Lays p c tep) {r : WithBot (ℤ ×ₗ U8)}
    (hs : Shown tep T V r) : Shown p.tep (regrow p tep T) V r := by
  unfold SceneJoin.regrow
  split_ifs with he
  · rwa [he]
  · have hn := h.epoch.resolve_left he
    exact ⟨by simpa [hn] using hs.widen, by simp [Fits, hn]⟩

lemma ShownTime.regrow (h : Lays p c tep) {r : WithBot ℤ}
    (hs : ShownTime tep T r) : ShownTime p.tep (regrow p tep T) r := by
  unfold SceneJoin.regrow
  split_ifs with he
  · rwa [he]
  · have hn := h.epoch.resolve_left he
    exact ⟨by simpa [hn] using hs.widen, by simp [Fits, hn]⟩

lemma shown_empty (tep : Option ℤ) : Shown tep (-1) UNKNOWN ⊥ :=
  ⟨holds_empty _ _, fun _ => by norm_num [T_MAX]⟩

lemma shownTime_empty (tep : Option ℤ) : ShownTime tep (-1) ⊥ :=
  ⟨holdsTime_empty _, fun _ => by norm_num [T_MAX]⟩

lemma PairPlane.grow {T : Cells ℤ} {V : Cells U8} {r : ℤ → ℤ → WithBot (ℤ ×ₗ U8)}
    (hp : PairPlane c tep T V r) (h : Lays p c tep) :
    PairPlane p.canvas p.tep (growTime p tep T) (growCells p UNKNOWN V) r := by
  intro y x
  have hc := hp y x
  unfold OnCanvas at hc ⊢
  beta_reduce at hc ⊢
  rw [growTime_cell h, growCells_cell h]
  by_cases hin : c.box.Has (y - c.cy0) (x - c.cx0)
  · rw [if_pos hin] at hc
    rw [if_pos (h.inside hin), if_pos hin, if_pos hin]
    exact hc.regrow h
  · rw [if_neg hin] at hc
    rw [if_neg hin, if_neg hin, hc]
    split_ifs
    · exact shown_empty _
    · rfl

lemma TimePlane.grow {T : Cells ℤ} (hp : TimePlane c tep T r) (h : Lays p c tep) :
    TimePlane p.canvas p.tep (growTime p tep T) r := by
  intro y x
  have hc := hp y x
  unfold OnCanvas at hc ⊢
  beta_reduce at hc ⊢
  rw [growTime_cell h]
  by_cases hin : c.box.Has (y - c.cy0) (x - c.cx0)
  · rw [if_pos hin] at hc
    rw [if_pos (h.inside hin), if_pos hin]
    exact hc.regrow h
  · rw [if_neg hin] at hc
    rw [if_neg hin, hc]
    split_ifs
    · exact shownTime_empty _
    · rfl

end Grow

lemma pairPlane_empty (c : Canvas) (tep : Option ℤ) :
    PairPlane c tep (fun _ _ => -1) (fun _ _ => UNKNOWN) fun _ _ => ⊥ := by
  intro y x
  unfold OnCanvas
  split_ifs
  · exact shown_empty _
  · rfl

lemma timePlane_empty (c : Canvas) (tep : Option ℤ) :
    TimePlane c tep (fun _ _ => -1) fun _ _ => ⊥ := by
  intro y x
  unfold OnCanvas
  split_ifs
  · exact shownTime_empty _
  · rfl

/-- Every plane of the canvas shows the maximum over `S`. -/
structure JoinedPlanes (range : Option ℚ) (S : Finset Leaf) (pl : Planes) : Prop where
  latest : PairPlane pl.canvas pl.tep pl.Tr pl.V fun y x => S.sup fun l => latest l y x
  blocked : TimePlane pl.canvas pl.tep pl.Br fun y x => S.sup fun l => blockedTime l y x
  near : ∀ rng, range = some rng → ∃ F N, pl.Fnr = some F ∧ pl.Bnr = some N ∧
    (TimePlane pl.canvas pl.tep F fun y x => S.sup fun l => closeFree rng l y x) ∧
    TimePlane pl.canvas pl.tep N fun y x => S.sup fun l => closeLethal rng l y x
  noNear : range = none → pl.Fnr = none ∧ pl.Bnr = none
  channel : ∀ name, PairPlane pl.canvas pl.tep (chanOf pl name).2 (chanOf pl name).1
    fun y x => S.sup fun l => latestChan name l y x
  channels : ∀ name, name ∈ pl.chan.keys ↔
    ∃ l ∈ S, name ∈ (foldLeaf l).chans.map Prod.fst

lemma joinedPlanes_fresh (near : Option ℚ) (p : Plan) :
    JoinedPlanes near ∅ (growCanvas near.isSome none p) where
  latest := by simpa [growCanvas] using pairPlane_empty _ _
  blocked := by simpa [growCanvas] using timePlane_empty _ _
  near := by
    rintro rng rfl
    exact ⟨_, _, rfl, rfl, by simpa [growCanvas] using timePlane_empty _ _, by simpa [growCanvas] using timePlane_empty _ _⟩
  noNear := by
    rintro rfl
    exact ⟨rfl, rfl⟩
  channel := by
    intro name
    simpa [growCanvas, chanOf] using pairPlane_empty _ _
  channels := by simp [growCanvas]

lemma JoinedPlanes.grow {p : Plan}
    (hj : JoinedPlanes near S pl) (h : Lays p pl.canvas pl.tep) (nr : Bool) :
    JoinedPlanes near S (growCanvas nr (some pl) p) where
  latest := hj.latest.grow h
  blocked := hj.blocked.grow h
  near := by
    intro rng hr
    obtain ⟨F, N, hF, hN, h1, h2⟩ := hj.near rng hr
    exact ⟨_, _, by simp only [growCanvas, hF]; rfl, by simp only [growCanvas, hN]; rfl, h1.grow h, h2.grow h⟩
  noNear := by
    intro hn
    obtain ⟨h1, h2⟩ := hj.noNear hn
    simp [growCanvas, h1, h2]
  channel := by
    intro name
    have hc := hj.channel name
    unfold chanOf at hc ⊢
    simp only [growCanvas]
    rw [Dict.get_map]
    cases hl : pl.chan.get name with
    | some v =>
      rw [hl] at hc
      exact hc.grow h
    | none =>
      rw [hl] at hc
      have hg := hc.grow h
      have h1 : growCells p UNKNOWN (fun _ _ => UNKNOWN) = fun _ _ => UNKNOWN := by
        funext y x
        simp [growCells]
      have h2 : growTime p pl.tep (fun _ _ => -1) = fun _ _ => -1 := by
        funext y x
        cases htep : pl.tep <;> simp [growTime, growCells, SceneFold.widen, widenTime]
      simpa [h1, h2] using hg
  channels := by
    intro name
    rw [← hj.channels name]
    simp [growCanvas]

def chansRead (cs : List (String × Window)) (name : String) (gy gx y x : ℤ) : U8 :=
  ((Dict.find cs name).map fun w => w.read (y - gy) (x - gx)).getD UNKNOWN

structure SameBase (a b : Planes) : Prop where
  canvas : a.canvas = b.canvas
  tep : a.tep = b.tep
  V : a.V = b.V
  Tr : a.Tr = b.Tr
  Br : a.Br = b.Br
  Fnr : a.Fnr = b.Fnr
  Bnr : a.Bnr = b.Bnr

lemma foldChan_chan {p : Prepared} {c : String × Window} (name : String) :
    chanOf (foldChan p pl c).1 name =
      if name = c.1 then
        let g : Layer := ⟨(chanOf pl c.1).1, (chanOf pl c.1).2, none, none, none⟩
        let out := foldStep pl.canvas pl.tep g c.2 p.gx p.gy p.lf.stamp_ms none
        (out.V, out.T)
      else chanOf pl name := by
  simp only [foldChan, chanOf, Dict.get_set, foldStep, Planes.stamp]
  split_ifs <;> rfl

@[simp]
lemma foldChan_canvas (p : Prepared) (pl : Planes) (c : String × Window) : (foldChan p pl c).1.canvas = pl.canvas := rfl

@[simp]
lemma foldChan_tep (p : Prepared) (pl : Planes) (c : String × Window) : (foldChan p pl c).1.tep = pl.tep := rfl

lemma foldChans {p : Prepared} {cs : List (String × Window)}
    (hnd : (cs.map Prod.fst).Nodup) (pl : Planes) {r : String → ℤ → ℤ → WithBot (ℤ ×ₗ U8)}
    (hs : StampOk pl.tep p.lf.stamp_ms) (hi : ∀ c ∈ cs, Inside pl.canvas c.2 p.gx p.gy)
    (hp : ∀ name, PairPlane pl.canvas pl.tep (chanOf pl name).2 (chanOf pl name).1 (r name)) :
    let out := cs.foldl (fun pl c => (foldChan p pl c).1) pl
    SameBase out pl ∧
    (∀ name, PairPlane pl.canvas pl.tep (chanOf out name).2 (chanOf out name).1
      fun y x => r name y x ⊔ reportOf p.lf.stamp_ms (chansRead cs name p.gy p.gx y x)) ∧
    ∀ name, name ∈ out.chan.keys ↔
      name ∈ pl.chan.keys ∨ name ∈ cs.map Prod.fst := by
  induction cs generalizing pl r with
  | nil =>
    refine ⟨⟨rfl, rfl, rfl, rfl, rfl, rfl, rfl⟩, fun name => ?_, by simp⟩
    simpa [chansRead, reportOf, known] using hp name
  | cons c cs ih =>
    obtain ⟨hn, hnd⟩ := List.nodup_cons.mp hnd
    have hstep : ∀ name, PairPlane pl.canvas pl.tep (chanOf (foldChan p pl c).1 name).2
        (chanOf (foldChan p pl c).1 name).1
        (if name = c.1 then fun y x => r name y x ⊔ reportOf p.lf.stamp_ms (c.2.read (y - p.gy) (x - p.gx)) else r name) := by
      intro name
      rw [foldChan_chan]
      split_ifs with hname
      · subst hname
        exact PairPlane.fold (g := ⟨(chanOf pl c.1).1, (chanOf pl c.1).2, none, none, none⟩)
          none (hp c.1) (hi c (by simp)) hs
      · exact hp name
    obtain ⟨hb, hpp, hnames⟩ := ih hnd (foldChan p pl c).1 hs
      (fun d hd => hi d (List.mem_cons_of_mem _ hd)) hstep
    refine ⟨{ hb with }, fun name => ?_, fun name => ?_⟩
    · have h := hpp name
      simp only [foldChan_canvas, foldChan_tep] at h
      obtain ⟨k, w⟩ := c
      by_cases hname : name = k
      · subst hname
        have hl : Dict.find cs name = none := Dict.find_eq_none.mpr hn
        simpa [chansRead, Dict.find_cons, hl, reportOf, known] using h
      · simpa [chansRead, Dict.find_cons, hname] using h
    · rw [List.foldl_cons, hnames name]
      simp only [foldChan, Dict.mem_keys_set, List.map_cons, List.mem_cons]
      tauto

lemma foldPlanes_fst {p : Prepared} : (foldPlanes near pl p).1 =
      let g := foldStep pl.canvas pl.tep (layerOf pl) p.wl p.gx p.gy p.lf.stamp_ms
        (near.map fun rng => (p.lf.x, p.lf.y, rng))
      p.chans.foldl (fun pl c => (foldChan p pl c).1)
        { pl with V := g.V, Tr := g.T, Br := g.B.getD pl.Br, Fnr := g.Fn, Bnr := g.Bn } := by
  unfold foldPlanes
  dsimp only
  exact (List.foldl_hom Prod.fst (fun _ _ => rfl)).symm

lemma JoinedPlanes.fold {p : Prepared}
    (hj : JoinedPlanes near S pl) (hv : p.Valid) (hi : Inside pl.canvas p.wl p.gx p.gy)
    (hs : StampOk pl.tep p.lf.stamp_ms) :
    JoinedPlanes near (insert p.lf S) (foldPlanes near pl p).1 ∧
      (foldPlanes near pl p).1.canvas = pl.canvas ∧ (foldPlanes near pl p).1.tep = pl.tep := by
  have hread : ∀ y x, p.wl.read (y - p.gy) (x - p.gx) = reported p.lf y x := by
    intro y x
    unfold reported
    rw [← hv.raster]
  have hchan : ∀ name y x, chansRead p.chans name p.gy p.gx y x = chanValue p.lf name y x := by
    intro name y x
    unfold chanValue chansRead
    rw [← hv.raster]
  have hci : ∀ c ∈ p.chans, Inside pl.canvas c.2 p.gx p.gy := by
    intro c hc
    obtain ⟨hr, hcol⟩ := Prod.mk.inj (hv.shape c hc)
    unfold Inside at hi ⊢
    rwa [hr, hcol]
  have hnd : (p.chans.map Prod.fst).Nodup := by
    rw [hv.raster]
    exact foldLeaf_chans_nodup p.lf
  rw [foldPlanes_fst]
  dsimp only
  set pose := near.map fun rng => (p.lf.x, p.lf.y, rng) with hpose
  set g := foldStep pl.canvas pl.tep (layerOf pl) p.wl p.gx p.gy p.lf.stamp_ms pose with hg
  obtain ⟨hb, hpp, hnames⟩ := foldChans (p := p) hnd { pl with
      V := g.V, Tr := g.T, Br := g.B.getD pl.Br, Fnr := g.Fn, Bnr := g.Bn }
    (r := fun name y x => S.sup fun l => latestChan name l y x) hs hci hj.channel
  dsimp only at hpp hnames
  refine ⟨⟨?_, ?_, ?_, ?_, ?_, ?_⟩, hb.canvas, hb.tep⟩
  · have h := PairPlane.fold (g := layerOf pl) pose hj.latest hi hs
    rw [hb.canvas, hb.tep, hb.V, hb.Tr]
    simpa only [Finset.sup_insert, SceneJoin.latest, hread, sup_comm] using h
  · obtain ⟨B', hB', h⟩ := TimePlane.foldB (g := layerOf pl) pose hj.blocked rfl hi hs
    rw [hb.canvas, hb.tep, hb.Br, hg, hB']
    simpa only [Finset.sup_insert, blockedTime, hread, sup_comm, Option.getD_some] using h
  · rintro rng rfl
    obtain ⟨F, N, hF, hN, h1, h2⟩ := hj.near rng rfl
    obtain ⟨F', hF', h1'⟩ := TimePlane.foldFn (g := layerOf pl) pose h1 hF hi hs
    obtain ⟨N', hN', h2'⟩ := TimePlane.foldBn (g := layerOf pl) pose h2 hF hN hi hs
    refine ⟨F', N', by rw [hb.Fnr]; exact hF', by rw [hb.Bnr]; exact hN', ?_, ?_⟩
    · rw [hb.canvas, hb.tep]
      simpa [hpose, closeFree, within, hread, sup_comm] using h1'
    · rw [hb.canvas, hb.tep]
      simpa [hpose, closeLethal, within, hread, sup_comm] using h2'
  · rintro rfl
    obtain ⟨hF, hN⟩ := hj.noNear rfl
    rw [hb.Fnr, hb.Bnr]
    simp [hg, foldStep, foldInto, layerOf, hF, hN]
  · intro name
    have h := hpp name
    rw [hb.canvas, hb.tep]
    simpa only [Finset.sup_insert, latestChan, hchan, sup_comm] using h
  · intro name
    rw [hnames name, hj.channels name]
    simp only [Finset.exists_mem_insert]
    rw [← hv.raster, or_comm]

end CloudServer.SceneJoin
