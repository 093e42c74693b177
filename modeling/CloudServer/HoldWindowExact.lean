import CloudServer.HoldWindowRule

/-! After a change inside a box the window around it holds every patch that can change. -/
namespace CloudServer.HoldWindow
open Planes

namespace State

section
variable {s s' : State} {box w : Box}

lemma not_crossed (h : s.crossed w = false) {a b : Cell} (hb : s.held.Marked b) (hbw : w.Has b.1 b.2)
    (ha : s.held.box.Has a.1 a.2) (hn : Near a b) : w.Has a.1 a.2 := by
  obtain ⟨y, x, rfl, hy, hx, hm⟩ := hb.exists
  unfold crossed at h
  simp only [Bool.or_eq_false_iff, Bool.and_eq_false_iff, decide_eq_false_iff_not] at h
  obtain ⟨⟨⟨htop, hbottom⟩, hleft⟩, hright⟩ := h
  have hno : ∀ {c : Box}, anyIn s.held c = false → ¬ c.Has y x := by
    intro c hc hcy
    rw [anyIn_iff.mpr ⟨y, x, hcy, hm⟩] at hc
    cases hc
  have htop' : ¬ 0 < w.y0 ∨ ¬ (⟨w.y0, w.y0 + 1, w.x0, w.x1⟩ : Box).Has y x := htop.imp_right hno
  have hbottom' : ¬ w.y1 < s.H ∨ ¬ (⟨w.y1 - 1, w.y1, w.x0, w.x1⟩ : Box).Has y x := hbottom.imp_right hno
  have hleft' : ¬ 0 < w.x0 ∨ ¬ (⟨w.y0, w.y1, w.x0, w.x0 + 1⟩ : Box).Has y x := hleft.imp_right hno
  have hright' : ¬ w.x1 < s.W ∨ ¬ (⟨w.y0, w.y1, w.x1 - 1, w.x1⟩ : Box).Has y x := hright.imp_right hno
  simp only [Near, abs_le] at hn
  simp only [Box.Has, Plane.box, held] at *
  omega

lemma window_spec {fuel m : ℕ} (h : s.window box fuel m = some w) :
    (∃ m', m ≤ m' ∧ w = box.grow m' s.H s.W) ∧ s.crossed w = false := by
  induction fuel generalizing m with
  | zero => cases h
  | succ fuel ih =>
    unfold window at h
    dsimp only at h
    split_ifs at h with hc
    · obtain ⟨⟨m', hle, hw⟩, hcross⟩ := ih h
      exact ⟨⟨m', by omega, hw⟩, hcross⟩
    · cases h
      exact ⟨⟨m, le_rfl, rfl⟩, Bool.eq_false_iff.mpr hc⟩

lemma lt_of_crossed {m : ℕ} (hy : box.y1 ≤ s.H) (hx : box.x1 ≤ s.W) (hy' : box.y0 < s.H) (hx' : box.x0 < s.W)
    (h : s.crossed (box.grow m s.H s.W) = true) : m + 1 < s.H + s.W := by
  unfold crossed at h
  simp only [Bool.or_eq_true, Bool.and_eq_true, decide_eq_true_eq] at h
  simp only [Box.grow] at h
  omega

lemma window_some (hy : box.y1 ≤ s.H) (hx : box.x1 ≤ s.W) (hy' : box.y0 < s.H) (hx' : box.x0 < s.W)
    {fuel m : ℕ} (hm : 0 < m) (hfuel : s.H + s.W ≤ m + fuel) (hpos : 0 < fuel) :
    ∃ w, s.window box fuel m = some w := by
  induction fuel generalizing m with
  | zero => omega
  | succ fuel ih =>
    unfold window
    dsimp only
    split_ifs with hc
    · have hlt := lt_of_crossed hy hx hy' hx' hc
      exact ih (by omega) (by omega) (by omega)
    · exact ⟨_, rfl⟩

lemma window_succ {fuel m : ℕ} (h : s.window box fuel m = some w) :
    s.window box (fuel + 1) m = some w := by
  induction fuel generalizing m with
  | zero => cases h
  | succ fuel ih =>
    unfold window at h ⊢
    dsimp only at h ⊢
    split_ifs at h ⊢ with hc
    · exact ih h
    · exact h

lemma window_mono {fuel fuel' m : ℕ} (hle : fuel ≤ fuel') (h : s.window box fuel m = some w) :
    s.window box fuel' m = some w := by
  induction fuel', hle using Nat.le_induction with
  | base => exact h
  | succ fuel' _ ih => exact window_succ ih

/-- The states differ in the box only. -/
structure SameOutside (s s' : State) (box : Box) : Prop where
  height : s'.H = s.H
  width : s'.W = s.W
  cells : ∀ y < s.H, ∀ x < s.W, ¬ box.Has y x →
    s'.V y x = s.V y x ∧ s'.Bn y x = s.Bn y x ∧ s'.Fn y x = s.Fn y x

lemma SameOutside.held (h : SameOutside s s' box) {a : Cell} (ha : ¬ box.Has a.1 a.2) :
    s.held.Marked a ↔ s'.held.Marked a := by
  by_cases hc : s.held.box.Has a.1 a.2
  · obtain ⟨y, x, hay, hax, hy, hx⟩ := Plane.exists_nat hc
    have heq : a = (↑y, ↑x) := Prod.ext hay hax
    subst heq
    obtain ⟨hV, hB, hF⟩ := h.cells y hy x hx ha
    rw [Plane.marked_nat hy hx, Plane.marked_nat (p := s'.held) (hy.trans_eq h.height.symm) (hx.trans_eq h.width.symm)]
    simp only [State.held, hV, hB, hF]
  · refine iff_of_false (fun hm => hc hm.has) fun hm => hc ?_
    have hbox := hm.has
    simp only [State.held, Plane.box, h.height, h.width] at hbox
    exact hbox

lemma SameOutside.blocked (h : SameOutside s s' box) {a : Cell} (ha : ¬ box.Has a.1 a.2) :
    s.blocked.Marked a ↔ s'.blocked.Marked a := by
  by_cases hc : s.blocked.box.Has a.1 a.2
  · obtain ⟨y, x, hay, hax, hy, hx⟩ := Plane.exists_nat hc
    have heq : a = (↑y, ↑x) := Prod.ext hay hax
    subst heq
    obtain ⟨hV, -⟩ := h.cells y hy x hx ha
    rw [Plane.marked_nat hy hx, Plane.marked_nat (p := s'.blocked) (hy.trans_eq h.height.symm) (hx.trans_eq h.width.symm)]
    simp only [State.blocked, hV]
  · refine iff_of_false (fun hm => hc hm.has) fun hm => hc ?_
    have hbox := hm.has
    simp only [State.blocked, Plane.box, h.height, h.width] at hbox
    exact hbox

end

section
variable {𝕜 : Type} [Field 𝕜] [LinearOrder 𝕜] [IsStrictOrderedRing 𝕜] [FloorSemiring 𝕜]
  {c : Clearance 𝕜} {label edt : Plane Bool → ℕ → ℕ → ℕ} {s s' : State} {box w : Box} {m : ℕ}

structure Filtered (c : Clearance 𝕜) (s : State) (hold : Plane Bool) : Prop where
  height : hold.H = s.H
  width : hold.W = s.W
  cells : ∀ a, hold.Marked a ↔ Away c.Far s.held.Marked s.blocked.Marked a

lemma hold_filtered (hl : Labels label) (he : Exact edt) : Filtered c s (s.hold c label edt) := by
  unfold hold
  split_ifs with h
  · have heq : s.held.H = s.blocked.H ∧ s.held.W = s.blocked.W := ⟨rfl, rfl⟩
    obtain ⟨hH, hW, hcells⟩ := awayFromWalls_spec (c := c) hl he heq.1 heq.2
    exact ⟨hH, hW, hcells⟩
  · have hno : ∀ a, ¬ s.held.Marked a := fun a ha => h (anyIn_box.mpr ⟨a, ha⟩)
    exact ⟨rfl, rfl, fun a => iff_of_false (hno a) fun ha => hno a ha.1⟩

lemma away_outside (h : SameOutside s s' box) (hm : c.g + 2 ≤ m) (hw : w = box.grow m s'.H s'.W)
    (hcross : s'.crossed w = false) {a : Cell} (ha : s'.held.box.Has a.1 a.2) (haw : ¬ w.Has a.1 a.2) :
    Away c.Far s.held.Marked s.blocked.Marked a ↔ Away c.Far s'.held.Marked s'.blocked.Marked a := by
  have hapart : ∀ {b d : Cell}, s'.held.box.Has b.1 b.2 → ¬ w.Has b.1 b.2 → Within (c.g + 1) b d →
      ¬ box.Has d.1 d.2 := by
    intro b d hb hbw hbd hd
    refine hbw ?_
    rw [hw, grow_has]
    simp only [Within, abs_le, Plane.box, Box.Has, State.held] at hb hbd hd
    omega
  have hnear : ∀ {b d : Cell}, Near b d → Within (c.g + 1) b d := by
    intro b d hbd
    simp only [Near, Within, abs_le] at hbd ⊢
    omega
  have hself : ∀ b, Within (c.g + 1) b b := by
    intro b
    simp only [Within, sub_self, abs_zero]
    exact ⟨Int.natCast_nonneg _, Int.natCast_nonneg _⟩
  have hcl : Closed s'.held.Marked fun a => s'.held.box.Has a.1 a.2 ∧ ¬ w.Has a.1 a.2 := by
    rintro b d ⟨hb, hbw⟩ - hd hn
    exact ⟨hd.has, fun hdw => hbw (not_crossed hcross hd hdw hb hn)⟩
  refine Away.congr (R := fun a => s'.held.box.Has a.1 a.2 ∧ ¬ w.Has a.1 a.2)
    (fun a b => far_of_not_within) ?_ hcl ?_ ?_ ⟨ha, haw⟩
  · intro b d hb hPb hPd hn
    have hQb := (h.held (hapart hb.1 hb.2 (hself b))).mp hPb
    have hQd := (h.held (hapart hb.1 hb.2 (hnear hn))).mp hPd
    exact hcl b d hb hQb hQd hn
  · exact fun b hb => h.held (hapart hb.1 hb.2 (hself b))
  · intro b d hb hbd
    refine h.blocked (hapart hb.1 hb.2 ?_)
    simp only [Within, abs_le] at hbd ⊢
    omega

lemma away_inside (hcross : s.crossed w = false) {a : Cell} (ha : w.Has a.1 a.2) :
    Away c.Far s.held.Marked s.blocked.Marked a ↔
      Away c.Far (fun a => w.Has a.1 a.2 ∧ s.held.Marked a)
        (fun a => (w.grow c.g s.H s.W).Has a.1 a.2 ∧ s.blocked.Marked a) a := by
  refine Away.congr (R := fun a => w.Has a.1 a.2) (fun a b => far_of_not_within)
    (fun b d hb hPb hPd hn => ?_) (fun b d hb hPb hPd hn => hPd.1)
    (fun b hb => ⟨fun h => ⟨hb, h⟩, fun h => h.2⟩) (fun b d hb hbd => ?_) ha
  · have hn' : Near d b := by
      simp only [Near, abs_le] at hn ⊢
      omega
    exact not_crossed hcross hPb hb hPd.has hn'
  · refine ⟨fun h => ⟨?_, h⟩, fun h => h.2⟩
    have hbox := h.has
    rw [grow_has]
    simp only [State.blocked, Plane.box, Box.Has, Within, abs_le] at hb hbd hbox
    omega

lemma away_crop (hl : Labels label) (he : Exact edt) (hy : w.y1 ≤ s.H) (hx : w.x1 ≤ s.W) (hcross : s.crossed w = false) :
    let p := w.grow c.g s.H s.W
    let inner : Box := ⟨w.y0 - p.y0, w.y1 - p.y0, w.x0 - p.x0, w.x1 - p.x0⟩
    let hc := (falses (p.y1 - p.y0) (p.x1 - p.x0)).paste inner (s.held.crop w)
    let out := awayFromWalls c label edt hc (s.blocked.crop p)
    (w.y1 - w.y0 ≤ (out.crop inner).H ∧ w.x1 - w.x0 ≤ (out.crop inner).W) ∧
      ∀ a : Cell, w.Has a.1 a.2 →
        ((out.crop inner).Marked (a - w.corner) ↔ Away c.Far s.held.Marked s.blocked.Marked a) := by
  intro p inner hc out
  have hsize : p.y0 ≤ w.y0 ∧ w.y1 ≤ p.y1 ∧ p.y1 ≤ s.H ∧ p.x0 ≤ w.x0 ∧ w.x1 ≤ p.x1 ∧ p.x1 ≤ s.W := by
    simp only [p, Box.grow]
    omega
  have hheight : hc.H = (s.blocked.crop p).H := by
    simp only [hc, Plane.paste, falses, Plane.crop, State.blocked]
    omega
  have hwidth : hc.W = (s.blocked.crop p).W := by
    simp only [hc, Plane.paste, falses, Plane.crop, State.blocked]
    omega
  have hspec := awayFromWalls_spec (c := c) hl he hheight hwidth
  obtain ⟨hH, hW, hcells⟩ := hspec
  have hheld : ∀ d : Cell, hc.Marked d ↔ w.Has (d + p.corner).1 (d + p.corner).2 ∧ s.held.Marked (d + p.corner) := by
    intro d
    have hcorner : d - inner.corner + w.corner = d + p.corner := by
      refine Prod.ext ?_ ?_
      all_goals
        simp only [Box.corner, inner, Prod.fst_add, Prod.snd_add, Prod.fst_sub, Prod.snd_sub]
        omega
    rw [Plane.marked_paste (by simp only [inner, Plane.crop, State.held]; omega)
      (by simp only [inner, Plane.crop, State.held]; omega), Plane.marked_crop, hcorner]
    split_ifs with hin
    · rfl
    · refine iff_of_false (falses_marked d) fun hd => hin ?_
      have hdw := hd.1
      simp only [Box.Has, Box.corner, inner, falses, Plane.box, Prod.fst_add, Prod.snd_add] at hdw ⊢
      omega
  have hout : out.H = p.y1 - p.y0 ∧ out.W = p.x1 - p.x0 := ⟨hH, hW⟩
  refine ⟨?_, fun a ha => ?_⟩
  · simp only [Plane.crop, hout.1, hout.2, inner]
    omega
  · have hcorner : a - w.corner + inner.corner = a - p.corner := by
      refine Prod.ext ?_ ?_
      all_goals
        simp only [Box.corner, inner, Prod.fst_add, Prod.snd_add, Prod.fst_sub, Prod.snd_sub]
        omega
    have hin : inner.Has (a - p.corner).1 (a - p.corner).2 := by
      simp only [Box.Has, Box.corner, inner, Prod.fst_sub, Prod.snd_sub] at ha ⊢
      omega
    rw [Plane.marked_crop, hcorner, hcells, and_iff_right hin, away_inside hcross ha]
    exact Away.local (fun a b => far_shift) hheld fun d => Plane.marked_crop

/-- After a change inside the box the window's filter is the filter of the whole canvas, it changed
only inside the window, and the loop that grows the window ends. -/
theorem hold_window_exact (hl : Labels label) (he : Exact edt) (hold : Plane Bool)
    (hs : SameOutside s s' box) (hy : box.y0 < box.y1 ∧ box.y1 ≤ s.H) (hx : box.x0 < box.x1 ∧ box.x1 ≤ s.W)
    (hhold : Filtered c s hold) :
    Filtered c s' (s'.hold c label edt) ∧ ∃ hold' w, Filtered c s' hold' ∧
      (∀ y x : ℕ, ¬ w.Has y x → hold'.cell y x = hold.cell y x) ∧
      ∀ fuel, s.H + s.W ≤ fuel → s'.holdWindow c label edt hold box fuel = some (hold', w) := by
  have hH := hs.height
  have hW := hs.width
  have hsome : ∃ w, s'.window box (s.H + s.W) (c.g + 2) = some w := by
    apply s'.window_some
    all_goals omega
  obtain ⟨w, hw⟩ := hsome
  obtain ⟨⟨m, hm, hgrow⟩, hcross⟩ := window_spec hw
  have hwy : w.y1 ≤ s'.H := by
    rw [hgrow]
    exact min_le_left _ _
  have hwx : w.x1 ≤ s'.W := by
    rw [hgrow]
    exact min_le_left _ _
  have houtside : ∀ a : Cell, ¬ (hold.box.Has a.1 a.2 ∧ w.Has a.1 a.2) →
      (hold.Marked a ↔ Away c.Far s'.held.Marked s'.blocked.Marked a) := by
    intro a ha
    rw [hhold.cells]
    by_cases hcanvas : s'.held.box.Has a.1 a.2
    · refine away_outside hs hm hgrow hcross hcanvas fun haw => ha ⟨?_, haw⟩
      simp only [State.held, Plane.box, hhold.height, hhold.width, hH, hW] at hcanvas ⊢
      exact hcanvas
    · refine iff_of_false (fun h => hcanvas ?_) fun h => hcanvas h.1.has
      have hbox := h.1.has
      simp only [State.held, Plane.box, hH, hW] at hbox ⊢
      exact hbox
  have hplane : ∀ q : Plane Bool, (w.y1 - w.y0 ≤ q.H ∧ w.x1 - w.x0 ≤ q.W) →
      (∀ a : Cell, w.Has a.1 a.2 → (q.Marked (a - w.corner) ↔
        Away c.Far s'.held.Marked s'.blocked.Marked a)) → Filtered c s' (hold.paste w q) := by
    intro q hq hcells
    refine ⟨hhold.height.trans hH.symm, hhold.width.trans hW.symm, fun a => ?_⟩
    rw [Plane.marked_paste hq.1 hq.2]
    split_ifs with hin
    · exact hcells a hin.2
    · exact houtside a hin
  have hkeep : ∀ (q : Plane Bool) (y x : ℕ), ¬ w.Has y x → (hold.paste w q).cell y x = hold.cell y x :=
    fun q y x hn => if_neg hn
  refine ⟨hold_filtered hl he, ?_⟩
  unfold holdWindow
  by_cases hany : anyIn s'.held w = true
  · obtain ⟨hsize, hcells⟩ := away_crop (c := c) hl he hwy hwx hcross
    refine ⟨_, w, hplane _ hsize hcells, hkeep _, fun fuel hf => ?_⟩
    rw [window_mono hf hw, Option.map_some, if_pos hany]
  · refine ⟨_, w, hplane (falses (w.y1 - w.y0) (w.x1 - w.x0)) ⟨le_rfl, le_rfl⟩ (fun a ha => ?_), hkeep _,
      fun fuel hf => ?_⟩
    · refine iff_of_false (falses_marked _) fun h => hany ?_
      obtain ⟨y, x, rfl, -, -, hm⟩ := h.1.exists
      exact anyIn_iff.mpr ⟨y, x, ha, hm⟩
    · rw [window_mono hf hw, Option.map_some, if_neg hany]

end

/-- A wall appears in the corner of a canvas of held cells. -/
theorem hold_window_exact_wall :
    let c : Clearance ℚ := ⟨1 / 20, 1 / 10, by norm_num, by norm_num⟩
    let s : State := ⟨2, 3, fun _ _ => 0, fun _ _ => 1, fun _ _ => 0⟩
    let s' : State := ⟨2, 3, fun y x => if y = 0 ∧ x = 0 then 100 else 0, fun _ _ => 1, fun _ _ => 0⟩
    ∃ hold' w, Filtered c s' hold' ∧
      (∀ y x : ℕ, ¬ w.Has y x → hold'.cell y x = (s.hold c firstCell leastSquare).cell y x) ∧
      ∀ fuel, 5 ≤ fuel →
        s'.holdWindow c firstCell leastSquare (s.hold c firstCell leastSquare) ⟨0, 1, 0, 1⟩ fuel =
          some (hold', w) := by
  intro c s s'
  have hs : SameOutside s s' ⟨0, 1, 0, 1⟩ := by
    refine ⟨rfl, rfl, fun y _ x _ hn => ⟨if_neg fun h => hn ?_, rfl, rfl⟩⟩
    rw [h.1, h.2]
    decide
  exact (hold_window_exact firstCell_labels leastSquare_exact _ hs (by decide) (by decide)
    (hold_filtered firstCell_labels leastSquare_exact)).2

end State

end CloudServer.HoldWindow
