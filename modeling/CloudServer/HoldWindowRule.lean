import CloudServer.HoldWindow

/-! The windowed filter is the filter of the whole canvas. -/
namespace CloudServer.HoldWindow
open Planes

variable {p : Plane Bool}

lemma anyIn_iff {b : Box} :
    anyIn p b = true ↔ ∃ y x : ℕ, b.Has y x ∧ p.cell y x = true := by
  unfold anyIn
  simp only [List.any_eq_true, List.mem_range'_1, Box.Has]
  constructor
  · rintro ⟨y, hy, x, hx, hm⟩
    exact ⟨y, x, by omega, hm⟩
  · rintro ⟨y, x, hb, hm⟩
    exact ⟨y, by omega, x, by omega, hm⟩

lemma anyIn_box : anyIn p p.box = true ↔ ∃ a, p.Marked a := by
  rw [anyIn_iff]
  constructor
  · rintro ⟨y, x, hb, hm⟩
    obtain ⟨hy, hx⟩ := Plane.has_nat.mp hb
    exact ⟨_, (Plane.marked_nat hy hx).mpr hm⟩
  · rintro ⟨a, ha⟩
    obtain ⟨y, x, -, hy, hx, hm⟩ := ha.exists
    exact ⟨y, x, Plane.has_nat.mpr ⟨hy, hx⟩, hm⟩

lemma falses_marked {H W : ℕ} (a : Cell) : ¬ (falses H W).Marked a := by
  intro h
  obtain ⟨y, x, -, -, -, hm⟩ := h.exists
  cases hm

section
variable {𝕜 : Type} [Field 𝕜] [LinearOrder 𝕜] {c : Clearance 𝕜}

def Clearance.Far (c : Clearance 𝕜) (a b : Cell) : Prop := c.mc ^ 2 < c.RES ^ 2 * (sqDist a b : 𝕜)

variable {a b t : Cell}

lemma far_sq {n : ℕ} (h : (n : ℤ) = sqDist a b) : c.far n ↔ c.Far a b := by
  unfold Clearance.far Clearance.Far
  rw [← h, Int.cast_natCast]

lemma far_shift : c.Far (a + t) (b + t) ↔ c.Far a b := by
  unfold Clearance.Far
  rw [sqDist_shift]

variable [IsStrictOrderedRing 𝕜]

lemma far_mono {n m : ℕ} (h : n ≤ m) (hn : c.far n) : c.far m := by
  have hcast : (n : 𝕜) ≤ m := Nat.cast_le.mpr h
  exact hn.trans_le (mul_le_mul_of_nonneg_left hcast (sq_nonneg _))

lemma far_of_cells {k : ℕ} (hk : c.mc < c.RES * k) {d e : ℤ} (hd : k ≤ |d|) :
    c.mc ^ 2 < c.RES ^ 2 * ((d ^ 2 + e ^ 2 : ℤ) : 𝕜) := by
  have hlt : c.mc ^ 2 < c.RES ^ 2 * (k : 𝕜) ^ 2 := by
    rw [← mul_pow]
    exact pow_lt_pow_left₀ hk c.mc_pos.le two_ne_zero
  have hsq : (k : ℤ) ^ 2 ≤ d ^ 2 + e ^ 2 := by
    have hd2 : (k : ℤ) ^ 2 ≤ d ^ 2 := by
      rw [← sq_abs d]
      exact pow_le_pow_left₀ (Int.natCast_nonneg k) hd 2
    exact hd2.trans (le_add_of_nonneg_right (sq_nonneg e))
  have hcast : (k : 𝕜) ^ 2 ≤ ((d ^ 2 + e ^ 2 : ℤ) : 𝕜) := by
    exact_mod_cast (Int.cast_le (R := 𝕜)).mpr hsq
  exact hlt.trans_le (mul_le_mul_of_nonneg_left hcast (sq_nonneg _))

variable [FloorSemiring 𝕜]

lemma far_of_not_within (h : ¬ Within c.g a b) : c.Far a b := by
  have hg : c.mc < c.RES * c.g := by
    have hceil : c.mc / c.RES ≤ ⌈c.mc / c.RES⌉₊ := Nat.le_ceil _
    have hlt : c.mc / c.RES < c.g := by
      unfold Clearance.g
      push_cast
      linarith
    rwa [div_lt_iff₀' c.RES_pos] at hlt
  unfold Within at h
  unfold Clearance.Far sqDist
  rcases not_and_or.mp h with hy | hx
  · exact far_of_cells hg (le_of_lt (not_le.mp hy))
  · rw [add_comm]
    exact far_of_cells hg (le_of_lt (not_le.mp hx))

variable {label edt : Plane Bool → ℕ → ℕ → ℕ} {held blocked : Plane Bool}

omit [FloorSemiring 𝕜] in
lemma decide_cell (hl : Labels label) (he : Exact edt) {hc bc : Plane Bool} (hH : hc.H = bc.H) (hW : hc.W = bc.W)
    (hwall : ∃ a, bc.Marked a) {y x : ℕ} (hy : y < hc.H) (hx : x < hc.W) :
    ((label hc y x ≠ 0 ∧ anyIn ⟨hc.H, hc.W, fun y' x' => decide (c.far (edt (complement bc) y' x')) &&
        hc.cell y' x' && decide (label hc y' x' = label hc y x)⟩ hc.box = true) ∧ hc.cell y x = true) ↔
      Away c.Far hc.Marked bc.Marked ((y : ℤ), (x : ℤ)) := by
  obtain ⟨w, hw⟩ := hwall
  obtain ⟨wy, wx, -, hwy, hwx, hwm⟩ := hw.exists
  have hdist := he (complement bc) ⟨wy, hwy, wx, hwx, by simp [complement, hwm]⟩
  have hfar : ∀ y' < hc.H, ∀ x' < hc.W, c.far (edt (complement bc) y' x') ↔
      ∀ a, bc.Marked a → c.Far ((y' : ℤ), (x' : ℤ)) a := by
    intro y' hy' x' hx'
    obtain ⟨⟨a, ⟨hbox, hnot⟩, hsq⟩, hleast⟩ := hdist y' (hH ▸ hy') x' (hW ▸ hx')
    have hmark : ∀ {a : Cell}, (complement bc).box.Has a.1 a.2 → (¬ (complement bc).Marked a ↔ bc.Marked a) := by
      intro a ha
      obtain ⟨ay, ax, h1, h2, hay, hax⟩ := Plane.exists_nat ha
      have heq : a = (↑ay, ↑ax) := Prod.ext h1 h2
      subst heq
      rw [Plane.marked_nat hay hax, Plane.marked_nat (p := bc) hay hax]
      simp [complement]
    constructor
    · intro hf b hb
      have hbb : (complement bc).box.Has b.1 b.2 := hb.has
      have hn : ((sqDist ((y' : ℤ), (x' : ℤ)) b).toNat : ℤ) = sqDist ((y' : ℤ), (x' : ℤ)) b :=
        Int.toNat_of_nonneg (sqDist_nonneg _ _)
      exact (far_sq hn).mp (far_mono (hleast ⟨b, ⟨hbb, (hmark hbb).mpr hb⟩, hn⟩) hf)
    · intro hall
      exact (far_sq hsq).mpr (hall a ((hmark hbox).mp hnot))
  unfold Away
  rw [Plane.marked_nat hy hx]
  constructor
  · rintro ⟨⟨-, hany⟩, hm⟩
    obtain ⟨y', x', hb, hcell⟩ := anyIn_iff.mp hany
    obtain ⟨hy', hx'⟩ := Plane.has_nat.mp hb
    simp only [Bool.and_eq_true, decide_eq_true_eq] at hcell
    have hlink := (((hl hc y hy x hx hm).2 y' hy' x' hx' hcell.1.2).mp hcell.2.symm)
    exact ⟨hm, _, hlink, (hfar y' hy' x' hx').mp hcell.1.1⟩
  · rintro ⟨hm, b, hlink, hall⟩
    obtain ⟨y', x', rfl, hy', hx', hm'⟩ :=
      Plane.Marked.exists (hlink.mem ((Plane.marked_nat hy hx).mpr hm))
    refine ⟨⟨(hl hc y hy x hx hm).1, anyIn_iff.mpr ⟨y', x', Plane.has_nat.mpr ⟨hy', hx'⟩, ?_⟩⟩, hm⟩
    simp only [Bool.and_eq_true, decide_eq_true_eq]
    exact ⟨⟨(hfar y' hy' x' hx').mpr hall, hm'⟩, (((hl hc y hy x hx hm).2 y' hy' x' hx' hm').mpr hlink).symm⟩

lemma grow_has {b : Box} {m H W : ℕ} : (b.grow m H W).Has a.1 a.2 ↔
    (max 0 ((b.y0 : ℤ) - m) ≤ a.1 ∧ a.1 < min (H : ℤ) (b.y1 + m)) ∧
      max 0 ((b.x0 : ℤ) - m) ≤ a.2 ∧ a.2 < min (W : ℤ) (b.x1 + m) := by
  simp only [Box.grow, Box.Has]
  omega

lemma awayFromWalls_spec (hl : Labels label) (he : Exact edt) (hH : held.H = blocked.H)
    (hW : held.W = blocked.W) : (awayFromWalls c label edt held blocked).H = held.H ∧
      (awayFromWalls c label edt held blocked).W = held.W ∧
      ∀ a, (awayFromWalls c label edt held blocked).Marked a ↔ Away c.Far held.Marked blocked.Marked a := by
  have hspec := bounding_spec held.cell held.box
  unfold awayFromWalls
  rcases hspec with ⟨hnone, hempty⟩ | ⟨b, hb, hin, -⟩
  · simp only [hnone]
    refine ⟨rfl, rfl, fun a => iff_of_false (falses_marked a) fun h => ?_⟩
    obtain ⟨y, x, -, hy, hx, hm⟩ := h.1.exists
    rw [hempty y x (Plane.has_nat.mpr ⟨hy, hx⟩)] at hm
    cases hm
  · simp only [hb]
    set w := b.grow c.g held.H held.W with hw
    have hbox : ∀ a, held.Marked a → b.Has a.1 a.2 := by
      intro a ha
      obtain ⟨y, x, rfl, hy, hx, hm⟩ := ha.exists
      exact hin y x (Plane.has_nat.mpr ⟨hy, hx⟩) hm
    have hgrow : ∀ a : Cell, held.Marked a → w.Has a.1 a.2 := by
      intro a ha
      have hbh := hbox a ha
      have hcanvas := ha.has
      rw [hw, grow_has]
      simp only [Box.Has, Plane.box] at hbh hcanvas
      omega
    -- the walls that a held cell can see are inside the crop
    have hlocal : ∀ a, Away c.Far held.Marked blocked.Marked a ↔
        Away c.Far (fun a => w.Has a.1 a.2 ∧ held.Marked a) (fun a => w.Has a.1 a.2 ∧ blocked.Marked a) a := by
      intro a
      by_cases ha : held.Marked a
      · refine Away.congr (R := fun a => b.Has a.1 a.2) (fun a b => far_of_not_within)
          (fun a b' _ _ hb' _ => hbox b' hb') (fun a b' _ _ hb' _ => hbox b' hb'.2)
          (fun a _ => ⟨fun h => ⟨hgrow a h, h⟩, fun h => h.2⟩) (fun a d ha hd => ?_) (hbox a ha)
        refine ⟨fun h => ⟨?_, h⟩, fun h => h.2⟩
        have hcanvas := h.has
        rw [hw, grow_has]
        simp only [Box.Has, Plane.box, Within, abs_le] at ha hd hcanvas
        omega
      · exact iff_of_false (fun h => ha h.1) fun h => ha h.1.2
    by_cases hany : anyIn (blocked.crop w) (blocked.crop w).box = true
    · rw [if_pos hany]
      refine ⟨rfl, rfl, fun a => ?_⟩
      rw [hlocal, Plane.marked_paste (by simp only [Plane.crop, hw, Box.grow]; omega)
        (by simp only [Plane.crop, hw, Box.grow]; omega)]
      by_cases ha : w.Has a.1 a.2
      · have hcanvas : (falses held.H held.W).box.Has a.1 a.2 := by
          rw [hw, grow_has] at ha
          simp only [falses, Box.Has, Plane.box]
          omega
        rw [if_pos ⟨hcanvas, ha⟩]
        obtain ⟨y, x, hy, hx, hloc⟩ : ∃ y x : ℕ, y < (held.crop w).H ∧ x < (held.crop w).W ∧
            a - w.corner = ((y : ℤ), (x : ℤ)) := by
          have hc := hcanvas
          simp only [falses, Box.Has, Plane.box] at ha hc
          refine ⟨(a.1 - w.y0).toNat, (a.2 - w.x0).toNat, ?_, ?_, Prod.ext ?_ ?_⟩
          all_goals
            simp only [Plane.crop, Box.corner, Prod.fst_sub, Prod.snd_sub]
            omega
        rw [← Away.local (t := w.corner) (fun a b => far_shift) (fun d => Plane.marked_crop)
          (fun d => Plane.marked_crop), hloc]
        refine (Plane.marked_nat (by exact hy) (by exact hx)).trans ?_
        rw [← decide_cell hl he (by simp only [Plane.crop, hH]) (by simp only [Plane.crop, hW]) (anyIn_box.mp hany) hy hx]
        exact (Bool.and_eq_true _ _).to_iff.trans (and_congr_left' decide_eq_true_iff)
      · rw [if_neg fun h => ha h.2]
        exact iff_of_false (falses_marked a) fun h => ha h.1.1
    · rw [if_neg hany]
      refine ⟨rfl, rfl, fun a => ?_⟩
      rw [hlocal]
      constructor
      · intro ha
        refine ⟨⟨hgrow a ha, ha⟩, a, Relation.ReflTransGen.refl, fun d hd => ?_⟩
        refine (hany (anyIn_box.mpr ⟨d - w.corner, Plane.marked_crop.mpr ?_⟩)).elim
        rw [sub_add_cancel]
        exact hd
      · exact fun h => h.1.2

end

end CloudServer.HoldWindow
