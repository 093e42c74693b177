import CloudServer.ClearanceRuns
import CloudServer.SolverDistance

/-! The distances that are transformed again and those that are kept are exact. -/
namespace CloudServer.SolverDistance
open Planes Clearance RawBasins List Option

variable {edt : Transform} {F G : Plane Bool} {E w b : Box} {c p : Cell} {y x n i g : ℕ} {f : ℕ → ℕ}

/-! ### A box with a ring -/

def OnBorder (E : Box) (c : Cell) : Prop :=
  (E.y0 : ℤ) - 1 ≤ c.1 ∧ c.1 ≤ E.y1 ∧ (E.x0 : ℤ) - 1 ≤ c.2 ∧ c.2 ≤ E.x1 ∧ ¬ E.Has c.1 c.2

/-- A plane that holds the cells of `F` in a box, with a ring of unset cells around them. -/
structure Ringed (sub F : Plane Bool) (E : Box) : Prop where
  height : sub.H = E.y1 - E.y0 + 2
  width : sub.W = E.x1 - E.x0 + 2
  marked : ∀ c : Cell, sub.Marked (c - ((E.y0 : ℤ) - 1, (E.x0 : ℤ) - 1)) ↔ E.Has c.1 c.2 ∧ F.Marked c

lemma sqDist_le {a d : Cell} (hy : |a.1 - c.1| ≤ |a.1 - d.1|) (hx : |a.2 - c.2| ≤ |a.2 - d.2|) :
    sqDist a c ≤ sqDist a d :=
  add_le_add (sq_le_sq.mpr hy) (sq_le_sq.mpr hx)

lemma exists_border (hp : E.Has p.1 p.2) (hc : ¬ E.Has c.1 c.2) :
    ∃ r, OnBorder E r ∧ sqDist p r ≤ sqDist p c := by
  simp only [Box.Has] at hp hc
  refine ⟨(max ((E.y0 : ℤ) - 1) (min E.y1 c.1), max ((E.x0 : ℤ) - 1) (min E.x1 c.2)), ?_, sqDist_le ?_ ?_⟩
  · simp only [OnBorder, Box.Has]
    omega
  · simp only
    rcases abs_cases (p.1 - c.1) with h | h <;>
      rcases abs_cases (p.1 - max ((E.y0 : ℤ) - 1) (min E.y1 c.1)) with h' | h' <;> omega
  · simp only
    rcases abs_cases (p.2 - c.2) with h | h <;>
      rcases abs_cases (p.2 - max ((E.x0 : ℤ) - 1) (min E.x1 c.2)) with h' | h' <;> omega

lemma Ringed.nearest {sub : Plane Bool} (h : Ringed sub F E) (he : Exact edt) (hp : E.Has y x)
    (hreal : ∀ c, OnBorder E c →
      (edt sub (y - E.y0 + 1) (x - E.x0 + 1) : ℤ) = sqDist ((y : ℤ), (x : ℤ)) c → ¬ F.Marked c) :
    NearestIn (fun c => ¬ F.Marked c) ((y : ℤ), (x : ℤ)) (edt sub (y - E.y0 + 1) (x - E.x0 + 1)) := by
  set t : Cell := ((E.y0 : ℤ) - 1, (E.x0 : ℤ) - 1) with ht
  have hbox := hp
  simp only [Box.Has] at hbox
  have hunset : ∀ c : Cell, (E.Has c.1 c.2 ∧ ¬ F.Marked c ∨ OnBorder E c) ↔ sub.Unset (c - t) := by
    intro c
    rw [Plane.Unset, h.marked]
    simp only [ht, Plane.box, Box.Has, OnBorder, h.height, h.width, Prod.fst_sub, Prod.snd_sub]
    constructor
    · rintro (⟨hc, hn⟩ | hc)
      · exact ⟨by omega, fun hm => hn hm.2⟩
      · exact ⟨by omega, fun hm => hc.2.2.2.2 hm.1⟩
    · rintro ⟨hc, hn⟩
      by_cases hE : (E.y0 : ℤ) ≤ c.1 ∧ c.1 < E.y1 ∧ (E.x0 : ℤ) ≤ c.2 ∧ c.2 < E.x1
      · exact .inl ⟨hE, fun hm => hn ⟨hE, hm⟩⟩
      · exact .inr ⟨by omega, by omega, by omega, by omega, hE⟩
  have hcorner : sub.cell 0 0 = false := by
    have hun := (hunset t).mp (.inr (by simp only [ht, OnBorder, Box.Has]; omega))
    rw [sub_self] at hun
    exact (Plane.unset_nat (by rw [h.height]; omega) (by rw [h.width]; omega)).mp hun
  have hnear := he sub ⟨0, by rw [h.height]; omega, 0, by rw [h.width]; omega, hcorner⟩
    (y - E.y0 + 1) (by rw [h.height]; omega) (x - E.x0 + 1) (by rw [h.width]; omega)
  have hplace : (((y - E.y0 + 1 : ℕ) : ℤ), ((x - E.x0 + 1 : ℕ) : ℤ)) = (((y : ℤ), (x : ℤ)) - t : Cell) := by
    refine Prod.ext ?_ ?_ <;> simp only [ht, Prod.fst_sub, Prod.snd_sub] <;> omega
  rw [hplace] at hnear
  have hshift := hnear.shift hunset
  refine ⟨?_, ?_⟩
  · obtain ⟨c, hc | hc, hn⟩ := hshift.1
    · exact ⟨c, hc.2, hn⟩
    · exact ⟨c, hreal c hc hn, hn⟩
  · rintro k ⟨c, hc, hk⟩
    have hle : (edt sub (y - E.y0 + 1) (x - E.x0 + 1) : ℤ) ≤ sqDist ((y : ℤ), (x : ℤ)) c := by
      by_cases hE : E.Has c.1 c.2
      · exact hshift.le (.inl ⟨hE, hc⟩)
      · obtain ⟨r, hr, hle⟩ := exists_border (p := ((y : ℤ), (x : ℤ))) hp hE
        exact (hshift.le (.inr hr)).trans hle
    rw [← hk] at hle
    exact_mod_cast hle

/-! ### The first distances -/

lemma mem_extent {cells : List (ℕ × ℕ)} {e : ℕ × ℕ} (he : e ∈ cells) : (extent cells).Has e.1 e.2 := by
  have hmin : ∀ {l : List ℕ} {v : ℕ}, v ∈ l → l.min?.getD 0 ≤ v := fun {l v} hv => by
    obtain ⟨m, hm⟩ := isSome_iff_exists.mp (isSome_min?_of_mem hv)
    rw [hm]
    exact (List.min?_eq_some_iff.mp hm).2 v hv
  have hmax : ∀ {l : List ℕ} {v : ℕ}, v ∈ l → v ≤ l.max?.getD 0 := fun {l v} hv => by
    obtain ⟨m, hm⟩ := isSome_iff_exists.mp (isSome_max?_of_mem hv)
    rw [hm]
    exact (List.max?_eq_some_iff.mp hm).2 v hv
  have h₁ := hmin (mem_map_of_mem (f := Prod.fst) he)
  have h₂ := hmax (mem_map_of_mem (f := Prod.fst) he)
  have h₃ := hmin (mem_map_of_mem (f := Prod.snd) he)
  have h₄ := hmax (mem_map_of_mem (f := Prod.snd) he)
  simp only [extent, Box.Has]
  omega

lemma marked_iff : F.Marked c ↔ ∃ e ∈ cellsOf F, c = ((e.1 : ℤ), (e.2 : ℤ)) := by
  constructor
  · intro h
    obtain ⟨y, x, rfl, hy, hx, hc⟩ := h.exists
    exact ⟨(y, x), mem_cells.mpr ⟨hy, hx, hc⟩, rfl⟩
  · rintro ⟨e, he, rfl⟩
    obtain ⟨hy, hx, hc⟩ := mem_cells.mp he
    exact (Plane.marked_nat hy hx).mpr hc

theorem distance_field (he : Exact edt) (F : Plane Bool) : Field F (distance edt (Space.of F)) := by
  intro i hi
  have hmem : cellAt F i ∈ cellsOf F := mem_of_getElem? (cellAt_eq hi)
  set b := extent (cellsOf F) with hb
  have hin : ∀ {c}, F.Marked c → b.Has c.1 c.2 := fun h => by
    obtain ⟨e, he, rfl⟩ := marked_iff.mp h
    exact mem_extent he
  have hring : Ringed ⟨b.y1 - b.y0 + 2, b.x1 - b.x0 + 2, fun y x =>
      (cellsOf F).any fun c => c.1 - b.y0 + 1 = y && c.2 - b.x0 + 1 = x⟩ F b := by
    refine ⟨rfl, rfl, fun c => ?_⟩
    constructor
    · intro h
      obtain ⟨y, x, hc, -, -, hcell⟩ := h.exists
      obtain ⟨e, hemem, heq⟩ := any_eq_true.mp hcell
      rw [Bool.and_eq_true, decide_eq_true_eq, decide_eq_true_eq] at heq
      have hE := mem_extent hemem
      rw [← hb] at hE
      have hce : c = ((e.1 : ℤ), (e.2 : ℤ)) := by
        have h₁ := congrArg Prod.fst hc
        have h₂ := congrArg Prod.snd hc
        simp only [Prod.fst_sub, Prod.snd_sub] at h₁ h₂
        simp only [Box.Has] at hE
        exact Prod.ext (by omega) (by omega)
      rw [hce]
      exact ⟨hE, marked_iff.mpr ⟨e, hemem, rfl⟩⟩
    · rintro ⟨-, h⟩
      obtain ⟨e, hemem, rfl⟩ := marked_iff.mp h
      have hE := mem_extent hemem
      rw [← hb] at hE
      simp only [Box.Has] at hE
      have hplace : (((e.1 : ℤ), (e.2 : ℤ)) - ((b.y0 : ℤ) - 1, (b.x0 : ℤ) - 1) : Cell) =
          (((e.1 - b.y0 + 1 : ℕ) : ℤ), ((e.2 - b.x0 + 1 : ℕ) : ℤ)) := by
        refine Prod.ext ?_ ?_ <;> simp only [Prod.fst_sub, Prod.snd_sub] <;> omega
      rw [hplace, Plane.marked_nat (by simp only; omega) (by simp only; omega)]
      exact any_eq_true.mpr ⟨e, hemem, by simp⟩
  exact hring.nearest he (mem_extent hmem) fun c hc _ hm => hc.2.2.2.2 (hin hm)

namespace PartitionSolver

/-! ### The margin around a change -/

lemma lt_ceilMargin (n : ℕ) : n < ceilMargin n ^ 2 := by
  have hceil := le_ceilSqrt (10 ^ 12 * n)
  have hlt : ceilSqrt (10 ^ 12 * n) < 10 ^ 6 * ceilMargin n := by
    unfold ceilMargin
    omega
  have hsq : 10 ^ 12 * n < (10 ^ 6 * ceilMargin n) ^ 2 :=
    lt_of_le_of_lt hceil (Nat.pow_lt_pow_left hlt two_ne_zero)
  rw [mul_pow, ← pow_mul] at hsq
  exact Nat.lt_of_mul_lt_mul_left hsq

variable {laid : Laid} {off : ℕ × ℕ} {inner : ℕ → ℕ → ℕ} {fuel k pad tries : ℕ} {shift : ℤ × ℤ}

lemma lt_need {st : State} (hi : i < st.sp.N) (hout : out st off b g i = true) :
    st.f i < need st off b g ^ 2 := by
  have hmem : st.f i ∈ ((List.range st.sp.N).filter (out st off b g)).map st.f :=
    mem_map_of_mem (mem_filter.mpr ⟨mem_range.mpr hi, hout⟩)
  obtain ⟨m, hm⟩ := isSome_iff_exists.mp (isSome_max?_of_mem hmem)
  have hle := (List.max?_eq_some_iff.mp hm).2 _ hmem
  unfold need
  rw [hm]
  exact hle.trans_lt (lt_ceilMargin m)

lemma lt_margin {st : State} (hi : i < st.sp.N) (rounds g : ℕ)
    (hout : out st off b (margin st off b rounds g) i = true) : st.f i < margin st off b rounds g ^ 2 := by
  induction rounds generalizing g with
  | zero =>
    have hmem : st.f i ∈ (List.range st.sp.N).map st.f := mem_map_of_mem (mem_range.mpr hi)
    obtain ⟨m, hm⟩ := isSome_iff_exists.mp (isSome_max?_of_mem hmem)
    have hle := (List.max?_eq_some_iff.mp hm).2 _ hmem
    unfold margin
    rw [hm]
    exact hle.trans_lt (lt_ceilMargin m)
  | succ rounds ih =>
    unfold margin at hout ⊢
    by_cases hstop : need st off b g ≤ g
    · rw [if_pos hstop] at hout ⊢
      exact (lt_need hi hout).trans_le (Nat.pow_le_pow_left hstop 2)
    · rw [if_neg hstop] at hout ⊢
      exact ih _ hout

/-! ### The window -/

lemma ringed_ringed (hy : E.y1 ≤ F.H) (hx : E.x1 ≤ F.W) (hy' : E.y0 ≤ E.y1) (hx' : E.x0 ≤ E.x1) :
    Ringed (ringed F E) F E := by
  refine ⟨rfl, rfl, fun c => ?_⟩
  have hH : 1 + (F.crop E).H ≤ E.y1 - E.y0 + 2 := by simp only [Plane.crop]; omega
  have hW : 1 + (F.crop E).W ≤ E.x1 - E.x0 + 2 := by simp only [Plane.crop]; omega
  have hcrop : (ringed F E).Marked (c - ((E.y0 : ℤ) - 1, (E.x0 : ℤ) - 1)) ↔
      (F.crop E).Marked (c - E.corner) := by
    unfold Plane.Marked ringed
    rw [Plane.get_embed _ _ hH hW]
    simp only [Box.corner, Prod.fst_sub, Prod.snd_sub]
    rw [show c.1 - ((E.y0 : ℤ) - 1) - (1 : ℕ) = c.1 - E.y0 by omega,
      show c.2 - ((E.x0 : ℤ) - 1) - (1 : ℕ) = c.2 - E.x0 by omega]
  rw [hcrop, Plane.marked_crop, sub_add_cancel]

lemma not_marked_of_outside (h : ¬ F.box.Has c.1 c.2) : ¬ F.Marked c := fun hm => h hm.has

lemma real_of_certain (h : certain F w E inner = true) (hw : w.Has y x) (hE : E.Has y x)
    (hc : OnBorder E c) (hn : (inner (y - w.y0) (x - w.x0) : ℤ) = sqDist ((y : ℤ), (x : ℤ)) c) :
    ¬ F.Marked c := by
  have hlt := of_decide_eq_true (all_eq_true.mp h (y, x) (mem_cellsIn.mpr hw))
  simp only at hlt
  have hfar : ∀ {k : ℕ}, min (rpd F E y) (cpd F E x) ≤ k →
      ((k : ℤ) ≤ |(y : ℤ) - c.1| ∨ (k : ℤ) ≤ |(x : ℤ) - c.2|) → False := by
    intro k hk hside
    have hsq := sq_le_sqDist (a := ((y : ℤ), (x : ℤ))) hside
    rw [← hn] at hsq
    have hsq' : k ^ 2 ≤ inner (y - w.y0) (x - w.x0) := by exact_mod_cast hsq
    exact (hlt.trans_le (Nat.pow_le_pow_left hk 2)).not_ge hsq'
  have hrow := min_le_left (rpd F E y) (cpd F E x)
  have hcol := min_le_right (rpd F E y) (cpd F E x)
  have h₁ := abs_cases ((y : ℤ) - c.1)
  have h₂ := abs_cases ((x : ℤ) - c.2)
  refine fun hm => ?_
  have hin := hm.has
  simp only [OnBorder, Plane.box, Box.Has] at hc hE hin
  by_cases hy₀ : c.1 < E.y0
  · have hle : rpd F E y ≤ y - E.y0 + 1 := by
      unfold rpd
      rw [if_neg (show ¬ E.y0 = 0 by omega)]
      exact min_le_left _ _
    exact hfar (hrow.trans hle) (.inl (by omega))
  by_cases hy₁ : (E.y1 : ℤ) ≤ c.1
  · have hle : rpd F E y ≤ E.y1 - y := by
      unfold rpd
      rw [if_neg (show ¬ E.y1 = F.H by omega)]
      exact min_le_right _ _
    exact hfar (hrow.trans hle) (.inl (by omega))
  by_cases hx₀ : c.2 < E.x0
  · have hle : cpd F E x ≤ x - E.x0 + 1 := by
      unfold cpd
      rw [if_neg (show ¬ E.x0 = 0 by omega)]
      exact min_le_left _ _
    exact hfar (hcol.trans hle) (.inr (by omega))
  · have hle : cpd F E x ≤ E.x1 - x := by
      unfold cpd
      rw [if_neg (show ¬ E.x1 = F.W by omega)]
      exact min_le_right _ _
    exact hfar (hcol.trans hle) (.inr (by omega))

def OnCanvas (F : Plane Bool) (w : Box) : Prop := w.y1 ≤ F.H ∧ w.x1 ≤ F.W ∧ w.y0 < w.y1 ∧ w.x0 < w.x1

lemma transformed_exact (he : Exact edt) (hw : OnCanvas F w)
    (h : transformed edt F w fuel pad tries = some inner) (hin : w.Has y x) :
    NearestIn (fun c => ¬ F.Marked c) ((y : ℤ), (x : ℤ)) (inner (y - w.y0) (x - w.x0)) := by
  obtain ⟨hy, hx, hy', hx'⟩ := hw
  induction fuel generalizing pad tries with
  | zero => cases h
  | succ fuel ih =>
    unfold transformed at h
    simp only at h
    set E := w.grow pad F.H F.W with hE
    simp only [Box.grow] at hE
    by_cases hcert : certain F w E (fun y x => edt (ringed F E) (w.y0 - E.y0 + 1 + y)
      (w.x0 - E.x0 + 1 + x)) = true
    · rw [if_pos hcert] at h
      cases h
      have hring : Ringed (ringed F E) F E :=
        ringed_ringed (by simp only [hE]; omega) (by simp only [hE]; omega)
        (by simp only [hE]; omega) (by simp only [hE]; omega)
      have hEin : E.Has y x := by
        simp only [Box.Has, hE] at hin ⊢
        omega
      have hplace : w.y0 - E.y0 + 1 + (y - w.y0) = y - E.y0 + 1 ∧
          w.x0 - E.x0 + 1 + (x - w.x0) = x - E.x0 + 1 := by
        simp only [Box.Has, hE] at hin ⊢
        omega
      have hnear := hring.nearest he hEin fun c hc hn => real_of_certain hcert hin hEin hc (by
        simp only [hplace.1, hplace.2]
        exact hn)
      simp only [hplace.1, hplace.2]
      exact hnear
    · rw [if_neg hcert] at h
      exact ih h

lemma certain_whole (he : Exact edt) (hw : OnCanvas F w) (hE : E = ⟨0, F.H, 0, F.W⟩) :
    certain F w E (fun y x => edt (ringed F E) (w.y0 - E.y0 + 1 + y) (w.x0 - E.x0 + 1 + x)) = true := by
  obtain ⟨hy, hx, hy', hx'⟩ := hw
  refine all_eq_true.mpr fun c hc => decide_eq_true ?_
  have hin := mem_cellsIn.mp hc
  simp only [Box.Has] at hin
  subst hE
  have hring : Ringed (ringed F ⟨0, F.H, 0, F.W⟩) F ⟨0, F.H, 0, F.W⟩ :=
    ringed_ringed le_rfl le_rfl (Nat.zero_le _) (Nat.zero_le _)
  have hEin : (⟨0, F.H, 0, F.W⟩ : Box).Has c.1 c.2 := by
    simp only [Box.Has]
    omega
  have hborder : OnBorder ⟨0, F.H, 0, F.W⟩ (-1, (c.2 : ℤ)) := by
    simp only [OnBorder, Box.Has]
    omega
  have hnear := hring.nearest he hEin fun e hc' _ => not_marked_of_outside fun hb => hc'.2.2.2.2 (by
    simp only [Plane.box, Box.Has] at hb ⊢
    omega)
  have hle := hnear.le (not_marked_of_outside (c := (-1, (c.2 : ℤ))) fun hb => hborder.2.2.2.2 (by
    simp only [Plane.box, Box.Has] at hb ⊢
    omega))
  have hsq : sqDist ((c.1 : ℤ), (c.2 : ℤ)) (-1, (c.2 : ℤ)) = ((c.1 + 1 : ℕ) : ℤ) ^ 2 := by
    simp only [sqDist]
    push_cast
    ring
  rw [hsq] at hle
  have hle' : edt (ringed F ⟨0, F.H, 0, F.W⟩) (c.1 - 0 + 1) (c.2 - 0 + 1) ≤
      (c.1 + 1) ^ 2 := by exact_mod_cast hle
  have hplace : w.y0 - 0 + 1 + (c.1 - w.y0) = c.1 - 0 + 1 ∧
      w.x0 - 0 + 1 + (c.2 - w.x0) = c.2 - 0 + 1 := by omega
  simp only [hplace.1, hplace.2, rpd, cpd, if_true]
  refine lt_of_le_of_lt hle' (Nat.pow_lt_pow_left ?_ two_ne_zero)
  omega

lemma transformed_again (h : ∃ inner, ∀ fuel,
    transformed edt F w (fuel + k) (if tries = 0 then pad * 2 else max F.H F.W) (tries + 1) = some inner) :
    ∃ inner, ∀ fuel, transformed edt F w (fuel + k + 1) pad tries = some inner := by
  obtain ⟨inner, hinner⟩ := h
  set E := w.grow pad F.H F.W with hE
  by_cases hcert : certain F w E (fun y x => edt (ringed F E) (w.y0 - E.y0 + 1 + y)
    (w.x0 - E.x0 + 1 + x)) = true
  · exact ⟨_, fun fuel => if_pos hcert⟩
  · refine ⟨inner, fun fuel => ?_⟩
    rw [transformed]
    exact (if_neg hcert).trans (hinner fuel)

lemma transformed_ends (he : Exact edt) (hw : OnCanvas F w) (pad : ℕ) : ∃ inner, ∀ fuel,
    transformed edt F w (fuel + 3) pad 0 = some inner := by
  refine transformed_again (k := 2)
    (transformed_again (k := 1) ⟨_, fun fuel => if_pos (certain_whole he hw ?_)⟩)
  obtain ⟨hy, hx, hy', hx'⟩ := hw
  rw [if_neg (Nat.succ_ne_zero _)]
  simp only [Box.grow, Box.mk.injEq]
  omega

/-! ### The previous grid on the canvas -/

structure Over (G F : Plane Bool) (laid : Laid) : Prop where
  rows : laid.off.1 + G.H ≤ F.H
  cols : laid.off.2 + G.W ≤ F.W
  cell : ∀ y < F.H, ∀ x < F.W, (laid.oi y x = -1 ∧ ¬ G.Marked ((y : ℤ) - laid.off.1, (x : ℤ) - laid.off.2)) ∨
    ∃ i < (Space.of G).N, laid.oi y x = i ∧ y = (cellAt G i).1 + laid.off.1 ∧ x = (cellAt G i).2 + laid.off.2

lemma idx_cases (G : Plane Bool) (y x : ℕ) : ((Space.of G).idx y x = -1 ∧ ¬ G.Marked ((y : ℤ), (x : ℤ))) ∨
    ∃ i < (Space.of G).N, (Space.of G).idx y x = i ∧ cellAt G i = (y, x) := by
  by_cases hm : G.Marked ((y : ℤ), (x : ℤ))
  · obtain ⟨e, he, heq⟩ := marked_iff.mp hm
    have hcell : e = (y, x) := by
      rw [Prod.mk.injEq, Nat.cast_inj, Nat.cast_inj] at heq
      exact Prod.ext heq.1.symm heq.2.symm
    obtain ⟨i, hi⟩ := mem_iff_getElem?.mp (hcell ▸ he)
    have hlt : i < (Space.of G).N := (List.getElem?_eq_some_iff.mp hi).1
    exact .inr ⟨i, hlt, place_eq (cells_nodup G) hi, Option.some.inj ((cellAt_eq hlt).symm.trans hi)⟩
  · rcases place_cases (cells_nodup G) (y, x) with hp | ⟨i, hi⟩
    · exact .inl ⟨hp, hm⟩
    · exact absurd (marked_iff.mpr ⟨_, mem_of_getElem? hi, rfl⟩) hm

lemma over_of_lay (h : lay (some ⟨Space.of G, f⟩) (Space.of F) shift = some laid) :
    Over G F laid := by
  obtain ⟨s, -, hs⟩ := exists_of_findSome?_eq_some h
  simp only [Space.of_H, Space.of_W] at hs
  split_ifs at hs with hfits hsame
  · cases hs
    refine ⟨by simp only; omega, by simp only; omega, fun y hy x hx => ?_⟩
    rcases idx_cases G y x with ⟨hi, hm⟩ | ⟨i, hi, hidx, hcell⟩
    · exact .inl ⟨hi, by simpa using hm⟩
    · exact .inr ⟨i, hi, hidx, by rw [hcell]; rfl, by rw [hcell]; rfl⟩
  · cases hs
    refine ⟨by simp only; omega, by simp only; omega, fun y hy x hx => ?_⟩
    by_cases hbox : (⟨s.1.toNat, s.1.toNat + G.H, s.2.toNat, s.2.toNat + G.W⟩ : Box).Has y x
    · simp only [if_pos hbox]
      simp only [Box.Has] at hbox
      have hy' : ((y - s.1.toNat : ℕ) : ℤ) = (y : ℤ) - s.1.toNat := by omega
      have hx' : ((x - s.2.toNat : ℕ) : ℤ) = (x : ℤ) - s.2.toNat := by omega
      rcases idx_cases G (y - s.1.toNat) (x - s.2.toNat) with ⟨hi, hm⟩ | ⟨i, hi, hidx, hcell⟩
      · rw [hy', hx'] at hm
        exact .inl ⟨hi, hm⟩
      · refine .inr ⟨i, hi, hidx, ?_, ?_⟩ <;> rw [hcell] <;> simp only <;> omega
    · simp only [if_neg hbox]
      refine .inl ⟨trivial, not_marked_of_outside fun hb => hbox ?_⟩
      simp only [Plane.box, Box.Has] at hb ⊢
      omega

def Differs (G F : Plane Bool) (laid : Laid) (c : Cell) : Prop :=
  F.box.Has c.1 c.2 ∧ ¬ (G.Marked (c.1 - laid.off.1, c.2 - laid.off.2) ↔ F.Marked c)

lemma Over.differs_iff (h : Over G F laid) (hy : y < F.H) (hx : x < F.W) :
    Differs G F laid ((y : ℤ), (x : ℤ)) ↔ (decide (laid.oi y x ≥ 0) != F.cell y x) = true := by
  have hG : G.Marked ((y : ℤ) - laid.off.1, (x : ℤ) - laid.off.2) ↔ laid.oi y x ≥ 0 := by
    rcases h.cell y hy x hx with ⟨hoi, hm⟩ | ⟨i, hi, hoi, hcy, hcx⟩
    · exact iff_of_false hm (by omega)
    · have hmem := mem_of_getElem? (cellAt_eq hi)
      refine iff_of_true (marked_iff.mpr ⟨cellAt G i, hmem, Prod.ext ?_ ?_⟩) (by omega) <;> simp only <;> omega
  have hbox : F.box.Has (y : ℤ) (x : ℤ) := Plane.has_nat.mpr ⟨hy, hx⟩
  rw [Differs, and_iff_right hbox, hG, Plane.marked_nat hy hx]
  by_cases hoi : laid.oi y x ≥ 0 <;> cases F.cell y x <;> simp [hoi]

lemma Over.kept (h : Over G F laid) (hf : Field G f) (hi : i < (Space.of G).N)
    (hy : y = (cellAt G i).1 + laid.off.1) (hx : x = (cellAt G i).2 + laid.off.2)
    (hfar : ∀ c, Differs G F laid c → (f i : ℤ) < sqDist ((y : ℤ), (x : ℤ)) c) :
    NearestIn (fun c => ¬ F.Marked c) ((y : ℤ), (x : ℤ)) (f i) := by
  set t : Cell := ((laid.off.1 : ℤ), (laid.off.2 : ℤ)) with ht
  have hplace : (((cellAt G i).1 : ℤ), ((cellAt G i).2 : ℤ)) = (((y : ℤ), (x : ℤ)) - t : Cell) := by
    refine Prod.ext ?_ ?_ <;> simp only [ht, Prod.fst_sub, Prod.snd_sub] <;> omega
  have hold := hf i hi
  rw [hplace] at hold
  refine (hold.shift (S := fun c => ¬ G.Marked (c - t)) fun _ => Iff.rfl).unchanged (fun c hc => ?_) hfar
  by_cases hbox : F.box.Has c.1 c.2
  · exact not_congr (not_not.mp fun hne => hc ⟨hbox, hne⟩)
  · refine iff_of_true (not_marked_of_outside fun hG => hbox ?_) (not_marked_of_outside hbox)
    have hrows := h.rows
    have hcols := h.cols
    simp only [ht, Plane.box, Box.Has, Prod.fst_sub, Prod.snd_sub] at hG ⊢
    omega

lemma searchRow_le_iff {v : ℕ} (hi : i < (Space.of F).N) :
    searchRow (Space.of F) v ≤ i ↔ v ≤ (cellAt F i).1 := by
  have key : ∀ {l : List (ℕ × ℕ)} {i : ℕ} {e : ℕ × ℕ}, l.Pairwise RowMajor → l[i]? = some e →
      ((l.countP fun c => decide (c.1 < v)) ≤ i ↔ v ≤ e.1) := by
    intro l
    induction l with
    | nil => exact fun _ h => nomatch h
    | cons a l ih =>
      intro i e hord he
      obtain ⟨ha, hord⟩ := pairwise_cons.mp hord
      rw [countP_cons]
      by_cases hav : a.1 < v
      · rw [if_pos (decide_eq_true hav)]
        cases i with
        | zero =>
          cases he
          omega
        | succ i => rw [Nat.succ_le_succ_iff, ih hord he]
      · have hnone : (l.countP fun c => decide (c.1 < v)) = 0 := countP_eq_zero.mpr fun c hc => by
          have := ha c hc
          unfold RowMajor at this
          rw [decide_eq_true_eq]
          omega
        rw [hnone, if_neg (by rwa [decide_eq_true_eq])]
        refine iff_of_true (Nat.zero_le _) ?_
        rcases mem_cons.mp (mem_of_getElem? he) with rfl | hmem
        · omega
        · have := ha e hmem
          unfold RowMajor at this
          omega
  exact key (cells_ordered F) (cellAt_eq hi)

lemma Over.exists_old (h : Over G F laid) (hi : i < (Space.of F).N)
    (hsame : ¬ Differs G F laid ((cellAt F i).1, (cellAt F i).2)) : ∃ k < (Space.of G).N,
      laid.oi (cellAt F i).1 (cellAt F i).2 = k ∧ (cellAt F i).1 = (cellAt G k).1 + laid.off.1 ∧
      (cellAt F i).2 = (cellAt G k).2 + laid.off.2 := by
  obtain ⟨hy, hx⟩ := cellAt_lt hi
  have hmarked : F.Marked ((cellAt F i).1, (cellAt F i).2) :=
    marked_iff.mpr ⟨_, mem_of_getElem? (cellAt_eq hi), rfl⟩
  rcases h.cell _ hy _ hx with ⟨-, hm⟩ | hk
  · exact absurd ⟨Plane.has_nat.mpr ⟨hy, hx⟩, fun hiff => hm (hiff.mpr hmarked)⟩ hsame
  · exact hk

lemma Over.kept_outside (h : Over G F laid) (hf : Field G f)
    (hbox : ∀ c, Differs G F laid c → b.Has c.1 c.2) (hi : i < (Space.of F).N)
    (hw : ¬ (b.grow (margin ⟨Space.of G, f⟩ laid.off b 6 0) F.H F.W).Has (cellAt F i).1 (cellAt F i).2) :
    ∃ k : ℕ, laid.oi (cellAt F i).1 (cellAt F i).2 = k ∧
      NearestIn (fun c => ¬ F.Marked c) ((cellAt F i).1, (cellAt F i).2) (f k) := by
  obtain ⟨hy, hx⟩ := cellAt_lt hi
  set g := margin ⟨Space.of G, f⟩ laid.off b 6 0 with hg
  simp only [Box.grow, Box.Has] at hw
  have hsame : ¬ Differs G F laid ((cellAt F i).1, (cellAt F i).2) := fun hd => by
    have := hbox _ hd
    simp only [Box.Has] at this
    omega
  obtain ⟨k, hk, hoi, hcy, hcx⟩ := h.exists_old hi hsame
  refine ⟨k, hoi, h.kept hf hk hcy hcx fun c hc => ?_⟩
  have hout : out ⟨Space.of G, f⟩ laid.off b g k = true := by
    have hget : (cellsOf G).getD k (0, 0) = cellAt G k := rfl
    simp only [out, Space.of_cells, hget, Bool.or_eq_true, decide_eq_true_eq]
    omega
  have hlt : f k < g ^ 2 := lt_margin hk 6 0 hout
  have hin := hbox c hc
  simp only [Box.Has] at hin
  have hside : (g : ℤ) ≤ |((cellAt F i).1 : ℤ) - c.1| ∨ (g : ℤ) ≤ |((cellAt F i).2 : ℤ) - c.2| := by
    have h₁ := abs_cases (((cellAt F i).1 : ℤ) - c.1)
    have h₂ := abs_cases (((cellAt F i).2 : ℤ) - c.2)
    omega
  have hsq := sq_le_sqDist (a := (((cellAt F i).1 : ℤ), ((cellAt F i).2 : ℤ))) hside
  have hcast : (f k : ℤ) < (g : ℤ) ^ 2 := by exact_mod_cast hlt
  exact hcast.trans_le hsq

lemma lay_shift (h₁ : shift.1 ≥ 0) (h₂ : shift.2 ≥ 0) (h₃ : shift.1 + G.H ≤ F.H)
    (h₄ : shift.2 + G.W ≤ F.W) : ∃ laid, lay (some ⟨Space.of G, f⟩) (Space.of F) shift = some laid ∧
      ((laid.off.1 : ℤ), (laid.off.2 : ℤ)) = shift := by
  simp only [lay, bind_eq_bind, bind_some, List.findSome?_cons, Space.of_H, Space.of_W]
  rw [if_pos ⟨h₁, h₂, h₃, h₄⟩]
  by_cases hsame : shift = (0, 0) ∧ G.H = F.H ∧ G.W = F.W
  · rw [if_pos hsame]
    exact ⟨_, rfl, hsame.1.symm⟩
  · rw [if_neg hsame]
    exact ⟨_, rfl, Prod.ext (Int.toNat_of_nonneg h₁) (Int.toNat_of_nonneg h₂)⟩

/-- Laid anywhere on a canvas, a grid with its exact distances gives the exact distances of any other
grid on that canvas, and the window is found within three tries. -/
theorem distance_exact (he : Exact edt) (hf : Field G f) (F : Plane Bool) (shift : ℤ × ℤ) :
    (shift.1 ≥ 0 → shift.2 ≥ 0 → shift.1 + G.H ≤ F.H → shift.2 + G.W ≤ F.W →
      ∃ laid, lay (some ⟨Space.of G, f⟩) (Space.of F) shift = some laid ∧
        ((laid.off.1 : ℤ), (laid.off.2 : ℤ)) = shift) ∧
    ∀ laid, lay (some ⟨Space.of G, f⟩) (Space.of F) shift = some laid →
      ∃ f', (∀ fuel ≥ 3, distance edt F (Space.of F) ⟨Space.of G, f⟩ laid fuel = some f') ∧ Field F f' := by
  refine ⟨lay_shift, fun laid hlay => ?_⟩
  have hover := over_of_lay hlay
  set old : ℕ → ℕ := fun i => if laid.oi (cellAt F i).1 (cellAt F i).2 ≥ 0 then
    f (laid.oi (cellAt F i).1 (cellAt F i).2).toNat else 0 with hdef
  have hold : ∀ i k : ℕ, laid.oi (cellAt F i).1 (cellAt F i).2 = k → old i = f k := by
    intro i k hk
    rw [hdef]
    simp only [hk, if_pos (Int.natCast_nonneg k), Int.toNat_natCast]
  have hin : ∀ c, Differs G F laid c → ∃ y x : ℕ, c = ((y : ℤ), (x : ℤ)) ∧ F.box.Has y x ∧
      (decide (laid.oi y x ≥ 0) != F.cell y x) = true := by
    intro c hc
    obtain ⟨y, x, hy, hx, hyH, hxW⟩ := Plane.exists_nat hc.1
    obtain rfl : c = (↑y, ↑x) := Prod.ext hy hx
    exact ⟨y, x, rfl, hc.1, (hover.differs_iff hyH hxW).mp hc⟩
  rcases bounding_spec (fun y x => decide (laid.oi y x ≥ 0) != F.cell y x) F.box with
    ⟨hb, hnone⟩ | ⟨b, hb, hall, -, hby, hbH, -, hbx, hbW, -⟩
  · have hsame : ∀ c, ¬ Differs G F laid c := fun c hc => by
      obtain ⟨y, x, rfl, hbox, hm⟩ := hin c hc
      exact Bool.eq_false_iff.mp (hnone y x hbox) hm
    refine ⟨old, fun fuel _ => ?_, fun i hi => ?_⟩
    · simp only [distance, hb]
      rfl
    · obtain ⟨k, hk, hoi, hcy, hcx⟩ := hover.exists_old hi (hsame _)
      rw [hold i k hoi]
      exact hover.kept hf hk hcy hcx fun c hc => absurd hc (hsame c)
  · set w := b.grow (margin ⟨Space.of G, f⟩ laid.off b 6 0) F.H F.W with hw
    have hcanvas : OnCanvas F w := by
      simp only [Plane.box] at hbH hbW
      simp only [OnCanvas, hw, Box.grow]
      omega
    obtain ⟨inner, hinner⟩ := transformed_ends he hcanvas (margin ⟨Space.of G, f⟩ laid.off b 6 0 + 2)
    refine ⟨fun i => if searchRow (Space.of F) w.y0 ≤ i ∧ i < searchRow (Space.of F) w.y1 ∧
        w.x0 ≤ (cellAt F i).2 ∧ (cellAt F i).2 < w.x1 then inner ((cellAt F i).1 - w.y0) ((cellAt F i).2 - w.x0) else old i,
      fun fuel hfuel => ?_, fun i hi => ?_⟩
    · obtain ⟨fuel, rfl⟩ := Nat.exists_eq_add_of_le' hfuel
      simp only [distance, hb, ← hw, hinner fuel, bind_eq_bind, bind_some]
      rfl
    · have hsel : (searchRow (Space.of F) w.y0 ≤ i ∧ i < searchRow (Space.of F) w.y1 ∧ w.x0 ≤ (cellAt F i).2 ∧
          (cellAt F i).2 < w.x1) ↔ w.Has (cellAt F i).1 (cellAt F i).2 := by
        rw [searchRow_le_iff hi, ← not_le, searchRow_le_iff hi, Box.Has]
        omega
      by_cases hwin : w.Has (cellAt F i).1 (cellAt F i).2
      · beta_reduce
        rw [if_pos (hsel.mpr hwin)]
        exact transformed_exact he hcanvas (hinner 0) hwin
      · beta_reduce
        rw [if_neg fun h => hwin (hsel.mp h)]
        obtain ⟨k, hoi, hnear⟩ := hover.kept_outside hf (fun c hc => by
          obtain ⟨y, x, rfl, hbox, hm⟩ := hin c hc
          exact hall y x hbox hm) hi hwin
        rw [hold i k hoi]
        exact hnear

/-- A room that grew to the left and lost a cell. -/
theorem distance_exact_room :
    let G : Plane Bool := ⟨2, 3, fun _ _ => true⟩
    let F : Plane Bool := ⟨3, 4, fun y x => !(y == 1 && x == 2)⟩
    let st : State := ⟨Space.of G, SolverDistance.distance distanceTransform (Space.of G)⟩
    ∃ laid f', lay (some st) (Space.of F) (0, 1) = some laid ∧
      distance distanceTransform F (Space.of F) st laid 3 = some f' ∧ Field F f' := by
  intro G F st
  obtain ⟨hlay, hexact⟩ :=
    distance_exact distanceTransform_exact (distance_field distanceTransform_exact G) F (0, 1)
  obtain ⟨laid, hlaid, -⟩ := hlay (by decide) (by decide) (by decide) (by decide)
  obtain ⟨f', hf', hfield⟩ := hexact laid hlaid
  exact ⟨laid, f', hlaid, hf' 3 le_rfl, hfield⟩

end PartitionSolver
end CloudServer.SolverDistance
