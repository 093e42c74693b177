import CloudServer.ClearanceRule

/-! An update keeps the distances exact. -/
namespace CloudServer.Clearance
open Planes

def Known (old : Box) (fp : Plane Bool) (c : Cell) : Prop := old.Has c.1 c.2 ∧ ¬ fp.Marked c

structure Change (old : Box) (fp : Plane Bool) (dp : Plane ℕ) (free : Plane Bool) (b : Box) : Prop where
  planes : fp.H = free.H ∧ fp.W = free.W ∧ dp.H = free.H ∧ dp.W = free.W
  canvas : old.y1 ≤ free.H ∧ old.x1 ≤ free.W
  box : b.y0 < b.y1 ∧ b.y1 ≤ free.H ∧ b.x0 < b.x1 ∧ b.x1 ≤ free.W
  same : ∀ y < free.H, ∀ x < free.W, ¬ b.Has y x → fp.cell y x = free.cell y x ∧ old.Has y x

section
variable {edt : Plane Bool → ℕ → ℕ → ℕ} {old b : Box} {fp free : Plane Bool} {dp : Plane ℕ}

lemma known_iff_unset (hH : fp.H = free.H) (hW : fp.W = free.W) (hcanvas : old.y1 ≤ free.H ∧ old.x1 ≤ free.W)
    {c : Cell} (hsame : ∀ y < free.H, ∀ x < free.W, c = ((y : ℤ), (x : ℤ)) →
      fp.cell y x = free.cell y x ∧ old.Has y x) : Known old fp c ↔ free.Unset c := by
  obtain ⟨hrows, hcols⟩ := hcanvas
  constructor
  · rintro ⟨hold, hm⟩
    have hbox : free.box.Has c.1 c.2 := by
      simp only [Box.Has, Plane.box] at hold ⊢
      omega
    obtain ⟨y, x, h₁, h₂, hy, hx⟩ := Plane.exists_nat hbox
    have heq : c = (↑y, ↑x) := Prod.ext h₁ h₂
    have hcell := (hsame y hy x hx heq).1
    subst heq
    rw [Plane.unset_nat hy hx, ← hcell]
    rw [Plane.marked_nat (hy.trans_eq hH.symm) (hx.trans_eq hW.symm), Bool.not_eq_true] at hm
    exact hm
  · intro hu
    obtain ⟨y, x, rfl, hy, hx, hm⟩ := hu.exists
    obtain ⟨hcell, hold⟩ := hsame y hy x hx rfl
    refine ⟨hold, ?_⟩
    rw [Plane.marked_nat (hy.trans_eq hH.symm) (hx.trans_eq hW.symm), hcell, hm]
    exact Bool.false_ne_true

namespace Change

variable (h : Change old fp dp free b)
include h

lemma known_iff {c : Cell} (hc : ¬ b.Has c.1 c.2) : Known old fp c ↔ free.Unset c := by
  obtain ⟨hH, hW, -, -⟩ := h.planes
  refine known_iff_unset hH hW h.canvas fun y hy x hx heq => h.same y hy x hx ?_
  rw [heq] at hc
  exact hc

lemma ring_lt {y x : ℕ} (hy : y < free.H) (hx : x < free.W)
    (hq : OnRing b (reach dp b fp free) ((y : ℤ), (x : ℤ))) : dp.cell y x < reach dp b fp free ^ 2 := by
  obtain ⟨-, -, hdH, hdW⟩ := h.planes
  rcases reach_spec dp b fp free with hr | ⟨-, -, hr⟩
  · have hle := le_largestIn (d := dp) (Plane.has_nat.mpr ⟨hy.trans_eq hdH.symm, hx.trans_eq hdW.symm⟩)
    rw [hr]
    calc dp.cell y x ≤ largestIn dp dp.box := hle
      _ ≤ ceilSqrt (largestIn dp dp.box) ^ 2 := le_ceilSqrt _
      _ < (ceilSqrt (largestIn dp dp.box) + 1) ^ 2 := Nat.pow_lt_pow_left (Nat.lt_succ_self _) two_ne_zero
  · have hbox := h.box
    have hlt := lt_of_confined hr (by omega) (by omega) (hy.trans_eq hdH.symm) (hx.trans_eq hdW.symm) hq
    exact hlt.trans_le (Nat.pow_le_pow_left (Nat.sub_le _ _) 2)

lemma reach_lt (hd : ∀ y x : ℕ, old.Has y x → NearestIn (Known old fp) ((y : ℤ), (x : ℤ)) (dp.cell y x))
    {y x : ℕ} (hy : y < free.H) (hx : x < free.W)
    (hn : ¬ (b.grow (reach dp b fp free) free.H free.W).Has y x) {c : Cell} (hc : b.Has c.1 c.2) :
    (dp.cell y x : ℤ) < sqDist ((y : ℤ), (x : ℤ)) c := by
  obtain ⟨-, -, hdH, hdW⟩ := h.planes
  have hbox := h.box
  have hout : (y : ℤ) < b.y0 - reach dp b fp free ∨ b.y1 - 1 + reach dp b fp free < (y : ℤ) ∨
      (x : ℤ) < b.x0 - reach dp b fp free ∨ b.x1 - 1 + reach dp b fp free < (x : ℤ) := by
    simp only [Box.grow, Box.Has] at hn
    omega
  rcases reach_spec dp b fp free with hr | ⟨-, h4, hr⟩
  · have hle := le_largestIn (d := dp) (Plane.has_nat.mpr ⟨hy.trans_eq hdH.symm, hx.trans_eq hdW.symm⟩)
    have hsq : ((reach dp b fp free : ℕ) : ℤ) ^ 2 ≤ sqDist ((y : ℤ), (x : ℤ)) c := by
      simp only [Box.Has] at hc
      have h₁ := abs_cases ((y : ℤ) - c.1)
      have h₂ := abs_cases ((x : ℤ) - c.2)
      exact sq_le_sqDist (by simp only; omega)
    have hlt : dp.cell y x < reach dp b fp free ^ 2 := by
      rw [hr]
      exact (hle.trans (le_ceilSqrt _)).trans_lt (Nat.pow_lt_pow_left (Nat.lt_succ_self _) two_ne_zero)
    exact lt_of_lt_of_le (by exact_mod_cast hlt) hsq
  · have hyx : ¬ b.Has y x := by
      simp only [Box.Has]
      omega
    refine lt_of_ring (by omega) hc hout (fun q hq h₁ h₂ => ?_) (hd y x (h.same y hy x hx hyx).2)
    have hcanvas : free.box.Has q.1 q.2 := by
      simp only [Between] at h₁ h₂
      simp only [Box.Has, Plane.box] at hc ⊢
      omega
    obtain ⟨v, u, hv, hu, hvH, huW⟩ := Plane.exists_nat hcanvas
    have heq : q = (↑v, ↑u) := Prod.ext hv hu
    subst heq
    refine ⟨_, lt_of_confined hr (by omega) (by omega) (hvH.trans_eq hdH.symm) (huW.trans_eq hdW.symm) hq,
      hd v u (h.same v hvH u huW fun hb => ?_).2⟩
    simp only [OnRing] at hq
    simp only [Box.Has] at hb
    omega

lemma nearest_outside (hd : ∀ y x : ℕ, old.Has y x → NearestIn (Known old fp) ((y : ℤ), (x : ℤ)) (dp.cell y x))
    {y x : ℕ} (hy : y < free.H) (hx : x < free.W)
    (hn : ¬ (b.grow (reach dp b fp free) free.H free.W).Has y x) :
    NearestIn free.Unset ((y : ℤ), (x : ℤ)) (dp.cell y x) := by
  have hbox := h.box
  have hyx : ¬ b.Has y x := by
    simp only [Box.grow, Box.Has] at hn ⊢
    omega
  exact (hd y x (h.same y hy x hx hyx).2).unchanged (R := fun c => b.Has c.1 c.2)
    (fun c hc => h.known_iff hc) fun c hc => h.reach_lt hd hy hx hn hc

lemma window_unset (hd : ∀ y x : ℕ, old.Has y x → NearestIn (Known old fp) ((y : ℤ), (x : ℤ)) (dp.cell y x))
    {E : Box} (hE : E = b.grow (reach dp b fp free) free.H free.W) {k : ℕ} (hk : ceilSqrt (largestIn dp E) ≤ k)
    (hne : E.grow k free.H free.W ≠ free.box) : ∃ c, free.Unset c ∧ (E.grow k free.H free.W).Has c.1 c.2 := by
  have hbox := h.box
  set r := reach dp b fp free with hr
  obtain ⟨v, u, hv, hu, hq, hin⟩ : ∃ v u : ℕ, v < free.H ∧ u < free.W ∧ OnRing b r ((v : ℤ), (u : ℤ)) ∧
      E.Has v u := by
    have hside : r < b.y0 ∨ b.y1 + r < free.H ∨ r < b.x0 ∨ b.x1 + r < free.W := by
      by_contra hn
      refine hne ?_
      simp only [hE, Box.grow, Plane.box, Box.mk.injEq]
      omega
    simp only [hE, OnRing, Box.grow, Box.Has]
    rcases hside with hs | hs | hs | hs
    · exact ⟨b.y0 - r, b.x0, by omega⟩
    · exact ⟨b.y1 - 1 + r, b.x0, by omega⟩
    · exact ⟨b.y0, b.x0 - r, by omega⟩
    · exact ⟨b.y0, b.x1 - 1 + r, by omega⟩
  have hlt := h.ring_lt hv hu hq
  rw [← hr] at hlt
  have hnear : ∀ c : Cell, b.Has c.1 c.2 → (dp.cell v u : ℤ) < sqDist ((v : ℤ), (u : ℤ)) c := by
    intro c hc
    have hsq : (r : ℤ) ^ 2 ≤ sqDist ((v : ℤ), (u : ℤ)) c := by
      simp only [OnRing] at hq
      simp only [Box.Has] at hc
      have h₁ := abs_cases ((v : ℤ) - c.1)
      have h₂ := abs_cases ((u : ℤ) - c.2)
      exact sq_le_sqDist (by simp only; omega)
    exact lt_of_lt_of_le (by exact_mod_cast hlt) hsq
  have hvu : ¬ b.Has v u := by
    intro hb
    have hself := hnear ((v : ℤ), (u : ℤ)) hb
    simp only [sqDist, sub_self] at hself
    omega
  obtain ⟨m, hm, hdist⟩ := (hd v u (h.same v hv u hu hvu).2).1
  have hmb : ¬ b.Has m.1 m.2 := fun hb => (hnear m hb).ne hdist
  have hunset := (h.known_iff hmb).mp hm
  refine ⟨m, hunset, ?_⟩
  have hle : dp.cell v u ≤ k ^ 2 :=
    (le_largestIn hin).trans ((le_ceilSqrt _).trans (Nat.pow_le_pow_left hk 2))
  have hcast : sqDist ((v : ℤ), (u : ℤ)) m ≤ (k : ℤ) ^ 2 := by
    rw [← hdist]
    exact_mod_cast hle
  have hrow : |(v : ℤ) - m.1| ≤ k ∧ |(u : ℤ) - m.2| ≤ k := by
    simp only [sqDist] at hcast
    have h₁ := sq_nonneg ((v : ℤ) - m.1)
    have h₂ := sq_nonneg ((u : ℤ) - m.2)
    exact ⟨abs_le_of_sq_le_sq (by omega) (Int.natCast_nonneg k), abs_le_of_sq_le_sq (by omega) (Int.natCast_nonneg k)⟩
  have hmbox := hunset.1
  simp only [Box.Has] at hin
  simp only [abs_le] at hrow
  simp only [Box.Has, Plane.box] at hmbox
  simp only [Box.grow, Box.Has]
  omega

end Change

lemma Change.exact (h : Change old fp dp free b) (he : Exact edt)
    (hd : (∃ c, Known old fp c) → ∀ y x : ℕ, old.Has y x → NearestIn (Known old fp) ((y : ℤ), (x : ℤ)) (dp.cell y x))
    (hcalm : (∃ c, Known old fp c) ∨ max free.H free.W ≤ reach dp b fp free) (hfree : ∃ c, free.Unset c) {E : Box}
    (hE : E = b.grow (reach dp b fp free) free.H free.W) {fuel : ℕ} {sub : Plane ℕ}
    (hsub : transformed edt free E fuel (ceilSqrt (largestIn dp E) + 2) = some sub) :
    ∀ y < free.H, ∀ x < free.W, NearestIn free.Unset ((y : ℤ), (x : ℤ)) ((dp.paste E sub).cell y x) := by
  intro y hy x hx
  have hbox := h.box
  by_cases hin : E.Has y x
  · have hcell : (dp.paste E sub).cell y x = sub.cell (y - E.y0) (x - E.x0) := if_pos hin
    obtain ⟨k, hk, hcert, rfl⟩ := transformed_spec hsub
    rw [hcell]
    set w := E.grow k free.H free.W with hw
    have hwin : w.Has y x := by
      simp only [hw, Box.grow, Box.Has] at hin ⊢
      omega
    have hsome : ∃ c, free.Unset c ∧ w.Has c.1 c.2 := by
      by_cases hwb : w = free.box
      · obtain ⟨c, hc⟩ := hfree
        exact ⟨c, hc, hwb ▸ hc.1⟩
      · rcases hcalm with hS | hr
        · exact h.window_unset (hd hS) hE (by omega) hwb
        · refine (hwb ?_).elim
          simp only [hw, hE, Box.grow, Plane.box, Box.mk.injEq]
          omega
    have hnear := nearest_of_window he (min_le_left _ _) (min_le_left _ _) hsome hcert hin hwin
    simp only [Box.Has] at hin
    have hrow : E.y0 - w.y0 + (y - E.y0) = y - w.y0 := by
      simp only [hw, Box.grow]
      omega
    have hcol : E.x0 - w.x0 + (x - E.x0) = x - w.x0 := by
      simp only [hw, Box.grow]
      omega
    simp only [hrow, hcol]
    exact hnear
  · have hcell : (dp.paste E sub).cell y x = dp.cell y x := if_neg hin
    rw [hcell]
    rcases hcalm with hS | hr
    · exact h.nearest_outside (hd hS) hy hx (hE ▸ hin)
    · refine (hin ?_).elim
      simp only [hE, Box.grow, Box.Has]
      omega

end

end CloudServer.Clearance
