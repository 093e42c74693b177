import CloudServer.Clearance
import CloudServer.DistanceRing

/-! What an update reaches, and when a window is enough. -/
namespace CloudServer.Clearance
open Planes List

variable {x y : ℕ} {b : Box}

lemma mem_cellsIn {c : ℕ × ℕ} : c ∈ cellsIn b ↔ b.Has c.1 c.2 := by
  unfold cellsIn
  simp only [mem_flatMap, mem_map, mem_range'_1, Box.Has]
  constructor
  · rintro ⟨y, hy, x, hx, rfl⟩
    omega
  · intro h
    exact ⟨c.1, by omega, c.2, by omega, rfl⟩

lemma le_largestIn {d : Plane ℕ} (h : b.Has y x) : d.cell y x ≤ largestIn d b := by
  have hm : d.cell y x ∈ (cellsIn b).map fun c => d.cell c.1 c.2 :=
    mem_map.mpr ⟨(y, x), mem_cellsIn.mpr h, rfl⟩
  exact le_max_of_le' 0 hm le_rfl

lemma le_ceilSqrt (n : ℕ) : n ≤ ceilSqrt n ^ 2 := by
  unfold ceilSqrt
  split_ifs with h
  · rw [sq, h]
  · exact (Nat.lt_succ_sqrt' n).le

lemma allSet_iff {p : Plane Bool} : allSet p = true ↔ ∀ y < p.H, ∀ x < p.W, p.cell y x = true := by
  unfold allSet
  rw [all_eq_true]
  constructor
  · intro h y hy x hx
    exact h (y, x) (mem_cellsIn.mpr (Plane.has_nat.mpr ⟨hy, hx⟩))
  · rintro h ⟨y, x⟩ hc
    obtain ⟨hy, hx⟩ := Plane.has_nat.mp (mem_cellsIn.mp hc)
    exact h y hy x hx

lemma lt_of_confined {d : Plane ℕ} {t : ℕ} (h : confined d b t = true) (hy : 0 < b.y1) (hx : 0 < b.x1)
    (hyH : y < d.H) (hxW : x < d.W) (hq : OnRing b t ((y : ℤ), (x : ℤ))) :
    d.cell y x < (t - 1) ^ 2 := by
  have hlt := of_decide_eq_true h
  have hside : ∃ s ∈ ring d b t, s.Has y x := by
    simp only [OnRing] at hq
    obtain ⟨hin, hside⟩ := hq
    unfold ring
    simp only [mem_append, mem_ite_nil_right, mem_singleton, Box.grow]
    rcases hside with hs | hs | hs | hs
    · exact ⟨_, Or.inl (Or.inl (Or.inl ⟨by omega, rfl⟩)), by simp only [Box.Has]; omega⟩
    · exact ⟨_, Or.inl (Or.inl (Or.inr ⟨by omega, rfl⟩)), by simp only [Box.Has]; omega⟩
    · exact ⟨_, Or.inl (Or.inr ⟨by omega, rfl⟩), by simp only [Box.Has]; omega⟩
    · exact ⟨_, Or.inr ⟨by omega, rfl⟩, by simp only [Box.Has]; omega⟩
  obtain ⟨s, hs, hcell⟩ := hside
  have hm : largestIn d s ∈ (ring d b t).map (largestIn d) := mem_map_of_mem hs
  exact (le_largestIn hcell).trans_lt ((le_max_of_le' 0 hm le_rfl).trans_lt hlt)

lemma reach_spec (d : Plane ℕ) (b : Box) (fp free : Plane Bool) :
    (reach d b fp free = ceilSqrt (largestIn d d.box) + 1) ∨
      (allSet fp = false ∧ 4 ≤ reach d b fp free ∧ confined d b (reach d b fp free) = true) := by
  unfold reach
  split_ifs with h
  · exact Or.inl rfl
  · cases hf : [4, 8, 16, 32, 64].find? (confined d b) with
    | none => exact Or.inl rfl
    | some t =>
      have hmem := mem_of_find?_eq_some hf
      refine Or.inr ⟨?_, ?_, List.find?_some hf⟩
      · rw [Bool.or_eq_true, not_or] at h
        exact Bool.eq_false_iff.mpr h.1
      · simp only [mem_cons, not_mem_nil, or_false] at hmem
        simp only [Option.getD_some]
        omega

section
variable {edt : Plane Bool → ℕ → ℕ → ℕ} {free : Plane Bool} {E : Box}
variable {fuel fuel' rw : ℕ} {sub : Plane ℕ}

lemma transformed_spec (h : transformed edt free E fuel rw = some sub) :
    ∃ k, rw ≤ k ∧ (E.grow k free.H free.W = free.box ∨ certified free.H free.W (E.grow k free.H free.W) E
        (edt (free.crop (E.grow k free.H free.W))) = true) ∧
      sub = ⟨E.y1 - E.y0, E.x1 - E.x0, fun y x => edt (free.crop (E.grow k free.H free.W))
        (E.y0 - (E.grow k free.H free.W).y0 + y) (E.x0 - (E.grow k free.H free.W).x0 + x)⟩ := by
  induction fuel generalizing rw with
  | zero => cases h
  | succ fuel ih =>
    unfold transformed at h
    dsimp only at h
    split_ifs at h with hc
    · exact ⟨rw, le_rfl, hc, (Option.some.inj h).symm⟩
    · obtain ⟨k, hk, hw, hsub⟩ := ih h
      exact ⟨k, by omega, hw, hsub⟩

lemma transformed_some (hy : E.y0 ≤ free.H) (hx : E.x0 ≤ free.W) (hrw : 0 < rw)
    (hfuel : free.H + free.W + 1 ≤ rw + fuel) (hpos : 0 < fuel) :
    ∃ sub, transformed edt free E fuel rw = some sub := by
  induction fuel generalizing rw with
  | zero => omega
  | succ fuel ih =>
    unfold transformed
    dsimp only
    split_ifs with hc
    · exact ⟨_, rfl⟩
    · have hlt : rw < free.H + free.W := by
        by_contra hge
        refine hc (Or.inl ?_)
        simp only [Box.grow, Plane.box, Box.mk.injEq]
        omega
      exact ih (by omega) (by omega) (by omega)

lemma transformed_succ (h : transformed edt free E fuel rw = some sub) :
    transformed edt free E (fuel + 1) rw = some sub := by
  induction fuel generalizing rw with
  | zero => cases h
  | succ fuel ih =>
    unfold transformed at h ⊢
    dsimp only at h ⊢
    split_ifs at h ⊢ with hc
    · exact h
    · exact ih h

lemma transformed_mono (hle : fuel ≤ fuel')
    (h : transformed edt free E fuel rw = some sub) : transformed edt free E fuel' rw = some sub := by
  induction fuel', hle using Nat.le_induction with
  | base => exact h
  | succ fuel' _ ih => exact transformed_succ ih

lemma sq_le_sqDist {k : ℕ} {a b : Cell} (h : (k : ℤ) ≤ |a.1 - b.1| ∨ (k : ℤ) ≤ |a.2 - b.2|) :
    (k : ℤ) ^ 2 ≤ sqDist a b := by
  have hsq : ∀ {d : ℤ}, (k : ℤ) ≤ |d| → (k : ℤ) ^ 2 ≤ d ^ 2 := by
    intro d hd
    rw [← sq_abs d]
    exact pow_le_pow_left₀ (Int.natCast_nonneg k) hd 2
  unfold sqDist
  rcases h with h | h
  · exact (hsq h).trans (le_add_of_nonneg_right (sq_nonneg _))
  · exact (hsq h).trans (le_add_of_nonneg_left (sq_nonneg _))

lemma le_of_certified {dw : ℕ → ℕ → ℕ} {w : Box} (h : certified free.H free.W w E dw = true)
    (hE : E.Has y x) (hw : w.Has y x) {v u : ℕ} (hv : v < free.H) (hu : u < free.W)
    (hn : ¬ w.Has v u) :
    (dw (y - w.y0) (x - w.x0) : ℤ) ≤ sqDist ((y : ℤ), (x : ℤ)) ((v : ℤ), (u : ℤ)) := by
  obtain ⟨h₁, h₂, h₃, h₄⟩ := of_decide_eq_true (all_eq_true.mp h (y, x) (mem_cellsIn.mpr hE))
  have hside : ∀ {n k : ℕ}, n ≤ k ^ 2 → ((k : ℤ) ≤ |(y : ℤ) - v| ∨ (k : ℤ) ≤ |(x : ℤ) - u|) →
      (n : ℤ) ≤ sqDist ((y : ℤ), (x : ℤ)) ((v : ℤ), (u : ℤ)) := by
    intro n k hnk hk
    have hcast : (n : ℤ) ≤ (k : ℤ) ^ 2 := by exact_mod_cast hnk
    exact hcast.trans (sq_le_sqDist hk)
  simp only [Box.Has] at hw hn
  have habs₁ := abs_cases ((y : ℤ) - v)
  have habs₂ := abs_cases ((x : ℤ) - u)
  by_cases hv₁ : v < w.y0
  · exact hside (h₁ (by omega)) (by omega)
  by_cases hv₂ : w.y1 ≤ v
  · exact hside (h₂ (by omega)) (by omega)
  by_cases hu₁ : u < w.x0
  · exact hside (h₃ (by omega)) (by omega)
  · exact hside (h₄ (by omega)) (by omega)

lemma nearest_of_window (he : Exact edt) {w : Box} (hwy : w.y1 ≤ free.H) (hwx : w.x1 ≤ free.W)
    (hsome : ∃ c, free.Unset c ∧ w.Has c.1 c.2)
    (hcert : w = free.box ∨ certified free.H free.W w E (edt (free.crop w)) = true)
    (hE : E.Has y x) (hw : w.Has y x) :
    NearestIn free.Unset ((y : ℤ), (x : ℤ)) (edt (free.crop w) (y - w.y0) (x - w.x0)) := by
  have hlocal : ∀ {v u : ℕ}, w.Has v u → v - w.y0 < (free.crop w).H ∧ u - w.x0 < (free.crop w).W ∧
      (free.crop w).cell (v - w.y0) (u - w.x0) = free.cell v u ∧
      sqDist ((y - w.y0 : ℕ), (x - w.x0 : ℕ)) ((v - w.y0 : ℕ), (u - w.x0 : ℕ)) =
        sqDist ((y : ℤ), (x : ℤ)) ((v : ℤ), (u : ℤ)) := by
    intro v u h
    simp only [Box.Has] at h hw
    simp only [Plane.crop, sqDist]
    refine ⟨by omega, by omega, ?_, ?_⟩
    · congr 1 <;> omega
    · congr 2 <;> omega
  obtain ⟨c, hc, hcw⟩ := hsome
  obtain ⟨v₀, u₀, rfl, -, -, hm₀⟩ := hc.exists
  obtain ⟨hv₀, hu₀, hcell₀, -⟩ := hlocal hcw
  obtain ⟨hyl, hxl, -, -⟩ := hlocal hw
  have hnear := he (free.crop w) ⟨_, hv₀, _, hu₀, hcell₀.trans hm₀⟩ _ hyl _ hxl
  constructor
  · obtain ⟨c, hc, hn⟩ := hnear.1
    obtain ⟨i, j, rfl, hi, hj, hm⟩ := hc.exists
    simp only [Plane.crop] at hi hj hm
    have hin : w.Has (w.y0 + i : ℕ) (w.x0 + j : ℕ) := by
      simp only [Box.Has]
      omega
    obtain ⟨-, -, -, hsq⟩ := hlocal hin
    refine ⟨((w.y0 + i : ℕ), (w.x0 + j : ℕ)), (Plane.unset_nat (by omega) (by omega)).mpr hm, ?_⟩
    rw [← hsq, Nat.add_sub_cancel_left, Nat.add_sub_cancel_left]
    exact hn
  · rintro n ⟨c, hc, hn⟩
    obtain ⟨v, u, rfl, hv, hu, hm⟩ := hc.exists
    have hle : (edt (free.crop w) (y - w.y0) (x - w.x0) : ℤ) ≤ n := by
      rw [hn]
      by_cases hin : w.Has v u
      · obtain ⟨hvl, hul, hcell, hsq⟩ := hlocal hin
        rw [← hsq]
        exact hnear.le ((Plane.unset_nat hvl hul).mpr (hcell.trans hm))
      · rcases hcert with rfl | hcert
        · exact (hin (Plane.has_nat.mpr ⟨hv, hu⟩)).elim
        · exact le_of_certified hcert hE hw hv hu hin
    exact_mod_cast hle

end

end CloudServer.Clearance
