import Mathlib.Analysis.Convex.Segment
import Mathlib.Analysis.Convex.Basic
import Mathlib.Tactic.Linarith
import Mathlib.Tactic.LinearCombination
import Mathlib.Tactic.FieldSimp

/-! Points and segments of the plane over an ordered field: sides of a line, points of a segment
between two sides, and the point of a segment nearest to a point. -/
namespace CloudServer.Planar

variable {𝕜 : Type*} [Field 𝕜]

/-- Twice the signed area of the triangle `o`, `a`, `b`: on which side of the line `o a` is `b`. -/
def cross (o a b : 𝕜 × 𝕜) : 𝕜 := (a.1 - o.1) * (b.2 - o.2) - (a.2 - o.2) * (b.1 - o.1)

def sqDist (a b : 𝕜 × 𝕜) : 𝕜 := (a.1 - b.1) ^ 2 + (a.2 - b.2) ^ 2

/-- The point at share `t` of the way from `a` to `b`. -/
def along (a b : 𝕜 × 𝕜) (t : 𝕜) : 𝕜 × 𝕜 := (a.1 + t * (b.1 - a.1), a.2 + t * (b.2 - a.2))

variable {a b c d p q x : 𝕜 × 𝕜} {r s t : 𝕜}

theorem cross_along (a b : 𝕜 × 𝕜) (t : 𝕜) :
    cross p q (along a b t) = (1 - t) * cross p q a + t * cross p q b := by
  unfold cross along
  ring

theorem sqDist_along (a b : 𝕜 × 𝕜) (s t : 𝕜) :
    sqDist (along a b s) (along a b t) = (s - t) ^ 2 * sqDist a b := by
  unfold sqDist along
  ring

theorem cross_self_along (a b : 𝕜 × 𝕜) (t : 𝕜) : cross a b (along a b t) = 0 := by
  unfold cross along
  ring

theorem along_along (a b : 𝕜 × 𝕜) (r s t : 𝕜) :
    along (along a b s) (along a b t) r = along a b (s + r * (t - s)) := by
  unfold along
  exact Prod.ext (by ring) (by ring)

theorem along_injective (h : a ≠ b) : Function.Injective (along a b) := by
  intro s t he
  unfold along at he
  obtain ⟨h₁, h₂⟩ := Prod.ext_iff.mp he
  have hx : s * (b.1 - a.1) = t * (b.1 - a.1) := add_left_cancel h₁
  have hy : s * (b.2 - a.2) = t * (b.2 - a.2) := add_left_cancel h₂
  by_cases hb : b.1 - a.1 = 0
  · refine mul_right_cancel₀ (fun hb' => h ?_) hy
    exact Prod.ext (sub_eq_zero.mp hb).symm (sub_eq_zero.mp hb').symm
  · exact mul_right_cancel₀ hb hx

theorem exists_share (h : a ≠ b) (hc : cross a b c = 0) : ∃ t, c = along a b t := by
  unfold cross at hc
  by_cases hx : b.1 - a.1 = 0
  · have hy : b.2 - a.2 ≠ 0 := fun hy => h (Prod.ext (sub_eq_zero.mp hx).symm (sub_eq_zero.mp hy).symm)
    have hcx : c.1 - a.1 = 0 := by
      rw [hx, zero_mul, zero_sub, neg_eq_zero] at hc
      exact (mul_eq_zero.mp hc).resolve_left hy
    refine ⟨(c.2 - a.2) / (b.2 - a.2), Prod.ext ?_ ?_⟩
    · simp only [along, hx, mul_zero, add_zero]
      exact sub_eq_zero.mp hcx
    · simp only [along]
      field_simp
      ring
  · refine ⟨(c.1 - a.1) / (b.1 - a.1), Prod.ext ?_ ?_⟩
    · simp only [along]
      field_simp
      ring
    · simp only [along]
      field_simp
      linear_combination hc

variable [LinearOrder 𝕜]

def Meets (a b c d : 𝕜 × 𝕜) : Prop := (segment 𝕜 a b ∩ segment 𝕜 c d).Nonempty

theorem Meets.swap (h : Meets q p a b) : Meets p q a b := by
  rwa [Meets, segment_symm] at h

variable [IsStrictOrderedRing 𝕜]

theorem mem_segment_iff : x ∈ segment 𝕜 a b ↔ ∃ t, 0 ≤ t ∧ t ≤ 1 ∧ x = along a b t := by
  rw [segment_eq_image']
  constructor
  · rintro ⟨t, ⟨h₀, h₁⟩, rfl⟩
    exact ⟨t, h₀, h₁, rfl⟩
  · rintro ⟨t, h₀, h₁, rfl⟩
    exact ⟨t, ⟨h₀, h₁⟩, rfl⟩

theorem along_mem (h₀ : 0 ≤ t) (h₁ : t ≤ 1) : along a b t ∈ segment 𝕜 a b :=
  mem_segment_iff.mpr ⟨t, h₀, h₁, rfl⟩

theorem along_mem_along (hs : s ≤ t) (ht : t ≤ r) : along a b t ∈ segment 𝕜 (along a b s) (along a b r) := by
  rcases hs.eq_or_lt with rfl | hlt
  · exact left_mem_segment 𝕜 _ _
  · have hpos : 0 < r - s := by linarith
    refine mem_segment_iff.mpr ⟨(t - s) / (r - s), div_nonneg (by linarith) hpos.le, ?_, ?_⟩
    · rw [div_le_one hpos]
      linarith
    · rw [along_along, div_mul_cancel₀ _ hpos.ne', add_sub_cancel]

theorem mem_of_mem (ha : a ∈ segment 𝕜 c d) (hb : b ∈ segment 𝕜 c d) (hx : x ∈ segment 𝕜 a b) :
    x ∈ segment 𝕜 c d :=
  (convex_segment c d).segment_subset ha hb hx

theorem between_of_share {u v : 𝕜} (h₀ : 0 ≤ t) (h₁ : t ≤ 1) :
    min u v ≤ u + t * (v - u) ∧ u + t * (v - u) ≤ max u v := by
  rcases le_total u v with h | h
  · rw [min_eq_left h, max_eq_right h]
    constructor <;> nlinarith
  · rw [min_eq_right h, max_eq_left h]
    constructor <;> nlinarith

theorem box_of_mem (hx : x ∈ segment 𝕜 a b) : (min a.1 b.1 ≤ x.1 ∧ x.1 ≤ max a.1 b.1) ∧
    min a.2 b.2 ≤ x.2 ∧ x.2 ≤ max a.2 b.2 := by
  obtain ⟨t, h₀, h₁, rfl⟩ := mem_segment_iff.mp hx
  exact ⟨between_of_share h₀ h₁, between_of_share h₀ h₁⟩

theorem exists_cross_eq_zero (ha : cross p q a ≤ 0) (hb : 0 ≤ cross p q b) :
    ∃ x ∈ segment 𝕜 a b, cross p q x = 0 := by
  rcases hb.eq_or_lt with hb | hb
  · exact ⟨b, right_mem_segment 𝕜 a b, hb.symm⟩
  · have hpos : 0 < cross p q b - cross p q a := by linarith
    refine ⟨along a b (-cross p q a / (cross p q b - cross p q a)), along_mem ?_ ?_, ?_⟩
    · exact div_nonneg (by linarith) hpos.le
    · rw [div_le_one hpos]
      linarith
    · rw [cross_along]
      field_simp
      ring

theorem mem_of_cross_eq_zero (h : p.2 < q.2) (hx : cross p q x = 0) (hp : p.2 ≤ x.2) (hq : x.2 ≤ q.2) :
    x ∈ segment 𝕜 p q := by
  have hpos : 0 < q.2 - p.2 := sub_pos.mpr h
  refine mem_segment_iff.mpr ⟨(x.2 - p.2) / (q.2 - p.2), div_nonneg (by linarith) hpos.le, ?_, ?_⟩
  · rw [div_le_one hpos]
    linarith
  · unfold cross at hx
    refine Prod.ext ?_ ?_
    · simp only [along]
      field_simp
      linarith
    · simp only [along]
      field_simp
      ring

theorem mem_of_level (h : p.2 = q.2) (hx : x.2 = p.2) (hlo : min p.1 q.1 ≤ x.1) (hhi : x.1 ≤ max p.1 q.1) :
    x ∈ segment 𝕜 p q := by
  have hordered : ∀ p q : 𝕜 × 𝕜, p.2 = q.2 → x.2 = p.2 → p.1 ≤ x.1 → x.1 ≤ q.1 → x ∈ segment 𝕜 p q := by
    intro p q h hx hlo hhi
    rcases hlo.eq_or_lt with he | hlt
    · have hxp : x = p := Prod.ext he.symm hx
      exact hxp ▸ left_mem_segment 𝕜 _ _
    · have hpos : 0 < q.1 - p.1 := by linarith
      refine mem_segment_iff.mpr ⟨(x.1 - p.1) / (q.1 - p.1), div_nonneg (by linarith) hpos.le, ?_, ?_⟩
      · rw [div_le_one hpos]
        linarith
      · refine Prod.ext ?_ ?_
        · simp only [along]
          field_simp
          ring
        · simp only [along]
          rw [hx, h]
          ring
  rcases le_total p.1 q.1 with hle | hle
  · rw [min_eq_left hle] at hlo
    rw [max_eq_right hle] at hhi
    exact hordered p q h hx hlo hhi
  · rw [min_eq_right hle] at hlo
    rw [max_eq_left hle] at hhi
    rw [segment_symm]
    exact hordered q p h.symm (hx.trans h) hlo hhi

theorem sqDist_nonneg (a b : 𝕜 × 𝕜) : 0 ≤ sqDist a b := add_nonneg (sq_nonneg _) (sq_nonneg _)

theorem abs_sub_le_of_sqDist {r : 𝕜} (hr : 0 ≤ r) (h : sqDist a b ≤ r ^ 2) :
    |a.1 - b.1| ≤ r ∧ |a.2 - b.2| ≤ r := by
  unfold sqDist at h
  constructor
  · exact abs_le_of_sq_le_sq (by nlinarith [sq_nonneg (a.2 - b.2)]) hr
  · exact abs_le_of_sq_le_sq (by nlinarith [sq_nonneg (a.1 - b.1)]) hr

/-- The share of the way from `a` to `b` where the point nearest to `p` is; `np.clip`. -/
def nearest (a b p : 𝕜 × 𝕜) : 𝕜 :=
  let n := (b.1 - a.1) * (b.1 - a.1) + (b.2 - a.2) * (b.2 - a.2)
  if 0 < n then max 0 (min 1 (((p.1 - a.1) * (b.1 - a.1) + (p.2 - a.2) * (b.2 - a.2)) / n)) else 0

theorem sq_clip_le {τ : 𝕜} (h₀ : 0 ≤ t) (h₁ : t ≤ 1) : (max 0 (min 1 τ) - τ) ^ 2 ≤ (t - τ) ^ 2 := by
  rcases le_total τ 0 with hτ | hτ
  · rw [min_eq_right (hτ.trans zero_le_one), max_eq_left hτ]
    nlinarith
  · rcases le_total τ 1 with h | h
    · rw [min_eq_right h, max_eq_right hτ, sub_self, zero_pow two_ne_zero]
      exact sq_nonneg _
    · rw [min_eq_left h, max_eq_right zero_le_one]
      nlinarith

theorem sqDist_nearest_le (hx : x ∈ segment 𝕜 a b) :
    sqDist p (along a b (nearest a b p)) ≤ sqDist p x := by
  obtain ⟨t, h₀, h₁, rfl⟩ := mem_segment_iff.mp hx
  set n := (b.1 - a.1) * (b.1 - a.1) + (b.2 - a.2) * (b.2 - a.2) with hn
  by_cases hpos : 0 < n
  · set τ := ((p.1 - a.1) * (b.1 - a.1) + (p.2 - a.2) * (b.2 - a.2)) / n with hτ
    have hne : nearest a b p = max 0 (min 1 τ) := if_pos hpos
    have hmul : τ * n = (p.1 - a.1) * (b.1 - a.1) + (p.2 - a.2) * (b.2 - a.2) :=
      div_mul_cancel₀ _ hpos.ne'
    have hform : ∀ s, sqDist p (along a b s) = (s - τ) ^ 2 * n + (sqDist p a - τ ^ 2 * n) := by
      intro s
      unfold sqDist along
      dsimp only
      rw [hn] at hmul ⊢
      clear_value τ
      linear_combination 2 * s * hmul
    rw [hne, hform, hform]
    have := mul_le_mul_of_nonneg_right (sq_clip_le (τ := τ) h₀ h₁) hpos.le
    linarith
  · have hd : (b.1 - a.1) = 0 ∧ (b.2 - a.2) = 0 := by
      constructor <;> nlinarith [mul_self_nonneg (b.1 - a.1), mul_self_nonneg (b.2 - a.2)]
    have hsame : ∀ s, along a b s = a := fun s => Prod.ext (by simp [along, hd.1]) (by simp [along, hd.2])
    rw [hsame, hsame]

end CloudServer.Planar
