import CloudServer.Planar
import Mathlib.Order.Bounds.Basic

/-! Distances between points and segments, and crossing segments, as the planners test them. A distance is
compared through its square. The distance of two segments is the least one between a point of each, and
a route hits an obstacle exactly when one of its points is that close. -/
namespace CloudServer.BlockedGeometry
open Planar

variable {𝕜 : Type*} [Field 𝕜] [LinearOrder 𝕜]

/-- `hypot(..) <= r`, for the square of the hypotenuse. -/
def within (sq r : 𝕜) : Bool := 0 ≤ r ∧ sq ≤ r ^ 2

def pointSegmentSq (p a b : 𝕜 × 𝕜) : 𝕜 := sqDist p (along a b (nearest a b p))

/-- The segments cross properly: the ends of each lie strictly on two sides of the other. -/
def segmentsIntersect (a b c d : 𝕜 × 𝕜) : Bool :=
  let d1 := cross c d a
  let d2 := cross c d b
  let d3 := cross a b c
  let d4 := cross a b d
  ((0 < d1 ∧ d2 < 0) ∨ (d1 < 0 ∧ 0 < d2)) ∧ ((0 < d3 ∧ d4 < 0) ∨ (d3 < 0 ∧ 0 < d4))

/-- `segment_segment_distance(a, b, c, d) <= r`. -/
def segmentsWithin (a b c d : 𝕜 × 𝕜) (r : 𝕜) : Bool :=
  if segmentsIntersect a b c d then 0 ≤ r
  else within (pointSegmentSq a c d) r || within (pointSegmentSq b c d) r ||
    within (pointSegmentSq c a b) r || within (pointSegmentSq d a b) r

variable [IsStrictOrderedRing 𝕜] {a b c d : 𝕜 × 𝕜} {s r : 𝕜}

theorem opposite_of_between {u v : 𝕜} (h₀ : 0 < s) (h₁ : s < 1) (h : (1 - s) * u + s * v = 0) (hu : u ≠ 0) :
    (0 < u ∧ v < 0) ∨ (u < 0 ∧ 0 < v) := by
  have hs : 0 < 1 - s := sub_pos.mpr h₁
  rcases hu.lt_or_gt with hneg | hpos
  · right
    refine ⟨hneg, by_contra fun hv => ?_⟩
    nlinarith [mul_neg_of_pos_of_neg hs hneg, mul_nonpos_of_nonneg_of_nonpos h₀.le (not_lt.mp hv)]
  · left
    refine ⟨hpos, by_contra fun hv => ?_⟩
    nlinarith [mul_pos hs hpos, mul_nonneg h₀.le (not_lt.mp hv)]

theorem intersect_or_line (h₀ : 0 < s) (h₁ : s < 1) (h₂ : 0 < r) (h₃ : r < 1) (h : along a b s = along c d r) :
    segmentsIntersect a b c d ∨ (cross a b c = 0 ∧ cross a b d = 0) := by
  have hab : (1 - s) * cross c d a + s * cross c d b = 0 := by
    rw [← cross_along, h, cross_self_along]
  have hcd : (1 - r) * cross a b c + r * cross a b d = 0 := by
    rw [← cross_along, ← h, cross_self_along]
  by_cases hc : cross a b c = 0
  · rw [hc, mul_zero, zero_add] at hcd
    exact Or.inr ⟨hc, (mul_eq_zero.mp hcd).resolve_left h₂.ne'⟩
  · left
    have ha : cross c d a ≠ 0 := by
      intro ha
      rw [ha, mul_zero, zero_add] at hab
      have hb := (mul_eq_zero.mp hab).resolve_left h₀.ne'
      have hx : (d.1 - c.1) * cross a b c = 0 := by
        unfold cross at ha hb ⊢
        linear_combination (a.1 - c.1) * hb - (b.1 - c.1) * ha
      have hy : (d.2 - c.2) * cross a b c = 0 := by
        unfold cross at ha hb ⊢
        linear_combination (a.2 - c.2) * hb - (b.2 - c.2) * ha
      have hdx := (mul_eq_zero.mp hx).resolve_right hc
      have hdy := (mul_eq_zero.mp hy).resolve_right hc
      have heq : d = c := Prod.ext (sub_eq_zero.mp hdx) (sub_eq_zero.mp hdy)
      rw [heq, ← add_mul, sub_add_cancel, one_mul] at hcd
      exact hc hcd
    simp only [segmentsIntersect, decide_eq_true_eq]
    exact ⟨opposite_of_between h₀ h₁ hab ha, opposite_of_between h₂ h₃ hcd hc⟩

section
variable {𝕜 : Type*} [Field 𝕜] [LinearOrder 𝕜]

/-- The square of `segment_segment_distance`. -/
def segmentSegmentSq (a b c d : 𝕜 × 𝕜) : 𝕜 :=
  if segmentsIntersect a b c d then 0
  else min (min (pointSegmentSq a c d) (pointSegmentSq b c d)) (min (pointSegmentSq c a b) (pointSegmentSq d a b))

/-- `segment_hits`, its distances compared through their squares. -/
def segmentHits (seg : Option ((𝕜 × 𝕜) × (𝕜 × 𝕜))) (polyline : List (𝕜 × 𝕜)) (half_width : 𝕜) : Bool :=
  match seg, polyline with
  | none, _ => false
  | _, [] => false
  | some (a, b), [p] => within (pointSegmentSq p a b) half_width
  | some (a, b), pts => (pts.zip pts.tail).any fun leg => within (segmentSegmentSq leg.1 leg.2 a b) half_width

def onPolyline : List (𝕜 × 𝕜) → Set (𝕜 × 𝕜)
  | [] => ∅
  | [p] => {p}
  | p :: q :: rest => segment 𝕜 p q ∪ onPolyline (q :: rest)

variable [IsStrictOrderedRing 𝕜] {a b c d p x y : 𝕜 × 𝕜} {s t z w r q : 𝕜}

/-! ### The distance of a point and a segment -/

theorem nearest_mem (a b p : 𝕜 × 𝕜) : 0 ≤ nearest a b p ∧ nearest a b p ≤ 1 := by
  unfold nearest
  dsimp only
  split_ifs
  · exact ⟨le_max_left _ _, max_le zero_le_one (min_le_left _ _)⟩
  · exact ⟨le_rfl, zero_le_one⟩

theorem pointSegmentSq_attained (p a b : 𝕜 × 𝕜) : ∃ x ∈ segment 𝕜 a b, pointSegmentSq p a b = sqDist p x :=
  ⟨_, along_mem (nearest_mem a b p).1 (nearest_mem a b p).2, rfl⟩

theorem pointSegmentSq_le (hx : x ∈ segment 𝕜 a b) : pointSegmentSq p a b ≤ sqDist p x := sqDist_nearest_le hx

omit [LinearOrder 𝕜] [IsStrictOrderedRing 𝕜] in
theorem sqDist_comm (a b : 𝕜 × 𝕜) : sqDist a b = sqDist b a := by
  unfold sqDist
  ring

/-! ### Leaving the square of shares -/

theorem exists_end (h₀ : 0 ≤ s) (h₁ : s ≤ 1) (hz : z ≤ 0 ∨ 1 ≤ z) :
    ∃ u, 0 ≤ u ∧ u ≤ 1 ∧ (s + u * (z - s) = 0 ∨ s + u * (z - s) = 1) := by
  rcases hz with hz | hz
  · rcases (hz.trans h₀).eq_or_lt with he | hlt
    · exact ⟨0, le_rfl, zero_le_one, .inl (by rw [zero_mul, add_zero]; exact le_antisymm (he ▸ hz) h₀)⟩
    · have hpos : 0 < s - z := sub_pos.mpr hlt
      refine ⟨s / (s - z), div_nonneg h₀ hpos.le, (div_le_one hpos).mpr (by linarith), .inl ?_⟩
      field_simp
      ring
  · rcases (h₁.trans hz).eq_or_lt with he | hlt
    · exact ⟨0, le_rfl, zero_le_one, .inr (by rw [zero_mul, add_zero]; exact le_antisymm h₁ (he ▸ hz))⟩
    · have hpos : 0 < z - s := sub_pos.mpr hlt
      refine ⟨(1 - s) / (z - s), div_nonneg (by linarith) hpos.le, (div_le_one hpos).mpr (by linarith), .inr ?_⟩
      field_simp
      ring

def OnEdge (s t : 𝕜) : Prop := (0 ≤ s ∧ s ≤ 1) ∧ (0 ≤ t ∧ t ≤ 1) ∧ ((s = 0 ∨ s = 1) ∨ t = 0 ∨ t = 1)

omit [IsStrictOrderedRing 𝕜] in
theorem OnEdge.swap (h : OnEdge s t) : OnEdge t s := ⟨h.2.1, h.1, h.2.2.symm⟩

/-- A pair of shares that moves to a pair whose first is no inner share meets the edge of the square: where
the first ends, or before that where the second does. -/
theorem exists_edge_left (hs : 0 ≤ s ∧ s ≤ 1) (ht : 0 ≤ t ∧ t ≤ 1) (hz : z ≤ 0 ∨ 1 ≤ z) :
    ∃ u, 0 ≤ u ∧ u ≤ 1 ∧ OnEdge (s + u * (z - s)) (t + u * (w - t)) := by
  obtain ⟨u, hu₀, hu₁, hend⟩ := exists_end hs.1 hs.2 hz
  have hin : 0 ≤ s + u * (z - s) ∧ s + u * (z - s) ≤ 1 := by
    rcases hend with he | he <;> rw [he] <;> constructor <;> linarith
  by_cases hw : 0 ≤ t + u * (w - t) ∧ t + u * (w - t) ≤ 1
  · exact ⟨u, hu₀, hu₁, hin, hw, .inl hend⟩
  · have hout : t + u * (w - t) ≤ 0 ∨ 1 ≤ t + u * (w - t) := by
      by_contra hno
      rw [not_or, not_le, not_le] at hno
      exact hw ⟨hno.1.le, hno.2.le⟩
    obtain ⟨v, hv₀, hv₁, hv⟩ := exists_end ht.1 ht.2 hout
    have hform : t + v * (t + u * (w - t) - t) = t + v * u * (w - t) := by ring
    rw [hform] at hv
    have hsform : s + v * u * (z - s) = (1 - v) * s + v * (s + u * (z - s)) := by ring
    refine ⟨v * u, mul_nonneg hv₀ hu₀, mul_le_one₀ hv₁ hu₀ hu₁, ⟨?_, ?_⟩, ?_, .inr hv⟩
    · rw [hsform]
      nlinarith [mul_nonneg (sub_nonneg.mpr hv₁) hs.1, mul_nonneg hv₀ hin.1]
    · rw [hsform]
      nlinarith [mul_le_mul_of_nonneg_left hs.2 (sub_nonneg.mpr hv₁), mul_le_mul_of_nonneg_left hin.2 hv₀]
    · rcases hv with he | he <;> rw [he] <;> constructor <;> linarith

theorem exists_edge (hs : 0 ≤ s ∧ s ≤ 1) (ht : 0 ≤ t ∧ t ≤ 1) (h : (z ≤ 0 ∨ 1 ≤ z) ∨ w ≤ 0 ∨ 1 ≤ w) :
    ∃ u, 0 ≤ u ∧ u ≤ 1 ∧ OnEdge (s + u * (z - s)) (t + u * (w - t)) := by
  rcases h with hz | hw
  · exact exists_edge_left hs ht hz
  · obtain ⟨u, h₀, h₁, hedge⟩ := exists_edge_left (w := z) ht hs hw
    exact ⟨u, h₀, h₁, hedge.swap⟩

/-! ### Where two lines meet -/

def turn (a b c d : 𝕜 × 𝕜) : 𝕜 := (b.1 - a.1) * (d.2 - c.2) - (b.2 - a.2) * (d.1 - c.1)

omit [LinearOrder 𝕜] [IsStrictOrderedRing 𝕜] in
theorem meet_of_turn (h : turn a b c d ≠ 0) :
    along a b (cross c d a / (cross c d a - cross c d b)) = along c d (cross a b c / (cross a b c - cross a b d)) := by
  have h₁ : cross c d a - cross c d b = turn a b c d := by
    unfold cross turn
    ring
  have h₂ : cross a b c - cross a b d = - turn a b c d := by
    unfold cross turn
    ring
  rw [h₁, h₂]
  unfold along
  refine Prod.ext ?_ ?_
  · simp only
    field_simp
    unfold cross turn
    ring
  · simp only
    field_simp
    unfold cross turn
    ring

theorem share_of_signs {u v : 𝕜} (h : (0 < u ∧ v < 0) ∨ (u < 0 ∧ 0 < v)) : 0 < u / (u - v) ∧ u / (u - v) < 1 := by
  rcases h with ⟨hu, hv⟩ | ⟨hu, hv⟩
  · have hpos : 0 < u - v := by linarith
    exact ⟨div_pos hu hpos, (div_lt_one hpos).mpr (by linarith)⟩
  · have hneg : u - v < 0 := by linarith
    exact ⟨div_pos_of_neg_of_neg hu hneg, (div_lt_one_of_neg hneg).mpr (by linarith)⟩

theorem signs_of_share {u v : 𝕜} (hne : u - v ≠ 0) (h₀ : 0 < u / (u - v)) (h₁ : u / (u - v) < 1) :
    (0 < u ∧ v < 0) ∨ (u < 0 ∧ 0 < v) := by
  have hu : u / (u - v) * (u - v) = u := div_mul_cancel₀ u hne
  have hv : (u / (u - v) - 1) * (u - v) = v := by
    rw [sub_mul, hu]
    ring
  rcases hne.lt_or_gt with hneg | hpos
  · have hu' := mul_neg_of_pos_of_neg h₀ hneg
    have hv' := mul_pos_of_neg_of_neg (sub_neg.mpr h₁) hneg
    rw [hu] at hu'
    rw [hv] at hv'
    exact .inr ⟨hu', hv'⟩
  · have hu' := mul_pos h₀ hpos
    have hv' := mul_neg_of_neg_of_pos (sub_neg.mpr h₁) hpos
    rw [hu] at hu'
    rw [hv] at hv'
    exact .inl ⟨hu', hv'⟩

theorem sqDist_toward {u k : 𝕜} (h₁ : (along a b z).1 - (along c d w).1 = k * ((along a b s).1 - (along c d t).1))
    (h₂ : (along a b z).2 - (along c d w).2 = k * ((along a b s).2 - (along c d t).2)) :
    sqDist (along a b (s + u * (z - s))) (along c d (t + u * (w - t))) =
      (1 - u + u * k) ^ 2 * sqDist (along a b s) (along c d t) := by
  have hx : (along a b (s + u * (z - s))).1 - (along c d (t + u * (w - t))).1 =
      (1 - u + u * k) * ((along a b s).1 - (along c d t).1) := by
    unfold along at h₁ ⊢
    linear_combination u * h₁
  have hy : (along a b (s + u * (z - s))).2 - (along c d (t + u * (w - t))).2 =
      (1 - u + u * k) * ((along a b s).2 - (along c d t).2) := by
    unfold along at h₂ ⊢
    linear_combination u * h₂
  unfold sqDist
  rw [hx, hy]
  ring

theorem edge_of_factor {k : 𝕜} (hs : 0 ≤ s ∧ s ≤ 1) (ht : 0 ≤ t ∧ t ≤ 1) (h : (z ≤ 0 ∨ 1 ≤ z) ∨ w ≤ 0 ∨ 1 ≤ w)
    (hk : 0 ≤ k ∧ k ≤ 1) (h₁ : (along a b z).1 - (along c d w).1 = k * ((along a b s).1 - (along c d t).1))
    (h₂ : (along a b z).2 - (along c d w).2 = k * ((along a b s).2 - (along c d t).2)) :
    ∃ s' t', OnEdge s' t' ∧ sqDist (along a b s') (along c d t') ≤ sqDist (along a b s) (along c d t) := by
  obtain ⟨u, hu₀, hu₁, hedge⟩ := exists_edge hs ht h
  refine ⟨_, _, hedge, ?_⟩
  rw [sqDist_toward h₁ h₂]
  have hlow : 0 ≤ 1 - u + u * k := add_nonneg (sub_nonneg.mpr hu₁) (mul_nonneg hu₀ hk.1)
  have hhigh : 1 - u + u * k ≤ 1 := by nlinarith [mul_le_mul_of_nonneg_left hk.2 hu₀]
  exact mul_le_of_le_one_left (sqDist_nonneg _ _) (pow_le_one₀ hlow hhigh)

/-- Unless the segments cross properly, two of their points are no closer than two of which one is an end:
parallel segments are slid along each other, others are moved towards the point where their lines meet. -/
theorem exists_edge_le (hno : segmentsIntersect a b c d = false) (hs : 0 ≤ s ∧ s ≤ 1) (ht : 0 ≤ t ∧ t ≤ 1) :
    ∃ s' t', OnEdge s' t' ∧ sqDist (along a b s') (along c d t') ≤ sqDist (along a b s) (along c d t) := by
  by_cases hturn : turn a b c d = 0
  · by_cases hab : a = b
    · subst hab
      refine ⟨0, t, ⟨⟨le_rfl, zero_le_one⟩, ht, .inl (.inl rfl)⟩, le_of_eq ?_⟩
      unfold along
      simp only [sub_self, mul_zero]
    · have hline : cross a b (a.1 + (d.1 - c.1), a.2 + (d.2 - c.2)) = 0 := by
        unfold turn at hturn
        unfold cross
        linear_combination hturn
      obtain ⟨k, hk⟩ := exists_share hab hline
      obtain ⟨hk₁, hk₂⟩ := Prod.ext_iff.mp hk
      refine edge_of_factor (z := s - k * t) (w := 0) (k := 1) hs ht (.inr (.inl le_rfl)) ⟨zero_le_one, le_rfl⟩ ?_ ?_
      · unfold along at hk₁ ⊢
        dsimp only at hk₁ ⊢
        linear_combination t * hk₁
      · unfold along at hk₂ ⊢
        dsimp only at hk₂ ⊢
        linear_combination t * hk₂
  · have hmeet := meet_of_turn hturn
    have hd₁ : cross c d a - cross c d b ≠ 0 := by
      rwa [show cross c d a - cross c d b = turn a b c d by unfold cross turn; ring]
    have hd₂ : cross a b c - cross a b d ≠ 0 := by
      rw [show cross a b c - cross a b d = -turn a b c d by unfold cross turn; ring]
      exact neg_ne_zero.mpr hturn
    refine edge_of_factor (k := 0) hs ht ?_ ⟨le_rfl, zero_le_one⟩ (by rw [hmeet]; ring) (by rw [hmeet]; ring)
    by_contra hin
    simp only [not_or, not_le] at hin
    obtain ⟨⟨hz₀, hz₁⟩, hw₀, hw₁⟩ := hin
    have hyes : segmentsIntersect a b c d = true := by
      simp only [segmentsIntersect, decide_eq_true_eq]
      exact ⟨signs_of_share hd₁ hz₀ hz₁, signs_of_share hd₂ hw₀ hw₁⟩
    rw [hno] at hyes
    cases hyes

/-! ### The distance of two segments -/

theorem meets_of_intersect (h : segmentsIntersect a b c d = true) : Meets a b c d := by
  simp only [segmentsIntersect, decide_eq_true_eq] at h
  obtain ⟨hs₀, hs₁⟩ := share_of_signs h.1
  obtain ⟨ht₀, ht₁⟩ := share_of_signs h.2
  have hturn : turn a b c d ≠ 0 := by
    rw [show turn a b c d = cross c d a - cross c d b by unfold cross turn; ring]
    rcases h.1 with ⟨ha, hb⟩ | ⟨ha, hb⟩
    · exact (sub_pos.mpr (hb.trans ha)).ne'
    · exact (sub_neg.mpr (ha.trans hb)).ne
  exact ⟨_, along_mem hs₀.le hs₁.le, meet_of_turn hturn ▸ along_mem ht₀.le ht₁.le⟩

theorem segmentSegmentSq_le (hx : x ∈ segment 𝕜 a b) (hy : y ∈ segment 𝕜 c d) :
    segmentSegmentSq a b c d ≤ sqDist x y := by
  unfold segmentSegmentSq
  split_ifs with hc
  · exact sqDist_nonneg x y
  · obtain ⟨s, hs₀, hs₁, rfl⟩ := mem_segment_iff.mp hx
    obtain ⟨t, ht₀, ht₁, rfl⟩ := mem_segment_iff.mp hy
    obtain ⟨s', t', ⟨hs, ht, hend⟩, hle⟩ := exists_edge_le (Bool.eq_false_iff.mpr hc) ⟨hs₀, hs₁⟩ ⟨ht₀, ht₁⟩
    refine le_trans ?_ hle
    have h0 : ∀ a b : 𝕜 × 𝕜, along a b 0 = a := fun a b => by simp [along]
    have h1 : ∀ a b : 𝕜 × 𝕜, along a b 1 = b := fun a b => by simp [along]
    have hcd : along c d t' ∈ segment 𝕜 c d := along_mem ht.1 ht.2
    have hab : along a b s' ∈ segment 𝕜 a b := along_mem hs.1 hs.2
    rcases hend with (rfl | rfl) | rfl | rfl
    · rw [h0]
      exact (min_le_left _ _).trans ((min_le_left _ _).trans (pointSegmentSq_le hcd))
    · rw [h1]
      exact (min_le_left _ _).trans ((min_le_right _ _).trans (pointSegmentSq_le hcd))
    · rw [h0, sqDist_comm]
      exact (min_le_right _ _).trans ((min_le_left _ _).trans (pointSegmentSq_le hab))
    · rw [h1, sqDist_comm]
      exact (min_le_right _ _).trans ((min_le_right _ _).trans (pointSegmentSq_le hab))

theorem segmentSegmentSq_attained (a b c d : 𝕜 × 𝕜) :
    ∃ x ∈ segment 𝕜 a b, ∃ y ∈ segment 𝕜 c d, segmentSegmentSq a b c d = sqDist x y := by
  unfold segmentSegmentSq
  split_ifs with hc
  · obtain ⟨x, hx, hy⟩ := meets_of_intersect hc
    exact ⟨x, hx, x, hy, by simp [sqDist]⟩
  · obtain ⟨p, hp, hpe⟩ := pointSegmentSq_attained a c d
    obtain ⟨q, hq, hqe⟩ := pointSegmentSq_attained b c d
    obtain ⟨r, hr, hre⟩ := pointSegmentSq_attained c a b
    obtain ⟨e, he, hee⟩ := pointSegmentSq_attained d a b
    rcases min_choice (min (pointSegmentSq a c d) (pointSegmentSq b c d))
      (min (pointSegmentSq c a b) (pointSegmentSq d a b)) with hm | hm <;> rw [hm]
    · rcases min_choice (pointSegmentSq a c d) (pointSegmentSq b c d) with hm | hm <;> rw [hm]
      · exact ⟨a, left_mem_segment 𝕜 a b, p, hp, hpe⟩
      · exact ⟨b, right_mem_segment 𝕜 a b, q, hq, hqe⟩
    · rcases min_choice (pointSegmentSq c a b) (pointSegmentSq d a b) with hm | hm <;> rw [hm]
      · exact ⟨r, hr, c, left_mem_segment 𝕜 c d, hre.trans (sqDist_comm c r)⟩
      · exact ⟨e, he, d, right_mem_segment 𝕜 c d, hee.trans (sqDist_comm d e)⟩

def Near (r : 𝕜) (X Y : Set (𝕜 × 𝕜)) : Prop := ∃ x ∈ X, ∃ y ∈ Y, 0 ≤ r ∧ sqDist x y ≤ r ^ 2

theorem within_iff_near : within (segmentSegmentSq a b c d) r = true ↔ Near r (segment 𝕜 a b) (segment 𝕜 c d) := by
  simp only [within, decide_eq_true_eq]
  constructor
  · rintro ⟨hr, hle⟩
    obtain ⟨x, hx, y, hy, he⟩ := segmentSegmentSq_attained a b c d
    exact ⟨x, hx, y, hy, hr, he ▸ hle⟩
  · rintro ⟨x, hx, y, hy, hr, hle⟩
    exact ⟨hr, (segmentSegmentSq_le hx hy).trans hle⟩

theorem legs_iff_near (p q : 𝕜 × 𝕜) (rest : List (𝕜 × 𝕜)) :
    (((p :: q :: rest).zip (q :: rest)).any fun leg => within (segmentSegmentSq leg.1 leg.2 a b) r) = true ↔
      Near r (onPolyline (p :: q :: rest)) (segment 𝕜 a b) := by
  have hunion : Near r (onPolyline (p :: q :: rest)) (segment 𝕜 a b) ↔
      Near r (segment 𝕜 p q) (segment 𝕜 a b) ∨ Near r (onPolyline (q :: rest)) (segment 𝕜 a b) := by
    simp only [Near, onPolyline, Set.mem_union, or_and_right, exists_or]
  rw [hunion, List.zip_cons_cons, List.any_cons, Bool.or_eq_true, within_iff_near]
  induction rest generalizing p q with
  | nil =>
    simp only [List.zip_nil_right, List.any_nil, Bool.false_eq_true, or_false]
    refine ⟨.inl, fun h => h.elim id fun ⟨x, hx, hnear⟩ => ⟨x, ?_, hnear⟩⟩
    exact Set.mem_singleton_iff.mp hx ▸ right_mem_segment 𝕜 p q
  | cons e rest ih =>
    have hunion' : Near r (onPolyline (q :: e :: rest)) (segment 𝕜 a b) ↔
        Near r (segment 𝕜 q e) (segment 𝕜 a b) ∨ Near r (onPolyline (e :: rest)) (segment 𝕜 a b) := by
      simp only [Near, onPolyline, Set.mem_union, or_and_right, exists_or]
    rw [List.zip_cons_cons, List.any_cons, Bool.or_eq_true, within_iff_near, hunion']
    exact or_congr Iff.rfl (ih q e hunion')

end

/-- The square of the distance of two segments is the least one between their points, and a route hits an
obstacle exactly when a point of it is within the half width of a point of the obstacle. -/
theorem segment_distance_least :
    (∀ a b c d : ℚ × ℚ, IsLeast {q | ∃ x ∈ segment ℚ a b, ∃ y ∈ segment ℚ c d, q = sqDist x y}
      (segmentSegmentSq a b c d)) ∧
    ∀ (a b : ℚ × ℚ) (polyline : List (ℚ × ℚ)) (half_width : ℚ),
      segmentHits (some (a, b)) polyline half_width = true ↔
        ∃ x ∈ onPolyline polyline, ∃ y ∈ segment ℚ a b, 0 ≤ half_width ∧ sqDist x y ≤ half_width ^ 2 := by
  refine ⟨fun a b c d => ⟨segmentSegmentSq_attained a b c d, ?_⟩, fun a b polyline half_width => ?_⟩
  · rintro q ⟨x, hx, y, hy, rfl⟩
    exact segmentSegmentSq_le hx hy
  · match polyline with
    | [] => simp [segmentHits, onPolyline]
    | [p] =>
      simp only [segmentHits, onPolyline, within, decide_eq_true_eq, Set.mem_singleton_iff, exists_eq_left]
      obtain ⟨x, hx, he⟩ := pointSegmentSq_attained p a b
      constructor
      · exact fun ⟨hr, hle⟩ => ⟨x, hx, hr, he ▸ hle⟩
      · exact fun ⟨y, hy, hr, hle⟩ => ⟨hr, (pointSegmentSq_le hy).trans hle⟩
    | p :: q :: rest => exact legs_iff_near p q rest

end CloudServer.BlockedGeometry
