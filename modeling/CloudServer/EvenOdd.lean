import CloudServer.Planar

/-! The even-odd rule: a ray crosses the boundary of a closed polygon an odd number of times inside
it. Along a segment that does not meet the boundary the answer does not change. -/
namespace CloudServer.EvenOdd
open Planar List

section
variable {α : Type*}

theorem countP_xor {f g : α → Bool} (l : List α) :
    (l.countP fun x => xor (f x) (g x)) % 2 = (l.countP f + l.countP g) % 2 := by
  induction l with
  | nil => rfl
  | cons x l ih =>
    simp only [countP_cons]
    cases f x <;> cases g x <;> simp <;> omega

def edges (poly : List α) : List (α × α) := poly.zip (poly.rotate 1)

theorem mem_of_mem_edges {poly : List α} {e : α × α} (h : e ∈ edges poly) : e.1 ∈ poly ∧ e.2 ∈ poly := by
  obtain ⟨h₁, h₂⟩ := of_mem_zip h
  exact ⟨h₁, mem_rotate.mp h₂⟩

theorem exists_edge {poly : List α} {c : α} (h : c ∈ poly) : ∃ e ∈ edges poly, e.1 = c := by
  have hfst : (edges poly).map Prod.fst = poly := by
    rw [edges, map_fst_zip]
    exact (length_rotate poly 1).ge
  rw [← hfst] at h
  obtain ⟨e, he, hc⟩ := mem_map.mp h
  exact ⟨e, he, hc⟩

theorem countP_edges_even (S : α → Bool) (poly : List α) :
    ((edges poly).countP fun e => xor (S e.1) (S e.2)) % 2 = 0 := by
  have hfst : (edges poly).countP (fun e => S e.1) = poly.countP S := by
    have hmap := countP_map (p := S) (f := Prod.fst) (l := edges poly)
    rw [edges, map_fst_zip (length_rotate poly 1).ge] at hmap
    exact hmap.symm
  have hsnd : (edges poly).countP (fun e => S e.2) = poly.countP S := by
    have hmap := countP_map (p := S) (f := Prod.snd) (l := edges poly)
    rw [edges, map_snd_zip (length_rotate poly 1).le] at hmap
    exact hmap.symm.trans ((rotate_perm poly 1).countP_eq S)
  rw [countP_xor, hfst, hsnd]
  omega

end

variable {𝕜 : Type*} [Field 𝕜] [LinearOrder 𝕜]

/-- The ray from `p` in the direction of the first coordinate crosses the edge. -/
def crosses (p : 𝕜 × 𝕜) (e : (𝕜 × 𝕜) × (𝕜 × 𝕜)) : Bool :=
  decide (p.2 < e.1.2) != decide (p.2 < e.2.2) &&
    decide (p.1 < e.1.1 + (p.2 - e.1.2) * (e.2.1 - e.1.1) / (e.2.2 - e.1.2))

def inside (p : 𝕜 × 𝕜) (poly : List (𝕜 × 𝕜)) : Bool :=
  (edges poly).foldl (fun inside e => if crosses p e then !inside else inside) false

theorem foldl_toggle {α : Type*} (f : α → Bool) (l : List α) (s : Bool) :
    l.foldl (fun s e => if f e then !s else s) s = xor s (decide (l.countP f % 2 = 1)) := by
  induction l generalizing s with
  | nil => simp
  | cons e l ih =>
    rw [foldl_cons, ih, countP_cons]
    rcases Nat.mod_two_eq_zero_or_one (l.countP f) with h | h
    all_goals cases f e <;> cases s <;> simp [h, Nat.add_mod]

theorem inside_eq (p : 𝕜 × 𝕜) (poly : List (𝕜 × 𝕜)) :
    inside p poly = decide ((edges poly).countP (crosses p) % 2 = 1) := by
  rw [inside, foldl_toggle, Bool.false_xor]

variable [IsStrictOrderedRing 𝕜] {p q u v : 𝕜 × 𝕜}

theorem exists_at_height {y : 𝕜} (h : decide (y < u.2) ≠ decide (y < v.2)) :
    ∃ e ∈ segment 𝕜 u v, e.2 = y ∧ e.1 = u.1 + (y - u.2) * (v.1 - u.1) / (v.2 - u.2) := by
  have hne : v.2 - u.2 ≠ 0 := by
    intro h0
    rw [sub_eq_zero.mp h0] at h
    exact h rfl
  refine ⟨along u v ((y - u.2) / (v.2 - u.2)), along_mem ?_ ?_, ?_, ?_⟩
  · rcases lt_or_ge y u.2 with hu | hu
    · have hv : v.2 ≤ y := not_lt.mp fun hv => h (by simp [hu, hv])
      exact div_nonneg_of_nonpos (by linarith) (by linarith)
    · have hv : y < v.2 := by_contra fun hv => h (by simp [hu.not_gt, hv])
      exact div_nonneg (by linarith) (by linarith)
  · rcases lt_or_ge y u.2 with hu | hu
    · have hv : v.2 ≤ y := not_lt.mp fun hv => h (by simp [hu, hv])
      rw [div_le_one_of_neg (by linarith)]
      linarith
    · have hv : y < v.2 := by_contra fun hv => h (by simp [hu.not_gt, hv])
      rw [div_le_one (by linarith)]
      linarith
  · simp only [along]
    field_simp
    ring
  · simp only [along]
    ring

theorem exists_side (h : p.2 < q.2) (hm : ¬Meets p q u v) :
    ∃ σ : Bool, ∀ e ∈ segment 𝕜 u v, p.2 ≤ e.2 → e.2 ≤ q.2 → (cross p q e < 0 ↔ σ) := by
  have hsame : ∀ e ∈ segment 𝕜 u v, ∀ f ∈ segment 𝕜 u v, p.2 ≤ e.2 → e.2 ≤ q.2 → p.2 ≤ f.2 →
      f.2 ≤ q.2 → cross p q e < 0 → cross p q f < 0 := by
    intro e he f hf hpe heq hpf hfq hlt
    by_contra hge
    obtain ⟨x, hx, h0⟩ := exists_cross_eq_zero hlt.le (not_lt.mp hge)
    obtain ⟨-, hlo, hhi⟩ := box_of_mem hx
    have hxp : p.2 ≤ x.2 := (le_min hpe hpf).trans hlo
    have hxq : x.2 ≤ q.2 := hhi.trans (max_le heq hfq)
    exact hm ⟨x, mem_of_cross_eq_zero h h0 hxp hxq, mem_of_mem he hf hx⟩
  by_cases hex : ∃ e ∈ segment 𝕜 u v, p.2 ≤ e.2 ∧ e.2 ≤ q.2 ∧ cross p q e < 0
  · obtain ⟨e, he, hpe, heq, hlt⟩ := hex
    exact ⟨true, fun f hf hpf hfq => iff_of_true (hsame e he f hf hpe heq hpf hfq hlt) rfl⟩
  · exact ⟨false, fun f hf hpf hfq => iff_of_false (fun hlt => hex ⟨f, hf, hpf, hfq, hlt⟩) (by simp)⟩

/-- Whether a corner lies at the heights of the segment and on the side the ray goes to. -/
def beside (p q w : 𝕜 × 𝕜) : Bool :=
  decide (p.2 < w.2) && !decide (q.2 < w.2) && decide (cross p q w < 0)

theorem xor_crosses (h : p.2 < q.2) (hm : ¬Meets p q u v) :
    xor (crosses p (u, v)) (crosses q (u, v)) = xor (beside p q u) (beside p q v) := by
  obtain ⟨σ, hσ⟩ := exists_side h hm
  have hp : crosses p (u, v) = ((decide (p.2 < u.2) != decide (p.2 < v.2)) && σ) := by
    by_cases hs : decide (p.2 < u.2) = decide (p.2 < v.2)
    · simp [crosses, hs]
    · obtain ⟨e, he, hy, hx⟩ := exists_at_height hs
      have hside := hσ e he hy.ge (hy.le.trans h.le)
      have hcross : cross p q e < 0 ↔ p.1 < e.1 := by
        unfold cross
        rw [hy, sub_self, mul_zero, zero_sub, neg_lt_zero, mul_pos_iff_of_pos_left (sub_pos.mpr h), sub_pos]
      have hray : decide (p.1 < e.1) = σ := by
        rw [Bool.eq_iff_iff, decide_eq_true_iff]
        exact hcross.symm.trans hside
      simp only [crosses]
      rw [← hx, hray]
  have hq : crosses q (u, v) = ((decide (q.2 < u.2) != decide (q.2 < v.2)) && σ) := by
    by_cases hs : decide (q.2 < u.2) = decide (q.2 < v.2)
    · simp [crosses, hs]
    · obtain ⟨e, he, hy, hx⟩ := exists_at_height hs
      have hside := hσ e he (h.le.trans hy.ge) hy.le
      have hcross : cross p q e < 0 ↔ q.1 < e.1 := by
        have hform : cross p q e = -((q.2 - p.2) * (e.1 - q.1)) := by
          unfold cross
          rw [hy]
          ring
        rw [hform, neg_lt_zero, mul_pos_iff_of_pos_left (sub_pos.mpr h), sub_pos]
      have hray : decide (q.1 < e.1) = σ := by
        rw [Bool.eq_iff_iff, decide_eq_true_iff]
        exact hcross.symm.trans hside
      simp only [crosses]
      rw [← hx, hray]
  have hcorner : ∀ w ∈ segment 𝕜 u v, beside p q w =
      (decide (p.2 < w.2) && !decide (q.2 < w.2) && σ) := by
    intro w hw
    by_cases hpw : p.2 < w.2
    · by_cases hqw : q.2 < w.2
      · simp [beside, hqw]
      · have hside := hσ w hw hpw.le (not_lt.mp hqw)
        simp [beside, hpw, hqw, hside]
    · simp [beside, hpw]
  rw [hp, hq, hcorner u (left_mem_segment 𝕜 u v), hcorner v (right_mem_segment 𝕜 u v)]
  have himp : ∀ w : 𝕜 × 𝕜, q.2 < w.2 → p.2 < w.2 := fun w hw => h.trans hw
  by_cases hqu : q.2 < u.2 <;> by_cases hqv : q.2 < v.2
  · simp [hqu, hqv, himp u hqu, himp v hqv]
  · by_cases hpv : p.2 < v.2 <;> simp [hqu, hqv, himp u hqu, hpv]
  · by_cases hpu : p.2 < u.2 <;> simp [hqu, hqv, himp v hqv, hpu]
  · by_cases hpu : p.2 < u.2 <;> by_cases hpv : p.2 < v.2 <;> simp [hqu, hqv, hpu, hpv]

theorem crosses_level (h : p.2 = q.2) (hm : ¬Meets p q u v) : crosses p (u, v) = crosses q (u, v) := by
  by_cases hs : decide (p.2 < u.2) = decide (p.2 < v.2)
  · simp [crosses, hs, ← h]
  · obtain ⟨e, he, hy, hx⟩ := exists_at_height hs
    have hray : (p.1 < e.1) ↔ q.1 < e.1 := by
      by_contra hne
      refine hm ⟨e, ?_, he⟩
      have hbetween : min p.1 q.1 ≤ e.1 ∧ e.1 ≤ max p.1 q.1 := by
        rcases lt_or_ge p.1 e.1 with hp | hp
        · have hq : e.1 ≤ q.1 := not_lt.mp fun hq => hne (iff_of_true hp hq)
          exact ⟨(min_le_left _ _).trans hp.le, hq.trans (le_max_right _ _)⟩
        · have hq : q.1 < e.1 := by_contra fun hq => hne (iff_of_false hp.not_gt hq)
          exact ⟨(min_le_right _ _).trans hq.le, hp.trans (le_max_left _ _)⟩
      exact mem_of_level h hy hbetween.1 hbetween.2
    have hray' : decide (p.1 < e.1) = decide (q.1 < e.1) := by simp [hray]
    simp only [crosses]
    rw [← h, ← hx, hray']

theorem countP_crosses {poly : List (𝕜 × 𝕜)} (h : p.2 < q.2) (hm : ∀ e ∈ edges poly, ¬Meets p q e.1 e.2) :
    (edges poly).countP (crosses p) % 2 = (edges poly).countP (crosses q) % 2 := by
  have hsum := countP_xor (f := crosses p) (g := crosses q) (edges poly)
  have hbeside := countP_edges_even (beside p q) poly
  rw [← countP_congr (p := fun e => xor (crosses p e) (crosses q e))
    (q := fun e => xor (beside p q e.1) (beside p q e.2))] at hbeside
  · omega
  · intro e he
    rw [← xor_crosses h (hm e he)]

theorem inside_eq_of_apart {poly : List (𝕜 × 𝕜)} (hm : ∀ e ∈ edges poly, ¬Meets p q e.1 e.2) :
    inside p poly = inside q poly := by
  have hm' : ∀ e ∈ edges poly, ¬Meets q p e.1 e.2 := fun e he h => hm e he h.swap
  rw [inside_eq, inside_eq]
  rcases lt_trichotomy p.2 q.2 with h | h | h
  · rw [countP_crosses h hm]
  · rw [countP_congr fun e he => by rw [crosses_level h (hm e he)]]
  · rw [countP_crosses h hm']

end CloudServer.EvenOdd
