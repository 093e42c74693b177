import CloudServer.Patches

/-! Distances of lattice cells, and the ring around a box that every way out of it crosses. -/
namespace CloudServer.Planes

noncomputable def gap (a b : Cell) : ℝ := √(sqDist a b : ℝ)

lemma gap_sq (a b : Cell) : gap a b ^ 2 = (sqDist a b : ℝ) :=
  Real.sq_sqrt (Int.cast_nonneg (sqDist_nonneg a b))

lemma gap_nonneg (a b : Cell) : 0 ≤ gap a b := Real.sqrt_nonneg _

lemma gap_eq_norm (a b : Cell) : gap a b = ‖(⟨a.1 - b.1, a.2 - b.2⟩ : ℂ)‖ := by
  unfold gap sqDist
  rw [Complex.norm_def, Complex.normSq_apply]
  push_cast
  rw [sq, sq]

lemma gap_eq_norm_swap (a b : Cell) : gap a b = ‖(⟨a.2 - b.2, a.1 - b.1⟩ : ℂ)‖ := by
  unfold gap sqDist
  rw [Complex.norm_def, Complex.normSq_apply]
  push_cast
  rw [sq, sq, add_comm]

lemma gap_triangle (a b c : Cell) : gap a c ≤ gap a b + gap b c := by
  rw [gap_eq_norm, gap_eq_norm, gap_eq_norm]
  refine le_trans (le_of_eq ?_) (norm_add_le _ _)
  congr 1
  refine Complex.ext ?_ ?_
  · simp
  · simp

variable {c d : Cell} {a b u v : ℤ}

lemma sqDist_lt_iff {a b : Cell} : sqDist a b < sqDist c d ↔ gap a b < gap c d := by
  rw [← Int.cast_lt (R := ℝ), ← gap_sq, ← gap_sq]
  exact pow_lt_pow_iff_left₀ (gap_nonneg a b) (gap_nonneg c d) two_ne_zero

lemma exists_exit (ha : 0 < a) (hu : a < |u|) (hslope : |v| * a ≤ |u| * b) :
    ∃ m : ℤ, |m| ≤ b ∧ (0 ≤ m ∧ m ≤ v ∨ v ≤ m ∧ m ≤ 0) ∧ ‖(⟨u - u.sign * a, v - m⟩ : ℂ)‖ + (a - 1 / 2) ≤ ‖(⟨u, v⟩ : ℂ)‖ := by
  have hupos : (0 : ℝ) < |(u : ℝ)| := by
    rw [← Int.cast_abs]
    exact_mod_cast ha.trans hu
  set r : ℝ := a / |(u : ℝ)| with hr
  have hr0 : 0 ≤ r := div_nonneg (by exact_mod_cast ha.le) hupos.le
  have hr1 : r ≤ 1 := by
    rw [hr, div_le_one hupos, ← Int.cast_abs]
    exact_mod_cast hu.le
  have hru : r * |(u : ℝ)| = a := div_mul_cancel₀ _ hupos.ne'
  have hside : r * u = u.sign * a := by
    have hsign : (u.sign : ℝ) * |(u : ℝ)| = u := by
      rw [← Int.cast_abs]
      exact_mod_cast Int.sign_mul_abs u
    rw [← hru, mul_left_comm, hsign]
  have hwidth : |r * v| ≤ b := by
    rw [abs_mul, abs_of_nonneg hr0, hr, div_mul_eq_mul_div, div_le_iff₀ hupos, mul_comm, mul_comm (b : ℝ),
      ← Int.cast_abs, ← Int.cast_abs]
    exact_mod_cast hslope
  have hround := abs_le.mp (abs_sub_round (r * v))
  set m := round (r * (v : ℝ)) with hm
  have hcast : ∀ {i j : ℤ}, (i : ℝ) ≤ j + 1 / 2 → i ≤ j := by
    intro i j h
    have hlt : (i : ℝ) < j + 1 := by linarith
    exact Int.lt_add_one_iff.mp (by exact_mod_cast hlt)
  have hb := abs_le.mp hwidth
  refine ⟨m, abs_le.mpr ⟨hcast ?_, hcast ?_⟩, ?_, ?_⟩
  · push_cast
    linarith
  · linarith
  · rcases le_total 0 v with hv | hv
    · have hv' : (0 : ℝ) ≤ v := by exact_mod_cast hv
      have h0 := mul_nonneg hr0 hv'
      have h1 := mul_le_of_le_one_left hv' hr1
      exact Or.inl ⟨hcast (by push_cast; linarith), hcast (by linarith)⟩
    · have hv' : (v : ℝ) ≤ 0 := by exact_mod_cast hv
      have h0 := mul_nonpos_of_nonneg_of_nonpos hr0 hv'
      have h1 : (v : ℝ) ≤ r * v := le_mul_of_le_one_left hv' hr1
      exact Or.inr ⟨hcast (by linarith), hcast (by push_cast; linarith)⟩
  · have hsplit : (⟨u - u.sign * a, v - m⟩ : ℂ) = ((1 - r : ℝ) : ℂ) * ⟨u, v⟩ + ⟨0, r * v - m⟩ := by
      refine Complex.ext ?_ ?_
      · simp only [Complex.add_re, Complex.re_ofReal_mul, add_zero]
        linarith
      · simp only [Complex.add_im, Complex.im_ofReal_mul]
        linarith
    have hu' : |(u : ℝ)| ≤ ‖(⟨u, v⟩ : ℂ)‖ := Complex.abs_re_le_norm ⟨u, v⟩
    have hfirst : ‖((1 - r : ℝ) : ℂ) * ⟨u, v⟩‖ = (1 - r) * ‖(⟨u, v⟩ : ℂ)‖ := by
      rw [norm_mul, Complex.norm_real, Real.norm_of_nonneg (by linarith)]
    have hlast : ‖(⟨0, r * v - m⟩ : ℂ)‖ ≤ 1 / 2 := by
      refine (Complex.norm_le_abs_re_add_abs_im _).trans ?_
      simp only [abs_zero, zero_add]
      exact abs_le.mpr hround
    have hnorm := norm_add_le (((1 - r : ℝ) : ℂ) * ⟨u, v⟩) ⟨0, r * v - m⟩
    have hscaled := mul_le_mul_of_nonneg_left hu' hr0
    rw [hsplit]
    linarith

/-- A cell of the border ring at distance `t` around the box. -/
def OnRing (b : Box) (t : ℕ) (q : Cell) : Prop :=
  ((b.y0 : ℤ) - t ≤ q.1 ∧ q.1 ≤ b.y1 - 1 + t ∧ (b.x0 : ℤ) - t ≤ q.2 ∧ q.2 ≤ b.x1 - 1 + t) ∧
    (q.1 = b.y0 - t ∨ q.1 = b.y1 - 1 + t ∨ q.2 = b.x0 - t ∨ q.2 = b.x1 - 1 + t)

/-- `m` lies between `a` and `b`. -/
def Between (a m b : ℤ) : Prop := (a ≤ m ∧ m ≤ b) ∨ b ≤ m ∧ m ≤ a

lemma sign_mul_cases (ha : 0 < a) (h : a < |u|) :
    (0 ≤ u ∧ u.sign * a = a ∧ a < u) ∨ (u < 0 ∧ u.sign * a = -a ∧ a < -u) := by
  rcases abs_cases u with ⟨habs, hu⟩ | ⟨habs, hu⟩
  · rw [Int.sign_eq_one_of_pos (by omega), one_mul]
    exact Or.inl ⟨hu, rfl, by omega⟩
  · rw [Int.sign_eq_neg_one_of_neg hu, neg_one_mul]
    exact Or.inr ⟨hu, rfl, by omega⟩

lemma lt_of_slope (ha : 0 < a) (hb : 0 < b) (hslope : |v| * a ≤ |u| * b)
    (h : a < |u| ∨ b < |v|) : a < |u| := by
  rcases h with h | h
  · exact h
  · by_contra hn
    have h₁ : |u| * b ≤ a * b := Int.mul_le_mul_of_nonneg_right (not_lt.mp hn) hb.le
    have h₂ : b * a < |v| * a := Int.mul_lt_mul_of_pos_right h ha
    rw [mul_comm b] at h₂
    omega

lemma exists_crossing {b : Box} {t : ℕ} (ht : 0 < t) {p : Cell} (hc : b.Has c.1 c.2)
    (hp : p.1 < b.y0 - t ∨ b.y1 - 1 + t < p.1 ∨ p.2 < b.x0 - t ∨ b.x1 - 1 + t < p.2) :
    ∃ q, OnRing b t q ∧ Between c.1 q.1 p.1 ∧ Between c.2 q.2 p.2 ∧ gap p q + (t - 1 / 2) ≤ gap p c := by
  obtain ⟨a₁, ha₁⟩ : ∃ a₁ : ℤ, (0 ≤ p.1 - c.1 → a₁ = b.y1 - 1 + t - c.1) ∧
      (p.1 - c.1 < 0 → a₁ = c.1 - (b.y0 - t)) := by
    by_cases h : 0 ≤ p.1 - c.1
    · exact ⟨_, fun _ => rfl, fun h' => (h'.not_ge h).elim⟩
    · exact ⟨_, fun h' => (h h').elim, fun _ => rfl⟩
  obtain ⟨a₂, ha₂⟩ : ∃ a₂ : ℤ, (0 ≤ p.2 - c.2 → a₂ = b.x1 - 1 + t - c.2) ∧
      (p.2 - c.2 < 0 → a₂ = c.2 - (b.x0 - t)) := by
    by_cases h : 0 ≤ p.2 - c.2
    · exact ⟨_, fun _ => rfl, fun h' => (h'.not_ge h).elim⟩
    · exact ⟨_, fun h' => (h h').elim, fun _ => rfl⟩
  simp only [Box.Has] at hc
  have ht₁ : (t : ℤ) ≤ a₁ := by omega
  have ht₂ : (t : ℤ) ≤ a₂ := by omega
  have hout : a₁ < |p.1 - c.1| ∨ a₂ < |p.2 - c.2| := by
    rcases abs_cases (p.1 - c.1) with h₁ | h₁ <;> rcases abs_cases (p.2 - c.2) with h₂ | h₂ <;> omega
  have hbound : ∀ {a : ℤ}, (t : ℤ) ≤ a → (t : ℝ) ≤ a := fun h => by exact_mod_cast h
  rcases le_total (|p.2 - c.2| * a₁) (|p.1 - c.1| * a₂) with hslope | hslope
  · have hu := lt_of_slope (by omega) (by omega) hslope hout
    obtain ⟨m, hm, hbetween, hnorm⟩ := exists_exit (by omega) hu hslope
    have hsign := sign_mul_cases (by omega) hu
    rw [abs_le] at hm
    set s := (p.1 - c.1).sign * a₁ with hs
    refine ⟨(c.1 + s, c.2 + m), ?_, ?_, ?_, ?_⟩
    · simp only [OnRing]
      omega
    · simp only [Between]
      omega
    · simp only [Between]
      omega
    · have h₁ := hbound ht₁
      have hscast : (s : ℝ) = (p.1 - c.1).sign * a₁ := by
        rw [hs]
        push_cast
        rfl
      rw [gap_eq_norm, gap_eq_norm]
      push_cast at hnorm ⊢
      rw [← hscast] at hnorm
      have hpoint : (⟨p.1 - (c.1 + s), p.2 - (c.2 + m)⟩ : ℂ) = ⟨p.1 - c.1 - s, p.2 - c.2 - m⟩ := by
        rw [sub_sub, sub_sub]
      rw [hpoint]
      linarith
  · have hv := lt_of_slope (by omega) (by omega) hslope hout.symm
    obtain ⟨m, hm, hbetween, hnorm⟩ := exists_exit (by omega) hv hslope
    have hsign := sign_mul_cases (by omega) hv
    rw [abs_le] at hm
    set s := (p.2 - c.2).sign * a₂ with hs
    refine ⟨(c.1 + m, c.2 + s), ?_, ?_, ?_, ?_⟩
    · simp only [OnRing]
      omega
    · simp only [Between]
      omega
    · simp only [Between]
      omega
    · have h₂ := hbound ht₂
      have hscast : (s : ℝ) = (p.2 - c.2).sign * a₂ := by
        rw [hs]
        push_cast
        rfl
      rw [gap_eq_norm_swap, gap_eq_norm_swap]
      push_cast at hnorm ⊢
      rw [← hscast] at hnorm
      have hpoint : (⟨p.2 - (c.2 + s), p.1 - (c.1 + m)⟩ : ℂ) = ⟨p.2 - c.2 - s, p.1 - c.1 - m⟩ := by
        rw [sub_sub, sub_sub]
      rw [hpoint]
      linarith

section
variable {S T R : Cell → Prop} {p : Cell} {n : ℕ}

lemma NearestIn.le (h : NearestIn S p n) (hc : S c) : (n : ℤ) ≤ sqDist p c := by
  have hn : ((sqDist p c).toNat : ℤ) = sqDist p c := Int.toNat_of_nonneg (sqDist_nonneg p c)
  rw [← hn]
  exact_mod_cast h.2 ⟨c, hc, hn⟩

lemma sqDist_sub (a c t : Cell) : sqDist (a - t) (c - t) = sqDist a c := by
  rw [sub_eq_add_neg, sub_eq_add_neg, sqDist_shift]

lemma NearestIn.shift {t : Cell} (h : NearestIn T (p - t) n) (hST : ∀ c, S c ↔ T (c - t)) : NearestIn S p n := by
  have hset : {n : ℕ | ∃ c, S c ∧ (n : ℤ) = sqDist p c} = {n : ℕ | ∃ c, T c ∧ (n : ℤ) = sqDist (p - t) c} := by
    ext k
    constructor
    · rintro ⟨c, hc, hk⟩
      exact ⟨c - t, (hST c).mp hc, by rw [sqDist_sub]; exact hk⟩
    · rintro ⟨c, hc, hk⟩
      refine ⟨c + t, (hST _).mpr (by rwa [add_sub_cancel_right]), ?_⟩
      rwa [← sqDist_sub p (c + t) t, add_sub_cancel_right]
  unfold NearestIn
  rw [hset]
  exact h

lemma NearestIn.unchanged (h : NearestIn S p n) (hST : ∀ c, ¬ R c → (S c ↔ T c))
    (hR : ∀ c, R c → (n : ℤ) < sqDist p c) : NearestIn T p n := by
  obtain ⟨m, hm, hnm⟩ := h.1
  have hRm : ¬ R m := fun hr => (hR m hr).ne hnm
  refine ⟨⟨m, (hST m hRm).mp hm, hnm⟩, ?_⟩
  rintro k ⟨c, hc, hk⟩
  have hle : (n : ℤ) ≤ sqDist p c := by
    by_cases hr : R c
    · exact (hR c hr).le
    · exact h.le ((hST c hr).mpr hc)
  rw [← hk] at hle
  exact_mod_cast hle

lemma lt_of_ring {b : Box} {t : ℕ} (ht : 0 < t) (hc : b.Has c.1 c.2)
    (hp : p.1 < b.y0 - t ∨ b.y1 - 1 + t < p.1 ∨ p.2 < b.x0 - t ∨ b.x1 - 1 + t < p.2)
    (hring : ∀ q, OnRing b t q → Between c.1 q.1 p.1 → Between c.2 q.2 p.2 →
      ∃ k < (t - 1) ^ 2, NearestIn S q k) (h : NearestIn S p n) : (n : ℤ) < sqDist p c := by
  obtain ⟨q, hq, h₁, h₂, hgap⟩ := exists_crossing ht hc hp
  obtain ⟨k, hk, ⟨m, hm, hkm⟩, -⟩ := hring q hq h₁ h₂
  have hqm : gap q m < t - 1 := by
    have ht1 : (1 : ℝ) ≤ t := by exact_mod_cast ht
    have hsq : gap q m ^ 2 < ((t : ℝ) - 1) ^ 2 := by
      rw [gap_sq, ← hkm]
      have hcast : (k : ℝ) < ((t - 1 : ℕ) : ℝ) ^ 2 := by exact_mod_cast hk
      rw [Nat.cast_sub ht, Nat.cast_one] at hcast
      exact_mod_cast hcast
    exact lt_of_pow_lt_pow_left₀ 2 (by linarith) hsq
  have htri := gap_triangle p q m
  refine lt_of_le_of_lt (h.le hm) (sqDist_lt_iff.mpr ?_)
  linarith

end

end CloudServer.Planes
