import CloudServer.SceneLeaf

/-! Resampling a window: what a target cell reads against the source cells its samples fall on. -/
namespace CloudServer.Resample
open SceneLeaf List

section Cell
variable (window : Window) (res : ℚ) (origin : ℚ × ℚ) (yaw : Rotation) (target : ℚ)

def factor : ℕ := max 1 ⌈target / res - 1 / 10 ^ 9⌉.toNat

def firstRow : ℤ :=
  ⌊minOf ([((0 : ℚ), (0 : ℚ)), (window.cols * res, 0), (0, window.rows * res),
    (window.cols * res, window.rows * res)].map fun c =>
      origin.2 + c.1 * yaw.sin + c.2 * yaw.cos) / target⌋

def firstCol : ℤ :=
  ⌊minOf ([((0 : ℚ), (0 : ℚ)), (window.cols * res, 0), (0, window.rows * res),
    (window.cols * res, window.rows * res)].map fun c =>
      origin.1 + c.1 * yaw.cos - c.2 * yaw.sin) / target⌋

/-- The value under the point `(fx, fy)` of a target cell, unknown outside the source window. -/
def under (fx fy : ℚ) (row col : ℕ) : U8 :=
  sample window res origin yaw target (firstCol window res origin yaw target)
    (firstRow window res origin yaw target) fx fy row col

def samples (row col : ℕ) : List U8 :=
  let k := factor res target
  let sub := (List.range k).map fun i : ℕ => ((i : ℚ) + 1 / 2) / k
  sub.flatMap fun fy => sub.map fun fx => under window res origin yaw target fx fy row col

def out (row : Fin (toLattice window res origin yaw target).1.rows)
    (col : Fin (toLattice window res origin yaw target).1.cols) : U8 :=
  (toLattice window res origin yaw target).1.px row col

end Cell

def Blocked (s : U8) : Prop := BLOCKED ≤ s ∧ s ≠ UNKNOWN

instance (s : U8) : Decidable (Blocked s) := inferInstanceAs (Decidable (_ ∧ _))

/-- Blocked wins over free, and free over unknown. -/
structure Priority (samples : List U8) (out : U8) : Prop where
  unknown : out = UNKNOWN ↔ ∀ s ∈ samples, s = UNKNOWN
  blocked : Blocked out ↔ ∃ s ∈ samples, Blocked s
  free : out < BLOCKED ↔ (∃ s ∈ samples, s ≠ UNKNOWN) ∧ ¬∃ s ∈ samples, Blocked s

section Rule
variable {window : Window} {res : ℚ} {origin : ℚ × ℚ} {yaw : Rotation} {target : ℚ}

lemma blocked_or (s : U8) : s = UNKNOWN ∨ Blocked s ∨ s < BLOCKED := by
  by_cases hu : s = UNKNOWN
  · exact .inl hu
  · by_cases hb : BLOCKED ≤ s
    · exact .inr (.inl ⟨hb, hu⟩)
    · exact .inr (.inr (not_le.mp hb))

lemma blocked_lt_unknown : BLOCKED < UNKNOWN := by decide

lemma free_ne_unknown {s : U8} (h : s < BLOCKED) : s ≠ UNKNOWN :=
  (h.trans blocked_lt_unknown).ne

lemma free_not_blocked {s : U8} (h : s < BLOCKED) : ¬Blocked s := fun hb => h.not_ge hb.1

lemma priority_one (s : U8) : Priority [s] s := by
  refine ⟨by simp, by simp, ?_⟩
  simp only [mem_singleton, exists_eq_left]
  constructor
  · exact fun h => ⟨free_ne_unknown h, free_not_blocked h⟩
  · rintro ⟨hu, hb⟩
    rcases blocked_or s with h | h | h
    · exact absurd h hu
    · exact absurd h hb
    · exact h

lemma priority_many {xs : List U8} (hne : xs ≠ []) :
    Priority xs (if xs.any (BLOCKED ≤ ·) then BLOCKED
      else if xs.any (· < BLOCKED) then 0 else UNKNOWN) ↔
      (∃ s ∈ xs, Blocked s) ∨ ∀ s ∈ xs, s ≠ UNKNOWN := by
  have hblocked : Blocked BLOCKED := ⟨le_rfl, blocked_lt_unknown.ne⟩
  by_cases hany : xs.any (BLOCKED ≤ ·) = true
  · rw [if_pos hany]
    obtain ⟨s, hs, hle⟩ := any_eq_true.mp hany
    have hle := of_decide_eq_true hle
    constructor
    · exact fun h => .inl (h.blocked.mp hblocked)
    · intro h
      have hex : ∃ s ∈ xs, Blocked s := by
        rcases h with h | h
        · exact h
        · exact ⟨s, hs, hle, h s hs⟩
      refine ⟨?_, ⟨fun _ => hex, fun _ => hblocked⟩, ?_⟩
      · constructor
        · exact fun he => absurd he blocked_lt_unknown.ne
        · intro hall
          obtain ⟨t, ht, hbt⟩ := hex
          exact absurd (hall t ht) hbt.2
      · constructor
        · exact fun he => absurd he (lt_irrefl _)
        · exact fun hno => absurd hex hno.2
  · have hall : ∀ s ∈ xs, s < BLOCKED := fun s hs => by
      by_contra hno
      exact hany (any_eq_true.mpr ⟨s, hs, decide_eq_true (not_lt.mp hno)⟩)
    obtain ⟨t, ht⟩ := exists_mem_of_ne_nil xs hne
    have hfree : xs.any (· < BLOCKED) = true :=
      any_eq_true.mpr ⟨t, ht, decide_eq_true (hall t ht)⟩
    rw [if_neg hany, if_pos hfree]
    have hzero : (0 : U8) < BLOCKED := by decide
    have hnone : ¬∃ s ∈ xs, Blocked s := fun ⟨s, hs, hb⟩ => free_not_blocked (hall s hs) hb
    constructor
    · exact fun _ => .inr fun s hs => free_ne_unknown (hall s hs)
    · refine fun _ => ⟨?_, ?_, fun _ => ⟨⟨t, ht, free_ne_unknown (hall t ht)⟩, hnone⟩, fun _ => hzero⟩
      · constructor
        · exact fun he => absurd he (free_ne_unknown hzero)
        · exact fun he => absurd (he t ht) (free_ne_unknown (hall t ht))
      · constructor
        · exact fun he => absurd he (free_not_blocked hzero)
        · exact fun he => absurd he hnone

lemma out_eq (row : Fin (toLattice window res origin yaw target).1.rows)
    (col : Fin (toLattice window res origin yaw target).1.cols) :
    out window res origin yaw target row col =
      if factor res target = 1 then (samples window res origin yaw target row col).headD UNKNOWN
      else if (samples window res origin yaw target row col).any (BLOCKED ≤ ·) then BLOCKED
      else if (samples window res origin yaw target row col).any (· < BLOCKED) then 0
      else UNKNOWN := rfl

lemma samples_one (h : factor res target = 1) (row col : ℕ) :
    samples window res origin yaw target row col = [under window res origin yaw target (1 / 2) (1 / 2) row col] := by
  have hhalf : ((0 : ℕ) : ℚ) + 1 / 2 = 1 / 2 := by norm_num
  unfold samples
  dsimp only
  rw [h, range_one, map_singleton, flatMap_singleton, map_singleton, hhalf, Nat.cast_one, div_one]

lemma samples_ne_nil (row col : ℕ) : samples window res origin yaw target row col ≠ [] := by
  have hpos : 0 < factor res target := lt_of_lt_of_le one_pos (le_max_left _ _)
  have hmem : 0 ∈ List.range (factor res target) := mem_range.mpr hpos
  unfold samples
  dsimp only
  refine ne_nil_of_mem (mem_flatMap.mpr ⟨_, mem_map_of_mem hmem,
    mem_map_of_mem (mem_map_of_mem hmem)⟩)

lemma factor_coarse (hres : 0 < res) (h : target ≤ res) : factor res target = 1 := by
  have hdiv : target / res ≤ 1 := (div_le_one hres).mpr h
  have hceil : ⌈target / res - 1 / 10 ^ 9⌉ ≤ 1 := by
    refine Int.ceil_le.mpr ?_
    push_cast
    linarith
  unfold factor
  omega

/-- The target cell has the meant priority, and with a source at least as coarse the value under its
centre, exactly when it is sampled once, has a sample on a blocked cell, or has every sample on a
known cell. -/
theorem priority_kept_iff (row : Fin (toLattice window res origin yaw target).1.rows)
    (col : Fin (toLattice window res origin yaw target).1.cols) :
    (Priority (samples window res origin yaw target row col)
        (out window res origin yaw target row col) ∧
      (0 < res → target ≤ res → out window res origin yaw target row col =
        under window res origin yaw target (1 / 2) (1 / 2) row col)) ↔
    factor res target = 1 ∨ (∃ s ∈ samples window res origin yaw target row col, Blocked s) ∨
      ∀ s ∈ samples window res origin yaw target row col, s ≠ UNKNOWN := by
  rw [out_eq]
  by_cases hone : factor res target = 1
  · rw [if_pos hone, samples_one hone]
    exact ⟨fun _ => .inl hone, fun _ => ⟨priority_one _, fun _ _ => rfl⟩⟩
  · have hcoarse : ∀ u : U8, 0 < res → target ≤ res → u =
        under window res origin yaw target (1 / 2) (1 / 2) row col :=
      fun u hres hle => absurd (factor_coarse hres hle) hone
    rw [if_neg hone, priority_many (samples_ne_nil row col)]
    constructor
    · exact fun h => .inr h.1
    · rintro (h | h)
      · exact absurd h hone
      · exact ⟨h, hcoarse _⟩

def cornerWindow : Window :=
  ⟨2, 2, fun row col => if row.val = 1 ∧ col.val = 1 then UNKNOWN else 0⟩

/-- Three free samples and an unknown one read blocked. -/
theorem unknown_reads_blocked : ¬∀ (window : Window) (res : ℚ) (origin : ℚ × ℚ) (yaw : Rotation)
    (target : ℚ) (row : Fin (toLattice window res origin yaw target).1.rows)
    (col : Fin (toLattice window res origin yaw target).1.cols),
    Priority (samples window res origin yaw target row col)
        (out window res origin yaw target row col) ∧
      (0 < res → target ≤ res → out window res origin yaw target row col =
        under window res origin yaw target (1 / 2) (1 / 2) row col) := by
  intro hall
  have hrows : 0 < (toLattice cornerWindow (1 / 40) (0, 0) ⟨1, 0⟩ (1 / 20)).1.rows := by
    decide +kernel
  have hcols : 0 < (toLattice cornerWindow (1 / 40) (0, 0) ⟨1, 0⟩ (1 / 20)).1.cols := by
    decide +kernel
  have hpriority := (hall cornerWindow (1 / 40) (0, 0) ⟨1, 0⟩ (1 / 20) ⟨0, hrows⟩ ⟨0, hcols⟩).1
  have hsamples : samples cornerWindow (1 / 40) (0, 0) ⟨1, 0⟩ (1 / 20) 0 0 = [0, 0, 0, UNKNOWN] := by
    decide +kernel
  have hout : out cornerWindow (1 / 40) (0, 0) ⟨1, 0⟩ (1 / 20) ⟨0, hrows⟩ ⟨0, hcols⟩ = BLOCKED := by
    rw [out_eq, if_neg (by decide +kernel), hsamples, if_pos (by decide)]
  rw [hout] at hpriority
  obtain ⟨s, hs, hb⟩ := hpriority.blocked.mp ⟨le_rfl, blocked_lt_unknown.ne⟩
  have hs : s ∈ samples cornerWindow (1 / 40) (0, 0) ⟨1, 0⟩ (1 / 20) 0 0 := hs
  rw [hsamples] at hs
  obtain rfl : s = 0 := by simpa [hb.2] using hs
  exact absurd hb.1 (by decide)

end Rule
end CloudServer.Resample
