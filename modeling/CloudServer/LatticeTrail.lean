import Mathlib

/-! Ways over the cells of a lattice, with straight and diagonal steps, and the distances they give. -/
namespace CloudServer.LatticeTrail

def Straight (c d : ℤ × ℤ) : Prop := (c.1 = d.1 ∧ |c.2 - d.2| = 1) ∨ (c.2 = d.2 ∧ |c.1 - d.1| = 1)

def Diagonal (c d : ℤ × ℤ) : Prop := |c.1 - d.1| = 1 ∧ |c.2 - d.2| = 1

/-- Steps from `u` over the cells, counted by their kind. -/
inductive Trail (cells : ℤ × ℤ → Prop) (u : ℤ × ℤ) : ℤ × ℤ → ℕ → ℕ → Prop
  | here : cells u → Trail cells u u 0 0
  | straight {v w : ℤ × ℤ} {s t : ℕ} : Trail cells u v s t → Straight v w → cells w → Trail cells u w (s + 1) t
  | diagonal {v w : ℤ × ℤ} {s t : ℕ} : Trail cells u v s t → Diagonal v w → cells w → Trail cells u w s (t + 1)

variable {cells : ℤ × ℤ → Prop} {u v w : ℤ × ℤ} {s t s' t' : ℕ}

theorem Straight.symm (h : Straight u v) : Straight v u := by
  unfold Straight at *
  rwa [abs_sub_comm, abs_sub_comm v.1, eq_comm, eq_comm (a := v.2)]

theorem Diagonal.symm (h : Diagonal u v) : Diagonal v u := by
  unfold Diagonal at *
  rwa [abs_sub_comm, abs_sub_comm v.2]

theorem Trail.mem (h : Trail cells u v s t) : cells v := by
  cases h with
  | here h => exact h
  | straight _ _ h | diagonal _ _ h => exact h

theorem Trail.source (h : Trail cells u v s t) : cells u := by
  induction h with
  | here h => exact h
  | straight _ _ _ ih | diagonal _ _ _ ih => exact ih

theorem Trail.trans (h : Trail cells u v s t) (h' : Trail cells v w s' t') :
    Trail cells u w (s + s') (t + t') := by
  induction h' with
  | here _ => exact h
  | straight _ hstep hw ih => exact ih.straight hstep hw
  | diagonal _ hstep hw ih => exact ih.diagonal hstep hw

theorem Trail.symm (h : Trail cells u v s t) : Trail cells v u s t := by
  induction h with
  | here h => exact .here h
  | straight h hstep hw ih =>
    have hback := ((Trail.here hw).straight hstep.symm h.mem).trans ih
    rwa [zero_add, zero_add, add_comm] at hback
  | diagonal h hstep hw ih =>
    have hback := ((Trail.here hw).diagonal hstep.symm h.mem).trans ih
    rwa [zero_add, zero_add, add_comm] at hback

theorem Trail.near (h : Trail cells u v s t) : |v.1 - u.1| ≤ s + t ∧ |v.2 - u.2| ≤ s + t := by
  induction h with
  | here _ => simp
  | straight _ hstep _ ih =>
    simp only [Straight, abs_le, abs_eq zero_le_one] at ih hstep ⊢
    push_cast
    omega
  | diagonal _ hstep _ ih =>
    simp only [Diagonal, abs_le, abs_eq zero_le_one] at ih hstep ⊢
    push_cast
    omega

theorem Trail.line {e : ℤ × ℤ} (h : Trail cells u v s t) (he : (e.1 = 0 ∧ |e.2| = 1) ∨ (e.2 = 0 ∧ |e.1| = 1))
    (n : ℕ) (hcells : ∀ i : ℕ, i ≤ n → cells (v.1 + i * e.1, v.2 + i * e.2)) :
    Trail cells u (v.1 + n * e.1, v.2 + n * e.2) (s + n) t := by
  induction n with
  | zero => simpa using h
  | succ n ih =>
    refine (ih fun i hi => hcells i (hi.trans n.le_succ)).straight ?_ (hcells (n + 1) le_rfl)
    unfold Straight
    push_cast
    rcases he with ⟨h₁, h₂⟩ | ⟨h₁, h₂⟩
    · left
      refine ⟨by rw [h₁]; ring, ?_⟩
      rw [show v.2 + n * e.2 - (v.2 + (n + 1) * e.2) = -e.2 by ring, abs_neg, h₂]
    · right
      refine ⟨by rw [h₁]; ring, ?_⟩
      rw [show v.1 + n * e.1 - (v.1 + (n + 1) * e.1) = -e.1 by ring, abs_neg, h₂]

variable {𝕜 : Type*} [Field 𝕜] [LinearOrder 𝕜] {root h d e : 𝕜}

/-- The length of a way on a lattice of step `h`, where a diagonal step costs `root` steps. -/
def cost (root h : 𝕜) (s t : ℕ) : 𝕜 := h * (s + t * root)

/-- `d` is the length of a shortest way. -/
def Distance (root h : 𝕜) (cells : ℤ × ℤ → Prop) (u v : ℤ × ℤ) (d : 𝕜) : Prop :=
  IsLeast {l | ∃ s t, Trail cells u v s t ∧ cost root h s t = l} d

theorem Distance.linked (hd : Distance root h cells u v d) : ∃ s t, Trail cells u v s t := by
  obtain ⟨s, t, htrail, -⟩ := hd.1
  exact ⟨s, t, htrail⟩

theorem Distance.unique (hd : Distance root h cells u v d) (he : Distance root h cells u v e) : d = e :=
  IsLeast.unique hd he

theorem Distance.symm (hd : Distance root h cells u v d) : Distance root h cells v u d := by
  have hset : {l | ∃ s t, Trail cells u v s t ∧ cost root h s t = l} =
      {l | ∃ s t, Trail cells v u s t ∧ cost root h s t = l} := by
    refine Set.ext fun l => ?_
    constructor
    · rintro ⟨s, t, htrail, hl⟩
      exact ⟨s, t, htrail.symm, hl⟩
    · rintro ⟨s, t, htrail, hl⟩
      exact ⟨s, t, htrail.symm, hl⟩
  rwa [Distance, hset] at hd

variable [IsStrictOrderedRing 𝕜]

theorem cost_mono (hh : 0 ≤ h) (hr : 0 ≤ root) (hs : s ≤ s') (ht : t ≤ t') : cost root h s t ≤ cost root h s' t' := by
  unfold cost
  gcongr

theorem exists_distance (hh : 0 ≤ h) (hr : 0 ≤ root) (htrail : Trail cells u v s t) :
    ∃ d, Distance root h cells u v d := by
  set pairs : Set (ℕ × ℕ) := {p | Trail cells u v p.1 p.2} with hpairs
  have hpwo : (Set.image (fun p : ℕ × ℕ => cost root h p.1 p.2) pairs).IsPWO :=
    Set.IsPWO.image_of_monotone (Set.isPWO_of_wellQuasiOrderedLE pairs)
      fun p q hpq => cost_mono hh hr hpq.1 hpq.2
  have hne : (Set.image (fun p : ℕ × ℕ => cost root h p.1 p.2) pairs).Nonempty :=
    ⟨_, Set.mem_image_of_mem _ (show (s, t) ∈ pairs from htrail)⟩
  refine ⟨hpwo.isWF.min hne, ?_, ?_⟩
  · obtain ⟨p, hp, he⟩ := hpwo.isWF.min_mem hne
    exact ⟨p.1, p.2, hp, he⟩
  · rintro l ⟨s', t', htrail', rfl⟩
    exact hpwo.isWF.min_le hne ⟨(s', t'), htrail', rfl⟩

theorem Distance.self (hh : 0 ≤ h) (hr : 0 ≤ root) (hu : cells u) : Distance root h cells u u 0 := by
  refine ⟨⟨0, 0, .here hu, by simp [cost]⟩, ?_⟩
  rintro l ⟨s, t, -, rfl⟩
  exact mul_nonneg hh (by positivity)

theorem Distance.nonneg (hh : 0 ≤ h) (hr : 0 ≤ root) (hd : Distance root h cells u v d) : 0 ≤ d := by
  obtain ⟨s, t, -, rfl⟩ := hd.1
  exact mul_nonneg hh (by positivity)

theorem Distance.pos (hh : 0 < h) (hr : 0 < root) (hd : Distance root h cells u v d) (hne : u ≠ v) : 0 < d := by
  obtain ⟨s, t, htrail, rfl⟩ := hd.1
  obtain ⟨hx, hy⟩ := htrail.near
  have hcount : 0 < s ∨ 0 < t := by
    by_contra hzero
    refine hne (Prod.ext ?_ ?_)
    · simp only [abs_le] at hx
      omega
    · simp only [abs_le] at hy
      omega
  refine mul_pos hh ?_
  rcases hcount with hs | ht
  · have : (0 : 𝕜) < s := by exact_mod_cast hs
    positivity
  · have : (0 : 𝕜) < t := by exact_mod_cast ht
    positivity

end CloudServer.LatticeTrail
