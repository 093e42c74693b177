import Mathlib

/-! Greedy merging of adjacent regions, smallest persistence first. -/
namespace CloudServer.Merging

open List

universe u v

/-- Numbers whose subtraction is monotone, rounded or exact. -/
class MonoSub (𝕜 : Type u) [LinearOrder 𝕜] [Sub 𝕜] : Prop where
  sub_le_sub : ∀ a b c d : 𝕜, a ≤ b → d ≤ c → a - c ≤ b - d

instance (priority := low) {𝕜 : Type u} [AddCommGroup 𝕜] [LinearOrder 𝕜] [IsOrderedAddMonoid 𝕜] :
    MonoSub 𝕜 where
  sub_le_sub _ _ _ _ h h' := sub_le_sub h h'

variable {ι : Type v} {𝕜 : Type u} [LinearOrder ι] [LinearOrder 𝕜] [Sub 𝕜]

structure Peaks (ι : Type v) (𝕜 : Type u) where
  value : ι → 𝕜
  rank : ι → ℕ

/-- The saddle between two regions, `⊥` when they are not adjacent. -/
abbrev Saddles (ι : Type v) (𝕜 : Type u) := ι → ι → WithBot 𝕜

abbrev Merge (ι : Type v) (𝕜 : Type u) := 𝕜 × ι × ι

abbrev Key (ι : Type v) (𝕜 : Type u) := 𝕜 ×ₗ 𝕜ᵒᵈ ×ₗ ℕ ×ₗ ℕ ×ₗ ι ×ₗ ι

def key (P : Peaks ι 𝕜) (a b : ι) (s : 𝕜) : Key ι 𝕜 :=
  toLex (min (P.value a) (P.value b) - s, toLex (OrderDual.toDual s,
    toLex (min (P.rank a) (P.rank b), toLex (max (P.rank a) (P.rank b), toLex (a, b)))))

def persistence (P : Peaks ι 𝕜) (a b : ι) (s : 𝕜) : 𝕜 := min (P.value a) (P.value b) - s

def elder (P : Peaks ι 𝕜) (a b : ι) : ι :=
  if P.value b < P.value a ∨ P.value a = P.value b ∧ P.rank a ≤ P.rank b then a else b

def younger (P : Peaks ι 𝕜) (a b : ι) : ι :=
  if P.value b < P.value a ∨ P.value a = P.value b ∧ P.rank a ≤ P.rank b then b else a

/-- The saddles once `drop` has been joined to `keep`. -/
def merged (S : Saddles ι 𝕜) (keep drop : ι) : Saddles ι 𝕜 := fun x y =>
  if x = drop ∨ y = drop ∨ x = y then ⊥
  else if x = keep then max (S keep y) (S drop y)
  else if y = keep then max (S x keep) (S x drop)
  else S x y

def Below (limit : WithTop 𝕜) (p : 𝕜) : Prop := (p : WithTop 𝕜) < limit

instance (limit : WithTop 𝕜) : DecidablePred (Below limit) := fun p =>
  inferInstanceAs (Decidable ((p : WithTop 𝕜) < limit))

structure Symmetric (S : Saddles ι 𝕜) : Prop where
  symm : ∀ x y, S x y = S y x
  irrefl : ∀ x, S x x = ⊥

/-- `(a, b)` is the adjacent pair of the least key. -/
structure Least (P : Peaks ι 𝕜) (S : Saddles ι 𝕜) (a b : ι) (s : 𝕜) : Prop where
  lt : a < b
  saddle : S a b = s
  least : ∀ c d t, c < d → S c d = (t : 𝕜) → key P a b s ≤ key P c d t

/-- The merges below the limit from the saddles `S`, and the saddles left. -/
inductive Greedy (P : Peaks ι 𝕜) (limit : WithTop 𝕜) :
    Saddles ι 𝕜 → List (Merge ι 𝕜) → Saddles ι 𝕜 → Prop
  | stop {S : Saddles ι 𝕜} (h : ∀ a b s, a < b → S a b = (s : 𝕜) → ¬ Below limit (persistence P a b s)) :
      Greedy P limit S [] S
  | merge {S T : Saddles ι 𝕜} {a b : ι} {s : 𝕜} {out : List (Merge ι 𝕜)} (h : Least P S a b s)
      (hp : Below limit (persistence P a b s))
      (rest : Greedy P limit (merged S (elder P a b) (younger P a b)) out T) :
      Greedy P limit S ((persistence P a b s, elder P a b, younger P a b) :: out) T

section
omit [LinearOrder ι] [Sub 𝕜]

lemma elder_younger (P : Peaks ι 𝕜) (a b : ι) :
    elder P a b = a ∧ younger P a b = b ∨ elder P a b = b ∧ younger P a b = a := by
  unfold elder younger
  split_ifs with h
  · exact .inl ⟨rfl, rfl⟩
  · exact .inr ⟨rfl, rfl⟩

lemma value_younger_le (P : Peaks ι 𝕜) (a b : ι) :
    P.value (younger P a b) ≤ P.value (elder P a b) := by
  unfold elder younger
  split_ifs with h
  · rcases h with h | h
    · exact h.le
    · exact h.1.ge
  · rw [not_or] at h
    exact not_lt.mp h.1

end

omit [LinearOrder ι] in
lemma persistence_comm (P : Peaks ι 𝕜) (a b : ι) (s : 𝕜) :
    persistence P a b s = persistence P b a s := by
  unfold persistence
  rw [min_comm]

variable {S S₀ T T' : Saddles ι 𝕜} {P : Peaks ι 𝕜} {out out' : List (Merge ι 𝕜)} {limit : WithTop 𝕜}
variable {a b c d drop keep x y : ι} {s t : 𝕜}

lemma persistence_le_of_key
    (h : key P a b s ≤ key P c d t) : persistence P a b s ≤ persistence P c d t := by
  rw [Prod.Lex.le_iff] at h
  rcases h with h | h
  · exact h.le
  · exact h.1.le

omit [LinearOrder ι] in
lemma key_injective (h : key P a b s = key P c d t) :
    a = c ∧ b = d ∧ s = t := by
  have h := congrArg ofLex h
  simp only [key, ofLex_toLex, Prod.mk.injEq, toLex_inj, OrderDual.toDual_inj] at h
  exact ⟨h.2.2.2.2.1, h.2.2.2.2.2, h.2.1⟩

lemma Least.unique (h : Least P S a b s) (h' : Least P S c d t) : a = c ∧ b = d ∧ s = t :=
  key_injective (le_antisymm (h.least c d t h'.lt h'.saddle) (h'.least a b s h.lt h.saddle))

theorem Greedy.deterministic (h : Greedy P limit S out T) (h' : Greedy P limit S out' T') :
    out = out' ∧ T = T' := by
  induction h generalizing out' with
  | stop hs =>
    cases h' with
    | stop => exact ⟨rfl, rfl⟩
    | merge hl hp => exact absurd hp (hs _ _ _ hl.lt hl.saddle)
  | merge hl hp _ ih =>
    cases h' with
    | stop hs => exact absurd hp (hs _ _ _ hl.lt hl.saddle)
    | merge hl' _ rest =>
      obtain ⟨rfl, rfl, rfl⟩ := hl.unique hl'
      obtain ⟨rfl, rfl⟩ := ih rest
      exact ⟨rfl, rfl⟩

omit [Sub 𝕜] in
lemma Symmetric.merged (h : Symmetric S) (keep drop : ι) :
    Symmetric (merged S keep drop) := by
  refine ⟨fun x y => ?_, fun x => ?_⟩
  · unfold Merging.merged
    have hxy := h.symm x y
    have hx := h.symm x keep
    have hd := h.symm x drop
    have hy := h.symm keep y
    have he := h.symm drop y
    split_ifs <;> simp_all
  · unfold Merging.merged
    simp

/-- All adjacent pairs have persistence at least `q`. -/
def Floor (P : Peaks ι 𝕜) (S : Saddles ι 𝕜) (q : 𝕜) : Prop :=
  ∀ x y s, S x y = (s : 𝕜) → q ≤ persistence P x y s

section
variable [MonoSub 𝕜]

omit [LinearOrder ι] in
lemma persistence_mono {x' : ι} (s : 𝕜) (h : P.value x ≤ P.value x') :
    persistence P x y s ≤ persistence P x' y s :=
  MonoSub.sub_le_sub _ _ _ _ (min_le_min_right _ h) le_rfl

lemma Floor.merged {q : 𝕜} (h : Floor P S q)
    (hk : P.value drop ≤ P.value keep) : Floor P (merged S keep drop) q := by
  intro x y s hs
  unfold Merging.merged at hs
  split_ifs at hs with h₁ h₂ h₃
  · cases hs
  · subst h₂
    rcases max_choice (S x y) (S drop y) with hm | hm
    · exact h x y s (hm ▸ hs)
    · exact (h drop y s (hm ▸ hs)).trans (persistence_mono s hk)
  · subst h₃
    rcases max_choice (S x y) (S x drop) with hm | hm
    · exact h x y s (hm ▸ hs)
    · refine (h x drop s (hm ▸ hs)).trans ?_
      rw [persistence_comm P x drop, persistence_comm P x y]
      exact persistence_mono s hk
  · exact h x y s hs

omit [MonoSub 𝕜] in
lemma Least.floor (h : Least P S a b s) (hS : Symmetric S) : Floor P S (persistence P a b s) := by
  intro x y t ht
  rcases lt_trichotomy x y with hxy | rfl | hxy
  · exact persistence_le_of_key (h.least x y t hxy ht)
  · rw [hS.irrefl] at ht
    cases ht
  · rw [hS.symm] at ht
    rw [persistence_comm P x y]
    exact persistence_le_of_key (h.least y x t hxy ht)

lemma Greedy.floor {q : 𝕜} (h : Greedy P limit S out T) (hq : Floor P S q) :
    ∀ m ∈ out, q ≤ m.1 := by
  induction h with
  | stop => simp
  | @merge _ _ a b s _ hl _ _ ih =>
    intro m hm
    rcases mem_cons.mp hm with rfl | hm
    · exact hq a b s hl.saddle
    · exact ih (hq.merged (value_younger_le P a b)) m hm

theorem Greedy.sorted (h : Greedy P limit S out T) (hS : Symmetric S) :
    (out.map Prod.fst).Pairwise (· ≤ ·) := by
  induction h with
  | stop => exact List.Pairwise.nil
  | @merge _ _ a b s _ hl _ rest ih =>
    rw [map_cons, pairwise_cons]
    refine ⟨fun p hp => ?_, ih (hS.merged _ _)⟩
    obtain ⟨m, hm, rfl⟩ := mem_map.mp hp
    exact rest.floor ((hl.floor hS).merged (value_younger_le P a b)) m hm

variable {limit' : WithTop 𝕜}

omit [MonoSub 𝕜] in
theorem Greedy.takeWhile (h : Greedy P limit S out T) (h' : Greedy P limit' S out' T')
    (hle : limit ≤ limit') (hS : Symmetric S) :
    out'.takeWhile (fun m => decide (Below limit m.1)) = out := by
  induction h generalizing out' with
  | stop hs =>
    cases h' with
    | stop => rfl
    | merge hl =>
      have hno := hs _ _ _ hl.lt hl.saddle
      rw [takeWhile_cons_of_neg]
      simpa using hno
  | merge hl hp _ ih =>
    cases h' with
    | stop hs => exact absurd (lt_of_lt_of_le hp hle) (hs _ _ _ hl.lt hl.saddle)
    | merge hl' _ rest =>
      obtain ⟨rfl, rfl, rfl⟩ := hl.unique hl'
      rw [takeWhile_cons_of_pos (by simpa using hp), ih rest (hS.merged _ _)]
end

/-- The region that stands for `x` after the merges. -/
def survivor (out : List (Merge ι 𝕜)) (x : ι) : ι :=
  out.foldl (fun x m => if x = m.2.2 then m.2.1 else x) x

omit [LinearOrder 𝕜] [Sub 𝕜] in
lemma survivor_cons (m : Merge ι 𝕜) (out : List (Merge ι 𝕜)) (x : ι) :
    survivor (m :: out) x = survivor out (if x = m.2.2 then m.2.1 else x) := rfl

/-- `S` bounds the original saddles between the groups that `r` names. -/
def Covers (S₀ S : Saddles ι 𝕜) (r : ι → ι) : Prop :=
  ∀ x y, r x ≠ r y → S₀ x y ≤ S (r x) (r y)

section
omit [Sub 𝕜]

lemma merged_keep (hne : keep ≠ drop) (hd : y ≠ drop)
    (hk : y ≠ keep) : merged S keep drop keep y = max (S keep y) (S drop y) := by
  unfold merged
  rw [if_neg (by tauto), if_pos rfl]

lemma merged_other (hS : Symmetric S)
    (ha : a ≠ keep ∧ a ≠ drop) (hb : b ≠ keep ∧ b ≠ drop) : merged S keep drop a b = S a b := by
  unfold merged
  by_cases h : a = b
  · rw [if_pos (.inr (.inr h)), h, hS.irrefl]
  · rw [if_neg (by tauto), if_neg ha.1, if_neg hb.1]

lemma merged_ne_drop (h : merged S keep drop a b = s) : a ≠ drop ∧ b ≠ drop ∧ a ≠ b := by
  unfold merged at h
  split_ifs at h with h₁
  · cases h
  all_goals
    rw [not_or, not_or] at h₁
    exact h₁

lemma le_merged (hx : x ≠ drop) (hy : y ≠ drop) (hxy : x ≠ y) : S x y ≤ merged S keep drop x y := by
  unfold merged
  rw [if_neg (by tauto)]
  split_ifs with h₁ h₂
  · rw [h₁]
    exact le_max_left _ _
  · rw [h₂]
    exact le_max_left _ _
  · exact le_rfl

lemma Covers.merged {r : ι → ι} (h : Covers S₀ S r) (hS : Symmetric S) (hne : keep ≠ drop) :
    Covers S₀ (merged S keep drop) fun x => if r x = drop then keep else r x := by
  intro x y hxy
  have hc := h x y
  by_cases hx : r x = drop <;> by_cases hy : r y = drop
  · simp [hx, hy] at hxy
  · simp only [hx, hy, if_true, if_false] at hxy ⊢
    rw [merged_keep hne hy hxy.symm]
    refine (hc (fun h => hy (h ▸ hx))).trans ?_
    rw [hx]
    exact le_max_right _ _
  · simp only [hx, hy, if_true, if_false] at hxy ⊢
    rw [(hS.merged keep drop).symm, merged_keep hne hx hxy]
    refine (hc (fun h => hx (h ▸ hy))).trans ?_
    rw [hy, hS.symm]
    exact le_max_right _ _
  · simp only [hx, hy, if_false] at hxy ⊢
    exact (hc hxy).trans (le_merged hx hy hxy)

end

lemma Greedy.covers
    {r : ι → ι} (h : Greedy P limit S out T) (hS : Symmetric S) (hr : Covers S₀ S r) :
    Covers S₀ T fun x => survivor out (r x) := by
  induction h generalizing r with
  | stop => exact hr
  | @merge _ _ a b s _ hl _ _ ih =>
    have hne : elder P a b ≠ younger P a b := by
      rcases elder_younger P a b with ⟨h₁, h₂⟩ | ⟨h₁, h₂⟩ <;> rw [h₁, h₂]
      · exact hl.lt.ne
      · exact hl.lt.ne'
    exact ih (hS.merged _ _) (hr.merged hS hne)

lemma Greedy.symmetric (h : Greedy P limit S out T) (hS : Symmetric S) : Symmetric T := by
  induction h with
  | stop => exact hS
  | merge _ _ _ ih => exact ih (hS.merged _ _)

lemma Greedy.stopped (h : Greedy P limit S out T) (hab : a < b)
    (hs : T a b = s) : ¬ Below limit (persistence P a b s) := by
  induction h with
  | stop hno => exact hno a b s hab hs
  | merge _ _ _ ih => exact ih hs

theorem Greedy.complete [MonoSub 𝕜] (h : Greedy P limit S out T) (hS : Symmetric S)
    (hs : S x y = s) (hne : survivor out x ≠ survivor out y) :
    ¬ Below limit (persistence P (survivor out x) (survivor out y) s) := by
  have hc : Covers S S id := fun _ _ _ => le_rfl
  have hle := h.covers hS hc x y hne
  simp only [id] at hle
  rw [hs] at hle
  obtain ⟨t, ht⟩ : ∃ t : 𝕜, T (survivor out x) (survivor out y) = t := by
    cases hT : T (survivor out x) (survivor out y) with
    | bot =>
      rw [hT] at hle
      simp at hle
    | coe t => exact ⟨t, rfl⟩
  rw [ht] at hle
  have hst : s ≤ t := WithBot.coe_le_coe.mp hle
  have hno : ¬ Below limit (persistence P (survivor out x) (survivor out y) t) := by
    rcases lt_or_gt_of_ne hne with hlt | hgt
    · exact h.stopped hlt ht
    · rw [persistence_comm]
      rw [(h.symmetric hS).symm] at ht
      exact h.stopped hgt ht
  intro hb
  refine hno (lt_of_le_of_lt ?_ hb)
  exact WithTop.coe_le_coe.mpr (MonoSub.sub_le_sub _ _ _ _ le_rfl hst)

lemma Greedy.isolated (h : Greedy P limit S out T) (hS : Symmetric S)
    (hd : ∀ y, S d y = ⊥) : ∀ m ∈ out, m.2.1 ≠ d ∧ m.2.2 ≠ d := by
  induction h with
  | stop => simp
  | @merge S _ a b s _ hl _ _ ih =>
    have ha : a ≠ d := by
      rintro rfl
      have := hl.saddle
      rw [hd] at this
      cases this
    have hb : b ≠ d := by
      rintro rfl
      have := hl.saddle
      rw [hS.symm, hd] at this
      cases this
    have hends : elder P a b ≠ d ∧ younger P a b ≠ d := by
      rcases elder_younger P a b with ⟨h₁, h₂⟩ | ⟨h₁, h₂⟩ <;> rw [h₁, h₂]
      · exact ⟨ha, hb⟩
      · exact ⟨hb, ha⟩
    have hnext : ∀ y, merged S (elder P a b) (younger P a b) d y = ⊥ := by
      intro y
      unfold merged
      rw [if_neg hends.1.symm, hS.symm d (elder P a b), hS.symm d (younger P a b)]
      have he : S (elder P a b) d = ⊥ := by rw [hS.symm, hd]
      have hy : S (younger P a b) d = ⊥ := by rw [hS.symm, hd]
      rw [he, hy, hd]
      split_ifs <;> simp
    intro m hm
    rcases mem_cons.mp hm with rfl | hm
    · exact hends
    · exact ih (hS.merged _ _) hnext m hm

/-- A dropped region appears in no later merge, and is another one than the region kept. -/
def Once (out : List (Merge ι 𝕜)) : Prop :=
  (∀ m ∈ out, m.2.1 ≠ m.2.2) ∧ out.Pairwise fun m m' => m'.2.1 ≠ m.2.2 ∧ m'.2.2 ≠ m.2.2

omit [LinearOrder ι] [LinearOrder 𝕜] [Sub 𝕜] in
lemma Once.tail {m : Merge ι 𝕜} (h : Once (m :: out)) : Once out :=
  ⟨fun m' hm => h.1 m' (.tail _ hm), (pairwise_cons.mp h.2).2⟩

theorem Greedy.once (h : Greedy P limit S out T) (hS : Symmetric S) : Once out := by
  induction h with
  | stop => exact ⟨by simp, List.Pairwise.nil⟩
  | @merge S _ a b s _ hl _ rest ih =>
    obtain ⟨hne, hpw⟩ := ih (hS.merged _ _)
    have hab : elder P a b ≠ younger P a b := by
      rcases elder_younger P a b with ⟨h₁, h₂⟩ | ⟨h₁, h₂⟩ <;> rw [h₁, h₂]
      · exact hl.lt.ne
      · exact hl.lt.ne'
    refine ⟨fun m hm => ?_, pairwise_cons.mpr ⟨fun m hm => ?_, hpw⟩⟩
    · rcases mem_cons.mp hm with rfl | hm
      · exact hab
      · exact hne m hm
    · refine rest.isolated (hS.merged _ _) (fun y => ?_) m hm
      unfold merged
      rw [if_pos (.inl rfl)]

end CloudServer.Merging
