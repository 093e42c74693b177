import CloudServer.Merging

/-! Which groups greedy merging ends with, and which saddles a merge of low persistence needs. -/
namespace CloudServer.Merging

open List

universe u v

variable {ι : Type v} {𝕜 : Type u} [LinearOrder ι] [LinearOrder 𝕜]

/-- `a` survives a merge with `b`. -/
def Senior (P : Peaks ι 𝕜) (a b : ι) : Prop :=
  P.value b < P.value a ∨ P.value a = P.value b ∧ P.rank a ≤ P.rank b

/-- `a` survives, and would as well with the pair the other way round. -/
def Above (P : Peaks ι 𝕜) (a b : ι) : Prop :=
  P.value b < P.value a ∨ P.value a = P.value b ∧ P.rank a < P.rank b

variable {a b c d drop keep x y : ι}
variable {s t : 𝕜} {out' : List (Merge ι 𝕜)}

section
variable {P : Peaks ι 𝕜}

section
omit [LinearOrder ι]

lemma Senior.refl (a : ι) : Senior P a a := .inr ⟨rfl, le_rfl⟩

lemma Senior.trans (h : Senior P a b) (h' : Senior P b c) : Senior P a c := by
  rcases h with h | ⟨h, hr⟩ <;> rcases h' with h' | ⟨h', hr'⟩
  · exact .inl (h'.trans h)
  · exact .inl (h' ▸ h)
  · exact .inl (h ▸ h')
  · exact .inr ⟨h.trans h', hr.trans hr'⟩

lemma not_senior : ¬ Senior P a b ↔ Above P b a := by
  unfold Senior Above
  rw [not_or, not_lt, not_and, not_le]
  constructor
  · rintro ⟨hle, hr⟩
    rcases hle.lt_or_eq with h | h
    · exact .inl h
    · exact .inr ⟨h.symm, hr h⟩
  · rintro (h | ⟨h, hr⟩)
    · exact ⟨h.le, fun he => absurd he h.ne⟩
    · exact ⟨h.ge, fun _ => hr⟩

lemma Senior.above (h : Senior P a b) (hr : P.rank a ≠ P.rank b) : Above P a b := by
  rcases h with h | ⟨h, hle⟩
  · exact .inl h
  · exact .inr ⟨h, lt_of_le_of_ne hle hr⟩

lemma elder_senior (a b : ι) : Senior P (elder P a b) (younger P a b) := by
  unfold elder younger
  split_ifs with h
  · exact h
  · rcases not_senior.mp h with h | ⟨h, hr⟩
    · exact .inl h
    · exact .inr ⟨h, hr.le⟩

end

variable [Sub 𝕜] {limit : WithTop 𝕜} {S T : Saddles ι 𝕜} {out : List (Merge ι 𝕜)}

lemma Greedy.senior (h : Greedy P limit S out T) : ∀ m ∈ out, Senior P m.2.1 m.2.2 := by
  induction h with
  | stop => simp
  | merge _ _ _ ih =>
    intro m hm
    rcases mem_cons.mp hm with rfl | hm
    · exact elder_senior _ _
    · exact ih m hm

omit [Sub 𝕜] in
lemma survivor_senior (h : ∀ m ∈ out, Senior P m.2.1 m.2.2) (x : ι) :
    Senior P (survivor out x) x := by
  induction out generalizing x with
  | nil => exact Senior.refl x
  | cons m rest ih =>
    rw [survivor_cons]
    refine (ih (fun m' hm => h m' (.tail _ hm)) _).trans ?_
    split_ifs with hx
    · rw [hx]
      exact h m mem_cons_self
    · exact Senior.refl x

section
omit [LinearOrder 𝕜] [Sub 𝕜]

lemma survivor_append (out out' : List (Merge ι 𝕜)) (x : ι) :
    survivor (out ++ out') x = survivor out' (survivor out x) := foldl_append

lemma survivor_ne (hx : x ≠ d) (h : ∀ m ∈ out, m.2.1 ≠ d) : survivor out x ≠ d := by
  induction out generalizing x with
  | nil => exact hx
  | cons m rest ih =>
    rw [survivor_cons]
    refine ih ?_ fun m' hm => h m' (.tail _ hm)
    split_ifs
    · exact h m mem_cons_self
    · exact hx

lemma survivor_survivor (h : Once out) (x : ι) : survivor out (survivor out x) = survivor out x := by
  induction out generalizing x with
  | nil => rfl
  | cons m rest ih =>
    have hlater : ∀ m' ∈ rest, m'.2.1 ≠ m.2.2 := fun m' hm => ((pairwise_cons.mp h.2).1 m' hm).1
    have hstart : (if x = m.2.2 then m.2.1 else x) ≠ m.2.2 := by
      split_ifs with hx
      · exact h.1 m mem_cons_self
      · exact hx
    rw [survivor_cons m rest x, survivor_cons, if_neg (survivor_ne hstart hlater)]
    exact ih h.tail _

lemma eq_nil_of_survivor (h : Once out) (hs : ∀ m ∈ out, survivor out m.2.2 = m.2.2) : out = [] := by
  cases out with
  | nil => rfl
  | cons m rest =>
    have hlater : ∀ m' ∈ rest, m'.2.1 ≠ m.2.2 := fun m' hm => ((pairwise_cons.mp h.2).1 m' hm).1
    have hself := hs m mem_cons_self
    rw [survivor_cons, if_pos rfl] at hself
    exact absurd hself (survivor_ne (h.1 m mem_cons_self) hlater)

end

omit [LinearOrder ι] [LinearOrder 𝕜] [Sub 𝕜] in
lemma Once.sublist (h : Once out) (hs : out'.Sublist out) : Once out' :=
  ⟨fun m hm => h.1 m (hs.subset hm), h.2.sublist hs⟩

omit [LinearOrder 𝕜] [Sub 𝕜] in
lemma dropped_of_ne (h : survivor out x ≠ x) : ∃ m ∈ out, m.2.2 = x := by
  by_contra hno
  push Not at hno
  apply h
  clear h
  induction out with
  | nil => rfl
  | cons m rest ih =>
    rw [survivor_cons, if_neg (hno m mem_cons_self).symm]
    exact ih fun m' hm => hno m' (.tail _ hm)

end

section
variable {P P' : Peaks ι 𝕜} [Sub 𝕜] {limit : WithTop 𝕜} {S T : Saddles ι 𝕜} {out : List (Merge ι 𝕜)}

/-- The regions of `A` have the same peaks and the same order of ranks. -/
structure SameOrder (P P' : Peaks ι 𝕜) (A : Set ι) : Prop where
  value : ∀ a ∈ A, P.value a = P'.value a
  rank : ∀ a ∈ A, ∀ b ∈ A, P.rank a ≤ P.rank b ↔ P'.rank a ≤ P'.rank b

variable {A : Set ι}

section
omit [LinearOrder ι] [Sub 𝕜]

lemma SameOrder.senior (h : SameOrder P P' A) (ha : a ∈ A) (hb : b ∈ A) :
    Senior P a b ↔ Senior P' a b := by
  unfold Senior
  rw [h.value a ha, h.value b hb, h.rank a ha b hb]

lemma SameOrder.elder (h : SameOrder P P' A) (ha : a ∈ A) (hb : b ∈ A) :
    elder P a b = elder P' a b ∧ younger P a b = younger P' a b := by
  have hs := h.senior ha hb
  unfold Senior at hs
  unfold Merging.elder younger
  simp only [hs, and_self]

end

omit [LinearOrder ι] in
lemma SameOrder.persistence (h : SameOrder P P' A) (ha : a ∈ A) (hb : b ∈ A) (s : 𝕜) :
    persistence P a b s = persistence P' a b s := by
  unfold Merging.persistence
  rw [h.value a ha, h.value b hb]

lemma SameOrder.key_le (h : SameOrder P P' A) (ha : a ∈ A) (hb : b ∈ A)
    (hc : c ∈ A) (hd : d ∈ A) (hle : key P a b s ≤ key P c d t) : key P' a b s ≤ key P' c d t := by
  have hlt : ∀ x ∈ A, ∀ y ∈ A, P.rank x < P.rank y ↔ P'.rank x < P'.rank y := fun x hx y hy => by
    rw [← not_le, h.rank y hy x hx, not_le]
  have hmin : min (P.rank a) (P.rank b) < min (P.rank c) (P.rank d) ↔
      min (P'.rank a) (P'.rank b) < min (P'.rank c) (P'.rank d) := by
    simp only [lt_min_iff, min_lt_iff, hlt _ ha _ hc, hlt _ ha _ hd, hlt _ hb _ hc, hlt _ hb _ hd]
  have hmin' : min (P.rank c) (P.rank d) < min (P.rank a) (P.rank b) ↔
      min (P'.rank c) (P'.rank d) < min (P'.rank a) (P'.rank b) := by
    simp only [lt_min_iff, min_lt_iff, hlt _ hc _ ha, hlt _ hc _ hb, hlt _ hd _ ha, hlt _ hd _ hb]
  have hmax : max (P.rank a) (P.rank b) < max (P.rank c) (P.rank d) ↔
      max (P'.rank a) (P'.rank b) < max (P'.rank c) (P'.rank d) := by
    simp only [max_lt_iff, lt_max_iff, hlt _ ha _ hc, hlt _ ha _ hd, hlt _ hb _ hc, hlt _ hb _ hd]
  have hmax' : max (P.rank c) (P.rank d) < max (P.rank a) (P.rank b) ↔
      max (P'.rank c) (P'.rank d) < max (P'.rank a) (P'.rank b) := by
    simp only [max_lt_iff, lt_max_iff, hlt _ hc _ ha, hlt _ hc _ hb, hlt _ hd _ ha, hlt _ hd _ hb]
  have hmine : min (P.rank a) (P.rank b) = min (P.rank c) (P.rank d) ↔
      min (P'.rank a) (P'.rank b) = min (P'.rank c) (P'.rank d) := by
    simp only [eq_iff_le_not_lt, ← not_lt, hmin, hmin']
  have hmaxe : max (P.rank a) (P.rank b) = max (P.rank c) (P.rank d) ↔
      max (P'.rank a) (P'.rank b) = max (P'.rank c) (P'.rank d) := by
    simp only [eq_iff_le_not_lt, ← not_lt, hmax, hmax']
  unfold key at hle ⊢
  simp only [Prod.Lex.toLex_le_toLex, hmin, hmax, hmine, hmaxe, h.value a ha, h.value b hb,
    h.value c hc, h.value d hd] at hle ⊢
  exact hle

lemma Least.rerank (h : SameOrder P P' A) (hA : ∀ a b, S a b ≠ ⊥ → a ∈ A ∧ b ∈ A)
    (hl : Least P S a b s) : Least P' S a b s := by
  refine ⟨hl.lt, hl.saddle, fun c d t hcd ht => ?_⟩
  obtain ⟨ha, hb⟩ := hA a b (by simp [hl.saddle])
  obtain ⟨hc, hd⟩ := hA c d (by simp [ht])
  exact h.key_le ha hb hc hd (hl.least c d t hcd ht)

omit [Sub 𝕜] in
lemma linked_of_merged (h : merged S keep drop x y ≠ ⊥) :
    S x y ≠ ⊥ ∨ x = keep ∧ S drop y ≠ ⊥ ∨ y = keep ∧ S x drop ≠ ⊥ := by
  have hmax : ∀ {u w : WithBot 𝕜}, max u w ≠ ⊥ → u ≠ ⊥ ∨ w ≠ ⊥ := by
    intro u w h
    by_contra hno
    push Not at hno
    simp [hno.1, hno.2] at h
  unfold merged at h
  split_ifs at h with h₁ h₂ h₃
  · exact absurd rfl h
  · rcases hmax h with h | h
    · exact .inl (h₂ ▸ h)
    · exact .inr (.inl ⟨h₂, h⟩)
  · rcases hmax h with h | h
    · exact .inl (h₃ ▸ h)
    · exact .inr (.inr ⟨h₃, h⟩)
  · exact .inl h

omit [Sub 𝕜] in
lemma ends_merged (hA : ∀ a b, S a b ≠ ⊥ → a ∈ A ∧ b ∈ A) (hk : keep ∈ A) :
    ∀ a b, merged S keep drop a b ≠ ⊥ → a ∈ A ∧ b ∈ A := by
  intro a b hab
  rcases linked_of_merged hab with h | ⟨rfl, h⟩ | ⟨rfl, h⟩
  · exact hA a b h
  · exact ⟨hk, (hA _ _ h).2⟩
  · exact ⟨(hA _ _ h).1, hk⟩

theorem Greedy.rerank (hP : SameOrder P P' A) (hA : ∀ a b, S a b ≠ ⊥ → a ∈ A ∧ b ∈ A)
    (h : Greedy P limit S out T) : Greedy P' limit S out T := by
  induction h with
  | stop hs =>
    refine .stop fun a b s hab h => ?_
    obtain ⟨ha, hb⟩ := hA a b (by simp [h])
    rw [← hP.persistence ha hb]
    exact hs a b s hab h
  | @merge S T a b s out hl hp _ ih =>
    obtain ⟨ha, hb⟩ := hA a b (by simp [hl.saddle])
    obtain ⟨he, hy⟩ := hP.elder ha hb
    have hk : elder P a b ∈ A := by
      rcases elder_younger P a b with ⟨h, -⟩ | ⟨h, -⟩ <;> rw [h]
      · exact ha
      · exact hb
    have hrest := ih (ends_merged hA hk)
    rw [hP.persistence ha hb, he, hy] at *
    exact .merge (hl.rerank hP hA) hp hrest

end

section
variable {P : Peaks ι 𝕜} {S T : Saddles ι 𝕜} {out : List (Merge ι 𝕜)} {limit : WithTop 𝕜}

/-- `x` and `y` are adjacent, with a saddle that is good enough. -/
def Step (S : Saddles ι 𝕜) (ok : 𝕜 → Prop) (x y : ι) : Prop := ∃ s : 𝕜, S x y = s ∧ ok s

abbrev Reaches (S : Saddles ι 𝕜) (ok : 𝕜 → Prop) : ι → ι → Prop := Relation.ReflTransGen (Step S ok)

variable {ok : 𝕜 → Prop}

omit [LinearOrder ι] [LinearOrder 𝕜] in
lemma Step.symm (hS : Symmetric S) (h : Step S ok x y) : Step S ok y x := by
  obtain ⟨s, hs, hok⟩ := h
  exact ⟨s, (hS.symm y x).trans hs, hok⟩

lemma Reaches.of_merged (hS : Symmetric S)
    (hs : S drop keep = s) (hbest : ∀ y t, ok t → S drop y = (t : 𝕜) → ok s)
    (h : Reaches (merged S keep drop) ok x y) : Reaches S ok x y := by
  have hstep : ∀ x y, Step (merged S keep drop) ok x y → Reaches S ok x y := by
    rintro x y ⟨t, ht, ht'⟩
    have hkeep : ∀ y, Step S ok drop y → Reaches S ok keep y := by
      rintro y ⟨t, ht, ht'⟩
      have hlink : Step S ok keep drop := ⟨s, (hS.symm _ _).trans hs, hbest y t ht' ht⟩
      exact .head hlink (.single ⟨t, ht, ht'⟩)
    unfold merged at ht
    split_ifs at ht with h₁ h₂ h₃
    · cases ht
    · subst h₂
      rcases max_choice (S x y) (S drop y) with hm | hm
      · exact .single ⟨t, hm ▸ ht, ht'⟩
      · exact hkeep y ⟨t, hm ▸ ht, ht'⟩
    · subst h₃
      rcases max_choice (S x y) (S x drop) with hm | hm
      · exact .single ⟨t, hm ▸ ht, ht'⟩
      · have hd : Step S ok x drop := ⟨t, hm ▸ ht, ht'⟩
        have hlink : Step S ok drop y := ⟨s, hs, hbest x t ht' ((hS.symm _ _).trans (hm ▸ ht))⟩
        exact .head hd (.single hlink)
    · exact .single ⟨t, ht, ht'⟩
  induction h with
  | refl => exact .refl
  | tail _ hyz ih => exact ih.trans (hstep _ _ hyz)

end

section
variable {P : Peaks ι 𝕜} {S T : Saddles ι 𝕜} {out : List (Merge ι 𝕜)} {limit : WithTop 𝕜}

lemma Greedy.original [Sub 𝕜] (h : Greedy P limit S out T) (hab : T a b ≠ ⊥) :
    ∃ x y, S x y ≠ ⊥ ∧ survivor out x = a ∧ survivor out y = b := by
  induction h with
  | stop => exact ⟨a, b, hab, rfl, rfl⟩
  | @merge S T c d s out _ _ _ ih =>
    obtain ⟨x, y, hxy, hx, hy⟩ := ih hab
    have hback : ∀ z, z ≠ younger P c d →
        survivor ((persistence P c d s, elder P c d, younger P c d) :: out) z = survivor out z :=
      fun z hz => by rw [survivor_cons, if_neg hz]
    have hdrop : survivor ((persistence P c d s, elder P c d, younger P c d) :: out) (younger P c d) =
        survivor out (elder P c d) := by rw [survivor_cons, if_pos rfl]
    obtain ⟨t, ht⟩ := WithBot.ne_bot_iff_exists.mp hxy
    obtain ⟨hxd, hyd, -⟩ := merged_ne_drop ht.symm
    rcases linked_of_merged hxy with h | ⟨rfl, h⟩ | ⟨rfl, h⟩
    · exact ⟨x, y, h, (hback x hxd).trans hx, (hback y hyd).trans hy⟩
    · exact ⟨_, y, h, hdrop.trans hx, (hback y hyd).trans hy⟩
    · exact ⟨x, _, h, (hback x hxd).trans hx, hdrop.trans hy⟩

lemma Greedy.nil_iff [Sub 𝕜] (h : Greedy P limit S out T) (hS : Symmetric S) :
    out = [] ↔ ∀ a b (s : 𝕜), S a b = s → ¬ Below limit (persistence P a b s) := by
  cases h with
  | stop hs =>
    refine iff_of_true rfl fun a b s hab => ?_
    rcases lt_trichotomy a b with hlt | rfl | hgt
    · exact hs a b s hlt hab
    · rw [hS.irrefl] at hab
      cases hab
    · rw [persistence_comm]
      exact hs b a s hgt ((hS.symm b a).trans hab)
  | merge hl hp _ => exact iff_of_false (cons_ne_nil _ _) fun hno => hno _ _ _ hl.saddle hp

lemma Greedy.joined [Sub 𝕜] [MonoSub 𝕜] (h : Greedy P ⊤ S out T) (hS : Symmetric S)
    (hxy : S x y ≠ ⊥) : survivor out x = survivor out y := by
  obtain ⟨s, hs⟩ := WithBot.ne_bot_iff_exists.mp hxy
  by_contra hne
  exact h.complete hS hs.symm hne (WithTop.coe_lt_top _)

end

section
variable [AddCommGroup 𝕜] [IsOrderedAddMonoid 𝕜] {P : Peaks ι 𝕜} {S T : Saddles ι 𝕜}
  {out : List (Merge ι 𝕜)} {limit : WithTop 𝕜}

omit [LinearOrder ι] [IsOrderedAddMonoid 𝕜] in
lemma persistence_younger (a b : ι) (s : 𝕜) : persistence P a b s = P.value (younger P a b) - s := by
  have hle := value_younger_le P a b
  unfold persistence
  rcases elder_younger P a b with ⟨h₁, h₂⟩ | ⟨h₁, h₂⟩ <;> rw [h₁, h₂] at hle <;> rw [h₂]
  · rw [min_eq_right hle]
  · rw [min_eq_left hle]

lemma Least.saddle_le (h : Least P S a b s) (hS : Symmetric S)
    (ht : S (younger P a b) y = (t : 𝕜)) : t ≤ s := by
  have hfloor := h.floor hS _ _ t ht
  rw [persistence_younger] at hfloor
  have hle : P.value (younger P a b) - s ≤ P.value (younger P a b) - t :=
    hfloor.trans (sub_le_sub_right (min_le_left _ _) t)
  exact (sub_le_sub_iff_left _).mp hle

omit [IsOrderedAddMonoid 𝕜] in
lemma Least.younger_elder (h : Least P S a b s) (hS : Symmetric S) :
    S (younger P a b) (elder P a b) = s := by
  rcases elder_younger P a b with ⟨h₁, h₂⟩ | ⟨h₁, h₂⟩ <;> rw [h₁, h₂]
  · exact (hS.symm _ _).trans h.saddle
  · exact h.saddle

theorem Greedy.reaches (h : Greedy P limit S out T) (hS : Symmetric S) : ∀ m ∈ out,
    ∃ s, m.1 = P.value m.2.2 - s ∧ ∀ ok : 𝕜 → Prop, (∀ s t, ok s → s ≤ t → ok t) → ok s → Reaches S ok m.2.2 m.2.1 := by
  induction h with
  | stop => simp
  | @merge S T a b s out hl _ _ ih =>
    intro m hm
    have hlink := hl.younger_elder hS
    rcases mem_cons.mp hm with rfl | hm
    · exact ⟨s, persistence_younger a b s, fun ok _ hs => .single ⟨s, hlink, hs⟩⟩
    · obtain ⟨t, ht, hreach⟩ := ih (hS.merged _ _) m hm
      refine ⟨t, ht, fun ok hok hokt => (hreach ok hok hokt).of_merged hS hlink ?_⟩
      intro y u hu hy
      exact hok u s hu (hl.saddle_le hS hy)

lemma Greedy.absorbs {q : 𝕜} (h : Greedy P q S out T) (hS : Symmetric S) {r e : ι}
    (hr : survivor out r = r) (hre : Reaches S (fun s => P.value r - s < q) r e) :
    survivor out e = r := by
  induction hre with
  | refl => exact hr
  | @tail x y _ hxy ih =>
    obtain ⟨s, hs, hlt⟩ := hxy
    by_contra hne
    refine h.complete hS hs (by rw [ih]; exact Ne.symm hne) (WithTop.coe_lt_coe.mpr ?_)
    rw [ih]
    exact (sub_le_sub_right (min_le_left _ _) s).trans_lt hlt

abbrev Connected (S : Saddles ι 𝕜) : ι → ι → Prop := Reaches S fun _ => True

omit [LinearOrder ι] [LinearOrder 𝕜] [AddCommGroup 𝕜] [IsOrderedAddMonoid 𝕜] in
lemma Reaches.symm {ok : 𝕜 → Prop} (hS : Symmetric S) (h : Reaches S ok x y) :
    Reaches S ok y x := by
  induction h with
  | refl => exact .refl
  | tail _ hyz ih => exact .head (hyz.symm hS) ih

lemma Greedy.connected_survivor (h : Greedy P limit S out T) (hS : Symmetric S) (x : ι) :
    Connected S x (survivor out x) := by
  have hm : ∀ m ∈ out, Connected S m.2.2 m.2.1 := by
    intro m hm
    obtain ⟨s, -, hreach⟩ := h.reaches hS m hm
    exact hreach _ (fun _ _ _ _ => trivial) trivial
  clear h
  induction out generalizing x with
  | nil => exact .refl
  | cons m rest ih =>
    have hrest := fun x => ih x fun m' hm' => hm m' (.tail _ hm')
    rw [survivor_cons]
    split_ifs with hx
    · exact (hx ▸ hm m mem_cons_self).trans (hrest _)
    · exact hrest x

theorem Greedy.components (h : Greedy P ⊤ S out T) (hS : Symmetric S) :
    survivor out x = survivor out y ↔ Connected S x y := by
  constructor
  · intro he
    have hy := (h.connected_survivor hS y).symm hS
    rw [← he] at hy
    exact (h.connected_survivor hS x).trans hy
  · intro hxy
    induction hxy with
    | refl => rfl
    | tail _ hyz ih =>
      obtain ⟨s, hs, -⟩ := hyz
      exact ih.trans (h.joined hS (by simp [hs]))

omit [IsOrderedAddMonoid 𝕜] in
lemma Greedy.limited (h : Greedy P limit S out T) : ∀ m ∈ out, Below limit m.1 := by
  induction h with
  | stop => simp
  | merge _ hp _ ih =>
    intro m hm
    rcases mem_cons.mp hm with rfl | hm
    · exact hp
    · exact ih m hm

omit [IsOrderedAddMonoid 𝕜] in
lemma Greedy.unlimited (h : Greedy P limit S out T) (hT : ∀ a b, T a b = ⊥) : Greedy P ⊤ S out T := by
  induction h with
  | stop => exact .stop fun a b s _ hs => by simp [hT] at hs
  | merge hl _ _ ih => exact .merge hl (WithTop.coe_lt_top _) (ih hT)

/-- Every region below another one of its component reaches a region above it over saddles less
than `q` below its peak. -/
def Shallow (P : Peaks ι 𝕜) (S : Saddles ι 𝕜) (q : 𝕜) : Prop :=
  ∀ r e, Connected S r e → Above P e r →
    ∃ e', Above P e' r ∧ Reaches S (fun s => P.value r - s < q) r e'

omit [LinearOrder ι] [LinearOrder 𝕜] [AddCommGroup 𝕜] [IsOrderedAddMonoid 𝕜] in
lemma Reaches.mem {ok : 𝕜 → Prop} {A : Set ι} (hA : ∀ a b, S a b ≠ ⊥ → a ∈ A ∧ b ∈ A)
    (h : Reaches S ok x y) (hx : x ∈ A) : y ∈ A := by
  induction h with
  | refl => exact hx
  | tail _ hyz _ =>
    obtain ⟨s, hs, -⟩ := hyz
    exact (hA _ _ (hs ▸ WithBot.coe_ne_bot)).2

theorem Greedy.shallow_iff {A : Set ι} {q : 𝕜} {T' : Saddles ι 𝕜}
    (h : Greedy P ⊤ S out T) (h' : Greedy P q S out' T') (hS : Symmetric S)
    (hA : ∀ a b, S a b ≠ ⊥ → a ∈ A ∧ b ∈ A) (hrank : Set.InjOn P.rank A) :
    (∀ m ∈ out, m.1 < q) ↔ Shallow P S q := by
  constructor
  · intro hall r e hre her
    have hsame := (h.components hS).mpr hre
    have hne : survivor out r ≠ r := fun hr => by
      have hsenior := survivor_senior h.senior e
      rw [← hsame, hr] at hsenior
      exact not_senior.mpr her hsenior
    obtain ⟨m, hm, rfl⟩ := dropped_of_ne hne
    obtain ⟨s, hs, hreach⟩ := h.reaches hS m hm
    have hlt := hall m hm
    rw [hs] at hlt
    have hin : m.2.2 ∈ A := by
      rcases hre.cases_head with rfl | ⟨y, ⟨t, ht, -⟩, -⟩
      · exact absurd (Senior.refl _) (not_senior.mpr her)
      · exact (hA _ _ (ht ▸ WithBot.coe_ne_bot)).1
    have hto := hreach (fun s => P.value m.2.2 - s < q)
      (fun s t h hst => (sub_le_sub_left hst _).trans_lt h) hlt
    refine ⟨m.2.1, (h.senior m hm).above fun heq => ?_, hto⟩
    exact (h.once hS).1 m hm (hrank (hto.mem hA hin) hin heq)
  · intro hsh
    -- a group with one above it in its component would have reached it and joined
    have hno : ∀ u w, survivor out' u = u → survivor out' w = w → Connected S w u → ¬ Above P u w := by
      intro u w hu hw hwu huw
      obtain ⟨e, he, hwe⟩ := hsh w u hwu huw
      have hsenior := survivor_senior h'.senior e
      rw [h'.absorbs hS hw hwe] at hsenior
      exact not_senior.mpr he hsenior
    have hT : ∀ a b, T' a b = ⊥ := by
      intro a b
      by_contra hab
      obtain ⟨x, y, hxy, rfl, rfl⟩ := h'.original hab
      have hx := h'.connected_survivor hS x
      have hy := h'.connected_survivor hS y
      obtain ⟨s, hs⟩ := WithBot.ne_bot_iff_exists.mp hxy
      have hlink : Connected S x y := .single ⟨s, hs.symm, trivial⟩
      have hxyc : Connected S (survivor out' x) (survivor out' y) :=
        (hx.symm hS).trans (hlink.trans hy)
      have hidem := survivor_survivor (h'.once hS)
      have hne : P.rank (survivor out' x) ≠ P.rank (survivor out' y) := fun heq => by
        obtain ⟨hxA, hyA⟩ := hA x y hxy
        rw [hrank (hx.mem hA hxA) (hy.mem hA hyA) heq, (h'.symmetric hS).irrefl] at hab
        exact hab rfl
      by_cases hse : Senior P (survivor out' x) (survivor out' y)
      · exact hno _ _ (hidem x) (hidem y) (hxyc.symm hS) (hse.above hne)
      · exact hno _ _ (hidem y) (hidem x) hxyc (not_senior.mp hse)
    have hout := (h'.unlimited hT).deterministic h
    intro m hm
    exact WithTop.coe_lt_coe.mp (h'.limited m (hout.1 ▸ hm))

end

end CloudServer.Merging
