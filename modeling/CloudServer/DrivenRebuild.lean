import CloudServer.DistanceRing
import CloudServer.DrivenShown

/-! The rebuild shows the leaves, and leaves that are drawn into old evidence show what the rebuild shows. -/
namespace CloudServer.DrivenEvidence
open Planes List

section
variable {𝕜 : Type} [Field 𝕜] [LinearOrder 𝕜] {ρ : Rule 𝕜} {c : Canvas} {ms : List (Cell × 𝕜)} {d : 𝕜} {q : Cell}

omit [Field 𝕜] in
lemma raster_unset : (complement (raster c ms d)).Unset q ↔ c.Has q ∧ (q, d) ∈ ms := by
  constructor
  · intro h
    obtain ⟨y, x, rfl, hy, hx, hm⟩ := h.exists
    simp only [complement, raster, Bool.not_eq_false', decide_eq_true_eq] at hy hx hm
    refine ⟨?_, hm⟩
    simp only [Canvas.Has]
    omega
  · rintro ⟨hc, hm⟩
    obtain ⟨y, x⟩ := q
    obtain ⟨hy0, hy, hx0, hx⟩ := hc
    lift y to ℕ using hy0
    lift x to ℕ using hx0
    refine (Plane.unset_nat (p := complement (raster c ms d)) (Nat.cast_lt.mp hy) (Nat.cast_lt.mp hx)).mpr ?_
    simpa [complement, raster] using hm

variable [IsStrictOrderedRing 𝕜] {edt : Plane Bool → ℕ → ℕ → ℕ}

lemma drawn_shown (he : Exact edt) {reach : 𝕜 → Option 𝕜} (hseen : ∀ m ∈ ms, ∃ m' ∈ ms, c.Has m'.1 ∧ m'.2 = m.2) :
    Shown ρ c (· ∈ ms) reach (drawn ρ edt c ms reach) := by
  have hnear : ∀ m ∈ ms, ∀ y < c.rows, ∀ x < c.cols, NearestIn (fun q => c.Has q ∧ (q, m.2) ∈ ms)
      ((y : ℤ), (x : ℤ)) (edt (complement (raster c ms m.2)) y x) := by
    intro m hm y hy x hx
    obtain ⟨m', hm', hc, hd⟩ := hseen m hm
    have hun : (complement (raster c ms m.2)).Unset m'.1 := raster_unset.mpr ⟨hc, by rwa [← hd]⟩
    obtain ⟨v, u, -, hv, hu, hcell⟩ := hun.exists
    have hn := he _ ⟨v, hv, u, hu, hcell⟩ y hy x hx
    have hcells : (complement (raster c ms m.2)).Unset = fun q => c.Has q ∧ (q, m.2) ∈ ms :=
      funext fun q => propext raster_unset
    rwa [hcells] at hn
  refine ⟨rfl, rfl, fun y hy x hx => ?_⟩
  simp only [drawn, any_map, any_eq_true, Function.comp_apply]
  constructor
  · rintro ⟨m, hm, h⟩
    cases hr : reach m.2 with
    | none =>
      rw [hr] at h
      cases h
    | some thr =>
      rw [hr] at h
      have hw := of_decide_eq_true h
      obtain ⟨⟨q, ⟨hc, hq⟩, hn⟩, -⟩ := hnear m hm y hy x hx
      exact ⟨(q, m.2), hq, hc, thr, hr, by rwa [← hn]⟩
  · rintro ⟨m, hm, hc, thr, hr, hw⟩
    refine ⟨m, hm, ?_⟩
    rw [hr]
    exact decide_eq_true (hw.mono ((hnear m hm y hy x hx).le ⟨hc, hm⟩))

end

section
variable {K S 𝕜 : Type} [LinearOrder K] [DecidableEq S] {leaves new : Leaves K S 𝕜} {s : S} {e : K × Rec S 𝕜}

lemma mem_items : e ∈ items leaves s ↔ e ∈ leaves ∧ e.2.session = s := by
  simp [items, mem_insertionSort]

omit [LinearOrder K] in
lemma mem_sessions : s ∈ sessions leaves ↔ ∃ e ∈ leaves, e.2.session = s := by
  simp [sessions]

lemma items_eq_nil (h : s ∉ sessions leaves) : items leaves s = [] := by
  refine eq_nil_iff_forall_not_mem.mpr fun e he => h ?_
  obtain ⟨he, hs⟩ := mem_items.mp he
  exact mem_sessions.mpr ⟨e, he, hs⟩

instance : Std.Total (before (K := K) (S := S) (𝕜 := 𝕜)) := ⟨fun _ _ => le_total _ _⟩
instance : IsTrans (K × Rec S 𝕜) before := ⟨fun _ _ _ h h' => le_trans h h'⟩

lemma items_pairwise : (items leaves s).Pairwise before := pairwise_insertionSort _ _

variable {l : Leaves K S 𝕜} {a b : K × Rec S 𝕜}

omit [DecidableEq S] in
lemma before_last (h : l.Pairwise before) (ha : a ∈ l) (hb : b ∈ l.getLast?) : before a b := by
  obtain ⟨l', rfl⟩ := List.getLast?_eq_some_iff.mp hb
  rcases mem_append.mp ha with ha | ha
  · exact (pairwise_append.mp h).2.2 a ha b mem_cons_self
  · obtain rfl := mem_singleton.mp ha
    exact le_refl _

omit [DecidableEq S] in
lemma head_before (h : l.Pairwise before) (ha : a ∈ l) (hb : b ∈ l.head?) : before b a := by
  cases l with
  | nil => cases ha
  | cons b' l =>
    cases hb
    rcases mem_cons.mp ha with rfl | ha
    · exact le_refl _
    · exact rel_of_pairwise_cons h ha

lemma items_append (hnd : ((leaves ++ new).map Prod.fst).Nodup)
    (hord : ∀ a ∈ (items leaves s).getLast?, ∀ b ∈ (items new s).head?, toLex (a.2.t, a.1) < toLex (b.2.t, b.1)) :
    items (leaves ++ new) s = items leaves s ++ items new s := by
  have hperm : (items (leaves ++ new) s).Perm (items leaves s ++ items new s) := by
    refine (perm_insertionSort _ _).trans ?_
    rw [filter_append]
    exact (perm_insertionSort _ _).symm.append (perm_insertionSort _ _).symm
  refine hperm.eq_of_pairwise ?_ items_pairwise ?_
  · intro a b ha hb hab hba
    have hkey : a.1 = b.1 := congrArg (fun p => (ofLex p).2) (le_antisymm hab hba)
    exact inj_on_of_nodup_map hnd (mem_items.mp ha).1
      (mem_items.mp (hperm.mem_iff.mpr hb)).1 hkey
  · refine pairwise_append.mpr ⟨items_pairwise, items_pairwise, fun a ha b hb => ?_⟩
    obtain ⟨l, hl⟩ : ∃ l, l ∈ (items leaves s).getLast? := by
      rw [List.getLast?_eq_some_getLast (ne_nil_of_mem ha)]
      exact ⟨_, rfl⟩
    obtain ⟨f, hf⟩ : ∃ f, f ∈ (items new s).head? := by
      rw [List.head?_eq_some_head (ne_nil_of_mem hb)]
      exact ⟨_, rfl⟩
    have hlf : before l f := (hord l hl f hf).le
    exact (before_last items_pairwise ha hl).trans (hlf.trans (head_before items_pairwise hb hf))

omit [LinearOrder K] in
lemma foldl_push (hist : S → Leaves K S 𝕜) (l : Leaves K S 𝕜) :
    l.foldl push hist s = hist s ++ l.filter fun e => e.2.session = s := by
  induction l generalizing hist with
  | nil => simp
  | cons e l ih =>
    rw [foldl_cons, ih, filter_cons]
    by_cases h : e.2.session = s
    · subst h
      simp [push_same]
    · simp [h, push_other (Ne.symm h)]

lemma filter_items : ((sessions new).flatMap (items new)).filter (fun e => e.2.session = s) = items new s := by
  have hpart : ∀ r, (items new r).filter (fun e => e.2.session = s) = if r = s then items new s else [] := by
    intro r
    split_ifs with h
    · subst h
      exact filter_eq_self.mpr fun e he => decide_eq_true (mem_items.mp he).2
    · refine filter_eq_nil_iff.mpr fun e he => ?_
      rw [decide_eq_true_eq, (mem_items.mp he).2]
      exact h
  have hall : ∀ l : List S, l.Nodup →
      (l.flatMap (items new)).filter (fun e => e.2.session = s) = if s ∈ l then items new s else [] := by
    intro l hl
    induction l with
    | nil => rfl
    | cons r l ih =>
      obtain ⟨hr, hl⟩ := nodup_cons.mp hl
      rw [flatMap_cons, filter_append, hpart, ih hl]
      by_cases h : r = s
      · subst h
        simp [hr]
      · simp [h, Ne.symm h]
  rw [hall (sessions new) (nodup_dedup _)]
  split_ifs with h
  · rfl
  · exact (items_eq_nil h).symm

omit [DecidableEq S] in
lemma inOrder_onto {c : Canvas} {t : ℕ × ℕ} {st st' : Kept K S 𝕜} (h : st.onto c t = some st') (s : S) (l : Leaves K S 𝕜) :
    inOrder (st'.last s) l = inOrder (st.last s) l := by
  unfold Kept.onto at h
  split_ifs at h
  · cases h
    rfl
  · cases h
    dsimp only
    cases st.last s with
    | none => rfl
    | some l' =>
      cases hl : l.head? with
      | none => simp [inOrder, hl]
      | some e => simp [inOrder, hl]

end

section
variable {K S 𝕜 : Type} [LinearOrder K] [DecidableEq S] [Field 𝕜] [LinearOrder 𝕜] [IsStrictOrderedRing 𝕜]
  [FloorRing 𝕜] {ρ : Rule 𝕜} {edt : Plane Bool → ℕ → ℕ → ℕ} {c c' : Canvas} {t : ℕ × ℕ}
  {leaves new : Leaves K S 𝕜} {st : Kept K S 𝕜}

def Seen (ρ : Rule 𝕜) (c : Canvas) (leaves : Leaves K S 𝕜) : Prop :=
  ∀ m ∈ marks ρ c leaves, ∃ m' ∈ marks ρ c leaves, c.Has m'.1 ∧ m'.2 = m.2

variable {m : Cell × 𝕜} {hist : S → Leaves K S 𝕜}

omit [IsStrictOrderedRing 𝕜] in
lemma mem_marks : m ∈ marks ρ c leaves ↔ Driven ρ c (items leaves) m := by
  unfold marks Driven
  rw [mem_flatMap]
  refine exists_congr fun s => and_iff_right_of_imp fun h => ?_
  by_contra hs
  rw [items_eq_nil hs] at h
  cases h

omit [IsStrictOrderedRing 𝕜] in
lemma mem_poses : m ∈ leaves.map (point ρ c) ↔ Posed ρ c (items leaves) m := by
  rw [mem_map]
  constructor
  · rintro ⟨e, he, rfl⟩
    exact ⟨_, e, mem_items.mpr ⟨he, rfl⟩, rfl⟩
  · rintro ⟨s, e, he, rfl⟩
    exact ⟨e, (mem_items.mp he).1, rfl⟩

lemma rebuild_shows (he : Exact edt) (hseen : Seen ρ c leaves) :
    Shows ρ c (items leaves) (rebuild ρ edt c leaves) where
  height := rfl
  width := rfl
  G := (drawn_shown he hseen).congr fun _ _ => mem_marks.symm
  W := (drawn_shown he hseen).congr fun _ _ => mem_marks.symm
  S := (drawn_shown he hseen).congr fun _ _ => mem_marks.symm
  P := by
    refine (drawn_shown he fun m hm => ?_).congr fun m hm => ?_
    · exact ⟨m, hm, by simpa using (mem_filter.mp hm).2, rfl⟩
    · rw [mem_filter, mem_poses]
      simp [hm]
  last := fun _ => rfl

lemma Canvas.Inside.eq (h : c.Inside c' t) (hr : c.rows = c'.rows) (hc : c.cols = c'.cols) : c = c' := by
  have hrows := h.rows
  have hcols := h.cols
  have hheight := h.height
  have hwidth := h.width
  obtain ⟨cy0, cx0, H, W, heven⟩ := c
  obtain ⟨cy0', cx0', H', W', heven'⟩ := c'
  simp only [Canvas.rows, Canvas.cols, Canvas.mk.injEq] at *
  omega

omit [LinearOrder K] [DecidableEq S] [IsStrictOrderedRing 𝕜] in
lemma Shows.onto (h : Shows ρ c hist st) (hin : c.Inside c' t)
    (hstill : ∀ reach ∈ [ρ.centre, ρ.proven, ρ.body], Still ρ c c' t reach (Driven ρ c' hist)) :
    ∃ st', st.onto c' t = some st' ∧ Shows ρ c' hist st' := by
  unfold Kept.onto
  by_cases hs : st.H = c'.rows ∧ st.W = c'.cols
  · rw [if_pos hs]
    obtain rfl := hin.eq (h.height.symm.trans hs.1) (h.width.symm.trans hs.2)
    exact ⟨st, rfl, h⟩
  · have hfit : ¬ (c'.rows < t.1 + st.H ∨ c'.cols < t.2 + st.W) := by
      have hh := hin.height
      have hw := hin.width
      rw [h.height, h.width]
      omega
    rw [if_neg hs, if_neg hfit]
    refine ⟨_, rfl, rfl, rfl, ?_, ?_, ?_, ?_, ?_⟩
    · exact h.G.pad hin (fun m => driven_shift hin) (hstill _ (by simp))
    · exact h.W.pad hin (fun m => driven_shift hin) (hstill _ (by simp))
    · exact h.S.pad hin (fun m => driven_shift hin) (hstill _ (by simp))
    · exact h.P.pad hin (fun m => posed_shift hin) fun m hm => hstill _ (by simp) m hm.driven
    · intro s
      simp only [h.last s, newest, Option.map_map]
      congr 1
      funext e
      have hp := congrArg Prod.fst (hin.point (ρ := ρ) (e := e))
      simp only [point, shift] at hp
      simp only [Function.comp_apply, hp, move]
      rfl

omit [LinearOrder K] in
lemma Shows.drawAll (h : Shows ρ c hist st) (l : Leaves K S 𝕜) :
    Shows ρ c (l.foldl push hist) (l.foldl (DrivenEvidence.drawLeaf ρ c) st) := by
  induction l generalizing hist st with
  | nil => exact h
  | cons e l ih => exact ih h.drawLeaf

def Appends (st : Kept K S 𝕜) (new : Leaves K S 𝕜) : Prop :=
  ∀ s ∈ sessions new, inOrder (st.last s) (items new s) = true

omit [IsStrictOrderedRing 𝕜] in
lemma evidence_rebuild {o : Option (Kept K S 𝕜)} {full : Bool} (h : ∀ st, o = some st → full = false → ¬ Appends st new) :
    evidence ρ edt o c t leaves new full = rebuild ρ edt c leaves := by
  unfold evidence
  cases full with
  | true => rfl
  | false =>
    cases o with
    | none => rfl
    | some st =>
      cases ho : st.onto c t with
      | none => simp [ho]
      | some st' =>
        have hall : ((sessions new).all fun s => inOrder (st'.last s) (items new s)) = false := by
          refine Bool.eq_false_iff.mpr fun hall => h st rfl rfl fun s hs => ?_
          rw [← inOrder_onto ho]
          exact all_eq_true.mp hall s hs
        simp [ho, hall]

lemma evidence_shows (h : Shows ρ c (items leaves) st) (hin : c.Inside c' t)
    (hstill : ∀ reach ∈ [ρ.centre, ρ.proven, ρ.body], Still ρ c c' t reach (Driven ρ c' (items leaves)))
    (hnd : ((leaves ++ new).map Prod.fst).Nodup) (happ : Appends st new) :
    Shows ρ c' (items (leaves ++ new)) (evidence ρ edt (some st) c' t (leaves ++ new) new false) := by
  obtain ⟨st', ho, hst'⟩ := h.onto hin hstill
  have hall : ((sessions new).all fun s => inOrder (st'.last s) (items new s)) = true := by
    refine all_eq_true.mpr fun s hs => ?_
    rw [inOrder_onto ho]
    exact happ s hs
  have hev : evidence ρ edt (some st) c' t (leaves ++ new) new false =
      ((sessions new).flatMap (items new)).foldl (drawLeaf ρ c') st' := by
    simp [evidence, ho, hall]
  have hhist : ((sessions new).flatMap (items new)).foldl push (items leaves) = items (leaves ++ new) := by
    funext s
    rw [foldl_push, filter_items]
    refine (items_append hnd fun a ha b hb => ?_).symm
    have hs : s ∈ sessions new := by
      by_contra hs
      rw [items_eq_nil hs] at hb
      cases hb
    have hord := happ s hs
    rw [h.last s, newest, Option.mem_def.mp ha] at hord
    simp only [inOrder, Option.mem_def.mp hb, Option.map_some] at hord
    exact of_decide_eq_true hord
  rw [hev, ← hhist]
  exact hst'.drawAll _

end
end CloudServer.DrivenEvidence
