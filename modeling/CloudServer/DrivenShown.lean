import CloudServer.DrivenBatches

/-! What the images show: around the driven cells of the canvas, the cells that they prove. -/
namespace CloudServer.DrivenEvidence
open Planes List

section
variable {𝕜 : Type} [LinearOrder 𝕜] {a b m : Cell × 𝕜} {l : List (Cell × 𝕜)}

lemma trail_concat : m ∈ trail (l ++ [b]) ↔ m ∈ trail l ∨ m = b ∨ ∃ a ∈ l.getLast?, m ∈ chord a b := by
  induction l using trail.induct with
  | case1 => simp [trail]
  | case2 a => simp [trail, or_comm]
  | case3 a a' rest ih =>
    simp only [cons_append, trail, mem_cons, mem_append, List.getLast?_cons_cons] at ih ⊢
    rw [ih]
    simp only [or_assoc]

lemma mem_trail (h : m ∈ l) : m ∈ trail l := by
  induction l using trail.induct with
  | case1 => cases h
  | case2 a => exact h
  | case3 a a' rest ih =>
    simp only [trail, mem_cons, mem_append]
    rcases mem_cons.mp h with rfl | h
    · exact Or.inl rfl
    · exact Or.inr (Or.inr (ih h))

lemma chord_snd (h : m ∈ chord a b) : m.2 = b.2 := by
  unfold chord at h
  split_ifs at h with hd
  · obtain ⟨p, -, rfl⟩ := mem_map.mp h
    exact hd.symm
  · cases h

def shift (t : Cell) (m : Cell × 𝕜) : Cell × 𝕜 := (m.1 + t, m.2)

omit [LinearOrder 𝕜] in
lemma shift_injective (t : Cell) : Function.Injective (shift (𝕜 := 𝕜) t) := by
  intro a b h
  simp only [shift, Prod.mk.injEq, add_left_inj] at h
  exact Prod.ext h.1 h.2

lemma line_shift (a b t : Cell) : line (a + t) (b + t) = (line a b).map (· + t) := by
  unfold line
  simp only [Prod.fst_add, Prod.snd_add, add_sub_add_right_eq_sub, map_map]
  refine map_congr_left fun k _ => ?_
  simp only [Function.comp_apply, Prod.ext_iff, Prod.fst_add, Prod.snd_add]
  constructor <;> ring

lemma chord_shift (t : Cell) : chord (shift t a) (shift t b) = (chord a b).map (shift t) := by
  unfold chord shift
  dsimp only
  split_ifs
  · rw [line_shift, map_map, map_map]
    rfl
  · rfl

lemma trail_shift (t : Cell) : trail (l.map (shift t)) = (trail l).map (shift t) := by
  induction l using trail.induct with
  | case1 => rfl
  | case2 a => rfl
  | case3 a a' rest ih =>
    simp only [map_cons, trail, map_append, chord_shift] at ih ⊢
    rw [ih]

end

section
variable {𝕜 : Type} [Field 𝕜] [LinearOrder 𝕜] [IsStrictOrderedRing 𝕜] {ρ : Rule 𝕜}

/-- The driven cell `m` proves the cell `p`. -/
def Rule.Reaches (ρ : Rule 𝕜) (reach : 𝕜 → Option 𝕜) (m : Cell × 𝕜) (p : Cell) : Prop :=
  ∃ thr, reach m.2 = some thr ∧ ρ.Within thr (sqDist p m.1)

lemma Rule.Within.mono {thr : 𝕜} {m n : ℤ} (h : ρ.Within thr n) (hm : m ≤ n) : ρ.Within thr m :=
  ⟨h.1, (mul_le_mul_of_nonneg_right (Int.cast_le.mpr hm) (sq_nonneg ρ.h)).trans h.2⟩

omit [IsStrictOrderedRing 𝕜] in
lemma Rule.reaches_shift {reach : 𝕜 → Option 𝕜} {m : Cell × 𝕜} {p t : Cell} :
    ρ.Reaches reach (m.1 + t, m.2) (p + t) ↔ ρ.Reaches reach m p := by
  unfold Rule.Reaches
  simp only [sqDist_shift]

variable [FloorRing 𝕜]

lemma Rule.disc_iff {thr : 𝕜} {dy dx : ℤ} : ρ.disc thr dy dx = true ↔ ρ.Within thr (dy ^ 2 + dx ^ 2) := by
  have hside : ∀ a b : ℤ, ρ.Within thr (a ^ 2 + b ^ 2) → |a| ≤ ⌈thr / ρ.h⌉ + 1 := by
    intro a b h
    have hsq := (h.mono (le_add_of_nonneg_right (sq_nonneg b))).2
    have hle : ((|a| : ℤ) : 𝕜) * ρ.h ≤ thr := by
      refine (pow_le_pow_iff_left₀ (mul_nonneg (Int.cast_nonneg (abs_nonneg a)) ρ.h_pos.le) h.1 two_ne_zero).mp ?_
      rw [mul_pow, Int.cast_abs, sq_abs]
      exact_mod_cast hsq
    have hdiv : ((|a| : ℤ) : 𝕜) ≤ thr / ρ.h := (le_div_iff₀ ρ.h_pos).mpr hle
    have hceil : |a| ≤ ⌈thr / ρ.h⌉ := Int.cast_le.mp (hdiv.trans (Int.le_ceil _))
    linarith
  unfold Rule.disc
  simp only [decide_eq_true_eq]
  constructor
  · exact fun h => h.2.2
  · intro h
    exact ⟨hside _ _ h, hside _ _ (by rwa [add_comm] at h), h⟩

structure Shown (ρ : Rule 𝕜) (c : Canvas) (M : Cell × 𝕜 → Prop) (reach : 𝕜 → Option 𝕜) (img : Plane Bool) :
    Prop where
  height : img.H = c.rows
  width : img.W = c.cols
  cells : ∀ y < c.rows, ∀ x < c.cols, img.cell y x = true ↔
    ∃ m, M m ∧ c.Has m.1 ∧ ρ.Reaches reach m ((y : ℤ), (x : ℤ))

namespace Shown

variable {c c' : Canvas} {M M' : Cell × 𝕜 → Prop} {reach : 𝕜 → Option 𝕜} {img img' : Plane Bool}

section
omit [IsStrictOrderedRing 𝕜] [FloorRing 𝕜]

lemma same (h : Shown ρ c M reach img) (h' : Shown ρ c M reach img') : Plane.Same img img' where
  height := h.height.trans h'.height.symm
  width := h.width.trans h'.width.symm
  cells := fun y hy x hx => by
    rw [h.height] at hy
    rw [h.width] at hx
    rw [Bool.eq_iff_iff, h.cells y hy x hx, h'.cells y hy x hx]

lemma of_same (h : Shown ρ c M reach img) (hs : Plane.Same img' img) : Shown ρ c M reach img' where
  height := hs.height.trans h.height
  width := hs.width.trans h.width
  cells := fun y hy x hx => by
    rw [hs.cells y (hs.height.trans h.height ▸ hy) x (hs.width.trans h.width ▸ hx), h.cells y hy x hx]

lemma congr (h : Shown ρ c M reach img) (hM : ∀ m, c.Has m.1 → (M' m ↔ M m)) : Shown ρ c M' reach img where
  height := h.height
  width := h.width
  cells := fun y hy x hx => by
    rw [h.cells y hy x hx]
    refine exists_congr fun m => ?_
    constructor
    · exact fun ⟨hm, hc, hr⟩ => ⟨(hM m hc).mpr hm, hc, hr⟩
    · exact fun ⟨hm, hc, hr⟩ => ⟨(hM m hc).mp hm, hc, hr⟩

end

lemma stamp (h : Shown ρ c M reach img) {cells : List Cell} {d : 𝕜} (hc : ∀ q ∈ cells, c.Has q)
    (hM : ∀ m, c.Has m.1 → (M' m ↔ M m ∨ m.1 ∈ cells ∧ m.2 = d)) :
    Shown ρ c M' reach (ρ.stamp img cells (reach d)) := by
  cases hd : reach d with
  | none =>
    refine ⟨h.height, h.width, fun y hy x hx => ?_⟩
    refine (h.cells y hy x hx).trans (exists_congr fun m => ?_)
    constructor
    · exact fun ⟨hm, hm', hr⟩ => ⟨(hM m hm').mpr (Or.inl hm), hm', hr⟩
    · rintro ⟨hm, hm', hr⟩
      rcases (hM m hm').mp hm with hm | ⟨-, rfl⟩
      · exact ⟨hm, hm', hr⟩
      · obtain ⟨thr, ht, -⟩ := hr
        rw [hd] at ht
        cases ht
  | some thr =>
    refine ⟨h.height, h.width, fun y hy x hx => ?_⟩
    simp only [Rule.stamp, Bool.or_eq_true, any_eq_true, h.cells y hy x hx, Rule.disc_iff]
    constructor
    · rintro (⟨m, hm, hm', hr⟩ | ⟨q, hq, hw⟩)
      · exact ⟨m, (hM m hm').mpr (Or.inl hm), hm', hr⟩
      · exact ⟨(q, d), (hM (q, d) (hc q hq)).mpr (Or.inr ⟨hq, rfl⟩), hc q hq, thr, hd, hw⟩
    · rintro ⟨m, hm, hm', hr⟩
      rcases (hM m hm').mp hm with hm | ⟨hq, rfl⟩
      · exact Or.inl ⟨m, hm, hm', hr⟩
      · obtain ⟨thr', ht, hw⟩ := hr
        cases hd.symm.trans ht
        exact Or.inr ⟨m.1, hq, hw⟩

end Shown

/-- The canvas lies in a larger one, moved by `t` lattice cells. -/
structure Canvas.Inside (c c' : Canvas) (t : ℕ × ℕ) : Prop where
  rows : c.cy0 = c'.cy0 + 2 * t.1
  cols : c.cx0 = c'.cx0 + 2 * t.2
  height : t.1 + c.rows ≤ c'.rows
  width : t.2 + c.cols ≤ c'.cols

def move (t : ℕ × ℕ) : Cell := ((t.1 : ℤ), (t.2 : ℤ))

lemma Canvas.Inside.has {c c' : Canvas} {t : ℕ × ℕ} (h : c.Inside c' t) {p : Cell} (hp : c.Has p) :
    c'.Has (p + move t) := by
  have hh := h.height
  have hw := h.width
  simp only [Canvas.Has, move, Prod.fst_add, Prod.snd_add] at hp ⊢
  omega

/-- The driven cells of a larger canvas lie on the old one, with all that they prove. -/
def Still (ρ : Rule 𝕜) (c c' : Canvas) (t : ℕ × ℕ) (reach : 𝕜 → Option 𝕜) (M : Cell × 𝕜 → Prop) : Prop :=
  ∀ m, M m → c'.Has m.1 →
    c.Has (m.1 - move t) ∧ ∀ p, c'.Has p → ρ.Reaches reach m p → c.Has (p - move t)

omit [IsStrictOrderedRing 𝕜] [FloorRing 𝕜] in
lemma Shown.pad {c c' : Canvas} {M M' : Cell × 𝕜 → Prop} {reach : 𝕜 → Option 𝕜} {img : Plane Bool}
    (h : Shown ρ c M reach img) {t : ℕ × ℕ} (hin : c.Inside c' t)
    (hM : ∀ m, M' (m.1 + move t, m.2) ↔ M m) (hstill : Still ρ c c' t reach M') :
    Shown ρ c' M' reach (Plane.embed false c'.rows c'.cols t.1 t.2 img) := by
  refine ⟨rfl, rfl, fun y hy x hx => ?_⟩
  have hp : c'.Has ((y : ℤ), (x : ℤ)) := by
    simp only [Canvas.Has]
    omega
  have hcell : (Plane.embed false c'.rows c'.cols t.1 t.2 img).cell y x =
      if (⟨t.1, t.1 + c.rows, t.2, t.2 + c.cols⟩ : Box).Has y x then img.cell (y - t.1) (x - t.2) else false := by
    rw [← h.height, ← h.width]
    rfl
  rw [hcell]
  by_cases hb : (⟨t.1, t.1 + c.rows, t.2, t.2 + c.cols⟩ : Box).Has y x
  · rw [if_pos hb]
    simp only [Box.Has] at hb
    have hback : ((((y - t.1 : ℕ) : ℤ), ((x - t.2 : ℕ) : ℤ)) : Cell) + move t = ((y : ℤ), (x : ℤ)) := by
      simp only [move, Prod.mk_add_mk, Prod.mk.injEq]
      omega
    rw [h.cells (y - t.1) (by omega) (x - t.2) (by omega), ← hback]
    constructor
    · rintro ⟨m, hm, hc, hr⟩
      exact ⟨(m.1 + move t, m.2), (hM m).mpr hm, hin.has hc, Rule.reaches_shift.mpr hr⟩
    · rintro ⟨m, hm, hc, hr⟩
      have hm' : ((m.1 - move t) + move t, m.2) = m := by rw [sub_add_cancel]
      refine ⟨(m.1 - move t, m.2), (hM _).mp (by rwa [hm']), (hstill m hm hc).1, ?_⟩
      refine (Rule.reaches_shift (t := move t)).mp ?_
      rwa [hm']
  · rw [if_neg hb]
    refine iff_of_false Bool.false_ne_true ?_
    rintro ⟨m, hm, hc, hr⟩
    have hold := (hstill m hm hc).2 _ hp hr
    simp only [Canvas.Has, move, Prod.fst_sub, Prod.snd_sub] at hold
    simp only [Box.Has] at hb
    omega

end

section
variable {K S 𝕜 : Type} [DecidableEq S] {hist : S → Leaves K S 𝕜} {e : K × Rec S 𝕜}

def push (hist : S → Leaves K S 𝕜) (e : K × Rec S 𝕜) : S → Leaves K S 𝕜 :=
  Function.update hist e.2.session (hist e.2.session ++ [e])

lemma push_same : push hist e e.2.session = hist e.2.session ++ [e] := Function.update_self ..

lemma push_other {s : S} (h : s ≠ e.2.session) : push hist e s = hist s := Function.update_of_ne h ..

end

section
variable {K S 𝕜 : Type} [Field 𝕜] [LinearOrder 𝕜] [FloorRing 𝕜]
  (ρ : Rule 𝕜) (c : Canvas) (hist : S → Leaves K S 𝕜)

def Driven (m : Cell × 𝕜) : Prop := ∃ s, m ∈ trail ((hist s).map (point ρ c))
def Posed (m : Cell × 𝕜) : Prop := ∃ s, ∃ e ∈ hist s, m = point ρ c e

structure Shows (st : Kept K S 𝕜) : Prop where
  height : st.H = c.rows
  width : st.W = c.cols
  G : Shown ρ c (Driven ρ c hist) ρ.centre st.images.G
  W : Shown ρ c (Driven ρ c hist) ρ.proven st.images.W
  S : Shown ρ c (Driven ρ c hist) ρ.body st.images.S
  P : Shown ρ c (Posed ρ c hist) ρ.proven st.images.P
  last : ∀ s, st.last s = newest ρ (hist s) c

variable {ρ c hist} {c' : Canvas} {t : ℕ × ℕ} {e : K × Rec S 𝕜} {m : Cell × 𝕜} {st : Kept K S 𝕜}

lemma Posed.driven (h : Posed ρ c hist m) : Driven ρ c hist m := by
  obtain ⟨s, e, he, rfl⟩ := h
  exact ⟨s, mem_trail (mem_map_of_mem he)⟩

lemma Canvas.Inside.point (h : c.Inside c' t) : point ρ c' e = shift (move t) (point ρ c e) := by
  have hr := h.rows
  have hc := h.cols
  simp only [DrivenEvidence.point, Rule.place, shift, move, Prod.mk_add_mk, Prod.mk.injEq, and_true]
  omega

lemma driven_shift (h : c.Inside c' t) : Driven ρ c' hist (m.1 + move t, m.2) ↔ Driven ρ c hist m := by
  refine exists_congr fun s => ?_
  have hmap : (hist s).map (point ρ c') = ((hist s).map (point ρ c)).map (shift (move t)) := by
    rw [map_map]
    exact map_congr_left fun e _ => h.point
  rw [hmap, trail_shift]
  exact mem_map_of_injective (shift_injective (move t))

lemma posed_shift (h : c.Inside c' t) : Posed ρ c' hist (m.1 + move t, m.2) ↔ Posed ρ c hist m := by
  refine exists_congr fun s => exists_congr fun e => and_congr_right fun _ => ?_
  rw [h.point]
  exact (shift_injective (move t)).eq_iff (a := m)

variable [DecidableEq S]

lemma driven_push : Driven ρ c (push hist e) m ↔ Driven ρ c hist m ∨ m = point ρ c e ∨
    ∃ a ∈ (hist e.2.session).getLast?, m ∈ chord (point ρ c a) (point ρ c e) := by
  have hself : m ∈ trail ((push hist e e.2.session).map (point ρ c)) ↔
      m ∈ trail ((hist e.2.session).map (point ρ c)) ∨ m = point ρ c e ∨
        ∃ a ∈ (hist e.2.session).getLast?, m ∈ chord (point ρ c a) (point ρ c e) := by
    rw [push_same, map_append, map_singleton, trail_concat, List.getLast?_map]
    cases (hist e.2.session).getLast? with
    | none => simp
    | some a => simp
  constructor
  · rintro ⟨s, hs⟩
    by_cases h : s = e.2.session
    · subst h
      rcases hself.mp hs with hm | hm
      · exact Or.inl ⟨_, hm⟩
      · exact Or.inr hm
    · rw [push_other h] at hs
      exact Or.inl ⟨s, hs⟩
  · rintro (⟨s, hs⟩ | hm)
    · by_cases h : s = e.2.session
      · subst h
        exact ⟨_, hself.mpr (Or.inl hs)⟩
      · exact ⟨s, by rwa [push_other h]⟩
    · exact ⟨_, hself.mpr (Or.inr hm)⟩

lemma posed_push : Posed ρ c (push hist e) m ↔ Posed ρ c hist m ∨ m = point ρ c e := by
  constructor
  · rintro ⟨s, e', he', rfl⟩
    by_cases h : s = e.2.session
    · subst h
      rw [push_same, mem_append, mem_singleton] at he'
      rcases he' with he' | rfl
      · exact Or.inl ⟨_, e', he', rfl⟩
      · exact Or.inr rfl
    · rw [push_other h] at he'
      exact Or.inl ⟨s, e', he', rfl⟩
  · rintro (⟨s, e', he', rfl⟩ | rfl)
    · by_cases h : s = e.2.session
      · subst h
        exact ⟨_, e', by rw [push_same]; exact mem_append_left _ he', rfl⟩
      · exact ⟨s, e', by rwa [push_other h], rfl⟩
    · exact ⟨_, e, by rw [push_same]; exact mem_append_right _ mem_cons_self, rfl⟩

variable [IsStrictOrderedRing 𝕜]

omit [DecidableEq S] [IsStrictOrderedRing 𝕜] in
lemma Shows.mem_way (h : Shows ρ c hist st) (p : Cell) :
    p ∈ (match st.last e.2.session with
      | some l => (chord (l.pos, l.d) (point ρ c e)).map Prod.fst |>.filter fun p => c.Has p
      | none => []) ↔ c.Has p ∧ ∃ a ∈ (hist e.2.session).getLast?,
        (p, (point ρ c e).2) ∈ chord (point ρ c a) (point ρ c e) := by
  rw [h.last, newest]
  cases (hist e.2.session).getLast? with
  | none => simp
  | some a =>
    simp only [Option.map_some, mem_filter, mem_map, decide_eq_true_eq, Option.mem_def,
      Option.some.injEq, exists_eq_left']
    rw [and_comm]
    refine and_congr_right fun _ => ?_
    constructor
    · rintro ⟨m, hm, rfl⟩
      rw [← chord_snd hm]
      exact hm
    · exact fun hm => ⟨_, hm, rfl⟩

lemma Shows.drawLeaf (h : Shows ρ c hist st) : Shows ρ c (push hist e) (drawLeaf ρ c st e) := by
  set q := DrivenEvidence.point ρ c e with hq
  set here := if c.Has q.1 then [q.1] else [] with hhere
  have hin : ∀ p, p ∈ here ↔ c.Has p ∧ p = q.1 := by
    intro p
    rw [hhere]
    split_ifs with hc
    · simp only [mem_singleton]
      exact ⟨fun hp => ⟨hp ▸ hc, hp⟩, fun hp => hp.2⟩
    · simp only [not_mem_nil, false_iff, not_and]
      exact fun hp he => hc (he ▸ hp)
  have hcells : ∀ way : List Cell, (∀ p, p ∈ way ↔ c.Has p ∧ ∃ a ∈ (hist e.2.session).getLast?,
      (p, q.2) ∈ chord (DrivenEvidence.point ρ c a) q) → ∀ p ∈ here ++ way, c.Has p := by
    intro way hon p hp
    rcases mem_append.mp hp with hp | hp
    · exact ((hin p).mp hp).1
    · exact ((hon p).mp hp).1
  have hM : ∀ way : List Cell, (∀ p, p ∈ way ↔ c.Has p ∧ ∃ a ∈ (hist e.2.session).getLast?,
      (p, q.2) ∈ chord (DrivenEvidence.point ρ c a) q) → ∀ m : Cell × 𝕜, c.Has m.1 →
        (Driven ρ c (push hist e) m ↔ Driven ρ c hist m ∨ m.1 ∈ here ++ way ∧ m.2 = q.2) := by
    intro way hon m hm
    rw [driven_push, mem_append, hin, hon]
    refine or_congr_right ?_
    constructor
    · rintro (rfl | ⟨a, ha, hmem⟩)
      · exact ⟨Or.inl ⟨hm, rfl⟩, rfl⟩
      · have hs := chord_snd hmem
        exact ⟨Or.inr ⟨hm, a, ha, by rwa [← hs]⟩, hs⟩
    · rintro ⟨⟨-, hp⟩ | ⟨-, a, ha, hmem⟩, hd⟩
      · exact Or.inl (Prod.ext hp hd)
      · exact Or.inr ⟨a, ha, by rwa [← hd] at hmem⟩
  exact
    { height := h.height
      width := h.width
      G := h.G.stamp (hcells _ h.mem_way) (hM _ h.mem_way)
      W := h.W.stamp (hcells _ h.mem_way) (hM _ h.mem_way)
      S := h.S.stamp (hcells _ h.mem_way) (hM _ h.mem_way)
      P := h.P.stamp (fun p hp => ((hin p).mp hp).1) fun m hm => by
        rw [posed_push, hin]
        refine or_congr_right ⟨?_, fun hp => Prod.ext hp.1.2 hp.2⟩
        rintro rfl
        exact ⟨⟨hm, rfl⟩, rfl⟩
      last := fun s => by
        by_cases hs : s = e.2.session
        · subst hs
          rw [push_same]
          simp [DrivenEvidence.drawLeaf, newest, DrivenEvidence.point]
        · rw [push_other hs, ← h.last s]
          exact Function.update_of_ne hs .. }

end
end CloudServer.DrivenEvidence
