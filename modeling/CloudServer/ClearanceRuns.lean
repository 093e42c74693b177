import CloudServer.ClearanceExact

/-! Every sequence of planes, from canvas to canvas. -/
namespace CloudServer.Clearance
open Planes

/-- The distances of the entry are those to its nearest cell that is not free. -/
structure Exactly (e : Entry) : Prop where
  height : e.d.H = e.free.H
  width : e.d.W = e.free.W
  nearest : (∃ c, e.free.Unset c) → ∀ y < e.free.H, ∀ x < e.free.W,
    NearestIn e.free.Unset ((y : ℤ), (x : ℤ)) (e.d.cell y x)

lemma le_ceilSqrt_of_sq {m n : ℕ} (h : m ^ 2 ≤ n) : m ≤ ceilSqrt n := by
  have hs := Nat.le_sqrt'.mpr h
  unfold ceilSqrt
  split_ifs <;> omega

section
variable {edt : Plane Bool → ℕ → ℕ → ℕ} {old : Box} {fp free : Plane Bool} {dp : Plane ℕ} {box : Option Box}

/-- The kept distances of a plane without a measured cell still span the canvas. -/
def Spans (free : Plane Bool) (dp : Plane ℕ) : Prop :=
  ∃ y < free.H, ∃ x < free.W, (max free.H free.W - 1) ^ 2 ≤ dp.cell y x

lemma whole_exactly (he : Exact edt) : Exactly (whole edt free) := by
  refine ⟨rfl, rfl, fun ⟨c, hc⟩ y hy x hx => ?_⟩
  obtain ⟨v, u, -, hv, hu, hm⟩ := hc.exists
  exact he free ⟨v, hv, u, hu, hm⟩ y hy x hx

lemma reach_of_spans {b : Box} (hH : dp.H = free.H) (hW : dp.W = free.W) (hall : allSet fp = true)
    (h : Spans free dp) : max free.H free.W ≤ reach dp b fp free := by
  obtain ⟨y, hy, x, hx, hle⟩ := h
  have hmax := hle.trans (le_largestIn (d := dp) (Plane.has_nat.mpr ⟨hy.trans_eq hH.symm, hx.trans_eq hW.symm⟩))
  have hs := le_ceilSqrt_of_sq hmax
  unfold reach
  rw [hall, Bool.true_or, if_pos rfl]
  omega

lemma update_exact (he : Exact edt) (hplanes : fp.H = free.H ∧ fp.W = free.W ∧ dp.H = free.H ∧ dp.W = free.W)
    (hcanvas : old.y1 ≤ free.H ∧ old.x1 ≤ free.W)
    (hbox : ∀ b, box = some b → ∀ y < free.H, ∀ x < free.W, fp.cell y x ≠ free.cell y x ∨ ¬ old.Has y x → b.Has y x)
    (hd : (∃ c, Known old fp c) → ∀ y x : ℕ, old.Has y x → NearestIn (Known old fp) ((y : ℤ), (x : ℤ)) (dp.cell y x))
    (hcalm : (∃ c, Known old fp c) ∨ (old = free.box ∧ Spans free dp)) :
    ∃ e, e.free = free ∧ Exactly e ∧ ∀ fuel, free.H + free.W ≤ fuel → update edt old fp dp free box fuel = some e := by
  obtain ⟨hfH, hfW, hdH, hdW⟩ := hplanes
  have hmarked : ∀ {y x : ℕ}, changed old fp free y x = true ↔ fp.cell y x ≠ free.cell y x ∨ ¬ old.Has y x := by
    intro y x
    simp only [changed, Bool.or_eq_true, bne_iff_ne, Bool.not_eq_true', decide_eq_false_iff_not]
  have hsame : ∀ {y x : ℕ}, changed old fp free y x = false → fp.cell y x = free.cell y x ∧ old.Has y x := by
    intro y x hm
    have hn := mt hmarked.mpr (Bool.eq_false_iff.mp hm)
    rw [not_or, not_not, not_not] at hn
    exact hn
  have hin : ∀ y < free.H, ∀ x < free.W, changed old fp free y x = true → (scan free box).Has y x := by
    intro y hy x hx hm
    cases hb : box with
    | none => exact Plane.has_nat.mpr ⟨hy, hx⟩
    | some b =>
      have hbh := hbox b hb y hy x hx (hmarked.mp hm)
      simp only [scan, Box.Has] at hbh ⊢
      omega
  have hscan : (scan free box).y1 ≤ free.H ∧ (scan free box).x1 ≤ free.W := by
    cases box with
    | none => exact ⟨le_rfl, le_rfl⟩
    | some b => exact ⟨min_le_right _ _, min_le_right _ _⟩
  unfold update
  rcases bounding_spec (changed old fp free) (scan free box) with
    ⟨hnone, hempty⟩ | ⟨b, hb, hall, h₁, h₂, h₃, h₄, h₅, h₆, -⟩
  · have hno : ∀ y < free.H, ∀ x < free.W, fp.cell y x = free.cell y x ∧ old.Has y x := by
      intro y hy x hx
      refine hsame (Bool.eq_false_iff.mpr fun hm => ?_)
      rw [hempty y x (hin y hy x hx hm)] at hm
      cases hm
    have hknown : ∀ c, Known old fp c ↔ free.Unset c := fun c =>
      known_iff_unset hfH hfW hcanvas fun y hy x hx _ => hno y hy x hx
    refine ⟨⟨free, dp⟩, rfl, ⟨hdH, hdW, ?_⟩, fun fuel _ => by rw [hnone]⟩
    rintro ⟨c, hc⟩ y hy x hx
    have hnear := hd ⟨c, (hknown c).mpr hc⟩ y x (hno y hy x hx).2
    rwa [show Known old fp = free.Unset from funext fun c => propext (hknown c)] at hnear
  · have hchange : Change old fp dp free b := by
      refine ⟨⟨hfH, hfW, hdH, hdW⟩, hcanvas, ⟨h₂, by omega, h₅, by omega⟩, fun y hy x hx hn => ?_⟩
      refine hsame (Bool.eq_false_iff.mpr fun hm => hn ?_)
      exact hall y x (hin y hy x hx hm) hm
    set E := b.grow (reach dp b fp free) free.H free.W with hE
    have hsome : ∃ sub, transformed edt free E (free.H + free.W) (ceilSqrt (largestIn dp E) + 2) = some sub := by
      apply transformed_some
      · simp only [hE, Box.grow]
        omega
      · simp only [hE, Box.grow]
        omega
      all_goals omega
    obtain ⟨sub, hsub⟩ := hsome
    refine ⟨⟨free, dp.paste E sub⟩, rfl, ⟨hdH, hdW, fun hc => ?_⟩, fun fuel hf => ?_⟩
    · refine hchange.exact he hd ?_ hc hE hsub
      by_cases hS : ∃ c, Known old fp c
      · exact Or.inl hS
      · obtain ⟨rfl, hspans⟩ := hcalm.resolve_left hS
        refine Or.inr (reach_of_spans hdH hdW (allSet_iff.mpr fun y hy x hx => ?_) hspans)
        by_contra hn
        refine hS ⟨((y : ℤ), (x : ℤ)), Plane.has_nat.mpr ⟨hy.trans_eq hfH, hx.trans_eq hfW⟩, ?_⟩
        rwa [Plane.marked_nat hy hx]
    · rw [hb]
      dsimp only
      rw [← hE, transformed_mono hf hsub]
      rfl

end

def Call.Bounded (k : Call) (e : Entry) : Prop :=
  ∀ b, k.box = some b → ∀ y < k.free.H, ∀ x < k.free.W, e.free.cell y x ≠ k.free.cell y x → b.Has y x

def Call.Same (k : Call) (e : Entry) : Prop := e.free.H = k.free.H ∧ e.free.W = k.free.W

/-- The new canvas does not hold the old one, so that everything is transformed again. -/
def Call.Anew (k : Call) (e : Entry) : Prop :=
  k.free.H < 2 * k.shift.1 + e.free.H ∨ k.free.W < 2 * k.shift.2 + e.free.W

/-- The old plane has a cell that is not free; without one the canvas stays and its kept distances
span it. -/
def Call.Measured (k : Call) (e : Entry) : Prop :=
  (∃ c, e.free.Unset c) ∨ (k.Same e ∧ Spans k.free e.d) ∨ (¬ k.Same e ∧ k.Anew e)

section
variable {edt : Plane Bool → ℕ → ℕ → ℕ} {e : Entry} {k : Call}

lemma same_exact (he : Exact edt) (h : Exactly e) (hk : k.Same e) (hb : k.Bounded e) (hm : k.Measured e) :
    ∃ e', e'.free = k.free ∧ Exactly e' ∧
      ∀ fuel, k.free.H + k.free.W ≤ fuel → update edt k.free.box e.free e.d k.free k.box fuel = some e' := by
  obtain ⟨hH, hW⟩ := hk
  have hknown : ∀ c, Known k.free.box e.free c ↔ e.free.Unset c := by
    intro c
    unfold Known Plane.Unset Plane.box
    rw [hH, hW]
  have hfun : Known k.free.box e.free = e.free.Unset := funext fun c => propext (hknown c)
  refine update_exact he ⟨hH, hW, h.height.trans hH, h.width.trans hW⟩ ⟨le_rfl, le_rfl⟩ ?_ ?_ ?_
  · intro b hbox y hy x hx hc
    exact hb b hbox y hy x hx (hc.resolve_right fun hn => hn (Plane.has_nat.mpr ⟨hy, hx⟩))
  · rw [hfun]
    intro hS y x hold
    obtain ⟨hy, hx⟩ := Plane.has_nat.mp hold
    exact h.nearest hS y (hy.trans_eq hH.symm) x (hx.trans_eq hW.symm)
  · rw [hfun]
    rcases hm with hS | ⟨-, hs⟩ | ⟨hn, -⟩
    · exact Or.inl hS
    · exact Or.inr ⟨rfl, hs⟩
    · exact (hn ⟨hH, hW⟩).elim

lemma grown_exact (he : Exact edt) (h : Exactly e) (hk : ¬ k.Anew e) (hS : ∃ c, e.free.Unset c) :
    ∃ e', e'.free = k.free ∧ Exactly e' ∧ ∀ fuel, k.free.H + k.free.W ≤ fuel →
      update edt ⟨2 * k.shift.1, 2 * k.shift.1 + e.free.H, 2 * k.shift.2, 2 * k.shift.2 + e.free.W⟩
        (Plane.embed false k.free.H k.free.W (2 * k.shift.1) (2 * k.shift.2) e.free)
        (Plane.embed 0 k.free.H k.free.W (2 * k.shift.1) (2 * k.shift.2) e.d) k.free none fuel = some e' := by
  unfold Call.Anew at hk
  rw [not_or, not_lt, not_lt] at hk
  set oy := 2 * k.shift.1 with hoy
  set ox := 2 * k.shift.2 with hox
  set t : Cell := ((oy : ℤ), (ox : ℤ)) with ht
  have hknown : ∀ c, Known ⟨oy, oy + e.free.H, ox, ox + e.free.W⟩
      (Plane.embed false k.free.H k.free.W oy ox e.free) c ↔ e.free.Unset (c - t) := by
    intro c
    unfold Known Plane.Unset Plane.Marked
    rw [Plane.get_embed _ _ hk.1 hk.2]
    refine and_congr ?_ Iff.rfl
    simp only [ht, Box.Has, Plane.box, Prod.fst_sub, Prod.snd_sub]
    omega
  refine update_exact he ⟨rfl, rfl, rfl, rfl⟩ hk (fun b hb => by cases hb) (fun _ y x hold => ?_) (Or.inl ?_)
  · have hcell : (Plane.embed 0 k.free.H k.free.W oy ox e.d).cell y x = e.d.cell (y - oy) (x - ox) :=
      if_pos (by rw [h.height, h.width]; exact hold)
    rw [hcell]
    simp only [Box.Has] at hold
    have hpoint : ((y : ℤ), (x : ℤ)) - t = (((y - oy : ℕ) : ℤ), ((x - ox : ℕ) : ℤ)) := by
      refine Prod.ext ?_ ?_
      all_goals
        simp only [ht, Prod.fst_sub, Prod.snd_sub]
        omega
    refine NearestIn.shift (t := t) ?_ hknown
    rw [hpoint]
    exact h.nearest hS (y - oy) (by omega) (x - ox) (by omega)
  · obtain ⟨c, hc⟩ := hS
    exact ⟨c + t, (hknown _).mpr (by rwa [add_sub_cancel_right])⟩

lemma call_exact (he : Exact edt) (h : Exactly e) (hb : k.Same e → k.Bounded e) (hm : k.Measured e) :
    ∃ e', e'.free = k.free ∧ Exactly e' ∧
      ∀ fuel, k.free.H + k.free.W ≤ fuel → clearanceRaw edt (some e) k fuel = some e' := by
  unfold clearanceRaw
  dsimp only
  by_cases hs : k.Same e
  · obtain ⟨e', hfree, hexact, hrun⟩ := same_exact he h hs (hb hs) hm
    exact ⟨e', hfree, hexact, fun fuel hf => (if_pos hs).trans (hrun fuel hf)⟩
  · by_cases ha : k.Anew e
    · exact ⟨whole edt k.free, rfl, whole_exactly he, fun fuel _ => (if_neg hs).trans (if_pos ha)⟩
    · have hS : ∃ c, e.free.Unset c := by
        rcases hm with hS | ⟨hs', -⟩ | ⟨-, ha'⟩
        · exact hS
        · exact (hs hs').elim
        · exact (ha ha').elim
      obtain ⟨e', hfree, hexact, hrun⟩ := grown_exact he h ha hS
      exact ⟨e', hfree, hexact, fun fuel hf => (if_neg hs).trans ((if_neg ha).trans (hrun fuel hf))⟩

/-- The call returns `e'`, whatever the bound of its loop. -/
def Returns (edt : Plane Bool → ℕ → ℕ → ℕ) (c : Option Entry) (k : Call) (e' : Entry) : Prop :=
  ∃ N, ∀ fuel, N ≤ fuel → clearanceRaw edt c k fuel = some e'

def Call.Calm (k : Call) (c : Option Entry) : Prop :=
  ∀ e, c = some e → (k.Same e → k.Bounded e) ∧ k.Measured e

inductive Reached (edt : Plane Bool → ℕ → ℕ → ℕ) : Option Entry → Prop
  | start : Reached edt none
  | call {c : Option Entry} {k : Call} {e : Entry} : Reached edt c → k.Calm c → Returns edt c k e →
      Reached edt (some e)

lemma returns_exact (he : Exact edt) {c : Option Entry} (h : ∀ e, c = some e → Exactly e) (hk : k.Calm c) :
    ∃ e', e'.free = k.free ∧ Exactly e' ∧ Returns edt c k e' := by
  cases c with
  | none => exact ⟨whole edt k.free, rfl, whole_exactly he, 0, fun fuel _ => rfl⟩
  | some e =>
    obtain ⟨hb, hm⟩ := hk e rfl
    obtain ⟨e', hfree, hexact, hrun⟩ := call_exact he (h e rfl) hb hm
    exact ⟨e', hfree, hexact, _, hrun⟩

lemma Returns.unique {c : Option Entry} {e' : Entry} (h : Returns edt c k e) (h' : Returns edt c k e') :
    e = e' := by
  obtain ⟨N, hN⟩ := h
  obtain ⟨N', hN'⟩ := h'
  have he := hN (max N N') (le_max_left _ _)
  rw [hN' (max N N') (le_max_right _ _)] at he
  exact (Option.some.inj he).symm

/-- In every run whose calls are calm the kept distances are exact, and every calm call returns. -/
theorem clearance_exact (he : Exact edt) {c : Option Entry} (h : Reached edt c) :
    (∀ e, c = some e → Exactly e) ∧
      ∀ k : Call, k.Calm c → ∃ e, e.free = k.free ∧ Exactly e ∧ Returns edt c k e := by
  have hexact : ∀ e, c = some e → Exactly e := by
    induction h with
    | start => exact fun e he => nomatch he
    | @call c k e' _ hk hret ih =>
      obtain ⟨e'', -, hexact, hret'⟩ := returns_exact he ih hk
      rintro e ⟨⟩
      exact hret.unique hret' ▸ hexact
  exact ⟨hexact, fun k hk => returns_exact he hexact hk⟩

end

/-- The squared distances from `(y, x)` to the cells that are not set. -/
def squares (p : Plane Bool) (y x : ℕ) : List ℕ :=
  ((cellsIn p.box).filter fun c => !p.cell c.1 c.2).map fun c =>
    (sqDist ((y : ℤ), (x : ℤ)) ((c.1 : ℤ), (c.2 : ℤ))).toNat

/-- scipy's transform: without a cell to measure to, the distance to the cell above the first one. -/
def distanceTransform (p : Plane Bool) (y x : ℕ) : ℕ := (squares p y x).min?.getD ((y + 1) ^ 2 + x ^ 2)

lemma mem_squares {p : Plane Bool} {y x n : ℕ} :
    n ∈ squares p y x ↔ ∃ c, p.Unset c ∧ (n : ℤ) = sqDist ((y : ℤ), (x : ℤ)) c := by
  unfold squares
  simp only [List.mem_map, List.mem_filter, mem_cellsIn, Bool.not_eq_true']
  constructor
  · rintro ⟨⟨v, u⟩, ⟨hb, hm⟩, rfl⟩
    obtain ⟨hv, hu⟩ := Plane.has_nat.mp hb
    exact ⟨_, (Plane.unset_nat hv hu).mpr hm, Int.toNat_of_nonneg (sqDist_nonneg _ _)⟩
  · rintro ⟨c, hc, hn⟩
    obtain ⟨v, u, rfl, hv, hu, hm⟩ := hc.exists
    exact ⟨(v, u), ⟨Plane.has_nat.mpr ⟨hv, hu⟩, hm⟩, by rw [← hn, Int.toNat_natCast]⟩

lemma distanceTransform_exact : Exact distanceTransform := by
  rintro p ⟨v, hv, u, hu, hm⟩ y _ x _
  have hne : squares p y x ≠ [] := List.ne_nil_of_mem
    (mem_squares.mpr ⟨_, (Plane.unset_nat hv hu).mpr hm, Int.toNat_of_nonneg (sqDist_nonneg _ _)⟩)
  obtain ⟨n, hn⟩ : ∃ n, (squares p y x).min? = some n :=
    Option.isSome_iff_exists.mp (List.isSome_min?_of_ne_nil hne)
  obtain ⟨hmem, hle⟩ := List.min?_eq_some_iff.mp hn
  have hval : distanceTransform p y x = n := by
    unfold distanceTransform
    rw [hn, Option.getD_some]
  rw [hval]
  exact ⟨mem_squares.mp hmem, fun k hk => hle k (mem_squares.mpr hk)⟩

/-- A free cell of a room becomes a wall. -/
theorem clearance_exact_wall :
    let f : Plane Bool := ⟨2, 3, fun y x => !(y == 0 && x == 0)⟩
    let g : Plane Bool := ⟨2, 3, fun _ x => !(x == 0)⟩
    ∃ e, e.free = g ∧ Exactly e ∧
      Returns distanceTransform (some (whole distanceTransform f)) ⟨g, (0, 0), some ⟨1, 2, 0, 1⟩⟩ e := by
  intro f g
  have hstart : Reached distanceTransform (some (whole distanceTransform f)) :=
    .call .start (k := ⟨f, (0, 0), none⟩) (fun e h => nomatch h) ⟨0, fun _ _ => rfl⟩
  refine (clearance_exact distanceTransform_exact hstart).2 ⟨g, (0, 0), some ⟨1, 2, 0, 1⟩⟩ ?_
  rintro e ⟨⟩
  refine ⟨fun _ => ?_, Or.inl ⟨((0 : ℕ), (0 : ℕ)), (Plane.unset_nat (by decide) (by decide)).mpr rfl⟩⟩
  rintro b ⟨⟩
  decide

/-- An all-free canvas grows at the bottom and gets a wall there: its first cell keeps the distance 1
where the wall is 13 cells away. -/
theorem grown_canvas_stale :
    let f : Plane Bool := ⟨12, 3, fun _ _ => true⟩
    let g : Plane Bool := ⟨14, 3, fun y x => !(y == 13 && x == 0)⟩
    Exact distanceTransform ∧
      clearanceRaw distanceTransform none ⟨f, (0, 0), none⟩ 0 = some (whole distanceTransform f) ∧
      (clearanceRaw distanceTransform (some (whole distanceTransform f)) ⟨g, (0, 0), none⟩ 1).map
        (fun e => e.d.cell 0 0) = some 1 ∧
      NearestIn g.Unset (0, 0) 169 := by
  intro f g
  have hval : distanceTransform g 0 0 = 169 := by decide
  have hnear := distanceTransform_exact g ⟨13, by decide, 0, by decide, rfl⟩ 0 (by decide) 0 (by decide)
  rw [hval] at hnear
  exact ⟨distanceTransform_exact, rfl, by decide +kernel, hnear⟩

end CloudServer.Clearance
