import CloudServer.RunErosion
import CloudServer.Lists

/-! Run lengths compute the erosion, in bands and spliced into the result before. -/
namespace CloudServer.RunErosion
open Planes List

variable {sqs : List Element} {e fp free free' sp : Plane Bool} {d x x' y y' : ℤ} {st : Element}
variable {B pad : ℕ} {c : Option (Plane Bool × Plane Bool)}

lemma le_foldr_min {l : List ℤ} : y ≤ l.foldr min d ↔ y ≤ d ∧ ∀ a ∈ l, y ≤ a := by
  induction l with
  | nil => simp
  | cons a rest ih =>
    rw [foldr_cons, le_min_iff, ih, forall_mem_cons]
    tauto

lemma foldr_max_le {l : List ℤ} : l.foldr max d ≤ y ↔ d ≤ y ∧ ∀ a ∈ l, a ≤ y := by
  induction l with
  | nil => simp
  | cons a rest ih =>
    rw [foldr_cons, max_le_iff, ih, forall_mem_cons]
    tauto

lemma le_foldr_min_nat {l : List ℕ} {d y : ℕ} : y ≤ l.foldr min d ↔ y ≤ d ∧ ∀ a ∈ l, y ≤ a := by
  induction l with
  | nil => simp
  | cons a rest ih =>
    rw [foldr_cons, le_min_iff, ih, forall_mem_cons]
    tauto

variable {tbl : List (List Row)} {k : Call} {L : ℕ}

lemma le_run {y x : ℕ} (hL : 0 < L) :
    L ≤ run free y x ↔ x + L ≤ free.W ∧ ∀ i < L, free.cell y (x + i) = true := by
  have hle : L ≤ run free y x ↔ x + L ≤ nextBlocked free y x := by
    unfold run
    omega
  rw [hle, nextBlocked, le_foldr_min_nat]
  refine and_congr_right fun hW => ?_
  simp only [mem_map, mem_range'_1, forall_exists_index, and_imp]
  constructor
  · intro h i hi
    by_contra hno
    have := h _ (x + i) (by omega) (by omega) rfl
    rw [if_neg hno] at this
    omega
  · rintro h a i hxi hi rfl
    split_ifs with hfree
    · exact hW
    · by_contra hlt
      have := h (i - x) (by omega)
      rw [Nat.add_sub_cancel' hxi] at this
      exact hfree this

/-- All cells of the row are free when the element is put at `(y, x)`. -/
def Fits (free : Plane Bool) (r : Row) (y x : ℤ) : Prop :=
  ∀ i < r.2.2, free.get false (y + r.1) (x + r.2.1 + i) = true

lemma get_eq_true : free.get false y x = true ↔
    free.box.Has y x ∧ free.cell y.toNat x.toNat = true := by
  by_cases h : free.box.Has y x
  · rw [Plane.get_of_has h]
    exact (and_iff_right h).symm
  · rw [Plane.get_outside h]
    simp [h]

lemma fit_spec {rows : List Row} (hne : rows ≠ []) (hL : ∀ r ∈ rows, 0 < r.2.2) :
    ∃ f, fit free rows = some f ∧
      ∀ y x : ℕ, y < free.H → x < free.W → (f y x = true ↔ ∀ r ∈ rows, Fits free r y x) := by
  unfold fit
  rw [if_neg hne]
  refine ⟨_, rfl, fun y x hy hx => ?_⟩
  rw [Bool.and_eq_true, decide_eq_true_eq, all_eq_true]
  have hbounds : ((rows.map fun r => max 0 (-r.1)).foldr max 0 ≤ (y : ℤ) ∧
        (y : ℤ) < (rows.map fun r => min (free.H : ℤ) (free.H - r.1)).foldr min (free.H : ℤ) ∧
        (rows.map fun r => max 0 (-r.2.1)).foldr max 0 ≤ (x : ℤ) ∧
        (x : ℤ) < (rows.map fun r => min (free.W : ℤ) (free.W - r.2.1)).foldr min (free.W : ℤ)) ↔
      ∀ r ∈ rows, (0 ≤ y + r.1 ∧ y + r.1 < free.H) ∧ 0 ≤ x + r.2.1 ∧ x + r.2.1 < free.W := by
    rw [foldr_max_le, foldr_max_le, ← Int.add_one_le_iff, le_foldr_min, ← Int.add_one_le_iff, le_foldr_min]
    simp only [forall_mem_map]
    constructor
    · rintro ⟨⟨-, h₁⟩, ⟨-, h₂⟩, ⟨-, h₃⟩, -, h₄⟩ r hr
      have := h₁ r hr
      have := h₂ r hr
      have := h₃ r hr
      have := h₄ r hr
      omega
    · intro h
      refine ⟨⟨by omega, fun r hr => ?_⟩, ⟨by omega, fun r hr => ?_⟩,
        ⟨by omega, fun r hr => ?_⟩, by omega, fun r hr => ?_⟩
      all_goals
        have := h r hr
        omega
  rw [hbounds]
  have hrun : ∀ r ∈ rows, (0 ≤ y + r.1 ∧ y + r.1 < free.H) ∧ 0 ≤ x + r.2.1 ∧ x + r.2.1 < free.W →
      (r.2.2 ≤ run free (y + r.1).toNat (x + r.2.1).toNat ↔ Fits free r y x) := by
    intro r hr hb
    rw [le_run (hL r hr)]
    unfold Fits
    simp only [get_eq_true, Plane.box, Box.Has]
    constructor
    · rintro ⟨hW, hcells⟩ i hi
      refine ⟨by omega, ?_⟩
      have := hcells i hi
      rwa [show (x + r.2.1 + i : ℤ).toNat = (x + r.2.1).toNat + i by omega]
    · intro h
      have hlast := (h (r.2.2 - 1) (by have := hL r hr; omega)).1
      refine ⟨by have := hL r hr; omega, fun i hi => ?_⟩
      have := (h i hi).2
      rwa [show (x + r.2.1 + i : ℤ).toNat = (x + r.2.1).toNat + i by omega] at this
  constructor
  · rintro ⟨hb, hall⟩ r hr
    exact (hrun r hr (hb r hr)).mp (of_decide_eq_true (hall r hr))
  · intro hall
    have hb : ∀ r ∈ rows, (0 ≤ y + r.1 ∧ y + r.1 < free.H) ∧ 0 ≤ x + r.2.1 ∧ x + r.2.1 < free.W := by
      intro r hr
      have := (get_eq_true.mp (hall r hr 0 (hL r hr))).1
      simp only [Plane.box, Box.Has] at this
      omega
    exact ⟨hb, fun r hr => decide_eq_true ((hrun r hr (hb r hr)).mpr (hall r hr))⟩

lemma interval_spec {i : ℕ} {o : Option Row} (h : st.interval i = some o) :
    (o = none ∧ ∀ j < st.w, st.mark i j = false) ∨
      ∃ a L : ℕ, o = some ((i : ℤ) - (st.h / 2 : ℕ), (a : ℤ) - (st.w / 2 : ℕ), L) ∧ 0 < L ∧ a + L ≤ st.w ∧
        ∀ j < st.w, st.mark i j = true ↔ a ≤ j ∧ j < a + L := by
  have hsorted := hits_lt (st.mark i) 0 st.w
  unfold Element.interval at h
  cases hhead : (hits (st.mark i) 0 st.w).head? with
  | none =>
    simp only [hhead, Option.some.injEq] at h
    refine .inl ⟨h.symm, fun j hj => Bool.eq_false_iff.mpr fun hm => ?_⟩
    have hin : j ∈ hits (st.mark i) 0 st.w := mem_hits.mpr ⟨⟨Nat.zero_le j, hj⟩, hm⟩
    rw [List.head?_eq_none_iff.mp hhead] at hin
    cases hin
  | some a =>
    have ha := mem_hits.mp (mem_of_head? hhead)
    obtain ⟨z, hz⟩ := Option.isSome_iff_exists.mp
      (List.getLast?_isSome.mpr (ne_nil_of_mem (mem_of_head? hhead)))
    have hzin := mem_hits.mp (mem_of_getLast? hz)
    have haz := le_of_last hsorted hz (mem_of_head? hhead)
    simp only [hhead, hz] at h
    split_ifs at h with hall
    have hall := all_eq_true.mp hall
    have hmem : ∀ j, j ∈ hits (st.mark i) 0 st.w ↔ j ∈ List.range' a (z + 1 - a) := by
      intro j
      rw [mem_range'_1]
      constructor
      · intro hj
        have h₁ := le_of_head hsorted hhead hj
        have h₂ := le_of_last hsorted hz hj
        omega
      · intro hj
        exact mem_hits.mpr ⟨by omega, hall j (mem_range'_1.mpr hj)⟩
    have hlen : (hits (st.mark i) 0 st.w).length = z + 1 - a := by
      have hperm := (perm_ext_iff_of_nodup (hsorted.imp fun h => h.ne) nodup_range').mpr hmem
      rw [hperm.length_eq, length_range']
    refine .inr ⟨a, z + 1 - a, ?_, by omega, by omega, fun j hj => ?_⟩
    · rw [← hlen]
      exact (Option.some.inj h).symm
    · have := hmem j
      rw [mem_hits, mem_range'_1] at this
      constructor
      · exact fun hm => this.mp ⟨⟨Nat.zero_le j, hj⟩, hm⟩
      · exact fun hj => (this.mpr hj).2

lemma binaryErosion_iff : binaryErosion free st y x = true ↔
    ∀ i < st.h, ∀ j < st.w, st.mark i j = true →
      free.get false (y + (i - (st.h / 2 : ℕ))) (x + (j - (st.w / 2 : ℕ))) = true := by
  unfold binaryErosion
  simp only [all_eq_true, mem_range, Bool.or_eq_true, Bool.not_eq_true', ← Bool.not_eq_true]
  refine forall₂_congr fun i _ => forall₂_congr fun j _ => ?_
  rw [← imp_iff_not_or]

lemma rows_spec {rs : List Row} (h : st.rows = some rs) :
    rs ≠ [] ∧ (∀ r ∈ rs, 0 < r.2.2) ∧ ∀ (free : Plane Bool) (y x : ℤ),
      binaryErosion free st y x = true ↔ ∀ r ∈ rs, Fits free r y x := by
  obtain ⟨os, hos, rfl⟩ := Option.map_eq_some_iff.mp h
  obtain ⟨hinto, hfrom⟩ := mapM_mem hos
  have hmem : ∀ r, r ∈ os.reduceOption ↔ ∃ i < st.h, st.interval i = some (some r) := by
    intro r
    rw [reduceOption_mem_iff]
    constructor
    · intro hr
      obtain ⟨i, hi, he⟩ := hfrom _ hr
      exact ⟨i, mem_range.mp hi, he⟩
    · rintro ⟨i, hi, he⟩
      obtain ⟨o, ho, he'⟩ := hinto i (mem_range.mpr hi)
      cases he.symm.trans he'
      exact ho
  have hrow : ∀ i < st.h, ∃ o, st.interval i = some o := fun i hi => by
    obtain ⟨o, -, ho⟩ := hinto i (mem_range.mpr hi)
    exact ⟨o, ho⟩
  refine ⟨fun hnil => ?_, fun r hr => ?_, fun free y x => ?_⟩
  · obtain ⟨i, hi, j, hj, hm⟩ := st.marked
    obtain ⟨o, ho⟩ := hrow i hi
    rcases interval_spec ho with ⟨-, hno⟩ | ⟨a, L, rfl, -⟩
    · rw [hno j hj] at hm
      cases hm
    · have hin := (hmem _).mpr ⟨i, hi, ho⟩
      rw [hnil] at hin
      cases hin
  · obtain ⟨i, hi, hint⟩ := (hmem r).mp hr
    rcases interval_spec hint with ⟨hn, -⟩ | ⟨a, L, he, hL, -⟩
    · cases hn
    · cases he
      exact hL
  · rw [binaryErosion_iff]
    constructor
    · intro hfit r hr k hk
      obtain ⟨i, hi, hint⟩ := (hmem r).mp hr
      rcases interval_spec hint with ⟨hn, -⟩ | ⟨a, L, he, -, hw, hmark⟩
      · cases hn
      · cases he
        have hj : a + k < st.w := by simp only at hk; omega
        have hcell := hfit i hi (a + k) hj ((hmark _ hj).mpr ⟨by omega, by simpa using hk⟩)
        rw [Nat.cast_add, show (x + ((a : ℤ) + k - (st.w / 2 : ℕ))) =
          x + (a - (st.w / 2 : ℕ)) + k by ring] at hcell
        exact hcell
    · intro hfit i hi j hj hm
      obtain ⟨o, ho⟩ := hrow i hi
      rcases interval_spec ho with ⟨-, hno⟩ | ⟨a, L, rfl, -, -, hmark⟩
      · rw [hno j hj] at hm
        cases hm
      · have hb := (hmark j hj).mp hm
        have hcell := hfit _ ((hmem _).mpr ⟨i, hi, ho⟩) (j - a) (by simp only; omega)
        simp only at hcell
        rw [Nat.cast_sub hb.1, show (x + (a - (st.w / 2 : ℕ)) + (j - a) : ℤ) =
          x + (j - (st.w / 2 : ℕ)) by ring] at hcell
        exact hcell

open Plane

lemma eroded_cell (sqs : List Element) (free : Plane Bool) (y x : ℕ) :
    (eroded sqs free).cell y x = sqs.any fun st => binaryErosion free st y x := rfl

lemma erodeWhole_spec (free : Plane Bool)
    (h : squareRows sqs = some tbl) : ∃ e, erodeWhole free tbl = some e ∧ Same e (eroded sqs free) := by
  obtain ⟨hinto, hfrom⟩ := mapM_mem h
  have hfit : ∀ rs ∈ tbl, ∃ f, fit free rs = some f ∧ ∀ y x : ℕ, y < free.H → x < free.W →
      (f y x = true ↔ ∀ r ∈ rs, Fits free r y x) := by
    intro rs hrs
    obtain ⟨st, -, hst⟩ := hfrom rs hrs
    obtain ⟨hne, hL, -⟩ := rows_spec hst
    exact fit_spec hne hL
  obtain ⟨fits, hfits⟩ := exists_mapM fun rs hrs => (hfit rs hrs).imp fun _ hf => hf.1
  obtain ⟨hinto', hfrom'⟩ := mapM_mem hfits
  refine ⟨⟨free.H, free.W, fun y x => fits.any fun f => f y x⟩, ?_, rfl, rfl, fun y hy x hx => ?_⟩
  · unfold erodeWhole
    rw [hfits]
    rfl
  · rw [eroded_cell, Bool.eq_iff_iff, any_eq_true, any_eq_true]
    constructor
    · rintro ⟨f, hf, htrue⟩
      obtain ⟨rs, hrs, he⟩ := hfrom' f hf
      obtain ⟨st, hst, he'⟩ := hfrom rs hrs
      obtain ⟨f', hf', hiff⟩ := hfit rs hrs
      cases he.symm.trans hf'
      exact ⟨st, hst, ((rows_spec he').2.2 free y x).mpr ((hiff y x hy hx).mp htrue)⟩
    · rintro ⟨st, hst, htrue⟩
      obtain ⟨rs, hrs, he⟩ := hinto st hst
      obtain ⟨f, hf, he'⟩ := hinto' rs hrs
      obtain ⟨f', hf', hiff⟩ := hfit rs hrs
      cases he'.symm.trans hf'
      exact ⟨f, hf, (hiff y x hy hx).mpr (((rows_spec he).2.2 free y x).mp htrue)⟩

/-- No element reaches further than `pad`. -/
def Within (sqs : List Element) (pad : ℕ) : Prop := ∀ st ∈ sqs, st.h ≤ pad ∧ st.w ≤ pad

lemma reach_spec (hne : sqs ≠ []) :
    ∃ pad, reach sqs = some pad ∧ Within sqs pad ∧ 0 < pad := by
  unfold reach
  cases hmax : (sqs.map fun st => max st.h st.w).max? with
  | none => simp [hne] at hmax
  | some pad =>
    have hle : ∀ st ∈ sqs, max st.h st.w ≤ pad := fun st hst =>
      (List.max?_le_iff hmax).mp le_rfl _ (mem_map_of_mem hst)
    refine ⟨pad, rfl, fun st hst => max_le_iff.mp (hle st hst), ?_⟩
    obtain ⟨st, hst⟩ := exists_mem_of_ne_nil sqs hne
    obtain ⟨i, hi, -⟩ := st.marked
    have := hle st hst
    omega

lemma binaryErosion_congr (hpad : st.h ≤ pad ∧ st.w ≤ pad)
    (h : ∀ dy dx : ℤ, -pad ≤ dy → dy < pad → -pad ≤ dx → dx < pad →
      free.get false (y + dy) (x + dx) = free'.get false (y' + dy) (x' + dx)) :
    binaryErosion free st y x = binaryErosion free' st y' x' := by
  rw [Bool.eq_iff_iff, binaryErosion_iff, binaryErosion_iff]
  refine forall₂_congr fun i hi => forall₂_congr fun j hj => imp_congr_right fun _ => ?_
  rw [h _ _ (by omega) (by omega) (by omega) (by omega)]

lemma any_congr_mem {α : Type} {l : List α} {p q : α → Bool} (h : ∀ a ∈ l, p a = q a) : l.any p = l.any q := by
  induction l with
  | nil => rfl
  | cons a rest ih =>
    rw [any_cons, any_cons, h a mem_cons_self, ih fun b hb => h b (.tail _ hb)]

lemma eroded_get (h : free.box.Has y x) :
    (eroded sqs free).get false y x = sqs.any fun st => binaryErosion free st y x := by
  obtain ⟨y', x', rfl, rfl, hy, hx⟩ := exists_nat h
  rw [get_nat (p := eroded sqs free) false hy hx, eroded_cell]

lemma eroded_crop (hpad : Within sqs pad) (free : Plane Bool) (b : Box)
    (hb : b.Has y x) (hin : free.box.Has y x) :
    (eroded sqs (free.crop (b.grow pad free.H free.W))).get false (y - (b.grow pad free.H free.W).y0)
        (x - (b.grow pad free.H free.W).x0) = (eroded sqs free).get false y x := by
  rw [eroded_get, eroded_get hin]
  · refine any_congr_mem fun st hst => binaryErosion_congr (hpad st hst) fun dy dx h₁ h₂ h₃ h₄ => ?_
    rw [show y - (b.grow pad free.H free.W).y0 + dy = y + dy - (b.grow pad free.H free.W).y0 by ring,
      show x - (b.grow pad free.H free.W).x0 + dx = x + dx - (b.grow pad free.H free.W).x0 by ring, get_crop]
    split_ifs with hw
    · rfl
    · -- what the margin leaves out lies outside the plane
      rw [get_outside]
      simp only [box, Box.Has, Box.grow] at hb hin hw ⊢
      omega
  · simp only [box, Box.Has, crop, Box.grow] at hb hin ⊢
    omega

def spliced (sp : Plane Bool) (b win : Box) (e : Plane Bool) : Plane Bool :=
  sp.paste b (e.crop ⟨b.y0 - win.y0, b.y1 - win.y0, b.x0 - win.x0, b.x1 - win.x0⟩)

lemma spliced_spec (hpad : Within sqs pad) {b : Box}
    (hH : sp.H = free.H) (hW : sp.W = free.W) (hb : b.y1 ≤ free.H ∧ b.x1 ≤ free.W)
    (he : Same e (eroded sqs (free.crop (b.grow pad free.H free.W)))) {y x : ℕ} (hy : y < free.H)
    (hx : x < free.W) :
    (spliced sp b (b.grow pad free.H free.W) e).cell y x =
      if b.Has y x then (eroded sqs free).cell y x else sp.cell y x := by
  set win := b.grow pad free.H free.W with hwin
  have heH : e.H = min win.y1 free.H - win.y0 := he.height
  have heW : e.W = min win.x1 free.W - win.x0 := he.width
  rw [← get_nat (p := spliced sp b win e) false (hH ▸ hy) (hW ▸ hx), spliced, get_paste]
  · split_ifs with h₁ h₂ h₂
    · rw [show (y : ℤ) - b.y0 = y - win.y0 - (b.y0 - win.y0 : ℕ) by simp only [hwin, Box.grow]; omega,
        show (x : ℤ) - b.x0 = x - win.x0 - (b.x0 - win.x0 : ℕ) by simp only [hwin, Box.grow]; omega]
      have hcrop := get_crop e ⟨b.y0 - win.y0, b.y1 - win.y0, b.x0 - win.x0, b.x1 - win.x0⟩ false
        (y - win.y0) (x - win.x0)
      rw [hcrop, if_pos, he.get, eroded_crop hpad free b h₂ (has_nat.mpr ⟨hy, hx⟩),
        get_nat (p := eroded sqs free) false hy hx]
      simp only [Box.Has, hwin, Box.grow] at h₂ ⊢
      omega
    · exact absurd h₁.2 h₂
    · exact absurd ⟨has_nat.mpr ⟨hH ▸ hy, hW ▸ hx⟩, h₂⟩ h₁
    · exact get_nat false (hH ▸ hy) (hW ▸ hx)
  · simp only [crop, heH, hwin, Box.grow]
    omega
  · simp only [crop, heW, hwin, Box.grow]
    omega

lemma band_spec (free : Plane Bool) (h : squareRows sqs = some tbl)
    (hpad : Within sqs pad) {sq : Plane Bool} (hH : sq.H = free.H) (hW : sq.W = free.W) (b0 : ℕ) :
    ∃ sq', band free tbl pad B sq b0 = some sq' ∧ sq'.H = free.H ∧ sq'.W = free.W ∧
      ∀ y < free.H, ∀ x < free.W, sq'.cell y x =
        if b0 ≤ y ∧ y < b0 + B then (eroded sqs free).cell y x else sq.cell y x := by
  set b : Box := ⟨b0, min free.H (b0 + B), 0, free.W⟩ with hb
  have hgrow : b.grow pad free.H free.W = ⟨b0 - pad, min free.H (min free.H (b0 + B) + pad), 0, free.W⟩ := by
    simp [Box.grow, hb]
  obtain ⟨e, he, hsame⟩ := erodeWhole_spec (free.crop (b.grow pad free.H free.W)) h
  have hband : band free tbl pad B sq b0 = some (spliced sq b (b.grow pad free.H free.W) e) := by
    rw [hgrow] at he ⊢
    change (erodeWhole _ tbl).bind _ = _
    rw [he]
    simp only [Option.bind_some, spliced, hb, Nat.sub_zero]
  refine ⟨_, hband, hH, hW, fun y hy x hx => ?_⟩
  rw [spliced_spec hpad hH hW ⟨min_le_left _ _, le_rfl⟩ hsame hy hx]
  refine if_congr ?_ rfl rfl
  simp only [hb, Box.Has]
  omega

lemma bands_spec (free : Plane Bool) (h : squareRows sqs = some tbl)
    (hpad : Within sqs pad) (n : ℕ) :
    ∃ sq, ((List.range n).map (· * B)).foldlM (band free tbl pad B) ⟨free.H, free.W,
      fun _ _ => false⟩ = some sq ∧
      sq.H = free.H ∧ sq.W = free.W ∧
      ∀ y < free.H, y < n * B → ∀ x < free.W, sq.cell y x = (eroded sqs free).cell y x := by
  induction n with
  | zero => exact ⟨_, rfl, rfl, rfl, fun y _ hy => by omega⟩
  | succ n ih =>
    obtain ⟨sq, hsq, hH, hW, hcells⟩ := ih
    obtain ⟨sq', hsq', hH', hW', hcells'⟩ := band_spec free h (B := B) hpad hH hW (n * B)
    refine ⟨sq', ?_, hH', hW', fun y hy hlt x hx => ?_⟩
    · rw [range_succ, map_append, foldlM_append, hsq]
      simpa using hsq'
    · rw [hcells' y hy x hx]
      split_ifs with hin
      · rfl
      · rw [Nat.succ_mul] at hlt
        exact hcells y hy (by omega) x hx

lemma erodeUnion_spec (free : Plane Bool) (sqs : List Element) (band_cells : ℕ)
    (hne : 2 * band_cells < free.H * free.W → sqs ≠ []) :
    ∃ e, erodeUnion free sqs (squareRows sqs) band_cells = some e ∧ Same e (eroded sqs free) := by
  cases h : squareRows sqs with
  | none => exact ⟨_, rfl, Same.refl _⟩
  | some tbl =>
    unfold erodeUnion
    dsimp only
    split_ifs with hempty hbands
    · exact ⟨_, rfl, Same.refl _⟩
    · obtain ⟨pad, hreach, hpad, hpos⟩ := reach_spec (hne hbands)
      rw [hreach]
      set B := max pad (band_cells / free.W) with hB
      obtain ⟨sq, hsq, hH, hW, hcells⟩ := bands_spec free h (B := B) hpad ((free.H + B - 1) / B)
      refine ⟨sq, hsq, hH, hW, fun y hy x hx => hcells y (hH ▸ hy) ?_ x (hW ▸ hx)⟩
      have hBpos : 0 < B := lt_of_lt_of_le hpos (le_max_left _ _)
      have := Nat.lt_div_mul_add hBpos (a := free.H + B - 1)
      rw [hH] at hy
      omega
    · exact erodeWhole_spec free h

def Element.Centred (st : Element) : Prop := st.mark (st.h / 2) (st.w / 2) = true

lemma Element.centre_lt (st : Element) : st.h / 2 < st.h ∧ st.w / 2 < st.w := by
  obtain ⟨i, hi, j, hj, -⟩ := st.marked
  omega

lemma binaryErosion_outside (h : st.Centred)
    (hout : ¬ free.box.Has y x) : binaryErosion free st y x = false := by
  rw [Bool.eq_false_iff]
  intro hfit
  have hcentre := binaryErosion_iff.mp hfit _ st.centre_lt.1 _ st.centre_lt.2 h
  rw [sub_self, sub_self, add_zero, add_zero, get_outside hout] at hcentre
  cases hcentre

lemma binaryErosion_congr_get
    (h : ∀ dy dx : ℤ, free.get false (y + dy) (x + dx) = free'.get false (y' + dy) (x' + dx)) :
    binaryErosion free st y x = binaryErosion free' st y' x' :=
  binaryErosion_congr ⟨le_max_left st.h st.w, le_max_right st.h st.w⟩ fun dy dx _ _ _ _ => h dy dx

lemma eroded_same (h : Same free free') :
    Same (eroded sqs free) (eroded sqs free') :=
  ⟨h.height, h.width, fun _ _ _ _ => any_congr_mem fun _ _ => binaryErosion_congr_get fun _ _ => h.get _ _ _⟩

lemma eroded_embed (hc : ∀ st ∈ sqs, st.Centred) (fp : Plane Bool) {H W oy ox : ℕ}
    (hH : oy + fp.H ≤ H) (hW : ox + fp.W ≤ W) :
    Same (embed false H W oy ox (eroded sqs fp)) (eroded sqs (embed false H W oy ox fp)) := by
  refine (same_iff false (by rfl) (by rfl)).mpr fun y x => ?_
  have hshift : ∀ st, binaryErosion (embed false H W oy ox fp) st y x =
      binaryErosion fp st (y - oy) (x - ox) := fun st => by
    refine binaryErosion_congr_get fun dy dx => ?_
    rw [get_embed fp false hH hW, add_sub_right_comm, add_sub_right_comm]
  by_cases hbox : (embed false H W oy ox fp).box.Has y x
  · rw [get_embed (eroded sqs fp) false hH hW, eroded_get hbox]
    simp only [hshift]
    by_cases hin : fp.box.Has (y - oy) (x - ox)
    · exact eroded_get hin
    · have hout : ¬ (eroded sqs fp).box.Has (y - oy) (x - ox) := hin
      rw [get_outside hout, eq_comm, any_eq_false]
      exact fun st hst => Bool.not_eq_true _ ▸ binaryErosion_outside (hc st hst) hin
  · have h₁ : ¬ (embed false H W oy ox (eroded sqs fp)).box.Has y x := hbox
    have h₂ : ¬ (eroded sqs (embed false H W oy ox fp)).box.Has y x := hbox
    rw [get_outside h₁, get_outside h₂]

def Valid (sqs : List Element) (c : Option (Plane Bool × Plane Bool)) : Prop :=
  ∀ fp sp, c = some (fp, sp) → Same sp (eroded sqs fp)

/-- The box bounds the cells where the plane differs from one of its size before. -/
def Bounds (last : Option (Plane Bool)) (k : Call) : Prop :=
  ∀ fp b, last = some fp → k.box = some b → fp.H = k.free.H → fp.W = k.free.W →
    ∀ y < k.free.H, ∀ x < k.free.W, fp.cell y x ≠ k.free.cell y x → b.Has y x

lemma previous_spec (hc : ∀ st ∈ sqs, st.Centred)
    (hv : Valid sqs c) (h : previous c k = some (fp, sp)) :
    fp.H = k.free.H ∧ fp.W = k.free.W ∧ Same sp (eroded sqs fp) := by
  unfold previous at h
  cases c with
  | none => cases h
  | some c =>
    obtain ⟨fp₀, sp₀⟩ := c
    have hsame := hv fp₀ sp₀ rfl
    dsimp only at h
    split_ifs at h with hsize hfit
    · cases h
      exact ⟨hsize.1, hsize.2, hsame⟩
    · cases h
      refine ⟨rfl, rfl, Same.trans ?_ (eroded_embed hc fp₀ hfit.1 hfit.2)⟩
      refine (same_iff false (by rfl) (by rfl)).mpr fun y x => ?_
      rw [get_embed _ _ (hsame.height ▸ hfit.1) (hsame.width ▸ hfit.2),
        get_embed (eroded sqs fp₀) _ hfit.1 hfit.2, hsame.get]

lemma looked_spec (hb : Bounds (c.map Prod.fst) k)
    (h : previous c k = some (fp, sp)) {y x : ℕ} (hy : y < k.free.H) (hx : x < k.free.W)
    (hne : fp.cell y x ≠ k.free.cell y x) : (looked c k).Has y x := by
  have hall : k.free.box.Has y x := has_nat.mpr ⟨hy, hx⟩
  cases c with
  | none => cases h
  | some c =>
    obtain ⟨fp₀, sp₀⟩ := c
    unfold looked
    cases hbox : k.box with
    | none => exact hall
    | some b =>
      dsimp only
      split_ifs with hsize
      · unfold previous at h
        dsimp only at h
        rw [if_pos hsize] at h
        cases h
        have hin := hb fp b rfl hbox hsize.1 hsize.2 y hy x hx hne
        simp only [Box.Has] at hin ⊢
        omega
      · exact hall

lemma eroded_unchanged (hpad : Within sqs pad) (hH : fp.H = free.H) (hW : fp.W = free.W) {b : Box}
    (hb : ∀ y < free.H, ∀ x < free.W, fp.cell y x ≠ free.cell y x → b.Has y x) {y x : ℕ} (hy : y < free.H)
    (hx : x < free.W) (hout : ¬ (b.grow pad free.H free.W).Has y x) :
    (eroded sqs fp).cell y x = (eroded sqs free).cell y x := by
  refine any_congr_mem fun st hst => binaryErosion_congr (hpad st hst) fun dy dx h₁ h₂ h₃ h₄ => ?_
  by_cases hin : free.box.Has (y + dy) (x + dx)
  · obtain ⟨y', x', hy', hx', hyH, hxW⟩ := exists_nat hin
    rw [hy', hx', get_nat false (hH.symm ▸ hyH) (hW.symm ▸ hxW), get_nat false hyH hxW]
    by_contra hne
    have hbox := hb y' hyH x' hxW hne
    simp only [Box.Has, Box.grow] at hbox hout
    omega
  · have hin' : ¬ fp.box.Has (y + dy) (x + dx) := by
      unfold box at hin ⊢
      rwa [hH, hW]
    rw [get_outside hin, get_outside hin']

lemma erode_spec (hne : sqs ≠ []) (hc : ∀ st ∈ sqs, st.Centred)
    (hv : Valid sqs c) (hb : Bounds (c.map Prod.fst) k) :
    ∃ sq, erode sqs c k = some sq ∧ Same sq (eroded sqs k.free) := by
  unfold erode
  cases hprev : previous c k with
  | none => exact erodeUnion_spec _ _ _ fun _ => hne
  | some prev =>
    obtain ⟨fp, sp⟩ := prev
    obtain ⟨hH, hW, hsame⟩ := previous_spec hc hv hprev
    have hlook : ∀ y < k.free.H, ∀ x < k.free.W, fp.cell y x ≠ k.free.cell y x → (looked c k).Has y x :=
      fun y hy x hx => looked_spec hb hprev hy hx
    dsimp only
    rcases bounding_spec (fun y x => fp.cell y x != k.free.cell y x) (looked c k) with
      ⟨hnone, hno⟩ | ⟨b, hsome, hin, -, -, hy1, -, -, hx1, -⟩
    · rw [hnone]
      refine ⟨sp, rfl, hsame.trans (eroded_same ⟨hH, hW, fun y hy x hx => ?_⟩)⟩
      by_contra hdiff
      have := hno y x (hlook y (hH ▸ hy) x (hW ▸ hx) hdiff)
      rw [bne_eq_false_iff_eq] at this
      exact hdiff this
    · obtain ⟨pad, hreach, hpad, -⟩ := reach_spec hne
      obtain ⟨e, he, hesame⟩ := erodeUnion_spec
        (k.free.crop ((b.grow pad k.free.H k.free.W).grow pad k.free.H k.free.W)) sqs (2 ^ 20) fun _ => hne
      rw [hsome, hreach]
      simp only [Option.bind_eq_bind, Option.bind_some, he]
      refine ⟨spliced sp (b.grow pad k.free.H k.free.W) _ e, rfl, hsame.height.trans hH,
        hsame.width.trans hW, fun y hy x hx => ?_⟩
      have hy : y < k.free.H := hy.trans_eq (hsame.height.trans hH)
      have hx : x < k.free.W := hx.trans_eq (hsame.width.trans hW)
      rw [spliced_spec hpad (hsame.height.trans hH) (hsame.width.trans hW) ⟨min_le_left _ _,
        min_le_left _ _⟩ hesame hy hx]
      split_ifs with hbox
      · rfl
      · rw [hsame.cells y (by rw [hsame.height]; exact hy.trans_eq hH.symm) x (by rw [hsame.width]; exact hx.trans_eq hW.symm)]
        refine eroded_unchanged hpad hH hW (fun y hy x hx hdiff => ?_) hy hx hbox
        exact hin y x (hlook y hy x hx hdiff) (by simpa using hdiff)

/-- Each call's box holds the cells that changed since the call before. -/
def Boxes : Option (Plane Bool) → List Call → Prop
  | _, [] => True
  | last, k :: ks => Bounds last k ∧ Boxes (some k.free) ks

lemma erodeAll_spec (hne : sqs ≠ []) (hc : ∀ st ∈ sqs, st.Centred) (ks : List Call)
    (hv : Valid sqs c) (hb : Boxes (c.map Prod.fst) ks) :
    ∃ outs, erodeAll sqs c ks = some outs ∧ List.Forall₂ (fun k sq => Same sq (eroded sqs k.free)) ks outs := by
  induction ks generalizing c with
  | nil => exact ⟨[], rfl, .nil⟩
  | cons k ks ih =>
    obtain ⟨sq, hsq, hsame⟩ := erode_spec hne hc hv hb.1
    have hv' : Valid sqs (some (k.free, sq)) := by
      rintro fp sp ⟨⟩
      exact hsame
    obtain ⟨outs, houts, hall⟩ := ih hv' hb.2
    refine ⟨sq :: outs, ?_, .cons hsame hall⟩
    unfold erodeAll
    rw [hsq]
    simp only [Option.bind_eq_bind, Option.bind_some, houts]

section
variable {𝕜 : Type} [Field 𝕜] [LinearOrder 𝕜] [IsStrictOrderedRing 𝕜]
variable {Q R a ca res sa side : 𝕜}

lemma centre_in {b : 𝕜} (ha : 1 / 2 ≤ |a|) (hb : 1 / 2 ≤ |b|) (hu : |ca * a + sa * b| ≤ Q)
    (hv : |-sa * a + ca * b| ≤ Q) :
    |ca * (1 / 2) + sa * (1 / 2)| ≤ Q ∧ |-sa * (1 / 2) + ca * (1 / 2)| ≤ Q := by
  have hQ : 0 ≤ Q := (abs_nonneg _).trans hu
  have ha2 : 1 / 4 ≤ a ^ 2 := by
    rw [← sq_abs]
    nlinarith
  have hb2 : 1 / 4 ≤ b ^ 2 := by
    rw [← sq_abs]
    nlinarith
  have hD : 0 < a ^ 2 + b ^ 2 := by linarith
  -- twice the larger coordinate is below twice the squared distance
  have hsum : |a + b| + |a - b| ≤ 2 * (a ^ 2 + b ^ 2) := by
    rcases abs_cases (a + b) with ⟨h, -⟩ | ⟨h, -⟩ <;> rcases abs_cases (a - b) with ⟨h', -⟩ | ⟨h', -⟩ <;>
      rw [h, h'] <;>
      nlinarith [sq_nonneg (a - 1 / 2), sq_nonneg (a + 1 / 2), sq_nonneg (b - 1 / 2), sq_nonneg (b + 1 / 2)]
  have hbound : ∀ p q u v : 𝕜, |p| + |q| ≤ 2 * (a ^ 2 + b ^ 2) → |u| ≤ Q → |v| ≤ Q →
      |p * u + q * v| ≤ 2 * Q * (a ^ 2 + b ^ 2) := by
    intro p q u v hpq hu hv
    calc |p * u + q * v| ≤ |p| * |u| + |q| * |v| := by
          rw [← abs_mul, ← abs_mul]
          exact abs_add_le _ _
      _ ≤ |p| * Q + |q| * Q :=
          add_le_add (mul_le_mul_of_nonneg_left hu (abs_nonneg _)) (mul_le_mul_of_nonneg_left hv (abs_nonneg _))
      _ = (|p| + |q|) * Q := by ring
      _ ≤ 2 * (a ^ 2 + b ^ 2) * Q := mul_le_mul_of_nonneg_right hpq hQ
      _ = 2 * Q * (a ^ 2 + b ^ 2) := by ring
  have hhalf : ∀ z : 𝕜, |z * (a ^ 2 + b ^ 2)| ≤ 2 * Q * (a ^ 2 + b ^ 2) → |z * (1 / 2)| ≤ Q := by
    intro z hz
    rw [abs_mul, abs_of_pos hD] at hz
    have := le_of_mul_le_mul_right hz hD
    rw [abs_mul, abs_of_pos (show (0 : 𝕜) < 1 / 2 from one_half_pos)]
    linarith
  constructor
  · rw [← add_mul]
    refine hhalf _ ?_
    rw [show (ca + sa) * (a ^ 2 + b ^ 2) =
      (a + b) * (ca * a + sa * b) + (-(a - b)) * (-sa * a + ca * b) by ring]
    exact hbound _ _ _ _ (by rwa [abs_neg]) hu hv
  · rw [← add_mul]
    refine hhalf _ ?_
    rw [show (-sa + ca) * (a ^ 2 + b ^ 2) = (a - b) * (ca * a + sa * b) + (a + b) * (-sa * a + ca * b) by ring]
    exact hbound _ _ _ _ (by rwa [add_comm]) hu hv

lemma half_le_abs (i n : ℕ) : (1 / 2 : 𝕜) ≤ |(i : 𝕜) + 1 / 2 - (n + 2)| := by
  rcases lt_or_ge i (n + 2) with h | h
  · have hle : (i : 𝕜) + 1 ≤ n + 2 := by exact_mod_cast h
    rw [abs_of_nonpos (by linarith)]
    linarith
  · have hle : (n : 𝕜) + 2 ≤ i := by exact_mod_cast h
    rw [abs_of_nonneg (by linarith)]
    linarith

lemma inSquare_symm {n j i : ℕ} (hj : j < (n + 2) * 2) (hi : i < (n + 2) * 2) :
    inSquare ca sa R n ((n + 2) * 2 - 1 - j) ((n + 2) * 2 - 1 - i) = inSquare ca sa R n j i := by
  have hneg : ∀ i, i < (n + 2) * 2 →
      (((n + 2) * 2 - 1 - i : ℕ) : 𝕜) + 1 / 2 - (n + 2) = -((i : 𝕜) + 1 / 2 - (n + 2)) := by
    intro i hi
    have hcast : (((n + 2) * 2 - 1 - i : ℕ) : 𝕜) + i + 1 = (n + 2) * 2 := by
      have : (n + 2) * 2 - 1 - i + i + 1 = (n + 2) * 2 := by omega
      exact_mod_cast this
    linear_combination hcast
  unfold inSquare
  simp only [hneg i hi, hneg j hj]
  rw [show ∀ p q : 𝕜, ca * -p + sa * -q = -(ca * p + sa * q) from fun p q => by ring,
    show ∀ p q : 𝕜, -sa * -p + ca * -q = -(-sa * p + ca * q) from fun p q => by ring, abs_neg, abs_neg]

variable [FloorRing 𝕜]

lemma square_centred (h : square ca sa side res = some st) : st.Centred := by
  unfold square at h
  dsimp only at h
  split at h
  · cases h
  · rename_i c hc
    cases h
    set n := (pyRound (side / res)).toNat with hn
    set k := inSquare ca sa (side / res / 2) n with hk
    rcases bounding_spec k ⟨0, (n + 2) * 2, 0, (n + 2) * 2⟩ with ⟨hnone, -⟩ |
      ⟨c', hc', hin, -, hy, hy1, -, hx, hx1, ⟨x, hbx, hmx⟩, ⟨x', hbx', hmx'⟩, ⟨y, hby, hmy⟩, y', hby', hmy'⟩
    · rw [hc] at hnone
      cases hnone
    cases hc.symm.trans hc'
    have hflip : ∀ y x : ℕ, (⟨0, (n + 2) * 2, 0, (n + 2) * 2⟩ : Box).Has y x → k y x = true →
        c.Has ((n + 2) * 2 - 1 - y : ℕ) ((n + 2) * 2 - 1 - x : ℕ) := by
      intro y x hb hm
      simp only [Box.Has] at hb
      refine hin _ _ (by simp only [Box.Has]; omega) ?_
      rwa [hk, inSquare_symm (by omega) (by omega)]
    have h₁ := hflip _ _ hbx hmx
    have h₂ := hflip _ _ hbx' hmx'
    have h₃ := hflip _ _ hby hmy
    have h₄ := hflip _ _ hby' hmy'
    simp only [Box.Has] at h₁ h₂ h₃ h₄ hbx hby hbx' hby'
    have hcy : c.y0 + (c.y1 - c.y0) / 2 = n + 2 := by omega
    have hcx : c.x0 + (c.x1 - c.x0) / 2 = n + 2 := by omega
    have hcell : k c.y0 x = true := hmx
    rw [hk, inSquare, decide_eq_true_eq] at hcell
    have hcentre := centre_in (half_le_abs x n) (half_le_abs c.y0 n) hcell.1 hcell.2
    have hhalf : ((n + 2 : ℕ) : 𝕜) + 1 / 2 - (n + 2) = 1 / 2 := by
      push_cast
      ring
    have hmid : k (n + 2) (n + 2) = true := by
      rw [hk, inSquare, decide_eq_true_eq, hhalf]
      exact hcentre
    unfold Element.Centred
    dsimp only
    rw [hcy, hcx]
    exact hmid

lemma squares_spec {trig : ℕ → 𝕜 × 𝕜} {r : 𝕜} (h : squares trig res r = some sqs) :
    sqs ≠ [] ∧ ∀ st ∈ sqs, st.Centred := by
  obtain ⟨hinto, hfrom⟩ := mapM_mem h
  refine ⟨?_, fun st hst => ?_⟩
  · obtain ⟨st, hst, -⟩ := hinto 0 (by decide)
    exact ne_nil_of_mem hst
  · obtain ⟨k, -, hk⟩ := hfrom st hst
    exact square_centred hk

/-- Erosion by run lengths is the OR of the erosions, banded or not, and every spliced result of a
sequence of planes on a growing canvas is the erosion of the whole plane. -/
theorem erosion_exact :
    (∀ (free : Plane Bool) (sqs : List Element) (band_cells : ℕ),
      (2 * band_cells < free.H * free.W → sqs ≠ []) →
      ∃ e, erodeUnion free sqs (squareRows sqs) band_cells = some e ∧ Same e (eroded sqs free)) ∧
    ∀ (trig : ℕ → 𝕜 × 𝕜) (res r : 𝕜) (sqs : List Element) (ks : List Call),
      squares trig res r = some sqs → Boxes none ks →
      ∃ outs, erodeAll sqs none ks = some outs ∧
        List.Forall₂ (fun k sq => Same sq (eroded sqs k.free)) ks outs := by
  refine ⟨erodeUnion_spec, fun trig res r sqs ks h hb => ?_⟩
  obtain ⟨hne, hc⟩ := squares_spec h
  exact erodeAll_spec hne hc ks (fun _ _ he => nomatch he) hb

def grownCalls : List Call :=
  [⟨⟨4, 5, fun _ _ => true⟩, (0, 0), none⟩, ⟨⟨6, 5, fun y _ => y != 1⟩, (1, 0), some ⟨0, 2, 0, 5⟩⟩]

theorem erosion_exact_grown : ∃ sqs, squares (fun _ => ((1 : ℚ), 0)) 1 1 = some sqs ∧
    ∃ outs, erodeAll sqs none grownCalls = some outs ∧
      List.Forall₂ (fun k sq => Same sq (eroded sqs k.free)) grownCalls outs := by
  have hsome : (squares (fun _ => ((1 : ℚ), 0)) 1 1).isSome = true := by decide +kernel
  obtain ⟨sqs, hsqs⟩ := Option.isSome_iff_exists.mp hsome
  refine ⟨sqs, hsqs, (erosion_exact (𝕜 := ℚ)).2 _ 1 1 sqs grownCalls hsqs ⟨?_, ?_, trivial⟩⟩
  · rintro fp b ⟨⟩
  · rintro fp b ⟨⟩ - hH
    cases hH

end

end CloudServer.RunErosion
