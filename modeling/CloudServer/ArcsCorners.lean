import CloudServer.ArcsRule

/-! The four cells around a corner through which an arc continues. -/
namespace CloudServer.Arcs
open Planes List

variable {i : ℕ}
variable {d : ℤ × ℤ}

namespace Space

structure Wide (sp : Space) : Prop where
  nodup : sp.cells.Nodup
  width : ∀ c ∈ sp.cells, c.2 < sp.W

variable {c : ℕ × ℕ}

lemma mem_of {F : Plane Bool} :
    c ∈ (of F).cells ↔ c.1 < F.H ∧ c.2 < F.W ∧ F.cell c.1 c.2 = true := by
  unfold of
  simp only [mem_flatMap, mem_range, mem_map, mem_hits]
  constructor
  · rintro ⟨y, hy, x, ⟨⟨-, hx⟩, hF⟩, rfl⟩
    exact ⟨hy, hx, hF⟩
  · rintro ⟨hy, hx, hF⟩
    exact ⟨c.1, hy, c.2, ⟨⟨Nat.zero_le _, hx⟩, hF⟩, rfl⟩

lemma wide_of (F : Plane Bool) : (of F).Wide where
  nodup := by
    refine nodup_flatMap.mpr ⟨fun y _ => ?_, ?_⟩
    · exact ((hits_lt _ _ _).imp fun h => h.ne).map _ fun x x' hne he => hne (Prod.ext_iff.mp he).2
    · refine nodup_range.imp fun {y y'} hne => ?_
      intro c hc hc'
      obtain ⟨x, -, rfl⟩ := mem_map.mp hc
      obtain ⟨x', -, he⟩ := mem_map.mp hc'
      exact hne (Prod.ext_iff.mp he).1.symm
  width := fun c hc => (mem_of.mp hc).2.1

variable {sp : Space} (h : sp.Wide)

lemma cell_mem (hi : i < sp.N) : (sp.row i, sp.col i) ∈ sp.cells := by
  unfold row col
  rw [List.getElem?_eq_getElem hi]
  exact getElem_mem hi

include h

variable {j : ℕ}

lemma Wide.inj (hi : i < sp.N) (hj : j < sp.N) (hr : sp.row i = sp.row j)
    (hc : sp.col i = sp.col j) : i = j := by
  unfold row at hr
  unfold col at hc
  rw [List.getElem?_eq_getElem hi, List.getElem?_eq_getElem hj] at hr hc
  exact (h.nodup.getElem_inj_iff).mp (Prod.ext hr hc)

lemma Wide.col_lt (hi : i < sp.N) : sp.col i < sp.W := h.width _ (cell_mem hi)

lemma Wide.index_eq {y x : ℤ} :
    sp.index y x = some i ↔ i < sp.N ∧ (sp.row i : ℤ) = y ∧ (sp.col i : ℤ) = x := by
  have hpos : ∀ {i} (hi : i < sp.N), sp.cells[i] = (sp.row i, sp.col i) := by
    intro i hi
    unfold row col
    rw [List.getElem?_eq_getElem hi]
    rfl
  unfold index
  rw [List.findIdx?_eq_some_iff_getElem]
  constructor
  · rintro ⟨hi, hp, -⟩
    rw [hpos hi] at hp
    exact ⟨hi, of_decide_eq_true hp⟩
  · rintro ⟨hi, hy, hx⟩
    refine ⟨hi, by rw [hpos hi]; exact decide_eq_true ⟨hy, hx⟩, fun j hj hp => ?_⟩
    have hjN : j < sp.cells.length := hj.trans hi
    rw [hpos hjN] at hp
    obtain ⟨hy', hx'⟩ := of_decide_eq_true hp
    exact hj.ne (h.inj hjN hi (by omega) (by omega))

lemma Wide.neighbour_eq : sp.neighbour d i = some j ↔
    j < sp.N ∧ (sp.row j : ℤ) = sp.row i + d.1 ∧ (sp.col j : ℤ) = sp.col i + d.2 := h.index_eq

lemma Wide.corner_eq (hi : i < sp.N) (hj : j < sp.N) {d : ℕ × ℕ} (hc : c.2 ≤ 1)
    (hd : d.2 ≤ 1) : sp.corner i c = sp.corner j d ↔ sp.row i + c.1 = sp.row j + d.1 ∧ sp.col i + c.2 = sp.col j + d.2 := by
  have hci := h.col_lt hi
  have hcj := h.col_lt hj
  unfold corner
  constructor
  · intro he
    have hmod := congrArg (· % (sp.W + 1)) he
    simp only [Nat.mul_add_mod_self_right, Nat.mod_eq_of_lt (show sp.col i + c.2 < sp.W + 1 by omega),
      Nat.mod_eq_of_lt (show sp.col j + d.2 < sp.W + 1 by omega)] at hmod
    rw [hmod] at he
    exact ⟨Nat.eq_of_mul_eq_mul_right (Nat.succ_pos _) (Nat.add_right_cancel he), hmod⟩
  · rintro ⟨hr, hc⟩
    rw [hr, hc]

lemma Wide.corner_inj (hi : i < sp.N) (hj : j < sp.N) (hc : c.2 ≤ 1)
    (he : sp.corner i c = sp.corner j c) : i = j := by
  obtain ⟨hr, hcol⟩ := (h.corner_eq hi hj hc hc).mp he
  exact h.inj hi hj (by omega) (by omega)

omit h in
lemma mem_pairs {lab : ℕ → ℕ} {e : ℕ × ℕ} : e ∈ sp.pairs lab d ↔
    e.1 < sp.N ∧ sp.neighbour d e.1 = some e.2 ∧ lab e.1 ≠ lab e.2 := by
  unfold pairs
  simp only [mem_filterMap, mem_range, Option.bind_eq_some_iff, Option.ite_none_right_eq_some]
  constructor
  · rintro ⟨i, hi, j, hj, hne, he⟩
    cases he
    exact ⟨hi, hj, hne⟩
  · rintro ⟨hi, hj, hne⟩
    exact ⟨e.1, hi, e.2, hj, hne, rfl⟩

omit h in
lemma pairs_nodup (lab : ℕ → ℕ) (d : ℤ × ℤ) : (sp.pairs lab d).Nodup := by
  unfold pairs
  refine nodup_range.filterMap fun i i' e he he' => ?_
  simp only [Option.mem_def, Option.bind_eq_some_iff, Option.ite_none_right_eq_some] at he he'
  obtain ⟨j, -, -, h⟩ := he
  obtain ⟨j', -, -, h'⟩ := he'
  exact (Prod.ext_iff.mp (Option.some.inj (h.trans h'.symm))).1

lemma Wide.count_corner {l : ℕ → ℕ} (hi : i < sp.N)
    (hj : sp.neighbour d i = some j) (hc : c.2 ≤ 1) :
    ((sp.pairs l d).map fun e => sp.corner e.1 c).count (sp.corner i c) =
      if l i ≠ l j then 1 else 0 := by
  have hone : ((sp.pairs l d).map fun e => sp.corner e.1 c).count (sp.corner i c) =
      (sp.pairs l d).count (i, j) := by
    unfold List.count
    rw [countP_map]
    refine countP_congr fun e he => ?_
    obtain ⟨he, hn, -⟩ := mem_pairs.mp he
    simp only [Function.comp, beq_iff_eq]
    constructor
    · intro heq
      have hei := h.corner_inj he hi hc heq
      rw [hei, hj] at hn
      exact Prod.ext hei (Option.some.inj hn).symm
    · rintro rfl
      rfl
  rw [hone, (pairs_nodup l d).count]
  exact if_congr (mem_pairs.trans ⟨fun hm => hm.2.2, fun hne => ⟨hi, hj, hne⟩⟩) rfl rfl

end Space

section
variable {sp : Space} {full : ℕ → ℕ}
variable {e e' : Edge}

lemma mem_side {c0 c1 : ℕ × ℕ} : e ∈ side sp full d c0 c1 ↔
    (e.i, e.j) ∈ sp.pairs full d ∧ e.v0 = sp.corner e.i c0 ∧ e.v1 = sp.corner e.i c1 := by
  unfold side
  rw [mem_map]
  constructor
  · rintro ⟨p, hp, rfl⟩
    exact ⟨hp, rfl, rfl⟩
  · rintro ⟨hp, h0, h1⟩
    exact ⟨(e.i, e.j), hp, by rw [← h0, ← h1]⟩

lemma side_nodup (d : ℤ × ℤ) (c0 c1 : ℕ × ℕ) : (side sp full d c0 c1).Nodup := by
  refine (Space.pairs_nodup full d).map fun e e' he => ?_
  obtain ⟨hi, hj, -⟩ := Edge.mk.inj he
  exact Prod.ext hi hj

lemma of_interface (he : e ∈ interface sp full) (h : sp.Wide) :
    e.i < sp.N ∧ e.j < sp.N ∧ full e.i ≠ full e.j ∧
      ((sp.neighbour east e.i = some e.j ∧ e.v0 = sp.corner e.i (0, 1) ∧ e.v1 = sp.corner e.i (1, 1)) ∨
        sp.neighbour south e.i = some e.j ∧ e.v0 = sp.corner e.i (1, 0) ∧ e.v1 = sp.corner e.i (1, 1)) := by
  rcases mem_append.mp he with he | he <;> obtain ⟨hp, h0, h1⟩ := mem_side.mp he <;>
    obtain ⟨hi, hn, hne⟩ := Space.mem_pairs.mp hp
  · exact ⟨hi, (h.neighbour_eq.mp hn).1, hne, Or.inl ⟨hn, h0, h1⟩⟩
  · exact ⟨hi, (h.neighbour_eq.mp hn).1, hne, Or.inr ⟨hn, h0, h1⟩⟩

lemma edge_unique (h : sp.Wide) (he : e ∈ interface sp full) (he' : e' ∈ interface sp full)
    (hcells : (e.i = e'.i ∧ e.j = e'.j) ∨ e.i = e'.j ∧ e.j = e'.i) : e = e' := by
  obtain ⟨-, -, -, hs⟩ := of_interface he h
  obtain ⟨-, -, -, hs'⟩ := of_interface he' h
  obtain ⟨i, j, v0, v1⟩ := e
  obtain ⟨i', j', v0', v1'⟩ := e'
  simp only [h.neighbour_eq, east, south] at hcells hs hs'
  rcases hcells with ⟨rfl, rfl⟩ | ⟨rfl, rfl⟩
  · rcases hs with ⟨hn, rfl, rfl⟩ | ⟨hn, rfl, rfl⟩ <;> rcases hs' with ⟨hn', rfl, rfl⟩ | ⟨hn', rfl, rfl⟩
    · rfl
    · exfalso
      omega
    · exfalso
      omega
    · rfl
  · exfalso
    omega

lemma interface_nodup (h : sp.Wide) : (interface sp full).Nodup := by
  refine List.Nodup.append (side_nodup _ _ _) (side_nodup _ _ _) fun e he he' => ?_
  obtain ⟨hp, -⟩ := mem_side.mp he
  obtain ⟨hp', -⟩ := mem_side.mp he'
  have hn := h.neighbour_eq.mp (Space.mem_pairs.mp hp).2.1
  have hn' := h.neighbour_eq.mp (Space.mem_pairs.mp hp').2.1
  simp only [east, south] at hn hn'
  omega

/-- The four cells around the corner `v`. -/
structure Around (sp : Space) (v nw ne sw se : ℕ) : Prop where
  lt : nw < sp.N ∧ ne < sp.N ∧ sw < sp.N ∧ se < sp.N
  top : sp.neighbour east nw = some ne
  bottom : sp.neighbour east sw = some se
  left : sp.neighbour south nw = some sw
  right : sp.neighbour south ne = some se
  nw : sp.corner nw (1, 1) = v
  ne : sp.corner ne (1, 0) = v
  sw : sp.corner sw (0, 1) = v
  se : sp.corner se (0, 0) = v

variable {v nw ne sw se : ℕ}

lemma Around.cells (h : sp.Wide) (A : Around sp v nw ne sw se) (he : e ∈ interface sp full)
    (hv : e.v0 = v ∨ e.v1 = v) : (e.i = sw ∧ e.j = se) ∨ (e.i = ne ∧ e.j = se) ∨
      (e.i = nw ∧ e.j = ne) ∨ (e.i = nw ∧ e.j = sw) := by
  obtain ⟨hi, -, -, hs⟩ := of_interface he h
  obtain ⟨hnw, hne, hsw, -⟩ := A.lt
  rcases hs with ⟨hn, h0, h1⟩ | ⟨hn, h0, h1⟩ <;> rcases hv with hv | hv
  · have hk := h.corner_inj hi hsw le_rfl ((h0.symm.trans hv).trans A.sw.symm)
    rw [hk, A.bottom] at hn
    exact Or.inl ⟨hk, (Option.some.inj hn).symm⟩
  · have hk := h.corner_inj hi hnw le_rfl ((h1.symm.trans hv).trans A.nw.symm)
    rw [hk, A.top] at hn
    exact Or.inr (Or.inr (Or.inl ⟨hk, (Option.some.inj hn).symm⟩))
  · have hk := h.corner_inj hi hne (Nat.zero_le _) ((h0.symm.trans hv).trans A.ne.symm)
    rw [hk, A.right] at hn
    exact Or.inr (Or.inl ⟨hk, (Option.some.inj hn).symm⟩)
  · have hk := h.corner_inj hi hnw le_rfl ((h1.symm.trans hv).trans A.nw.symm)
    rw [hk, A.left] at hn
    exact Or.inr (Or.inr (Or.inr ⟨hk, (Option.some.inj hn).symm⟩))

lemma Around.count (h : sp.Wide) (A : Around sp v nw ne sw se) :
    ((interface sp full).map Edge.v0 ++ (interface sp full).map Edge.v1).count v =
      (if full sw ≠ full se then 1 else 0) + (if full ne ≠ full se then 1 else 0) +
        ((if full nw ≠ full ne then 1 else 0) + if full nw ≠ full sw then 1 else 0) := by
  obtain ⟨hnw, hne, hsw, -⟩ := A.lt
  unfold interface side
  simp only [map_append, map_map, count_append]
  have hbottom := h.count_corner (l := full) hsw A.bottom (c := (0, 1)) le_rfl
  have hright := h.count_corner (l := full) hne A.right (c := (1, 0)) (Nat.zero_le _)
  have htop := h.count_corner (l := full) hnw A.top (c := (1, 1)) le_rfl
  have hleft := h.count_corner (l := full) hnw A.left (c := (1, 1)) le_rfl
  rw [A.sw] at hbottom
  rw [A.ne] at hright
  rw [A.nw] at htop hleft
  rw [← hbottom, ← hright, ← htop, ← hleft]
  rfl

omit full nw ne sw se in
lemma inner (hb : (boundary sp).count v = 0) (hi : i < sp.N) {s : (ℤ × ℤ) × (ℕ × ℕ) × (ℕ × ℕ)}
    (hs : s ∈ [(north, (0, 0), (0, 1)), (east, (0, 1), (1, 1)), (south, (1, 0), (1, 1)),
      (west, (0, 0), (1, 0))]) (hv : sp.corner i s.2.1 = v ∨ sp.corner i s.2.2 = v) :
    ∃ j, sp.neighbour s.1 i = some j := by
  cases hn : sp.neighbour s.1 i with
  | some j => exact ⟨j, rfl⟩
  | none =>
    have hi : i ∈ (List.range sp.N).filter fun i => sp.neighbour s.1 i = none :=
      mem_filter.mpr ⟨mem_range.mpr hi, decide_eq_true hn⟩
    refine (count_eq_zero.mp hb (mem_flatMap.mpr ⟨s, hs, mem_append.mpr ?_⟩)).elim
    rcases hv with rfl | rfl
    · exact Or.inl (mem_map_of_mem hi)
    · exact Or.inr (mem_map_of_mem hi)

lemma around_of_cell (h : sp.Wide) (hb : (boundary sp).count v = 0) (hse : se < sp.N)
    (hv : sp.corner se (0, 0) = v) : ∃ nw ne sw, Around sp v nw ne sw se := by
  obtain ⟨ne, hne⟩ := inner hb hse (s := (north, (0, 0), (0, 1))) (by simp) (Or.inl hv)
  obtain ⟨sw, hsw⟩ := inner hb hse (s := (west, (0, 0), (1, 0))) (by simp) (Or.inl hv)
  obtain ⟨hneN, hner, hnec⟩ := h.neighbour_eq.mp hne
  obtain ⟨hswN, hswr, hswc⟩ := h.neighbour_eq.mp hsw
  simp only [north, west] at hner hnec hswr hswc
  have hvsw : sp.corner sw (0, 1) = v :=
    hv ▸ (h.corner_eq hswN hse le_rfl (Nat.zero_le _)).mpr ⟨by simp only; omega, by simp only; omega⟩
  have hvne : sp.corner ne (1, 0) = v :=
    hv ▸ (h.corner_eq hneN hse (Nat.zero_le _) (Nat.zero_le _)).mpr
      ⟨by simp only; omega, by simp only; omega⟩
  obtain ⟨nw, hnw⟩ := inner hb hswN (s := (north, (0, 0), (0, 1))) (by simp) (Or.inr hvsw)
  obtain ⟨hnwN, hnwr, hnwc⟩ := h.neighbour_eq.mp hnw
  simp only [north] at hnwr hnwc
  have hvnw : sp.corner nw (1, 1) = v :=
    hv ▸ (h.corner_eq hnwN hse le_rfl (Nat.zero_le _)).mpr ⟨by simp only; omega, by simp only; omega⟩
  refine ⟨nw, ne, sw, ⟨⟨hnwN, hneN, hswN, hse⟩, ?_, ?_, ?_, ?_, hvnw, hvne, hvsw, hv⟩⟩
  all_goals
    rw [h.neighbour_eq]
    simp only [east, south]
    omega

lemma Joint.around (h : sp.Wide) (hJ : Joint (interface sp full) (boundary sp) v) :
    ∃ nw ne sw se, Around sp v nw ne sw se := by
  obtain ⟨hcount, hb⟩ := hJ
  have hmem : v ∈ (interface sp full).map Edge.v0 ++ (interface sp full).map Edge.v1 :=
    count_pos_iff.mp (by omega)
  have hedge : ∃ e ∈ interface sp full, e.v0 = v ∨ e.v1 = v := by
    rcases mem_append.mp hmem with hm | hm
    · obtain ⟨e, he, hv⟩ := mem_map.mp hm
      exact ⟨e, he, Or.inl hv⟩
    · obtain ⟨e, he, hv⟩ := mem_map.mp hm
      exact ⟨e, he, Or.inr hv⟩
  have hse : ∃ se < sp.N, sp.corner se (0, 0) = v := by
    obtain ⟨e, he, hv⟩ := hedge
    obtain ⟨hi, hj, -, hs⟩ := of_interface he h
    rcases hs with ⟨hn, h0, h1⟩ | ⟨hn, h0, h1⟩ <;> obtain ⟨-, hr, hc⟩ := h.neighbour_eq.mp hn <;>
      simp only [east, south] at hr hc <;> rcases hv with rfl | rfl
    · exact ⟨e.j, hj, h0 ▸ (h.corner_eq hj hi (Nat.zero_le _) le_rfl).mpr (by simp only; omega)⟩
    · have hv : sp.corner e.j (1, 0) = e.v1 :=
        h1 ▸ (h.corner_eq hj hi (Nat.zero_le _) le_rfl).mpr (by simp only; omega)
      obtain ⟨se, hse⟩ := inner hb hj (s := (south, (1, 0), (1, 1))) (by simp) (Or.inl hv)
      obtain ⟨hseN, hr', hc'⟩ := h.neighbour_eq.mp hse
      simp only [south] at hr' hc'
      exact ⟨se, hseN, hv ▸ (h.corner_eq hseN hj (Nat.zero_le _) (Nat.zero_le _)).mpr (by simp only; omega)⟩
    · exact ⟨e.j, hj, h0 ▸ (h.corner_eq hj hi (Nat.zero_le _) (Nat.zero_le _)).mpr (by simp only; omega)⟩
    · have hv : sp.corner e.j (0, 1) = e.v1 :=
        h1 ▸ (h.corner_eq hj hi le_rfl le_rfl).mpr (by simp only; omega)
      obtain ⟨se, hse⟩ := inner hb hj (s := (east, (0, 1), (1, 1))) (by simp) (Or.inl hv)
      obtain ⟨hseN, hr', hc'⟩ := h.neighbour_eq.mp hse
      simp only [east] at hr' hc'
      exact ⟨se, hseN, hv ▸ (h.corner_eq hseN hj (Nat.zero_le _) le_rfl).mpr (by simp only; omega)⟩
  obtain ⟨se, hse, hv⟩ := hse
  obtain ⟨nw, ne, sw, hA⟩ := around_of_cell h hb hse hv
  exact ⟨nw, ne, sw, se, hA⟩

lemma two_labels {a b c d : ℕ} (h : (if c ≠ d then 1 else 0) + (if b ≠ d then 1 else 0) +
    ((if a ≠ b then 1 else 0) + if a ≠ c then 1 else 0) = 2) : ∃ lo hi,
      (c ≠ d → min c d = lo ∧ max c d = hi) ∧ (b ≠ d → min b d = lo ∧ max b d = hi) ∧
      (a ≠ b → min a b = lo ∧ max a b = hi) ∧ (a ≠ c → min a c = lo ∧ max a c = hi) := by
  by_cases had : a = d
  · subst had
    by_cases hca : c = a
    · refine ⟨min a b, max a b, ?_⟩
      subst hca
      simp [min_comm, max_comm]
    · refine ⟨min a c, max a c, ?_⟩
      have hba : b = a := by
        by_contra hba
        simp [hca, hba, Ne.symm hca, Ne.symm hba] at h
      subst hba
      simp [min_comm, max_comm]
  · refine ⟨min a d, max a d, ?_⟩
    split_ifs at h with h1 h2 h3 h4 <;> grind

lemma joint_labels (h : sp.Wide) (hJ : Joint (interface sp full) (boundary sp) v) : ∃ lo hi,
    ∀ e ∈ interface sp full, e.v0 = v ∨ e.v1 = v → e.lo full = lo ∧ e.hi full = hi := by
  obtain ⟨nw, ne, sw, se, A⟩ := hJ.around h
  obtain ⟨lo, hi, hbottom, hright, htop, hleft⟩ := two_labels ((A.count h).symm.trans hJ.1)
  refine ⟨lo, hi, fun e he hv => ?_⟩
  have hne := (of_interface he h).2.2.1
  unfold Edge.lo Edge.hi
  rcases A.cells h he hv with ⟨hi, hj⟩ | ⟨hi, hj⟩ | ⟨hi, hj⟩ | ⟨hi, hj⟩ <;> rw [hi, hj] at hne ⊢
  · exact hbottom hne
  · exact hright hne
  · exact htop hne
  · exact hleft hne

end

end CloudServer.Arcs
