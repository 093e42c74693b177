import CloudServer.DriveSegments
import CloudServer.DriveTiles

/-! What was driven is conserved in the tiles. -/
namespace CloudServer.DriveStats
open Tallies Coverage MeasureTheory List

section
variable {ρ γ : Type*} [DecidableEq ρ] [DecidableEq γ] {hypot : ℝ → ℝ → ℝ} {p : Params ℝ}
variable {rows rows' : List (Row ρ γ ℝ)} {recoveries : List (ρ × ℝ × Option ℝ)}

noncomputable def visited (hypot : ℝ → ℝ → ℝ) (s : Seg ρ γ ℝ) : List (ℤ × ℤ) :=
  let m : Move ℝ := ⟨0, s.1.x, s.1.y, s.2.x, s.2.y, 0, 0, 0⟩
  (List.range (m.nsub hypot)).map (m.cell hypot)

def recovered (recoveries : List (ρ × ℝ × Option ℝ)) (run : ρ) : Set ℝ :=
  {x | ∃ r ∈ recoveries, r.1 = run ∧ ∃ dur, r.2.2 = some dur ∧ dur > 0 ∧ r.2.1 - dur ≤ x ∧ x ≤ r.2.1}

noncomputable def recoveredIn (recoveries : List (ρ × ℝ × Option ℝ)) (s : Seg ρ γ ℝ) : ℝ :=
  volume.real (Set.Icc s.1.ts s.2.ts ∩ recovered recoveries s.1.run)

noncomputable def measured (hypot : ℝ → ℝ → ℝ) (p : Params ℝ) (recoveries : List (ρ × ℝ × Option ℝ))
    (s : Seg ρ γ ℝ) : Move ℝ :=
  ⟨0, s.1.x, s.1.y, s.2.x, s.2.y, dt s, recoveredIn recoveries s,
    if dist hypot s < p.min_speed * dt s then dt s else 0⟩

noncomputable def keysOf (hypot : ℝ → ℝ → ℝ) (s : Seg ρ γ ℝ) : List ℤ :=
  (visited hypot s).map fun c => cell_key c.1 c.2

noncomputable def share (hypot : ℝ → ℝ → ℝ) (p : Params ℝ) (recoveries : List (ρ × ℝ × Option ℝ))
    (q : Quantity) (u : ℤ)
    (s : Seg ρ γ ℝ) : ℝ :=
  tally (fun k => key hypot (measured hypot p recoveries s, k))
    (fun k => weight hypot q (measured hypot p recoveries s, k))
    (List.range ((measured hypot p recoveries s).nsub hypot)) u

structure TilesFrom (hypot : ℝ → ℝ → ℝ) (p : Params ℝ) (rows : List (Row ρ γ ℝ))
    (recoveries : List (ρ × ℝ × Option ℝ))
    (seg : List (Seg ρ γ ℝ)) (t : Tiles ℝ) : Prop where
  key : t.key = unique (seg.flatMap (keysOf hypot))
  sums : ∀ q, t.sums q = t.key.map fun u => (seg.map (share hypot p recoveries q u)).sum
  total : ∀ q, (t.sums q).sum = (seg.map fun s => (measured hypot p recoveries s).amount hypot q).sum
  n : t.n = t.key.map fun u => Set.ncard {run | ∃ s ∈ seg, s.1.run = run ∧ u ∈ keysOf hypot s}
  pairs : ∀ i run, run ∈ rows.map Row.run → ((i, code rows run) ∈ t.pair_tile.zip t.pair_run ↔
    ∃ s ∈ seg, s.1.run = run ∧ ∃ u ∈ keysOf hypot s, i = t.key.idxOf u)

/-! ### Recovery -/

section
omit [DecidableEq γ]

lemma mem_validSpans {v : ℕ × ℝ × ℝ} : v ∈ validSpans rows recoveries ↔ ∃ r ∈ recoveries, r.1 ∈ rows.map Row.run ∧
    ∃ dur, r.2.2 = some dur ∧ dur > 0 ∧ v = (code rows r.1, r.2.1 - dur, r.2.1) := by
  unfold validSpans
  rw [mem_filterMap]
  refine exists_congr fun r => and_congr_right fun _ => ?_
  cases hd : r.2.2 with
  | none => simp
  | some dur =>
    simp only [(codesOf_spec _).2, Option.ite_none_right_eq_some, Option.some.injEq]
    constructor
    · rintro ⟨⟨hr, hpos⟩, rfl⟩
      exact ⟨hr, dur, rfl, hpos, rfl⟩
    · rintro ⟨hr, _, rfl, hpos, rfl⟩
      exact ⟨⟨hr, hpos⟩, rfl⟩

lemma spansOf_nil {c : ℕ} (hc : c ∉ codesOf ((validSpans rows recoveries).map Prod.fst)) :
    spansOf rows recoveries c = [] := by
  rw [spansOf, map_eq_nil_iff, filter_eq_nil_iff]
  intro v hv he
  exact hc (((codesOf_spec _).2 c).mpr (of_decide_eq_true he ▸ mem_map_of_mem hv))

lemma union_spans {run : ρ} (hrun : run ∈ rows.map Row.run) :
    union (merge (spansOf rows recoveries (code rows run))) = recovered recoveries run := by
  ext x
  rw [mem_union_merge]
  simp only [spansOf, mem_map, mem_filter, mem_validSpans, decide_eq_true_eq]
  constructor
  · rintro ⟨_, ⟨_, ⟨⟨r, hr, hmem, dur, hd, hpos, rfl⟩, hcode⟩, rfl⟩, -, hx⟩
    exact ⟨r, hr, (code_inj (mem_map.mpr hmem)).mp hcode, dur, hd, hpos, hx⟩
  · rintro ⟨r, hr, rfl, dur, hd, hpos, hx⟩
    exact ⟨_, ⟨_, ⟨⟨r, hr, mem_map.mp hrun, dur, hd, hpos, rfl⟩, rfl⟩, rfl⟩, sub_lt_self _ hpos, hx⟩

end

variable {m : List (ℝ × ℝ)}

omit [DecidableEq ρ] [DecidableEq γ] in
lemma overlap_eq (h : Separated m) {s : Seg ρ γ ℝ} (hs : s.1.ts ≤ s.2.ts) :
    overlap m s = covered m s.2.ts - covered m s.1.ts := by
  unfold overlap
  by_cases hm : m = []
  · subst hm
    simp [covered]
  · rw [if_neg hm, interp_points h hm, interp_points h hm, zero_add, zero_add,
      max_eq_left (sub_nonneg.mpr (covered_mono h hs)), min_eq_left (show _ ≤ dt s from covered_sub_le h hs)]

section
variable (h : Distinct rows)
include h

lemma follows_of_driven {s : Seg ρ γ ℝ} (hs : s ∈ (driven hypot p rows).1) : Follows rows s.1 s.2 :=
  ((mem_driven_iff (a := s.1) (b := s.2) h).mp hs).1

lemma overlap_measure {s : Seg ρ γ ℝ} (hs : s ∈ (driven hypot p rows).1) :
    overlap (merge (spansOf rows recoveries (code rows s.1.run))) s = recoveredIn recoveries s := by
  have hf := follows_of_driven h hs
  rw [overlap_eq (merge_separated _) hf.later.le, ← measure_between (merge_separated _) hf.later.le,
    union_spans (mem_map_of_mem hf.first), recoveredIn]

lemma recovery_overlap_measure {s : Seg ρ γ ℝ} (hs : s ∈ (driven hypot p rows).1) :
    (recovery_overlap (fun r => code rows r.run) (driven hypot p rows).1 (intervals rows recoveries)).1 s =
      recoveredIn recoveries s := by
  rw [← overlap_measure h hs]
  unfold recovery_overlap
  simp only [intervals, List.find?_map, Function.comp_def]
  cases hfind : (codesOf ((validSpans rows recoveries).map Prod.fst)).find? fun c =>
    decide (c = code rows s.1.run) with
  | none =>
    rw [spansOf_nil fun hmem => by simpa using List.find?_eq_none.mp hfind _ hmem]
    rfl
  | some c =>
    obtain rfl : c = code rows s.1.run := by simpa using List.find?_some hfind
    rfl

lemma attributed_le (hm : Separated m) (c : ℕ) :
    (((driven hypot p rows).1.filter fun s => code rows s.1.run = c).map (overlap m)).sum ≤ total m := by
  set seg := (driven hypot p rows).1.filter fun s => code rows s.1.run = c with hseg
  have hlater : ∀ s ∈ seg, s.1.ts ≤ s.2.ts := fun s hs => (follows_of_driven h (mem_filter.mp hs).1).later.le
  have hordered : seg.Pairwise fun s t => s.2.ts ≤ t.1.ts := by
    refine ((driven_ordered h).filter _).imp_of_mem fun {s t} hs ht hst => hst ?_
    have hf := follows_of_driven h (mem_filter.mp hs).1
    exact (code_inj (mem_map_of_mem hf.first)).mp ((of_decide_eq_true (mem_filter.mp hs).2).trans
      (of_decide_eq_true (mem_filter.mp ht).2).symm)
  clear_value seg
  have hrun : ∀ (seg : List (Seg ρ γ ℝ)) (a : ℝ), (∀ s ∈ seg, s.1.ts ≤ s.2.ts) →
      seg.Pairwise (fun s t => s.2.ts ≤ t.1.ts) → (∀ s ∈ seg, a ≤ s.1.ts) →
      (seg.map (overlap m)).sum ≤ total m - covered m a := by
    intro seg
    induction seg with
    | nil => exact fun a _ _ _ => sub_nonneg.mpr (covered_le_total a)
    | cons s seg ih =>
      intro a hlater hordered ha
      obtain ⟨hs, hordered⟩ := pairwise_cons.mp hordered
      have hrest := ih s.2.ts (fun t ht => hlater t (mem_cons_of_mem s ht)) hordered hs
      have hfirst := covered_mono hm (ha s mem_cons_self)
      rw [map_cons, sum_cons, overlap_eq hm (hlater s mem_cons_self)]
      linarith
  cases seg with
  | nil => exact (covered_nonneg hm 0).trans (covered_le_total 0)
  | cons s seg =>
    have hle := hrun (s :: seg) s.1.ts hlater hordered fun t ht => by
      rcases mem_cons.mp ht with rfl | ht
      · exact le_rfl
      · exact (hlater s mem_cons_self).trans ((pairwise_cons.mp hordered).1 t ht)
    exact hle.trans (sub_le_self _ (covered_nonneg hm _))

lemma recovery_conserved : ((driven hypot p rows).1.map (recoveredIn recoveries)).sum +
    (recovery_overlap (fun r => code rows r.run) (driven hypot p rows).1 (intervals rows recoveries)).2 =
      ∑ run ∈ (rows.map Row.run).toFinset, volume.real (recovered recoveries run) := by
  set seg := (driven hypot p rows).1 with hseg
  set K := codesOf ((validSpans rows recoveries).map Prod.fst) with hK
  set W : Seg ρ γ ℝ → ℝ := fun s => overlap (merge (spansOf rows recoveries (code rows s.1.run))) s with hW
  have hKnodup : K.Nodup := (codesOf_spec _).1
  have hattributed : ((intervals rows recoveries).map fun i =>
      ((seg.filter fun s => code rows s.1.run = i.1).map (overlap (merge i.2))).sum).sum =
        (seg.map (recoveredIn recoveries)).sum := by
    have htally : ∀ c ∈ K,
      ((seg.filter fun s => code rows s.1.run = c).map (overlap (merge (spansOf rows recoveries c)))).sum =
        tally (fun s => code rows s.1.run) W seg c := fun c _ => by
      refine congrArg List.sum (map_congr_left fun s hs => ?_)
      have hc := of_decide_eq_true (mem_filter.mp hs).2
      subst hc
      rfl
    have hsum := sum_tally (fun s => code rows s.1.run) W seg hKnodup fun s _ => by
      by_cases hc : code rows s.1.run ∈ K
      · exact .inl hc
      · exact .inr (by rw [hW]; simp only [spansOf_nil hc]; rfl)
    rw [intervals, map_map]
    refine (congrArg List.sum (map_congr_left htally)).trans (hsum.trans ?_)
    exact congrArg List.sum (map_congr_left fun s hs => overlap_measure h hs)
  have hall : ((intervals rows recoveries).map fun i => total (merge i.2)).sum =
      ∑ run ∈ (rows.map Row.run).toFinset, volume.real (recovered recoveries run) := by
    have hterm : ∀ run ∈ (rows.map Row.run).toFinset, volume.real (recovered recoveries run) =
        total (merge (spansOf rows recoveries (code rows run))) := fun run hrun => by
      rw [← union_spans (mem_toFinset.mp hrun), measure_union (merge_separated _)]
    have hinj : Set.InjOn (code rows) (rows.map Row.run).toFinset := fun a ha b _ he =>
      (code_inj (mem_toFinset.mp ha)).mp he
    rw [intervals, map_map, Finset.sum_congr rfl hterm,
      ← Finset.sum_image (f := fun c => total (merge (spansOf rows recoveries c))) hinj]
    refine (sum_toFinset _ hKnodup).symm.trans (Finset.sum_subset (fun c hc => ?_) fun c _ hc => ?_)
    · obtain ⟨v, hv, rfl⟩ := mem_map.mp (((codesOf_spec _).2 c).mp (mem_toFinset.mp hc))
      obtain ⟨r, -, hr, dur, -, -, rfl⟩ := mem_validSpans.mp hv
      exact Finset.mem_image_of_mem _ (mem_toFinset.mpr hr)
    · simp only [Function.comp_apply, spansOf_nil fun hmem => hc (mem_toFinset.mpr hmem)]
      rfl
  have hle : ((intervals rows recoveries).map fun i =>
      ((seg.filter fun s => code rows s.1.run = i.1).map (overlap (merge i.2))).sum).sum ≤
      ((intervals rows recoveries).map fun i => total (merge i.2)).sum :=
    sum_le_sum fun i _ => attributed_le h (merge_separated i.2) i.1
  unfold recovery_overlap
  simp only
  rw [max_eq_right (sub_nonneg.mpr hle), hattributed, hall]
  ring

/-! ### The tiles -/

lemma moveOf_eq {s : Seg ρ γ ℝ} (hs : s ∈ (driven hypot p rows).1) : moveOf hypot p rows
    (recovery_overlap (fun r => code rows r.run) (driven hypot p rows).1 (intervals rows recoveries)).1 s =
      { measured hypot p recoveries s with run := code rows s.1.run } := by
  unfold moveOf
  rw [recovery_overlap_measure h hs]
  rfl

end

lemma nsub_pos (m : Move ℝ) : 0 < m.nsub hypot := by
  unfold Move.nsub MAX_SAMPLES_PER_SEGMENT
  omega

omit [DecidableEq ρ] [DecidableEq γ] in
lemma samples_moves {moves : Seg ρ γ ℝ → Move ℝ} (seg : List (Seg ρ γ ℝ)) :
    samples hypot (seg.map moves) = seg.flatMap fun s =>
      (List.range ((moves s).nsub hypot)).map fun k => (moves s, k) := by
  rw [samples, flatMap_map]

theorem tiles_from (h : Distinct rows) {size : ℕ} (hsize : 0 < size) :
    TilesFrom hypot p rows recoveries (driven hypot p rows).1 (compute hypot p rows recoveries size).tiles := by
  set seg := (driven hypot p rows).1 with hseg
  set moves := moveOf hypot p rows
    (recovery_overlap (fun r => code rows r.run) seg (intervals rows recoveries)).1 with hmoves
  have hmove : ∀ s ∈ seg, moves s = { measured hypot p recoveries s with run := code rows s.1.run } := fun s hs =>
    moveOf_eq h hs
  have hrows : ∀ s ∈ seg, s.1.run ∈ rows.map Row.run := fun s hs =>
    mem_map_of_mem (follows_of_driven h hs).first
  have hruns : ∀ m ∈ seg.map moves, m.run < max 1 (codesOf (rows.map Row.run)).length := by
    intro m hm
    obtain ⟨s, hs, rfl⟩ := mem_map.mp hm
    have hlt := idxOf_lt_length_iff.mpr (((codesOf_spec _).2 s.1.run).mpr (hrows s hs))
    exact hlt.trans_le (le_max_right _ _)
  have ht : TilesOf hypot (samples hypot (seg.map moves)) (compute hypot p rows recoveries size).tiles :=
    tiles_of_add hypot hsize hruns
  rw [samples_moves] at ht
  set S := seg.flatMap fun s => (List.range ((moves s).nsub hypot)).map fun k => (moves s, k) with hS
  have hkeys : S.map (key hypot) = seg.flatMap (keysOf hypot) := by
    rw [hS, map_flatMap]
    refine flatMap_congr fun s _ => ?_
    rw [map_map, keysOf, visited, map_map]
    rfl
  have hmem : ∀ a ∈ S, key hypot a ∈ (compute hypot p rows recoveries size).tiles.key := fun a ha => by
    rw [ht.keys, mem_unique]
    exact mem_map_of_mem ha
  have hS' : ∀ a, a ∈ S ↔ ∃ s ∈ seg, ∃ k < (moves s).nsub hypot, a = (moves s, k) := by
    intro a
    rw [hS, mem_flatMap]
    simp only [mem_map, mem_range, eq_comm (b := a)]
  have hkeyOf : ∀ s u, u ∈ keysOf hypot s ↔ ∃ k < (moves s).nsub hypot, key hypot (moves s, k) = u := by
    intro s u
    simp only [keysOf, visited, map_map, mem_map, mem_range]
    rfl
  refine ⟨by rw [ht.keys, hkeys], fun q => ?_, fun q => ?_, ?_, fun i run hrun => ?_⟩
  · rw [ht.sums]
    refine map_congr_left fun u _ => ?_
    rw [hS, tally_flatMap]
    refine congrArg List.sum (map_congr_left fun s hs => ?_)
    rw [tally_map, hmove s hs]
    rfl
  · rw [ht.sums, sum_tally _ _ _ (ht.keys ▸ unique_nodup _) fun a ha => .inl (hmem a ha)]
    rw [hS, map_flatMap, flatMap_def, sum_flatten, map_map]
    refine congrArg List.sum (map_congr_left fun s hs => ?_)
    have hpos : ((moves s).nsub hypot : ℝ) ≠ 0 := Nat.cast_ne_zero.mpr (nsub_pos _).ne'
    have hamount : (measured hypot p recoveries s).amount hypot q = (moves s).amount hypot q := by
      rw [hmove s hs]
      cases q <;> rfl
    simp only [Function.comp_apply, map_map, hamount]
    rw [show (weight hypot q ∘ fun k => (moves s, k)) = fun _ =>
      1 / ((moves s).nsub hypot : ℝ) * (moves s).amount hypot q from rfl,
      map_const', length_range, sum_replicate, nsmul_eq_mul, ← mul_assoc,
        mul_one_div_cancel hpos, one_mul]
  · rw [ht.n]
    refine map_congr_left fun u _ => ?_
    set L := (S.filter fun a => key hypot a = u).map fun a => a.1.run with hL
    set A := {run | ∃ s ∈ seg, s.1.run = run ∧ u ∈ keysOf hypot s} with hA
    have himage : code rows '' A = (L.toFinset : Set ℕ) := by
      ext c
      simp only [hA, hL, Set.mem_image, Set.mem_ofPred_eq, coe_toFinset, mem_map, mem_filter, hS',
        decide_eq_true_eq, hkeyOf]
      constructor
      · rintro ⟨_, ⟨s, hs, rfl, k, hk, hu⟩, rfl⟩
        exact ⟨_, ⟨⟨s, hs, k, hk, rfl⟩, hu⟩, by rw [hmove s hs]⟩
      · rintro ⟨_, ⟨⟨s, hs, k, hk, rfl⟩, hu⟩, rfl⟩
        exact ⟨s.1.run, ⟨s, hs, rfl, k, hk, hu⟩, by rw [hmove s hs]⟩
    have hinj : Set.InjOn (code rows) A := by
      rintro _ ⟨s, hs, rfl, -⟩ _ _ he
      exact (code_inj (hrows s hs)).mp he
    rw [← hinj.ncard_image, himage, Set.ncard_coe_finset, card_toFinset]
  · rw [ht.pairs]
    simp only [hS', hkeyOf]
    constructor
    · rintro ⟨_, ⟨s, hs, k, hk, rfl⟩, rfl, hcode⟩
      rw [hmove s hs] at hcode
      exact ⟨s, hs, ((code_inj hrun).mp hcode).symm, _, ⟨k, hk, rfl⟩, rfl⟩
    · rintro ⟨s, hs, rfl, _, ⟨k, hk, rfl⟩, rfl⟩
      exact ⟨_, ⟨s, hs, k, hk, rfl⟩, rfl, by rw [hmove s hs]⟩

end

/-! ### The statistics -/

def InRange (c : ℤ × ℤ) : Prop := (-OFF ≤ c.1 ∧ c.1 < OFF) ∧ -OFF ≤ c.2 ∧ c.2 < OFF

def InCells {ρ γ : Type*} (r : Row ρ γ ℝ) : Prop :=
  (-OFF ≤ r.x / CELL_M ∧ r.x / CELL_M < OFF) ∧ -OFF ≤ r.y / CELL_M ∧ r.y / CELL_M < OFF

variable {c d : ℤ × ℤ}

lemma cell_key_eq (h : InRange c) : cell_key c.1 c.2 = (c.1 + OFF) * 2 ^ 32 + (c.2 + OFF) := by
  obtain ⟨⟨h₁, -⟩, h₂, h₃⟩ := h
  obtain ⟨m, hm⟩ := Int.eq_ofNat_of_zero_le (show 0 ≤ c.1 + OFF by omega)
  obtain ⟨n, hn⟩ := Int.eq_ofNat_of_zero_le (show 0 ≤ c.2 + OFF by omega)
  have hlt : n < 2 ^ 32 := by
    unfold OFF at hn h₃
    omega
  rw [cell_key, hm, hn]
  change ((m <<< 32 ||| n : ℕ) : ℤ) = _
  rw [← Nat.shiftLeft_add_eq_or_of_lt hlt, Nat.shiftLeft_eq]
  push_cast
  rfl

lemma cell_key_inj (hc : InRange c) (hd : InRange d)
    (h : cell_key c.1 c.2 = cell_key d.1 d.2) : c = d := by
  rw [cell_key_eq hc, cell_key_eq hd] at h
  obtain ⟨-, hc₁, hc₂⟩ := hc
  obtain ⟨-, hd₁, hd₂⟩ := hd
  unfold OFF at *
  exact Prod.ext (by omega) (by omega)

section
variable {ρ γ : Type*} [DecidableEq ρ] [DecidableEq γ] (hypot : ℝ → ℝ → ℝ) (p : Params ℝ)
variable (rows rows' : List (Row ρ γ ℝ)) (recoveries : List (ρ × ℝ × Option ℝ))

omit [DecidableEq ρ] [DecidableEq γ] in
lemma visited_inRange {hypot : ℝ → ℝ → ℝ} {s : Seg ρ γ ℝ} (h₁ : InCells s.1) (h₂ : InCells s.2)
    (hc : c ∈ visited hypot s) : InRange c := by
  obtain ⟨k, hk, rfl⟩ := mem_map.mp hc
  rw [mem_range] at hk
  have hcell : (0 : ℝ) < CELL_M := by unfold CELL_M; norm_num
  have hbetween : ∀ {u v f : ℝ}, 0 ≤ f → f ≤ 1 → -OFF ≤ u / CELL_M ∧ u / CELL_M < OFF →
    -OFF ≤ v / CELL_M ∧ v / CELL_M < OFF →
      -OFF ≤ ⌊(u + f * (v - u)) / CELL_M⌋ ∧ ⌊(u + f * (v - u)) / CELL_M⌋ < OFF := by
    intro u v f hf₀ hf₁ hu hv
    have hsplit : (u + f * (v - u)) / CELL_M = (1 - f) * (u / CELL_M) + f * (v / CELL_M) := by
      field_simp
      ring
    rw [Int.le_floor, Int.floor_lt, hsplit]
    push_cast
    constructor
    · nlinarith [hu.1, hv.1]
    · rcases hf₁.lt_or_eq with hf₁ | rfl
      · nlinarith [hu.2, hv.2, mul_lt_mul_of_pos_left hu.2 (sub_pos.mpr hf₁),
        mul_le_mul_of_nonneg_left hv.2.le hf₀]
      · linarith [hv.2]
  set n := (⟨0, s.1.x, s.1.y, s.2.x, s.2.y, 0, 0, 0⟩ : Move ℝ).nsub hypot with hn
  have hpos : (0 : ℝ) < n := by exact_mod_cast Nat.zero_lt_of_lt hk
  have hkn : (k : ℝ) + 1 ≤ n := by exact_mod_cast hk
  have hf₀ : 0 ≤ ((k : ℝ) + 1 / 2) / n := by positivity
  have hf₁ : ((k : ℝ) + 1 / 2) / n ≤ 1 := (div_le_one hpos).mpr (by linarith)
  exact ⟨hbetween hf₀ hf₁ h₁.1 h₂.1, hbetween hf₀ hf₁ h₁.2 h₂.2⟩

/-- The tiles' sums are the sums over the segments driven. -/
structure Conserved (stats : Stats ℝ) : Prop where
  length : (stats.tiles.sums .length).sum = ((driven hypot p rows).1.map (dist hypot)).sum
  time : (stats.tiles.sums .time).sum = ((driven hypot p rows).1.map dt).sum
  stopped : (stats.tiles.sums .stopped).sum =
    ((driven hypot p rows).1.map fun s => if dist hypot s < p.min_speed * dt s then dt s else 0).sum
  recovery : (stats.tiles.sums .recovery).sum = ((driven hypot p rows).1.map (recoveredIn recoveries)).sum
  keys : stats.tiles.key.Pairwise (· < ·)
  tile : ∀ s ∈ (driven hypot p rows).1, ∀ c ∈ visited hypot s, cell_key c.1 c.2 ∈ stats.tiles.key
  n : ∀ (i : ℕ) (c : ℤ × ℤ), InRange c → stats.tiles.key[i]? = some (cell_key c.1 c.2) → stats.tiles.n[i]? =
    some (Set.ncard {run | ∃ s ∈ (driven hypot p rows).1, s.1.run = run ∧ c ∈ visited hypot s})
  each : ∀ s ∈ (driven hypot p rows).1, (recovery_overlap (fun r => code rows r.run) (driven hypot p rows).1
    (intervals rows recoveries)).1 s = recoveredIn recoveries s
  lost : ((driven hypot p rows).1.map (recoveredIn recoveries)).sum + stats.lost =
    ∑ run ∈ (rows.map Row.run).toFinset, volume.real (recovered recoveries run)

structure Alike (a b : Stats ℝ) : Prop where
  key : a.tiles.key = b.tiles.key
  sums : a.tiles.sums = b.tiles.sums
  n : a.tiles.n = b.tiles.n
  pairs : ∀ i run, run ∈ rows.map Row.run → ((i, code rows run) ∈ a.tiles.pair_tile.zip a.tiles.pair_run ↔
    (i, code rows' run) ∈ b.tiles.pair_tile.zip b.tiles.pair_run)
  segments : a.track_segments = b.track_segments
  rejected : a.track_pairs_rejected = b.track_pairs_rejected
  lost : a.lost = b.lost

/-- Drive statistics conserve what was driven, whatever the order of the rows and the size of the chunks,
and accept the movements of the SQL between whose rows no other row of the run lies. -/
theorem drive_stats_conserve (h : Distinct rows) (hcells : ∀ r ∈ rows, InCells r) {size : ℕ} (hsize : 0 < size) :
    Conserved hypot p rows recoveries (compute hypot p rows recoveries size) ∧
    (∀ rows' size', rows.Perm rows' → 0 < size' → Alike rows rows' (compute hypot p rows recoveries size)
      (compute hypot p rows' recoveries size')) ∧
    ∀ a b, (a, b) ∈ (driven hypot p rows).1 ∧ (seq (a, b)).isSome ↔
      (a, b) ∈ TRACK_SQL_good hypot p rows ∧ Consecutive rows a b := by
  have ht : TilesFrom hypot p rows recoveries (driven hypot p rows).1
    (compute hypot p rows recoveries size).tiles :=
    tiles_from h hsize
  refine ⟨⟨ht.total .length, ht.total .time, ht.total .stopped, ht.total .recovery, ?_, fun s hs c hc => ?_,
    fun i c hc hi => ?_, fun s hs => recovery_overlap_measure h hs, recovery_conserved h⟩,
    fun rows' size' hperm hsize' => ?_, fun a b => driven_iff_sql h⟩
  · rw [ht.key]
    exact unique_ordered _
  · rw [ht.key, mem_unique]
    exact mem_flatMap.mpr ⟨s, hs, mem_map_of_mem hc⟩
  · rw [ht.n, List.getElem?_map, hi, Option.map_some, Option.some_inj]
    refine congrArg Set.ncard
      (Set.ext fun run => exists_congr fun s => and_congr_right fun hs => and_congr_right fun _ => ?_)
    have hf := follows_of_driven h hs
    constructor
    · intro hmem
      obtain ⟨d, hd, he⟩ := mem_map.mp hmem
      exact cell_key_inj (visited_inRange (hcells _ hf.first) (hcells _ hf.last) hd) hc he ▸ hd
    · exact fun hmem => mem_map_of_mem hmem
  · have ht' : TilesFrom hypot p rows' recoveries (driven hypot p rows').1
        (compute hypot p rows' recoveries size').tiles := tiles_from (h.perm hperm) hsize'
    have hseg : (driven hypot p rows).1.Perm (driven hypot p rows').1 := (driven_perm h hperm).1
    have hrejected : (driven hypot p rows).2 = (driven hypot p rows').2 := (driven_perm h hperm).2
    have hkey : (compute hypot p rows recoveries size).tiles.key =
      (compute hypot p rows' recoveries size').tiles.key := by
      rw [ht.key, ht'.key]
      refine unique_congr fun u => ?_
      simp only [mem_flatMap, hseg.mem_iff]
    refine ⟨hkey, funext fun q => ?_, ?_, fun i run hrun => ?_, hseg.length_eq, hrejected, ?_⟩
    · rw [ht.sums, ht'.sums, hkey]
      exact map_congr_left fun u _ => (hseg.map _).sum_eq
    · rw [ht.n, ht'.n, hkey]
      simp only [hseg.mem_iff]
    · rw [ht.pairs i run hrun, ht'.pairs i run ((hperm.map Row.run).mem_iff.mp hrun), hkey]
      simp only [hseg.mem_iff]
    · have hlost : _ + (compute hypot p rows recoveries size).lost = _ := recovery_conserved h
      have hlost' : _ + (compute hypot p rows' recoveries size').lost = _ := recovery_conserved (h.perm hperm)
      rw [← toFinset_eq_of_perm _ _ (hperm.map Row.run), ← hlost,
        (hseg.map (recoveredIn recoveries)).sum_eq] at hlost'
      exact (add_left_cancel hlost').symm

theorem drive_stats_conserve_run :
    let rows : List (Row ℕ ℕ ℝ) := [⟨0, 0, 0, 0, 0, none⟩, ⟨0, 1, 1, 0, 0, some 0⟩]
    let hypot : ℝ → ℝ → ℝ := fun x y => √(x ^ 2 + y ^ 2)
    Conserved hypot ⟨1 / 20, 10, 3⟩ rows [(0, 1, some (1 / 2))]
      (compute hypot ⟨1 / 20, 10, 3⟩ rows [(0, 1, some (1 / 2))] 40000) := by
  intro rows hypot
  refine (drive_stats_conserve hypot ⟨1 / 20, 10, 3⟩ rows [(0, 1, some (1 / 2))] ?_ ?_ (by decide)).1
  · exact pairwise_pair.mpr fun _ => by simp
  · intro r hr
    rcases mem_pair.mp hr with rfl | rfl <;> norm_num [InCells, OFF, CELL_M]

theorem sql_counts_others :
    let rows : List (Row ℕ ℕ ℚ) := [⟨0, 0, 0, 0, 0, some 0⟩, ⟨0, 1, 0, 0, 1, some 0⟩, ⟨0, 2, 0, 0, 0, some 0⟩,
      ⟨1, 0, 0, 0, 0, none⟩, ⟨1, 1, 0, 0, 0, none⟩]
    let p : Params ℚ := ⟨1 / 20, 10, 3⟩
    let hypot : ℚ → ℚ → ℚ := fun x y => |x| + |y|
    Distinct rows ∧
      (((⟨1, 0, 0, 0, 0, none⟩ : Row ℕ ℕ ℚ), ⟨1, 1, 0, 0, 0, none⟩) ∈ (driven hypot p rows).1 ∧
        ((⟨1, 0, 0, 0, 0, none⟩ : Row ℕ ℕ ℚ), ⟨1, 1, 0, 0, 0, none⟩) ∉ TRACK_SQL_good hypot p rows) ∧
      ((⟨0, 0, 0, 0, 0, some 0⟩ : Row ℕ ℕ ℚ), ⟨0, 2, 0, 0, 0, some 0⟩) ∈ TRACK_SQL_good hypot p rows ∧
      ((⟨0, 0, 0, 0, 0, some 0⟩ : Row ℕ ℕ ℚ), ⟨0, 2, 0, 0, 0, some 0⟩) ∉ (driven hypot p rows).1 := by
  unfold Distinct
  decide +kernel

end
end CloudServer.DriveStats
