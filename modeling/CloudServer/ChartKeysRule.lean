import CloudServer.ChartKeys

/-! Rule A: each new chart wants the key it overlaps most, and each key goes to the chart that
overlaps it most of those that want it. -/
namespace CloudServer.ChartKeys

open List Dict

/-! ### The smallest element -/

section Smallest
variable {α γ : Type} [LinearOrder γ] {key : α → γ} {xs : List α} {m : α}

lemma smallest_spec (h : smallest key xs = some m) : m ∈ xs ∧ ∀ x ∈ xs, key m ≤ key x := by
  induction xs generalizing m with
  | nil => cases h
  | cons x xs ih =>
    unfold smallest at h
    cases hrest : smallest key xs with
    | none =>
      rw [hrest] at h
      cases h
      cases xs with
      | nil => simp
      | cons y ys =>
        unfold smallest at hrest
        split at hrest
        · split at hrest <;> cases hrest
        · cases hrest
    | some n =>
      rw [hrest] at h
      obtain ⟨hn, hle⟩ := ih hrest
      dsimp only at h
      split at h
      · rename_i hlt
        cases h
        refine ⟨mem_cons_of_mem _ hn, fun y hy => ?_⟩
        rcases mem_cons.mp hy with rfl | hy
        · exact hlt.le
        · exact hle y hy
      · rename_i hge
        cases h
        refine ⟨mem_cons_self, fun y hy => ?_⟩
        rcases mem_cons.mp hy with rfl | hy
        · exact le_rfl
        · exact (not_lt.mp hge).trans (hle y hy)

lemma smallest_some (key : α → γ) (h : xs ≠ []) : ∃ m, smallest key xs = some m := by
  cases xs with
  | nil => exact absurd rfl h
  | cons x xs =>
    unfold smallest
    split
    · split <;> exact ⟨_, rfl⟩
    · exact ⟨_, rfl⟩

lemma smallest_eq (hm : m ∈ xs) (hlt : ∀ x ∈ xs, x ≠ m → key m < key x) :
    smallest key xs = some m := by
  obtain ⟨n, hn⟩ := smallest_some key (ne_nil_of_mem hm)
  obtain ⟨hmem, hle⟩ := smallest_spec hn
  by_cases he : n = m
  · rw [hn, he]
  · exact absurd (hlt n hmem he) (hle m hm).not_gt

lemma head_sorted {ys : List γ} {y : γ} (h : (ys.insertionSort (· ≤ ·)).head? = some y) :
    y ∈ ys ∧ ∀ z ∈ ys, y ≤ z := by
  have hperm := perm_insertionSort (· ≤ ·) ys
  have hsorted := pairwise_insertionSort (· ≤ ·) ys
  cases hs : ys.insertionSort (· ≤ ·) with
  | nil =>
    rw [hs] at h
    cases h
  | cons z zs =>
    rw [hs] at h hperm hsorted
    cases h
    refine ⟨hperm.mem_iff.mp mem_cons_self, fun x hx => ?_⟩
    rcases mem_cons.mp (hperm.mem_iff.mpr hx) with rfl | hx
    · exact le_rfl
    · exact rel_of_pairwise_cons hsorted hx

end Smallest

/-! ### The counts -/

variable {c : ℕ × ℕ}

lemma mem_cellsOf {H W : ℕ} : c ∈ cellsOf H W ↔ c.1 < H ∧ c.2 < W := by
  obtain ⟨y, x⟩ := c
  simp [cellsOf]

lemma cellsOf_nodup (H W : ℕ) : (cellsOf H W).Nodup := by
  unfold cellsOf
  refine nodup_flatMap.mpr ⟨fun y _ => ?_, ?_⟩
  · exact nodup_range.map fun a b he => (Prod.mk.inj he).2
  · refine nodup_range.imp fun {a b} hne => ?_
    intro c ha hb
    obtain ⟨x, -, rfl⟩ := mem_map.mp ha
    obtain ⟨x', -, he⟩ := mem_map.mp hb
    exact hne (Prod.mk.inj he).1.symm

lemma sorted_unique {xs ys : List ℕ} (h : xs.Perm ys) (hx : xs.Pairwise (· ≤ ·))
    (hy : ys.Pairwise (· ≤ ·)) : xs = ys :=
  h.eq_of_pairwise (fun _ _ _ _ hle hge => le_antisymm hle hge) hx hy

lemma unique_eq_bincount (codes : List ℕ) : unique codes = bincount codes := by
  unfold unique bincount
  congr 1
  have hperm : (codes.dedup.insertionSort (· ≤ ·)).Perm
      ((List.range (codes.foldr max 0 + 1)).filter fun x => codes.count x ≠ 0) := by
    refine (perm_insertionSort _ _).trans ((perm_ext_iff_of_nodup (nodup_dedup _)
      (nodup_range.filter _)).mpr fun x => ?_)
    have hle : x ∈ codes → x ≤ codes.foldr max 0 := fun hx => by
      induction codes with
      | nil => cases hx
      | cons y ys ih =>
        rcases mem_cons.mp hx with rfl | hx
        · exact le_max_left _ _
        · exact (ih hx).trans (le_max_right _ _)
    rw [mem_dedup, mem_filter, mem_range, decide_eq_true_eq, Ne, count_eq_zero, not_not]
    exact ⟨fun hx => ⟨Nat.lt_succ_of_le (hle hx), hx⟩, fun hx => hx.2⟩
  exact sorted_unique hperm (pairwise_insertionSort _ _)
    (pairwise_le_range.sublist filter_sublist)

/-- The cells of new chart `j` that key `k` owned. -/
def share (H W : ℕ) (prev new : Plane) (j k : ℕ) : ℕ :=
  ((cellsOf H W).filter fun c => new c.1 c.2 = j ∧ prev c.1 c.2 = k).length

lemma decode_get (codes : List ℕ) (n j k : ℕ) (hk : k ≤ n) :
    (decode n (unique codes)).get (j, k) =
      if codes.count (j * (n + 1) + k) = 0 then none else some (codes.count (j * (n + 1) + k)) := by
  have hdecode {x : ℕ} : x / (n + 1) = j ∧ x % (n + 1) = k ↔ x = j * (n + 1) + k := by
    constructor
    · rintro ⟨rfl, rfl⟩
      exact (Nat.div_add_mod' x (n + 1)).symm
    · rintro rfl
      have hlt : k < n + 1 := Nat.lt_succ_of_le hk
      rw [Nat.mul_comm, Nat.mul_add_div (Nat.succ_pos n), Nat.div_eq_of_lt hlt, Nat.mul_add_mod, Nat.mod_eq_of_lt hlt]
      exact ⟨rfl, rfl⟩
  have hmem {e : (ℕ × ℕ) × ℕ} : e ∈ (unique codes).map (fun e =>
      ((e.1 / (n + 1), e.1 % (n + 1)), e.2)) ↔
      ∃ x ∈ codes, e = ((x / (n + 1), x % (n + 1)), codes.count x) := by
    unfold unique
    simp only [map_map, mem_map, mem_insertionSort, mem_dedup, Function.comp_apply]
    exact exists_congr fun x => and_congr_right fun _ => eq_comm
  unfold decode
  split
  · rename_i hzero
    refine get_ofList_none fun hin => ?_
    obtain ⟨e, he, hek⟩ := mem_map.mp hin
    obtain ⟨x, hx, rfl⟩ := hmem.mp he
    obtain rfl := hdecode.mp (Prod.mk.inj hek)
    exact count_eq_zero.mp hzero hx
  · rename_i hpos
    refine get_ofList (fun e he hek => ?_) ?_
    · obtain ⟨x, hx, rfl⟩ := hmem.mp he
      obtain rfl := hdecode.mp (Prod.mk.inj hek)
      rfl
    · have hin : j * (n + 1) + k ∈ codes := by
        by_contra hno
        exact hpos (count_eq_zero.mpr hno)
      refine mem_map.mpr ⟨_, hmem.mpr ⟨_, hin, rfl⟩, ?_⟩
      obtain ⟨h1, h2⟩ := hdecode.mpr rfl
      exact Prod.ext h1 h2

variable {i k n : ℕ} {cells : List (ℕ × ℕ)} {labels : List ℕ}

lemma overlaps_get {H W : ℕ} {prev new : Plane} (hprev : ∀ y < H, ∀ x < W, prev y x < n)
    (j k : ℕ) (hk : k < n) : (overlaps H W prev new n).get (j, k) =
      if share H W prev new j k = 0 then none else some (share H W prev new j k) := by
  have hcount : (((cellsOf H W).filter fun c => 0 ≤ prev c.1 c.2 ∧ 0 ≤ new c.1 c.2).map fun c =>
      codeOf n (new c.1 c.2) (prev c.1 c.2)).count (j * (n + 1) + k) = share H W prev new j k := by
    unfold share
    rw [count_eq_countP, countP_map, countP_filter, ← countP_eq_length_filter]
    refine countP_congr fun c hc => ?_
    have hlt := hprev c.1 (mem_cellsOf.mp hc).1 c.2 (mem_cellsOf.mp hc).2
    simp only [Function.comp_apply, Bool.and_eq_true, beq_iff_eq, decide_eq_true_eq]
    unfold codeOf
    constructor
    · rintro ⟨he, hp, hn⟩
      obtain ⟨a, ha⟩ := Int.eq_ofNat_of_zero_le hn
      obtain ⟨b, hb⟩ := Int.eq_ofNat_of_zero_le hp
      rw [ha, hb] at he ⊢
      rw [hb] at hlt
      simp only [Int.toNat_natCast, Nat.cast_inj, Nat.cast_lt] at he hlt ⊢
      have hdiv := congrArg (· / (n + 1)) he
      have hmod := congrArg (· % (n + 1)) he
      simp only [Nat.mul_comm _ (n + 1), Nat.mul_add_div (Nat.succ_pos n), Nat.mul_add_mod,
        Nat.div_eq_of_lt (Nat.lt_succ_of_lt hlt), Nat.div_eq_of_lt (Nat.lt_succ_of_lt hk),
        Nat.mod_eq_of_lt (Nat.lt_succ_of_lt hlt), Nat.mod_eq_of_lt (Nat.lt_succ_of_lt hk)]
        at hdiv hmod
      exact ⟨hdiv, hmod⟩
    · rintro ⟨hj, hk'⟩
      rw [hj, hk']
      simp
  unfold overlaps
  dsimp only
  rw [decode_get _ n j k hk.le, hcount]

lemma planeOf_cell (hnd : cells.Nodup) (hlen : labels.length = cells.length) (hi : i < cells.length)
    (hi' : i < labels.length) :
    planeOf cells labels cells[i].1 cells[i].2 = (labels[i] : ℤ) := by
  have hzip : (cells.zip labels).map Prod.fst = cells := map_fst_zip hlen.ge
  have hmem : (cells[i], labels[i]) ∈ cells.zip labels := by
    have hz : i < (cells.zip labels).length := by
      rw [length_zip]
      omega
    rw [← getElem_zip (h := hz)]
    exact getElem_mem hz
  have hget : (Dict.ofList (cells.zip labels)).get cells[i] = some labels[i] := by
    refine get_ofList (fun e he hek => ?_) ?_
    · have hnd' : ((cells.zip labels).map Prod.fst).Nodup := by
        rw [hzip]
        exact hnd
      rw [inj_on_of_nodup_map hnd' he hmem hek]
    · rw [hzip]
      exact getElem_mem hi
  unfold planeOf
  rw [hget]
  rfl

lemma labels_eq (hnd : cells.Nodup) (hlen : labels.length = cells.length) :
    labels = cells.map fun c => (planeOf cells labels c.1 c.2).toNat := by
  refine ext_getElem (by simp [hlen]) fun i hi hi' => ?_
  rw [getElem_map, planeOf_cell hnd hlen (hlen ▸ hi) hi]
  rfl

lemma planeOf_nonneg (hnd : cells.Nodup) (hlen : labels.length = cells.length) (hc : c ∈ cells) :
    0 ≤ planeOf cells labels c.1 c.2 := by
  obtain ⟨i, hi, rfl⟩ := getElem_of_mem hc
  rw [planeOf_cell hnd hlen hi (hlen ▸ hi)]
  exact Int.natCast_nonneg _

lemma planeOf_none (hlen : labels.length = cells.length)
    (hc : c ∉ cells) : planeOf cells labels c.1 c.2 = -1 := by
  have hnone : (Dict.ofList (cells.zip labels)).get c = none := by
    refine get_ofList_none ?_
    rw [map_fst_zip hlen.ge]
    exact hc
  unfold planeOf
  rw [hnone]
  rfl

lemma overlaps_cells_eq {H W : ℕ} (prev : Plane)
    (hnd : cells.Nodup) (hin : ∀ c ∈ cells, c.1 < H ∧ c.2 < W)
    (hlen : labels.length = cells.length) :
    overlaps_cells prev cells labels n = overlaps H W prev (planeOf cells labels) n := by
  have hpos {c : ℕ × ℕ} (hc : c ∈ cells) := planeOf_nonneg hnd hlen hc
  have hcodes : ((labels.zip (cells.map fun c => prev c.1 c.2)).filter fun e => 0 ≤ e.2).map
      (fun e => codeOf n e.1 e.2) = (cells.filter fun c => 0 ≤ prev c.1 c.2).map fun c =>
        codeOf n (planeOf cells labels c.1 c.2) (prev c.1 c.2) := by
    have hzip : labels.zip (cells.map fun c => prev c.1 c.2) =
        cells.map fun c => ((planeOf cells labels c.1 c.2).toNat, prev c.1 c.2) := by
      rw [← zip_map', ← labels_eq hnd hlen]
    rw [hzip, filter_map, map_map]
    rfl
  have hperm : (cells.filter fun c => 0 ≤ prev c.1 c.2).Perm
      ((cellsOf H W).filter fun c => 0 ≤ prev c.1 c.2 ∧ 0 ≤ planeOf cells labels c.1 c.2) := by
    refine (perm_ext_iff_of_nodup (hnd.filter _) ((cellsOf_nodup H W).filter _)).mpr fun c => ?_
    rw [mem_filter, mem_filter, mem_cellsOf, decide_eq_true_eq, decide_eq_true_eq]
    constructor
    · rintro ⟨hc, hp⟩
      exact ⟨hin c hc, hp, hpos hc⟩
    · rintro ⟨-, hp, hl⟩
      refine ⟨?_, hp⟩
      by_contra hc
      rw [planeOf_none hlen hc] at hl
      cases hl
  have hunique {xs ys : List ℕ} (h : xs.Perm ys) : unique xs = unique ys := by
    unfold unique
    have hperm : (xs.dedup.insertionSort (· ≤ ·)).Perm (ys.dedup.insertionSort (· ≤ ·)) :=
      (perm_insertionSort _ _).trans (h.dedup.trans (perm_insertionSort _ _).symm)
    have hsort := sorted_unique hperm (pairwise_insertionSort _ _)
      (pairwise_insertionSort _ _)
    rw [hsort]
    exact map_congr_left fun x _ => by rw [h.count_eq]
  unfold overlaps_cells overlaps
  dsimp only
  rw [hcodes, ← unique_eq_bincount, ite_self, hunique (hperm.map _)]

/-! ### Who gets a key -/

section Claims
variable {β : Type} {prev_keys : List (Key β)} {f : ℕ → Option (ℕ × ℕ)} {anchors : List (ℤ × ℤ)}

/-- The charts whose first choice is key `k`. -/
def claimants (f : ℕ → Option (ℕ × ℕ)) (nj k : ℕ) : List ℕ :=
  (List.range nj).filter fun j => (f j).map Prod.fst = some k

variable {nj : ℕ}

lemma mem_claimants {j : ℕ} :
    j ∈ claimants f nj k ↔ j < nj ∧ (f j).map Prod.fst = some k := by
  unfold claimants
  rw [mem_filter, mem_range, decide_eq_true_eq]

lemma claimants_succ (f : ℕ → Option (ℕ × ℕ)) (nj k : ℕ) : claimants f (nj + 1) k =
    if (f nj).map Prod.fst = some k then claimants f nj k ++ [nj] else claimants f nj k := by
  unfold claimants
  rw [range_succ, filter_append, filter_singleton]
  split
  · rename_i h
    rw [decide_eq_true h, cond_true]
  · rename_i h
    rw [decide_eq_false h, cond_false, append_nil]

lemma claims_get (f : ℕ → Option (ℕ × ℕ)) (nj k : ℕ) : (claims f nj).get k =
    if claimants f nj k = [] then none else some (claimants f nj k) := by
  induction nj with
  | zero => rfl
  | succ nj ih =>
    have hsucc := claimants_succ f nj k
    cases hf : f nj with
    | none =>
      have hstep : claims f (nj + 1) = claims f nj := by
        simp only [claims, range_succ, foldl_append, foldl_cons, foldl_nil, hf]
      rw [hf] at hsucc
      rw [if_neg fun he => nomatch he] at hsucc
      rw [hstep, hsucc]
      exact ih
    | some e =>
      have hstep : claims f (nj + 1) =
          (claims f nj).set e.1 (((claims f nj).get e.1).getD [] ++ [nj]) := by
        simp only [claims, range_succ, foldl_append, foldl_cons, foldl_nil, hf]
      rw [hf] at hsucc
      dsimp only [Option.map_some] at hsucc
      rw [hstep, get_set]
      by_cases hk : k = e.1
      · subst hk
        have hne : claimants f nj e.1 ++ [nj] ≠ [] := append_ne_nil_of_right_ne_nil _ (by simp)
        rw [if_pos rfl] at hsucc
        rw [if_pos rfl, hsucc, if_neg hne, ih]
        split
        · rename_i hnil
          rw [hnil]
          rfl
        · rfl
      · rw [if_neg fun he => hk (Option.some.inj he).symm] at hsucc
        rw [if_neg hk, hsucc]
        exact ih

lemma mem_claims {js : List ℕ} (h : (k, js) ∈ (claims f nj).items) :
    js = claimants f nj k ∧ js ≠ [] := by
  have hget := mem_items.mp h
  rw [claims_get] at hget
  split at hget
  · cases hget
  · rename_i hne
    cases hget
    exact ⟨rfl, hne⟩

lemma claimed {j : ℕ} (hj : j < nj) (hf : (f j).map Prod.fst = some k) :
    (k, claimants f nj k) ∈ (claims f nj).items := by
  rw [mem_items, claims_get, if_neg (ne_nil_of_mem (mem_claimants.mpr ⟨hj, hf⟩))]

lemma awards_length (es : List (ℕ × List ℕ)) (acc : List (Option (Key β)) × List ℕ) :
    (es.foldl (award prev_keys f anchors) acc).1.length = acc.1.length := by
  induction es generalizing acc with
  | nil => rfl
  | cons e es ih =>
    rw [foldl_cons, ih]
    unfold award
    split
    · exact length_set
    · rfl

variable {es : List (ℕ × List ℕ)}

lemma awards_get (hes : ∀ e ∈ es, ∀ j ∈ e.2, (f j).map Prod.fst = some e.1)
    (hnd : (es.map Prod.fst).Nodup) (acc : List (Option (Key β)) × List ℕ) {j : ℕ}
    (hj : j < acc.1.length) : (es.foldl (award prev_keys f anchors) acc).1[j]? =
      (es.find? fun e => smallest (rank f anchors) e.2 = some j).elim acc.1[j]? fun e => some prev_keys[e.1]? := by
  induction es generalizing acc with
  | nil => rfl
  | cons e es ih =>
    obtain ⟨hnew, hnd⟩ := nodup_cons.mp hnd
    have hrest := ih (fun e' he' => hes e' (mem_cons_of_mem _ he')) hnd
    rw [foldl_cons, List.find?_cons]
    cases hw : smallest (rank f anchors) e.2 with
    | none =>
      have haward : award prev_keys f anchors acc e = acc := by
        unfold award
        rw [hw]
      rw [haward, hrest acc hj]
      rfl
    | some w =>
      have haward : award prev_keys f anchors acc e =
          (acc.1.set w prev_keys[e.1]?, e.1 :: acc.2) := by
        unfold award
        rw [hw]
      rw [haward, hrest _ (by rw [length_set]; exact hj)]
      by_cases he : w = j
      · subst he
        have hnone : es.find? (fun e => smallest (rank f anchors) e.2 = some w) = none := by
          refine List.find?_eq_none.mpr fun e' he' hw' => ?_
          have hk := hes e mem_cons_self w (smallest_spec hw).1
          have hmem := (smallest_spec (of_decide_eq_true hw')).1
          have hk' := hes e' (mem_cons_of_mem _ he') w hmem
          refine hnew (mem_map.mpr ⟨e', he', ?_⟩)
          exact (Option.some.inj (hk.symm.trans hk')).symm
        rw [hnone]
        simp [List.getElem?_set_self hj]
      · have hne : ¬ some w = some j := fun h => he (Option.some.inj h)
        simp [List.getElem?_set_ne he, hne]

lemma mem_used (hne : ∀ e ∈ es, e.2 ≠ []) (acc : List (Option (Key β)) × List ℕ) :
    k ∈ (es.foldl (award prev_keys f anchors) acc).2 ↔ k ∈ acc.2 ∨ k ∈ es.map Prod.fst := by
  induction es generalizing acc with
  | nil => simp
  | cons e es ih =>
    obtain ⟨w, hw⟩ := smallest_some (rank f anchors) (hne e mem_cons_self)
    have haward : award prev_keys f anchors acc e =
        (acc.1.set w prev_keys[e.1]?, e.1 :: acc.2) := by
      unfold award
      rw [hw]
    rw [foldl_cons, ih (fun e' he' => hne e' (mem_cons_of_mem _ he')), haward]
    simp only [mem_cons, map_cons]
    tauto

end Claims

/-! ### The new charts -/

section Born
variable {β : Type}
variable {keys : List (Option (Key β))}

lemma mem_born {birth : β} {key : Key β} (h : key ∈ born birth n keys) :
    some key ∈ keys ∨ ∃ m, n ≤ m ∧ key = toLex (birth, m) := by
  induction keys generalizing n with
  | nil => cases h
  | cons x xs ih =>
    cases x with
    | none =>
      rcases mem_cons.mp h with rfl | h
      · exact .inr ⟨n, le_rfl, rfl⟩
      · rcases ih h with h | ⟨m, hm, rfl⟩
        · exact .inl (mem_cons_of_mem _ h)
        · exact .inr ⟨m, Nat.le_of_succ_le hm, rfl⟩
    | some k =>
      rcases mem_cons.mp h with rfl | h
      · exact .inl mem_cons_self
      · exact (ih h).imp (mem_cons_of_mem _) id

lemma born_length (birth : β) (n : ℕ) (keys : List (Option (Key β))) :
    (born birth n keys).length = keys.length := by
  induction keys generalizing n with
  | nil => rfl
  | cons x xs ih => cases x <;> simp [born, ih]

lemma born_get {birth : β} {j : ℕ} {key : Key β} (hkey : (ofLex key).1 ≠ birth) :
    (born birth n keys)[j]? = some key ↔ keys[j]? = some (some key) := by
  induction keys generalizing n j with
  | nil => simp [born]
  | cons x xs ih =>
    cases j with
    | zero =>
      cases x with
      | none =>
        have hne : toLex (birth, n) ≠ key := fun he => hkey (he ▸ rfl)
        simp [born, hne]
      | some k => simp [born]
    | succ j => cases x <;> simpa [born] using ih

lemma born_nodup {birth : β}
    (hnd : (keys.filterMap id).Nodup) (hkey : ∀ key, some key ∈ keys → (ofLex key).1 ≠ birth) :
    (born birth n keys).Nodup := by
  induction keys generalizing n with
  | nil => exact nodup_nil
  | cons x xs ih =>
    have hrest := fun key hk => hkey key (mem_cons_of_mem x hk)
    cases x with
    | none =>
      refine nodup_cons.mpr ⟨fun hm => ?_, ih hnd hrest⟩
      rcases mem_born hm with hm | ⟨m, hlt, he⟩
      · exact hrest _ hm rfl
      · have := (Prod.mk.inj (toLex.injective he)).2
        omega
    | some k =>
      obtain ⟨hnew, hnd⟩ := nodup_cons.mp hnd
      refine nodup_cons.mpr ⟨fun hm => ?_, ih hnd hrest⟩
      rcases mem_born hm with hm | ⟨m, -, he⟩
      · exact hnew (mem_filterMap.mpr ⟨some k, hm, rfl⟩)
      · refine hkey k mem_cons_self ?_
        rw [he]
        rfl

end Born

/-! ### What a chart wants -/

section Rule
variable {β : Type} [LinearOrder β] {prev_keys : List (Key β)} {shared : ℕ → ℕ → ℕ}
  {ov : Dict (ℕ × ℕ) ℕ}

/-- Chart `j` overlaps key `k` most; of two it overlaps in as many cells it prefers the older. -/
def Wants (prev_keys : List (Key β)) (shared : ℕ → ℕ → ℕ) (j k : ℕ) : Prop :=
  ∃ key, prev_keys[k]? = some key ∧ 0 < shared j k ∧ ∀ k' key', prev_keys[k']? = some key' →
    shared j k' < shared j k ∨ (shared j k' = shared j k ∧ key ≤ key')

variable {k' : ℕ}

lemma Wants.unique (hnd : prev_keys.Nodup) {j : ℕ} (h : Wants prev_keys shared j k)
    (h' : Wants prev_keys shared j k') : k = k' := by
  obtain ⟨key, hk, -, hmost⟩ := h
  obtain ⟨key', hk', -, hmost'⟩ := h'
  have h1 := hmost k' key' hk'
  have h2 := hmost' k key hk
  have heq : key = key' := by
    rcases h1 with h1 | ⟨h1, hle⟩
    · rcases h2 with h2 | ⟨h2, -⟩ <;> omega
    · rcases h2 with h2 | ⟨-, hle'⟩
      · omega
      · exact le_antisymm hle hle'
  subst heq
  obtain ⟨hlt, hget⟩ := List.getElem?_eq_some_iff.mp hk
  obtain ⟨hlt', hget'⟩ := List.getElem?_eq_some_iff.mp hk'
  exact (hnd.getElem_inj_iff).mp (hget.trans hget'.symm)

def Counts (n : ℕ) (shared : ℕ → ℕ → ℕ) (ov : Dict (ℕ × ℕ) ℕ) : Prop :=
  ∀ j k, k < n → ov.get (j, k) = if shared j k = 0 then none else some (shared j k)

lemma mem_ranking (hov : Counts prev_keys.length shared ov) {j : ℕ} {e : ℤ ×ₗ Key β ×ₗ ℕ} :
    e ∈ ranking prev_keys ov j ↔ ∃ k key, prev_keys[k]? = some key ∧ 0 < shared j k ∧
      e = toLex (-(shared j k : ℤ), toLex (key, k)) := by
  unfold ranking
  rw [mem_insertionSort, mem_filterMap]
  constructor
  · rintro ⟨⟨⟨j', k⟩, n⟩, hmem, he⟩
    dsimp only at he
    split at he
    · rename_i hj
      subst hj
      obtain ⟨key, hkey, rfl⟩ := Option.map_eq_some_iff.mp he
      have hlt := (List.getElem?_eq_some_iff.mp hkey).1
      have hget := mem_items.mp hmem
      rw [hov _ _ hlt] at hget
      split at hget
      · cases hget
      · rename_i hpos
        cases hget
        exact ⟨k, key, hkey, Nat.pos_of_ne_zero hpos, rfl⟩
    · cases he
  · rintro ⟨k, key, hkey, hpos, rfl⟩
    have hlt := (List.getElem?_eq_some_iff.mp hkey).1
    refine ⟨((j, k), shared j k), mem_items.mpr ?_, ?_⟩
    · rw [hov _ _ hlt, if_neg hpos.ne']
    · rw [if_pos rfl, hkey]
      rfl

lemma first_spec (hnd : prev_keys.Nodup) (hov : Counts prev_keys.length shared ov) {j : ℕ} :
    first prev_keys ov j = some (k, n) ↔ Wants prev_keys shared j k ∧ n = shared j k := by
  have hhead {e : ℤ ×ₗ Key β ×ₗ ℕ} (he : (ranking prev_keys ov j).head? = some e) :
      ∃ k, e = toLex (-(shared j k : ℤ), toLex ((ofLex (ofLex e).2).1, k)) ∧
        Wants prev_keys shared j k := by
    have hmem : e ∈ ranking prev_keys ov j := mem_of_mem_head? he
    obtain ⟨k, key, hkey, hpos, rfl⟩ := (mem_ranking hov).mp hmem
    refine ⟨k, rfl, key, hkey, hpos, fun k' key' hkey' => ?_⟩
    by_cases hzero : shared j k' = 0
    · exact .inl (hzero ▸ hpos)
    · have hmin := (head_sorted he).2 _ (mem_insertionSort _ |>.mp
        ((mem_ranking hov).mpr ⟨k', key', hkey', Nat.pos_of_ne_zero hzero, rfl⟩))
      rcases Prod.Lex.toLex_le_toLex.mp hmin with hlt | ⟨heq, hle⟩
      · left
        have : -(shared j k : ℤ) < -(shared j k' : ℤ) := hlt
        omega
      · right
        have heq : -(shared j k : ℤ) = -(shared j k' : ℤ) := heq
        refine ⟨by omega, ?_⟩
        rcases Prod.Lex.toLex_le_toLex.mp hle with hlt | ⟨hsame, -⟩
        · exact hlt.le
        · exact hsame.le
  unfold first
  constructor
  · intro h
    obtain ⟨e, he, hkn⟩ := Option.map_eq_some_iff.mp h
    obtain ⟨k', hform, hwants⟩ := hhead he
    rw [hform] at hkn
    cases hkn
    exact ⟨hwants, by simp⟩
  · rintro ⟨hwants, rfl⟩
    obtain ⟨key, hkey, hpos, -⟩ := id hwants
    have hne : ranking prev_keys ov j ≠ [] :=
      ne_nil_of_mem ((mem_ranking hov).mpr ⟨k, key, hkey, hpos, rfl⟩)
    obtain ⟨e, he⟩ := Option.isSome_iff_exists.mp (isSome_head?.mpr hne)
    obtain ⟨k', hform, hwants'⟩ := hhead he
    obtain rfl := hwants'.unique hnd hwants
    rw [he, hform]
    simp

/-! ### The rule -/

def place (anchors : List (ℤ × ℤ)) (j : ℕ) : ℤ ×ₗ ℤ :=
  toLex ((anchors.getD j (0, 0)).2, (anchors.getD j (0, 0)).1)

/-- Of the charts that want key `k`, chart `j` overlaps it most; ties go to the smaller anchor. -/
def Takes (prev_keys : List (Key β)) (shared : ℕ → ℕ → ℕ) (anchors : List (ℤ × ℤ)) (j k : ℕ) :
    Prop :=
  Wants prev_keys shared j k ∧ ∀ j' < anchors.length, j' ≠ j → Wants prev_keys shared j' k →
    shared j' k < shared j k ∨ (shared j' k = shared j k ∧ place anchors j < place anchors j')

lemma Takes.unique {anchors : List (ℤ × ℤ)} {j : ℕ} (hi : i < anchors.length)
    (hj : j < anchors.length) (h : Takes prev_keys shared anchors i k)
    (h' : Takes prev_keys shared anchors j k) : i = j := by
  by_contra hne
  rcases h.2 j hj (Ne.symm hne) h'.1 with h1 | ⟨h1, hlt⟩
  · rcases h'.2 i hi hne h.1 with h2 | ⟨h2, -⟩ <;> omega
  · rcases h'.2 i hi hne h.1 with h2 | ⟨-, hlt'⟩
    · omega
    · exact absurd hlt hlt'.asymm

lemma place_ne {anchors : List (ℤ × ℤ)} (hnd : anchors.Nodup) {j : ℕ} (hi : i < anchors.length)
    (hj : j < anchors.length) (hne : i ≠ j) : place anchors i ≠ place anchors j := by
  intro he
  have hpair := Prod.mk.inj (toLex.injective he)
  rw [getD_eq_getElem _ _ hi, getD_eq_getElem _ _ hj] at hpair
  exact hne (hnd.getElem_inj_iff.mp (Prod.ext hpair.2 hpair.1))

lemma rank_eq (hnd : prev_keys.Nodup) (hov : Counts prev_keys.length shared ov)
    (anchors : List (ℤ × ℤ)) {j : ℕ} (h : Wants prev_keys shared j k) :
    rank (first prev_keys ov) anchors j = toLex (-(shared j k : ℤ), place anchors j) := by
  unfold rank
  rw [(first_spec hnd hov).mpr ⟨h, rfl⟩]
  rfl

lemma first_key (hnd : prev_keys.Nodup) (hov : Counts prev_keys.length shared ov) {j : ℕ} :
    (first prev_keys ov j).map Prod.fst = some k ↔ Wants prev_keys shared j k := by
  constructor
  · intro h
    obtain ⟨⟨k', n⟩, hf, rfl⟩ := Option.map_eq_some_iff.mp h
    exact ((first_spec hnd hov).mp hf).1
  · intro h
    rw [(first_spec hnd hov).mpr ⟨h, rfl⟩]
    rfl

lemma smallest_claimant (hnd : prev_keys.Nodup) (hov : Counts prev_keys.length shared ov)
    {anchors : List (ℤ × ℤ)} (hanchors : anchors.Nodup) {j : ℕ} (hj : j < anchors.length) :
    smallest (rank (first prev_keys ov) anchors) (claimants (first prev_keys ov) anchors.length k) =
      some j ↔ Takes prev_keys shared anchors j k := by
  constructor
  · intro h
    obtain ⟨hmem, hle⟩ := smallest_spec h
    have hwants := (first_key hnd hov).mp (mem_claimants.mp hmem).2
    refine ⟨hwants, fun j' hj' hne hwants' => ?_⟩
    have hmin := hle j' (mem_claimants.mpr ⟨hj', (first_key hnd hov).mpr hwants'⟩)
    rw [rank_eq hnd hov anchors hwants, rank_eq hnd hov anchors hwants'] at hmin
    rcases Prod.Lex.toLex_le_toLex.mp hmin with hlt | ⟨heq, hplace⟩
    · left
      have : -(shared j k : ℤ) < -(shared j' k : ℤ) := hlt
      omega
    · right
      have heq : -(shared j k : ℤ) = -(shared j' k : ℤ) := heq
      exact ⟨by omega, lt_of_le_of_ne hplace (place_ne hanchors hj hj' (Ne.symm hne))⟩
  · rintro ⟨hwants, hbest⟩
    have hmem := mem_claimants.mpr ⟨hj, (first_key hnd hov).mpr hwants⟩
    refine smallest_eq hmem fun j' hmem hne => ?_
    obtain ⟨hj', hf⟩ := mem_claimants.mp hmem
    have hwants' := (first_key hnd hov).mp hf
    rw [rank_eq hnd hov anchors hwants, rank_eq hnd hov anchors hwants']
    refine Prod.Lex.toLex_lt_toLex.mpr ?_
    rcases hbest j' hj' hne hwants' with hlt | ⟨heq, hlt⟩
    · left
      show -(shared j k : ℤ) < -(shared j' k : ℤ)
      omega
    · right
      exact ⟨by rw [heq], hlt⟩

def awarded (prev_keys : List (Key β)) (ov : Dict (ℕ × ℕ) ℕ) (anchors : List (ℤ × ℤ)) :
    List (Option (Key β)) × List ℕ :=
  (claims (first prev_keys ov) anchors.length).items.foldl
    (award prev_keys (first prev_keys ov) anchors) (List.replicate anchors.length none, [])

variable {anchors : List (ℤ × ℤ)}

lemma awarded_length : (awarded prev_keys ov anchors).1.length = anchors.length := by
  unfold awarded
  rw [awards_length, length_replicate]

lemma awarded_get (hnd : prev_keys.Nodup) (hov : Counts prev_keys.length shared ov)
    (hanchors : anchors.Nodup) {j : ℕ} (hj : j < anchors.length) {key : Key β} :
    (awarded prev_keys ov anchors).1[j]? = some (some key) ↔
      ∃ k, prev_keys[k]? = some key ∧ Takes prev_keys shared anchors j k := by
  have hes : ∀ e ∈ (claims (first prev_keys ov) anchors.length).items, ∀ j ∈ e.2,
      (first prev_keys ov j).map Prod.fst = some e.1 := by
    rintro ⟨k, js⟩ he i hi
    obtain ⟨rfl, -⟩ := mem_claims he
    exact (mem_claimants.mp hi).2
  have hget := @awards_get β prev_keys _ anchors _ hes
    (claims (first prev_keys ov) anchors.length).nodup (List.replicate anchors.length none, []) j
    (by rw [length_replicate]; exact hj)
  unfold awarded
  rw [hget]
  constructor
  · intro h
    cases hfind : (claims (first prev_keys ov) anchors.length).items.find? fun e =>
        smallest (rank (first prev_keys ov) anchors) e.2 = some j with
    | none =>
      rw [hfind, Option.elim_none, List.getElem?_replicate, if_pos hj] at h
      cases h
    | some e =>
      rw [hfind, Option.elim_some] at h
      obtain ⟨k, js⟩ := e
      obtain ⟨rfl, -⟩ := mem_claims (mem_of_find?_eq_some hfind)
      have hsmall := List.find?_some hfind
      exact ⟨k, Option.some.inj h, (smallest_claimant hnd hov hanchors hj).mp (of_decide_eq_true hsmall)⟩
  · rintro ⟨k, hkey, htakes⟩
    have hf := (first_key hnd hov).mpr htakes.1
    have hsmall := (smallest_claimant hnd hov hanchors hj).mpr htakes
    have hsome : ((claims (first prev_keys ov) anchors.length).items.find? fun e =>
        smallest (rank (first prev_keys ov) anchors) e.2 = some j).isSome = true :=
      List.find?_isSome.mpr ⟨_, claimed hj hf, decide_eq_true hsmall⟩
    obtain ⟨⟨k', js⟩, hfind⟩ := Option.isSome_iff_exists.mp hsome
    obtain ⟨rfl, -⟩ := mem_claims (mem_of_find?_eq_some hfind)
    have hsmall' := List.find?_some hfind
    have hmem := (smallest_spec (of_decide_eq_true hsmall')).1
    obtain rfl := Option.some.inj ((mem_claimants.mp hmem).2.symm.trans hf)
    rw [hfind, Option.elim_some, hkey]

lemma mem_awarded_used (hnd : prev_keys.Nodup) (hov : Counts prev_keys.length shared ov)
    (hanchors : anchors.Nodup) : k ∈ (awarded prev_keys ov anchors).2 ↔
      ∃ j < anchors.length, Takes prev_keys shared anchors j k := by
  unfold awarded
  rw [mem_used fun e he => (mem_claims he).2]
  constructor
  · intro h
    rcases h with h | h
    · cases h
    · obtain ⟨⟨k, js⟩, he, rfl⟩ := mem_map.mp h
      obtain ⟨rfl, hne⟩ := mem_claims he
      obtain ⟨j, hj⟩ := smallest_some (rank (first prev_keys ov) anchors) hne
      have hlt := (mem_claimants.mp (smallest_spec hj).1).1
      exact ⟨j, hlt, (smallest_claimant hnd hov hanchors hlt).mp hj⟩
  · rintro ⟨j, hj, htakes⟩
    exact .inr (mem_map.mpr ⟨_, claimed hj ((first_key hnd hov).mpr htakes.1), rfl⟩)

lemma some_mem_awarded (hnd : prev_keys.Nodup) (hov : Counts prev_keys.length shared ov)
    (hanchors : anchors.Nodup) {key : Key β} (h : some key ∈ (awarded prev_keys ov anchors).1) :
    key ∈ prev_keys := by
  obtain ⟨j, hj, hget⟩ := getElem_of_mem h
  have hlt : j < anchors.length := by
    rwa [awarded_length] at hj
  obtain ⟨k, hkey, -⟩ := (awarded_get hnd hov hanchors hlt).mp
    (List.getElem?_eq_some_iff.mpr ⟨hj, hget⟩)
  exact mem_of_getElem? hkey

lemma nodup_filterMap {α : Type} {xs : List (Option α)}
    (h : ∀ (i j : ℕ) (x : α), xs[i]? = some (some x) → xs[j]? = some (some x) → i = j) :
    (xs.filterMap id).Nodup := by
  induction xs with
  | nil => exact nodup_nil
  | cons y ys ih =>
    have hrest := ih fun i j x hi hj => Nat.succ.inj (h (i + 1) (j + 1) x hi hj)
    cases y with
    | none => exact hrest
    | some x =>
      refine nodup_cons.mpr ⟨fun hm => ?_, hrest⟩
      obtain ⟨z, hz, hzx⟩ := mem_filterMap.mp hm
      obtain rfl : z = some x := hzx
      obtain ⟨i, hi, hget⟩ := getElem_of_mem hz
      have hlater : (some x :: ys)[i + 1]? = some (some x) := by
        rw [List.getElem?_cons_succ]
        exact List.getElem?_eq_some_iff.mpr ⟨hi, hget⟩
      cases h 0 (i + 1) x rfl hlater

lemma filter_places {α : Type} [DecidableEq α] (xs : List α) (p : ℕ → Bool) (q : α → Bool)
    (h : ∀ k x, xs[k]? = some x → p k = q x) :
    ((List.range xs.length).filter p).filterMap (fun k => xs[k]?) = xs.filter q := by
  have hall : (List.range xs.length).filterMap (fun k => xs[k]?) = xs := by
    have hmap : (List.range xs.length).map (fun k => xs[k]?) = xs.map some := by
      refine ext_getElem (by simp) fun i hi hi' => ?_
      rw [length_map] at hi'
      simp [hi']
    have := congrArg (List.filterMap id) hmap
    rw [filterMap_map, filterMap_map] at this
    simpa using this
  conv_rhs => rw [← hall]
  rw [filter_filterMap, filterMap_filter]
  refine filterMap_congr fun k hk => ?_
  have hlt := mem_range.mp hk
  rw [List.getElem?_eq_getElem hlt, h k xs[k] (List.getElem?_eq_getElem hlt)]
  rfl

variable {H W : ℕ} {prev new : Plane} {birth : β}

omit [LinearOrder β] in
lemma overlaps_counts (hprev : ∀ y < H, ∀ x < W, prev y x < prev_keys.length) :
    Counts prev_keys.length (share H W prev new) (overlaps H W prev new prev_keys.length) :=
  fun j k hk => overlaps_get hprev j k hk

lemma assign_length : (assign_A prev_keys H W prev new anchors birth none).1.length = anchors.length := by
  change (born birth 0 (awarded prev_keys (overlaps H W prev new prev_keys.length) anchors).1).length = _
  rw [born_length, awarded_length]

lemma assign_old (hnd : prev_keys.Nodup) (hprev : ∀ y < H, ∀ x < W, prev y x < prev_keys.length)
    (hanchors : anchors.Nodup) {key : Key β}
    (hkey : key ∈ (assign_A prev_keys H W prev new anchors birth none).1) :
    key ∈ prev_keys ∨ (ofLex key).1 = birth := by
  rcases mem_born hkey with hold | ⟨m, -, rfl⟩
  · exact .inl (some_mem_awarded hnd (overlaps_counts hprev) hanchors hold)
  · exact .inr rfl

lemma assign_get (hnd : prev_keys.Nodup) (hprev : ∀ y < H, ∀ x < W, prev y x < prev_keys.length)
    (hanchors : anchors.Nodup) (hbirth : ∀ key ∈ prev_keys, (ofLex key).1 ≠ birth) {j : ℕ}
    (hj : j < anchors.length) {key : Key β} (hkey : prev_keys[k]? = some key) :
    (assign_A prev_keys H W prev new anchors birth none).1[j]? = some key ↔
      Takes prev_keys (share H W prev new) anchors j k := by
  change (born birth 0 (awarded prev_keys (overlaps H W prev new prev_keys.length) anchors).1)[j]? = _ ↔ _
  rw [born_get (hbirth key (mem_of_getElem? hkey)), awarded_get hnd (overlaps_counts hprev) hanchors hj]
  constructor
  · rintro ⟨k', hkey', htakes⟩
    obtain ⟨hlt, hx⟩ := List.getElem?_eq_some_iff.mp hkey
    obtain ⟨hlt', hx'⟩ := List.getElem?_eq_some_iff.mp hkey'
    obtain rfl := hnd.getElem_inj_iff.mp (hx'.trans hx.symm)
    exact htakes
  · exact fun htakes => ⟨k, hkey, htakes⟩

lemma assign_nodup (hnd : prev_keys.Nodup) (hprev : ∀ y < H, ∀ x < W, prev y x < prev_keys.length)
    (hanchors : anchors.Nodup) (hbirth : ∀ key ∈ prev_keys, (ofLex key).1 ≠ birth) :
    (assign_A prev_keys H W prev new anchors birth none).1.Nodup := by
  have hov : Counts prev_keys.length (share H W prev new)
      (overlaps H W prev new prev_keys.length) := overlaps_counts hprev
  change (born birth 0 (awarded prev_keys (overlaps H W prev new prev_keys.length) anchors).1).Nodup
  refine born_nodup (nodup_filterMap fun i j key hi hj => ?_)
    fun key h => hbirth key (some_mem_awarded hnd hov hanchors h)
  have hi' : i < anchors.length := by
    have := (List.getElem?_eq_some_iff.mp hi).1
    rwa [awarded_length] at this
  have hj' : j < anchors.length := by
    have := (List.getElem?_eq_some_iff.mp hj).1
    rwa [awarded_length] at this
  obtain ⟨k, hkey, htakes⟩ := (awarded_get hnd hov hanchors hi').mp hi
  obtain ⟨k', hkey', htakes'⟩ := (awarded_get hnd hov hanchors hj').mp hj
  obtain ⟨hlt, hx⟩ := List.getElem?_eq_some_iff.mp hkey
  obtain ⟨hlt', hx'⟩ := List.getElem?_eq_some_iff.mp hkey'
  obtain rfl := hnd.getElem_inj_iff.mp (hx'.trans hx.symm)
  exact htakes.unique hi' hj' htakes'

lemma assign_retired (hnd : prev_keys.Nodup) (hprev : ∀ y < H, ∀ x < W, prev y x < prev_keys.length)
    (hanchors : anchors.Nodup) (hbirth : ∀ key ∈ prev_keys, (ofLex key).1 ≠ birth) :
    (assign_A prev_keys H W prev new anchors birth none).2 = prev_keys.filter (fun key =>
      key ∉ (assign_A prev_keys H W prev new anchors birth none).1) := by
  refine filter_places prev_keys _ _ fun k key hkey => ?_
  refine decide_eq_decide.mpr (not_congr ?_)
  change k ∈ (awarded prev_keys (overlaps H W prev new prev_keys.length) anchors).2 ↔ _
  rw [mem_awarded_used hnd (overlaps_counts hprev) hanchors]
  constructor
  · rintro ⟨j, hj, htakes⟩
    exact mem_of_getElem? ((assign_get hnd hprev hanchors hbirth hj hkey).mpr htakes)
  · intro hmem
    obtain ⟨j, hj, hget⟩ := getElem_of_mem hmem
    have hj' : j < anchors.length := by
      rwa [assign_length] at hj
    exact ⟨j, hj', (assign_get hnd hprev hanchors hbirth hj' hkey).mp (List.getElem?_eq_some_iff.mpr ⟨hj, hget⟩)⟩

/-- Rule A: every chart has a key of its own, a previous key is kept exactly by the chart that
takes it, the keys nobody takes are retired, and the counts may come from the labels. -/
theorem ruleA (hnd : prev_keys.Nodup) {H W : ℕ} {prev new : Plane}
    (hprev : ∀ y < H, ∀ x < W, prev y x < prev_keys.length)
    (hanchors : anchors.Nodup) {birth : β} (hbirth : ∀ key ∈ prev_keys, (ofLex key).1 ≠ birth) :
    (assign_A prev_keys H W prev new anchors birth none).1.length = anchors.length ∧
    (assign_A prev_keys H W prev new anchors birth none).1.Nodup ∧
    (∀ j < anchors.length, ∀ k key, prev_keys[k]? = some key →
      ((assign_A prev_keys H W prev new anchors birth none).1[j]? = some key ↔
        Takes prev_keys (share H W prev new) anchors j k)) ∧
    (assign_A prev_keys H W prev new anchors birth none).2 = prev_keys.filter (fun key =>
      key ∉ (assign_A prev_keys H W prev new anchors birth none).1) ∧
    ∀ cells labels n, cells.Nodup → (∀ c ∈ cells, c.1 < H ∧ c.2 < W) →
      labels.length = cells.length →
      overlaps_cells prev cells labels n = overlaps H W prev (planeOf cells labels) n :=
  ⟨assign_length, assign_nodup hnd hprev hanchors hbirth,
    fun _ hj _ _ hkey => assign_get hnd hprev hanchors hbirth hj hkey,
    assign_retired hnd hprev hanchors hbirth,
    fun _ _ _ hcells hin hlabels => overlaps_cells_eq prev hcells hin hlabels⟩

end Rule

/-- Two charts want the first of two keys, and the larger one takes it. -/
theorem ruleA_split : (assign_A [toLex ("a", 0), toLex ("b", 0)] 1 5
      (fun _ x => if x < 3 then 0 else 1) (fun _ x => if x < 1 then 0 else if x < 4 then 1 else -1)
      [(0, 0), (1, 0)] "c" none).1 = [toLex ("c", 0), toLex ("a", 0)] ∧
    Takes [toLex ("a", 0), toLex ("b", 0)] (share 1 5 (fun _ x => if x < 3 then 0 else 1)
      fun _ x => if x < 1 then 0 else if x < 4 then 1 else -1) [(0, 0), (1, 0)] 1 0 := by
  have hrun : (assign_A [toLex ("a", 0), toLex ("b", 0)] 1 5
      (fun _ x => if x < 3 then 0 else 1) (fun _ x => if x < 1 then 0 else if x < 4 then 1 else -1)
      [(0, 0), (1, 0)] "c" none).1 = [toLex ("c", 0), toLex ("a", 0)] := by decide
  have hbirth : ∀ key ∈ ([toLex ("a", 0), toLex ("b", 0)] : List (Key String)),
      (ofLex key).1 ≠ "c" := by decide
  refine ⟨hrun, ((ruleA (by decide) (by decide) (by decide) hbirth).2.2.1 1 (by decide) 0
    (toLex ("a", 0)) rfl).mp ?_⟩
  rw [hrun]
  rfl

end CloudServer.ChartKeys
