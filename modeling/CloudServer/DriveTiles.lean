import CloudServer.DriveStats

/-! The tiles hold what the samples of all chunks add up to. -/
namespace CloudServer.DriveStats
open Tallies Coverage List

lemma zip_flatMap {α β β' : Type*} (f : α → List β) (g : α → List β') (l : List α)
    (h : ∀ a ∈ l, (f a).length = (g a).length) :
    (l.flatMap f).zip (l.flatMap g) = l.flatMap fun a => (f a).zip (g a) := by
  induction l with
  | nil => rfl
  | cons a l ih =>
    rw [flatMap_cons, flatMap_cons, zip_append (h a mem_cons_self),
      ih fun b hb => h b (mem_cons_of_mem a hb), flatMap_cons]

lemma slices_flatten {α : Type*} (l : List α) {size : ℕ} (hsize : 0 < size) :
    ((List.range ((l.length + size - 1) / size)).map fun i => (l.drop (i * size)).take size).flatten = l := by
  have htake : ∀ n, ((List.range n).map fun i => (l.drop (i * size)).take size).flatten = l.take (n * size) := by
    intro n
    induction n with
    | zero => simp
    | succ n ih =>
      rw [range_succ, map_append, flatten_append, ih, Nat.succ_mul, take_add]
      simp
  rw [htake]
  refine take_of_length_le ?_
  have := Nat.div_add_mod (l.length + size - 1) size
  have hlt := Nat.mod_lt (l.length + size - 1) hsize
  rw [mul_comm] at this
  omega

section
variable {𝕜 : Type*} [Field 𝕜] [LinearOrder 𝕜] [FloorRing 𝕜] (hypot : 𝕜 → 𝕜 → 𝕜)

/-- What the samples `s` add to the accumulator. -/
def chunkOf (n_runs : ℕ) (ms : List (Move 𝕜)) : Chunk 𝕜 :=
  let s := samples hypot ms
  let uniq := unique (s.map (key hypot))
  let pk := unique (s.map fun a => uniq.idxOf (key hypot a) * n_runs + a.1.run)
  ⟨uniq, fun q => uniq.map (tally (key hypot) (weight hypot q) s), pk.map fun v => uniq.getD (v / n_runs) 0,
    pk.map fun v => v % n_runs⟩

lemma add_chunk_eq (acc : Accumulator 𝕜) (ms : List (Move 𝕜)) : acc.add_chunk hypot ms =
    ⟨acc.n_runs, acc.chunks ++ if ms = [] then [] else [chunkOf hypot acc.n_runs ms]⟩ := by
  unfold Accumulator.add_chunk
  by_cases h : ms = []
  · rw [if_pos h, if_pos h, append_nil]
  · rw [if_neg h, if_neg h]
    simp only [bincount_eq (key hypot) _ _ (unique_nodup _), chunkOf]

lemma add_eq (size n_runs : ℕ) (ms : List (Move 𝕜)) (hsize : 0 < size) : ∃ groups : List (List (Move 𝕜)),
    groups.flatten = ms ∧ Accumulator.add hypot size ⟨n_runs, []⟩ ms = ⟨n_runs, groups.map (chunkOf hypot n_runs)⟩ := by
  have hrun : ∀ (slices : List (List (Move 𝕜))) (acc : Accumulator 𝕜),
    slices.foldl (Accumulator.add_chunk hypot) acc =
      ⟨acc.n_runs, acc.chunks ++ (slices.filter fun ms => ms ≠ []).map (chunkOf hypot acc.n_runs)⟩ := by
    intro slices
    induction slices with
    | nil => simp
    | cons ms slices ih =>
      intro acc
      rw [foldl_cons, ih, add_chunk_eq]
      by_cases h : ms = []
      · simp [h]
      · simp [h]
  refine ⟨_, ?_, (hrun _ _).trans (by rw [nil_append])⟩
  rw [flatten_filter_ne_nil, slices_flatten ms hsize]

structure TilesOf (s : List (Move 𝕜 × ℕ)) (t : Tiles 𝕜) : Prop where
  keys : t.key = unique (s.map (key hypot))
  sums : ∀ q, t.sums q = t.key.map (tally (key hypot) (weight hypot q) s)
  n : t.n = t.key.map fun u => ((s.filter fun a => key hypot a = u).map fun a => a.1.run).dedup.length
  pairs : ∀ i r, (i, r) ∈ t.pair_tile.zip t.pair_run ↔ ∃ a ∈ s, i = t.key.idxOf (key hypot a) ∧ r = a.1.run

variable {n_runs : ℕ}

lemma encoded {i r : ℕ} (hr : r < n_runs) : (i * n_runs + r) / n_runs = i ∧ (i * n_runs + r) % n_runs = r := by
  have hpos := Nat.zero_lt_of_lt hr
  rw [Nat.mul_comm, Nat.mul_add_div hpos, Nat.div_eq_of_lt hr, Nat.mul_add_mod, Nat.mod_eq_of_lt hr, Nat.add_zero]
  exact ⟨rfl, rfl⟩

lemma mem_chunk_pairs {ms : List (Move 𝕜)} (hruns : ∀ m ∈ ms, m.run < n_runs) {u : ℤ} {r : ℕ} :
    (u, r) ∈ (chunkOf hypot n_runs ms).pair_cell.zip (chunkOf hypot n_runs ms).pair_run ↔
      ∃ a ∈ samples hypot ms, key hypot a = u ∧ a.1.run = r := by
  have hrun : ∀ a ∈ samples hypot ms, a.1.run < n_runs := fun a ha => by
    obtain ⟨m, hm, hk⟩ := mem_flatMap.mp ha
    obtain ⟨k, -, rfl⟩ := mem_map.mp hk
    exact hruns m hm
  have hkey : ∀ a ∈ samples hypot ms, (unique ((samples hypot ms).map (key hypot))).getD
      ((unique ((samples hypot ms).map (key hypot))).idxOf (key hypot a)) 0 = key hypot a := fun a ha => by
    have hmem : key hypot a ∈ unique ((samples hypot ms).map (key hypot)) :=
      mem_unique.mpr (mem_map_of_mem ha)
    rw [getD_eq_getElem?_getD, List.getElem?_eq_getElem (idxOf_lt_length_iff.mpr hmem), getElem_idxOf,
      Option.getD_some]
  simp only [chunkOf, zip_map', mem_map, mem_unique, Prod.mk.injEq]
  constructor
  · rintro ⟨_, ⟨a, ha, rfl⟩, rfl, rfl⟩
    obtain ⟨hdiv, hmod⟩ :=
      encoded (i := (unique ((samples hypot ms).map (key hypot))).idxOf (key hypot a)) (hrun a ha)
    exact ⟨a, ha, by rw [hdiv, hkey a ha], hmod.symm⟩
  · rintro ⟨a, ha, rfl, rfl⟩
    obtain ⟨hdiv, hmod⟩ :=
      encoded (i := (unique ((samples hypot ms).map (key hypot))).idxOf (key hypot a)) (hrun a ha)
    exact ⟨_, ⟨a, ha, rfl⟩, by rw [hdiv, hkey a ha], hmod⟩

theorem tiles_of_add {size : ℕ} (hsize : 0 < size) {ms : List (Move 𝕜)} (hruns : ∀ m ∈ ms, m.run < n_runs) :
    TilesOf hypot (samples hypot ms) (Accumulator.add hypot size ⟨n_runs, []⟩ ms).tiles := by
  obtain ⟨groups, rfl, hadd⟩ := add_eq hypot size n_runs ms hsize
  have hsamples : samples hypot groups.flatten = groups.flatMap (samples hypot) := by
    rw [samples, ← flatMap_id, flatMap_assoc]
    rfl
  rw [hadd]
  unfold Accumulator.tiles
  by_cases hnone : groups = []
  · subst hnone
    exact ⟨rfl, fun q => rfl, rfl, by simp [samples]⟩
  rw [if_neg (by simpa using hnone)]
  simp only [flatMap_map]
  set S := samples hypot groups.flatten with hS
  have hmem : ∀ a, a ∈ S ↔ ∃ g ∈ groups, a ∈ samples hypot g := fun a => by rw [hsamples, mem_flatMap]
  have hgroup : ∀ g ∈ groups, ∀ m ∈ g, m.run < n_runs := fun g hg m hm =>
    hruns m (mem_flatten.mpr ⟨g, hg, hm⟩)
  have hkeys : unique (groups.flatMap fun g => (chunkOf hypot n_runs g).keys) = unique (S.map (key hypot)) := by
    refine unique_congr fun u => ?_
    simp only [mem_flatMap, mem_map, chunkOf, mem_unique, hmem]
    constructor
    · rintro ⟨g, hg, a, ha, hu⟩
      exact ⟨a, ⟨g, hg, ha⟩, hu⟩
    · rintro ⟨a, ⟨g, hg, ha⟩, hu⟩
      exact ⟨g, hg, a, ha, hu⟩
  rw [hkeys]
  set uniq := unique (S.map (key hypot)) with huniq
  have hplace : ∀ a ∈ S, key hypot a ∈ uniq := fun a ha => mem_unique.mpr (mem_map_of_mem ha)
  have hsearch : ∀ a ∈ S, searchsorted uniq (key hypot a) = uniq.idxOf (key hypot a) := fun a ha =>
    searchsorted_eq (unique_ordered _) (hplace a ha)
  set pair := unique ((((groups.flatMap fun g => (chunkOf hypot n_runs g).pair_cell).map (searchsorted uniq)).zip
    (groups.flatMap fun g => (chunkOf hypot n_runs g).pair_run)).map fun e => e.1 * n_runs + e.2) with hpair
  have hpairs : ∀ v, v ∈ pair ↔ ∃ a ∈ S, v = uniq.idxOf (key hypot a) * n_runs + a.1.run := by
    intro v
    rw [hpair, mem_unique, mem_map, zip_map_left, zip_flatMap _ _ _ fun g _ => by simp [chunkOf]]
    constructor
    · rintro ⟨e, he, rfl⟩
      obtain ⟨⟨u, r⟩, hur, rfl⟩ := mem_map.mp he
      obtain ⟨g, hg, hzip⟩ := mem_flatMap.mp hur
      obtain ⟨a, ha, rfl, rfl⟩ := (mem_chunk_pairs hypot (hgroup g hg)).mp hzip
      have haS := (hmem a).mpr ⟨g, hg, ha⟩
      exact ⟨a, haS, by rw [← hsearch a haS]; rfl⟩
    · rintro ⟨a, haS, rfl⟩
      obtain ⟨g, hg, ha⟩ := (hmem a).mp haS
      have hzip := (mem_chunk_pairs hypot (hgroup g hg)).mpr ⟨a, ha, rfl, rfl⟩
      exact ⟨_, mem_map_of_mem (mem_flatMap.mpr ⟨g, hg, hzip⟩), by rw [← hsearch a haS]; rfl⟩
  have hnodup : pair.Nodup := unique_nodup _
  clear_value pair
  have hrun : ∀ a ∈ S, a.1.run < n_runs := fun a ha => by
    obtain ⟨m, hm, hk⟩ := mem_flatMap.mp ha
    obtain ⟨k, -, rfl⟩ := mem_map.mp hk
    exact hruns m hm
  refine ⟨rfl, fun q => ?_, ?_, fun i r => ?_⟩
  · refine (bincount_eq Prod.fst Prod.snd _ (unique_nodup _)).trans (map_congr_left fun u _ => ?_)
    rw [tally_flatMap, hsamples, tally_flatMap]
    refine congrArg List.sum (map_congr_left fun g _ => ?_)
    exact tally_twice (key hypot) (weight hypot q) _ (unique_nodup _) fun a ha =>
      mem_unique.mpr (mem_map_of_mem ha)
  · unfold bincount
    refine ext_getElem (by simp) fun i hi hi' => ?_
    have hlt : i < uniq.length := by simpa using hi'
    rw [getElem_map, getElem_map, getElem_range, map_const', sum_replicate, smul_eq_mul, mul_one]
    have hperm : ((pair.filter fun v => v / n_runs = i).map (· % n_runs)).Perm
        ((S.filter fun a => key hypot a = uniq[i]).map fun a => a.1.run).dedup := by
      refine (perm_ext_iff_of_nodup ((hnodup.filter _).map_on fun v hv v' hv' he => ?_)
        (nodup_dedup _)).mpr fun r => ?_
      · have hdiv := of_decide_eq_true (mem_filter.mp hv).2
        have hdiv' := of_decide_eq_true (mem_filter.mp hv').2
        rw [← Nat.div_add_mod v n_runs, ← Nat.div_add_mod v' n_runs, hdiv, hdiv', he]
      · have hidx : ∀ a ∈ S, uniq.idxOf (key hypot a) = i ↔ key hypot a = uniq[i] := fun a ha => by
          constructor
          · rintro rfl
            exact (getElem_idxOf _).symm
          · intro h
            rw [h, (unique_nodup _).idxOf_getElem]
        simp only [mem_map, mem_filter, mem_dedup, hpairs, decide_eq_true_eq]
        constructor
        · rintro ⟨_, ⟨⟨a, ha, rfl⟩, hdiv⟩, rfl⟩
          obtain ⟨hdiv', hmod⟩ := encoded (i := uniq.idxOf (key hypot a)) (hrun a ha)
          exact ⟨a, ⟨ha, (hidx a ha).mp (hdiv'.symm.trans hdiv)⟩, hmod.symm⟩
        · rintro ⟨a, ⟨ha, hu⟩, rfl⟩
          obtain ⟨hdiv', hmod⟩ := encoded (i := uniq.idxOf (key hypot a)) (hrun a ha)
          exact ⟨_, ⟨⟨a, ha, rfl⟩, hdiv'.trans ((hidx a ha).mpr hu)⟩, hmod⟩
    rw [← hperm.length_eq, length_map]
  · rw [zip_map', mem_map]
    constructor
    · rintro ⟨v, hv, he⟩
      obtain ⟨a, ha, rfl⟩ := (hpairs v).mp hv
      obtain ⟨hdiv, hmod⟩ := encoded (i := uniq.idxOf (key hypot a)) (hrun a ha)
      rw [hdiv, hmod] at he
      cases he
      exact ⟨a, ha, rfl, rfl⟩
    · rintro ⟨a, ha, rfl, rfl⟩
      obtain ⟨hdiv, hmod⟩ := encoded (i := uniq.idxOf (key hypot a)) (hrun a ha)
      exact ⟨_, (hpairs _).mpr ⟨a, ha, rfl⟩, by rw [hdiv, hmod]⟩

end
end CloudServer.DriveStats
