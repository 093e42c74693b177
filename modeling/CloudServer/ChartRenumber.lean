import CloudServer.ChartHierarchy

/-! The engine and a stored view number the charts differently and have the same hierarchy. -/
namespace CloudServer.ChartLevels
open Merging Morse List

variable {𝕜 : Type} [Field 𝕜] [LinearOrder 𝕜] {charts charts' : List (Chart 𝕜)}
  {links links' : List (Link 𝕜)} {σ : Equiv.Perm ℕ}

def renumber (σ : Equiv.Perm ℕ) (par : List ℕ) : List ℕ :=
  (List.range par.length).map fun j => σ (par.getD (σ.symm j) 0)

omit [Field 𝕜] [LinearOrder 𝕜] in
lemma joins_between {l : Link 𝕜} (hl : l ∈ links) {i j u w : ℕ} {x y : Chart 𝕜} (hj : l.Joins i j)
    (hx : charts[i]? = some x) (hy : charts[j]? = some y)
    (huw : x.region = u ∧ y.region = w ∨ x.region = w ∧ y.region = u) :
    l.saddle ∈ between charts links u w := by
  rcases hj with ⟨rfl, rfl⟩ | ⟨rfl, rfl⟩
  · exact ⟨l, hl, x, y, hx, hy, huw, rfl⟩
  · refine ⟨l, hl, y, x, hy, hx, ?_, rfl⟩
    rcases huw with ⟨h₁, h₂⟩ | ⟨h₁, h₂⟩
    · exact .inr ⟨h₂, h₁⟩
    · exact .inl ⟨h₂, h₁⟩

variable {cuts : List (List (Merge ℕ 𝕜))}

section
variable (hr : Renumbered σ charts charts' links links')
include hr

section
omit [Field 𝕜] [LinearOrder 𝕜]

lemma Renumbered.lt_iff (i : ℕ) : σ i < charts.length ↔ i < charts.length := by
  have hinto : ∀ i < charts.length, σ i < charts.length := by
    intro i hi
    have hx := hr.charts i hi
    rw [List.getElem?_eq_getElem hi] at hx
    exact hr.length ▸ lt_of_getElem? hx
  refine ⟨fun h => ?_, hinto i⟩
  -- the numbers below the length are permuted among themselves
  have himage : (Finset.range charts.length).image σ = Finset.range charts.length := by
    refine Finset.eq_of_subset_of_card_le (fun j hj => ?_) ?_
    · obtain ⟨i, hi, rfl⟩ := Finset.mem_image.mp hj
      exact Finset.mem_range.mpr (hinto i (Finset.mem_range.mp hi))
    · rw [Finset.card_image_of_injective _ σ.injective]
  have hmem := himage ▸ Finset.mem_range.mpr h
  obtain ⟨j, hj, he⟩ := Finset.mem_image.mp hmem
  exact σ.injective he ▸ Finset.mem_range.mp hj

lemma Renumbered.get (i : ℕ) : charts'[σ i]? = charts[i]? := by
  rcases lt_or_ge i charts.length with hi | hi
  · exact hr.charts i hi
  · rw [List.getElem?_eq_none hi, List.getElem?_eq_none]
    rw [hr.length]
    exact not_lt.mp fun h => not_lt.mpr hi ((hr.lt_iff i).mp h)

lemma Renumbered.mem {c : Chart 𝕜} : c ∈ charts' ↔ c ∈ charts := by
  rw [mem_iff_getElem?, mem_iff_getElem?]
  constructor
  · rintro ⟨j, hj⟩
    refine ⟨σ.symm j, ?_⟩
    rwa [← hr.get, Equiv.apply_symm_apply]
  · rintro ⟨i, hi⟩
    exact ⟨σ i, (hr.get i).trans hi⟩

end

lemma Renumbered.view (h : View charts links) : View charts' links' := by
  refine ⟨fun c hc => h.peaks c (hr.mem.mp hc), ?_, fun l hl => ?_⟩
  · refine pairwise_iff_getElem.mpr fun i j hi hj hij he => ?_
    have hx : charts[σ.symm i]? = some charts'[i] := by
      rw [← hr.get, Equiv.apply_symm_apply, List.getElem?_eq_getElem hi]
    have hy : charts[σ.symm j]? = some charts'[j] := by
      rw [← hr.get, Equiv.apply_symm_apply, List.getElem?_eq_getElem hj]
    have heq := σ.symm.injective (h.anchor hx hy he)
    exact absurd heq hij.ne
  · obtain ⟨l', hl', hj, -⟩ := (hr.links (σ.symm l.a) (σ.symm l.b) l.saddle).mp
      ⟨l, hl, .inl ⟨(σ.apply_symm_apply _).symm, (σ.apply_symm_apply _).symm⟩, rfl⟩
    have hlt : ∀ j, σ.symm j < charts.length → j < charts'.length := fun j hj => by
      rw [hr.length, ← σ.apply_symm_apply j]
      exact (hr.lt_iff _).mpr hj
    obtain ⟨ha, hb⟩ := h.ends l' hl'
    rcases hj with ⟨h₁, h₂⟩ | ⟨h₁, h₂⟩
    · exact ⟨hlt _ (h₁ ▸ ha), hlt _ (h₂ ▸ hb)⟩
    · exact ⟨hlt _ (h₂ ▸ hb), hlt _ (h₁ ▸ ha)⟩

omit [Field 𝕜] in
lemma Renumbered.heads {r e : ℕ} : Heads charts' r (σ e) ↔ Heads charts r e := by
  unfold Heads
  simp only [hr.get, hr.mem]

section
omit [Field 𝕜] [LinearOrder 𝕜]

lemma Renumbered.between_eq (u w : ℕ) : between charts' links' u w = between charts links u w := by
  ext s
  constructor
  · rintro ⟨l, hl, x, y, hx, hy, huw, rfl⟩
    obtain ⟨l', hl', hj, hs⟩ := (hr.links (σ.symm l.a) (σ.symm l.b) l.saddle).mp
      ⟨l, hl, .inl ⟨(σ.apply_symm_apply _).symm, (σ.apply_symm_apply _).symm⟩, rfl⟩
    rw [← hs]
    refine joins_between hl' hj ?_ ?_ huw
    · rwa [← hr.get, σ.apply_symm_apply]
    · rwa [← hr.get, σ.apply_symm_apply]
  · rintro ⟨l, hl, x, y, hx, hy, huw, rfl⟩
    obtain ⟨l', hl', hj, hs⟩ := (hr.links l.a l.b l.saddle).mpr ⟨l, hl, .inl ⟨rfl, rfl⟩, rfl⟩
    rw [← hs]
    exact joins_between hl' hj ((hr.get _).trans hx) ((hr.get _).trans hy) huw

lemma Renumbered.size :
    (charts'.map Chart.region).foldr max 0 = (charts.map Chart.region).foldr max 0 := by
  have hle : ∀ l l' : List (Chart 𝕜), (∀ c ∈ l, c ∈ l') →
      (l.map Chart.region).foldr max 0 ≤ (l'.map Chart.region).foldr max 0 := by
    intro l l' hsub
    refine max_le_of_forall_le _ _ fun r hr => ?_
    obtain ⟨c, hc, rfl⟩ := mem_map.mp hr
    exact le_max_of_le' 0 (mem_map_of_mem (hsub c hc)) le_rfl
  exact le_antisymm (hle _ _ fun c => hr.mem.mp) (hle _ _ fun c => hr.mem.mpr)

end

variable {P P' : Peaks ℕ 𝕜} {S S' : Saddles ℕ 𝕜}

omit [Field 𝕜] in
lemma Renumbered.saddles (gr : Graph charts links P S) (gr' : Graph charts' links' P' S') : S' = S := by
  funext u w
  have hiff : ∀ s : 𝕜, S' u w = s ↔ S u w = s := fun s => by
    rw [gr'.saddle, gr.saddle, hr.between_eq]
  cases hs : S u w with
  | bot =>
    cases hs' : S' u w with
    | bot => rfl
    | coe t => exact absurd (hs.symm.trans ((hiff t).mp hs')) (WithBot.coe_ne_bot (a := t)).symm
  | coe s => exact (hiff s).mpr hs

lemma Renumbered.sameOrder (h : View charts links) (gr : Graph charts links P S)
    (gr' : Graph charts' links' P' S') : SameOrder P P' (Present charts) := by
  have h' := hr.view h
  refine ⟨fun u hu => ?_, fun u hu w hw => ?_⟩
  · obtain ⟨e, x, -, he, hx⟩ := exists_heads hu
    rw [gr.value u e x he hx, gr'.value u (σ e) x (hr.heads.mpr he) ((hr.get e).trans hx)]
  · obtain ⟨e, x, -, he, hx⟩ := exists_heads hu
    obtain ⟨e', x', -, he', hx'⟩ := exists_heads hw
    have hrank : ∀ {u w e e' x x'}, Heads charts u e → Heads charts w e' → charts[e]? = some x →
        charts[e']? = some x' → x.seniority < x'.seniority → P.rank u < P.rank w ∧ P'.rank u < P'.rank w :=
      fun {u w e e' x x'} he he' hx hx' hlt => ⟨gr.rank u w e e' x x' he he' hx hx' hlt,
        gr'.rank u w (σ e) (σ e') x x' (hr.heads.mpr he) (hr.heads.mpr he') ((hr.get e).trans hx)
          ((hr.get e').trans hx') hlt⟩
    rcases lt_trichotomy x.seniority x'.seniority with hlt | heq | hgt
    · exact iff_of_true (hrank he he' hx hx' hlt).1.le (hrank he he' hx hx' hlt).2.le
    · cases h.same hx hx' heq
      obtain ⟨y, hy, hyr, -⟩ := he
      rw [← hyr, ← he'.region hy]
      exact iff_of_true le_rfl le_rfl
    · exact iff_of_false (not_le.mpr (hrank he' he hx' hx hgt).1) (not_le.mpr (hrank he' he hx' hx hgt).2)

section
variable {par par' : List ℕ}

omit [Field 𝕜] [LinearOrder 𝕜]

lemma getElem?_renumber (hlen : par.length = charts.length) (i : ℕ) :
    (renumber σ par)[σ i]? = par[i]?.map σ := by
  unfold renumber
  rw [List.getElem?_map, hlen]
  by_cases hi : i < charts.length
  · rw [List.getElem?_range ((hr.lt_iff i).mpr hi), Option.map_some, σ.symm_apply_apply,
      List.getElem?_eq_getElem (hlen ▸ hi), getD_eq_getElem _ _ (hlen ▸ hi)]
    rfl
  · have hσ := not_lt.mp fun h => hi ((hr.lt_iff i).mp h)
    rw [List.getElem?_eq_none (by rwa [length_range]), List.getElem?_eq_none (by rw [hlen]; exact not_lt.mp hi)]
    rfl

lemma eq_renumber (hlen : par.length = charts.length)
    (h : ∀ i, par'[σ i]? = par[i]?.map σ) : par' = renumber σ par := by
  refine ext_getElem? fun j => ?_
  rw [← σ.apply_symm_apply j, h, getElem?_renumber hr hlen]

lemma renumber_inj (hlen : par.length = charts.length)
    (hlen' : par'.length = charts.length) : renumber σ par = renumber σ par' ↔ par = par' := by
  refine ⟨fun h => ext_getElem? fun i => ?_, congrArg _⟩
  have hi := congrArg (fun l => l[σ i]?) h
  simp only [getElem?_renumber hr hlen, getElem?_renumber hr hlen'] at hi
  exact Option.map_injective σ.injective hi

lemma renumber_range : renumber σ (List.range charts.length) = List.range charts'.length := by
  symm
  refine eq_renumber hr length_range fun i => ?_
  by_cases hi : i < charts.length
  · rw [List.getElem?_range hi, List.getElem?_range (hr.length.symm ▸ (hr.lt_iff i).mpr hi)]
    rfl
  · have hσ := not_lt.mp fun h => hi ((hr.lt_iff i).mp h)
    rw [List.getElem?_eq_none (by rwa [length_range, hr.length]), List.getElem?_eq_none (by simpa using hi)]
    rfl

end

lemma renumber_parents (h : View charts links) {g : ℕ → ℕ} (hg : Groups charts P g)
    (hg' : Groups charts' P' g) : parentsOf charts' g = renumber σ (parentsOf charts g) := by
  refine eq_renumber hr length_parentsOf fun i => ?_
  cases hx : charts[i]? with
  | none =>
    have hnone : ∀ (charts : List (Chart 𝕜)) i, charts[i]? = none → (parentsOf charts g)[i]? = none :=
      fun charts i hi => by
        unfold parentsOf
        rw [List.getElem?_map, hi, Option.map_none]
    rw [hnone _ _ hx, hnone _ _ ((hr.get i).trans hx), Option.map_none]
  | some x =>
    obtain ⟨p, y, -, hp, -⟩ := exists_heads (hg.present _ ⟨x, mem_of_getElem? hx, rfl⟩)
    rw [(parentsOf_iff h hg).mpr ⟨x, hx, hp⟩,
      (parentsOf_iff (hr.view h) hg').mpr ⟨x, (hr.get i).trans hx, hr.heads.mpr hp⟩, Option.map_some]

section
variable {nexts out : List (List ℕ)}

omit [Field 𝕜] [LinearOrder 𝕜]

lemma renumber_append {nxt : List ℕ} (hout : ∀ par ∈ out, par.length = charts.length)
    (hnxt : nxt.length = charts.length) :
    append (out.map (renumber σ)) (renumber σ nxt) = (append out nxt).map (renumber σ) := by
  have hiff : (out.map (renumber σ)).getLast? = some (renumber σ nxt) ↔ out.getLast? = some nxt := by
    rw [List.getLast?_map]
    cases hl : out.getLast? with
    | none => simp
    | some par =>
      rw [Option.map_some, Option.some.injEq, Option.some.injEq, renumber_inj hr (hout par (mem_of_getLast? hl)) hnxt]
  unfold append
  simp only [map_eq_nil_iff, ne_eq, hiff]
  split_ifs <;> simp

lemma renumber_foldl (hout : ∀ par ∈ out, par.length = charts.length)
    (hnexts : ∀ par ∈ nexts, par.length = charts.length) :
    (nexts.map (renumber σ)).foldl append (out.map (renumber σ)) = (nexts.foldl append out).map (renumber σ) := by
  induction nexts generalizing out with
  | nil => rfl
  | cons nxt rest ih =>
    have hnxt := hnexts nxt mem_cons_self
    rw [map_cons, foldl_cons, foldl_cons, renumber_append hr hout hnxt]
    refine ih (fun par hpar => ?_) fun par hpar => hnexts par (.tail _ hpar)
    rcases append_eq out nxt with ⟨ha, -⟩ | ⟨ha, -⟩ <;> rw [ha] at hpar
    · rcases mem_append.mp hpar with h | h
      · exact hout par h
      · rw [mem_singleton.mp h, hnxt]
    · exact hout par hpar

end

lemma renumber_stack (h : View charts links)
    (hg : ∀ c ∈ cuts, Groups charts P (survivor c)) (hg' : ∀ c ∈ cuts, Groups charts' P' (survivor c)) :
    stack charts' cuts = (stack charts cuts).map (renumber σ) := by
  have hid := renumber_parents hr h (groups_id (P := P)) (groups_id (P := P'))
  have hstart : (if parentsOf charts' id = List.range charts'.length then [] else [parentsOf charts' id]) =
      (if parentsOf charts id = List.range charts.length then [] else [parentsOf charts id]).map
        (renumber σ) := by
    rw [hid, ← renumber_range hr]
    simp only [renumber_inj hr length_parentsOf length_range]
    split_ifs <;> rfl
  have hnexts : cuts.map (fun c => parentsOf charts' (survivor c)) =
      (cuts.map fun c => parentsOf charts (survivor c)).map (renumber σ) := by
    rw [map_map]
    exact map_congr_left fun c hc => renumber_parents hr h (hg c hc) (hg' c hc)
  unfold stack
  rw [hstart, hnexts]
  refine renumber_foldl hr (fun par hpar => ?_) fun par hpar => ?_
  · split_ifs at hpar
    · cases hpar
    · rw [mem_singleton.mp hpar, length_parentsOf]
  · obtain ⟨c, -, rfl⟩ := mem_map.mp hpar
    exact length_parentsOf

end

section
variable [IsStrictOrderedRing 𝕜] {P : Peaks ℕ 𝕜} {S T : Saddles ℕ 𝕜} {tree : List (Merge ℕ 𝕜)}

omit [IsStrictOrderedRing 𝕜] in
lemma Graph.tops_iff (h : View charts links) (gr : Graph charts links P S)
    (hg : Groups charts P (survivor (cuts.getLast?.getD []))) :
    Tops charts links (stack charts cuts) ↔ ∀ x ∈ charts, ∀ y ∈ charts,
      (survivor (cuts.getLast?.getD []) x.region = survivor (cuts.getLast?.getD []) y.region ↔
        Connected S x.region y.region) := by
  constructor
  · intro htop x hx y hy
    obtain ⟨i, hi⟩ := mem_iff_getElem?.mp hx
    obtain ⟨j, hj⟩ := mem_iff_getElem?.mp hy
    have hlast := List.getLast?_eq_getLast_of_ne_nil (l := hierarchy charts (stack charts cuts))
      (cons_ne_nil _ _)
    have hiff := htop _ hlast i (lt_of_getElem? hi) j (lt_of_getElem? hj)
    rw [stack_top hlast, parentsOf_eq_iff h hg hi hj, gr.tied h hi hj] at hiff
    exact hiff
  · intro hall top htop i hi j hj
    have hx := List.getElem?_eq_getElem hi
    have hy := List.getElem?_eq_getElem hj
    rw [stack_top htop, parentsOf_eq_iff h hg hx hy, gr.tied h hx hy]
    exact hall _ (getElem_mem hi) _ (getElem_mem hj)

lemma Graph.tops (h : View charts links) (gr : Graph charts links P S) (hg : Greedy P ⊤ S tree T)
    {TOL tau_base : 𝕜} {T' : Saddles ℕ 𝕜}
    (hg' : Greedy P (threshold TOL (tau_base : 𝕜)) S (cut TOL tree tau_base) T') {n : ℕ}
    (hn : n = 0 ↔ ∀ m ∈ tree, m.1 < tau_base - TOL)
    (hlast : 0 < n → cut TOL tree (tau_base * 2 ^ n) = tree) :
    Tops charts links (stack charts (rungs TOL tree tau_base n)) ↔
      (Crossed charts links → Deep charts links (tau_base - TOL)) := by
  have hdeep : n ≠ 0 ↔ Deep charts links (tau_base - TOL) := by
    rw [← gr.deep h, ne_eq, hn]
    exact not_congr (hg.shallow_iff hg' gr.symm gr.ends (gr.rank_injOn h))
  by_cases hn0 : n = 0
  · have hcuts : (rungs TOL tree tau_base n).getLast?.getD [] = [] := by rw [hn0]; rfl
    rw [gr.tops_iff h (by rw [hcuts]; exact groups_id), hcuts, imp_iff_not fun hd => hdeep.mpr hd hn0]
    constructor
    · rintro hall ⟨u, w, hne, s, hs⟩
      have hlink := gr.linked.mpr ⟨hne, s, hs⟩
      obtain ⟨⟨x, hx, rfl⟩, ⟨y, hy, rfl⟩⟩ := gr.ends u w hlink
      obtain ⟨t, ht⟩ := WithBot.ne_bot_iff_exists.mp hlink
      exact hne ((hall x hx y hy).mpr (.single ⟨t, ht.symm, trivial⟩))
    · intro hno x hx y hy
      have hnil := (gr.crossed hg).mpr hno
      rw [← hg.components gr.symm, hnil]
  · have hpos := Nat.pos_of_ne_zero hn0
    have hcuts : (rungs TOL tree tau_base n).getLast?.getD [] = tree := by
      obtain ⟨k, rfl⟩ := Nat.exists_eq_succ_of_ne_zero hn0
      unfold rungs
      rw [range_succ, map_append, map_singleton, List.getLast?_concat]
      exact hlast hpos
    rw [gr.tops_iff h (by rw [hcuts]; exact gr.groups hg), hcuts]
    exact iff_of_true (fun x _ y _ => hg.components gr.symm) fun _ => hdeep.mp hn0

/-- The levels are nested partitions with the eldest charts as parents, whatever the numbering; they
end in the connected components and none repeats the one before unless the first scale of charts
that are regions merges nothing, or linked regions all merge below the base scale. -/
theorem cellLevels_iff [Archimedean 𝕜] (TOL : 𝕜) {tau_base : 𝕜} (h : View charts links)
    (ht : 0 < tau_base) : ∃ out,
      (∃ n, ∀ fuel ≥ n, cellLevels TOL fuel charts links tau_base = some out) ∧
      (∀ par ∈ out, Elders charts par) ∧ (hierarchy charts out).IsChain Coarser ∧
      (∀ σ charts' links', Renumbered σ charts charts' links links' → ∀ fuel,
        cellLevels TOL fuel charts' links' tau_base =
          (cellLevels TOL fuel charts links tau_base).map (List.map (renumber σ))) ∧
      ((hierarchy charts out).IsChain (· ≠ ·) ∧ Tops charts links out ↔
        ¬ Idle TOL charts links tau_base ∧
          (Crossed charts links → Deep charts links (tau_base - TOL))) := by
  cases hlast : charts.getLast? with
  | none =>
    obtain rfl := List.getLast?_eq_none_iff.mp hlast
    have hno : ∀ l ∈ links, False := fun l hl => absurd (h.ends l hl).1 (Nat.not_lt_zero _)
    refine ⟨[], ⟨0, fun _ _ => rfl⟩, by simp, isChain_singleton _, fun σ charts' links' hr fuel => ?_, ?_⟩
    · obtain rfl := length_eq_zero_iff.mp hr.length
      rfl
    · refine iff_of_true ⟨isChain_singleton _, fun top _ i hi => absurd hi (Nat.not_lt_zero i)⟩ ⟨?_, ?_⟩
      · rintro ⟨-, ⟨l, hl, -⟩, -⟩
        exact hno l hl
      · rintro ⟨u, w, -, s, l, hl, -⟩
        exact (hno l hl).elim
  | some last =>
    obtain ⟨P, S, tree, T, gr, hg, hK, hcut, hlevels⟩ := h.cellLevels_eq TOL hlast
    have hone := hg.once gr.symm
    have hend : ∃ n, (n = 0 ↔ ∀ m ∈ tree, m.1 < tau_base - TOL) ∧
        (0 < n → cut TOL tree (tau_base * 2 ^ n) = tree) ∧
        ∀ fuel, climb TOL tau_base (base charts last).length tree fuel tau_base =
          if max n 1 ≤ fuel then some ((rungs TOL tree tau_base n).map fun c =>
            (List.range (base charts last).length).map (survivor c)) else none :=
      climb_spec (base charts last).length hone hK (hg.sorted gr.symm) ht
    obtain ⟨n, hn, htop, hclimb⟩ := hend
    have hrun := fun fuel => hlevels fuel tau_base n (hclimb fuel)
    have hgroups : ∀ c ∈ rungs TOL tree tau_base n, Groups charts P (survivor c) := by
      intro c hc
      obtain ⟨i, -, rfl⟩ := mem_map.mp hc
      obtain ⟨T, hgc⟩ := hcut (tau_base * 2 ^ (i + 1))
      exact gr.groups hgc
    refine ⟨stack charts (rungs TOL tree tau_base n), ⟨max n 1, fun fuel hf => ?_⟩, fun par hpar => ?_,
      stack_nested h groups_id hgroups (rungs_pairwise ht n), fun σ charts' links' hr fuel => ?_, ?_⟩
    · rw [hrun, if_pos hf]
    · obtain ⟨c, rfl | hc, rfl⟩ := mem_stack hpar
      · exact parentsOf_elders h gr groups_id
      · exact parentsOf_elders h gr (hgroups c hc)
    · obtain ⟨last', hlast'⟩ : ∃ last', charts'.getLast? = some last' := by
        refine ⟨_, List.getLast?_eq_getLast_of_ne_nil fun hnil => ?_⟩
        have hlen := hr.length
        rw [hnil, length_nil, eq_comm, length_eq_zero_iff] at hlen
        rw [hlen] at hlast
        cases hlast
      obtain ⟨P', S', tree', T', gr', hg', -, hcut', hlevels'⟩ := (hr.view h).cellLevels_eq TOL hlast'
      obtain rfl := hr.saddles gr gr'
      obtain ⟨rfl, -⟩ := (hg.rerank (hr.sameOrder h gr gr') gr.ends).deterministic hg'
      have hsize : (base charts' last').length = (base charts last).length := by
        simp only [base, length_map, length_range, hr.size]
      have hgroups' : ∀ c ∈ rungs TOL tree tau_base n, Groups charts' P' (survivor c) := by
        intro c hc
        obtain ⟨i, -, rfl⟩ := mem_map.mp hc
        obtain ⟨T, hgc⟩ := hcut' (tau_base * 2 ^ (i + 1))
        exact gr'.groups hgc
      rw [hrun, hlevels' fuel tau_base n (by rw [hsize]; exact hclimb fuel),
        renumber_stack hr h hgroups hgroups']
      split_ifs <;> rfl
    · obtain ⟨T₁, hg₁⟩ := hcut tau_base
      obtain ⟨T₂, hg₂⟩ := hcut (tau_base * 2)
      rw [stack_distinct, gr.idle h hg ht hg₂ hn, gr.tops h hg hg₁ hn htop]

end

def halves : List (Chart ℚ) := [⟨⟨10, 0, 0⟩, 0⟩, ⟨⟨9, 0, 4⟩, 0⟩]

theorem cellLevels_iff_halves : ∃ out,
    (∃ n, ∀ fuel ≥ n, cellLevels (1 / 10 ^ 9) fuel halves [⟨0, 1, 8⟩] 1 = some out) ∧
      (hierarchy halves out).IsChain (· ≠ ·) ∧ Tops halves [⟨0, 1, 8⟩] out := by
  have h : View halves [⟨0, 1, 8⟩] := ⟨by decide, by decide, by decide⟩
  obtain ⟨out, hrun, -, -, -, hiff⟩ := cellLevels_iff (1 / 10 ^ 9) h one_pos
  refine ⟨out, hrun, hiff.mpr ⟨fun hidle => ?_, ?_⟩⟩
  · exact absurd hidle.1 (by decide)
  · rintro ⟨u, w, hne, s, l, hl, x, y, hx, hy, hj, -⟩
    obtain rfl := mem_singleton.mp hl
    cases hx
    cases hy
    rcases hj with ⟨rfl, rfl⟩ | ⟨rfl, rfl⟩ <;> exact absurd rfl hne

def rooms : List (Chart ℚ) := [⟨⟨10, 0, 0⟩, 0⟩, ⟨⟨10, 0, 25⟩, 1⟩]

/-- Level 1 of the two rooms is the charts again. -/
theorem first_level_repeats : View rooms [⟨0, 1, 2⟩] ∧
    cellLevels (1 / 10 ^ 9) 6 rooms [⟨0, 1, 2⟩] 1 = some [[0, 1], [0, 0]] ∧
      ¬ (hierarchy rooms [[0, 1], [0, 0]]).IsChain (· ≠ ·) :=
  ⟨⟨by decide +kernel, by decide +kernel, by decide⟩, by decide +kernel, by decide⟩

end CloudServer.ChartLevels
