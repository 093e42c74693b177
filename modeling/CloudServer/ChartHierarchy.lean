import CloudServer.ChartLevelsRule

/-! The hierarchy over the charts is a chain of nested partitions. -/
namespace CloudServer.ChartLevels
open Merging Morse List Option

variable {𝕜 : Type} [Field 𝕜] [LinearOrder 𝕜]

/-- Every chart has an elder that is its own. -/
structure Elders (charts : List (Chart 𝕜)) (par : List ℕ) : Prop where
  length : par.length = charts.length
  idem : ∀ i p : ℕ, par[i]? = some p → par[p]? = some p
  eldest : ∀ (i p : ℕ) x y, par[i]? = some p → charts[p]? = some x → charts[i]? = some y →
    x.seniority ≤ y.seniority

/-- The groups of `par'` are unions of groups of `par`. -/
def Coarser (par par' : List ℕ) : Prop := ∀ i j : ℕ, par[i]? = par[j]? → par'[i]? = par'[j]?

def Tied (charts : List (Chart 𝕜)) (links : List (Link 𝕜)) (i j : ℕ) : Prop :=
  (∃ x y, charts[i]? = some x ∧ charts[j]? = some y ∧ x.region = y.region) ∨ ∃ l ∈ links, l.Joins i j

def hierarchy (charts : List (Chart 𝕜)) (out : List (List ℕ)) : List (List ℕ) :=
  List.range charts.length :: out

/-- The last level holds together exactly the charts that links tie. -/
def Tops (charts : List (Chart 𝕜)) (links : List (Link 𝕜)) (out : List (List ℕ)) : Prop :=
  ∀ top, (hierarchy charts out).getLast? = some top → ∀ i < charts.length, ∀ j < charts.length,
    (top[i]? = top[j]? ↔ Relation.ReflTransGen (Tied charts links) i j)

/-- The charts and links under the numbers that `σ` gives them. -/
structure Renumbered (σ : Equiv.Perm ℕ) (charts charts' : List (Chart 𝕜)) (links links' : List (Link 𝕜)) :
    Prop where
  length : charts'.length = charts.length
  charts : ∀ i < charts.length, charts'[σ i]? = charts[i]?
  links : ∀ i j s, (∃ l ∈ links', l.Joins (σ i) (σ j) ∧ l.saddle = s) ↔ ∃ l ∈ links, l.Joins i j ∧ l.saddle = s

/-- Every chart is a region, some are linked, and no link merges below twice the base scale. -/
def Idle (TOL : 𝕜) (charts : List (Chart 𝕜)) (links : List (Link 𝕜)) (tau_base : 𝕜) : Prop :=
  (charts.map Chart.region).Nodup ∧ (∃ l ∈ links, l.a ≠ l.b) ∧ ∀ l ∈ links, l.a ≠ l.b → ∀ x y,
    charts[l.a]? = some x → charts[l.b]? = some y → 2 * tau_base - TOL ≤ min x.peak y.peak - l.saddle

/-- Region `w` is reached from `u` over links whose saddles are `ok`. -/
def Over (charts : List (Chart 𝕜)) (links : List (Link 𝕜)) (ok : 𝕜 → Prop) : ℕ → ℕ → Prop :=
  Relation.ReflTransGen fun u w => ∃ s ∈ between charts links u w, ok s

/-- A chart of region `e` is senior to all charts of region `r`. -/
def Elder (charts : List (Chart 𝕜)) (e r : ℕ) : Prop :=
  ∃ c ∈ charts, c.region = e ∧ ∀ c' ∈ charts, c'.region = r → c.seniority < c'.seniority

/-- Some region is linked to an elder one, but only over a saddle at least `q` below its peak. -/
def Deep (charts : List (Chart 𝕜)) (links : List (Link 𝕜)) (q : 𝕜) : Prop :=
  ∃ r, (∃ e, Over charts links (fun _ => True) r e ∧ Elder charts e r) ∧
    ∀ e, Over charts links (fun s => ∀ c ∈ charts, c.region = r → c.peak - s < q) r e → ¬ Elder charts e r

def Crossed (charts : List (Chart 𝕜)) (links : List (Link 𝕜)) : Prop :=
  ∃ u w, u ≠ w ∧ (between charts links u w).Nonempty

variable {i j r : ℕ} {par : List ℕ}

section
variable {α : Type} {R : List ℕ → List ℕ → Prop}

lemma append_eq (out : List (List ℕ)) (nxt : List ℕ) :
    append out nxt = out ++ [nxt] ∧ out.getLast? ≠ some nxt ∨ append out nxt = out ∧ out.getLast? = some nxt := by
  unfold append
  split_ifs with h
  · rcases h with rfl | h
    · exact .inl ⟨rfl, by simp⟩
    · exact .inl ⟨rfl, h⟩
  · rw [not_or, not_ne_iff] at h
    exact .inr ⟨rfl, h.2⟩

lemma getLast?_append_level (out : List (List ℕ)) (nxt : List ℕ) : (append out nxt).getLast? = some nxt := by
  rcases append_eq out nxt with ⟨h, -⟩ | ⟨h, he⟩ <;> rw [h]
  · simp
  · exact he

lemma getLast?_foldl_append (out nexts : List (List ℕ)) :
    (nexts.foldl append out).getLast? = nexts.getLast?.or out.getLast? := by
  induction nexts generalizing out with
  | nil => simp
  | cons nxt rest ih =>
    rw [foldl_cons, ih, getLast?_append_level, List.getLast?_cons]
    cases rest.getLast? <;> rfl

lemma head?_foldl_append (out nexts : List (List ℕ)) :
    (nexts.foldl append out).head? = out.head?.or nexts.head? := by
  induction nexts generalizing out with
  | nil => simp
  | cons nxt rest ih =>
    rw [foldl_cons, ih]
    rcases append_eq out nxt with ⟨h, -⟩ | ⟨h, he⟩ <;> rw [h]
    · cases out <;> simp
    · cases out with
      | nil => simp at he
      | cons x xs => simp

variable {nexts out : List (List ℕ)}

lemma mem_foldl_append (h : par ∈ nexts.foldl append out) :
    par ∈ out ∨ par ∈ nexts := by
  induction nexts generalizing out with
  | nil => exact .inl h
  | cons nxt rest ih =>
    rcases ih h with h | h
    · rcases append_eq out nxt with ⟨ha, -⟩ | ⟨ha, -⟩ <;> rw [ha] at h
      · rcases mem_append.mp h with h | h
        · exact .inl h
        · exact .inr (mem_singleton.mp h ▸ mem_cons_self)
      · exact .inl h
    · exact .inr (.tail _ h)

lemma distinct_foldl_append (nexts : List (List ℕ)) (h : out.IsChain (· ≠ ·)) :
    (nexts.foldl append out).IsChain (· ≠ ·) := by
  induction nexts generalizing out with
  | nil => exact h
  | cons nxt rest ih =>
    refine ih ?_
    rcases append_eq out nxt with ⟨ha, hne⟩ | ⟨ha, -⟩ <;> rw [ha]
    · refine isChain_append.mpr ⟨h, isChain_singleton _, ?_⟩
      rintro x hx y hy rfl
      cases hy
      exact hne hx
    · exact h

lemma chain_foldl_append {base : List ℕ}
    (h : (base :: (out ++ nexts)).IsChain R) : (base :: nexts.foldl append out).IsChain R := by
  induction nexts generalizing out with
  | nil => rwa [append_nil] at h
  | cons nxt rest ih =>
    refine ih ?_
    rcases append_eq out nxt with ⟨ha, -⟩ | ⟨ha, he⟩ <;> rw [ha]
    · rwa [append_assoc]
    · obtain ⟨init, rfl⟩ := List.getLast?_eq_some_iff.mp he
      rw [append_assoc, ← cons_append, isChain_append] at h ⊢
      refine ⟨h.1, ?_, fun x hx y hy => h.2.2 x hx y (by simpa using hy)⟩
      exact h.2.1.tail

end

variable {x y : Chart 𝕜}

section
variable {charts : List (Chart 𝕜)} {links : List (Link 𝕜)} {P : Peaks ℕ 𝕜} {S : Saddles ℕ 𝕜} {g g' : ℕ → ℕ}

/-- The parents when region `r` falls in region `g r`. -/
def parentsOf (charts : List (Chart 𝕜)) (g : ℕ → ℕ) : List ℕ :=
  charts.map fun c => (elderOf charts (g c.region)).getD 0

/-- `g` gives every region one that is senior in its group. -/
structure Groups (charts : List (Chart 𝕜)) (P : Peaks ℕ 𝕜) (g : ℕ → ℕ) : Prop where
  present : ∀ r ∈ Present charts, g r ∈ Present charts
  idem : ∀ r, g (g r) = g r
  senior : ∀ r, Senior P (g r) r

omit [Field 𝕜] in
lemma length_parentsOf : (parentsOf charts g).length = charts.length := length_map _

variable {p : ℕ}

lemma parentsOf_iff (h : View charts links) (hg : Groups charts P g) :
    (parentsOf charts g)[i]? = some p ↔ ∃ x, charts[i]? = some x ∧ Heads charts (g x.region) p := by
  unfold parentsOf
  rw [List.getElem?_map, map_eq_some_iff]
  refine exists_congr fun x => and_congr_right fun hx => ?_
  obtain ⟨e, y, he, hh, -⟩ := exists_heads (hg.present _ ⟨x, mem_of_getElem? hx, rfl⟩)
  rw [he, getD_some]
  exact ⟨fun hp => hp ▸ hh, fun hp => hh.unique h hp⟩

omit [Field 𝕜] in
lemma Heads.region (hp : Heads charts r p) (hx : charts[p]? = some x) :
    x.region = r := by
  obtain ⟨y, hy, hr, -⟩ := hp
  cases hx.symm.trans hy
  exact hr

lemma parentsOf_elders (h : View charts links) (gr : Graph charts links P S) (hg : Groups charts P g) :
    Elders charts (parentsOf charts g) := by
  refine ⟨length_parentsOf, fun i p hp => ?_, fun i p x y hp hx hy => ?_⟩
  · obtain ⟨x, -, hh⟩ := (parentsOf_iff h hg).mp hp
    obtain ⟨y, hy, hr, -⟩ := id hh
    refine (parentsOf_iff h hg).mpr ⟨y, hy, ?_⟩
    rwa [hr, hg.idem]
  · obtain ⟨y', hy', hh⟩ := (parentsOf_iff h hg).mp hp
    cases hy.symm.trans hy'
    have hyin := mem_of_getElem? hy
    obtain ⟨e, z, -, he, hz⟩ := exists_heads ⟨y, hyin, rfl⟩
    have hsenior := (gr.senior h hh he hx hz).mp (hg.senior y.region)
    obtain ⟨z', hz', -, hle⟩ := he
    cases hz.symm.trans hz'
    exact hsenior.trans (hle y hyin rfl)

lemma parentsOf_eq_iff (h : View charts links) (hg : Groups charts P g)
    (hx : charts[i]? = some x) (hy : charts[j]? = some y) :
    (parentsOf charts g)[i]? = (parentsOf charts g)[j]? ↔ g x.region = g y.region := by
  obtain ⟨p, -, -, hp, -⟩ := exists_heads (hg.present _ ⟨x, mem_of_getElem? hx, rfl⟩)
  have hi := (parentsOf_iff h hg).mpr ⟨x, hx, hp⟩
  rw [hi, eq_comm, parentsOf_iff h hg]
  constructor
  · rintro ⟨y', hy', hh⟩
    cases hy.symm.trans hy'
    obtain ⟨z, hz, hr, -⟩ := hp
    rw [← hr, hh.region hz]
  · intro he
    exact ⟨y, hy, he ▸ hp⟩

lemma parentsOf_coarser (h : View charts links) (hg : Groups charts P g) (hg' : Groups charts P g')
    (hle : ∀ r r', g r = g r' → g' r = g' r') :
    Coarser (parentsOf charts g) (parentsOf charts g') := by
  intro i j hij
  have hlen : ∀ g k, (parentsOf charts g)[k]? = none ↔ charts[k]? = none := fun g k => by
    unfold parentsOf
    rw [List.getElem?_map, map_eq_none_iff]
  cases hx : charts[i]? with
  | none =>
    rw [(hlen g i).mpr hx, eq_comm, hlen] at hij
    rw [(hlen g' i).mpr hx, (hlen g' j).mpr hij]
  | some x =>
    cases hy : charts[j]? with
    | none =>
      rw [(hlen g j).mpr hy, hlen, hx] at hij
      cases hij
    | some y =>
      rw [parentsOf_eq_iff h hg hx hy] at hij
      exact (parentsOf_eq_iff h hg' hx hy).mpr (hle _ _ hij)

omit [Field 𝕜] [LinearOrder 𝕜] in
lemma range_coarser (hlen : par.length = charts.length) :
    Coarser (List.range charts.length) par := by
  intro i j hij
  rcases lt_or_ge i charts.length with hi | hi <;> rcases lt_or_ge j charts.length with hj | hj
  · rw [List.getElem?_range hi, List.getElem?_range hj, Option.some.injEq] at hij
    rw [hij]
  · rw [List.getElem?_range hi, List.getElem?_eq_none (by simpa using hj)] at hij
    cases hij
  · rw [List.getElem?_range hj, List.getElem?_eq_none (by simpa using hi)] at hij
    cases hij
  · rw [List.getElem?_eq_none (hlen ▸ hi), List.getElem?_eq_none (hlen ▸ hj)]

end

section
variable [IsStrictOrderedRing 𝕜] {charts : List (Chart 𝕜)} {links : List (Link 𝕜)} {P : Peaks ℕ 𝕜}
  {S T : Saddles ℕ 𝕜} {limit : WithTop 𝕜} {c tree : List (Merge ℕ 𝕜)}

lemma Graph.groups (gr : Graph charts links P S) (hg : Greedy P limit S c T) : Groups charts P (survivor c) :=
  ⟨fun r hr => (hg.connected_survivor gr.symm r).mem gr.ends hr, survivor_survivor (hg.once gr.symm),
    survivor_senior hg.senior⟩

/-- The levels of the regions and of the scales `cuts`. -/
def stack (charts : List (Chart 𝕜)) (cuts : List (List (Merge ℕ 𝕜))) : List (List ℕ) :=
  (cuts.map fun c => parentsOf charts (survivor c)).foldl append
    (if parentsOf charts id = List.range charts.length then [] else [parentsOf charts id])

lemma View.cellLevels_eq [Archimedean 𝕜] (h : View charts links) (TOL : 𝕜) {last : Chart 𝕜}
    (hlast : charts.getLast? = some last) : ∃ P S tree T, Graph charts links P S ∧
      Greedy P ⊤ S tree T ∧ (∀ m ∈ tree, m.2.1 < (base charts last).length) ∧
      (∀ tau : 𝕜, ∃ T, Greedy P (threshold TOL tau) S (cut TOL tree tau) T) ∧
      ∀ fuel tau_base n, climb TOL tau_base (base charts last).length tree fuel tau_base =
        (if max n 1 ≤ fuel then some ((rungs TOL tree tau_base n).map fun c =>
          (List.range (base charts last).length).map (survivor c)) else none) →
        cellLevels TOL fuel charts links tau_base =
          if max n 1 ≤ fuel then some (stack charts (rungs TOL tree tau_base n)) else none := by
  obtain ⟨cross, P, S, tree, T, hcross, gr, hg, hK, hcut, hlevels⟩ := h.levels_eq TOL last
  have hcut : ∀ tau : 𝕜, ∃ T, Greedy P (threshold TOL tau) S (cut TOL tree tau) T := hcut
  refine ⟨P, S, tree, T, gr, hg, hK, hcut, fun fuel tau_base n hclimb => ?_⟩
  have hpar : charts.mapM (fun c => elderOf charts c.region) = some (parentsOf charts id) :=
    mapM_some fun c hc => by
      obtain ⟨e, x, he, -⟩ := exists_heads ⟨c, hc, rfl⟩
      rw [he, id, he, getD_some]
  have hnext : ∀ tau : 𝕜, chartParents charts ((List.range (base charts last).length).map
      (survivor (cut TOL tree tau))) = some (parentsOf charts (survivor (cut TOL tree tau))) := by
    intro tau
    obtain ⟨T, hg⟩ := hcut tau
    refine mapM_some fun c hc => ?_
    obtain ⟨e, x, he, -⟩ := exists_heads ((gr.groups hg).present _ ⟨c, hc, rfl⟩)
    have hlt : c.region < (base charts last).length := by
      simp only [base, length_map, length_range]
      exact region_lt hc
    rw [List.getElem?_map, List.getElem?_range hlt, map_some, bind_some, he, getD_some]
  unfold cellLevels
  simp only [hlast, bind_eq_bind, hpar, hcross, bind_some]
  have hbase : (List.range ((charts.map Chart.region).foldr max 0 + 1)).map (regionSite charts last) =
      base charts last := rfl
  rw [hbase, hlevels, hclimb]
  by_cases hf : max n 1 ≤ fuel
  · have hmap := mapM_map_some (l := rungs TOL tree tau_base n)
      (f := fun c => (List.range (base charts last).length).map (survivor c))
      (F := chartParents charts) (G := fun c => parentsOf charts (survivor c)) fun c hc => by
        obtain ⟨i, -, rfl⟩ := mem_map.mp hc
        exact hnext _
    rw [if_pos hf, if_pos hf, bind_some, hmap]
    rfl
  · rw [if_neg hf, if_neg hf]
    rfl

omit [Field 𝕜] [IsStrictOrderedRing 𝕜] in
lemma groups_id : Groups charts P id := ⟨fun _ hr => hr, fun _ => rfl, Senior.refl⟩

variable {r' : ℕ}

omit [Field 𝕜] [LinearOrder 𝕜] [IsStrictOrderedRing 𝕜] in
lemma survivor_coarser {c' : List (Merge ℕ 𝕜)} (h : c <+: c')
    (he : survivor c r = survivor c r') : survivor c' r = survivor c' r' := by
  obtain ⟨rest, rfl⟩ := h
  rw [survivor_append, survivor_append, he]

variable {cuts : List (List (Merge ℕ 𝕜))}

omit [Field 𝕜] [IsStrictOrderedRing 𝕜] in
lemma mem_stack (h : par ∈ stack charts cuts) :
    ∃ c, (c = [] ∨ c ∈ cuts) ∧ par = parentsOf charts (survivor c) := by
  rcases mem_foldl_append h with h | h
  · split_ifs at h
    · cases h
    · exact ⟨[], .inl rfl, mem_singleton.mp h⟩
  · obtain ⟨c, hc, rfl⟩ := mem_map.mp h
    exact ⟨c, .inr hc, rfl⟩

omit [IsStrictOrderedRing 𝕜] in
lemma stack_nested (h : View charts links)
    (hid : Groups charts P id) (hg : ∀ c ∈ cuts, Groups charts P (survivor c))
    (hc : cuts.Pairwise (· <+: ·)) : (hierarchy charts (stack charts cuts)).IsChain Coarser := by
  have hnexts : (cuts.map fun c => parentsOf charts (survivor c)).Pairwise Coarser := by
    rw [pairwise_map]
    refine hc.imp_of_mem fun {c c'} hc hc' hp => ?_
    exact parentsOf_coarser h (hg c hc) (hg c' hc') fun r r' => survivor_coarser hp
  refine chain_foldl_append (List.Pairwise.isChain ?_)
  refine pairwise_cons.mpr ⟨fun par hpar => range_coarser ?_, pairwise_append.mpr ⟨?_, hnexts, ?_⟩⟩
  · rcases mem_append.mp hpar with hp | hp
    · split_ifs at hp
      · cases hp
      · rw [mem_singleton.mp hp]
        exact length_parentsOf
    · obtain ⟨c, -, rfl⟩ := mem_map.mp hp
      exact length_parentsOf
  · split_ifs
    · exact List.Pairwise.nil
    · exact pairwise_singleton _ _
  · intro par hpar par' hpar'
    obtain ⟨c, hc, rfl⟩ := mem_map.mp hpar'
    split_ifs at hpar
    · cases hpar
    · rw [mem_singleton.mp hpar]
      exact parentsOf_coarser h hid (hg c hc) fun r r' he => congrArg _ he

lemma rungs_pairwise {TOL tau : 𝕜} (ht : 0 < tau) (n : ℕ) :
    (rungs TOL tree tau n).Pairwise (· <+: ·) := by
  unfold rungs
  rw [pairwise_map]
  refine pairwise_lt_range.imp fun {i j} hij => cut_mono tree ?_
  exact mul_le_mul_of_nonneg_left (pow_le_pow_right₀ one_le_two (by omega)) ht.le

omit [IsStrictOrderedRing 𝕜] in
lemma stack_distinct (cuts : List (List (Merge ℕ 𝕜))) :
    (hierarchy charts (stack charts cuts)).IsChain (· ≠ ·) ↔
      ¬ (parentsOf charts id = List.range charts.length ∧
        ∃ c, cuts.head? = some c ∧ parentsOf charts (survivor c) = List.range charts.length) := by
  have hstart : (if parentsOf charts id = List.range charts.length then ([] : List (List ℕ))
      else [parentsOf charts id]).IsChain (· ≠ ·) := by
    split_ifs
    · exact isChain_nil
    · exact isChain_singleton _
  have hrest : (stack charts cuts).IsChain (· ≠ ·) := distinct_foldl_append _ hstart
  have hhead : (stack charts cuts).head? = _ := head?_foldl_append _ _
  unfold hierarchy
  rw [isChain_cons, and_iff_left hrest, hhead, List.head?_map]
  split_ifs with hpar
  · rw [List.head?_nil, none_or]
    cases cuts.head? with
    | none => simp
    | some c => simpa [hpar] using ne_comm
  · simp [hpar, Ne.symm hpar]

omit [Field 𝕜] [IsStrictOrderedRing 𝕜] in
lemma stack_top {top : List ℕ} (h : (hierarchy charts (stack charts cuts)).getLast? = some top) :
    top = parentsOf charts (survivor (cuts.getLast?.getD [])) := by
  have hlast : (stack charts cuts).getLast? = _ := getLast?_foldl_append _ _
  unfold hierarchy at h
  rw [List.getLast?_cons, hlast, List.getLast?_map] at h
  cases hc : cuts.getLast? with
  | some c =>
    rw [hc] at h
    exact (Option.some.inj h).symm
  | none =>
    rw [hc] at h
    split_ifs at h with hpar
    · exact (Option.some.inj h).symm.trans hpar.symm
    · exact (Option.some.inj h).symm

end

section
variable {charts : List (Chart 𝕜)} {links : List (Link 𝕜)} {P : Peaks ℕ 𝕜} {S T : Saddles ℕ 𝕜}
  {tree : List (Merge ℕ 𝕜)}
variable {u w : ℕ}

section
omit [Field 𝕜]

lemma exists_saddle (h : (between charts links u w).Nonempty) :
    ∃ s, IsGreatest (between charts links u w) s := by
  have hfin : (between charts links u w).Finite := by
    refine (finite_toSet (links.map Link.saddle)).subset ?_
    rintro s ⟨l, hl, x, y, -, -, -, rfl⟩
    exact mem_map_of_mem hl
  obtain ⟨s, hs, hle⟩ := Set.exists_max_image _ id hfin h
  exact ⟨s, hs, hle⟩

lemma Graph.linked (gr : Graph charts links P S) :
    S u w ≠ ⊥ ↔ u ≠ w ∧ (between charts links u w).Nonempty := by
  constructor
  · intro h
    obtain ⟨s, hs⟩ := WithBot.ne_bot_iff_exists.mp h
    obtain ⟨hne, hg⟩ := (gr.saddle u w s).mp hs.symm
    exact ⟨hne, s, hg.1⟩
  · rintro ⟨hne, h⟩
    obtain ⟨s, hs⟩ := exists_saddle h
    rw [(gr.saddle u w s).mpr ⟨hne, hs⟩]
    exact WithBot.coe_ne_bot

lemma Graph.over (gr : Graph charts links P S) {ok : 𝕜 → Prop} (hok : ∀ s t, ok s → s ≤ t → ok t)
    : Over charts links ok u w ↔ Reaches S ok u w := by
  constructor
  · intro h
    induction h with
    | refl => exact .refl
    | @tail v w _ hvw ih =>
      obtain ⟨s, hs, hoks⟩ := hvw
      by_cases he : v = w
      · exact he ▸ ih
      · obtain ⟨t, ht⟩ := exists_saddle ⟨s, hs⟩
        exact ih.tail ⟨t, (gr.saddle v w t).mpr ⟨he, ht⟩, hok s t hoks (ht.2 hs)⟩
  · intro h
    induction h with
    | refl => exact .refl
    | tail _ hvw ih =>
      obtain ⟨s, hs, hoks⟩ := hvw
      exact ih.tail ⟨s, ((gr.saddle _ _ s).mp hs).2.1, hoks⟩

end

lemma Graph.tied (h : View charts links) (gr : Graph charts links P S)
    (hx : charts[i]? = some x) (hy : charts[j]? = some y) :
    Relation.ReflTransGen (Tied charts links) i j ↔ Connected S x.region y.region := by
  have htrue : Over charts links (fun _ => True) x.region y.region ↔ Connected S x.region y.region :=
    gr.over fun _ _ _ _ => trivial
  rw [← htrue]
  clear htrue
  constructor
  · intro hij
    induction hij generalizing y with
    | refl =>
      cases hx.symm.trans hy
      exact .refl
    | @tail k j _ hkj ih =>
      rcases hkj with ⟨z, z', hz, hz', he⟩ | ⟨l, hl, hj⟩
      · cases hy.symm.trans hz'
        exact he ▸ ih hz
      · obtain ⟨z, hz⟩ : ∃ z, charts[k]? = some z := by
          have hends := h.ends l hl
          refine ⟨_, List.getElem?_eq_getElem ?_⟩
          rcases hj with ⟨hk, -⟩ | ⟨-, hk⟩ <;> rw [← hk]
          · exact hends.1
          · exact hends.2
        refine (ih hz).tail ⟨l.saddle, ⟨l, hl, ?_⟩, trivial⟩
        rcases hj with ⟨hk, hj⟩ | ⟨hj, hk⟩
        · exact ⟨z, y, hk ▸ hz, hj ▸ hy, .inl ⟨rfl, rfl⟩, rfl⟩
        · exact ⟨y, z, hj ▸ hy, hk ▸ hz, .inr ⟨rfl, rfl⟩, rfl⟩
  · intro hxy
    generalize hw : y.region = w at hxy
    induction hxy generalizing j y with
    | refl => exact .single (.inl ⟨x, y, hx, hy, hw.symm⟩)
    | tail _ hvw ih =>
      obtain ⟨s, ⟨l, hl, z, z', hz, hz', hj, -⟩, -⟩ := hvw
      rcases hj with ⟨hzu, hzw⟩ | ⟨hzw, hzu⟩
      · have hlast : Tied charts links l.b j := .inl ⟨z', y, hz', hy, hzw.trans hw.symm⟩
        exact ((ih hz hzu).tail (.inr ⟨l, hl, .inl ⟨rfl, rfl⟩⟩)).tail hlast
      · have hlast : Tied charts links l.a j := .inl ⟨z, y, hz, hy, hzw.trans hw.symm⟩
        exact ((ih hz' hzu).tail (.inr ⟨l, hl, .inr ⟨rfl, rfl⟩⟩)).tail hlast

lemma Graph.elder (h : View charts links) (gr : Graph charts links P S)
    (hu : u ∈ Present charts) (hw : w ∈ Present charts) : Elder charts u w ↔ Above P u w := by
  obtain ⟨e, x, -, he, hx⟩ := exists_heads hu
  obtain ⟨e', x', -, he', hx'⟩ := exists_heads hw
  rw [gr.above h he he' hx hx']
  obtain ⟨z, hz, hr, hle⟩ := he
  cases hx.symm.trans hz
  obtain ⟨z', hz', hr', hle'⟩ := he'
  cases hx'.symm.trans hz'
  constructor
  · rintro ⟨c, hc, hcu, hlt⟩
    exact (hle c hc hcu).trans_lt (hlt x' (mem_of_getElem? hx') hr')
  · intro hlt
    exact ⟨x, mem_of_getElem? hx, hr, fun c hc hcw => hlt.trans_le (hle' c hc hcw)⟩

variable [IsStrictOrderedRing 𝕜]

lemma Graph.near (gr : Graph charts links P S) (hr : r ∈ Present charts) (s q : 𝕜) :
    P.value r - s < q ↔ ∀ c ∈ charts, c.region = r → c.peak - s < q := by
  obtain ⟨e, x, -, he, hx⟩ := exists_heads hr
  rw [gr.value r e x he hx]
  obtain ⟨z, hz, hr, hle⟩ := he
  cases hx.symm.trans hz
  constructor
  · intro hlt c hc hcr
    exact (sub_le_sub_right (peak_le_of_seniority (hle c hc hcr)) s).trans_lt hlt
  · intro hall
    exact hall x (mem_of_getElem? hx) hr

lemma Graph.deep (h : View charts links) (gr : Graph charts links P S) (q : 𝕜) :
    ¬ Shallow P S q ↔ Deep charts links q := by
  have htrue : ∀ {r e}, Over charts links (fun _ => True) r e ↔ Connected S r e :=
    gr.over fun _ _ _ _ => trivial
  have hnear : ∀ {r e}, r ∈ Present charts →
      (Over charts links (fun s => ∀ c ∈ charts, c.region = r → c.peak - s < q) r e ↔
        Reaches S (fun s => P.value r - s < q) r e) := by
    intro r e hr
    rw [gr.over fun s t hs hst c hc hcr => (sub_le_sub_left hst _).trans_lt (hs c hc hcr)]
    simp only [gr.near hr]
  unfold Shallow Deep
  push Not
  constructor
  · rintro ⟨r, e, hre, her, hno⟩
    have hr : r ∈ Present charts := by
      rcases hre.cases_head with rfl | ⟨y, ⟨t, ht, -⟩, -⟩
      · exact absurd (Senior.refl _) (not_senior.mpr her)
      · exact (gr.ends _ _ (ht ▸ WithBot.coe_ne_bot)).1
    have he := hre.mem gr.ends hr
    refine ⟨r, ⟨e, htrue.mpr hre, (gr.elder h he hr).mpr her⟩, fun e' hre' hel => ?_⟩
    obtain ⟨c, hc, hce, -⟩ := id hel
    exact hno e' ((gr.elder h ⟨c, hc, hce⟩ hr).mp hel) ((hnear hr).mp hre')
  · rintro ⟨r, ⟨e, hre, hel⟩, hno⟩
    obtain ⟨c, hc, hce, -⟩ := id hel
    have he : e ∈ Present charts := ⟨c, hc, hce⟩
    have hr := ((htrue.mp hre).symm gr.symm).mem gr.ends he
    refine ⟨r, e, htrue.mp hre, (gr.elder h he hr).mp hel, fun e' hab hre' => ?_⟩
    exact hno e' ((hnear hr).mpr hre') ((gr.elder h (hre'.mem gr.ends hr) hr).mpr hab)

omit [IsStrictOrderedRing 𝕜] in
lemma Graph.crossed (gr : Graph charts links P S) (hg : Greedy P ⊤ S tree T) :
    tree = [] ↔ ¬ Crossed charts links := by
  rw [hg.nil_iff gr.symm]
  constructor
  · rintro hno ⟨u, w, hne, hs⟩
    obtain ⟨s, hs⟩ := WithBot.ne_bot_iff_exists.mp (gr.linked.mpr ⟨hne, hs⟩)
    exact hno u w s hs.symm (WithTop.coe_lt_top _)
  · intro hno u w s hs
    have hlink := gr.linked.mp (hs ▸ WithBot.coe_ne_bot : S u w ≠ ⊥)
    exact absurd ⟨u, w, hlink⟩ hno

omit [Field 𝕜] [IsStrictOrderedRing 𝕜] in
lemma heads_of_nodup (hn : (charts.map Chart.region).Nodup)
    (hx : charts[i]? = some x) : Heads charts x.region i := by
  refine ⟨x, hx, rfl, fun c hc hr => ?_⟩
  rw [inj_on_of_nodup_map hn hc (mem_of_getElem? hx) hr]

omit [IsStrictOrderedRing 𝕜] in
lemma parents_id_iff (h : View charts links) :
    parentsOf charts id = List.range charts.length ↔ (charts.map Chart.region).Nodup := by
  have hall : parentsOf charts id = List.range charts.length ↔
      ∀ i x, charts[i]? = some x → Heads charts x.region i := by
    constructor
    · intro he i x hx
      have hi := (parentsOf_iff (P := ⟨fun _ => 0, fun _ => 0⟩) h groups_id).mp
        (he ▸ List.getElem?_range (lt_of_getElem? hx))
      obtain ⟨y, hy, hh⟩ := hi
      cases hx.symm.trans hy
      exact hh
    · intro hh
      refine ext_getElem? fun i => ?_
      rcases lt_or_ge i charts.length with hi | hi
      · have hx := List.getElem?_eq_getElem hi
        rw [List.getElem?_range hi]
        exact (parentsOf_iff (P := ⟨fun _ => 0, fun _ => 0⟩) h groups_id).mpr ⟨_, hx, hh i _ hx⟩
      · rw [List.getElem?_eq_none (by rwa [length_parentsOf]), List.getElem?_eq_none (by simpa using hi)]
  rw [hall]
  constructor
  · intro hh
    refine nodup_iff_injective_getElem.mpr fun i j hij => Fin.ext ?_
    have hi : i.val < charts.length := by simpa using i.isLt
    have hj : j.val < charts.length := by simpa using j.isLt
    simp only [getElem_map] at hij
    have hheads := hh j _ (List.getElem?_eq_getElem hj)
    rw [← hij] at hheads
    exact (hh i _ (List.getElem?_eq_getElem hi)).unique h hheads
  · exact fun hn i x hx => heads_of_nodup hn hx

lemma Graph.merge_present (gr : Graph charts links P S) {limit : WithTop 𝕜} (hg : Greedy P limit S tree T) :
    ∀ m ∈ tree, m.2.2 ∈ Present charts := by
  intro m hm
  obtain ⟨s, -, hreach⟩ := hg.reaches gr.symm m hm
  have hto := hreach (fun _ => True) (fun _ _ _ _ => trivial) trivial
  rcases hto.cases_head with he | ⟨y, ⟨t, ht, -⟩, -⟩
  · exact absurd he.symm ((hg.once gr.symm).1 m hm)
  · exact (gr.ends _ _ (ht ▸ WithBot.coe_ne_bot)).1

lemma Graph.parents_cut_iff (h : View charts links) (gr : Graph charts links P S) {limit : WithTop 𝕜}
    {c : List (Merge ℕ 𝕜)} (hg : Greedy P limit S c T) (hn : (charts.map Chart.region).Nodup) :
    parentsOf charts (survivor c) = List.range charts.length ↔ c = [] := by
  constructor
  · intro he
    refine eq_nil_of_survivor (hg.once gr.symm) fun m hm => ?_
    obtain ⟨x, hx, hr⟩ := gr.merge_present hg m hm
    obtain ⟨i, hi⟩ := mem_iff_getElem?.mp hx
    obtain ⟨y, hy, hh⟩ := (parentsOf_iff h (gr.groups hg)).mp (he ▸ List.getElem?_range (lt_of_getElem? hi))
    cases hi.symm.trans hy
    rw [← hr, ← hh.region hi]
  · rintro rfl
    exact (parents_id_iff h).mpr hn

omit [IsStrictOrderedRing 𝕜] in
lemma Graph.link_of_nodup (h : View charts links) (gr : Graph charts links P S)
    (hn : (charts.map Chart.region).Nodup) {l : Link 𝕜} (hl : l ∈ links) (hne : l.a ≠ l.b)
    (hx : charts[l.a]? = some x) (hy : charts[l.b]? = some y) : x.region ≠ y.region ∧
      l.saddle ∈ between charts links x.region y.region ∧ P.value x.region = x.peak ∧
      P.value y.region = y.peak := by
  have hhx := heads_of_nodup hn hx
  have hhy := heads_of_nodup hn hy
  refine ⟨fun he => hne (hhx.unique h (he ▸ hhy)), ⟨l, hl, x, y, hx, hy, .inl ⟨rfl, rfl⟩, rfl⟩, ?_, ?_⟩
  · exact gr.value _ _ x hhx hx
  · exact gr.value _ _ y hhy hy

lemma Graph.idle (h : View charts links) (gr : Graph charts links P S) (hg : Greedy P ⊤ S tree T)
    {TOL tau_base : 𝕜} {T' : Saddles ℕ 𝕜} (ht : 0 < tau_base)
    (hg' : Greedy P (threshold TOL (tau_base * 2 : 𝕜)) S (cut TOL tree (tau_base * 2)) T') {n : ℕ}
    (hn : n = 0 ↔ ∀ m ∈ tree, m.1 < tau_base - TOL) :
    (parentsOf charts id = List.range charts.length ∧ ∃ c, (rungs TOL tree tau_base n).head? = some c ∧
      parentsOf charts (survivor c) = List.range charts.length) ↔ Idle TOL charts links tau_base := by
  rw [parents_id_iff h]
  unfold Idle
  refine and_congr_right fun hnodup => ?_
  have hcut := (gr.parents_cut_iff h hg' hnodup).trans (hg'.nil_iff gr.symm)
  have hhead : (∃ c, (rungs TOL tree tau_base n).head? = some c ∧ parentsOf charts (survivor c) = List.range charts.length) ↔
      n ≠ 0 ∧ parentsOf charts (survivor (cut TOL tree (tau_base * 2))) = List.range charts.length := by
    cases n with
    | zero => simp [rungs]
    | succ n => simp [rungs_succ]
  have hfloor : (∀ a b (s : 𝕜), S a b = s →
        ¬ Below (threshold TOL (tau_base * 2 : 𝕜)) (persistence P a b s)) ↔
      ∀ l ∈ links, l.a ≠ l.b → ∀ x y, charts[l.a]? = some x → charts[l.b]? = some y →
        2 * tau_base - TOL ≤ min x.peak y.peak - l.saddle := by
    constructor
    · intro hall l hl hne x y hx hy
      obtain ⟨hxy, hs, hpx, hpy⟩ := gr.link_of_nodup h hnodup hl hne hx hy
      obtain ⟨t, htop⟩ := exists_saddle ⟨_, hs⟩
      have hno := hall _ _ t ((gr.saddle _ _ t).mpr ⟨hxy, htop⟩)
      have hge : tau_base * 2 - TOL ≤ persistence P x.region y.region t :=
        not_lt.mp fun hlt => hno (WithTop.coe_lt_coe.mpr hlt)
      rw [persistence, hpx, hpy, mul_comm] at hge
      exact hge.trans (sub_le_sub_left (htop.2 hs) _)
    · intro hall a b s hs hbelow
      obtain ⟨hne, ⟨l, hl, x, y, hx, hy, hj, rfl⟩, -⟩ := (gr.saddle a b s).mp hs
      have hlt : persistence P a b l.saddle < tau_base * 2 - TOL := WithTop.coe_lt_coe.mp hbelow
      have hends : l.a ≠ l.b := fun he => by
        rw [he] at hx
        cases hx.symm.trans hy
        rcases hj with ⟨rfl, rfl⟩ | ⟨rfl, rfl⟩ <;> exact hne rfl
      obtain ⟨-, -, hpx, hpy⟩ := gr.link_of_nodup h hnodup hl hends hx hy
      have hge := hall l hl hends x y hx hy
      rw [← hpx, ← hpy, mul_comm] at hge
      refine absurd hlt (not_lt.mpr (hge.trans ?_))
      rcases hj with ⟨rfl, rfl⟩ | ⟨rfl, rfl⟩
      · exact le_rfl
      · exact (persistence_comm P _ _ _).le
  have hsome : tree ≠ [] ↔ ∃ l ∈ links, l.a ≠ l.b := by
    rw [ne_eq, gr.crossed hg, not_not]
    constructor
    · rintro ⟨u, w, hne, s, l, hl, x, y, hx, hy, hj, -⟩
      refine ⟨l, hl, fun he => ?_⟩
      rw [he] at hx
      cases hx.symm.trans hy
      rcases hj with ⟨rfl, rfl⟩ | ⟨rfl, rfl⟩ <;> exact hne rfl
    · rintro ⟨l, hl, hne⟩
      obtain ⟨ha, hb⟩ := h.ends l hl
      obtain ⟨hxy, hs, -⟩ := gr.link_of_nodup h hnodup hl hne (List.getElem?_eq_getElem ha)
        (List.getElem?_eq_getElem hb)
      exact ⟨_, _, hxy, _, hs⟩
  rw [hhead, hcut, hfloor, ← hsome]
  refine and_congr_left fun hall => ?_
  -- a first merge that the first scale leaves is one the loop is entered for
  have hnil := (hg'.nil_iff gr.symm).mpr (hfloor.mpr hall)
  constructor
  · rintro hn0 rfl
    exact hn0 (hn.mpr (by simp))
  · intro hne hn0
    obtain ⟨m, rest, rfl⟩ := exists_cons_of_ne_nil hne
    have hlt := hn.mp hn0 m mem_cons_self
    have hin : Below (threshold TOL (tau_base * 2 : 𝕜)) m.1 := by
      refine WithTop.coe_lt_coe.mpr (hlt.trans_le (sub_le_sub_right ?_ TOL))
      linarith
    rw [cut_eq, takeWhile_cons_of_pos (by exact decide_eq_true hin)] at hnil
    cases hnil

end

end CloudServer.ChartLevels
