import CloudServer.WaypointsExact

/-! What a budget of waypoints keeps: the ends and allowed chords always; the cost where nothing is
rounded up, and the order of two budgets where the thinned candidates do not take over. -/
namespace CloudServer.Waypoints
open ForwardTable List

variable {𝕜 : Type} [Field 𝕜] [LinearOrder 𝕜]

/-- The next point, or a visible one no farther than the gap; the last point may be a little farther. -/
def Planner.Fits (P : Planner 𝕜) (pts : List (𝕜 × 𝕜)) (i j : ℕ) : Prop :=
  i < j ∧ j < pts.length ∧ (j = i + 1 ∨ (P.visible (pt pts i) (pt pts j) ∧
    (P.maxGap ≤ 0 ∨ P.dist pts i j ≤ P.maxGap ∨
      (j = pts.length - 1 ∧ P.dist pts i j ≤ P.maxGap + P.endExtra))))

def Planner.Close (P : Planner 𝕜) (pts : List (𝕜 × 𝕜)) (i j : ℕ) : Prop :=
  i < j ∧ (j = i + 1 ∨ P.dist pts i j ≤ P.thinStep)

structure Planner.Dense (P : Planner 𝕜) (pts : List (𝕜 × 𝕜)) (cand : List ℕ) : Prop where
  chain : cand.IsChain (P.Close pts)
  last : cand.getLast? = some (pts.length - 1)

def pathCost (cost : 𝕜 × 𝕜 → 𝕜 × 𝕜 → 𝕜) (way : List (𝕜 × 𝕜)) : 𝕜 :=
  ((way.zip way.tail).map fun e => cost e.1 e.2).sum

variable {P : Planner 𝕜} {pts : List (𝕜 × 𝕜)} {i j a b fuel : ℕ} {cand : List ℕ}

theorem retreat_spec (hab : a + 1 < b) : P.Close pts a (P.retreat pts a b) ∧ P.retreat pts a b < b := by
  unfold Planner.retreat
  cases hfind : (List.range' (a + 2) (b - (a + 2))).reverse.find? fun m => P.dist pts a m ≤ P.thinStep with
  | none => exact ⟨⟨a.lt_succ_self, Or.inl rfl⟩, hab⟩
  | some m =>
    have hdist := List.find?_some hfind
    have hm := mem_of_find?_eq_some hfind
    rw [mem_reverse, mem_range'_1] at hm
    simp only [decide_eq_true_eq] at hdist
    simp only [Option.getD_some]
    exact ⟨⟨by omega, Or.inr hdist⟩, by omega⟩

theorem spaced_cons : ∃ tail, P.spaced pts fuel a b = a :: tail := by
  cases fuel with
  | zero => exact ⟨[], rfl⟩
  | succ fuel =>
    unfold Planner.spaced
    split_ifs
    · exact ⟨_, rfl⟩
    · exact ⟨[], rfl⟩

theorem spaced_chain (hab : a < b) (hfuel : b - a ≤ fuel) :
    (P.spaced pts fuel a b ++ [b]).IsChain (P.Close pts) := by
  induction fuel generalizing a with
  | zero => omega
  | succ fuel ih =>
    unfold Planner.spaced
    split_ifs with h
    · have hspec : P.Close pts a (P.retreat pts a b) ∧ P.retreat pts a b < b := retreat_spec (by omega)
      obtain ⟨hclose, hlt⟩ := hspec
      have hrest := ih hlt (by have := hclose.1; omega)
      have hcons : ∃ tail, P.spaced pts fuel (P.retreat pts a b) b = P.retreat pts a b :: tail := spaced_cons
      obtain ⟨tail, htail⟩ := hcons
      rw [htail] at hrest ⊢
      exact isChain_cons_cons.mpr ⟨hclose, hrest⟩
    · refine isChain_pair.mpr ⟨hab, ?_⟩
      rw [not_and_or, not_lt] at h
      rcases h with h | h
      · exact Or.inr h
      · exact Or.inl (by omega)

theorem filled (n : ℕ) {rest : List ℕ} (hs : (a :: rest).Pairwise (· < ·)) (hn : ∀ k ∈ a :: rest, k ≤ n) :
    ∃ tail, (((a :: rest).zip rest).flatMap fun e => P.spaced pts n e.1 e.2) ++ (a :: rest).getLast?.toList = a :: tail ∧
      (a :: tail).IsChain (P.Close pts) ∧ (a :: tail).getLast? = (a :: rest).getLast? := by
  induction rest generalizing a with
  | nil => exact ⟨[], rfl, isChain_singleton a, rfl⟩
  | cons b rest ih =>
    obtain ⟨ha, hs⟩ := pairwise_cons.mp hs
    obtain ⟨tail, hfill, hchain, hlast⟩ := ih hs fun k hk => hn k (mem_cons_of_mem _ hk)
    have hab := ha b (mem_cons_self ..)
    have hb := hn b (by simp)
    have hcons : ∃ first, P.spaced pts n a b = a :: first := spaced_cons
    obtain ⟨first, hfirst⟩ := hcons
    have hpiece : (P.spaced pts n a b ++ [b]).IsChain (P.Close pts) := spaced_chain hab (by omega)
    have hnext : (a :: b :: rest).getLast? = (b :: rest).getLast? := List.getLast?_cons_cons
    refine ⟨first ++ b :: tail, ?_, ?_, ?_⟩
    · rw [zip_cons_cons, flatMap_cons, hnext, append_assoc, hfill, hfirst]
      rfl
    · rw [hfirst] at hpiece
      exact isChain_split.mpr ⟨hpiece, hchain⟩
    · rw [hnext, ← hlast, ← cons_append, List.getLast?_append_cons]

theorem thinIndices_dense (hn : 0 < pts.length) (eps : 𝕜) (keep : List ℕ) :
    P.Dense pts (P.thinIndices pts eps keep) := by
  obtain ⟨m, hm⟩ := Nat.exists_eq_add_of_le' hn
  set out := (List.range pts.length).filter fun k =>
    k = 0 ∨ k = pts.length - 1 ∨ k ∈ keep ∨ k ∈ P.peucker pts eps pts.length 0 (pts.length - 1) with hout
  have hfirst : ∃ rest, out = 0 :: rest := by
    rw [hout, hm, range_succ_eq_map, filter_cons_of_pos (by simp)]
    exact ⟨_, rfl⟩
  have hlast : out.getLast? = some (pts.length - 1) := by
    rw [hout, hm, range_succ, filter_append, filter_cons_of_pos (by simp), filter_nil,
      List.getLast?_concat]
    rfl
  have hsorted : out.Pairwise (· < ·) := (range_sorted pts.length).sublist filter_sublist
  have hle : ∀ k ∈ out, k ≤ pts.length := fun k hk => (mem_range.mp (mem_filter.mp hk).1).le
  obtain ⟨rest, hrest⟩ := hfirst
  rw [hrest] at hsorted hle hlast
  have hfilled : ∃ tail, (((0 :: rest).zip rest).flatMap fun e => P.spaced pts pts.length e.1 e.2) ++
      (0 :: rest).getLast?.toList = 0 :: tail ∧ (0 :: tail).IsChain (P.Close pts) ∧
        (0 :: tail).getLast? = (0 :: rest).getLast? := filled pts.length hsorted hle
  obtain ⟨tail, hfill, hchain, htail⟩ := hfilled
  have hthin : P.thinIndices pts eps keep = 0 :: tail := by
    unfold Planner.thinIndices
    dsimp only
    rw [← hout, hrest]
    exact hfill
  exact hthin ▸ ⟨hchain, htail.trans hlast⟩

theorem range_dense (hn : 0 < pts.length) : P.Dense pts (List.range pts.length) where
  chain := by
    rw [isChain_iff_getElem]
    intro k hk
    simp [Planner.Close]
  last := by
    obtain ⟨m, hm⟩ := Nat.exists_eq_add_of_le' hn
    rw [hm, range_succ, List.getLast?_concat]
    rfl

theorem Planner.Dense.sorted (h : P.Dense pts cand) : cand.Pairwise (· < ·) :=
  (h.chain.imp fun _ _ hab => hab.1).pairwise

theorem Planner.Dense.le_last (h : P.Dense pts cand) (hj : j ∈ cand) : j ≤ pts.length - 1 := by
  obtain ⟨front, rfl⟩ := List.getLast?_eq_some_iff.mp h.last
  rcases mem_append.mp hj with hj | hj
  · exact ((pairwise_append.mp h.sorted).2.2 j hj _ (mem_singleton_self _)).le
  · exact (mem_singleton.mp hj).le

theorem Planner.Dense.next (h : P.Dense pts cand) (hi : i ∈ cand) (hnext : Next cand i j) : P.Close pts i j := by
  obtain ⟨k, hk, rfl⟩ := mem_iff_getElem.mp hi
  obtain ⟨hlen, hj⟩ := List.getElem?_eq_some_iff.mp hnext
  have hbefore := (lt_bisectRight h.sorted (List.getElem?_eq_getElem hk) (x := cand[k])).mpr le_rfl
  have hafter : ¬k + 1 < bisectRight cand cand[k] := by
    intro hlt
    have hk' : k + 1 < cand.length := by omega
    have hle := (lt_bisectRight h.sorted (List.getElem?_eq_getElem hk')).mp hlt
    exact hle.not_gt (pairwise_iff_getElem.mp h.sorted k (k + 1) hk hk' k.lt_succ_self)
  have heq : bisectRight cand cand[k] = k + 1 := by omega
  simp only [heq] at hlen hj
  rw [← hj]
  exact isChain_iff_getElem.mp h.chain k hlen

theorem thinStep_le (hgap : 0 < P.maxGap) : P.thinStep ≤ P.maxGap := by
  unfold Planner.thinStep
  rw [if_pos hgap]
  exact min_le_left _ _

section
omit [LinearOrder 𝕜]

theorem pathCost_concat (cost : 𝕜 × 𝕜 → 𝕜 × 𝕜 → 𝕜) {way : List (𝕜 × 𝕜)} {p : 𝕜 × 𝕜} (h : way.getLast? = some p)
    (q : 𝕜 × 𝕜) : pathCost cost (way ++ [q]) = pathCost cost way + cost p q := by
  induction way with
  | nil => simp at h
  | cons p₀ way ih =>
    cases way with
    | nil =>
      cases h
      simp [pathCost]
    | cons p₁ way =>
      rw [List.getLast?_cons_cons] at h
      have hrest := ih h
      unfold pathCost at hrest ⊢
      simp only [cons_append, zip_cons_cons, tail_cons, map_cons, sum_cons] at hrest ⊢
      rw [hrest, add_assoc]

theorem pathCost_range (cost : 𝕜 × 𝕜 → 𝕜 × 𝕜 → 𝕜) (pts : List (𝕜 × 𝕜)) (k : ℕ) :
    pathCost cost ((List.range (k + 1)).map (pt pts)) = upTo cost pts k := by
  induction k with
  | zero => simp [pathCost, upTo]
  | succ k ih =>
    have hlast : ((List.range (k + 1)).map (pt pts)).getLast? = some (pt pts k) := by
      rw [range_succ, map_append, map_singleton, List.getLast?_concat]
    rw [range_succ, map_append, map_singleton, pathCost_concat cost hlast, ih, upTo_succ]

theorem pathCost_pts (cost : 𝕜 × 𝕜 → 𝕜 × 𝕜 → 𝕜) (hn : 0 < pts.length) :
    pathCost cost pts = upTo cost pts (pts.length - 1) := by
  have hrange := pathCost_range cost pts (pts.length - 1)
  rwa [Nat.sub_add_cancel hn, map_pt_range] at hrange

end

variable [FloorRing 𝕜] {budget budget' s w : ℤ} {path : List ℕ}

def Planner.RouteOver (P : Planner 𝕜) (pts : List (𝕜 × 𝕜)) (cand : List ℕ) (budget : ℤ) (path : List ℕ) (s : ℤ) : Prop :=
  Way (P.chords pts cand budget) budget cand.dropLast path (pts.length - 1) s

def Planner.FirstRoute (P : Planner 𝕜) (pts : List (𝕜 × 𝕜)) (cand : List ℕ) (budget : ℤ) (path : List ℕ) : Prop :=
  ∃ s, P.RouteOver pts cand budget path s ∧ ∀ path' s', P.RouteOver pts cand budget path' s' → rank path s ≤ rank path' s'

/-- What `cost` charges beyond the points in between. -/
def Planner.excess (P : Planner 𝕜) (pts : List (𝕜 × 𝕜)) (i j : ℕ) : 𝕜 :=
  P.cost (pt pts i) (pt pts j) - (upTo P.cost pts j - upTo P.cost pts i)

/-- The rounding to centimetres gives nothing away: neither the budget nor the slack of a chord. -/
def Planner.Rounded (P : Planner 𝕜) (pts : List (𝕜 × 𝕜)) (budgetM : 𝕜) : Prop :=
  (centimetres budgetM : 𝕜) ≤ budgetM * 100 ∧
    ∀ i j w, P.Fits pts i j → P.slack pts i j = some w → P.excess pts i j * 100 ≤ w

/-- Where only the larger budget leaves a route over the thinned candidates, one has no more chords than
any route over all points has with the smaller one. -/
def Planner.FallbackKeeps (P : Planner 𝕜) (pts : List (𝕜 × 𝕜)) (eps : 𝕜) (budget budget' : ℤ) : Prop :=
  let thinned := P.thinIndices pts eps (P.greedyPullIndices pts)
  2 < pts.length → 0 < eps → (∀ path s, ¬P.RouteOver pts thinned budget path s) →
    (∃ path s, P.RouteOver pts thinned budget' path s) →
    ∀ path s, P.RouteOver pts (List.range pts.length) budget path s →
      ∃ path' s', P.RouteOver pts thinned budget' path' s' ∧ path'.length ≤ path.length

variable [IsStrictOrderedRing 𝕜]

theorem chord_fits (h : P.Dense pts cand) (hn : 0 < pts.length) (hi : i ∈ cand)
    (hc : (j, w) ∈ P.chords pts cand budget i) : P.Fits pts i j := by
  obtain ⟨hcand, hw, -⟩ := (mem_chords h.sorted).mp hc
  have hij := candidates_lt h.sorted hcand
  have hvisible : j = i + 1 ∨ P.visible (pt pts i) (pt pts j) := by
    unfold Planner.slack at hw
    split_ifs at hw with h₁ h₂
    · exact Or.inl h₁
    · exact Or.inr h₂
  -- A chord that is not to the next point is visible, and no farther than the gap when there is one.
  have hfits : j < pts.length → (0 < P.maxGap → j ≠ i + 1 → P.dist pts i j ≤ P.maxGap ∨
      (j = pts.length - 1 ∧ P.dist pts i j ≤ P.maxGap + P.endExtra)) → P.Fits pts i j := by
    intro hj hgap
    refine ⟨hij, hj, ?_⟩
    by_cases hnear : j = i + 1
    · exact Or.inl hnear
    · refine Or.inr ⟨hvisible.resolve_left hnear, ?_⟩
      rcases le_or_gt P.maxGap 0 with hg | hg
      · exact Or.inl hg
      · exact Or.inr (hgap hg hnear)
  rcases (mem_candidates h.sorted).mp hcand with ⟨hj, -, hle⟩ | ⟨hl, rfl⟩ | ⟨-, -, hnext⟩
  · have hlast := h.le_last hj
    have hlen : j < pts.length := by omega
    refine hfits hlen fun hgap hnear => Or.inl ?_
    have hwin := ((le_windowEnd hgap hij hlen).mp hle).resolve_left hnear
    exact hwin j (by omega) le_rfl
  · exact hfits (by omega) fun _ _ => Or.inr ⟨rfl, hl.2.2⟩
  · have hlast := h.le_last (mem_of_getElem? hnext)
    refine hfits (by omega) fun hgap hnear => Or.inl ?_
    exact ((h.next hi hnext).2.resolve_left hnear).trans (thinStep_le hgap)

theorem way_fits (h : P.Dense pts cand) (hn : 0 < pts.length)
    (hway : Way (P.chords pts cand budget) budget cand.dropLast path j s) :
    path.head? = some 0 ∧ path.getLast? = some j ∧ path.IsChain (P.Fits pts) := by
  induction hway with
  | start => exact ⟨rfl, rfl, isChain_singleton 0⟩
  | @chord path i j s w hway hi hc hs ih =>
    obtain ⟨hhead, hlast, hchain⟩ := ih
    refine ⟨?_, List.getLast?_concat, ?_⟩
    · rw [List.head?_append, hhead]
      rfl
    · refine isChain_append.mpr ⟨hchain, isChain_singleton j, ?_⟩
      rintro k hk l hl
      rw [hlast] at hk
      cases hk
      cases hl
      exact chord_fits h hn (mem_of_mem_dropLast hi) hc

theorem way_cost (h : P.Dense pts cand) (hn : 0 < pts.length)
    (hround : ∀ i j w, P.Fits pts i j → P.slack pts i j = some w → P.excess pts i j * 100 ≤ w)
    (hway : Way (P.chords pts cand budget) budget cand.dropLast path j s) :
    pathCost P.cost (path.map (pt pts)) ≤ upTo P.cost pts j + s / 100 := by
  induction hway with
  | start => simp [pathCost, upTo]
  | @chord path i j s w hway hi hc hs ih =>
    have hlast : (path.map (pt pts)).getLast? = some (pt pts i) := by
      rw [List.getLast?_map, (way_fits h hn hway).2.1]
      rfl
    have hchord := hround i j w (chord_fits h hn (mem_of_mem_dropLast hi) hc) ((mem_chords h.sorted).mp hc).2.1
    have hexcess : P.excess pts i j = P.cost (pt pts i) (pt pts j) - (upTo P.cost pts j - upTo P.cost pts i) := rfl
    rw [map_append, map_singleton, pathCost_concat _ hlast]
    push_cast
    linarith

theorem way_le {chords : ℕ → List (ℕ × ℤ)} {sources : List ℕ} (h0 : 0 ≤ budget)
    (hway : Way chords budget sources path j s) : s ≤ budget := by
  cases hway with
  | start => exact h0
  | chord _ _ _ hs => exact hs

omit [IsStrictOrderedRing 𝕜] in
theorem way_larger (h : P.Dense pts cand) (hle : budget ≤ budget')
    (hway : Way (P.chords pts cand budget) budget cand.dropLast path j s) :
    Way (P.chords pts cand budget') budget' cand.dropLast path j s := by
  induction hway with
  | start => exact .start
  | chord _ hi hc hs ih =>
    obtain ⟨hcand, hw, hb⟩ := (mem_chords h.sorted).mp hc
    exact ih.chord hi ((mem_chords h.sorted).mpr ⟨hcand, hw, hb.trans hle⟩) (hs.trans hle)

omit [IsStrictOrderedRing 𝕜] in
theorem Planner.Dense.budgetDp_spec (h : P.Dense pts cand) (budget : ℤ) : match P.budgetDp pts cand budget with
    | none => ∀ path s, ¬P.RouteOver pts cand budget path s
    | some path => P.FirstRoute pts cand budget path :=
  choose_spec (table_holds (chords_forward h.sorted) (h.sorted.sublist (dropLast_sublist _))) _

theorem range_route (h0 : 0 ≤ budget) (hn : 0 < pts.length) :
    P.RouteOver pts (List.range pts.length) budget (List.range pts.length) 0 := by
  have hroute : P.Route pts (· ≤ budget) (List.range (pts.length - 1 + 1)) (pts.length - 1) 0 :=
    route_range h0 (pts.length - 1) (by omega)
  rw [Nat.sub_add_cancel hn] at hroute
  exact (way_iff_route rfl).mpr hroute

theorem solve_spec (hn : 0 < pts.length) (budgetM eps : 𝕜) :
    let thinned := P.thinIndices pts eps (P.greedyPullIndices pts)
    ∃ path, P.solve pts budgetM eps = some path ∧
      ((0 < eps ∧ P.FirstRoute pts thinned (centimetres budgetM) path) ∨
        ((0 < eps → ∀ path s, ¬P.RouteOver pts thinned (centimetres budgetM) path s) ∧
          P.FirstRoute pts (List.range pts.length) (centimetres budgetM) path)) := by
  intro thinned
  have hfull : ∃ path, P.budgetDp pts (List.range pts.length) (centimetres budgetM) = some path ∧
      P.FirstRoute pts (List.range pts.length) (centimetres budgetM) path := by
    have hdense : P.Dense pts (List.range pts.length) := range_dense hn
    have hspec := hdense.budgetDp_spec (centimetres budgetM)
    cases hdp : P.budgetDp pts (List.range pts.length) (centimetres budgetM) with
    | none =>
      rw [hdp] at hspec
      exact absurd (range_route (centimetres_nonneg budgetM) hn) (hspec _ _)
    | some path =>
      rw [hdp] at hspec
      exact ⟨path, rfl, hspec⟩
  obtain ⟨path, hpath, hfirst⟩ := hfull
  have hdense : P.Dense pts (P.thinIndices pts eps (P.greedyPullIndices pts)) := thinIndices_dense hn _ _
  have hspec := hdense.budgetDp_spec (centimetres budgetM)
  unfold Planner.solve
  dsimp only
  by_cases heps : 0 < eps
  · rw [if_pos heps]
    cases hdp : P.budgetDp pts (P.thinIndices pts eps (P.greedyPullIndices pts)) (centimetres budgetM) with
    | none =>
      rw [hdp] at hspec
      exact ⟨path, hpath, Or.inr ⟨fun _ => hspec, hfirst⟩⟩
    | some out =>
      rw [hdp] at hspec
      exact ⟨out, rfl, Or.inl ⟨heps, hspec⟩⟩
  · rw [if_neg heps]
    exact ⟨path, hpath, Or.inr ⟨fun h => absurd h heps, hfirst⟩⟩

omit [IsStrictOrderedRing 𝕜] in
theorem Planner.FirstRoute.length_le {path' : List ℕ} {s' : ℤ} (h : P.FirstRoute pts cand budget path)
    (h' : P.RouteOver pts cand budget path' s') : path.length ≤ path'.length := by
  obtain ⟨s, hroute, hmin⟩ := h
  have hle := hmin path' s' h'
  have hpos := length_pos_of_ne_nil hroute.ne_nil
  have hpos' := length_pos_of_ne_nil h'.ne_nil
  unfold rank at hle
  rw [Prod.Lex.toLex_le_toLex] at hle
  omega

theorem centimetres_mono {b b' : 𝕜} (h : b ≤ b') : (centimetres b : ℤ) ≤ centimetres b' := by
  refine max_le_max le_rfl (Int.ceil_mono ?_)
  have hmax : max 0 b ≤ max 0 b' := max_le_max le_rfl h
  linarith

theorem solve_fewer (hn : 2 < pts.length) {b b' : 𝕜} (hbb : b ≤ b') (eps : 𝕜) {path path' : List ℕ}
    (hpath : P.solve pts b eps = some path) (hpath' : P.solve pts b' eps = some path') :
    path'.length ≤ path.length ↔ P.FallbackKeeps pts eps (centimetres b) (centimetres b') := by
  have hpos : 0 < pts.length := by omega
  have hthin : P.Dense pts (P.thinIndices pts eps (P.greedyPullIndices pts)) := thinIndices_dense hpos _ _
  have hle : (centimetres b : ℤ) ≤ centimetres b' := centimetres_mono hbb
  obtain ⟨p, hp, hcase⟩ := solve_spec (P := P) hpos b eps
  obtain ⟨p', hp', hcase'⟩ := solve_spec (P := P) hpos b' eps
  obtain rfl := Option.some.inj (hp.symm.trans hpath)
  obtain rfl := Option.some.inj (hp'.symm.trans hpath')
  rcases hcase with ⟨heps, hfirst⟩ | ⟨hnone, hfirst⟩
  · -- The thinned candidates leave a route with either budget.
    obtain ⟨s, hroute, -⟩ := hfirst
    have hroute' := way_larger hthin hle hroute
    refine iff_of_true ?_ fun _ _ hnone => absurd hroute (hnone p s)
    rcases hcase' with ⟨-, hfirst'⟩ | ⟨hnone', -⟩
    · exact hfirst'.length_le hroute'
    · exact absurd hroute' (hnone' heps p s)
  · rcases hcase' with ⟨heps, hfirst'⟩ | ⟨hnone', hfirst'⟩
    · -- Only the larger budget leaves one: this is the case the condition is about.
      constructor
      · intro hlen _ _ _ _ q s hq
        obtain ⟨s', hroute', -⟩ := hfirst'
        exact ⟨p', s', hroute', hlen.trans (hfirst.length_le hq)⟩
      · intro hkeeps
        obtain ⟨s', hroute', -⟩ := id hfirst'
        obtain ⟨s, hroute, -⟩ := id hfirst
        obtain ⟨q, t, hq, hlen⟩ := hkeeps hn heps (hnone heps) ⟨p', s', hroute'⟩ p s hroute
        exact (hfirst'.length_le hq).trans hlen
    · -- Neither budget leaves one.
      refine iff_of_true ?_ fun _ heps _ hsome => ?_
      · obtain ⟨s, hroute, -⟩ := hfirst
        exact hfirst'.length_le (way_larger (range_dense hpos) hle hroute)
      · obtain ⟨q, t, hq⟩ := hsome
        exact absurd hq (hnone' heps q t)

theorem solve_kept (hn : 0 < pts.length) {budgetM eps : 𝕜} (hpath : P.solve pts budgetM eps = some path) :
    path.head? = some 0 ∧ path.getLast? = some (pts.length - 1) ∧ path.IsChain (P.Fits pts) ∧
      (P.Rounded pts budgetM → pathCost P.cost (path.map (pt pts)) ≤ pathCost P.cost pts + budgetM) := by
  have hroute : ∃ cand s, P.Dense pts cand ∧ P.RouteOver pts cand (centimetres budgetM) path s := by
    obtain ⟨p, hp, hcase⟩ := solve_spec (P := P) hn budgetM eps
    cases hp.symm.trans hpath
    rcases hcase with ⟨-, s, hroute, -⟩ | ⟨-, s, hroute, -⟩
    · exact ⟨_, s, thinIndices_dense hn _ _, hroute⟩
    · exact ⟨_, s, range_dense hn, hroute⟩
  obtain ⟨cand, s, hdense, hroute⟩ := hroute
  obtain ⟨hhead, hlast, hchain⟩ := way_fits hdense hn hroute
  refine ⟨hhead, hlast, hchain, fun hround => ?_⟩
  have hcost := way_cost hdense hn hround.2 hroute
  have hs : (s : 𝕜) ≤ budgetM * 100 :=
    (Int.cast_le.mpr (way_le (centimetres_nonneg budgetM) hroute)).trans hround.1
  rw [pathCost_pts P.cost hn]
  linarith

section
omit [IsStrictOrderedRing 𝕜] [FloorRing 𝕜]

omit [Field 𝕜] in
theorem dropRepeats_head (points : List (𝕜 × 𝕜)) : (dropRepeats points).head? = points.head? := by
  induction points using List.reverseRecOn with
  | nil => rfl
  | append_singleton points p ih =>
    rw [dropRepeats_snoc, List.head?_append, ← ih]
    cases hd : dropRepeats points with
    | nil => simp
    | cons q rest => split_ifs <;> simp

end

/-- The ends stay and the chords are allowed ones; the cost stays within the budget where the rounding
gives nothing away, and a larger budget takes no more waypoints exactly where the fallback keeps it. -/
theorem budget_kept (P : Planner 𝕜) (points : List (𝕜 × 𝕜)) {b b' : 𝕜} (hbb : b ≤ b') (eps : 𝕜) :
    ∃ path path' : List ℕ, P.fewestWaypoints points b eps = some (path.map (pt (dropRepeats points))) ∧
      P.fewestWaypoints points b' eps = some (path'.map (pt (dropRepeats points))) ∧
      (path.map (pt (dropRepeats points))).head? = points.head? ∧
      (path.map (pt (dropRepeats points))).getLast? = points.getLast? ∧
      path.IsChain (P.Fits (dropRepeats points)) ∧
      (P.Rounded (dropRepeats points) b →
        pathCost P.cost (path.map (pt (dropRepeats points))) ≤ pathCost P.cost (dropRepeats points) + b) ∧
      (path'.length ≤ path.length ↔
        P.FallbackKeeps (dropRepeats points) eps (centimetres b) (centimetres b')) := by
  rw [← dropRepeats_head, ← dropRepeats_getLast]
  unfold Planner.fewestWaypoints
  dsimp only
  generalize dropRepeats points = pts
  by_cases hshort : pts.length ≤ 2
  · simp only [if_pos hshort]
    refine ⟨List.range pts.length, List.range pts.length, by rw [map_pt_range], by rw [map_pt_range], ?_, ?_, ?_, ?_, ?_⟩
    · rw [map_pt_range]
    · rw [map_pt_range]
    · rw [isChain_iff_getElem]
      intro k hk
      rw [length_range] at hk
      simp [Planner.Fits, hk]
    · intro hround
      have hnonneg : (0 : 𝕜) ≤ centimetres b := Int.cast_nonneg (centimetres_nonneg b)
      have hb := hnonneg.trans hround.1
      rw [map_pt_range]
      linarith
    · exact iff_of_true le_rfl fun hlong => absurd hlong hshort.not_gt
  · simp only [if_neg hshort]
    have hpos : 0 < pts.length := by omega
    obtain ⟨path, hpath, -⟩ := solve_spec (P := P) hpos b eps
    obtain ⟨path', hpath', -⟩ := solve_spec (P := P) hpos b' eps
    obtain ⟨hhead, hlast, hchain, hcost⟩ := solve_kept hpos hpath
    refine ⟨path, path', by rw [hpath]; rfl, by rw [hpath']; rfl, ?_, ?_, hchain, hcost,
      solve_fewer (by omega) hbb eps hpath hpath'⟩
    · rw [List.head?_map, hhead, List.head?_eq_getElem?]
      simp [pt, hpos]
    · rw [List.getLast?_map, hlast, List.getLast?_eq_getElem?]
      simp [pt, hpos]

/-- A straight lane, seen from few of its points; one chord costs a metre more than the points in between. -/
def lanePlanner : Planner ℚ where
  norm := axisHypot
  visible p q := (p.1 = 0 ∧ (q.1 = 1 / 5 ∨ q.1 = 3 / 10)) ∨ (p.1 = 1 / 5 ∧ q.1 = 1 / 2)
  maxGap := 0
  cost p q := axisHypot.dist p q + if p.1 = 0 ∧ q.1 = 3 / 10 then 1 else 0
  endExtra := 0

theorem budget_kept_lane :
    let pts : List (ℚ × ℚ) := [(0, 0), (1 / 10, 0), (3 / 10, 0)]
    ∃ path path' : List ℕ, lanePlanner.fewestWaypoints pts 1 0 = some (path.map (pt pts)) ∧
      lanePlanner.fewestWaypoints pts 2 0 = some (path'.map (pt pts)) ∧
      pathCost lanePlanner.cost (path.map (pt pts)) ≤ pathCost lanePlanner.cost pts + 1 ∧
      path'.length ≤ path.length := by
  intro pts
  have hpts : dropRepeats pts = pts := by decide +kernel
  have hround : lanePlanner.Rounded pts 1 := by
    refine ⟨by decide +kernel, fun i j w hfits hw => ?_⟩
    obtain ⟨hij, hj, -⟩ := hfits
    have hlen : j < 3 := hj
    have hcases : (i = 0 ∧ j = 1) ∨ (i = 0 ∧ j = 2) ∨ (i = 1 ∧ j = 2) := by omega
    have hall : lanePlanner.slack pts 0 1 = some 0 ∧ lanePlanner.slack pts 0 2 = some 100 ∧
        lanePlanner.slack pts 1 2 = some 0 ∧ lanePlanner.excess pts 0 1 * 100 ≤ (0 : ℤ) ∧
        lanePlanner.excess pts 0 2 * 100 ≤ (100 : ℤ) ∧ lanePlanner.excess pts 1 2 * 100 ≤ (0 : ℤ) := by
      decide +kernel
    obtain ⟨h₁, h₂, h₃, e₁, e₂, e₃⟩ := hall
    rcases hcases with ⟨rfl, rfl⟩ | ⟨rfl, rfl⟩ | ⟨rfl, rfl⟩
    · exact Option.some.inj (h₁.symm.trans hw) ▸ e₁
    · exact Option.some.inj (h₂.symm.trans hw) ▸ e₂
    · exact Option.some.inj (h₃.symm.trans hw) ▸ e₃
  obtain ⟨path, path', hp, hp', -, -, -, hcost, hfewer⟩ :=
    budget_kept lanePlanner pts (show (1 : ℚ) ≤ 2 by norm_num) 0
  rw [hpts] at hp hp' hcost hfewer
  exact ⟨path, path', hp, hp', hcost hround, hfewer.mpr fun _ heps => absurd heps (lt_irrefl 0)⟩

/-- 99.5 cm are taken for a metre; and without a budget the thinned candidates leave no route, so that all
points are used and one waypoint less is needed than with a metre. -/
theorem budget_not_kept :
    let steps : List (ℚ × ℚ) := [(0, 0), (1 / 10, 0), (1 / 5, 0), (3 / 10, 0), (2 / 5, 0), (1 / 2, 0)]
    lanePlanner.fewestWaypoints [(0, 0), (1 / 10, 0), (3 / 10, 0)] (199 / 200) 0 = some [(0, 0), (3 / 10, 0)] ∧
      pathCost lanePlanner.cost [(0, 0), (1 / 10, 0), (3 / 10, 0)] + 199 / 200 <
        pathCost lanePlanner.cost [(0, 0), (3 / 10, 0)] ∧
      lanePlanner.fewestWaypoints steps 0 1 = some [(0, 0), (1 / 5, 0), (1 / 2, 0)] ∧
      lanePlanner.fewestWaypoints steps 1 1 = some [(0, 0), (3 / 10, 0), (2 / 5, 0), (1 / 2, 0)] := by
  decide +kernel

end CloudServer.Waypoints
