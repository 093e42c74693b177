import CloudServer.Waypoints

/-! The dynamic program over all points is exact: fewest waypoints, then least slack, then the first
in order. -/
namespace CloudServer.Waypoints
open ForwardTable List

theorem lt_bisectRight {α : Type} [LinearOrder α] {xs : List α} (hs : xs.Pairwise (· < ·)) {x y : α} {k : ℕ}
    (hy : xs[k]? = some y) : k < bisectRight xs x ↔ y ≤ x := by
  unfold bisectRight
  induction xs generalizing k with
  | nil => simp at hy
  | cons a xs ih =>
    obtain ⟨ha, hs⟩ := pairwise_cons.mp hs
    by_cases hax : a ≤ x
    · rw [takeWhile_cons_of_pos (by simpa using hax), length_cons]
      cases k with
      | zero =>
        cases hy
        exact iff_of_true (Nat.zero_lt_succ _) hax
      | succ k =>
        rw [List.getElem?_cons_succ] at hy
        rw [Nat.succ_lt_succ_iff, ih hs hy]
    · rw [takeWhile_cons_of_neg (by simpa using hax), length_nil]
      refine iff_of_false (Nat.not_lt_zero k) fun hyx => hax ?_
      cases k with
      | zero =>
        cases hy
        exact hyx
      | succ k =>
        rw [List.getElem?_cons_succ] at hy
        exact (ha y (mem_of_getElem? hy)).le.trans hyx

theorem le_of_lt_bisectRight {α : Type} [LinearOrder α] {xs : List α} {x y : α} {k : ℕ}
    (hk : k < bisectRight xs x) (hy : xs[k]? = some y) : y ≤ x := by
  unfold bisectRight at hk
  have hpre : (xs.takeWhile fun y => decide (y ≤ x)) <+: xs := List.takeWhile_prefix _
  obtain ⟨rest, hrest⟩ := hpre
  have hget : (xs.takeWhile fun y => decide (y ≤ x))[k]? = some y := by
    rw [← hrest, List.getElem?_append_left hk] at hy
    exact hy
  simpa using mem_takeWhile_imp (mem_of_getElem? hget)

theorem extend_spec (ok : ℕ → Bool) (fuel e : ℕ) : e ≤ extend ok fuel e ∧
    (∀ m, e < m → m ≤ extend ok fuel e → ok m) ∧ (extend ok fuel e < e + fuel → ¬ok (extend ok fuel e + 1)) := by
  induction fuel generalizing e with
  | zero => exact ⟨le_rfl, fun m h₁ h₂ => absurd h₂ h₁.not_ge, fun h => absurd h (lt_irrefl _)⟩
  | succ fuel ih =>
    unfold extend
    split_ifs with hok
    · obtain ⟨h₁, h₂, h₃⟩ := ih (e + 1)
      refine ⟨by omega, fun m hm hle => ?_, fun hlt => h₃ (by omega)⟩
      rcases Nat.eq_or_lt_of_le hm with rfl | hm
      · exact hok
      · exact h₂ m hm hle
    · exact ⟨le_rfl, fun m h₁ h₂ => absurd h₂ h₁.not_ge, fun _ => hok⟩

variable {𝕜 : Type} [Field 𝕜] [LinearOrder 𝕜] [IsStrictOrderedRing 𝕜] {P : Planner 𝕜} {pts : List (𝕜 × 𝕜)}
  {i j k : ℕ}

omit [LinearOrder 𝕜] [IsStrictOrderedRing 𝕜] in
theorem upTo_succ (f : 𝕜 × 𝕜 → 𝕜 × 𝕜 → 𝕜) (pts : List (𝕜 × 𝕜)) (k : ℕ) :
    upTo f pts (k + 1) = upTo f pts k + f (pt pts k) (pt pts (k + 1)) := by
  simp [upTo, range_succ]

theorem dist_le_arc (hij : i < j) : P.dist pts i j ≤ P.arc pts j - P.arc pts i := by
  induction j, hij using Nat.le_induction with
  | base =>
    unfold Planner.arc
    rw [upTo_succ, add_sub_cancel_left]
    rfl
  | succ j _ ih =>
    have hstep : P.dist pts i (j + 1) ≤ P.dist pts i j + P.dist pts j (j + 1) := by
      have hadd := P.norm.add_le ((pt pts j).1 - (pt pts i).1) ((pt pts j).2 - (pt pts i).2)
        ((pt pts (j + 1)).1 - (pt pts j).1) ((pt pts (j + 1)).2 - (pt pts j).2)
      rw [sub_add_sub_cancel', sub_add_sub_cancel'] at hadd
      exact hadd
    have harc : P.arc pts (j + 1) = P.arc pts j + P.dist pts j (j + 1) := upTo_succ _ _ _
    linarith

/-- Every point after the next one, up to `j`, is within the gap. -/
def Planner.InWindow (P : Planner 𝕜) (pts : List (𝕜 × 𝕜)) (i j : ℕ) : Prop :=
  ∀ m, i + 2 ≤ m → m ≤ j → P.dist pts i m ≤ P.maxGap

theorem windowEnd_spec (hgap : 0 < P.maxGap) (hi : i + 1 < pts.length) :
    i + 1 ≤ P.windowEnd pts i ∧ P.windowEnd pts i ≤ pts.length - 1 ∧ P.InWindow pts i (P.windowEnd pts i) ∧
      (P.windowEnd pts i < pts.length - 1 → P.maxGap < P.dist pts i (P.windowEnd pts i + 1)) := by
  set e₀ := max (i + 1) (min (pts.length - 1)
    (bisectRight ((List.range pts.length).map (P.arc pts)) (P.arc pts i + P.maxGap) - 1)) with he₀
  have hend : P.windowEnd pts i =
      extend (fun k => k ≤ pts.length - 1 ∧ P.dist pts i k ≤ P.maxGap) (pts.length - 1) e₀ := if_pos hgap
  obtain ⟨hle, hok, hstop⟩ := extend_spec (fun k => k ≤ pts.length - 1 ∧ P.dist pts i k ≤ P.maxGap)
    (pts.length - 1) e₀
  rw [← hend] at hle hok hstop
  have hbase : ∀ m, i + 2 ≤ m → m ≤ e₀ → P.dist pts i m ≤ P.maxGap := by
    intro m him hm
    have hlt : m < bisectRight ((List.range pts.length).map (P.arc pts)) (P.arc pts i + P.maxGap) := by omega
    have hget : ((List.range pts.length).map (P.arc pts))[m]? = some (P.arc pts m) := by
      rw [List.getElem?_map, List.getElem?_range (by omega)]
      rfl
    have harc := le_of_lt_bisectRight hlt hget
    have hchord : P.dist pts i m ≤ P.arc pts m - P.arc pts i := dist_le_arc (by omega)
    linarith
  have htop : P.windowEnd pts i ≤ pts.length - 1 := by
    rcases hle.eq_or_lt with heq | hlt
    · omega
    · exact (of_decide_eq_true (hok _ hlt le_rfl)).1
  refine ⟨by omega, htop, ?_, ?_⟩
  · intro m him hm
    rcases le_or_gt m e₀ with hm' | hm'
    · exact hbase m him hm'
    · exact (of_decide_eq_true (hok m hm' hm)).2
  · intro hlt
    by_contra hgap'
    refine hstop (by omega) ?_
    simp only [decide_eq_true_eq]
    exact ⟨by omega, not_lt.mp hgap'⟩

theorem le_windowEnd (hgap : 0 < P.maxGap) (hij : i < j) (hj : j < pts.length) :
    j ≤ P.windowEnd pts i ↔ j = i + 1 ∨ P.InWindow pts i j := by
  have hi : i + 1 < pts.length := by omega
  obtain ⟨h₁, h₂, h₃, h₄⟩ := windowEnd_spec hgap hi
  constructor
  · intro hle
    exact Or.inr fun m him hm => h₃ m him (hm.trans hle)
  · rintro (rfl | hwin)
    · exact h₁
    · by_contra hlt
      rcases Nat.eq_or_lt_of_le hij with rfl | hij
      · exact hlt h₁
      · exact (h₄ (by omega)).not_ge (hwin _ (by omega) (by omega))

section
omit [IsStrictOrderedRing 𝕜]
variable {cand : List ℕ} {budget w : ℤ}

theorem lt_windowEnd (hgap : 0 < P.maxGap) : i < P.windowEnd pts i := by
  have hend : P.windowEnd pts i = extend (fun k => k ≤ pts.length - 1 ∧ P.dist pts i k ≤ P.maxGap) (pts.length - 1)
      (max (i + 1) (min (pts.length - 1)
        (bisectRight ((List.range pts.length).map (P.arc pts)) (P.arc pts i + P.maxGap) - 1))) := if_pos hgap
  rw [hend]
  exact (le_max_left _ _).trans (extend_spec _ _ _).1

theorem mem_inside (hs : cand.Pairwise (· < ·)) {stop : ℕ} :
    j ∈ (cand.drop (bisectRight cand i)).take (bisectRight cand stop - bisectRight cand i) ↔ j ∈ cand ∧ i < j ∧ j ≤ stop := by
  rw [mem_iff_getElem?]
  simp only [List.getElem?_take, List.getElem?_drop]
  constructor
  · rintro ⟨k, hk⟩
    split_ifs at hk with hlt
    have hnot := mt (lt_bisectRight hs hk (x := i)).mpr (by omega)
    exact ⟨mem_of_getElem? hk, not_le.mp hnot, (lt_bisectRight hs hk).mp (by omega)⟩
  · rintro ⟨hj, hij, hstop⟩
    obtain ⟨k, hk⟩ := mem_iff_getElem?.mp hj
    have hlo := mt (lt_bisectRight hs hk (x := i)).mp hij.not_ge
    have hhi := (lt_bisectRight hs hk).mpr hstop
    refine ⟨k - bisectRight cand i, ?_⟩
    rw [if_pos (by omega), show bisectRight cand i + (k - bisectRight cand i) = k by omega]
    exact hk

/-- The next candidate after `i`. -/
def Next (cand : List ℕ) (i j : ℕ) : Prop := cand[bisectRight cand i]? = some j

theorem Next.lt (hs : cand.Pairwise (· < ·)) (h : Next cand i j) : i < j :=
  not_le.mp (mt (lt_bisectRight hs h (x := i)).mpr (lt_irrefl _))

def Planner.LastTried (P : Planner 𝕜) (pts : List (𝕜 × 𝕜)) (i : ℕ) : Prop :=
  0 < P.maxGap ∧ P.windowEnd pts i < pts.length - 1 ∧ P.dist pts i (pts.length - 1) ≤ P.maxGap + P.endExtra

theorem mem_candidates (hs : cand.Pairwise (· < ·)) : j ∈ P.candidates pts cand i ↔
    (j ∈ cand ∧ i < j ∧ j ≤ P.windowEnd pts i) ∨ (P.LastTried pts i ∧ j = pts.length - 1) ∨
      (¬P.LastTried pts i ∧ (∀ k ∈ cand, i < k → P.windowEnd pts i < k) ∧ Next cand i j) := by
  unfold Planner.candidates
  dsimp only
  set inside := (cand.drop (bisectRight cand i)).take (bisectRight cand (P.windowEnd pts i) - bisectRight cand i)
    with hinside
  have hmem : ∀ k, k ∈ inside ↔ k ∈ cand ∧ i < k ∧ k ≤ P.windowEnd pts i := fun k => mem_inside hs
  have hnil : inside = [] ↔ ∀ k ∈ cand, i < k → P.windowEnd pts i < k := by
    rw [eq_nil_iff_forall_not_mem]
    constructor
    · intro h k hk hik
      exact not_le.mp fun hle => h k ((hmem k).mpr ⟨hk, hik, hle⟩)
    · intro h k hk
      obtain ⟨hk, hik, hle⟩ := (hmem k).mp hk
      exact (h k hk hik).not_ge hle
  have hlast : P.LastTried pts i → inside.getLast? ≠ some (pts.length - 1) := by
    intro hl he
    have hle := ((hmem _).mp (mem_of_getLast? he)).2.2
    exact hle.not_gt hl.2.1
  by_cases hl : P.LastTried pts i
  · rw [if_pos ⟨hl, hlast hl⟩, mem_append, mem_singleton, hmem]
    simp [hl]
  · rw [if_neg fun h => hl h.1]
    split_ifs with hempty
    · have hnone : ¬(j ∈ cand ∧ i < j ∧ j ≤ P.windowEnd pts i) := by
        intro h
        have hj := (hmem j).mpr h
        rw [hempty] at hj
        cases hj
      rw [Option.mem_toList]
      constructor
      · intro h
        exact Or.inr (Or.inr ⟨hl, hnil.mp hempty, h⟩)
      · rintro (h | ⟨h, -⟩ | ⟨-, -, h⟩)
        · exact absurd h hnone
        · exact absurd h hl
        · exact h
    · rw [hmem]
      have hne := mt hnil.mpr hempty
      simp only [hl, false_and, not_false_eq_true, true_and, false_or]
      refine (or_iff_left ?_).symm
      rintro ⟨h, -⟩
      exact hne h

theorem candidates_lt (hs : cand.Pairwise (· < ·)) (hj : j ∈ P.candidates pts cand i) : i < j := by
  rcases (mem_candidates hs).mp hj with ⟨-, h, -⟩ | ⟨h, rfl⟩ | ⟨-, -, h⟩
  · exact h
  · exact (lt_windowEnd h.1).trans h.2.1
  · exact h.lt hs

theorem candidates_nodup (hs : cand.Pairwise (· < ·)) : (P.candidates pts cand i).Nodup := by
  have hnodup : ((cand.drop (bisectRight cand i)).take (bisectRight cand (P.windowEnd pts i) -
      bisectRight cand i)).Nodup :=
    (hs.imp ne_of_lt).sublist ((take_sublist _ _).trans (drop_sublist _ _))
  unfold Planner.candidates
  dsimp only
  split_ifs with hl hempty
  · refine nodup_append.mpr ⟨hnodup, nodup_singleton _, ?_⟩
    rintro k hk m hm rfl
    obtain rfl := mem_singleton.mp hm
    exact ((mem_inside hs).mp hk).2.2.not_gt hl.1.2.1
  · cases cand[bisectRight cand i]? with
    | none => exact nodup_nil
    | some k => exact nodup_singleton k
  · exact hnodup

variable [FloorRing 𝕜]

theorem mem_chords (hs : cand.Pairwise (· < ·)) : (j, w) ∈ P.chords pts cand budget i ↔
    j ∈ P.candidates pts cand i ∧ P.slack pts i j = some w ∧ w ≤ budget := by
  unfold Planner.chords
  dsimp only
  rw [mem_filterMap]
  have hskip : ∀ k ∈ P.candidates pts cand i, ¬(k ≠ i + 1 ∧ P.windowEnd pts i < k ∧
      cand[bisectRight cand i]? ≠ some k ∧ ¬(k = pts.length - 1 ∧ (0 < P.maxGap ∧
        P.windowEnd pts i < pts.length - 1 ∧ P.dist pts i (pts.length - 1) ≤ P.maxGap + P.endExtra))) := by
    rintro k hk ⟨-, h₁, h₂, h₃⟩
    rcases (mem_candidates hs).mp hk with ⟨-, -, hle⟩ | ⟨hl, hk'⟩ | ⟨-, -, hnext⟩
    · exact hle.not_gt h₁
    · exact h₃ ⟨hk', hl⟩
    · exact h₂ hnext
  constructor
  · rintro ⟨k, hk, he⟩
    rw [if_neg (hskip k hk)] at he
    obtain ⟨v, hv, he⟩ := Option.map_eq_some_iff.mp he
    obtain ⟨hv, hle⟩ := Option.filter_eq_some_iff.mp hv
    obtain ⟨rfl, rfl⟩ := Prod.ext_iff.mp he
    exact ⟨hk, hv, of_decide_eq_true hle⟩
  · rintro ⟨hj, hw, hle⟩
    refine ⟨j, hj, ?_⟩
    rw [if_neg (hskip j hj), hw]
    simp [hle]

theorem chords_forward (hs : cand.Pairwise (· < ·)) : Forward (P.chords pts cand budget) where
  lt hc := candidates_lt hs ((mem_chords hs).mp hc).1
  once i := by
    have hpair : (P.chords pts cand budget i).Pairwise fun c d => c.1 ≠ d.1 := by
      unfold Planner.chords
      refine List.Pairwise.filterMap _ ?_ (candidates_nodup hs)
      have hfst : ∀ {q : Prop} [Decidable q] {k : ℕ} {c : ℕ × ℤ}, (if q then none
          else ((P.slack pts i k).filter fun s => s ≤ budget).map fun s => (k, s)) = some c → c.1 = k := by
        intro q _ k c hc
        split_ifs at hc
        obtain ⟨v, -, rfl⟩ := Option.map_eq_some_iff.mp hc
        rfl
      intro k l hkl c hc d hd
      rw [hfst hc, hfst hd]
      exact hkl
    exact pairwise_map.mpr hpair

end

/-- A chord is allowed to the next point, and to a visible one in the window, or the last point when
it is not much beyond the gap. -/
def Planner.Allowed (P : Planner 𝕜) (pts : List (𝕜 × 𝕜)) (i j : ℕ) : Prop :=
  i < j ∧ j < pts.length ∧ (j = i + 1 ∨ (P.visible (pt pts i) (pt pts j) ∧
    (P.maxGap ≤ 0 ∨ P.InWindow pts i j ∨ (j = pts.length - 1 ∧ P.dist pts i j ≤ P.maxGap + P.endExtra))))

variable [FloorRing 𝕜] {budget s w : ℤ} {path : List ℕ}

/-- A sequence of points from the first one over allowed chords, with the sum of their slacks; the
slacks and their sums up to each point are as given. -/
inductive Planner.Route (P : Planner 𝕜) (pts : List (𝕜 × 𝕜)) (within : ℤ → Prop) : List ℕ → ℕ → ℤ → Prop
  | start : Route P pts within [0] 0 0
  | chord {path : List ℕ} {i j : ℕ} {s w : ℤ} (h : Route P pts within path i s) (ha : P.Allowed pts i j)
      (hw : P.slack pts i j = some w) (hb : within w) (hs : within (s + w)) :
      Route P pts within (path ++ [j]) j (s + w)

theorem range_sorted (n : ℕ) : (List.range n).Pairwise (· < ·) := pairwise_lt_range

theorem mem_chords_range (hi : i + 1 < pts.length) : (j, w) ∈ P.chords pts (List.range pts.length) budget i ↔
    P.Allowed pts i j ∧ P.slack pts i j = some w ∧ w ≤ budget := by
  rw [mem_chords (range_sorted _), mem_candidates (range_sorted _)]
  have hsome : ∀ w, P.slack pts i j = some w → j = i + 1 ∨ P.visible (pt pts i) (pt pts j) := by
    intro w hw
    unfold Planner.slack at hw
    split_ifs at hw with h₁ h₂
    · exact Or.inl h₁
    · exact Or.inr h₂
  have hstop : i + 1 ≤ P.windowEnd pts i := by
    by_cases hgap : 0 < P.maxGap
    · exact (windowEnd_spec hgap hi).1
    · unfold Planner.windowEnd
      dsimp only
      rw [if_neg hgap]
      omega
  have hnext : ¬∀ k ∈ List.range pts.length, i < k → P.windowEnd pts i < k :=
    fun h => (h (i + 1) (mem_range.mpr hi) i.lt_succ_self).not_ge hstop
  rw [← and_assoc (b := P.slack pts i j = some w), ← and_assoc (b := P.slack pts i j = some w)]
  refine and_congr_left fun _ => ?_
  simp only [mem_range]
  constructor
  · rintro ⟨⟨hj, hij, hle⟩ | ⟨hl, rfl⟩ | ⟨-, hall, -⟩, hw⟩
    · refine ⟨⟨hij, hj, ?_⟩, hw⟩
      by_cases hgap : 0 < P.maxGap
      · rcases (le_windowEnd hgap hij hj).mp hle with h | h
        · exact Or.inl h
        · exact (hsome w hw).imp id fun hv => ⟨hv, Or.inr (Or.inl h)⟩
      · exact (hsome w hw).imp id fun hv => ⟨hv, Or.inl (not_lt.mp hgap)⟩
    · have hlt := hl.2.1
      refine ⟨⟨by omega, by omega, ?_⟩, hw⟩
      exact (hsome w hw).imp id fun hv => ⟨hv, Or.inr (Or.inr ⟨rfl, hl.2.2⟩)⟩
    · exact absurd (fun k hk => hall k (mem_range.mp hk)) hnext
  · rintro ⟨⟨hij, hj, ha⟩, hw⟩
    refine ⟨?_, hw⟩
    by_cases hgap : 0 < P.maxGap
    · by_cases hle : j ≤ P.windowEnd pts i
      · exact Or.inl ⟨hj, hij, hle⟩
      · rw [le_windowEnd hgap hij hj, not_or] at hle
        rcases ha with h | ⟨-, h | h | ⟨rfl, hd⟩⟩
        · exact absurd h hle.1
        · exact absurd hgap h.not_gt
        · exact absurd h hle.2
        · refine Or.inr (Or.inl ⟨⟨hgap, ?_, hd⟩, rfl⟩)
          by_contra hfull
          exact hle.2 fun m him hm => (windowEnd_spec hgap hi).2.2.1 m him (by omega)
    · refine Or.inl ⟨hj, hij, ?_⟩
      unfold Planner.windowEnd
      dsimp only
      rw [if_neg hgap]
      omega

theorem way_iff_route {n : ℕ} (hn : n = pts.length) :
    Way (P.chords pts (List.range n) budget) budget (List.range n).dropLast path j s ↔ P.Route pts (· ≤ budget) path j s := by
  subst hn
  have hsource : ∀ i, i ∈ (List.range pts.length).dropLast ↔ i + 1 < pts.length := by
    intro i
    rw [dropLast_eq_take, length_range, take_range, mem_range]
    omega
  constructor
  · intro h
    induction h with
    | start => exact .start
    | chord _ hi hc hs ih =>
      obtain ⟨ha, hw, hb⟩ := (mem_chords_range ((hsource _).mp hi)).mp hc
      exact ih.chord ha hw hb hs
  · intro h
    induction h with
    | start => exact .start
    | chord _ ha hw hb hs ih =>
      have hlt := ha.1
      have hlen := ha.2.1
      exact ih.chord ((hsource _).mpr (by omega)) ((mem_chords_range (by omega)).mpr ⟨ha, hw, hb⟩) hs

section
omit [IsStrictOrderedRing 𝕜] [FloorRing 𝕜]

section
omit [Field 𝕜]

theorem dropRepeats_snoc (points : List (𝕜 × 𝕜)) (p : 𝕜 × 𝕜) : dropRepeats (points ++ [p]) =
    if (dropRepeats points).getLast? = some p then dropRepeats points else dropRepeats points ++ [p] := by
  unfold dropRepeats
  rw [foldl_append]
  rfl

theorem dropRepeats_getLast (points : List (𝕜 × 𝕜)) : (dropRepeats points).getLast? = points.getLast? := by
  induction points using List.reverseRecOn with
  | nil => rfl
  | append_singleton points p ih =>
    rw [dropRepeats_snoc, List.getLast?_concat]
    split_ifs with h
    · exact h
    · rw [List.getLast?_concat]

theorem dropRepeats_ne_nil {points : List (𝕜 × 𝕜)} (h : points ≠ []) : dropRepeats points ≠ [] := by
  intro hnil
  have hlast := dropRepeats_getLast points
  rw [hnil, List.getLast?_nil, eq_comm, List.getLast?_eq_none_iff] at hlast
  exact h hlast

end

omit [LinearOrder 𝕜] in
theorem map_pt_range (pts : List (𝕜 × 𝕜)) : (List.range pts.length).map (pt pts) = pts := by
  refine ext_getElem (by simp) fun k h₁ h₂ => ?_
  simp [pt, h₂]

end

variable {within : ℤ → Prop}

section
omit [IsStrictOrderedRing 𝕜]

theorem slack_next (P : Planner 𝕜) (pts : List (𝕜 × 𝕜)) (i : ℕ) : P.slack pts i (i + 1) = some 0 := if_pos rfl

theorem Planner.Route.zero (h : P.Route pts within path 0 s) : path = [0] ∧ s = 0 := by
  generalize hj : 0 = j at h
  cases h with
  | start => exact ⟨rfl, rfl⟩
  | chord _ ha _ _ _ => exact absurd ha.1 (by omega)

theorem Planner.Route.one (h : P.Route pts within path 1 s) : path = [0, 1] ∧ s = 0 := by
  generalize hj : 1 = j at h
  cases h with
  | start => cases hj
  | @chord path i j s w h ha hw _ _ =>
    subst hj
    have hi : i = 0 := by
      have := ha.1
      omega
    subst hi
    obtain ⟨rfl, rfl⟩ := h.zero
    rw [slack_next] at hw
    cases hw
    exact ⟨rfl, rfl⟩

theorem route_range (h0 : within 0) (k : ℕ) (hk : k < pts.length) :
    P.Route pts within (List.range (k + 1)) k 0 := by
  induction k with
  | zero => exact .start
  | succ k ih =>
    rw [range_succ]
    exact (ih (by omega)).chord (w := 0) ⟨k.lt_succ_self, hk, Or.inl rfl⟩ (slack_next P pts k) h0 (by simpa using h0)

variable {within' : ℤ → Prop}

theorem Planner.Route.mono (hw : ∀ s, within s → within' s)
    (h : P.Route pts within path j s) : P.Route pts within' path j s := by
  induction h with
  | start => exact .start
  | chord _ ha hs hb hsum ih => exact ih.chord ha hs (hw _ hb) (hw _ hsum)

end

theorem slack_nonneg (hc : ∀ p q, 0 ≤ P.cost p q) (hij : i < j) (hw : P.slack pts i j = some w) : 0 ≤ w := by
  have hmono : ∀ m, upTo P.cost pts i ≤ upTo P.cost pts (i + m) := by
    intro m
    induction m with
    | zero => exact le_rfl
    | succ m ih =>
      rw [← add_assoc, upTo_succ]
      exact ih.trans (le_add_of_nonneg_right (hc _ _))
  have href : 0 ≤ upTo P.cost pts j - upTo P.cost pts i := by
    have h := hmono (j - i)
    rw [Nat.add_sub_cancel' hij.le] at h
    exact sub_nonneg.mpr h
  unfold Planner.slack at hw
  dsimp only at hw
  split_ifs at hw with h₁ h₂ h₃
  · exact (Option.some.inj hw).le
  · exact (Option.some.inj hw).le
  · rw [← Option.some.inj hw]
    refine Int.ceil_nonneg ?_
    have htol : (0 : 𝕜) < 1 / 10 ^ 9 := by positivity
    have hmul := mul_nonneg href htol.le
    linarith

theorem Planner.Route.nonneg (hc : ∀ p q, 0 ≤ P.cost p q) (h : P.Route pts within path j s) :
    0 ≤ s := by
  induction h with
  | start => exact le_rfl
  | chord _ ha hw _ _ ih => exact add_nonneg ih (slack_nonneg hc ha.1 hw)

theorem route_iff_total (hc : ∀ p q, 0 ≤ P.cost p q) (hb : 0 ≤ budget) : P.Route pts (· ≤ budget) path j s ↔
    P.Route pts (fun _ => True) path j s ∧ s ≤ budget := by
  constructor
  · intro h
    refine ⟨h.mono fun _ _ => trivial, ?_⟩
    cases h with
    | start => exact hb
    | chord _ _ _ _ hs => exact hs
  · rintro ⟨h, hs⟩
    induction h with
    | start => exact .start
    | chord h ha hw _ _ ih =>
      have hpos := slack_nonneg hc ha.1 hw
      have hsum := h.nonneg hc
      exact (ih (by omega)).chord ha hw (by omega) hs

omit [IsStrictOrderedRing 𝕜] in
theorem centimetres_nonneg (budgetM : 𝕜) : 0 ≤ (centimetres budgetM : ℤ) := le_max_left _ _

/-- Of the routes the first in rank is returned: the fewest chords, then the least slack, then the
order of the points. -/
theorem fewest_exact (P : Planner 𝕜) {points : List (𝕜 × 𝕜)} (hne : points ≠ []) (budgetM : 𝕜) :
    (∃ path s, P.fewestWaypoints points budgetM 0 = some (path.map (pt (dropRepeats points))) ∧
      P.Route (dropRepeats points) (· ≤ centimetres budgetM) path ((dropRepeats points).length - 1) s ∧
      ∀ path' s', P.Route (dropRepeats points) (· ≤ centimetres budgetM) path' ((dropRepeats points).length - 1) s' →
        rank path s ≤ rank path' s') ∧
    ((∀ p q, 0 ≤ P.cost p q) → ∀ path j s, P.Route (dropRepeats points) (· ≤ centimetres budgetM) path j s ↔
      P.Route (dropRepeats points) (fun _ => True) path j s ∧ s ≤ centimetres budgetM) := by
  refine ⟨?_, fun hc path j s => route_iff_total hc (centimetres_nonneg budgetM)⟩
  have hpos := length_pos_of_ne_nil (dropRepeats_ne_nil hne)
  unfold Planner.fewestWaypoints
  dsimp only
  generalize dropRepeats points = pts at hpos
  have hrange : List.range (pts.length - 1 + 1) = List.range pts.length := by rw [Nat.sub_add_cancel hpos]
  have hlattice : P.Route pts (· ≤ centimetres budgetM) (List.range pts.length) (pts.length - 1) 0 :=
    hrange ▸ route_range (centimetres_nonneg budgetM) (pts.length - 1) (by omega)
  split_ifs with hshort
  · refine ⟨List.range pts.length, 0, by rw [map_pt_range], hlattice, fun path' s' h => ?_⟩
    have hlen : pts.length = 1 ∨ pts.length = 2 := by omega
    rcases hlen with hlen | hlen
    · rw [hlen] at h ⊢
      obtain ⟨rfl, rfl⟩ := h.zero
      exact le_rfl
    · rw [hlen] at h ⊢
      obtain ⟨rfl, rfl⟩ := h.one
      exact le_rfl
  · have hdp : P.solve pts budgetM 0 = P.budgetDp pts (List.range pts.length) (centimetres budgetM) :=
      if_neg (lt_irrefl 0)
    have hforward : Forward (P.chords pts (List.range pts.length) (centimetres budgetM)) :=
      chords_forward (range_sorted pts.length)
    have hholds : Holds _ (centimetres budgetM) _ _ :=
      table_holds hforward ((range_sorted pts.length).sublist (dropLast_sublist _))
    have hspec := choose_spec hholds (pts.length - 1)
    rw [hdp]
    unfold Planner.budgetDp
    simp only [way_iff_route rfl] at hspec
    revert hspec
    cases choose (table (P.chords pts (List.range pts.length) (centimetres budgetM)) (centimetres budgetM)
      (List.range pts.length).dropLast (pts.length - 1)) with
    | none =>
      intro hspec
      exact absurd hlattice (hspec _ _)
    | some path =>
      rintro ⟨s, hroute, hmin⟩
      exact ⟨path, s, rfl, hroute, hmin⟩

/-- The sum of the coordinates, which is the hypotenuse of vectors along an axis. -/
def axisHypot : Hypot ℚ where
  hypot a b := |a| + |b|
  nonneg a b := add_nonneg (abs_nonneg a) (abs_nonneg b)
  add_le a b c d := by
    have h₁ := abs_add_le a c
    have h₂ := abs_add_le b d
    linarith

def axisPlanner : Planner ℚ := ⟨axisHypot, fun _ _ => true, 2, axisHypot.dist, 0⟩

theorem fewest_exact_axis : ∃ path s,
    axisPlanner.fewestWaypoints [(0, 0), (1, 0), (2, 0), (3, 0)] 0 0 =
      some (path.map (pt (dropRepeats [(0, 0), (1, 0), (2, 0), (3, 0)]))) ∧
    axisPlanner.Route (dropRepeats [(0, 0), (1, 0), (2, 0), (3, 0)]) (· ≤ centimetres (0 : ℚ)) path 3 s ∧
    ∀ path' s', axisPlanner.Route (dropRepeats [(0, 0), (1, 0), (2, 0), (3, 0)]) (· ≤ centimetres (0 : ℚ)) path' 3 s' →
      rank path s ≤ rank path' s' :=
  (fewest_exact axisPlanner (by simp) 0).1

/-- The way leaves the gap and comes back: the chord from the first to the fourth point is visible and
no longer than the gap, and is not tried. -/
theorem chord_not_tried :
    let pts : List (ℚ × ℚ) := [(0, 0), (1, 0), (5, 0), (2, 0), (9, 0)]
    axisPlanner.fewestWaypoints pts 0 0 = some [(0, 0), (1, 0), (2, 0), (9, 0)] ∧
      axisPlanner.visible (pt pts 0) (pt pts 3) ∧ axisPlanner.dist pts 0 3 ≤ axisPlanner.maxGap ∧
      axisPlanner.slack pts 0 3 = some 0 ∧ axisPlanner.slack pts 3 4 = some 0 := by
  decide +kernel

end CloudServer.Waypoints
