import CloudServer.LatticeTrail

/-! The place rule: a region of the navigable set is a place when the robot fits in it or has driven
through it. The length that was driven is measured by two searches for shortest paths. -/
namespace CloudServer.PlaceRule
open LatticeTrail List

variable {𝕜 : Type} [Field 𝕜] [LinearOrder 𝕜]

def TOL : 𝕜 := 1 / 10 ^ 9

/-- scipy's `dijkstra`: arcs and a source give a distance to every node; `none` is infinite. -/
abbrev Dijkstra (𝕜 : Type) := List (ℕ × ℕ × 𝕜) → ℕ → ℕ → Option 𝕜

/-- The arcs lead from the source to a node at cost `d`. -/
inductive Path (arcs : List (ℕ × ℕ × 𝕜)) (source : ℕ) : ℕ → 𝕜 → Prop
  | source : Path arcs source source 0
  | arc {i j : ℕ} {d w : 𝕜} (h : Path arcs source i d) (he : (i, j, w) ∈ arcs) : Path arcs source j (d + w)

def Dijkstra.Exact (dijkstra : Dijkstra 𝕜) : Prop :=
  ∀ arcs source i d, dijkstra arcs source i = some d ↔ IsLeast {d | Path arcs source i d} d

/-- Half of the steps to the eight neighbours; the others are these taken back. -/
def steps : List (ℤ × ℤ) := [(0, 1), (1, 0), (1, 1), (1, -1)]

variable (dijkstra : Dijkstra 𝕜) (root h : 𝕜)

def arcs (cells : List (ℤ × ℤ)) : List (ℕ × ℕ × 𝕜) :=
  cells.zipIdx.flatMap fun e => steps.flatMap fun (s : ℤ × ℤ) =>
    match cells.idxOf? (e.1.1 + s.1, e.1.2 + s.2) with
    | none => []
    | some j =>
      let w := h * (if s.1 ≠ 0 ∧ s.2 ≠ 0 then root else 1)
      [(e.2, j, w), (j, e.2, w)]

def argmax (values : List 𝕜) : ℕ :=
  match values.max? with
  | some m => values.idxOf m
  | none => 0

/-- `root` is the cost of a diagonal step, `SQRT2`. -/
def geodesicSpan (cells : List (ℤ × ℤ)) : 𝕜 :=
  let n := cells.length
  if n < 2 then 0
  else
    let graph := arcs root h cells
    let first := (List.range n).map (dijkstra graph 0)
    let a := argmax (first.map fun d => d.getD (-1))
    let second := (List.range n).map (dijkstra graph a)
    ((second.filterMap id).max?).getD 0

structure Cell (𝕜 : Type) where
  y : ℤ
  x : ℤ
  f : 𝕜
  region : ℕ
  driven : Bool

def Cell.at (c : Cell 𝕜) : ℤ × ℤ := (c.y, c.x)

/-- `keep[cells] = True` for the cells of a region. -/
def mark (cells : List (Cell 𝕜)) (keep : List Bool) (r : ℕ) : List Bool :=
  (cells.zip keep).map fun e => if e.1.region = r then true else e.2

variable (peak path : 𝕜)

def decideRegion (cells : List (Cell 𝕜)) (keep : List Bool) (r : ℕ) : List Bool :=
  let members := cells.filter fun c => c.region = r
  match (members.map Cell.f).max? with
  | none => keep
  | some top =>
    if peak - TOL ≤ top then mark cells keep r
    else
      let driven := members.filter Cell.driven
      if driven ≠ [] ∧ path - TOL ≤ geodesicSpan dijkstra root h (driven.map Cell.at) then mark cells keep r
      else keep

def placeRegions (cells : List (Cell 𝕜)) : List Bool :=
  (List.range (((cells.map Cell.region).max?).elim 0 (· + 1))).foldl (decideRegion dijkstra root h peak path cells)
    (List.replicate cells.length false)

variable {dijkstra} {root h} {cells : List (ℤ × ℤ)} {u v w : ℤ × ℤ} {i j : ℕ} {d e : 𝕜}

def Step (root h : 𝕜) (u v : ℤ × ℤ) (w : 𝕜) : Prop := (Straight u v ∧ w = h) ∨ (Diagonal u v ∧ w = h * root)

omit [LinearOrder 𝕜] in
theorem step_iff : Step root h u v d ↔
    ∃ s ∈ steps, d = h * (if s.1 ≠ 0 ∧ s.2 ≠ 0 then root else 1) ∧
      (v = (u.1 + s.1, u.2 + s.2) ∨ u = (v.1 + s.1, v.2 + s.2)) := by
  simp only [steps, mem_cons, not_mem_nil, or_false, exists_eq_or_imp, exists_eq_left]
  simp only [Step, Straight, Diagonal, abs_eq zero_le_one, Prod.ext_iff]
  norm_num
  constructor
  · rintro (⟨hs, rfl⟩ | ⟨hs, rfl⟩)
    · simp only [true_and]
      omega
    · simp only [true_and]
      omega
  · rintro (⟨rfl, hs⟩ | ⟨rfl, hs⟩ | ⟨rfl, hs⟩ | ⟨rfl, hs⟩)
    · exact Or.inl ⟨by omega, rfl⟩
    · exact Or.inl ⟨by omega, rfl⟩
    · exact Or.inr ⟨by omega, rfl⟩
    · exact Or.inr ⟨by omega, rfl⟩

theorem idxOf?_iff (hn : cells.Nodup) : cells.idxOf? u = some i ↔ cells[i]? = some u := by
  rw [List.idxOf?_eq_some_iff]
  constructor
  · rintro ⟨hi, rfl, -⟩
    exact List.getElem?_eq_getElem hi
  · intro hu
    obtain ⟨hi, rfl⟩ := List.getElem?_eq_some_iff.mp hu
    refine ⟨hi, rfl, fun j hj he => ?_⟩
    exact hj.ne ((hn.getElem_inj_iff).mp he)

omit [LinearOrder 𝕜] in
theorem mem_arcs (hn : cells.Nodup) : (i, j, d) ∈ arcs root h cells ↔
    ∃ u v, cells[i]? = some u ∧ cells[j]? = some v ∧ Step root h u v d := by
  simp only [arcs, mem_flatMap, step_iff]
  constructor
  · rintro ⟨⟨u, k⟩, hu, s, hs, hmem⟩
    have hu := mem_zipIdx_iff_getElem?.mp hu
    dsimp only at hu hmem
    cases hv : cells.idxOf? (u.1 + s.1, u.2 + s.2) with
    | none =>
      rw [hv] at hmem
      simp at hmem
    | some l =>
      rw [hv] at hmem
      have hv := (idxOf?_iff hn).mp hv
      simp only [mem_cons, Prod.mk.injEq, not_mem_nil, or_false] at hmem
      rcases hmem with ⟨rfl, rfl, rfl⟩ | ⟨rfl, rfl, rfl⟩
      · exact ⟨u, _, hu, hv, s, hs, rfl, Or.inl rfl⟩
      · exact ⟨_, u, hv, hu, s, hs, rfl, Or.inr rfl⟩
  · rintro ⟨u, v, hu, hv, s, hs, rfl, rfl | rfl⟩
    · refine ⟨(u, i), mem_zipIdx_iff_getElem?.mpr hu, s, hs, ?_⟩
      rw [(idxOf?_iff hn).mpr hv]
      exact mem_cons_self
    · refine ⟨(v, j), mem_zipIdx_iff_getElem?.mpr hv, s, hs, ?_⟩
      rw [(idxOf?_iff hn).mpr hu]
      exact mem_cons_of_mem _ mem_cons_self

theorem index_unique (hn : cells.Nodup) (hi : cells[i]? = some u) (hj : cells[j]? = some u) : i = j :=
  Option.some.inj (((idxOf?_iff hn).mpr hi).symm.trans ((idxOf?_iff hn).mpr hj))

section
omit [LinearOrder 𝕜]

theorem path_of_trail {s t : ℕ} (hn : cells.Nodup) (ht : Trail (· ∈ cells) u v s t) (hu : cells[i]? = some u)
    (hv : cells[j]? = some v) : Path (arcs root h cells) i j (cost root h s t) := by
  induction ht generalizing j with
  | here _ =>
    obtain rfl := index_unique hn hu hv
    have hzero : cost root h 0 0 = 0 := by simp [cost]
    rw [hzero]
    exact .source
  | @straight v w s t hprev hstep hw ih =>
    obtain ⟨k, hk⟩ := mem_iff_getElem?.mp hprev.mem
    have hcost : cost root h (s + 1) t = cost root h s t + h := by
      unfold cost
      push_cast
      ring
    rw [hcost]
    exact .arc (ih hk) ((mem_arcs hn).mpr ⟨v, w, hk, hv, Or.inl ⟨hstep, rfl⟩⟩)
  | @diagonal v w s t hprev hstep hw ih =>
    obtain ⟨k, hk⟩ := mem_iff_getElem?.mp hprev.mem
    have hcost : cost root h s (t + 1) = cost root h s t + h * root := by
      unfold cost
      push_cast
      ring
    rw [hcost]
    exact .arc (ih hk) ((mem_arcs hn).mpr ⟨v, w, hk, hv, Or.inr ⟨hstep, rfl⟩⟩)

theorem trail_of_path (hn : cells.Nodup) (hp : Path (arcs root h cells) i j d) (hu : cells[i]? = some u) :
    ∃ v s t, cells[j]? = some v ∧ Trail (· ∈ cells) u v s t ∧ cost root h s t = d := by
  induction hp with
  | source => exact ⟨u, 0, 0, hu, .here (mem_of_getElem? hu), by simp [cost]⟩
  | arc _ he ih =>
    obtain ⟨v, s, t, hv, ht, rfl⟩ := ih
    obtain ⟨v', w, hv', hw, hstep⟩ := (mem_arcs hn).mp he
    cases hv.symm.trans hv'
    have hmem := mem_of_getElem? hw
    rcases hstep with ⟨hstep, rfl⟩ | ⟨hstep, rfl⟩
    · refine ⟨w, s + 1, t, hw, ht.straight hstep hmem, ?_⟩
      unfold cost
      push_cast
      ring
    · refine ⟨w, s, t + 1, hw, ht.diagonal hstep hmem, ?_⟩
      unfold cost
      push_cast
      ring

end

theorem dijkstra_iff (hd : Dijkstra.Exact dijkstra) (hn : cells.Nodup) (hu : cells[i]? = some u) (hv : cells[j]? = some v) :
    dijkstra (arcs root h cells) i j = some d ↔ Distance root h (· ∈ cells) u v d := by
  have hset : {d | Path (arcs root h cells) i j d} =
      {l | ∃ s t, Trail (· ∈ cells) u v s t ∧ cost root h s t = l} := by
    refine Set.ext fun l => ?_
    constructor
    · intro hp
      obtain ⟨v', s, t, hv', ht, hl⟩ := trail_of_path hn hp hu
      cases hv.symm.trans hv'
      exact ⟨s, t, ht, hl⟩
    · rintro ⟨s, t, ht, rfl⟩
      exact path_of_trail hn ht hu hv
  rw [hd, hset]
  rfl

/-- The cell is the first in the list of those that are farthest from the first one. -/
def SweepEnd (root h : 𝕜) (cells : List (ℤ × ℤ)) (a : ℤ × ℤ) : Prop :=
  ∃ u, cells[0]? = some u ∧ ∃ (i : ℕ) (d : 𝕜), cells[i]? = some a ∧ Distance root h (· ∈ cells) u a d ∧
    (∀ v e, Distance root h (· ∈ cells) u v e → e ≤ d) ∧
    ∀ j < i, ∀ v e, cells[j]? = some v → Distance root h (· ∈ cells) u v e → e < d

theorem SweepEnd.unique (hu : SweepEnd root h cells u) (hv : SweepEnd root h cells v) : u = v := by
  obtain ⟨x, hx, i, d, hi, hd, hmax, hfirst⟩ := hu
  obtain ⟨y, hy, j, e, hj, he, hmax', hfirst'⟩ := hv
  cases hx.symm.trans hy
  rcases lt_trichotomy i j with hlt | rfl | hlt
  · exact absurd (hfirst' i hlt u d hi hd) (hmax v e he).not_gt
  · exact Option.some.inj (hi.symm.trans hj)
  · exact absurd (hfirst j hlt v e hj he) (hmax' u d hd).not_gt

omit [Field 𝕜] in
theorem argmax_spec {values : List 𝕜} (hne : values ≠ []) : ∃ m, values[argmax values]? = some m ∧
    (∀ b ∈ values, b ≤ m) ∧ ∀ j < argmax values, values[j]? ≠ some m := by
  obtain ⟨m, hm⟩ := Option.isSome_iff_exists.mp (isSome_max?_of_ne_nil hne)
  obtain ⟨hmem, hle⟩ := List.max?_eq_some_iff.mp hm
  have harg : argmax values = values.idxOf m := by
    unfold argmax
    rw [hm]
  refine ⟨m, ?_, hle, ?_⟩
  · rw [harg]
    exact List.getElem?_idxOf hmem
  · intro j hj he
    rw [harg] at hj
    obtain ⟨hlt, he⟩ := List.getElem?_eq_some_iff.mp he
    have hne := not_of_lt_findIdx hj
    rw [he] at hne
    simp at hne

section
variable [IsStrictOrderedRing 𝕜]

theorem first_end (hd : Dijkstra.Exact dijkstra) (hh : 0 < h) (hr : 0 < root) (hn : cells.Nodup)
    (hu : cells[0]? = some u) (hi : i = argmax (((List.range cells.length).map
      (dijkstra (arcs root h cells) 0)).map fun d => d.getD (-1))) :
    ∃ a, cells[i]? = some a ∧ SweepEnd root h cells a := by
  rw [map_map] at hi
  set values := (List.range cells.length).map
    ((fun d : Option 𝕜 => d.getD (-1)) ∘ dijkstra (arcs root h cells) 0) with hvalues
  have hvalue : ∀ {k : ℕ} {v : ℤ × ℤ} {e : 𝕜}, cells[k]? = some v → Distance root h (· ∈ cells) u v e → values[k]? = some e := by
    intro k v e hv he
    obtain ⟨hk, -⟩ := List.getElem?_eq_some_iff.mp hv
    rw [hvalues, List.getElem?_map, List.getElem?_range hk, Option.map_some, Function.comp_apply,
      (dijkstra_iff hd hn hu hv).mpr he, Option.getD_some]
  have hself : Distance root h (· ∈ cells) u u 0 := .self hh.le hr.le (mem_of_getElem? hu)
  have hzero := hvalue hu hself
  obtain ⟨m, hm, hle, hfirst⟩ := argmax_spec (ne_nil_of_mem (mem_of_getElem? hzero))
  rw [← hi] at hm hfirst
  obtain ⟨hlt, -⟩ := List.getElem?_eq_some_iff.mp hm
  rw [hvalues, length_map, length_range] at hlt
  have ha := List.getElem?_eq_getElem hlt
  generalize cells[i] = a at ha
  have hfound : Distance root h (· ∈ cells) u a m := by
    rw [hvalues, List.getElem?_map, List.getElem?_range hlt, Option.map_some, Function.comp_apply] at hm
    cases hda : dijkstra (arcs root h cells) 0 i with
    | none =>
      -- the first cell has distance 0, so the greatest value is not -1
      rw [hda, Option.getD_none] at hm
      have hpos := hle 0 (mem_of_getElem? hzero)
      rw [← Option.some.inj hm] at hpos
      linarith
    | some e =>
      rw [hda, Option.getD_some] at hm
      rw [← Option.some.inj hm]
      exact (dijkstra_iff hd hn hu ha).mp hda
  refine ⟨a, ha, u, hu, i, m, ha, hfound, ?_, ?_⟩
  · intro v e he
    obtain ⟨s, t, ht⟩ := he.linked
    obtain ⟨k, hk⟩ := mem_iff_getElem?.mp ht.mem
    exact hle e (mem_of_getElem? (hvalue hk he))
  · intro j hj v e hv he
    have hve := hvalue hv he
    refine (hle e (mem_of_getElem? hve)).lt_of_ne fun heq => hfirst j hj ?_
    rw [hve, heq]

theorem second_longest (hd : Dijkstra.Exact dijkstra) (hh : 0 < h) (hr : 0 < root) (hn : cells.Nodup)
    (hu : cells[i]? = some u) : IsGreatest {d | ∃ v, Distance root h (· ∈ cells) u v d}
      (((((List.range cells.length).map (dijkstra (arcs root h cells) i)).filterMap id).max?).getD 0) := by
  set found := ((List.range cells.length).map (dijkstra (arcs root h cells) i)).filterMap id with hfound
  have hmem : ∀ d, d ∈ found ↔ ∃ v, Distance root h (· ∈ cells) u v d := by
    intro d
    rw [hfound, filterMap_map]
    simp only [Function.comp_def, id_eq, mem_filterMap, mem_range]
    constructor
    · rintro ⟨j, hj, hdj⟩
      exact ⟨_, (dijkstra_iff hd hn hu (List.getElem?_eq_getElem hj)).mp hdj⟩
    · rintro ⟨v, hv⟩
      obtain ⟨s, t, ht⟩ := hv.linked
      obtain ⟨j, hj⟩ := mem_iff_getElem?.mp ht.mem
      exact ⟨j, (List.getElem?_eq_some_iff.mp hj).1, (dijkstra_iff hd hn hu hj).mpr hv⟩
  have hself : 0 ∈ found := (hmem 0).mpr ⟨u, .self hh.le hr.le (mem_of_getElem? hu)⟩
  obtain ⟨m, hm⟩ := Option.isSome_iff_exists.mp (isSome_max?_of_mem hself)
  obtain ⟨hin, hle⟩ := List.max?_eq_some_iff.mp hm
  rw [hm, Option.getD_some]
  exact ⟨(hmem m).mp hin, fun d hd => hle d ((hmem d).mpr hd)⟩

theorem span_spec (hd : Dijkstra.Exact dijkstra) (hh : 0 < h) (hr : 0 < root) (hn : cells.Nodup) (hne : cells ≠ []) :
    ∃ a, SweepEnd root h cells a ∧
      IsGreatest {d | ∃ v, Distance root h (· ∈ cells) a v d} (geodesicSpan dijkstra root h cells) := by
  obtain ⟨u, rest, rfl⟩ := exists_cons_of_ne_nil hne
  have hu : (u :: rest)[0]? = some u := rfl
  cases rest with
  | nil =>
    have hself : Distance root h (· ∈ [u]) u u 0 := .self hh.le hr.le (mem_singleton_self u)
    have hzero : ∀ v e, Distance root h (· ∈ [u]) u v e → e = 0 := by
      intro v e he
      obtain ⟨s, t, ht⟩ := he.linked
      obtain rfl := mem_singleton.mp ht.mem
      exact he.unique hself
    refine ⟨u, ⟨u, hu, 0, 0, hu, hself, fun v e he => (hzero v e he).le, fun j hj => absurd hj (Nat.not_lt_zero j)⟩,
      ⟨u, hself⟩, ?_⟩
    rintro d ⟨v, hv⟩
    exact (hzero v d hv).le
  | cons v rest =>
    obtain ⟨a, ha, hend⟩ := first_end hd hh hr hn hu rfl
    refine ⟨a, hend, ?_⟩
    have hlong : ¬(u :: v :: rest).length < 2 := by simp
    unfold geodesicSpan
    dsimp only
    rw [if_neg hlong]
    exact second_longest hd hh hr hn ha

end

def piece (cells : List (ℤ × ℤ)) (c : ℤ × ℤ) : Set (ℤ × ℤ) := {v | ∃ s t, Trail (· ∈ cells) c v s t}

theorem piece_finite (cells : List (ℤ × ℤ)) (c : ℤ × ℤ) : (piece cells c).Finite := by
  refine (finite_toSet cells).subset ?_
  rintro v ⟨s, t, ht⟩
  exact ht.mem

/-- The first cell of the largest connected piece; of pieces of one size the first in the list. -/
def Largest (cells : List (ℤ × ℤ)) (c : ℤ × ℤ) : Prop :=
  ∃ i : ℕ, cells[i]? = some c ∧ (∀ v ∈ cells, (piece cells v).ncard ≤ (piece cells c).ncard) ∧
    ∀ j < i, ∀ v, cells[j]? = some v → (piece cells v).ncard < (piece cells c).ncard

/-- `D` is the largest distance between two cells of the largest connected piece. -/
def Spans (root h : 𝕜) (cells : List (ℤ × ℤ)) (D : 𝕜) : Prop :=
  (cells = [] ∧ D = 0) ∨ ∃ c, Largest cells c ∧
    IsGreatest {d | ∃ u ∈ piece cells c, ∃ v ∈ piece cells c, Distance root h (· ∈ cells) u v d} D

/-- A longest shortest path of the largest piece is as long as the longest one from the first of the
cells that are farthest from the first cell. -/
def Swept (root h : 𝕜) (cells : List (ℤ × ℤ)) : Prop :=
  cells = [] ∨ ∃ a D, SweepEnd root h cells a ∧ Spans root h cells D ∧
    IsGreatest {d | ∃ v, Distance root h (· ∈ cells) a v d} D

theorem Largest.unique (hu : Largest cells u) (hv : Largest cells v) : u = v := by
  obtain ⟨i, hi, hmax, hfirst⟩ := hu
  obtain ⟨j, hj, hmax', hfirst'⟩ := hv
  rcases lt_trichotomy i j with hlt | rfl | hlt
  · exact absurd (hfirst' i hlt u hi) (hmax v (mem_of_getElem? hj)).not_gt
  · exact Option.some.inj (hi.symm.trans hj)
  · exact absurd (hfirst j hlt v hj) (hmax' u (mem_of_getElem? hi)).not_gt

theorem Spans.unique (hd : Spans root h cells d) (he : Spans root h cells e) : d = e := by
  rcases hd with ⟨hnil, rfl⟩ | ⟨c, hc, hd⟩
  · rcases he with ⟨-, rfl⟩ | ⟨c, ⟨i, hi, -⟩, -⟩
    · rfl
    · simp [hnil] at hi
  · rcases he with ⟨hnil, rfl⟩ | ⟨c', hc', he⟩
    · obtain ⟨i, hi, -⟩ := hc
      simp [hnil] at hi
    · obtain rfl := hc.unique hc'
      exact hd.unique he

theorem spans_iff_swept [IsStrictOrderedRing 𝕜] (hd : Dijkstra.Exact dijkstra) (hh : 0 < h) (hr : 0 < root)
    (hn : cells.Nodup) : Spans root h cells (geodesicSpan dijkstra root h cells) ↔ Swept root h cells := by
  by_cases hne : cells = []
  · subst hne
    exact iff_of_true (Or.inl ⟨rfl, rfl⟩) (Or.inl rfl)
  · obtain ⟨a, ha, hlong⟩ := span_spec hd hh hr hn hne
    constructor
    · intro hspans
      exact Or.inr ⟨a, _, ha, hspans, hlong⟩
    · rintro (hnil | ⟨a', D, ha', hspans, hlong'⟩)
      · exact absurd hnil hne
      · obtain rfl := ha.unique ha'
        rwa [hlong.unique hlong']

section
variable {peak path : 𝕜} {grid : List (Cell 𝕜)}

/-- The region reaches the peak. -/
def Fits (peak : 𝕜) (grid : List (Cell 𝕜)) (r : ℕ) : Prop := ∃ c ∈ grid, c.region = r ∧ peak - TOL ≤ c.f

def drivenCells (grid : List (Cell 𝕜)) (r : ℕ) : List (ℤ × ℤ) :=
  ((grid.filter fun c => c.region = r).filter Cell.driven).map Cell.at

def Place (dijkstra : Dijkstra 𝕜) (root h peak path : 𝕜) (grid : List (Cell 𝕜)) (r : ℕ) : Prop :=
  Fits peak grid r ∨ (drivenCells grid r ≠ [] ∧ path - TOL ≤ geodesicSpan dijkstra root h (drivenCells grid r))

omit [Field 𝕜] [LinearOrder 𝕜] in
theorem mark_map (g : Cell 𝕜 → Bool) (r : ℕ) :
    mark grid (grid.map g) r = grid.map fun c => if c.region = r then true else g c := by
  unfold mark
  have hzip : grid.zip (grid.map g) = grid.map fun c => (c, g c) := by
    have hboth : (grid.map id).zip (grid.map g) = grid.map fun c => (id c, g c) := zip_map'
    rwa [map_id] at hboth
  rw [hzip, map_map]
  rfl

open Classical in
theorem decideRegion_map (g : Cell 𝕜 → Bool) (r : ℕ) :
    decideRegion dijkstra root h peak path grid (grid.map g) r = grid.map fun c =>
      if c.region = r ∧ Place dijkstra root h peak path grid r then true else g c := by
  have hkeep : ∀ hp : ¬Place dijkstra root h peak path grid r, grid.map g = grid.map fun c =>
      if c.region = r ∧ Place dijkstra root h peak path grid r then true else g c := by
    intro hp
    simp [hp]
  have hmark : ∀ hp : Place dijkstra root h peak path grid r, mark grid (grid.map g) r = grid.map fun c =>
      if c.region = r ∧ Place dijkstra root h peak path grid r then true else g c := by
    intro hp
    rw [mark_map]
    simp [hp]
  unfold decideRegion
  dsimp only
  cases hm : ((grid.filter fun c => c.region = r).map Cell.f).max? with
  | none =>
    have hempty : grid.filter (fun c => c.region = r) = [] := by simpa using hm
    refine hkeep fun hp => ?_
    rcases hp with ⟨c, hc, hr, -⟩ | ⟨hdriven, -⟩
    · have hmem : c ∈ grid.filter fun c => c.region = r := mem_filter.mpr ⟨hc, by simpa using hr⟩
      rw [hempty] at hmem
      cases hmem
    · exact hdriven (by rw [drivenCells, hempty]; rfl)
  | some top =>
    obtain ⟨hin, hle⟩ := List.max?_eq_some_iff.mp hm
    have hfits : Fits peak grid r ↔ peak - TOL ≤ top := by
      constructor
      · rintro ⟨c, hc, hr, hf⟩
        exact hf.trans (hle c.f (mem_map_of_mem (mem_filter.mpr ⟨hc, by simpa using hr⟩)))
      · intro htop
        obtain ⟨c, hc, rfl⟩ := mem_map.mp hin
        obtain ⟨hc, hr⟩ := mem_filter.mp hc
        exact ⟨c, hc, by simpa using hr, htop⟩
    dsimp only
    split_ifs with htop hspan
    · exact hmark (Or.inl (hfits.mpr htop))
    · refine hmark (Or.inr ⟨?_, hspan.2⟩)
      rw [drivenCells, Ne, map_eq_nil_iff]
      exact hspan.1
    · refine hkeep fun hp => ?_
      rcases hp with hf | ⟨hne, hp⟩
      · exact htop (hfits.mp hf)
      · refine hspan ⟨?_, hp⟩
        rw [drivenCells, Ne, map_eq_nil_iff] at hne
        exact hne

open Classical in
theorem foldl_decideRegion (rs : List ℕ) (g : Cell 𝕜 → Bool) :
    rs.foldl (decideRegion dijkstra root h peak path grid) (grid.map g) = grid.map fun c =>
      if c.region ∈ rs ∧ Place dijkstra root h peak path grid c.region then true else g c := by
  induction rs generalizing g with
  | nil => simp
  | cons r rs ih =>
    rw [foldl_cons, decideRegion_map, ih]
    refine map_congr_left fun c _ => ?_
    by_cases hp : Place dijkstra root h peak path grid c.region
    · by_cases hr : c.region = r
      · simp [← hr, hp]
      · simp [hr, hp]
    · have hr : ¬(c.region = r ∧ Place dijkstra root h peak path grid r) := by
        rintro ⟨rfl, h⟩
        exact hp h
      simp [hp, hr]

theorem placeRegions_iff {c : Cell 𝕜} (hc : grid[i]? = some c) :
    (placeRegions dijkstra root h peak path grid)[i]? = some true ↔ Place dijkstra root h peak path grid c.region := by
  classical
  have hblank : List.replicate grid.length false = grid.map fun _ => false := by
    rw [map_const']
  have hin : c.region ∈ List.range (((grid.map Cell.region).max?).elim 0 (· + 1)) := by
    have hmem : c.region ∈ grid.map Cell.region := mem_map_of_mem (mem_of_getElem? hc)
    obtain ⟨m, hm⟩ := Option.isSome_iff_exists.mp (isSome_max?_of_mem hmem)
    rw [hm, Option.elim_some, mem_range]
    exact Nat.lt_succ_of_le ((List.max?_eq_some_iff.mp hm).2 _ hmem)
  unfold placeRegions
  rw [hblank, foldl_decideRegion, List.getElem?_map, hc, Option.map_some]
  simp [hin]

end

omit [Field 𝕜] [LinearOrder 𝕜] in
theorem drivenCells_nodup {grid : List (Cell 𝕜)} (hn : (grid.map Cell.at).Nodup) (r : ℕ) : (drivenCells grid r).Nodup :=
  hn.sublist ((filter_sublist.trans filter_sublist).map Cell.at)

/-- Of any four cells, the two larger sums of opposite distances are equal: no loops. -/
def FourPoint (root h : 𝕜) (cells : List (ℤ × ℤ)) : Prop :=
  ∀ a b x y ab xy ax yb ay bx, Distance root h (· ∈ cells) a b ab → Distance root h (· ∈ cells) x y xy →
    Distance root h (· ∈ cells) a x ax → Distance root h (· ∈ cells) b y yb →
    Distance root h (· ∈ cells) a y ay → Distance root h (· ∈ cells) b x bx → ab + xy ≤ max (ax + yb) (ay + bx)

lemma piece_eq (h : v ∈ piece cells u) : piece cells v = piece cells u := by
  obtain ⟨s, t, huv⟩ := h
  refine Set.ext fun w => ?_
  constructor
  · rintro ⟨s', t', hvw⟩
    exact ⟨_, _, huv.trans hvw⟩
  · rintro ⟨s', t', huw⟩
    exact ⟨_, _, huv.symm.trans huw⟩

/-- The two searches sweep every set without loops whose first cell is in its largest piece. -/
theorem swept_of_fourPoint [IsStrictOrderedRing 𝕜] (hd : Dijkstra.Exact dijkstra) (hh : 0 < h) (hr : 0 < root)
    (hn : cells.Nodup) (hu : cells[0]? = some u)
    (hbig : ∀ v ∈ cells, (piece cells v).ncard ≤ (piece cells u).ncard)
    (hfour : FourPoint root h cells) : Swept root h cells := by
  have hne : cells ≠ [] := ne_nil_of_mem (mem_of_getElem? hu)
  obtain ⟨a, ha, hlong⟩ := span_spec hd hh hr hn hne
  refine Or.inr ⟨a, _, ha, Or.inr ⟨u, ⟨0, hu, hbig, fun j hj => absurd hj (Nat.not_lt_zero j)⟩, ?_⟩,
    hlong⟩
  obtain ⟨u', hu', i, d, hi, had, hfar, -⟩ := ha
  cases hu.symm.trans hu'
  obtain ⟨sa, ta, hta⟩ := had.linked
  constructor
  · obtain ⟨v, hv⟩ := hlong.1
    obtain ⟨s, t, ht⟩ := hv.linked
    exact ⟨a, ⟨_, _, hta⟩, v, ⟨_, _, hta.trans ht⟩, hv⟩
  · rintro e ⟨x, ⟨sx, tx, hx⟩, y, ⟨sy, ty, hy⟩, hxy⟩
    obtain ⟨ux, hux⟩ := exists_distance hh.le hr.le hx
    obtain ⟨uy, huy⟩ := exists_distance hh.le hr.le hy
    obtain ⟨ax, hax⟩ := exists_distance hh.le hr.le (hta.symm.trans hx)
    obtain ⟨ay, hay⟩ := exists_distance hh.le hr.le (hta.symm.trans hy)
    have hsum := hfour u a x y d e ux ay uy ax had hxy hux hay huy hax
    have hx' := hfar x ux hux
    have hy' := hfar y uy huy
    have hlx := hlong.2 ⟨x, hax⟩
    have hly := hlong.2 ⟨y, hay⟩
    rcases le_max_iff.mp hsum with hle | hle
    · linarith
    · linarith

/-- The span is the longest shortest path of the largest piece exactly when the two searches sweep
it, as they do when the first cell is in that piece and there are no loops; then a region is kept by
what was driven exactly when that length reaches the threshold. -/
theorem place_rule_iff [IsStrictOrderedRing 𝕜] (hd : Dijkstra.Exact dijkstra) (hh : 0 < h) (hr : 0 < root) :
    (∀ cells : List (ℤ × ℤ), cells.Nodup →
      (Spans root h cells (geodesicSpan dijkstra root h cells) ↔ Swept root h cells)) ∧
    ∀ (peak path : 𝕜) (grid : List (Cell 𝕜)), (grid.map Cell.at).Nodup → ∀ (i : ℕ) (c : Cell 𝕜),
      grid[i]? = some c → Swept root h (drivenCells grid c.region) →
        ((placeRegions dijkstra root h peak path grid)[i]? = some true ↔ Fits peak grid c.region ∨
          (drivenCells grid c.region ≠ [] ∧ ∃ D, Spans root h (drivenCells grid c.region) D ∧ path - TOL ≤ D)) := by
  refine ⟨fun cells hn => spans_iff_swept hd hh hr hn, ?_⟩
  intro peak path grid hn i c hc hswept
  have hspans := (spans_iff_swept hd hh hr (drivenCells_nodup hn c.region)).mpr hswept
  rw [placeRegions_iff hc, Place]
  refine or_congr_right (and_congr_right fun _ => ?_)
  constructor
  · intro hle
    exact ⟨_, hspans, hle⟩
  · rintro ⟨D, hD, hle⟩
    rwa [hspans.unique hD]

open Classical in
noncomputable def lookup : Dijkstra 𝕜 := fun arcs source i =>
  if hx : ∃ d, IsLeast {d | Path arcs source i d} d then some hx.choose else none

theorem lookup_exact : Dijkstra.Exact (lookup : Dijkstra 𝕜) := by
  intro arcs source i d
  unfold lookup
  constructor
  · intro hd
    split_ifs at hd with hx
    rw [← Option.some.inj hd]
    exact hx.choose_spec
  · intro hd
    have hx : ∃ d, IsLeast {d | Path arcs source i d} d := ⟨d, hd⟩
    rw [dif_pos hx]
    exact congrArg some (hx.choose_spec.unique hd)

theorem pair_fourPoint [IsStrictOrderedRing 𝕜] (hh : 0 < h) (hr : 0 < root) :
    FourPoint root h [(0, 0), (0, 1)] := by
  have htrail : Trail (· ∈ [((0, 0) : ℤ × ℤ), (0, 1)]) (0, 0) (0, 1) (0 + 1) 0 :=
    (Trail.here (by decide)).straight (Or.inl (by decide)) (by decide)
  obtain ⟨δ, hδ⟩ := exists_distance hh.le hr.le htrail
  have hpos := hδ.nonneg hh.le hr.le
  have hself : ∀ a ∈ [((0, 0) : ℤ × ℤ), (0, 1)], Distance root h (· ∈ [(0, 0), (0, 1)]) a a 0 :=
    fun a ha => .self hh.le hr.le ha
  have hvalue : ∀ {a b d}, Distance root h (· ∈ [(0, 0), (0, 1)]) a b d →
      (a = (0, 0) ∨ a = (0, 1)) ∧ (b = (0, 0) ∨ b = (0, 1)) ∧ d = if a = b then 0 else δ := by
    intro a b d hab
    obtain ⟨s, t, ht⟩ := hab.linked
    have ha : a = (0, 0) ∨ a = (0, 1) := by simpa using ht.source
    have hb : b = (0, 0) ∨ b = (0, 1) := by simpa using ht.mem
    refine ⟨ha, hb, ?_⟩
    rcases ha with rfl | rfl <;> rcases hb with rfl | rfl
    · exact hab.unique (hself _ (by decide))
    · exact hab.unique hδ
    · exact hab.unique hδ.symm
    · exact hab.unique (hself _ (by decide))
  intro a b x y ab xy ax yb ay bx hab hxy hax hby hay hbx
  obtain ⟨ha, hb, rfl⟩ := hvalue hab
  obtain ⟨hx, hy, rfl⟩ := hvalue hxy
  rw [(hvalue hax).2.2, (hvalue hby).2.2, (hvalue hay).2.2, (hvalue hbx).2.2]
  rcases ha with rfl | rfl <;> rcases hb with rfl | rfl <;> rcases hx with rfl | rfl <;> rcases hy with rfl | rfl
  all_goals simp [hpos]

theorem place_rule_iff_pair : Spans √2 (1 / 10) [(0, 0), (0, 1)]
    (geodesicSpan lookup √2 (1 / 10 : ℝ) [(0, 0), (0, 1)]) := by
  have hh : (0 : ℝ) < 1 / 10 := by norm_num
  have hr : 0 < √2 := Real.sqrt_pos.mpr two_pos
  have htrail : Trail (· ∈ [((0, 0) : ℤ × ℤ), (0, 1)]) (0, 0) (0, 1) (0 + 1) 0 :=
    (Trail.here (by decide)).straight (Or.inl (by decide)) (by decide)
  have hall : ∀ v ∈ [((0, 0) : ℤ × ℤ), (0, 1)], v ∈ piece [(0, 0), (0, 1)] (0, 0) := by
    intro v hv
    have hv : v = (0, 0) ∨ v = (0, 1) := by simpa using hv
    rcases hv with rfl | rfl
    · exact ⟨0, 0, .here (by decide)⟩
    · exact ⟨_, _, htrail⟩
  exact ((place_rule_iff lookup_exact hh hr).1 _ (by decide)).mpr
    (swept_of_fourPoint lookup_exact hh hr (by decide) rfl
      (fun v hv => (congrArg Set.ncard (piece_eq (hall v hv))).le) (pair_fourPoint hh hr))

/-- The first cell is a piece of its own, and its length is returned. -/
theorem largest_piece_missed : geodesicSpan lookup √2 (1 / 10 : ℝ) [(9, 9), (0, 0), (0, 1)] = 0 ∧
    ¬Spans √2 (1 / 10 : ℝ) [(9, 9), (0, 0), (0, 1)] 0 := by
  have hh : (0 : ℝ) < 1 / 10 := by norm_num
  have hr : 0 < √2 := Real.sqrt_pos.mpr two_pos
  have halone : ∀ {v s t}, Trail (· ∈ [((9, 9) : ℤ × ℤ), (0, 0), (0, 1)]) (9, 9) v s t → v = (9, 9) := by
    intro v s t ht
    induction ht with
    | here _ => rfl
    | straight _ hstep hw ih =>
      subst ih
      simp only [mem_cons, not_mem_nil, or_false] at hw
      rcases hw with rfl | rfl | rfl
      · rfl
      · exact absurd hstep (by unfold Straight; decide)
      · exact absurd hstep (by unfold Straight; decide)
    | diagonal _ hstep hw ih =>
      subst ih
      simp only [mem_cons, not_mem_nil, or_false] at hw
      rcases hw with rfl | rfl | rfl
      · rfl
      · exact absurd hstep (by unfold Diagonal; decide)
      · exact absurd hstep (by unfold Diagonal; decide)
  constructor
  · have hspan : ∃ a, SweepEnd √2 (1 / 10 : ℝ) [(9, 9), (0, 0), (0, 1)] a ∧ _ :=
      span_spec lookup_exact hh hr (by decide) (by decide)
    obtain ⟨a, ⟨u, hu, i, d, hi, had, -⟩, hlong⟩ := hspan
    cases hu
    obtain ⟨s, t, ht⟩ := had.linked
    obtain rfl := halone ht
    obtain ⟨v, hv⟩ := hlong.1
    obtain ⟨s', t', ht'⟩ := hv.linked
    obtain rfl := halone ht'
    exact hv.unique (.self hh.le hr.le (by decide))
  · rintro (⟨hnil, -⟩ | ⟨c, ⟨i, hi, hmax, -⟩, hgreat⟩)
    · cases hnil
    · have hstep : Trail (· ∈ [((9, 9) : ℤ × ℤ), (0, 0), (0, 1)]) (0, 0) (0, 1) (0 + 1) 0 :=
        (Trail.here (by decide)).straight (Or.inl (by decide)) (by decide)
      have hpair := hmax (0, 0) (by decide)
      have hc : c = (9, 9) ∨ c = (0, 0) ∨ c = (0, 1) := by simpa using mem_of_getElem? hi
      have hboth : c ≠ (9, 9) → (0, 0) ∈ piece [(9, 9), (0, 0), (0, 1)] c ∧
          (0, 1) ∈ piece [(9, 9), (0, 0), (0, 1)] c := by
        intro hne
        rcases hc.resolve_left hne with rfl | rfl
        · exact ⟨⟨0, 0, .here (by decide)⟩, ⟨_, _, hstep⟩⟩
        · exact ⟨⟨_, _, hstep.symm⟩, ⟨0, 0, .here (by decide)⟩⟩
      by_cases hne : c = (9, 9)
      · subst hne
        have hone : (piece [((9, 9) : ℤ × ℤ), (0, 0), (0, 1)] (9, 9)).ncard ≤ 1 := by
          refine (Set.ncard_le_ncard (t := {(9, 9)}) ?_).trans (Set.ncard_singleton _).le
          rintro v ⟨s, t, ht⟩
          exact halone ht
        have htwo : 2 ≤ (piece [((9, 9) : ℤ × ℤ), (0, 0), (0, 1)] (0, 0)).ncard := by
          rw [← Set.ncard_pair (show ((0, 0) : ℤ × ℤ) ≠ (0, 1) by decide)]
          refine Set.ncard_le_ncard ?_ (piece_finite _ _)
          rintro v (rfl | rfl)
          · exact ⟨0, 0, .here (by decide)⟩
          · exact ⟨_, _, hstep⟩
        omega
      · obtain ⟨δ, hδ⟩ := exists_distance hh.le hr.le hstep
        obtain ⟨h₀, h₁⟩ := hboth hne
        exact (hgreat.2 ⟨_, h₀, _, h₁, hδ⟩).not_gt (hδ.pos hh hr (by decide))

end CloudServer.PlaceRule
