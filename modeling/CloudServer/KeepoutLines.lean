import CloudServer.StoreRepresent
import CloudServer.BlockedGeometry

/-! Line keep-out zones as lattice cells, and the tests of straight legs against them, which sample
the leg every quarter step. A sorted array of keys without repetition is a finite set. -/
namespace CloudServer.KeepoutLines
open Planar BlockedGeometry List
open SceneFold (intRange)
open StoreRepresent (mem_intRange)

def CELL_OFF : ℤ := 2 ^ 20

def CELL_W : ℤ := 2 ^ 21

def MAX_CELLS : ℤ := 2000000

def cellKey (c : ℤ × ℤ) : ℤ := (c.2 + CELL_OFF) * CELL_W + (c.1 + CELL_OFF)

/-- A keepout zone with the cells it blocks. -/
structure Zone where
  id : String
  applied : Bool
  cells : Finset ℤ

structure Resolution where
  zones : List Zone

namespace Resolution

def cells (res : Resolution) : Finset ℤ :=
  (res.zones.filter Zone.applied).foldr (fun z s => z.cells ∪ s) ∅

def zonesHit (res : Resolution) (cells : Finset ℤ) : List Zone :=
  if cells = ∅ then []
  else res.zones.filter fun z => z.applied && decide (∃ k ∈ cells, k ∈ z.cells)

end Resolution

variable {𝕜 : Type*} [Field 𝕜] [LinearOrder 𝕜] [FloorRing 𝕜]

-- one named instance for each numeral below
local instance atLeastTwo_two : Nat.AtLeastTwo 2 := inferInstance
local instance atLeastTwo_ten : Nat.AtLeastTwo 10 := inferInstance

def centre (h : 𝕜) (c : ℤ × ℤ) : 𝕜 × 𝕜 := ((c.1 + 1 / 2) * h, (c.2 + 1 / 2) * h)

def cellOf (h : 𝕜) (p : 𝕜 × 𝕜) : ℤ × ℤ := (⌊p.1 / h⌋, ⌊p.2 / h⌋)

def LINE_HALF_WIDTH_CELLS : 𝕜 := 1

def near (a b : 𝕜 × 𝕜) (h : 𝕜) (c : ℤ × ℤ) : Prop :=
  pointSegmentSq (centre h c) a b ≤ (LINE_HALF_WIDTH_CELLS * h + 1 / 10 ^ 9) ^ 2

instance (a b : 𝕜 × 𝕜) (h : 𝕜) : DecidablePred (near a b h) := fun _ =>
  inferInstanceAs (Decidable (_ ≤ _))

/-- `none` is KeepoutTooLarge. -/
def lineCells (a b : 𝕜 × 𝕜) (h : 𝕜) : Option (Finset ℤ) :=
  let r := LINE_HALF_WIDTH_CELLS * h
  let ix0 := ⌊(min a.1 b.1 - r) / h⌋
  let ix1 := ⌊(max a.1 b.1 + r) / h⌋
  let iy0 := ⌊(min a.2 b.2 - r) / h⌋
  let iy1 := ⌊(max a.2 b.2 + r) / h⌋
  if MAX_CELLS < (ix1 - ix0 + 1) * (iy1 - iy0 + 1) then none
  else
    let cells := (intRange iy0 (iy1 + 1)).flatMap fun iy => (intRange ix0 (ix1 + 1)).map fun ix => (ix, iy)
    some ((cells.filter fun c => near a b h c).map cellKey).toFinset

/-- `math.ceil(math.sqrt(q))`. -/
def ceilRoot (q : 𝕜) : ℕ :=
  let m := ⌈q⌉.toNat
  if m.sqrt * m.sqrt = m then m.sqrt else m.sqrt + 1

/-- `max(1, ceil(dist(a, b) / (0.25 * h)))`. -/
def steps (h : 𝕜) (a b : 𝕜 × 𝕜) : ℕ := max 1 (ceilRoot (sqDist a b / (h / 4) ^ 2))

def cellsOfPoints (points : List (𝕜 × 𝕜)) (h : 𝕜) : Finset ℤ :=
  (points.map fun p => cellKey (cellOf h p)).toFinset

def legsCross (res : Resolution) (a b : 𝕜 × 𝕜) (h : 𝕜) : List Zone :=
  if res.cells = ∅ then []
  else
    let n := steps h a b
    let pts := (List.range (n + 1)).map fun k : ℕ =>
      (a.1 + (b.1 - a.1) * (k : 𝕜) / (n : 𝕜), a.2 + (b.2 - a.2) * (k : 𝕜) / (n : 𝕜))
    res.zonesHit (cellsOfPoints pts h)

structure Overlay (𝕜 : Type*) where
  discs : List ((𝕜 × 𝕜) × 𝕜)
  segments : List ((𝕜 × 𝕜) × (𝕜 × 𝕜) × 𝕜)

/-- `graphFree` is what the graph says of a cell. -/
def free (graphFree : ℤ × ℤ → Bool) (keepoutKeys : Finset ℤ) (c : ℤ × ℤ) : Bool :=
  if cellKey c ∈ keepoutKeys then false else graphFree c

/-- The samples of a leg, each with the cell before it: a corner crossing needs both orthogonal
neighbours. -/
def walk (free : ℤ × ℤ → Bool) : Option (ℤ × ℤ) → List (ℤ × ℤ) → Bool
  | _, [] => true
  | prev, c :: rest =>
    free c &&
      (match prev with
        | none => true
        | some p => c.1 = p.1 || c.2 = p.2 || (free (p.1, c.2) && free (c.1, p.2))) &&
      walk free (some c) rest

/-- `visible` of `blocked_free_los(graph, overlay, keepout_keys)`. -/
def visible (graphFree : ℤ × ℤ → Bool) (overlay : Overlay 𝕜) (keepoutKeys : Finset ℤ) (h : 𝕜)
    (a b : 𝕜 × 𝕜) : Bool :=
  if overlay.discs.any fun e => within (pointSegmentSq e.1 a b) e.2 then false
  else if overlay.segments.any fun e => segmentsWithin a b e.1 e.2.1 e.2.2 then false
  else
    let n := steps h a b
    walk (free graphFree keepoutKeys) none
      ((List.range (n + 1)).map fun k : ℕ => cellOf h (along a b ((k : 𝕜) / (n : 𝕜))))

theorem sq_ceilRoot [IsStrictOrderedRing 𝕜] (q : 𝕜) : q ≤ (ceilRoot q : 𝕜) ^ 2 := by
  have hle : q ≤ ((⌈q⌉.toNat : ℕ) : 𝕜) :=
    (Int.le_ceil q).trans (by exact_mod_cast Int.self_le_toNat ⌈q⌉)
  have hroot : ⌈q⌉.toNat ≤ ceilRoot q ^ 2 := by
    unfold ceilRoot
    dsimp only
    split_ifs with hs
    · rw [sq, hs]
    · rw [sq]
      exact (Nat.lt_succ_sqrt _).le
  exact hle.trans (by exact_mod_cast hroot)

section
variable [IsStrictOrderedRing 𝕜] {a b p q x : 𝕜 × 𝕜} {h : 𝕜} {c c' : ℤ × ℤ}

theorem abs_floor_sub_le (hh : 0 < h) (y : 𝕜) : |((⌊y / h⌋ : 𝕜) + 1 / 2) * h - y| ≤ h / 2 := by
  have h₁ := Int.floor_le (y / h)
  have h₂ := Int.lt_floor_add_one (y / h)
  rw [le_div_iff₀ hh] at h₁
  rw [div_lt_iff₀ hh] at h₂
  rw [abs_le]
  constructor <;> nlinarith

theorem mem_window (hh : 0 < h) {lo hi y : 𝕜} {i : ℤ} (hy : lo ≤ y ∧ y ≤ hi)
    (hd : |((i : 𝕜) + 1 / 2) * h - y| ≤ h) : ⌊(lo - h) / h⌋ ≤ i ∧ i ≤ ⌊(hi + h) / h⌋ := by
  obtain ⟨h₁, h₂⟩ := abs_le.mp hd
  constructor
  · rw [← Int.lt_add_one_iff, Int.floor_lt, div_lt_iff₀ hh]
    push_cast
    nlinarith
  · rw [Int.le_floor, le_div_iff₀ hh]
    nlinarith

theorem mem_lineCells {keys : Finset ℤ} (hh : 0 < h) (hk : lineCells a b h = some keys)
    (hx : x ∈ segment 𝕜 a b) (hd : sqDist (centre h c) x ≤ h ^ 2) : cellKey c ∈ keys := by
  unfold lineCells at hk
  simp only [LINE_HALF_WIDTH_CELLS, one_mul] at hk
  split_ifs at hk with hmax
  rw [← Option.some.inj hk]
  refine mem_toFinset.mpr (mem_map_of_mem (mem_filter.mpr ⟨?_, decide_eq_true ?_⟩))
  · obtain ⟨hbx, hby⟩ := box_of_mem hx
    obtain ⟨hdx, hdy⟩ := abs_sub_le_of_sqDist hh.le hd
    simp only [mem_flatMap, mem_map, mem_intRange, Int.lt_add_one_iff]
    exact ⟨c.2, mem_window hh hby hdy, c.1, mem_window hh hbx hdx, rfl⟩
  · have hle : pointSegmentSq (centre h c) a b ≤ h ^ 2 := (sqDist_nearest_le hx).trans hd
    refine hle.trans ?_
    simp only [LINE_HALF_WIDTH_CELLS, one_mul]
    gcongr
    exact le_add_of_nonneg_right (by norm_num)

theorem centre_near (hc : |c.1 - c'.1| ≤ 1 ∧ |c.2 - c'.2| ≤ 1) (hx : x ∈ segment 𝕜 (centre h c) (centre h c')) :
    sqDist (centre h c) x ≤ h ^ 2 ∨ sqDist (centre h c') x ≤ h ^ 2 := by
  obtain ⟨t, h₀, h₁, rfl⟩ := mem_segment_iff.mp hx
  have hcast : ∀ i j : ℤ, |i - j| ≤ 1 → ((i : 𝕜) - j) ^ 2 ≤ 1 := by
    intro i j hij
    have hsq : (i - j) ^ 2 ≤ 1 := by
      rw [← one_pow 2, ← sq_abs]
      gcongr
    exact_mod_cast hsq
  have hdist : sqDist (centre h c) (centre h c') ≤ 2 * h ^ 2 := by
    unfold sqDist centre
    nlinarith [hcast _ _ hc.1, hcast _ _ hc.2, sq_nonneg h]
  have hhalf : ∀ s : 𝕜, s ^ 2 ≤ 1 / 4 → s ^ 2 * sqDist (centre h c) (centre h c') ≤ h ^ 2 := by
    intro s hs
    have hmul := mul_le_mul_of_nonneg_right hs (sqDist_nonneg (centre h c) (centre h c'))
    nlinarith [sq_nonneg h]
  rcases le_total t (1 / 2) with ht | ht
  · left
    have h0 : centre h c = along (centre h c) (centre h c') 0 := by simp [along]
    nth_rewrite 1 [h0]
    rw [sqDist_along]
    exact hhalf _ (by nlinarith)
  · right
    have h1 : centre h c' = along (centre h c) (centre h c') 1 := by simp [along]
    nth_rewrite 1 [h1]
    rw [sqDist_along]
    exact hhalf _ (by nlinarith)

theorem exists_sample (hh : 0 < h) (hx : x ∈ segment 𝕜 p q) :
    ∃ k ≤ steps h p q, sqDist (along p q ((k : 𝕜) / (steps h p q : 𝕜))) x ≤ (h / 8) ^ 2 := by
  obtain ⟨t, h₀, h₁, rfl⟩ := mem_segment_iff.mp hx
  set n := steps h p q with hn
  have hn1 : 1 ≤ n := le_max_left _ _
  have hpos : (0 : 𝕜) < n := by exact_mod_cast hn1
  have hsq : sqDist p q ≤ (n : 𝕜) ^ 2 * (h / 4) ^ 2 := by
    have hroot := sq_ceilRoot (sqDist p q / (h / 4) ^ 2)
    rw [div_le_iff₀ (by positivity)] at hroot
    refine hroot.trans ?_
    gcongr
    exact_mod_cast le_max_right _ _
  set z := ⌊t * n + 1 / 2⌋ with hz
  have hz₁ : (z : 𝕜) ≤ t * n + 1 / 2 := Int.floor_le _
  have hz₂ : t * n + 1 / 2 < z + 1 := Int.lt_floor_add_one _
  have hz0 : 0 ≤ z := Int.floor_nonneg.mpr (by positivity)
  have hcast : ((z.toNat : ℕ) : 𝕜) = z := by
    have hint : ((z.toNat : ℕ) : ℤ) = z := Int.toNat_of_nonneg hz0
    exact_mod_cast congrArg (Int.cast (R := 𝕜)) hint
  refine ⟨z.toNat, ?_, ?_⟩
  · have hlt : (z : 𝕜) < ((n : ℤ) + 1 : ℤ) := by
      push_cast
      nlinarith
    have hz' : z < (n : ℤ) + 1 := by exact_mod_cast hlt
    omega
  · rw [sqDist_along, hcast]
    have hshare : ((z : 𝕜) / n - t) ^ 2 * (n : 𝕜) ^ 2 ≤ 1 / 4 := by
      have hmul : ((z : 𝕜) / n - t) * n = z - t * n := by field_simp
      rw [← mul_pow, hmul]
      nlinarith
    calc ((z : 𝕜) / n - t) ^ 2 * sqDist p q
        ≤ ((z : 𝕜) / n - t) ^ 2 * ((n : 𝕜) ^ 2 * (h / 4) ^ 2) :=
          mul_le_mul_of_nonneg_left hsq (sq_nonneg _)
      _ = ((z : 𝕜) / n - t) ^ 2 * (n : 𝕜) ^ 2 * (h / 4) ^ 2 := by ring
      _ ≤ 1 / 4 * (h / 4) ^ 2 := mul_le_mul_of_nonneg_right hshare (sq_nonneg _)
      _ = (h / 8) ^ 2 := by ring

theorem cell_near (hh : 0 < h) (hd : sqDist p x ≤ (h / 8) ^ 2) :
    sqDist (centre h (cellOf h p)) x ≤ h ^ 2 := by
  obtain ⟨hx, hy⟩ := abs_sub_le_of_sqDist (by positivity) hd
  have hcx := abs_floor_sub_le hh p.1
  have hcy := abs_floor_sub_le hh p.2
  have hsum : ∀ u v w : 𝕜, |u - v| ≤ h / 2 → |v - w| ≤ h / 8 → (u - w) ^ 2 ≤ (5 / 8 * h) ^ 2 := by
    intro u v w hu hv
    have habs : |u - w| ≤ 5 / 8 * h := by
      have htri := abs_sub_le u v w
      linarith
    rw [← sq_abs]
    gcongr
  have h₁ := hsum _ _ _ hcx hx
  have h₂ := hsum _ _ _ hcy hy
  unfold sqDist centre cellOf
  nlinarith [sq_nonneg h]

theorem exists_sealed_sample {keys : Finset ℤ} (hh : 0 < h) (hk : lineCells a b h = some keys)
    (hm : Meets p q a b) : ∃ k ≤ steps h p q, cellKey (cellOf h (along p q ((k : 𝕜) / (steps h p q : 𝕜)))) ∈ keys := by
  obtain ⟨x, hpq, hab⟩ := hm
  obtain ⟨k, hle, hd⟩ := exists_sample hh hpq
  exact ⟨k, hle, mem_lineCells hh hk hab (cell_near hh hd)⟩

end

theorem walk_free {free : ℤ × ℤ → Bool} {prev : Option (ℤ × ℤ)} {cells : List (ℤ × ℤ)}
    (h : walk free prev cells) {c : ℤ × ℤ} (hc : c ∈ cells) : free c := by
  induction cells generalizing prev with
  | nil => simp at hc
  | cons d rest ih =>
    simp only [walk, Bool.and_eq_true] at h
    rcases mem_cons.mp hc with rfl | hc
    · exact h.1.1
    · exact ih h.2 hc

theorem mem_cells {res : Resolution} {z : Zone} (hz : z ∈ res.zones) (ha : z.applied) {k : ℤ}
    (hk : k ∈ z.cells) : k ∈ res.cells := by
  have hmem : z ∈ res.zones.filter Zone.applied := mem_filter.mpr ⟨hz, ha⟩
  unfold Resolution.cells
  generalize res.zones.filter Zone.applied = zones at hmem
  induction zones with
  | nil => simp at hmem
  | cons y rest ih =>
    rcases mem_cons.mp hmem with rfl | hmem
    · exact Finset.mem_union_left _ hk
    · exact Finset.mem_union_right _ (ih hmem)

section
variable [IsStrictOrderedRing 𝕜] {a b p q : 𝕜 × 𝕜} {h : 𝕜} {keys : Finset ℤ}

theorem legsCross_reports (hh : 0 < h) (hk : lineCells a b h = some keys) (hm : Meets p q a b)
    {res : Resolution} {z : Zone} (hz : z ∈ res.zones) (ha : z.applied) (hc : z.cells = keys) :
    z ∈ legsCross res p q h := by
  obtain ⟨k, hle, hmem⟩ := exists_sealed_sample hh hk hm
  rw [← hc] at hmem
  have hne : res.cells ≠ ∅ := Finset.ne_empty_of_mem (mem_cells hz ha hmem)
  unfold legsCross
  rw [if_neg hne]
  dsimp only
  set points := (List.range (steps h p q + 1)).map fun k : ℕ =>
    (p.1 + (q.1 - p.1) * (k : 𝕜) / (steps h p q : 𝕜), p.2 + (q.2 - p.2) * (k : 𝕜) / (steps h p q : 𝕜))
    with hpoints
  have hpoint : along p q ((k : 𝕜) / (steps h p q : 𝕜)) ∈ points := by
    refine mem_map.mpr ⟨k, mem_range.mpr (Nat.lt_succ_of_le hle), ?_⟩
    unfold along
    refine Prod.ext ?_ ?_
    · dsimp only
      ring
    · dsimp only
      ring
  have hcell : cellKey (cellOf h (along p q ((k : 𝕜) / (steps h p q : 𝕜)))) ∈ cellsOfPoints points h :=
    mem_toFinset.mpr (mem_map_of_mem hpoint)
  unfold Resolution.zonesHit
  rw [if_neg (Finset.ne_empty_of_mem hcell)]
  refine mem_filter.mpr ⟨hz, ?_⟩
  rw [ha, Bool.true_and, decide_eq_true_eq]
  exact ⟨_, hcell, hmem⟩

theorem not_visible (hh : 0 < h) (hk : lineCells a b h = some keys) (hm : Meets p q a b)
    (graphFree : ℤ × ℤ → Bool) (overlay : Overlay 𝕜) {keepoutKeys : Finset ℤ} (hsub : keys ⊆ keepoutKeys) :
    visible graphFree overlay keepoutKeys h p q = false := by
  obtain ⟨k, hle, hmem⟩ := exists_sealed_sample hh hk hm
  rw [Bool.eq_false_iff]
  intro hv
  unfold visible at hv
  split_ifs at hv with hdiscs hsegs
  have hcell := mem_map_of_mem (f := fun k : ℕ => cellOf h (along p q ((k : 𝕜) / (steps h p q : 𝕜))))
    (mem_range.mpr (Nat.lt_succ_of_le hle))
  have hfree := walk_free hv hcell
  unfold free at hfree
  rw [if_pos (hsub hmem)] at hfree
  exact Bool.false_ne_true hfree

/-- The sealed cells of a line are a tight barrier: no step between the centres of two unsealed
neighbours meets the segment, and a leg that meets it is reported and not visible. -/
theorem line_barrier (hh : 0 < h) (hk : lineCells a b h = some keys) :
    (∀ c c' : ℤ × ℤ, |c.1 - c'.1| ≤ 1 ∧ |c.2 - c'.2| ≤ 1 → cellKey c ∉ keys → cellKey c' ∉ keys →
      ¬Meets (centre h c) (centre h c') a b) ∧
    ∀ p q, Meets p q a b →
      (∀ (res : Resolution) (z : Zone), z ∈ res.zones → z.applied → z.cells = keys →
        z ∈ legsCross res p q h) ∧
      ∀ (graphFree : ℤ × ℤ → Bool) (overlay : Overlay 𝕜) (keepoutKeys : Finset ℤ),
        keys ⊆ keepoutKeys → visible graphFree overlay keepoutKeys h p q = false := by
  constructor
  · rintro c c' hcc hc hc' ⟨x, hx, hab⟩
    rcases centre_near hcc hx with hd | hd
    · exact hc (mem_lineCells hh hk hab hd)
    · exact hc' (mem_lineCells hh hk hab hd)
  · intro p q hm
    constructor
    · intro res z hz ha hc
      exact legsCross_reports hh hk hm hz ha hc
    · intro graphFree overlay keepoutKeys hsub
      exact not_visible hh hk hm graphFree overlay hsub

/-- A leg across a line of length 1. -/
theorem line_barrier_cross : ∃ keys, lineCells (0, 0) (1, 0) (1 : ℚ) = some keys ∧
    visible (fun _ => true) ⟨[], []⟩ keys (1 : ℚ) (1 / 2, -3) (1 / 2, 3) = false := by
  have hm : Meets ((1 : ℚ) / 2, (-3 : ℚ)) (1 / 2, 3) (0, 0) (1, 0) := by
    refine ⟨(1 / 2, 0), mem_segment_iff.mpr ⟨1 / 2, ?_⟩, mem_segment_iff.mpr ⟨1 / 2, ?_⟩⟩
    · norm_num [along]
    · norm_num [along]
  have hk : ∃ keys, lineCells (0, 0) (1, 0) (1 : ℚ) = some keys := by
    unfold lineCells
    dsimp only
    rw [if_neg (by norm_num [LINE_HALF_WIDTH_CELLS, MAX_CELLS])]
    exact ⟨_, rfl⟩
  obtain ⟨keys, hk⟩ := hk
  exact ⟨keys, hk, ((line_barrier one_pos hk).2 _ _ hm).2 _ _ _ subset_rfl⟩

end

end CloudServer.KeepoutLines
