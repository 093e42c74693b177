import CloudServer.Lists
import Mathlib

/-! Unions of intervals: merging them, how much of a union lies before a point, and its measure. -/
namespace CloudServer.Coverage

open List

section
variable {𝕜 : Type*} [LinearOrder 𝕜]

/-- One more interval, in the order of the starts; of the merged ones the last comes first. -/
def mergeStep (merged : List (𝕜 × 𝕜)) (span : 𝕜 × 𝕜) : List (𝕜 × 𝕜) :=
  if span.2 ≤ span.1 then merged
  else match merged with
    | last :: rest => if span.1 ≤ last.2 then (last.1, max last.2 span.2) :: rest else span :: last :: rest
    | [] => [span]

def merge (spans : List (𝕜 × 𝕜)) : List (𝕜 × 𝕜) :=
  ((spans.insertionSort fun a b => toLex a ≤ toLex b).foldl mergeStep []).reverse

def Separated (m : List (𝕜 × 𝕜)) : Prop := (∀ i ∈ m, i.1 < i.2) ∧ m.Pairwise fun a b => a.2 < b.1

variable {m spans acc : List (𝕜 × 𝕜)} {x : 𝕜}

lemma Separated.tail {i : 𝕜 × 𝕜} (h : Separated (i :: m)) : Separated m ∧ i.1 < i.2 ∧ ∀ j ∈ m, i.2 < j.1 := by
  obtain ⟨hproper, hapart⟩ := h
  obtain ⟨hi, hm⟩ := pairwise_cons.mp hapart
  exact ⟨⟨fun j hj => hproper j (mem_cons_of_mem _ hj), hm⟩, hproper i mem_cons_self, hi⟩

def union (m : List (𝕜 × 𝕜)) : Set 𝕜 := {x | ∃ i ∈ m, i.1 ≤ x ∧ x ≤ i.2}

lemma union_cons (i : 𝕜 × 𝕜) (m : List (𝕜 × 𝕜)) : union (i :: m) = Set.Icc i.1 i.2 ∪ union m := by
  ext x
  simp [union]

/-! ### Merging -/

structure Merged (acc : List (𝕜 × 𝕜)) (spans : List (𝕜 × 𝕜)) : Prop where
  proper : ∀ i ∈ acc, i.1 < i.2
  apart : acc.Pairwise fun a b => b.2 < a.1
  before : ∀ i ∈ acc, ∀ j ∈ spans, i.1 ≤ j.1

lemma Merged.step {span : 𝕜 × 𝕜} (h : Merged acc (span :: spans)) (hs : ∀ j ∈ spans, span.1 ≤ j.1) :
    Merged (mergeStep acc span) spans ∧ (x ∈ union (mergeStep acc span) ↔
      x ∈ union acc ∨ span.1 < span.2 ∧ span.1 ≤ x ∧ x ≤ span.2) := by
  obtain ⟨hproper, hapart, hbefore⟩ := h
  unfold mergeStep
  by_cases hle : span.2 ≤ span.1
  · rw [if_pos hle]
    refine ⟨⟨hproper, hapart, fun i hi j hj => hbefore i hi j (mem_cons_of_mem _ hj)⟩, ?_⟩
    simp [hle.not_gt]
  · rw [if_neg hle]
    have hlt := not_le.mp hle
    cases acc with
    | nil =>
      refine ⟨⟨by simpa using hlt, pairwise_singleton _ _, by simpa using hs⟩, ?_⟩
      simp [union, hlt]
    | cons last rest =>
      obtain ⟨hlast, hrest⟩ := pairwise_cons.mp hapart
      have hstart := hbefore last mem_cons_self span mem_cons_self
      have hlproper := hproper last mem_cons_self
      have hrproper : ∀ i ∈ rest, i.1 < i.2 := fun i hi => hproper i (mem_cons_of_mem _ hi)
      have hrbefore : ∀ i ∈ rest, ∀ j ∈ spans, i.1 ≤ j.1 := fun i hi j hj =>
        hbefore i (mem_cons_of_mem _ hi) j (mem_cons_of_mem _ hj)
      by_cases hmeet : span.1 ≤ last.2
      · simp only [if_pos hmeet]
        refine ⟨⟨?_, pairwise_cons.mpr ⟨hlast, hrest⟩, ?_⟩, ?_⟩
        · rintro i (_ | ⟨_, hi⟩)
          · exact hlproper.trans_le (le_max_left _ _)
          · exact hrproper i hi
        · rintro i (_ | ⟨_, hi⟩) j hj
          · exact hstart.trans (hs j hj)
          · exact hrbefore i hi j hj
        · rw [union_cons, union_cons, Set.mem_union, Set.mem_union, Set.mem_Icc, Set.mem_Icc, or_right_comm]
          refine or_congr_left ?_
          constructor
          · rintro ⟨h₁, h₂⟩
            by_cases hx : x ≤ last.2
            · exact .inl ⟨h₁, hx⟩
            · exact .inr ⟨hlt, hmeet.trans (not_le.mp hx).le, (le_max_iff.mp h₂).resolve_left hx⟩
          · rintro (⟨h₁, h₂⟩ | ⟨-, h₁, h₂⟩)
            · exact ⟨h₁, h₂.trans (le_max_left _ _)⟩
            · exact ⟨hstart.trans h₁, h₂.trans (le_max_right _ _)⟩
      · simp only [if_neg hmeet]
        have hgap := not_le.mp hmeet
        refine ⟨⟨?_, pairwise_cons.mpr ⟨?_, hapart⟩, ?_⟩, ?_⟩
        · rintro i (_ | ⟨_, hi⟩)
          · exact hlt
          · exact hproper i hi
        · rintro i (_ | ⟨_, hi⟩)
          · exact hgap
          · exact (hlast i hi).trans (hlproper.trans hgap)
        · rintro i (_ | ⟨_, hi⟩) j hj
          · exact hs j hj
          · exact hbefore i hi j (mem_cons_of_mem _ hj)
        · rw [union_cons, Set.mem_union, Set.mem_Icc, or_comm]
          simp [hlt]

lemma Merged.run (h : Merged acc spans) (hs : spans.Pairwise fun a b => a.1 ≤ b.1) :
    Merged (spans.foldl mergeStep acc) [] ∧ (x ∈ union (spans.foldl mergeStep acc) ↔
      x ∈ union acc ∨ x ∈ union (spans.filter fun i => i.1 < i.2)) := by
  induction spans generalizing acc with
  | nil => exact ⟨h, by simp [union]⟩
  | cons span spans ih =>
    obtain ⟨hspan, hs⟩ := pairwise_cons.mp hs
    have hstep := h.step (x := x) hspan
    obtain ⟨hrun, hmem⟩ := ih hstep.1 hs
    refine ⟨hrun, ?_⟩
    rw [foldl_cons, hmem, hstep.2, or_assoc]
    refine or_congr_right ?_
    by_cases hlt : span.1 < span.2
    · rw [filter_cons_of_pos (by simpa using hlt), union_cons, Set.mem_union, Set.mem_Icc, and_iff_right hlt]
    · rw [filter_cons_of_neg (by simpa using hlt)]
      simp [hlt]

lemma merged_of_sorted (spans : List (𝕜 × 𝕜)) (x : 𝕜) :
    Merged (merge spans).reverse [] ∧ (x ∈ union (merge spans) ↔ ∃ i ∈ spans, i.1 < i.2 ∧ i.1 ≤ x ∧ x ≤ i.2) := by
  have hsorted : (spans.insertionSort fun a b => toLex a ≤ toLex b).Pairwise fun a b => a.1 ≤ b.1 :=
    (KeySort.sort_pairwise (fun i : 𝕜 × 𝕜 => toLex i) spans).imp fun h => Prod.Lex.monotone_fst _ _ h
  have hstart : Merged ([] : List (𝕜 × 𝕜)) (spans.insertionSort fun a b => toLex a ≤ toLex b) :=
    ⟨by simp, .nil, by simp⟩
  obtain ⟨hmerged, hmem⟩ := hstart.run (x := x) hsorted
  refine ⟨by rwa [merge, reverse_reverse], ?_⟩
  have hrev : ∀ l : List (𝕜 × 𝕜), x ∈ union l.reverse ↔ x ∈ union l := fun l => by simp [union]
  rw [merge, hrev, hmem]
  simp [union, and_assoc]

lemma merge_separated (spans : List (𝕜 × 𝕜)) : Separated (merge spans) := by
  cases isEmpty_or_nonempty 𝕜 with
  | inl h =>
    cases spans with
    | nil => exact ⟨by simp [merge], by simp [merge]⟩
    | cons i _ => exact h.elim i.1
  | inr h =>
    obtain ⟨⟨hproper, hapart, -⟩, -⟩ := merged_of_sorted spans h.some
    exact ⟨fun i hi => hproper i (mem_reverse.mpr hi), pairwise_reverse.mp hapart⟩

lemma mem_union_merge : x ∈ union (merge spans) ↔ ∃ i ∈ spans, i.1 < i.2 ∧ i.1 ≤ x ∧ x ≤ i.2 :=
  (merged_of_sorted spans x).2

end

section
variable {𝕜 : Type*} [Field 𝕜] [LinearOrder 𝕜]

def points : 𝕜 → List (𝕜 × 𝕜) → List (𝕜 × 𝕜)
  | _, [] => []
  | before, (s, e) :: rest => (s, before) :: (e, before + (e - s)) :: points (before + (e - s)) rest

/-- `np.interp`: linear between the points, constant beyond them. -/
def interp : List (𝕜 × 𝕜) → 𝕜 → 𝕜
  | [], _ => 0
  | [(_, v)], _ => v
  | (p, v) :: (q, w) :: rest, x =>
    if x ≤ p then v else if x < q then v + (w - v) / (q - p) * (x - p) else interp ((q, w) :: rest) x

def covered (m : List (𝕜 × 𝕜)) (x : 𝕜) : 𝕜 := (m.map fun i => min (max x i.1) i.2 - i.1).sum

def total (m : List (𝕜 × 𝕜)) : 𝕜 := (m.map fun i => i.2 - i.1).sum

variable {m : List (𝕜 × 𝕜)} {x : 𝕜}

lemma covered_cons (i : 𝕜 × 𝕜) (m : List (𝕜 × 𝕜)) (x : 𝕜) :
    covered (i :: m) x = (min (max x i.1) i.2 - i.1) + covered m x := by
  rw [covered, map_cons, sum_cons, covered]

lemma covered_of_le (h : Separated m) (hx : ∀ i ∈ m, x ≤ i.1) : covered m x = 0 := by
  refine sum_eq_zero fun v hv => ?_
  obtain ⟨i, hi, rfl⟩ := mem_map.mp hv
  rw [max_eq_right (hx i hi), min_eq_left (h.1 i hi).le, sub_self]

lemma interp_points [IsStrictOrderedRing 𝕜] (h : Separated m) (hm : m ≠ []) (before : 𝕜) :
    interp (points before m) x = before + covered m x := by
  induction m generalizing before with
  | nil => exact absurd rfl hm
  | cons i m ih =>
    obtain ⟨s, e⟩ := i
    obtain ⟨hsep, hse, hgap⟩ := h.tail
    have hrest : x ≤ e → covered m x = 0 := fun hx => covered_of_le hsep fun j hj => hx.trans (hgap j hj).le
    rw [covered_cons, points, interp]
    by_cases hxs : x ≤ s
    · rw [if_pos hxs, hrest (hxs.trans hse.le), max_eq_right hxs, min_eq_left hse.le]
      ring
    · rw [if_neg hxs]
      have hsx := not_le.mp hxs
      by_cases hxe : x < e
      · rw [if_pos hxe, hrest hxe.le, max_eq_left hsx.le, min_eq_left hxe.le]
        have hne : e - s ≠ 0 := (sub_pos.mpr hse).ne'
        field_simp
        ring
      · rw [if_neg hxe]
        have hex := not_lt.mp hxe
        rw [max_eq_left hsx.le, min_eq_right hex]
        cases m with
        | nil =>
          simp only [points, interp, covered, map_nil, sum_nil, add_zero]
        | cons j m =>
          obtain ⟨s', e'⟩ := j
          have hes := hgap (s', e') mem_cons_self
          rw [points, interp]
          by_cases hle : x ≤ e
          · rw [if_pos hle, hrest hle, add_zero]
          · rw [if_neg hle]
            by_cases hlt : x < s'
            · rw [if_pos hlt, covered_of_le hsep fun k hk => ?_, add_zero, sub_self, zero_div, zero_mul, add_zero]
              rcases mem_cons.mp hk with rfl | hk
              · exact hlt.le
              · exact hlt.le.trans ((hsep.1 _ mem_cons_self).trans (hsep.tail.2.2 k hk)).le
            · have hrec := ih hsep (cons_ne_nil _ _) (before + (e - s))
              rw [points] at hrec
              rw [if_neg hlt, hrec, add_assoc]

end

/-! ### Measure -/

section
open MeasureTheory

variable {m : List (ℝ × ℝ)} {A : Set ℝ} {a b : ℝ}

lemma union_nil : union ([] : List (ℝ × ℝ)) = ∅ := by simp [union]

lemma union_measurable (m : List (ℝ × ℝ)) : MeasurableSet (union m) := by
  induction m with
  | nil => rw [union_nil]; exact MeasurableSet.empty
  | cons i m ih => rw [union_cons]; exact measurableSet_Icc.union ih

lemma union_finite (m : List (ℝ × ℝ)) : volume (union m) ≠ ⊤ := by
  induction m with
  | nil => simp [union_nil]
  | cons i m ih => rw [union_cons]; exact measure_union_ne_top (by simp) ih

lemma measure_inter (h : Separated m) (hA : MeasurableSet A) :
    volume.real (A ∩ union m) = (m.map fun i => volume.real (A ∩ Set.Icc i.1 i.2)).sum := by
  induction m with
  | nil => simp [union_nil]
  | cons i m ih =>
    obtain ⟨hsep, -, hgap⟩ := h.tail
    have hdisj : Disjoint (A ∩ Set.Icc i.1 i.2) (A ∩ union m) := by
      refine Set.disjoint_left.mpr fun x hx hx' => ?_
      obtain ⟨j, hj, hle, -⟩ := hx'.2
      exact (hx.2.2.trans_lt (hgap j hj)).not_ge hle
    rw [union_cons, Set.inter_union_distrib_left, measureReal_union hdisj (hA.inter (union_measurable m))
      (measure_ne_top_of_subset Set.inter_subset_right (by simp))
      (measure_ne_top_of_subset Set.inter_subset_right (union_finite m)), ih hsep, map_cons, sum_cons]

lemma measure_union (h : Separated m) : volume.real (union m) = total m := by
  rw [← Set.univ_inter (union m), measure_inter h MeasurableSet.univ]
  refine congrArg List.sum (map_congr_left fun i hi => ?_)
  rw [Set.univ_inter, Real.volume_real_Icc_of_le (h.1 i hi).le]

lemma measure_between (h : Separated m) (hab : a ≤ b) :
    volume.real (Set.Icc a b ∩ union m) = covered m b - covered m a := by
  rw [eq_sub_iff_add_eq, measure_inter h measurableSet_Icc, covered, covered, ← sum_map_add]
  refine congrArg List.sum (map_congr_left fun i hi => ?_)
  have hi := h.1 i hi
  rw [Set.Icc_inter_Icc, Real.volume_real_Icc]
  rcases le_total a i.1 with h₁ | h₁ <;> rcases le_total b i.2 with h₂ | h₂ <;>
    rcases le_total a i.2 with h₃ | h₃ <;> rcases le_total b i.1 with h₄ | h₄ <;>
    simp only [max_def, min_def] <;> split_ifs <;> linarith

lemma covered_mono (h : Separated m) (hab : a ≤ b) : covered m a ≤ covered m b :=
  sub_nonneg.mp (measure_between h hab ▸ measureReal_nonneg)

lemma covered_nonneg (h : Separated m) (x : ℝ) : 0 ≤ covered m x := by
  refine sum_nonneg fun v hv => ?_
  obtain ⟨i, hi, rfl⟩ := mem_map.mp hv
  exact sub_nonneg.mpr (le_min (le_max_right _ _) (h.1 i hi).le)

lemma covered_le_total (x : ℝ) : covered m x ≤ total m :=
  sum_le_sum fun _ _ => sub_le_sub_right (min_le_right _ _) _

lemma covered_sub_le (h : Separated m) (hab : a ≤ b) : covered m b - covered m a ≤ b - a := by
  rw [← measure_between h hab, ← Real.volume_real_Icc_of_le hab]
  exact measureReal_mono Set.inter_subset_left (by simp)

end
end CloudServer.Coverage
