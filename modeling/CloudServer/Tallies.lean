import CloudServer.Lists
import Mathlib.Algebra.BigOperators.Group.List.Basic
import Mathlib.Data.List.Dedup

/-! Distinct keys in order, and what the items under each key add up to. -/
namespace CloudServer.Tallies
open KeySort List

section
variable {ι κ M : Type*} [LinearOrder κ] [AddCommMonoid M] {l l' keys : List κ} {u : κ}

/-- `np.unique`. -/
def unique (l : List κ) : List κ := l.dedup.insertionSort fun a b => a ≤ b

/-- `np.searchsorted` in an ascending list. -/
def searchsorted (l : List κ) (u : κ) : ℕ := l.countP fun v => decide (v < u)

/-- `np.bincount`: what the items at every place below `n` add up to. -/
def bincount (place : ι → ℕ) (weight : ι → M) (l : List ι) (n : ℕ) : List M :=
  (List.range n).map fun i => ((l.filter fun a => place a = i).map weight).sum

def tally (key : ι → κ) (weight : ι → M) (l : List ι) (u : κ) : M :=
    ((l.filter fun a => key a = u).map weight).sum

@[simp] lemma mem_unique : u ∈ unique l ↔ u ∈ l := by
  rw [unique, mem_insertionSort, mem_dedup]

lemma unique_nodup (l : List κ) : (unique l).Nodup :=
  (perm_insertionSort _ _).nodup_iff.mpr (nodup_dedup l)

lemma unique_ordered (l : List κ) : (unique l).Pairwise fun a b => a < b :=
  ((sort_pairwise id l.dedup).and (unique_nodup l)).imp fun h => lt_of_le_of_ne h.1 h.2

lemma unique_congr (h : ∀ u, u ∈ l ↔ u ∈ l') : unique l = unique l' :=
  ordered_unique (f := id) (unique_ordered l) (unique_ordered l') fun u => by rw [mem_unique, mem_unique, h]

lemma searchsorted_eq (h : l.Pairwise fun a b => a < b) (hu : u ∈ l) : searchsorted l u = l.idxOf u := by
  induction h with
  | nil => cases hu
  | @cons a l hlt hl ih =>
    rw [searchsorted, countP_cons]
    rcases mem_cons.mp hu with rfl | hu'
    · have hnone : l.countP (fun v => decide (v < u)) = 0 :=
        countP_eq_zero.mpr fun v hv => by simp [(hlt v hv).le]
      rw [hnone, idxOf_cons_self]
      simp
    · have hau := hlt u hu'
      rw [if_pos (decide_eq_true hau), idxOf_cons_ne _ hau.ne]
      exact congrArg (· + 1) (ih hu')

section
variable (key : ι → κ) (weight : ι → M) (s : List ι)

lemma tally_cons (a : ι) : tally key weight (a :: s) u =
    (if key a = u then weight a else 0) + tally key weight s u := by
  unfold tally
  by_cases h : key a = u
  · simp [h]
  · simp [h]

lemma tally_append (t : List ι) : tally key weight (s ++ t) u = tally key weight s u + tally key weight t u := by
  unfold tally
  rw [filter_append, map_append, sum_append]

lemma tally_flatMap {β : Type*} (f : β → List ι) (t : List β) :
    tally key weight (t.flatMap f) u = (t.map fun b => tally key weight (f b) u).sum := by
  induction t with
  | nil => rfl
  | cons b t ih => rw [flatMap_cons, tally_append, ih, map_cons, sum_cons]

lemma bincount_eq (hkeys : keys.Nodup) :
    bincount (fun a => keys.idxOf (key a)) weight s keys.length = keys.map (tally key weight s) := by
  unfold bincount
  refine ext_getElem (by simp) fun i hi hi' => ?_
  rw [getElem_map, getElem_map, getElem_range, tally]
  have hlt : i < keys.length := by simpa using hi'
  refine congrArg List.sum (congrArg (List.map weight) (filter_congr fun a ha => ?_))
  have hiff : keys.idxOf (key a) = i ↔ key a = keys[i] := by
    constructor
    · rintro rfl
      exact (getElem_idxOf _).symm
    · intro h
      rw [h, hkeys.idxOf_getElem]
  simp only [hiff]

lemma sum_single {k : κ} (hkeys : keys.Nodup) (hk : k ∈ keys) (w : M) :
    (keys.map fun u => if k = u then w else 0).sum = w := by
  induction keys with
  | nil => cases hk
  | cons v keys ih =>
    obtain ⟨hv, hkeys⟩ := nodup_cons.mp hkeys
    rw [map_cons, sum_cons]
    rcases mem_cons.mp hk with rfl | hk'
    · have hzero : (keys.map fun u => if k = u then w else 0).sum = 0 := sum_eq_zero fun x hx => by
        obtain ⟨u, hu, rfl⟩ := mem_map.mp hx
        exact if_neg fun he : k = u => hv (he ▸ hu)
      rw [if_pos rfl, hzero, add_zero]
    · rw [if_neg fun he : k = v => hv (he ▸ hk'), zero_add, ih hkeys hk']

lemma sum_tally (hkeys : keys.Nodup) (hs : ∀ a ∈ s, key a ∈ keys ∨ weight a = 0) :
    (keys.map (tally key weight s)).sum = (s.map weight).sum := by
  induction s with
  | nil => exact sum_eq_zero fun x hx => by obtain ⟨u, -, rfl⟩ := mem_map.mp hx; rfl
  | cons a s ih =>
    have hfun : tally key weight (a :: s) = fun u => (if key a = u then weight a else 0) + tally key weight s u :=
      funext fun u => tally_cons key weight s a
    have hone : (keys.map fun u => if key a = u then weight a else 0).sum = weight a := by
      rcases hs a mem_cons_self with hk | hw
      · exact sum_single hkeys hk _
      · simp [hw]
    rw [hfun, sum_map_add, hone, ih fun b hb => hs b (mem_cons_of_mem a hb), map_cons, sum_cons]

lemma tally_map {β : Type*} (g : β → ι) (t : List β) :
    tally key weight (t.map g) u = tally (fun b => key (g b)) (fun b => weight (g b)) t u := by
  unfold tally
  rw [filter_map, map_map]
  rfl

lemma tally_of_notMem (hu : ∀ a ∈ s, key a ≠ u) : tally key weight s u = 0 := by
  unfold tally
  rw [filter_eq_nil_iff.mpr fun a ha => by simpa using hu a ha]
  rfl

lemma tally_graph (g : κ → M) (hkeys : keys.Nodup) :
    tally Prod.fst Prod.snd (keys.zip (keys.map g)) u = if u ∈ keys then g u else 0 := by
  induction keys with
  | nil => rfl
  | cons v keys ih =>
    obtain ⟨hv, hkeys⟩ := nodup_cons.mp hkeys
    rw [map_cons, zip_cons_cons, tally_cons, ih hkeys]
    by_cases hvu : v = u
    · subst hvu
      simp [hv]
    · simp [hvu, Ne.symm hvu]

lemma tally_twice (hkeys : keys.Nodup) (hs : ∀ a ∈ s, key a ∈ keys) :
    tally Prod.fst Prod.snd (keys.zip (keys.map (tally key weight s))) u = tally key weight s u := by
  rw [tally_graph _ hkeys]
  split_ifs with hu
  · rfl
  · exact (tally_of_notMem key weight s fun a ha (he : key a = u) => hu (he ▸ hs a ha)).symm

end
end
end CloudServer.Tallies
