import CloudServer.Succession

/-! Steps that retire names for good, merged into one step: what the running table makes of it. -/
namespace CloudServer.Succession

open List

variable {α : Type}

/-- `live i` are the names after `i` steps: a step retires names that are live in favour of names that are
live after it, and a retired name never comes back. -/
structure Consecutive (live : ℕ → Set α) (steps : List (List (α × List α))) : Prop where
  nodup : ∀ es ∈ steps, (retiredBy es).Nodup
  retired : ∀ i es, steps[i]? = some es → ∀ k ∈ retiredBy es, k ∈ live i
  gone : ∀ i es, steps[i]? = some es → ∀ k ∈ retiredBy es, ∀ j, i < j → j ≤ steps.length → k ∉ live j
  stays : ∀ i es, steps[i]? = some es → ∀ k ∈ live i, k ∉ retiredBy es → k ∈ live (i + 1)
  succ : ∀ i es, steps[i]? = some es → ∀ k s, (k, s) ∈ es → ∀ y ∈ s, y ∈ live (i + 1)

/-- No step retires a name that a step has named as a successor of a greater one. -/
def Ascending [LT α] (steps : List (List (α × List α))) : Prop :=
  ∀ es ∈ steps, ∀ es' ∈ steps, ∀ k s, (k, s) ∈ es → ∀ y ∈ s, y ∈ retiredBy es' → k < y

section
variable {live : ℕ → Set α} {es : List (α × List α)} {steps : List (List (α × List α))} {k x : α} {s : List α}

namespace Consecutive

lemma tail (h : Consecutive live (es :: steps)) : Consecutive (fun i => live (i + 1)) steps where
  nodup := fun es he => h.nodup es (mem_cons_of_mem _ he)
  retired := fun i es he => h.retired (i + 1) es he
  gone := fun i es he k hk j hij hj => h.gone (i + 1) es he k hk (j + 1) (by omega) (by simpa using hj)
  stays := fun i es he => h.stays (i + 1) es he
  succ := fun i es he => h.succ (i + 1) es he

lemma nil : Consecutive live [] where
  nodup := fun _ he => nomatch he
  retired := fun _ _ he => nomatch he
  gone := fun _ _ he => nomatch he
  stays := fun _ _ he => nomatch he
  succ := fun _ _ he => nomatch he

lemma cons (hnd : (retiredBy es).Nodup) (hretired : ∀ k ∈ retiredBy es, k ∈ live 0)
    (hgone : ∀ k ∈ retiredBy es, ∀ j, k ∉ live (j + 1)) (hstays : ∀ k ∈ live 0, k ∉ retiredBy es → k ∈ live 1)
    (hsucc : ∀ k s, (k, s) ∈ es → ∀ y ∈ s, y ∈ live 1) (h : Consecutive (fun i => live (i + 1)) steps) :
    Consecutive live (es :: steps) where
  nodup := by
    intro es' he
    rcases mem_cons.mp he with rfl | he
    · exact hnd
    · exact h.nodup es' he
  retired := by
    intro i es' he
    cases i with
    | zero =>
      cases he
      exact hretired
    | succ i => exact h.retired i es' he
  gone := by
    intro i es' he k hk j hij hj
    obtain ⟨j, rfl⟩ := Nat.exists_eq_succ_of_ne_zero (Nat.ne_of_gt (Nat.zero_lt_of_lt hij))
    cases i with
    | zero =>
      cases he
      exact hgone k hk j
    | succ i => exact h.gone i es' he k hk j (by omega) (by simpa using hj)
  stays := by
    intro i es' he
    cases i with
    | zero =>
      cases he
      exact hstays
    | succ i => exact h.stays i es' he
  succ := by
    intro i es' he
    cases i with
    | zero =>
      cases he
      exact hsucc
    | succ i => exact h.succ i es' he

lemma notMem (h : Consecutive live steps) {i j : ℕ} (hi : steps[i]? = some es) (hij : i < j)
    (hj : j ≤ steps.length) (hk : k ∈ live j) : k ∉ retiredBy es :=
  fun hr => h.gone i es hi k hr j hij hj hk

lemma flatten_nodup (h : Consecutive live steps) : (retiredBy steps.flatten).Nodup := by
  induction steps generalizing live with
  | nil => exact nodup_nil
  | cons es steps ih =>
    rw [flatten_cons, retiredBy_append]
    refine (h.nodup es mem_cons_self).append (ih h.tail) fun k hk hk' => ?_
    obtain ⟨e, he, rfl⟩ := mem_map.mp hk'
    obtain ⟨es', hes', he⟩ := mem_flatten.mp he
    obtain ⟨i, hi⟩ := mem_iff_getElem?.mp hes'
    have hlen := (List.getElem?_eq_some_iff.mp hi).1
    have hlive := h.tail.retired i es' hi e.1 (mem_map_of_mem he)
    exact h.gone 0 es rfl e.1 hk (i + 1) (by omega) (by simp; omega) hlive

end Consecutive

variable [DecidableEq α]

lemma mem_foldl_leads (steps : List (List (α × List α))) (s : List α) (x : α) :
    x ∈ steps.foldl (fun s es => s.flatMap (leads es)) s ↔ ∃ y ∈ s, x ∈ compose steps y := by
  induction steps using List.reverseRecOn generalizing x with
  | nil => simp [compose]
  | append_singleton steps es ih =>
    rw [foldl_concat, mem_flatMap]
    simp only [ih, compose_append, mem_flatMap]
    constructor
    · rintro ⟨z, ⟨y, hy, hz⟩, hx⟩
      exact ⟨y, hy, z, hz, hx⟩
    · rintro ⟨y, hy, z, hz, hx⟩
      exact ⟨z, ⟨y, hy, hz⟩, hx⟩

lemma mem_compose_cons : x ∈ compose (es :: steps) k ↔ ∃ y ∈ leads es k, x ∈ compose steps y := by
  rw [compose, foldl_cons, flatMap_singleton]
  exact mem_foldl_leads steps (leads es k) x

namespace Consecutive

lemma compose_live (h : Consecutive live steps) (hk : k ∈ live 0) (hx : x ∈ compose steps k) :
    x ∈ live steps.length := by
  induction steps generalizing live k with
  | nil =>
    obtain rfl := mem_singleton.mp hx
    exact hk
  | cons es steps ih =>
    obtain ⟨y, hy, hx⟩ := mem_compose_cons.mp hx
    refine ih h.tail ?_ hx
    by_cases hr : k ∈ retiredBy es
    · obtain ⟨⟨k', s⟩, he, rfl⟩ := mem_map.mp hr
      rw [leads_of_mem (h.nodup es mem_cons_self) he] at hy
      exact h.succ 0 es rfl k' s he y hy
    · rw [leads_of_notMem hr, mem_singleton] at hy
      subst hy
      exact h.stays 0 es rfl y hk hr

lemma compose_retired (h : Consecutive live steps) {i : ℕ} (hi : steps[i]? = some es) (he : (k, s) ∈ es) :
    x ∈ compose steps k ↔ ∃ y ∈ s, x ∈ compose steps y := by
  induction steps generalizing live i with
  | nil => cases hi
  | cons es' steps ih =>
    have hlater : ∀ j, 0 < j → j ≤ steps.length + 1 → ∀ y ∈ live j, leads es' y = [y] := by
      intro j h0 hj y hy
      have hnot : y ∉ retiredBy es' := h.notMem rfl h0 (by simpa using hj) hy
      exact leads_of_notMem hnot
    cases i with
    | zero =>
      obtain rfl := Option.some.inj hi
      rw [mem_compose_cons, leads_of_mem (h.nodup es' mem_cons_self) he]
      refine exists_congr fun y => and_congr_right fun hy => ?_
      rw [mem_compose_cons, hlater 1 one_pos (by omega) y (h.succ 0 es' rfl k s he y hy)]
      simp
    | succ i =>
      have hlen := (List.getElem?_eq_some_iff.mp hi).1
      simp only [length_cons] at hlen
      have hk := h.retired (i + 1) es hi k (mem_map_of_mem he)
      rw [mem_compose_cons, hlater (i + 1) (by omega) (by omega) k hk]
      simp only [mem_singleton, exists_eq_left]
      rw [ih h.tail hi]
      refine exists_congr fun y => and_congr_right fun hy => ?_
      have hy' := h.succ (i + 1) es hi k s he y hy
      rw [mem_compose_cons, hlater (i + 1 + 1) (by omega) (by omega) y hy']
      simp

lemma retired_live (h : Consecutive live steps) (hes : es ∈ steps) (hk : k ∈ retiredBy es)
    (hx : x ∈ compose steps k) : x ∈ live steps.length := by
  induction steps generalizing live with
  | nil => cases hes
  | cons es' steps ih =>
    by_cases hr : k ∈ retiredBy es'
    · exact h.compose_live (h.retired 0 es' rfl k hr) hx
    · obtain rfl | hes := mem_cons.mp hes
      · exact absurd hk hr
      · rw [mem_compose_cons, leads_of_notMem hr] at hx
        simp only [mem_singleton, exists_eq_left] at hx
        exact ih h.tail hes hx

end Consecutive

section Merged
variable {merged : List (α × List α)}

def Later (merged : List (α × List α)) : Prop :=
  ∀ l k s r, merged = l ++ (k, s) :: r → ∀ y ∈ s, y ∈ retiredBy merged → y ∈ retiredBy r

omit [DecidableEq α] in
lemma Consecutive.mem_merged (hp : merged.Perm steps.flatten) :
    k ∈ retiredBy merged ↔ ∃ es ∈ steps, k ∈ retiredBy es := by
  unfold retiredBy
  rw [(hp.map Prod.fst).mem_iff]
  simp only [mem_map, mem_flatten]
  constructor
  · rintro ⟨e, ⟨es, hes, he⟩, rfl⟩
    exact ⟨es, hes, e, he, rfl⟩
  · rintro ⟨es, hes, e, he, rfl⟩
    exact ⟨e, ⟨es, hes, he⟩, rfl⟩

lemma Consecutive.reach (h : Consecutive live steps) (hp : merged.Perm steps.flatten) (hlater : Later merged)
    {l r : List (α × List α)} (he : merged = l ++ r) (y x : α) :
    x ∈ reach r y ↔ if y ∈ retiredBy r then x ∈ compose steps y else x = y := by
  induction r generalizing l y x with
  | nil => simp [Succession.reach]
  | cons e r ih =>
    have ih' := @ih (l ++ [e]) (by simp [he])
    rw [Succession.reach]
    by_cases hy : y = e.1
    · subst hy
      have hmem : e ∈ steps.flatten := hp.mem_iff.mp (by simp [he])
      obtain ⟨es, hes, hmem⟩ := mem_flatten.mp hmem
      obtain ⟨i, hi⟩ := mem_iff_getElem?.mp hes
      rw [if_pos rfl, if_pos (by simp), mem_flatMap, h.compose_retired (s := e.2) hi hmem]
      refine exists_congr fun z => and_congr_right fun hz => ?_
      rw [ih' z x]
      split_ifs with hr
      · exact Iff.rfl
      · have hnone : ∀ es ∈ steps, z ∉ retiredBy es := fun es hes hz' =>
          hr (hlater l e.1 e.2 r he z hz ((Consecutive.mem_merged hp).mpr ⟨es, hes, hz'⟩))
        rw [compose_of_notMem hnone, mem_singleton]
    · rw [if_neg hy, ih' y x]
      simp [hy]

theorem Consecutive.merged_iff (h : Consecutive live steps) (hp : merged.Perm steps.flatten) :
    (∀ k ∈ retiredBy merged, ∃ s, (retireAll .empty merged).get k = some s ∧
      (∀ x, x ∈ s ↔ x ∈ compose steps k) ∧ ∀ x ∈ s, x ∈ live steps.length) ↔ Later merged := by
  have hnd : (retiredBy merged).Nodup := (hp.map Prod.fst).nodup_iff.mpr h.flatten_nodup
  constructor
  · intro hall l k s r he y hy hyr
    by_contra hnot
    obtain ⟨t, ht, -, hlive⟩ := hall k (by simp [he])
    have hsplit : (retiredBy l ++ k :: retiredBy r).Nodup := by
      rw [he] at hnd
      simpa using hnd
    have hkl : k ∉ retiredBy l := fun hm => (nodup_append.mp hsplit).2.2 k hm k (by simp) rfl
    have hmem : y ∈ t := by
      rw [mem_retireAll hnd ht y, if_pos (by simp [he]), he, reach_append hkl, Succession.reach, if_pos rfl]
      exact mem_flatMap.mpr ⟨y, hy, by rw [reach_of_notMem hnot]; exact mem_singleton_self y⟩
    obtain ⟨es, hes, hyes⟩ := (Consecutive.mem_merged hp).mp hyr
    obtain ⟨i, hi⟩ := mem_iff_getElem?.mp hes
    exact h.gone i es hi y hyes steps.length (List.getElem?_eq_some_iff.mp hi).1 le_rfl (hlive y hmem)
  · intro hlater k hk
    obtain ⟨s, hs⟩ := Dict.mem_keys.mp ((mem_keys_retireAll .empty merged k).mpr (Or.inr hk))
    have hmem : ∀ x, x ∈ s ↔ x ∈ compose steps k := fun x => by
      rw [mem_retireAll hnd hs x, if_pos hk, h.reach hp hlater (l := []) rfl k x, if_pos hk]
    obtain ⟨es, hes, hk'⟩ := (Consecutive.mem_merged hp).mp hk
    exact ⟨s, hs, hmem, fun x hx => h.retired_live hes hk' ((hmem x).mp hx)⟩

omit [DecidableEq α] in
lemma later_iff [LinearOrder α] (hnd : (retiredBy merged).Nodup) (hsorted : (retiredBy merged).Pairwise (· ≤ ·))
    (hp : merged.Perm steps.flatten) : Later merged ↔ Ascending steps := by
  have hlt : (retiredBy merged).Pairwise (· < ·) :=
    (hsorted.and hnd).imp fun ⟨hle, hne⟩ => lt_of_le_of_ne hle hne
  constructor
  · intro h es hes es' hes' k s hk y hy hy'
    obtain ⟨l, r, he⟩ := append_of_mem (hp.mem_iff.mpr (mem_flatten.mpr ⟨es, hes, hk⟩))
    have hyr := h l k s r he y hy ((Consecutive.mem_merged hp).mpr ⟨es', hes', hy'⟩)
    rw [he, retiredBy_append, retiredBy_cons] at hlt
    exact rel_of_pairwise_cons (pairwise_append.mp hlt).2.1 hyr
  · intro h l k s r he y hy hyr
    obtain ⟨es, hes, hk⟩ := mem_flatten.mp (hp.mem_iff.mp (show (k, s) ∈ merged by simp [he]))
    obtain ⟨es', hes', hy'⟩ := (Consecutive.mem_merged hp).mp hyr
    have hky := h es hes es' hes' k s hk y hy hy'
    rw [he, retiredBy_append, retiredBy_cons, mem_append, mem_cons] at hyr
    rcases hyr with hyl | rfl | hyr
    · rw [he, retiredBy_append, retiredBy_cons] at hlt
      exact absurd ((pairwise_append.mp hlt).2.2 y hyl k mem_cons_self) (not_lt.mpr hky.le)
    · exact absurd hky (lt_irrefl _)
    · exact hyr

end Merged

end
end CloudServer.Succession
