import Mathlib.Logic.Function.Iterate
import Mathlib.Data.List.Basic
import Mathlib.Algebra.Order.Ring.Nat
import Mathlib.Tactic.Ring

/-! Pointers that fall in rank up to their roots, followed by doubling them. -/
namespace CloudServer.PointerDoubling

/-- `par = par[par]` until nothing changes. -/
def doubling : ℕ → List ℕ → Option (List ℕ)
  | 0, _ => none
  | fuel + 1, par =>
    let nxt := par.map (par.getD · 0)
    if nxt = par then some par else doubling fuel nxt

def table (N : ℕ) (p : ℕ → ℕ) : List ℕ := (List.range N).map p

structure Falls (p rank : ℕ → ℕ) (N : ℕ) : Prop where
  inside : ∀ i < N, p i < N
  falls : ∀ i < N, p i = i ∨ rank (p i) < rank i
  rank_lt : ∀ i < N, rank i < N

variable {p q rank : ℕ → ℕ} {N i n m : ℕ}

lemma table_ext (h : ∀ i < N, p i = q i) : table N p = table N q :=
  List.map_congr_left fun i hi => h i (List.mem_range.mp hi)

lemma table_getD (hi : i < N) : (table N p).getD i 0 = p i := by
  simp [table, hi]

namespace Falls

lemma iterate_lt (h : Falls p rank N) (hi : i < N) (n : ℕ) : p^[n] i < N := by
  induction n with
  | zero => exact hi
  | succ n ih =>
    rw [Function.iterate_succ_apply']
    exact h.inside _ ih

lemma fixed_or_fell (h : Falls p rank N) (hi : i < N) (n : ℕ) :
    p (p^[n] i) = p^[n] i ∨ rank (p^[n] i) + n ≤ rank i := by
  induction n with
  | zero => exact .inr le_rfl
  | succ n ih =>
    rw [Function.iterate_succ_apply']
    rcases ih with ih | ih
    · exact .inl (by rw [ih, ih])
    · rcases h.falls _ (h.iterate_lt hi n) with he | hlt
      · exact .inl (by rw [he, he])
      · exact .inr (by omega)

lemma fixed (h : Falls p rank N) (hi : i < N) : p (p^[N] i) = p^[N] i := by
  rcases h.fixed_or_fell hi N with he | hle
  · exact he
  · have := h.rank_lt i hi
    omega

lemma root_of_back (h : Falls p rank N) (hi : i < N) (hback : p^[n + 1] i = i) : p i = i := by
  rcases h.fixed_or_fell hi (n + 1) with he | hle
  · rwa [hback] at he
  · rw [hback] at hle
    omega

lemma settled (hroot : p (p^[n] i) = p^[n] i) (hnm : n ≤ m) : p^[m] i = p^[n] i := by
  obtain ⟨k, rfl⟩ := Nat.exists_eq_add_of_le' hnm
  rw [Function.iterate_add_apply]
  exact Function.iterate_fixed hroot k

lemma doubled (h : Falls p rank N) (n : ℕ) :
    (table N p^[n]).map ((table N p^[n]).getD · 0) = table N p^[n + n] := by
  rw [table, List.map_map]
  refine List.map_congr_left fun i hi => ?_
  have hi' := List.mem_range.mp hi
  rw [Function.comp_apply, show List.map p^[n] (List.range N) = table N p^[n] from rfl,
    table_getD (h.iterate_lt hi' n), ← Function.iterate_add_apply]

theorem doubling_eq (h : Falls p rank N) : ∀ fuel k, N ≤ 2 ^ (k + fuel) →
    doubling (fuel + 1) (table N p^[2 ^ k]) = some (table N p^[N]) := by
  intro fuel
  induction fuel with
  | zero =>
    intro k hN
    have hsame : ∀ m, N ≤ m → table N p^[m] = table N p^[N] := fun m hm =>
      table_ext fun i hi => settled (h.fixed hi) hm
    rw [Nat.add_zero] at hN
    rw [doubling, h.doubled, hsame _ (le_trans hN (Nat.le_add_left _ _)), hsame (2 ^ k) hN, if_pos rfl]
  | succ fuel ih =>
    intro k hN
    rw [doubling, h.doubled]
    split_ifs with hstop
    · refine congrArg some (table_ext fun i hi => ?_)
      have hback : p^[2 ^ k] (p^[2 ^ k] i) = p^[2 ^ k] i := by
        rw [← Function.iterate_add_apply]
        have := congrArg (fun l => List.getD l i 0) hstop
        rwa [table_getD hi, table_getD hi] at this
      obtain ⟨n, hn⟩ := Nat.exists_eq_succ_of_ne_zero (pow_ne_zero k two_ne_zero : 2 ^ k ≠ 0)
      have hroot : p (p^[2 ^ k] i) = p^[2 ^ k] i := by
        refine h.root_of_back (h.iterate_lt hi _) (n := n) ?_
        rw [hn] at hback ⊢
        exact hback
      rcases le_total (2 ^ k) N with hle | hle
      · exact (settled hroot hle).symm
      · exact settled (h.fixed hi) hle
    · have hdouble : 2 ^ k + 2 ^ k = 2 ^ (k + 1) := by ring
      rw [hdouble]
      exact ih (k + 1) (by rwa [Nat.add_right_comm])

end Falls
end CloudServer.PointerDoubling
