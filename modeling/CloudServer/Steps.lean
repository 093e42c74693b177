import Mathlib

/-! Machines with named steps. Their runs, each step under a condition: invariants, weaker conditions, and
runs that are played from a list. What sooner or later follows what in an infinite run: fair steps
and falling ranks. -/
namespace CloudServer.Steps

section
variable {σ α : Type} (step : σ → α → Option σ)

abbrev Runs (cond : σ → α → Prop) : σ → σ → Prop :=
  Relation.ReflTransGen fun S T => ∃ a, cond S a ∧ step S a = some T

def play (check : σ → α → Bool) (S : σ) : List α → Option σ
  | [] => some S
  | a :: acts => if check S a then (step S a).bind fun T => play check T acts else none

variable {step} {cond cond' : σ → α → Prop} {S T : σ}

lemma Runs.invariant {I : σ → Prop} (h : Runs step cond S T) (hS : I S)
    (hstep : ∀ S a T, cond S a → I S → step S a = some T → I T) : I T := by
  induction h with
  | refl => exact hS
  | tail _ hstepped ih =>
    obtain ⟨a, hc, hT⟩ := hstepped
    exact hstep _ a _ hc ih hT

variable {check : σ → α → Bool} {acts : List α}

lemma Runs.of_play
    (hcheck : ∀ S a, check S a = true → cond S a) (h : play step check S acts = some T) :
    Runs step cond S T := by
  induction acts generalizing S with
  | nil =>
    cases h
    exact .refl
  | cons a acts ih =>
    simp only [play] at h
    split at h
    · rename_i hc
      obtain ⟨U, hU, hrest⟩ := Option.bind_eq_some_iff.mp h
      exact Relation.ReflTransGen.head ⟨a, hcheck S a hc, hU⟩ (ih hrest)
    · cases h

lemma Runs.of_play_any {P : σ → Bool}
    (hcheck : ∀ S a, check S a = true → cond S a) (h : (play step check S acts).any P = true) :
    ∃ T, Runs step cond S T ∧ P T = true := by
  obtain ⟨T, hT, hP⟩ := (Option.any_eq_true P _).mp h
  exact ⟨T, .of_play hcheck hT, hP⟩

end
end CloudServer.Steps

namespace CloudServer.Progress

def LeadsTo (P Q : ℕ → Prop) : Prop := ∀ n, P n → ∃ m, n ≤ m ∧ Q m

variable {P Q : ℕ → Prop}

lemma LeadsTo.ensures (helpful : ℕ → Prop) (hstay : ∀ n, P n → Q n ∨ P (n + 1) ∨ Q (n + 1))
    (hfair : ∀ n, P n → ∃ m, n ≤ m ∧ helpful m)
    (hhelp : ∀ n, P n → helpful n → Q n ∨ Q (n + 1)) : LeadsTo P Q := by
  intro n hn
  obtain ⟨m, hnm, hm⟩ := hfair n hn
  by_contra hno
  push Not at hno
  have hP : ∀ k, n ≤ k → P k := by
    intro k hk
    induction k, hk using Nat.le_induction with
    | base => exact hn
    | succ k hk ih =>
      exact ((hstay k ih).resolve_left (hno k hk)).resolve_right (hno (k + 1) (by omega))
  exact (hhelp m (hP m hnm) hm).elim (hno m hnm) (hno (m + 1) (by omega))

lemma LeadsTo.of_rank (rank : ℕ → ℕ) (h : ∀ k, LeadsTo (fun n => P n ∧ rank n = k) fun n => Q n ∨ P n ∧ rank n < k) :
    LeadsTo P Q := by
  have hall : ∀ k n, P n → rank n = k → ∃ m, n ≤ m ∧ Q m := by
    intro k
    induction k using Nat.strong_induction_on with
    | _ k ih =>
      intro n hn hk
      obtain ⟨m, hnm, hm | ⟨hm, hlt⟩⟩ := h k n ⟨hn, hk⟩
      · exact ⟨m, hnm, hm⟩
      · obtain ⟨l, hml, hl⟩ := ih (rank m) hlt m hm rfl
        exact ⟨l, hnm.trans hml, hl⟩
  exact fun n hn => hall (rank n) n hn rfl

end CloudServer.Progress
