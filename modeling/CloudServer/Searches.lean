import Mathlib

/-! Searches: distances from a set of nodes along arcs with natural weights, and a search in windows that
double, each scanned for its best entry, which is taken when nothing better can lie outside the window,
or when the window holds everything. -/
namespace CloudServer.Shortest

variable {σ : Type}

/-- The arcs lead from a source to `x` at cost `d`. -/
inductive Trail (arcs : List (σ × σ × ℕ)) (sources : List σ) : σ → ℕ → Prop
  | source {x : σ} (h : x ∈ sources) : Trail arcs sources x 0
  | arc {x y : σ} {d w : ℕ} (h : Trail arcs sources x d) (he : (x, y, w) ∈ arcs) :
      Trail arcs sources y (d + w)

/-- `d` is the distance of `x`. -/
def Distance (arcs : List (σ × σ × ℕ)) (sources : List σ) (x : σ) (d : ℕ) : Prop :=
  IsLeast {d | Trail arcs sources x d} d

/-- A search on any type of nodes: arcs, sources and a limit give the distances found. -/
abbrev Search := (σ : Type) → List (σ × σ × ℕ) → List σ → Option ℕ → σ → Option ℕ

def Within (limit : Option ℕ) (d : ℕ) : Prop := ∀ l, limit = some l → d ≤ l

/-- The search returns the distances within its limit, and no others. -/
def Search.Exact (search : Search) : Prop :=
  ∀ (σ : Type) (arcs : List (σ × σ × ℕ)) (sources : List σ) (limit : Option ℕ) (x : σ) (d : ℕ),
    search σ arcs sources limit x = some d ↔ Distance arcs sources x d ∧ Within limit d

variable {arcs : List (σ × σ × ℕ)} {sources : List σ}

lemma exists_distance {x : σ} {d : ℕ}
    (h : Trail arcs sources x d) : ∃ d' ≤ d, Distance arcs sources x d' := by
  classical
  have hex : ∃ d, Trail arcs sources x d := ⟨d, h⟩
  exact ⟨Nat.find hex, Nat.find_min' hex h, Nat.find_spec hex, fun _ hd => Nat.find_min' hex hd⟩

lemma Search.Exact.found {search : Search} (hs : search.Exact)
    {limit : Option ℕ} {x : σ} {d : ℕ} (h : Trail arcs sources x d)
    (hd : Within limit d) : ∃ d' ≤ d, search σ arcs sources limit x = some d' := by
  obtain ⟨d', hle, hdist⟩ := exists_distance h
  exact ⟨d', hle, (hs σ arcs sources limit x d').mpr ⟨hdist, fun l hl => hle.trans (hd l hl)⟩⟩

open Classical in
noncomputable def lookup : Search := fun _ arcs sources limit x =>
  if h : ∃ d, Distance arcs sources x d ∧ Within limit d then some h.choose else none

lemma lookup_exact : Search.Exact lookup := by
  intro σ arcs sources limit x d
  unfold lookup
  constructor
  · intro h
    split_ifs at h with hex
    rw [← Option.some.inj h]
    exact hex.choose_spec
  · intro h
    have hex : ∃ d, Distance arcs sources x d ∧ Within limit d := ⟨d, h⟩
    rw [dif_pos hex]
    exact congrArg some (hex.choose_spec.1.unique h.1)

end CloudServer.Shortest

namespace CloudServer.WindowSearch

variable {α ε : Type} (scan : ℤ → Except ε (Option α)) (near : α → ℤ → Bool) (reach : ℤ)

/-- `none` when the fuel runs out, else the answer of the search. -/
def search : ℕ → ℤ → Option (Except ε (Option α))
  | 0, _ => none
  | fuel + 1, r =>
    match scan r with
    | .error e => some (.error e)
    | .ok found =>
      match found.filter fun a => near a r ∨ reach ≤ r with
      | some a => some (.ok (some a))
      | none => if reach ≤ r then some (.ok none) else search fuel (min (2 * r) reach)

/-- The answer comes from a window, and one that is near enough for it, or holds everything. -/
def Answers (answer : Option α) : Prop :=
  ∃ r, 1 ≤ r ∧ scan r = .ok answer ∧ match answer with
    | none => reach ≤ r
    | some a => near a r ∨ reach ≤ r

variable {scan near reach}

theorem search_answers (hscan : ∀ r, ∃ found, scan r = .ok found) (n : ℕ) {r : ℤ} (hr : 1 ≤ r) (hn : reach ≤ r + n) :
    ∃ answer, Answers scan near reach answer ∧ ∀ more, search scan near reach (n + 1 + more) r = some (.ok answer) := by
  induction n generalizing r with
  | zero =>
    obtain ⟨found, hfound⟩ := hscan r
    have hwhole : reach ≤ r := by simpa using hn
    refine ⟨found, ⟨r, hr, hfound, ?_⟩, fun more => ?_⟩
    · cases found with
      | none => exact hwhole
      | some a => exact Or.inr hwhole
    · rw [show 0 + 1 + more = more + 1 by omega]
      unfold search
      rw [hfound]
      cases found with
      | none => simp [hwhole]
      | some a => simp [hwhole, Option.filter]
  | succ n ih =>
    obtain ⟨found, hfound⟩ := hscan r
    have hstep : ∀ more, search scan near reach (n + 1 + 1 + more) r =
        match found.filter fun a => near a r ∨ reach ≤ r with
        | some a => some (.ok (some a))
        | none => if reach ≤ r then some (.ok none) else search scan near reach (n + 1 + more) (min (2 * r) reach) := by
      intro more
      rw [show n + 1 + 1 + more = n + 1 + more + 1 by omega]
      conv_lhs => unfold search
      rw [hfound]
    simp only [hstep]
    cases hf : found.filter fun a => near a r ∨ reach ≤ r with
    | some a =>
      obtain ⟨rfl, ha⟩ := Option.filter_eq_some_iff.mp hf
      exact ⟨some a, ⟨r, hr, hfound, of_decide_eq_true ha⟩, fun _ => rfl⟩
    | none =>
      dsimp only
      by_cases hwhole : reach ≤ r
      · simp only [if_pos hwhole]
        cases found with
        | none => exact ⟨none, ⟨r, hr, hfound, hwhole⟩, fun _ => rfl⟩
        | some a => simp [hwhole] at hf
      · simp only [if_neg hwhole]
        push_cast at hn
        exact ih (by omega) (by omega)

end CloudServer.WindowSearch
