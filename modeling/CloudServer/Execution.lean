import CloudServer.Interact

/-! Invariants along the runs of a system, and its fair infinite executions, in which every
call that stays in flight moves again. -/
namespace CloudServer.Interact

open Function

section
variable {Op : Type} {Res : Op → Type} {σ ι κ ρ μ : Type} [DecidableEq ι]
variable {step : (o : Op) → σ → Res o × σ} {body : κ → μ → Prog Op Res (ρ × μ)} {blank : μ}
variable {cond : Sys Op Res σ ι κ ρ μ → Move ι κ → Prop} {S T : Sys Op Res σ ι κ ρ μ} {i j : ι}

lemma Run.strengthen {J : Sys Op Res σ ι κ ρ μ → Prop} (h : Run step body blank cond S T)
    (h0 : J S) (hstep : ∀ S m T, cond S m → J S → next step body blank S m = some T → J T) :
    Run step body blank (fun S m => cond S m ∧ J S) S T ∧ J T := by
  induction h with
  | refl => exact ⟨.refl _, h0⟩
  | @tail U V m _ hc hn ih => exact ⟨.tail m ih.1 ⟨hc, ih.2⟩ hn, hstep U m V hc ih.2 hn⟩

lemma next_op_iff : next step body blank S (.op i) = some T ↔ ∃ c o k own,
    S.flight i = some ⟨c, .call o k, own⟩ ∧ T = S.put (step o S.store).2 i (S.memory i)
      (some ⟨c, k (step o S.store).1, ⟨o, (step o S.store).1⟩ :: own⟩) := by
  simp only [next]
  constructor
  · intro h
    rcases hf : S.flight i with _ | ⟨c, _ | ⟨o, k⟩, own⟩
    · simp [hf] at h
    · simp [hf] at h
    · rw [hf] at h
      exact ⟨c, o, k, own, rfl, (Option.some.inj h).symm⟩
  · rintro ⟨c, o, k, own, hf, rfl⟩
    rw [hf]

lemma next_finish_iff : next step body blank S (.finish i) = some T ↔ ∃ c a own,
    S.flight i = some ⟨c, .done a, own⟩ ∧ T = S.put S.store i a.2 none := by
  simp only [next]
  constructor
  · intro h
    rcases hf : S.flight i with _ | ⟨c, a | ⟨o, k⟩, own⟩
    · simp [hf] at h
    · rw [hf] at h
      exact ⟨c, a, own, rfl, (Option.some.inj h).symm⟩
    · simp [hf] at h
  · rintro ⟨c, a, own, hf, rfl⟩
    rw [hf]

lemma next_start_iff {c : κ} : next step body blank S (.start i c) = some T ↔
    S.flight i = none ∧ T = S.put S.store i (S.memory i) (some ⟨c, body c (S.memory i), []⟩) := by
  simp only [next]
  constructor
  · intro h
    cases hf : S.flight i with
    | none =>
      rw [hf] at h
      exact ⟨rfl, (Option.some.inj h).symm⟩
    | some f => simp [hf] at h
  · rintro ⟨hf, rfl⟩
    rw [hf]

lemma next_crash_iff : next step body blank S (.crash i) = some T ↔
    S.flight i ≠ none ∧ T = S.put S.store i blank none := by
  simp only [next]
  cases hf : S.flight i with
  | none => simp
  | some f => simp [eq_comm]

lemma next_store (m : Move ι κ) (h : next step body blank S m = some T) :
    T.store = S.store ∨ ∃ i c o k own, m = .op i ∧ S.flight i = some ⟨c, .call o k, own⟩ ∧ T.store = (step o S.store).2 := by
  cases m with
  | start i c => exact .inl (by rw [(next_start_iff.mp h).2]; rfl)
  | finish i =>
    obtain ⟨c, a, own, -, rfl⟩ := next_finish_iff.mp h
    exact .inl rfl
  | crash i => exact .inl (by rw [(next_crash_iff.mp h).2]; rfl)
  | op i =>
    obtain ⟨c, o, k, own, hf, rfl⟩ := next_op_iff.mp h
    exact .inr ⟨i, c, o, k, own, rfl, hf, rfl⟩

def Move.of : Move ι κ → ι
  | .start i _ | .op i | .finish i | .crash i => i

lemma next_flight_of_ne (m : Move ι κ) (h : next step body blank S m = some T) (hj : j ≠ m.of) :
    T.flight j = S.flight j := by
  cases m with
  | start i c =>
    rw [(next_start_iff.mp h).2]
    exact update_of_ne hj ..
  | op i =>
    obtain ⟨c, o, k, own, -, rfl⟩ := next_op_iff.mp h
    exact update_of_ne hj ..
  | finish i =>
    obtain ⟨c, a, own, -, rfl⟩ := next_finish_iff.mp h
    exact update_of_ne hj ..
  | crash i =>
    rw [(next_crash_iff.mp h).2]
    exact update_of_ne hj ..

lemma next_kind (ok : ι → κ → Prop) (m : Move ι κ) (h : next step body blank S m = some T)
    (hm : ∀ i c, m = .start i c → ok i c) (hS : ∀ i f, S.flight i = some f → ok i f.kind) :
    ∀ i f, T.flight i = some f → ok i f.kind := by
  intro j f hj
  by_cases hji : j = m.of
  · subst hji
    cases m with
    | start i c =>
      rw [(next_start_iff.mp h).2] at hj
      simp only [Move.of, Sys.put, update_self, Option.some.injEq] at hj
      exact hj ▸ hm i c rfl
    | op i =>
      obtain ⟨c, o, k, own, hf, rfl⟩ := next_op_iff.mp h
      simp only [Move.of, Sys.put, update_self, Option.some.injEq] at hj
      have hok := hS i _ hf
      exact hj ▸ hok
    | finish i =>
      obtain ⟨c, a, own, -, rfl⟩ := next_finish_iff.mp h
      simp [Move.of, Sys.put] at hj
    | crash i =>
      rw [(next_crash_iff.mp h).2] at hj
      simp [Move.of, Sys.put] at hj
  · exact hS j f ((next_flight_of_ne m h hji).symm.trans hj)

structure Execution (step : (o : Op) → σ → Res o × σ) (body : κ → μ → Prog Op Res (ρ × μ))
    (blank : μ) (cond : Sys Op Res σ ι κ ρ μ → Move ι κ → Prop) (S : Sys Op Res σ ι κ ρ μ) where
  state : ℕ → Sys Op Res σ ι κ ρ μ
  move : ℕ → Option (Move ι κ)
  init : state 0 = S
  moves : ∀ n m, move n = some m → cond (state n) m ∧
    next step body blank (state n) m = some (state (n + 1))
  rests : ∀ n, move n = none → state (n + 1) = state n

/-- Every call under way gets another turn. -/
def Execution.Fair (E : Execution step body blank cond S) : Prop :=
  ∀ n i, (E.state n).flight i ≠ none → ∃ k ≥ n, E.move k = some (.op i) ∨ E.move k = some (.finish i)

variable (E : Execution step body blank cond S)

lemma Execution.run (n : ℕ) : Run step body blank cond S (E.state n) := by
  induction n with
  | zero =>
    rw [E.init]
    exact .refl S
  | succ n ih =>
    cases hm : E.move n with
    | none =>
      rw [E.rests n hm]
      exact ih
    | some m => exact .tail m ih (E.moves n m hm).1 (E.moves n m hm).2

variable {k n : ℕ} {f : Flight Op Res κ (ρ × μ)}

lemma Execution.waits (hcrash : ∀ S i, ¬cond S (.crash i)) (hnk : n ≤ k)
    (hf : (E.state n).flight i = some f)
    (hno : ∀ l, n ≤ l → l < k → E.move l ≠ some (.op i) ∧ E.move l ≠ some (.finish i)) :
    (E.state k).flight i = some f := by
  induction k, hnk using Nat.le_induction with
  | base => exact hf
  | succ k hk ih =>
    have hfk := ih fun l hl hlk => hno l hl (by omega)
    cases hm : E.move k with
    | none => rw [E.rests k hm, hfk]
    | some m =>
      obtain ⟨hc, hn⟩ := E.moves k m hm
      refine (next_flight_of_ne m hn fun hi => ?_).trans hfk
      obtain ⟨ho, hfin⟩ := hno k hk (by omega)
      cases m with
      | start j c =>
        obtain rfl : i = j := hi
        rw [(next_start_iff.mp hn).1] at hfk
        cases hfk
      | op j => exact ho (by rw [hm]; exact congrArg _ (congrArg _ hi.symm))
      | finish j => exact hfin (by rw [hm]; exact congrArg _ (congrArg _ hi.symm))
      | crash j => exact hcrash _ _ hc

lemma Execution.Fair.moves {E : Execution step body blank cond S} (hfair : E.Fair)
    (hcrash : ∀ S i, ¬cond S (.crash i))
    (hf : (E.state n).flight i = some f) : ∃ k ≥ n, (E.state k).flight i = some f ∧
      (E.move k = some (.op i) ∨ E.move k = some (.finish i)) := by
  classical
  have hex : ∃ k, n ≤ k ∧ (E.move k = some (.op i) ∨ E.move k = some (.finish i)) := by
    obtain ⟨k, hk, hm⟩ := hfair n i (by rw [hf]; simp)
    exact ⟨k, hk, hm⟩
  refine ⟨Nat.find hex, (Nat.find_spec hex).1, ?_, (Nat.find_spec hex).2⟩
  refine E.waits hcrash (Nat.find_spec hex).1 hf fun l hl hlk => ?_
  have hmin := Nat.find_min hex hlk
  push Not at hmin
  exact hmin hl

theorem Execution.Fair.leaves {E : Execution step body blank cond S} (hfair : E.Fair)
    (hcrash : ∀ S i, ¬cond S (.crash i)) {Q : List (Σ o, Res o) → Prop} {c : κ}
    (hend : ∀ n a own, (E.state n).flight i = some ⟨c, .done a, own⟩ → ¬Q own)
    {p : Prog Op Res (ρ × μ)} {own : List (Σ o, Res o)}
    (hf : (E.state n).flight i = some ⟨c, p, own⟩) (hQ : Q own) :
    ∃ k ≥ n, ∃ o cont own', (E.state k).flight i = some ⟨c, .call o cont, own'⟩ ∧
      E.move k = some (.op i) ∧ Q own' ∧ ¬Q (⟨o, (step o (E.state k).store).1⟩ :: own') := by
  induction p generalizing n own with
  | done a => exact absurd hQ (hend n a own hf)
  | call o cont ih =>
    obtain ⟨k, hk, hfk, hm | hm⟩ := hfair.moves hcrash hf
    · by_cases hQ' : Q (⟨o, (step o (E.state k).store).1⟩ :: own)
      · obtain ⟨c', o', cont', own', hf', hn⟩ := next_op_iff.mp (E.moves k _ hm).2
        obtain ⟨rfl, ⟨rfl, hcont⟩, rfl⟩ : c = c' ∧ (o = o' ∧ HEq cont cont') ∧ own = own' := by
          simpa using hfk.symm.trans hf'
        obtain rfl := eq_of_heq hcont
        have hnext : (E.state (k + 1)).flight i =
            some ⟨c, cont (step o (E.state k).store).1, ⟨o, (step o (E.state k).store).1⟩ :: own⟩ := by
          rw [hn]
          exact update_self ..
        obtain ⟨l, hl, hrest⟩ := ih _ hnext hQ'
        exact ⟨l, by omega, hrest⟩
      · exact ⟨k, hk, o, cont, own, hfk, hm, hQ, hQ'⟩
    · obtain ⟨c', a, own', hf', -⟩ := next_finish_iff.mp (E.moves k _ hm).2
      rw [hfk] at hf'
      cases hf'

section
variable (step body blank) (ms : List (Move ι κ)) (S : Sys Op Res σ ι κ ρ μ)

/-- After the first `n` moves of a list. -/
def after (n : ℕ) : Sys Op Res σ ι κ ρ μ :=
  (ms.take n).foldl (fun S m => (next step body blank S m).getD S) S

variable {step body blank ms S}

lemma after_succ {m : Move ι κ} (hm : ms[n]? = some m) : after step body blank ms S (n + 1) =
    (next step body blank (after step body blank ms S n) m).getD (after step body blank ms S n) := by
  unfold after
  rw [List.take_add_one, hm, List.foldl_append]
  rfl

/-- The moves of a list, and then rest. -/
def Execution.ofList (h : ∀ n m, ms[n]? = some m → cond (after step body blank ms S n) m ∧
    (next step body blank (after step body blank ms S n) m).isSome) :
    Execution step body blank cond S where
  state := after step body blank ms S
  move n := ms[n]?
  init := rfl
  moves n m hm := by
    obtain ⟨hc, hnext⟩ := h n m hm
    obtain ⟨T, hT⟩ := Option.isSome_iff_exists.mp hnext
    rw [after_succ hm, hT]
    exact ⟨hc, rfl⟩
  rests n hn := by
    have hlen := List.getElem?_eq_none_iff.mp hn
    unfold after
    rw [List.take_of_length_le hlen, List.take_of_length_le (hlen.trans n.le_succ)]

end

variable (step body blank) in
def play (check : Sys Op Res σ ι κ ρ μ → Move ι κ → Bool) (S : Sys Op Res σ ι κ ρ μ) :
    List (Move ι κ) → Option (Sys Op Res σ ι κ ρ μ)
  | [] => some S
  | m :: ms => if check S m then (next step body blank S m).bind fun T => play check T ms else none

lemma Run.of_play {check : Sys Op Res σ ι κ ρ μ → Move ι κ → Bool} {ms : List (Move ι κ)}
    (hcheck : ∀ m ∈ ms, ∀ S, check S m = true → cond S m) (h : play step body blank check S ms = some T) : Run step body blank cond S T := by
  induction ms generalizing S with
  | nil =>
    obtain rfl := Option.some.inj h
    exact .refl S
  | cons m ms ih =>
    simp only [play] at h
    split at h
    · obtain ⟨U, hn, hU⟩ := Option.bind_eq_some_iff.mp h
      have hrest := ih (fun m' hm' => hcheck m' (List.mem_cons_of_mem _ hm')) hU
      exact (Run.tail m (.refl S) (hcheck m (by simp) S ‹_›) hn).trans hrest
    · cases h

end
end CloudServer.Interact
