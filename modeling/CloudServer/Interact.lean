import Mathlib

/-! Programs that talk to a shared store through single operations, their sequential run
and their interleavings, with a rely-guarantee rule for the interleavings. -/
namespace CloudServer.Interact

/-- A program of calls, each continued with its answer. -/
inductive Prog (Op : Type) (Res : Op → Type) (α : Type)
  | done (a : α)
  | call (o : Op) (k : Res o → Prog Op Res α)

namespace Prog
variable {Op : Type} {Res : Op → Type} {α β σ : Type}

def bind : Prog Op Res α → (α → Prog Op Res β) → Prog Op Res β
  | done a, f => f a
  | call o k, f => call o fun r => (k r).bind f

instance : Monad (Prog Op Res) where
  pure := done
  bind := bind

def perform (o : Op) : Prog Op Res (Res o) := call o done

lemma bind_assoc {γ : Type} (p : Prog Op Res α) (f : α → Prog Op Res β) (g : β → Prog Op Res γ) :
    p >>= f >>= g = p >>= fun a => f a >>= g := by
  induction p with
  | done a => rfl
  | call o k ih => exact congrArg (call o) (funext ih)

def run (step : (o : Op) → σ → Res o × σ) : Prog Op Res α → σ → α × σ
  | done a, s => (a, s)
  | call o k, s => (k (step o s).1).run step (step o s).2

section Run
variable (step : (o : Op) → σ → Res o × σ)

@[simp]
lemma run_pure (a : α) (s : σ) : (pure a : Prog Op Res α).run step s = (a, s) := rfl

lemma run_bind (p : Prog Op Res α) (f : α → Prog Op Res β) (s : σ) :
    (p >>= f).run step s = (f (p.run step s).1).run step (p.run step s).2 := by
  induction p generalizing s with
  | done a => rfl
  | call o k ih => exact ih _ _

/-- Some of the operations of a program are made: its rest, and the store they leave. -/
inductive Steps : Prog Op Res α → σ → Prog Op Res α → σ → Prop
  | stop (p : Prog Op Res α) (s : σ) : Steps p s p s
  | call {o : Op} {k : Res o → Prog Op Res α} {s s' : σ} {q : Prog Op Res α}
    (rest : Steps (k (step o s).1) (step o s).2 q s') : Steps (.call o k) s q s'

/-- Every operation keeps the invariant, and what the program returns has `post`. -/
def Keeps (inv : σ → Prop) (post : α → Prop) : Prog Op Res α → Prop
  | .done a => post a
  | .call o k => ∀ s, inv s → inv (step o s).2 ∧ Keeps inv post (k (step o s).1)

variable {step} {inv : σ → Prop} {mid : α → Prop} {post : β → Prop} {s s' s'' : σ}
variable {p q r : Prog Op Res α} {f : α → Prog Op Res β}

lemma Keeps.bind (hp : p.Keeps step inv mid) (hf : ∀ a, mid a → (f a).Keeps step inv post) :
    (p >>= f).Keeps step inv post := by
  induction p with
  | done a => exact hf a hp
  | call o k ih =>
    intro s hs
    obtain ⟨hkept, hrest⟩ := hp s hs
    exact ⟨hkept, ih _ hrest⟩

lemma Keeps.perform {o : Op} (ho : ∀ s, inv s → inv (step o s).2) :
    (Prog.perform o : Prog Op Res (Res o)).Keeps step inv
      fun r => ∃ s, inv s ∧ r = (step o s).1 :=
  fun s hs => ⟨ho s hs, s, hs, rfl⟩

lemma Keeps.imp {mid' : α → Prop} (hp : p.Keeps step inv mid) (himp : ∀ a, mid a → mid' a) :
    p.Keeps step inv mid' := by
  induction p with
  | done a => exact himp a hp
  | call o k ih =>
    intro s hs
    obtain ⟨hkept, hrest⟩ := hp s hs
    exact ⟨hkept, ih _ hrest⟩

lemma Steps.keeps (h : Steps step p s q s') (hp : p.Keeps step inv mid) (hs : inv s) : inv s' := by
  induction h with
  | stop => exact hs
  | call rest ih =>
    obtain ⟨hkept, hrest⟩ := hp _ hs
    exact ih hrest hkept

lemma Steps.run (p : Prog Op Res α) (s : σ) :
    Steps step p s (.done (p.run step s).1) (p.run step s).2 := by
  induction p generalizing s with
  | done a => exact .stop _ _
  | call o k ih => exact .call (ih _ _)

lemma Keeps.steps_done (hp : p.Keeps step inv mid) (hs : inv s) :
    ∃ a s', Steps step p s (.done a) s' ∧ inv s' ∧ mid a := by
  induction p generalizing s with
  | done a => exact ⟨a, s, .stop _ _, hs, hp⟩
  | call o k ih =>
    obtain ⟨hkept, hrest⟩ := hp s hs
    obtain ⟨a, s', hsteps, hdone⟩ := ih _ hrest hkept
    exact ⟨a, s', .call hsteps, hdone⟩

lemma Steps.of_eq (h : p = q) (s : σ) : Steps step p s q s := by
  subst h
  exact .stop _ _

lemma Steps.trans (h : Steps step p s q s') (h' : Steps step q s' r s'') :
    Steps step p s r s'' := by
  induction h with
  | stop => exact h'
  | call rest ih => exact .call (ih h')

lemma Steps.bind (h : Steps step p s q s') : Steps step (p >>= f) s (q >>= f) s' := by
  induction h with
  | stop => exact .stop _ _
  | call rest ih => exact .call ih

end Run
end Prog

/-- What a program may count on and what it promises, given the operations it made so far:
`rely` bounds what the others do between two of its operations, `inv` holds in every state,
`guar` is promised of every operation. -/
structure Contract (Op : Type) (Res : Op → Type) (σ : Type) where
  rely : List (Σ o, Res o) → σ → σ → Prop
  inv : σ → Prop
  guar : List (Σ o, Res o) → Op → σ → Prop

section Safe
variable {Op : Type} {Res : Op → Type} {σ α β : Type}
variable (step : (o : Op) → σ → Res o × σ) (C : Contract Op Res σ)

/-- The rest of a program keeps the contract, started in `s` with `log` behind it, and
ends in `post`. -/
def Safe (post : List (Σ o, Res o) → α → σ → Prop) :
    Prog Op Res α → List (Σ o, Res o) → σ → Prop
  | .done a, log, s => ∀ s', C.rely log s s' → C.inv s' → post log a s'
  | .call o k, log, s => ∀ s', C.rely log s s' → C.inv s' →
      C.guar log o s' ∧
        Safe post (k (step o s').1) (⟨o, (step o s').1⟩ :: log) (step o s').2

variable {step C}
variable {log : List (Σ o, Res o)}

lemma Safe.stable {post : List (Σ o, Res o) → α → σ → Prop} {p : Prog Op Res α}
    {s s' : σ} (h : Safe step C post p log s)
    (htrans : ∀ a b c, C.rely log a b → C.rely log b c → C.rely log a c) (hr : C.rely log s s') :
    Safe step C post p log s' := by
  cases p with
  | done a => exact fun t ht hi => h t (htrans _ _ _ hr ht) hi
  | call o k => exact fun t ht hi => h t (htrans _ _ _ hr ht) hi

lemma Safe.of_forall {post : List (Σ o, Res o) → α → σ → Prop} {p : Prog Op Res α}
    {s : σ} (hrefl : ∀ log s, C.rely log s s)
    (h : ∀ s', C.rely log s s' → C.inv s' → Safe step C post p log s') :
    Safe step C post p log s := by
  cases p with
  | done a => exact fun s' hr hi => h s' hr hi s' (hrefl log s') hi
  | call o k => exact fun s' hr hi => h s' hr hi s' (hrefl log s') hi

lemma Safe.perform {post : List (Σ o, Res o) → β → σ → Prop} {o : Op} {f : Res o → Prog Op Res β}
    {s : σ} (h : ∀ s', C.rely log s s' → C.inv s' → C.guar log o s' ∧
      Safe step C post (f (step o s').1) (⟨o, (step o s').1⟩ :: log) (step o s').2) :
    Safe step C post (Prog.perform o >>= f) log s := h

lemma Safe.bind {mid : List (Σ o, Res o) → α → σ → Prop}
    {post : List (Σ o, Res o) → β → σ → Prop} {p : Prog Op Res α} {f : α → Prog Op Res β}
    (hrefl : ∀ log s, C.rely log s s) {s : σ}
    (h : Safe step C mid p log s)
    (hf : ∀ log a s, C.inv s → mid log a s → Safe step C post (f a) log s) :
    Safe step C post (p >>= f) log s := by
  induction p generalizing log s with
  | done a => exact Safe.of_forall hrefl fun s' hr hi => hf log a s' hi (h s' hr hi)
  | call o k ih =>
    intro s' hr hi
    obtain ⟨hg, hk⟩ := h s' hr hi
    exact ⟨hg, ih _ hk⟩

lemma Safe.imp {mid post : List (Σ o, Res o) → α → σ → Prop} {p : Prog Op Res α}
    {s : σ} (h : Safe step C mid p log s)
    (himp : ∀ log a s, C.inv s → mid log a s → post log a s) : Safe step C post p log s := by
  induction p generalizing log s with
  | done a => exact fun s' hr hi => himp log a s' hi (h s' hr hi)
  | call o k ih =>
    intro s' hr hi
    obtain ⟨hg, hk⟩ := h s' hr hi
    exact ⟨hg, ih _ hk⟩

end Safe

/-- A call under way: the rest of its program and its calls so far, the latest first. -/
structure Flight (Op : Type) (Res : Op → Type) (κ α : Type) where
  kind : κ
  prog : Prog Op Res α
  own : List (Σ o, Res o)

/-- One store, and for every caller its memory and the call it has under way. -/
structure Sys (Op : Type) (Res : Op → Type) (σ ι κ ρ μ : Type) where
  store : σ
  memory : ι → μ
  flight : ι → Option (Flight Op Res κ (ρ × μ))

inductive Move (ι κ : Type)
  | start (i : ι) (c : κ)
  | op (i : ι)
  | finish (i : ι)
  | crash (i : ι)

section System
variable {Op : Type} {Res : Op → Type} {σ ι κ ρ μ : Type} [DecidableEq ι]
variable (step : (o : Op) → σ → Res o × σ) (body : κ → μ → Prog Op Res (ρ × μ)) (blank : μ)

/-- The system after process `i` moved: new store, and its memory and call replaced. -/
def Sys.put (S : Sys Op Res σ ι κ ρ μ) (store : σ) (i : ι) (m : μ)
    (f : Option (Flight Op Res κ (ρ × μ))) : Sys Op Res σ ι κ ρ μ :=
  ⟨store, Function.update S.memory i m, Function.update S.flight i f⟩

def next (S : Sys Op Res σ ι κ ρ μ) : Move ι κ → Option (Sys Op Res σ ι κ ρ μ)
  | .start i c => match S.flight i with
    | none => some (S.put S.store i (S.memory i) (some ⟨c, body c (S.memory i), []⟩))
    | some _ => none
  | .op i => match S.flight i with
    | some ⟨c, .call o k, own⟩ => some (S.put (step o S.store).2 i (S.memory i)
        (some ⟨c, k (step o S.store).1, ⟨o, (step o S.store).1⟩ :: own⟩))
    | _ => none
  | .finish i => match S.flight i with
    | some ⟨_, .done a, _⟩ => some (S.put S.store i a.2 none)
    | _ => none
  | .crash i => match S.flight i with
    | some _ => some (S.put S.store i blank none)
    | none => none

/-- Whole runs of moves that all meet `cond`. -/
inductive Run (cond : Sys Op Res σ ι κ ρ μ → Move ι κ → Prop) :
    Sys Op Res σ ι κ ρ μ → Sys Op Res σ ι κ ρ μ → Prop
  | refl (S) : Run cond S S
  | tail {S T U} (m : Move ι κ) (h : Run cond S T) (hc : cond T m)
      (hn : next step body blank T m = some U) : Run cond S U

variable {step body blank} in
lemma Run.trans {cond : Sys Op Res σ ι κ ρ μ → Move ι κ → Prop} {S T U : Sys Op Res σ ι κ ρ μ}
    (h1 : Run step body blank cond S T) (h2 : Run step body blank cond T U) :
    Run step body blank cond S U := by
  induction h2 with
  | refl => exact h1
  | tail m _ hc hn ih => exact .tail m ih hc hn

variable {step body blank} in
lemma Run.mono {cond cond' : Sys Op Res σ ι κ ρ μ → Move ι κ → Prop}
    (hle : ∀ S m, cond S m → cond' S m) {S T : Sys Op Res σ ι κ ρ μ}
    (h : Run step body blank cond S T) : Run step body blank cond' S T := by
  induction h with
  | refl => exact .refl _
  | tail m _ hc hn ih => exact .tail m ih (hle _ _ hc) hn

lemma Sys.put_put (S : Sys Op Res σ ι κ ρ μ) (store store' : σ) (i : ι) (m m' : μ) (f f' : Option (Flight Op Res κ (ρ × μ))) :
    (S.put store i m f).put store' i m' f' = S.put store' i m' f' := by
  simp [Sys.put]

structure Good (C : κ → Contract Op Res σ) (inv : σ → Prop) (sound : μ → σ → Prop)
    (post : κ → List (Σ o, Res o) → ρ × μ → σ → Prop) (S : Sys Op Res σ ι κ ρ μ) : Prop where
  inv : inv S.store
  safe : ∀ i c p own, S.flight i = some ⟨c, p, own⟩ → Safe step (C c) (post c) p own S.store
  idle : ∀ i, S.flight i = none → sound (S.memory i) S.store

variable {step body blank}

lemma Good.put {C : κ → Contract Op Res σ} {inv : σ → Prop} {sound : μ → σ → Prop}
    {post : κ → List (Σ o, Res o) → ρ × μ → σ → Prop}
    (htrans : ∀ c log a b d, (C c).rely log a b → (C c).rely log b d → (C c).rely log a d)
    {S : Sys Op Res σ ι κ ρ μ} (hS : Good step C inv sound post S) {store : σ} {i : ι} {m : μ}
    {f : Option (Flight Op Res κ (ρ × μ))} (hi : inv store)
    (hflight : ∀ c p own, f = some ⟨c, p, own⟩ → Safe step (C c) (post c) p own store)
    (hmemory : f = none → sound m store)
    (hothers : ∀ j d p own, j ≠ i → S.flight j = some ⟨d, p, own⟩ → (C d).rely own S.store store)
    (hsound : ∀ l, sound l S.store → sound l store) :
    Good step C inv sound post (S.put store i m f) where
  inv := hi
  safe := by
    intro j d p own hj
    by_cases hji : j = i
    · subst hji
      exact hflight d p own (by simpa [Sys.put] using hj)
    · have hj' : S.flight j = some ⟨d, p, own⟩ := by simpa [Sys.put, hji] using hj
      exact (hS.safe j d p own hj').stable (htrans d own) (hothers j d p own hji hj')
  idle := by
    intro j hj
    by_cases hji : j = i
    · subst hji
      simpa [Sys.put] using hmemory (by simpa [Sys.put] using hj)
    · have hj' : S.flight j = none := by simpa [Sys.put, hji] using hj
      simpa [Sys.put, hji] using hsound _ (hS.idle j hj')

/-- Rely-guarantee: when each call keeps the contract of its kind from its start on, and
an operation that is promised respects what the other calls rely on, every state of every
admissible run is good. -/
theorem Run.good {C : κ → Contract Op Res σ} {inv : σ → Prop} {sound : μ → σ → Prop}
    {post : κ → List (Σ o, Res o) → ρ × μ → σ → Prop}
    {cond : Sys Op Res σ ι κ ρ μ → Move ι κ → Prop}
    (hC : ∀ c s, inv s → (C c).inv s) (hrefl : ∀ c log s, (C c).rely log s s)
    (htrans : ∀ c log a b d, (C c).rely log a b → (C c).rely log b d → (C c).rely log a d)
    (hstart : ∀ S i c, cond S (.start i c) → S.flight i = none → inv S.store → sound (S.memory i) S.store →
      Safe step (C c) (post c) (body c (S.memory i)) [] S.store)
    (hop : ∀ S i c o k own, cond S (.op i) → Good step C inv sound post S →
      S.flight i = some ⟨c, .call o k, own⟩ → (C c).guar own o S.store →
      inv (step o S.store).2 ∧
      (∀ j d p own', j ≠ i → S.flight j = some ⟨d, p, own'⟩ → (C d).rely own' S.store (step o S.store).2) ∧
      ∀ l, sound l S.store → sound l (step o S.store).2)
    (hpost : ∀ c log a s, post c log a s → sound a.2 s) (hblank : ∀ s, sound blank s)
    {S T : Sys Op Res σ ι κ ρ μ} (hS : Good step C inv sound post S)
    (hrun : Run step body blank cond S T) : Good step C inv sound post T := by
  induction hrun with
  | refl => exact hS
  | @tail T U m _ hc hn hT =>
    have hsame : ∀ i j d p own, j ≠ i → T.flight j = some ⟨d, p, own⟩ →
        (C d).rely own T.store T.store := fun _ _ d _ own _ _ => hrefl d own _
    cases m with
    | start i c =>
      simp only [next] at hn
      cases hf : T.flight i with
      | some t => simp [hf] at hn
      | none =>
        simp only [hf, Option.some.injEq] at hn
        subst hn
        refine hT.put htrans hT.inv (fun d p own he => ?_) (by simp) (hsame i) fun _ h => h
        cases he
        exact hstart T i c hc hf hT.inv (hT.idle i hf)
    | op i =>
      simp only [next] at hn
      rcases hf : T.flight i with _ | ⟨c, _ | ⟨o, k⟩, own⟩
      · simp [hf] at hn
      · simp [hf] at hn
      · simp only [hf, Option.some.injEq] at hn
        subst hn
        obtain ⟨hg, hk⟩ := hT.safe i c _ own hf T.store (hrefl c _ _) (hC c _ hT.inv)
        obtain ⟨hi, hothers, hsound⟩ := hop T i c o k own hc hT hf hg
        refine hT.put htrans hi (fun d p own' he => ?_) (by simp) hothers hsound
        cases he
        exact hk
    | finish i =>
      simp only [next] at hn
      rcases hf : T.flight i with _ | ⟨c, a | ⟨o, k⟩, own⟩
      · simp [hf] at hn
      · simp only [hf, Option.some.injEq] at hn
        subst hn
        refine hT.put htrans hT.inv (by simp) (fun _ => ?_) (hsame i) fun _ h => h
        exact hpost c own _ _ (hT.safe i c _ own hf T.store (hrefl c _ _) (hC c _ hT.inv))
      · simp [hf] at hn
    | crash i =>
      simp only [next] at hn
      cases hf : T.flight i with
      | none => simp [hf] at hn
      | some t =>
        simp only [hf, Option.some.injEq] at hn
        subst hn
        exact hT.put htrans hT.inv (by simp) (fun _ => hblank _) (hsame i) fun _ h => h

end System
end CloudServer.Interact
