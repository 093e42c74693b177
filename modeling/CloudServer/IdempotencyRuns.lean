import CloudServer.Idempotency

/-! Every interleaving of requests with one Idempotency-Key: one execution at a time within the
lease, and replays that are the answer of an execution of the same request. -/
namespace CloudServer.Idempotency

open Option
open Interact (Prog Contract Safe Good Move next)

abbrev System (η β : Type) := Interact.Sys (Op η β) Res (Store η β) ℕ (Call η β) (Reply β) Unit

/-- The claim of a request whose route is running, from the statements it made. -/
def executing {η β : Type} : Log η β → Option Stamp
  | [] => none
  | ⟨.claim _ _, (r : Option (Option Stamp))⟩ :: log => match r with
    | some (some stamp) => some stamp
    | _ => executing log
  | ⟨.routeEnds _ _, _⟩ :: _ => none
  | _ :: log => executing log

section
variable {η β : Type}

def idle (s : Store η β) : System η β := ⟨s, fun _ => (), fun _ => none⟩

def Young (cfg : Config) (s : Store η β) (stamp : Stamp) : Prop := s.now ≤ stamp.time + cfg.lease

def Owns (s : Store η β) (stamp : Stamp) (hash : η) : Prop :=
  ∃ r, s.row = some r ∧ r.claim = stamp.serial ∧ r.createdAt = stamp.time ∧ r.requestHash = hash

structure Inv (s : Store η β) : Prop where
  serial : ∀ r, s.row = some r → r.claim < s.claims
  stored : ∀ r x, s.row = some r → r.response = some x → (r.requestHash, x) ∈ s.responses
  replayed : ∀ p ∈ s.replays, (p.requestHash, p.response) ∈ s.responses ∧ p.claim < s.claims
  current : ∀ p ∈ s.replays, ∀ r, s.row = some r → r.claim = p.claim →
    r.response = some p.response
  identical : ∀ p ∈ s.replays, ∀ q ∈ s.replays, p.claim = q.claim → p.response = q.response

def Promised (c : Call η β) (log : Log η β) : Op η β → Store η β → Prop
  | .claim hash _, _ => c.hash = some hash ∧ executing log = none
  | .complete hash response _, s => (hash, response) ∈ s.responses
  | .release _ _, _ => executing log = none
  | _, _ => True

def contract (c : Call η β) : Contract (Op η β) Res (Store η β) where
  rely _ s s' := s.responses ⊆ s'.responses ∧ s.replays ⊆ s'.replays
  inv := Inv
  guar log o s := Promised c log o s

def Answered (s : Store η β) (hash : η) (response : Response β) : Prop :=
  ∃ p ∈ s.replays, p.requestHash = hash ∧ p.response = response

def Ended (c : Call η β) (_ : Log η β) (a : Reply β × Unit) (s : Store η β) : Prop :=
  ∀ response, a.1 = .replayed response → ∃ hash, c.hash = some hash ∧ Answered s hash response

variable {cfg : Config} {s s' : Store η β} {c : Call η β} {log : Log η β} {hash : η}

lemma contract_refl (log : Log η β) (s : Store η β) : (contract c).rely log s s :=
  ⟨List.Subset.refl _, List.Subset.refl _⟩

lemma contract_trans (log : Log η β) (s t u : Store η β) (h1 : (contract c).rely log s t)
    (h2 : (contract c).rely log t u) : (contract c).rely log s u :=
  ⟨List.Subset.trans h1.1 h2.1, List.Subset.trans h1.2 h2.2⟩

lemma Inv.empty (now : ℕ) : Inv (Store.empty η β now) := by
  constructor <;> simp [Store.empty]

lemma Inv.row (h : Inv s) (hrow : ∀ r, s'.row = some r → s.row = some r)
    (hclaims : s'.claims = s.claims) (hresp : s.responses ⊆ s'.responses)
    (hrep : s'.replays = s.replays) : Inv s' where
  serial r hr := hclaims ▸ h.serial r (hrow r hr)
  stored r x hr hx := hresp (h.stored r x (hrow r hr) hx)
  replayed p hp := by
    rw [hrep] at hp
    exact ⟨hresp (h.replayed p hp).1, hclaims ▸ (h.replayed p hp).2⟩
  current p hp r hr := h.current p (hrep ▸ hp) r (hrow r hr)
  identical p hp q hq := h.identical p (hrep ▸ hp) q (hrep ▸ hq)

lemma Answered.mono {response : Response β} (h : Answered s hash response)
    (hle : s.replays ⊆ s'.replays) : Answered s' hash response := by
  obtain ⟨p, hp, hh⟩ := h
  exact ⟨p, hle hp, hh⟩

variable [DecidableEq η]

abbrev Runs (cfg : Config) (cond : System η β → Move ℕ (Call η β) → Prop) :=
  Interact.Run (step cfg) body () cond

variable {stamp : Stamp} {p : Replay η β}

lemma mem_looked : p ∈ (s.looked hash).replays ↔
    p ∈ s.replays ∨ ∃ r x, s.row = some r ∧ r.requestHash = hash ∧ r.response = some x ∧ p = ⟨r.claim, hash, x⟩ := by
  cases hrow : s.row with
  | none => simp [Store.looked, hrow]
  | some r =>
    by_cases hh : r.requestHash = hash
    · cases hx : r.response <;> simp [Store.looked, hrow, Row.replayFor, hh, hx, or_comm]
    · simp [Store.looked, hrow, Row.replayFor, hh]

lemma Inv.claim (h : Inv s) : Inv (s.claim cfg hash).2 := by
  unfold Store.claim
  split
  · have hlt : ∀ p ∈ s.replays, p.claim ≠ s.claims := fun p hp => (h.replayed p hp).2.ne
    constructor
    · intro r hr
      simp only [Option.some.injEq] at hr
      subst hr
      simp
    · intro r x hr hx
      simp only [Option.some.injEq] at hr
      subst hr
      cases hx
    · exact fun p hp => ⟨(h.replayed p hp).1, (h.replayed p hp).2.trans (Nat.lt_succ_self _)⟩
    · intro p hp r hr hc
      simp only [Option.some.injEq] at hr
      subst hr
      exact absurd hc.symm (hlt p hp)
    · exact h.identical
  · exact h

lemma Inv.looked (h : Inv s) : Inv (s.looked hash) where
  serial := h.serial
  stored := h.stored
  replayed p hp := by
    obtain hp | ⟨r, x, hr, rfl, hx, rfl⟩ := mem_looked.mp hp
    · exact h.replayed p hp
    · exact ⟨h.stored r x hr hx, h.serial r hr⟩
  current p hp r hr hc := by
    obtain hp | ⟨r', x, hr', rfl, hx, rfl⟩ := mem_looked.mp hp
    · exact h.current p hp r hr hc
    · cases hr.symm.trans hr'
      exact hx
  identical p hp q hq hc := by
    obtain hp | ⟨r, x, hr, rfl, hx, rfl⟩ := mem_looked.mp hp
    · obtain hq | ⟨r', x', hr', -, hx', rfl⟩ := mem_looked.mp hq
      · exact h.identical p hp q hq hc
      · exact Option.some.inj ((h.current p hp r' hr' hc.symm).symm.trans hx')
    · obtain hq | ⟨r', x', hr', -, hx', rfl⟩ := mem_looked.mp hq
      · exact Option.some.inj (hx.symm.trans (h.current q hq r hr hc))
      · cases hr.symm.trans hr'
        exact Option.some.inj (hx.symm.trans hx')

lemma Inv.complete (h : Inv s) {x : Response β} (hx : (hash, x) ∈ s.responses) :
    Inv (s.complete hash x) := by
  cases hrow : s.row with
  | none => exact h.row (by simp [Store.complete, hrow]) rfl (List.Subset.refl _) rfl
  | some r =>
    by_cases hr : r.requestHash = hash ∧ r.response.isNone
    · have hnew : (s.complete hash x).row = some { r with response := some x } := by
        simp only [Store.complete, hrow, map_some, if_pos hr]
      have hnone : r.response = none := by simpa using hr.2
      constructor
      · intro r' hr'
        cases hnew.symm.trans hr'
        exact h.serial r hrow
      · intro r' y hr' hy
        cases hnew.symm.trans hr'
        cases hy
        rw [hr.1]
        exact hx
      · exact h.replayed
      · intro p hp r' hr' hc
        cases hnew.symm.trans hr'
        exact absurd (hnone.symm.trans (h.current p hp r hrow hc)) (by simp)
      · exact h.identical
    · have hsame : s.complete hash x = s := by
        cases s
        simp_all [Store.complete]
      rw [hsame]
      exact h

variable {o : Op η β}

lemma step_keeps (h : Inv s) (hp : Promised c log o s) :
    Inv (step cfg o s).2 ∧ s.responses ⊆ (step cfg o s).2.responses ∧ s.replays ⊆ (step cfg o s).2.replays := by
  have hsame : s.responses ⊆ s.responses ∧ s.replays ⊆ s.replays :=
    ⟨List.Subset.refl _, List.Subset.refl _⟩
  cases o with
  | claim hash fate =>
    have hsub : s.responses ⊆ (s.claim cfg hash).2.responses ∧
        s.replays ⊆ (s.claim cfg hash).2.replays := by
      unfold Store.claim
      split <;> exact hsame
    cases fate with
    | failed => exact ⟨h, hsame⟩
    | done | lost => exact ⟨h.claim, hsub⟩
  | lookup hash fate =>
    cases fate with
    | done => exact ⟨h.looked, List.Subset.refl _, fun p hp => mem_looked.mpr (.inl hp)⟩
    | failed | lost => exact ⟨h, hsame⟩
  | complete hash x fate =>
    simp only [step]
    split
    · exact ⟨h, hsame⟩
    · exact ⟨h.complete hp, hsame⟩
  | release hash fate =>
    simp only [step]
    split
    · exact ⟨h, hsame⟩
    · refine ⟨h.row (fun r hr => ?_) rfl (List.Subset.refl _) rfl, hsame⟩
      exact (filter_eq_some_iff.mp hr).1
  | purge fate =>
    rw [step_purge]
    split
    · exact ⟨h, hsame⟩
    · refine ⟨h.row (fun r hr => ?_) rfl (List.Subset.refl _) rfl, hsame⟩
      exact (filter_eq_some_iff.mp hr).1
  | routeEnds hash ending =>
    have hsub : s.responses ⊆ ending.storable.toList.map (hash, ·) ++ s.responses :=
      List.subset_append_right _ _
    exact ⟨h.row (fun _ hr => hr) rfl hsub rfl, hsub, List.Subset.refl _⟩
  | tick seconds => exact ⟨h.row (fun _ hr => hr) rfl (List.Subset.refl _) rfl, hsame⟩

/-! ### What a request does -/

/-- What `claim` found out about the key. -/
def Claimed (hash : η) (log : Log η β) (a : Option (Claim β)) (s : Store η β) : Prop :=
  match a with
  | some (.replay response) => Answered s hash response
  | some .new => True
  | _ => executing log = none

lemma safe_claim (hc : c.hash = some hash) (passes : List (Fate × Fate)) (hx : executing log = none) :
    Safe (step cfg) (contract c) (Claimed hash) (claim hash passes) log s := by
  induction passes generalizing log s with
  | nil => exact fun s' _ _ => hx
  | cons p passes ih =>
    obtain ⟨f, g⟩ := p
    intro t _ _
    refine ⟨⟨hc, hx⟩, ?_⟩
    cases f with
    | failed | lost => exact fun _ _ _ => hx
    | done =>
      cases hs : (t.claim cfg hash).1 with
      | none =>
        simp only [step, hs]
        intro v _ _
        refine ⟨trivial, ?_⟩
        cases g with
        | failed | lost => exact fun _ _ _ => hx
        | done =>
          cases hrow : v.row with
          | none =>
            simp only [step, hrow]
            exact ih hx
          | some r =>
            simp only [step, hrow]
            intro w hw _
            by_cases hh : r.requestHash = hash
            · cases hresp : r.response with
              | none => simpa [Row.outcome, hh, hresp, Claimed, executing] using hx
              | some x =>
                have ha : Answered (v.looked hash) hash x :=
                  ⟨⟨r.claim, hash, x⟩, mem_looked.mpr (.inr ⟨r, x, hrow, hh, hresp, rfl⟩), rfl, rfl⟩
                simpa [Row.outcome, hh, hresp, Claimed] using ha.mono hw.2
            · simpa [Row.outcome, hh, Claimed, executing] using hx
      | some stamp =>
        simp only [step, hs]
        exact fun _ _ _ => trivial

lemma safe_runRoute (w : Script β) : Safe (step cfg) (contract c)
    (fun _ reply _ => ∀ x, reply ≠ .replayed x) (runRoute hash w) log s := by
  have hrelease : ∀ (reply : Reply β) (log : Log η β) (u : Store η β), executing log = none →
      (∀ x, reply ≠ .replayed x) → Safe (step cfg) (contract c)
        (fun _ reply _ => ∀ x, reply ≠ .replayed x) (do
          let _ ← releaseSql hash w.release
          pure reply) log u :=
    fun reply log u hx hne t _ _ => ⟨hx, fun _ _ _ => hne⟩
  intro t _ _
  refine ⟨trivial, ?_⟩
  cases hw : w.ending with
  | raised => exact hrelease .raised _ _ rfl (by simp)
  | answered status json content =>
    cases hst : w.ending.storable with
    | none =>
      simp only [hw] at hst
      simp only [hst]
      exact hrelease .ran _ _ rfl (by simp)
    | some x =>
      simp only [hw] at hst
      simp only [hst]
      intro u hu _
      refine ⟨hu.1 (by simp [step, hst]), ?_⟩
      cases w.complete with
      | done => exact fun _ _ _ => by simp
      | failed | lost => exact hrelease .ran _ _ rfl (by simp)

lemma safe_request (hc : c.hash = some hash) (w : Script β) (hx : executing log = none) :
    Safe (step cfg) (contract c) (fun _ reply s => ∀ x, reply = .replayed x → Answered s hash x) (request hash w) log s := by
  refine Safe.bind contract_refl (safe_claim hc _ hx) fun log a s _ ha => ?_
  cases a with
  | none => exact fun _ _ _ => by simp
  | some claimed =>
    cases claimed with
    | replay response =>
      intro t ht _ x he
      obtain rfl : response = x := by simpa using he
      exact Answered.mono ha ht.2
    | mismatch | inProgress => exact fun _ _ _ => by simp
    | new =>
      refine Safe.bind contract_refl (safe_runRoute w) fun log reply s _ hr => ?_
      have hpurge : ∀ reply : Reply β, (∀ x, reply ≠ .replayed x) → Safe (step cfg) (contract c)
          (fun _ reply s => ∀ x, reply = .replayed x → Answered s hash x) (do
            maybePurge w
            pure reply) log s := by
        intro reply hr
        unfold maybePurge
        split
        · exact fun _ _ _ => ⟨trivial, fun _ _ _ x he => absurd he (hr x)⟩
        · exact fun _ _ _ x he => absurd he (hr x)
      cases reply with
      | raised => exact fun _ _ _ => by simp
      | replayed x => exact absurd rfl (hr x)
      | mismatch => exact hpurge .mismatch hr
      | inProgress => exact hpurge .inProgress hr
      | unavailable => exact hpurge .unavailable hr
      | ran => exact hpurge .ran hr

lemma safe_body : Safe (step cfg) (contract c) (Ended c) (body c ()) [] s := by
  cases c with
  | request hash w =>
    refine Safe.bind contract_refl (safe_request rfl w rfl) fun log reply s _ hr => ?_
    exact fun t ht _ x he => ⟨hash, rfl, (hr x he).mono ht.2⟩
  | purge fate => exact fun _ _ _ => ⟨trivial, fun _ _ _ x he => by cases he⟩
  | tick seconds => exact fun _ _ _ => ⟨trivial, fun _ _ _ x he => by cases he⟩

/-! ### Executions and the row -/

lemma free_of_young {h : η} (hlease : cfg.lease ≤ cfg.ttl)
    (ho : Owns s stamp h) (hy : Young cfg s stamp) : s.free cfg hash = false := by
  obtain ⟨r, hr, -, ht, -⟩ := ho
  simp only [Young] at hy
  simp only [Store.free, hr, Row.expired, Bool.or_eq_false_iff, Bool.and_eq_false_iff, decide_eq_false_iff_not, not_lt]
  exact ⟨by omega, .inr (by omega)⟩

lemma owns_step {h : η} (hlease : cfg.lease ≤ cfg.ttl)
    (ho : Owns s stamp h) (hy : Young cfg (step cfg o s).2 stamp)
    (hrel : ∀ hash fate r, o = .release hash fate → fate ≠ .failed → s.row = some r →
      r.requestHash = hash → r.response = none → r.claim ≠ stamp.serial) :
    Owns (step cfg o s).2 stamp h := by
  have hkeep : ∀ hash, Young cfg (s.claim cfg hash).2 stamp → (s.claim cfg hash).2 = s := by
    intro hash hy
    have hnow : (s.claim cfg hash).2.now = s.now := by
      unfold Store.claim
      split <;> rfl
    have hfree : s.free cfg hash = false :=
      free_of_young hlease ho (by simpa [Young, hnow] using hy)
    simp [Store.claim, hfree]
  obtain ⟨r, hr, hserial, htime, hhash⟩ := ho
  cases o with
  | claim hash fate =>
    cases fate with
    | failed => exact ⟨r, hr, hserial, htime, hhash⟩
    | done | lost =>
      simp only [step] at hy ⊢
      rw [hkeep hash hy]
      exact ⟨r, hr, hserial, htime, hhash⟩
  | lookup hash fate => cases fate <;> exact ⟨r, hr, hserial, htime, hhash⟩
  | complete hash x fate =>
    simp only [step]
    split
    · exact ⟨r, hr, hserial, htime, hhash⟩
    · simp only [Owns, Store.complete, hr, map_some, Option.some.injEq, exists_eq_left']
      split <;> exact ⟨hserial, htime, hhash⟩
  | release hash fate =>
    simp only [step]
    split
    · exact ⟨r, hr, hserial, htime, hhash⟩
    · rename_i hfate
      refine ⟨r, ?_, hserial, htime, hhash⟩
      simp only [Store.release, hr]
      refine filter_eq_some_iff.mpr ⟨rfl, ?_⟩
      by_contra hc
      obtain ⟨h1, h2⟩ : r.requestHash = hash ∧ r.response = none := by simpa using hc
      exact hrel hash fate r rfl hfate hr h1 h2 hserial
  | purge fate =>
    simp only [step] at hy ⊢
    split
    · exact ⟨r, hr, hserial, htime, hhash⟩
    · rename_i hfate
      refine ⟨r, ?_, hserial, htime, hhash⟩
      simp only [if_neg hfate, Young, Store.purge] at hy
      simp only [Store.purge, hr]
      refine filter_eq_some_iff.mpr ⟨rfl, ?_⟩
      simp only [Row.expired, Bool.not_eq_true', decide_eq_false_iff_not, not_lt]
      omega
  | routeEnds hash ending => exact ⟨r, hr, hserial, htime, hhash⟩
  | tick seconds => exact ⟨r, hr, hserial, htime, hhash⟩

lemma executing_step (h : executing (⟨o, (step cfg o s).1⟩ :: log) = some stamp) :
    (∃ hash, o = .claim hash .done ∧ s.free cfg hash = true ∧ stamp = ⟨s.claims, s.now⟩ ∧
      (step cfg o s).2 = { s with row := some ⟨hash, none, s.now, s.claims⟩, claims := s.claims + 1 }) ∨
      executing log = some stamp := by
  cases o with
  | claim hash fate =>
    cases fate with
    | failed | lost => exact .inr h
    | done =>
      by_cases hfree : s.free cfg hash = true
      · simp only [executing, step, Store.claim, hfree, if_true, Option.some.injEq] at h
        exact .inl ⟨hash, rfl, hfree, h.symm, by simp [step, Store.claim, hfree]⟩
      · refine .inr ?_
        simpa [executing, step, Store.claim, hfree] using h
  | lookup hash fate => exact .inr h
  | complete hash x fate => exact .inr h
  | release hash fate => exact .inr h
  | purge fate => exact .inr h
  | routeEnds hash ending => cases h
  | tick seconds => exact .inr h

/-- No RELEASE deletes the row of an execution that took the key over and still runs within its
lease. -/
def Fenced (cfg : Config) (T : System η β) : Move ℕ (Call η β) → Prop
  | .op i => ∀ c hash fate k own r, T.flight i = some ⟨c, .call (.release hash fate) k, own⟩ →
      fate ≠ .failed → T.store.row = some r → r.requestHash = hash → r.response = none →
      ∀ j f stamp, j ≠ i → T.flight j = some f → executing f.own = some stamp →
        r.claim = stamp.serial → ¬Young cfg T.store stamp
  | _ => True

structure Held (cfg : Config) (T : System η β) : Prop where
  serial : ∀ i f stamp, T.flight i = some f → executing f.own = some stamp →
    stamp.serial < T.store.claims
  owns : ∀ i f stamp, T.flight i = some f → executing f.own = some stamp →
    Young cfg T.store stamp → ∃ hash, f.kind.hash = some hash ∧ Owns T.store stamp hash
  apart : ∀ i j f f' stamp stamp', T.flight i = some f → T.flight j = some f' →
    executing f.own = some stamp → executing f'.own = some stamp' →
    stamp.serial = stamp'.serial → i = j

variable {cond : System η β → Move ℕ (Call η β) → Prop} {T U : System η β}

omit [DecidableEq η] in
lemma Held.fewer (h : Held cfg T) (hstore : U.store = T.store)
    (hsub : ∀ i f, U.flight i = some f → executing f.own = none ∨ T.flight i = some f) :
    Held cfg U := by
  have hback : ∀ i f stamp, U.flight i = some f → executing f.own = some stamp →
      T.flight i = some f := by
    intro i f stamp hf hx
    obtain hn | hf := hsub i f hf
    · exact absurd (hn.symm.trans hx) (by simp)
    · exact hf
  constructor
  · exact fun i f stamp hf hx => hstore ▸ h.serial i f stamp (hback i f stamp hf hx) hx
  · exact fun i f stamp hf hx => hstore ▸ h.owns i f stamp (hback i f stamp hf hx) hx
  · exact fun i j f f' stamp stamp' hf hf' hx hx' => h.apart i j f f' stamp stamp'
      (hback i f stamp hf hx) (hback j f' stamp' hf' hx') hx hx'

lemma step_claims (o : Op η β) : s.claims ≤ (step cfg o s).2.claims := by
  have hclaim : ∀ hash, s.claims ≤ (s.claim cfg hash).2.claims := by
    intro hash
    unfold Store.claim
    split <;> simp
  cases o with
  | claim hash fate => cases fate <;> first | exact le_rfl | exact hclaim hash
  | lookup hash fate => cases fate <;> exact le_rfl
  | complete hash x fate => cases fate <;> exact le_rfl
  | release hash fate => cases fate <;> exact le_rfl
  | purge fate => cases fate <;> exact le_rfl
  | routeEnds hash ending => exact le_rfl
  | tick seconds => exact le_rfl

lemma step_now (o : Op η β) : s.now ≤ (step cfg o s).2.now := by
  have hclaim : ∀ hash, s.now ≤ (s.claim cfg hash).2.now := by
    intro hash
    unfold Store.claim
    split <;> simp
  cases o with
  | claim hash fate => cases fate <;> first | exact le_rfl | exact hclaim hash
  | lookup hash fate => cases fate <;> exact le_rfl
  | complete hash x fate => cases fate <;> exact le_rfl
  | release hash fate => cases fate <;> exact le_rfl
  | purge fate => cases fate <;> exact le_rfl
  | routeEnds hash ending => exact le_rfl
  | tick seconds => exact Nat.le_add_right _ _

lemma Held.op (hlease : cfg.lease ≤ cfg.ttl) (h : Held cfg T) {i : ℕ}
    {k : Res o → Handler η β (Reply β × Unit)} {own : Log η β}
    (hf : T.flight i = some ⟨c, .call o k, own⟩) (hp : Promised c own o T.store)
    (hfence : Fenced cfg T (.op i)) (hn : next (step cfg) body () T (.op i) = some U) :
    Held cfg U := by
  obtain ⟨c', o', k', own', hf', rfl⟩ := Interact.next_op_iff.mp hn
  obtain ⟨rfl, ⟨rfl, hk⟩, rfl⟩ : c = c' ∧ (o = o' ∧ HEq k k') ∧ own = own' := by
    simpa using hf.symm.trans hf'
  obtain rfl := eq_of_heq hk
  have hsplit : ∀ j f, (T.put (step cfg o T.store).2 i (T.memory i)
      (some ⟨c, k (step cfg o T.store).1, ⟨o, (step cfg o T.store).1⟩ :: own⟩)).flight j = some f →
      (j = i ∧ f = ⟨c, k (step cfg o T.store).1, ⟨o, (step cfg o T.store).1⟩ :: own⟩) ∨
        (j ≠ i ∧ T.flight j = some f) := by
    intro j f hj
    by_cases hji : j = i
    · subst hji
      exact .inl ⟨rfl, by simpa [Interact.Sys.put, eq_comm] using hj⟩
    · exact .inr ⟨hji, by simpa [Interact.Sys.put, hji] using hj⟩
  have hnow : T.store.now ≤ (step cfg o T.store).2.now := step_now o
  have hyoung : ∀ stamp, Young cfg (step cfg o T.store).2 stamp → Young cfg T.store stamp :=
    fun stamp hy => hnow.trans hy
  constructor
  · intro j f stamp hj hx
    obtain ⟨rfl, rfl⟩ | ⟨hji, hT⟩ := hsplit j f hj
    · obtain ⟨hash, -, -, rfl, hstep⟩ | hx := executing_step hx
      · simp [Interact.Sys.put, hstep]
      · exact (h.serial _ _ stamp hf hx).trans_le (step_claims o)
    · exact (h.serial j f stamp hT hx).trans_le (step_claims o)
  · intro j f stamp hj hx hy
    obtain ⟨rfl, rfl⟩ | ⟨hji, hT⟩ := hsplit j f hj
    · obtain ⟨hash, rfl, -, rfl, hstep⟩ | hx := executing_step hx
      · refine ⟨hash, hp.1, ⟨hash, none, T.store.now, T.store.claims⟩, ?_, rfl, rfl, rfl⟩
        simp [Interact.Sys.put, hstep]
      · obtain ⟨hash, hc, ho⟩ := h.owns _ _ stamp hf hx (hyoung stamp hy)
        refine ⟨hash, hc, owns_step hlease ho hy ?_⟩
        rintro hash' fate r rfl - - - -
        exact absurd (hp.symm.trans hx) (by simp)
    · obtain ⟨hash, hc, ho⟩ := h.owns j f stamp hT hx (hyoung stamp hy)
      refine ⟨hash, hc, owns_step hlease ho hy ?_⟩
      rintro hash' fate r rfl hfate hr hhash hresp hserial
      exact hfence c hash' fate k own r hf hfate hr hhash hresp j f stamp hji hT hx hserial
        (hyoung stamp hy)
  · have hnew : ∀ j f stamp stamp', j ≠ i → T.flight j = some f → executing f.own = some stamp →
        executing (⟨o, (step cfg o T.store).1⟩ :: own) = some stamp' →
        stamp.serial ≠ stamp'.serial := by
      intro j f stamp stamp' hji hj hx hx' he
      obtain ⟨hash, -, -, rfl, -⟩ | hx' := executing_step hx'
      · exact absurd (h.serial j f stamp hj hx) (by simp [he])
      · exact hji (h.apart j i _ _ stamp stamp' hj hf hx hx' he)
    intro j j' f f' stamp stamp' hj hj' hx hx' he
    obtain ⟨rfl, rfl⟩ | ⟨hji, hT⟩ := hsplit j f hj
    · obtain ⟨rfl, rfl⟩ | ⟨hji', hT'⟩ := hsplit j' f' hj'
      · rfl
      · exact absurd he.symm (hnew j' f' stamp' stamp hji' hT' hx' hx)
    · obtain ⟨rfl, rfl⟩ | ⟨hji', hT'⟩ := hsplit j' f' hj'
      · exact absurd he (hnew j f stamp stamp' hji hT hx hx')
      · exact h.apart j j' f f' stamp stamp' hT hT' hx hx' he

lemma Held.next (hlease : cfg.lease ≤ cfg.ttl) (h : Held cfg T)
    (hp : ∀ i c o k own, T.flight i = some ⟨c, .call o k, own⟩ → Promised c own o T.store)
    {m : Move ℕ (Call η β)} (hfence : Fenced cfg T m) (hn : next (step cfg) body () T m = some U) :
    Held cfg U := by
  cases m with
  | op i =>
    obtain ⟨c, o, k, own, hf, -⟩ := Interact.next_op_iff.mp hn
    exact h.op hlease hf (hp i c o k own hf) hfence hn
  | start i c =>
    obtain ⟨hi, rfl⟩ := Interact.next_start_iff.mp hn
    refine h.fewer rfl fun j f hj => ?_
    by_cases hji : j = i
    · subst hji
      left
      obtain rfl : _ = f := by simpa [Interact.Sys.put] using hj
      rfl
    · exact .inr (by simpa [Interact.Sys.put, hji] using hj)
  | finish i =>
    obtain ⟨c, a, own, -, rfl⟩ := Interact.next_finish_iff.mp hn
    refine h.fewer rfl fun j f hj => .inr ?_
    by_cases hji : j = i
    · subst hji
      simp [Interact.Sys.put] at hj
    · simpa [Interact.Sys.put, hji] using hj
  | crash i =>
    obtain ⟨-, rfl⟩ := Interact.next_crash_iff.mp hn
    refine h.fewer rfl fun j f hj => .inr ?_
    by_cases hji : j = i
    · subst hji
      simp [Interact.Sys.put] at hj
    · simpa [Interact.Sys.put, hji] using hj

structure Sane (cfg : Config) (T : System η β) : Prop where
  good : Good (step cfg) contract Inv (fun _ _ => True) Ended T
  held : Held cfg T

lemma Sane.promised (h : Sane cfg T) {i : ℕ}
    {k : Res o → Handler η β (Reply β × Unit)} {own : Log η β}
    (hf : T.flight i = some ⟨c, .call o k, own⟩) : Promised c own o T.store :=
  (h.good.safe i c _ own hf T.store (contract_refl own _) h.good.inv).1

lemma Sane.ended (h : Sane cfg T) {i : ℕ} {x : Reply β × Unit} {own : Log η β}
    (hf : T.flight i = some ⟨c, .done x, own⟩) : Ended c own x T.store :=
  h.good.safe i c _ own hf T.store (contract_refl own _) h.good.inv

lemma Runs.good
    (hT : Good (step cfg) contract Inv (fun _ _ => True) Ended T) (h : Runs cfg cond T U) :
    Good (step cfg) contract Inv (fun _ _ => True) Ended U := by
  refine Interact.Run.good (C := contract) (fun _ _ hi => hi) (fun _ => contract_refl)
    (fun _ => contract_trans) (fun S i c _ _ _ _ => safe_body)
    (fun S i c o k own _ hS hf hg => ?_) (fun _ _ _ _ _ => trivial) (fun _ => trivial) hT h
  obtain ⟨hi, hresp, hrep⟩ : Inv (step cfg o S.store).2 ∧
      S.store.responses ⊆ (step cfg o S.store).2.responses ∧
      S.store.replays ⊆ (step cfg o S.store).2.replays := step_keeps hS.inv hg
  exact ⟨hi, fun _ _ _ _ _ _ => ⟨hresp, hrep⟩, fun _ _ => trivial⟩

lemma good_idle (now : ℕ) :
    Good (step cfg) contract Inv (fun _ _ => True) Ended (idle (Store.empty η β now)) :=
  ⟨Inv.empty now, fun _ _ _ _ hf => (by cases hf), fun _ _ => trivial⟩

theorem Runs.sane (hlease : cfg.lease ≤ cfg.ttl) {now : ℕ}
    (h : Runs cfg (Fenced cfg) (idle (Store.empty η β now)) T) : Sane cfg T := by
  induction h with
  | refl =>
    refine ⟨good_idle now, ?_⟩
    constructor <;> simp [idle]
  | @tail T U m _ hc hn hT =>
    refine ⟨Runs.good hT.good (.tail m (.refl T) hc hn), ?_⟩
    exact hT.held.next hlease (fun i c o k own hf => hT.promised hf) hc hn

structure Admits (cfg : Config) (T U : System η β) : Prop where
  runs : ∀ i f stamp hash r, U.flight i = some f → executing f.own = some stamp →
    (∀ f', T.flight i = some f' → executing f'.own ≠ some stamp) → f.kind.hash = some hash →
    T.store.row = some r → r.expired cfg T.store.now = false → r.requestHash = hash
  replays : ∀ p r, U.store.replays = p :: T.store.replays → T.store.row = some r →
    r.requestHash = p.requestHash

lemma step_replays {r : Row η β}
    (h : (step cfg o s).2.replays = p :: s.replays) (hr : s.row = some r) :
    r.requestHash = p.requestHash := by
  have hself : s.replays ≠ p :: s.replays := fun he => by simpa using congrArg List.length he
  have hclaim : ∀ hash, (s.claim cfg hash).2.replays = s.replays := by
    intro hash
    unfold Store.claim
    split <;> rfl
  cases o with
  | claim hash fate =>
    cases fate with
    | failed => exact absurd h hself
    | done | lost => exact absurd ((hclaim hash).symm.trans h) hself
  | lookup hash fate =>
    cases fate with
    | failed | lost => exact absurd h hself
    | done =>
      have hp : p ∈ (s.looked hash).replays := by
        rw [show (s.looked hash).replays = p :: s.replays from h]
        exact List.mem_cons_self
      simp only [step, Store.looked, hr, bind_some, Row.replayFor] at h
      by_cases hh : r.requestHash = hash
      · cases hx : r.response with
        | none => simp [hh, hx] at h
        | some x =>
          obtain rfl : (⟨r.claim, hash, x⟩ : Replay η β) = p := by simpa [hh, hx] using h
          exact hh
      · simp [hh] at h
  | complete hash x fate =>
    refine absurd (Eq.trans ?_ h) hself
    simp only [step]
    split <;> rfl
  | release hash fate =>
    refine absurd (Eq.trans ?_ h) hself
    simp only [step]
    split <;> rfl
  | purge fate =>
    refine absurd (Eq.trans ?_ h) hself
    rw [step_purge]
    split <;> rfl
  | routeEnds hash ending => exact absurd h hself
  | tick seconds => exact absurd h hself

lemma Sane.admits (h : Sane cfg T) (m : Move ℕ (Call η β))
    (hn : next (step cfg) body () T m = some U) : Admits cfg T U := by
  constructor
  · intro i f stamp hash r hf hx hnew hkind hr hexp
    by_cases him : i = m.of
    · subst him
      cases m with
      | op i =>
        obtain ⟨c, o, k, own, hT, rfl⟩ := Interact.next_op_iff.mp hn
        obtain rfl : _ = f := by simpa [Move.of, Interact.Sys.put] using hf
        obtain ⟨hash', rfl, hfree, -, -⟩ | hx := executing_step hx
        · obtain rfl : hash' = hash := by
            simpa [(h.promised hT).1] using hkind
          simp only [Store.free, hr, hexp, Bool.false_or, Bool.and_eq_true, decide_eq_true_eq]
            at hfree
          exact hfree.1.2
        · exact absurd hx (hnew _ hT)
      | start i c =>
        obtain ⟨-, rfl⟩ := Interact.next_start_iff.mp hn
        obtain rfl : _ = f := by simpa [Move.of, Interact.Sys.put] using hf
        cases hx
      | finish i =>
        obtain ⟨c, a, own, -, rfl⟩ := Interact.next_finish_iff.mp hn
        simp [Move.of, Interact.Sys.put] at hf
      | crash i =>
        obtain ⟨-, rfl⟩ := Interact.next_crash_iff.mp hn
        simp [Move.of, Interact.Sys.put] at hf
    · rw [Interact.next_flight_of_ne m hn him] at hf
      exact absurd hx (hnew f hf)
  · intro p r hp hr
    obtain hs | ⟨i, c, o, k, own, -, -, hs⟩ := Interact.next_store m hn
    · rw [hs] at hp
      simpa using congrArg List.length hp
    · rw [hs] at hp
      exact step_replays hp hr

/-- One execution at a time: within the lease at most one request runs its route, for the row of
its own hash; every replay is the answer of an execution with the same hash, the one answer of its
claim; and no request runs or is replayed past a row of another hash that is not expired. -/
structure OneExecution (cfg : Config) (T : System η β) : Prop where
  one : ∀ i j f f' stamp stamp', T.flight i = some f → T.flight j = some f' →
    executing f.own = some stamp → executing f'.own = some stamp' →
    Young cfg T.store stamp → Young cfg T.store stamp' → i = j
  row : ∀ i f stamp, T.flight i = some f → executing f.own = some stamp →
    Young cfg T.store stamp → ∃ r, T.store.row = some r ∧ f.kind.hash = some r.requestHash
  answered : ∀ i c own response, T.flight i = some ⟨c, .done (.replayed response, ()), own⟩ →
    ∃ hash, c.hash = some hash ∧ Answered T.store hash response
  replayed : ∀ p ∈ T.store.replays, (p.requestHash, p.response) ∈ T.store.responses
  identical : ∀ p ∈ T.store.replays, ∀ q ∈ T.store.replays, p.claim = q.claim →
    p.response = q.response
  admits : ∀ m U, next (step cfg) body () T m = some U → Admits cfg T U

/-- However requests with the key interleave and fail: one execution at a time, as long as no late
release deletes the row of an execution that has taken the key over. -/
theorem one_execution (cfg : Config) (hlease : cfg.lease ≤ cfg.ttl) (now : ℕ) (T : System η β)
    (h : Runs cfg (Fenced cfg) (idle (Store.empty η β now)) T) : OneExecution cfg T := by
  have hT := Runs.sane hlease h
  constructor
  · intro i j f f' stamp stamp' hf hf' hx hx' hy hy'
    obtain ⟨hash, -, r, hr, hserial, -⟩ := hT.held.owns i f stamp hf hx hy
    obtain ⟨hash', -, r', hr', hserial', -⟩ := hT.held.owns j f' stamp' hf' hx' hy'
    cases hr.symm.trans hr'
    exact hT.held.apart i j f f' stamp stamp' hf hf' hx hx' (hserial.symm.trans hserial')
  · intro i f stamp hf hx hy
    obtain ⟨hash, hc, r, hr, -, -, rfl⟩ := hT.held.owns i f stamp hf hx hy
    exact ⟨r, hr, hc⟩
  · exact fun i c own response hf => hT.ended hf response rfl
  · exact fun p hp => (hT.good.inv.replayed p hp).1
  · exact hT.good.inv.identical
  · exact fun m U hn => hT.admits m hn

end

/-! A request that outlives its lease: a retry takes the key over, and the late answer of the first
is either stored, or its release lets a third request run beside the second. -/
section Sample

def sampleConfig : Config := ⟨86400, 120⟩

def sampleRequest (ending : Ending ℕ) : Call ℕ ℕ :=
  .request 7 ⟨(.done, .done), (.done, .done), ending, .done, .done, false, .done⟩

def sampleLate (ending : Ending ℕ) : List (Move ℕ (Call ℕ ℕ)) :=
  [.start 0 (sampleRequest ending), .op 0, .start 3 (.tick 121), .op 3, .finish 3,
    .start 1 (sampleRequest .raised), .op 1, .op 0, .op 0, .start 2 (sampleRequest .raised), .op 2]

def releasing : System ℕ ℕ → Move ℕ (Call ℕ ℕ) → Bool
  | S, .op i => match S.flight i with
    | some ⟨_, .call (.release _ _) _, _⟩ => true
    | _ => false
  | _, _ => false

def youngs (T : System ℕ ℕ) : List ℕ :=
  (List.range 3).filter fun i => ((T.flight i).bind fun f => executing f.own).any fun stamp =>
    T.store.now ≤ stamp.time + sampleConfig.lease

lemma fenced_of_releasing {S : System ℕ ℕ} {m : Move ℕ (Call ℕ ℕ)}
    (h : (!releasing S m) = true) : Fenced sampleConfig S m := by
  cases m with
  | op i =>
    intro c hash fate k own r hf
    simp [releasing, hf] at h
  | _ => trivial

theorem one_execution_late : ∃ T : System ℕ ℕ,
    Runs sampleConfig (Fenced sampleConfig) (idle (Store.empty ℕ ℕ 0)) T ∧
      OneExecution sampleConfig T ∧ youngs T = [1] ∧ T.store.replays = [⟨1, 7, ⟨200, 5⟩⟩] := by
  have hplay : (Interact.play (step sampleConfig) body () (fun S m => !releasing S m)
      (idle (Store.empty ℕ ℕ 0)) (sampleLate (.answered (some 200) true (some 5)) ++ [.op 2])).map
      (fun T => (youngs T, T.store.replays)) = some ([1], [⟨1, 7, ⟨200, 5⟩⟩]) := by
    decide
  obtain ⟨T, hT, he⟩ := map_eq_some_iff.mp hplay
  have hrun : Runs sampleConfig (Fenced sampleConfig) (idle (Store.empty ℕ ℕ 0)) T :=
    Interact.Run.of_play (fun m _ S hc => fenced_of_releasing hc) hT
  rw [Prod.mk.injEq] at he
  exact ⟨T, hrun, one_execution sampleConfig (by decide) 0 T hrun, he.1, he.2⟩

theorem two_executions : ∃ T : System ℕ ℕ,
    Runs sampleConfig (fun _ _ => True) (idle (Store.empty ℕ ℕ 0)) T ∧
      ¬OneExecution sampleConfig T := by
  have hplay : (Interact.play (step sampleConfig) body () (fun _ _ => true)
      (idle (Store.empty ℕ ℕ 0)) (sampleLate .raised)).map youngs = some [1, 2] := by
    decide
  obtain ⟨T, hT, he⟩ := map_eq_some_iff.mp hplay
  refine ⟨T, Interact.Run.of_play (fun _ _ _ _ => trivial) hT, fun h => ?_⟩
  have hyoung : ∀ i ∈ youngs T, ∃ f stamp, T.flight i = some f ∧ executing f.own = some stamp ∧
      Young sampleConfig T.store stamp := by
    intro i hi
    have hi' := (List.mem_filter.mp hi).2
    obtain ⟨stamp, hx, hy⟩ := (any_eq_true _ _).mp hi'
    obtain ⟨f, hf, hx⟩ := bind_eq_some_iff.mp hx
    exact ⟨f, stamp, hf, hx, by simpa [Young] using hy⟩
  rw [he] at hyoung
  obtain ⟨f, stamp, hf, hx, hy⟩ := hyoung 1 (by decide)
  obtain ⟨f', stamp', hf', hx', hy'⟩ := hyoung 2 (by decide)
  exact absurd (h.one 1 2 f f' stamp stamp' hf hf' hx hx' hy hy') (by decide)

end Sample
end CloudServer.Idempotency
