import CloudServer.IngestClaim

/-! Every handler keeps its contract from its start to its end. -/
namespace CloudServer.Ingest

open Acks (Kind Part Sid Run Key Reason Message)
open UploadBuffer (NodeKey Upload Placed)
open Scan (Text)
open Interact (Prog Contract Safe)

def WasBuffered (u : Upload) (log : Log) : Prop :=
  ∃ known now, (⟨.putUnless u known now, Placed.buffered⟩ : Σ o, Res o) ∈ log

/-- How a call ends: nothing is held, what it took out of the buffers was saved, a node it
answers with was brought into memory, and its own upload is accounted for. -/
structure Ended (N : NodeKey) (ρ : Run) (c : Call) (log : Log) (x : Option Gid × Unit) (s : State) :
    Prop where
  idle : holding log = none
  saved : AllSaved N ρ c log s
  node : x.1.isSome → restored log = true
  upload : ∀ a, c = .upload a → Saved N ρ a.upload.session a.upload s ∨ a.upload ∈ s.dropped ∨
    WasBuffered a.upload log

variable {x : Option Gid}

section
variable {cfg : Config} {N : NodeKey} {ρ : Run} {s₀ s : State} {d : Delivery} {g : Gid}
variable {P : State → Prop} {log : Log}

def NodeEnded (N : NodeKey) (ρ : Run) (d : Delivery) (log : Log) (x : Option Gid) (s : State) :
    Prop :=
  holding log = none ∧ AllSaved N ρ (.node d) log s ∧ (x.isSome → restored log = true)

lemma stable_nodeEnded (log : Log) (x : Option Gid) :
    Stable N ρ s₀ (.node d) fun s => NodeEnded N ρ d log x s :=
  fun s s' hm hr hi h => ⟨h.1, stable_allSaved log s s' hm hr hi h.2.1, h.2.2⟩

lemma NodeEnded.same {log' : Log} (h : NodeEnded N ρ d log x s)
    (hs : SameLog log log') : NodeEnded N ρ d log' x s := by
  refine ⟨hs.1.trans h.1, fun u hu => ?_, fun hx => hs.2.2.trans (h.2.2 hx)⟩
  rw [hs.2.1] at hu
  exact h.2.1 u hu

lemma NodeEnded.claims (h : NodeEnded N ρ d log x s) : Claims N (.node d) log s :=
  (Tidy.of_none h.1 h.2.1).claims

lemma safe_answer {e : Acks.Event} {clock : Nat → Int}
    (he : ∀ s, Foreign N ρ e ∨ Vouched N ρ (some d.worker) d.session s e) (hs : NodeEnded N ρ d log x s) :
    Meets cfg N ρ s₀ (.node d) (fun log' x s' => NodeEnded N ρ d log' x s')
      (ack e clock >>= fun _ => pure x) log s := by
  refine Safe.bind contract_refl (safe_report (stable_nodeEnded log x) (fun s h => h.claims)
    (fun s _ => he s) hs) fun log1 _ s1 _ h1 => ?_
  exact safe_pure (stable_nodeEnded log1 x) (h1.1.same h1.2) fun t _ ht => ht

lemma safe_popBuffered {kind : Kind} {node : NodeKey} (hs : NodeEnded N ρ d log x s) :
    Meets cfg N ρ s₀ (.node d) (fun log' _ s' => NodeEnded N ρ d log' x s')
      (popBuffered node kind) log s := by
  have hP := @stable_nodeEnded N ρ s₀ d log x
  refine safe_side rfl hP (fun s h => h.claims) (fun _ _ _ => trivial) hs fun t _ _ _ ht => ?_
  change Safe _ _ _ (call (.drop _) >>= fun _ => pure ()) _ _
  refine safe_side rfl hP (fun s h => h.claims) (fun _ _ _ => trivial) ht fun t2 _ _ _ h2 => ?_
  exact safe_pure hP h2 fun t3 _ h3 => h3

theorem safe_handleNodeUpdate (hN : d.node = N) (hρ : d.run = ρ) :
    Meets cfg N ρ s₀ (.node d) (fun log' x s' => NodeEnded N ρ d log' x s')
      (handleNodeUpdate d) [] s := by
  have hnil : ∀ s, NodeEnded N ρ d [] none s := fun s =>
    ⟨rfl, fun u hu => (by cases hu), fun h => absurd h (by simp)⟩
  unfold handleNodeUpdate
  cases hr : d.refusal with
  | some refusal =>
    have hlast : ∀ log s, NodeEnded N ρ d log none s → Meets cfg N ρ s₀ (.node d)
        (fun log' x s' => NodeEnded N ρ d log' x s')
        (nodeFailed d refusal.reason refusal.sessionId >>= fun _ => pure none) log s :=
      fun log s h => safe_answer (fun _ => .inr trivial) h
    change Safe _ _ _ (if (refusal.pops && d.ns.isNone) = true then _ else _) _ _
    refine safe_ite (fun _ => ?_) fun _ => hlast [] s (hnil s)
    refine Safe.bind contract_refl (safe_popBuffered (hnil s)) fun log1 _ s1 _ h1 => ?_
    refine Safe.bind contract_refl (safe_popBuffered h1) fun log2 _ s2 _ h2 => ?_
    exact Safe.bind contract_refl (safe_popBuffered h2) fun log3 _ s3 _ h3 => hlast log3 s3 h3
  | none =>
    have hbegin := @safe_report cfg N ρ s₀ s _ [] (.begin d.key d.parts (some d.session))
      (d.luck.clock .received) (.node d) (@stable_nodeEnded N ρ s₀ d [] none)
      (fun s h => h.claims) (fun s _ => .inr ⟨by simp [Call.worker], ofNode_key hN hρ, rfl⟩) (hnil s)
    refine Safe.bind contract_refl hbegin fun log1 _ s1 _ h1 => ?_
    have h1' := h1.1.same h1.2
    refine safe_ite (fun _ => safe_answer (fun _ => .inr trivial) h1') fun _ => ?_
    refine Safe.bind contract_refl (safe_processTopology hN hρ h1'.1 h1.2.2.1)
      fun log2 x s2 _ h2 => ?_
    obtain ⟨claim, r⟩ := x
    have hheld : (∃ k g b, claim = some k ∧ r = .held g b ∧ Claimed N ρ d k s2 ∧
        Half N ρ s₀ d.session g s2 ∧ holding log2 = some k ∧ restored log2 = true ∧
        AllSaved N ρ (.node d) log2 s2) ∨ holding log2 = none ∧ Ends N ρ d log2 r s2 := by
      rcases h2 with ⟨k, hk, ⟨g, b, hrb, h⟩ | h⟩ | h
      · exact .inl ⟨k, g, b, hk, hrb, h⟩
      · exact .inr h
      · exact .inr h
    rcases hheld with ⟨k, g, b, rfl, rfl, hc, hhf, hh, hrs, hsv⟩ | ⟨hh, he⟩
    · -- the node is held: it is counted and the claim given up
      change Safe _ _ _ ((countHeld d k g b >>= fun _ =>
        if d.luck.publishRaises = true then nodeAbandoned d else pure ()) >>= fun _ =>
          pure (some g)) _ _
      have hcount := @safe_countHeld cfg N ρ s₀ _ d g k _ b hN hρ hc hhf hh hrs hsv
      have hpublish : Meets cfg N ρ s₀ (.node d)
          (fun log' _ s' => Left N ρ d log' s') (countHeld d k g b >>= fun _ =>
            if d.luck.publishRaises = true then nodeAbandoned d else pure ()) log2 s2 := by
        refine Safe.bind contract_refl hcount fun log3 _ s3 _ h3 => ?_
        refine safe_ite (fun _ => ?_) fun _ => ?_
        · exact Safe.imp (safe_report (stable_left log3) (fun s h => h.claims)
            (fun s _ => .inr trivial) h3) fun log4 _ s4 _ h4 => h4.1.same h4.2
        · exact safe_pure (stable_left log3) h3 fun t _ ht => ht
      refine Safe.bind contract_refl hpublish fun log4 _ s4 _ h4 => ?_
      exact safe_pure (stable_left log4) h4 fun t _ ht => ⟨ht.1, ht.2.2, fun _ => ht.2.1⟩
    · cases r with
      | held g b => exact absurd rfl (he.unheld g b)
      | raised => exact safe_answer (fun _ => .inr trivial) ⟨hh, he.saved, fun h => absurd h (by simp)⟩
      | busy =>
        exact safe_pure (stable_nodeEnded log2 none) ⟨hh, he.saved, fun h => absurd h (by simp)⟩ fun t _ ht => ht
      | failed reason node => exact safe_answer (fun _ => .inr trivial) ⟨hh, he.saved, he.node⟩
      | duplicate g =>
        obtain ⟨hg, hf⟩ := he.duplicate g rfl
        have hP := (@stable_nodeEnded N ρ s₀ d log2 (some g)).and
          (@stable_finished N ρ s₀ _ _ (.node d) hg)
        refine Safe.bind contract_refl (safe_readTruth hP (fun s h => h.1.claims) hg
          ⟨⟨hh, he.saved, he.node⟩, hf⟩) fun log3 truth s3 _ h3 => ?_
        have hP3 := hP.and (Stable.forall fun p => Stable.imp (a := p ∈ truth) (@stable_durable N ρ s₀ (.node d) g p))
        refine Safe.bind contract_refl (safe_nodeOk hN hρ hg hP3
          (fun s h => (h.1.1.same h3.2).claims) (fun s h => ⟨h.1.2, h.2⟩) h3.1)
          fun log4 _ s4 _ h4 => ?_
        exact safe_pure (stable_nodeEnded log4 (some g)) (h4.1.1.1.same (h3.2.trans h4.2))
          fun t _ ht => ht

end

section Uploads
variable {cfg : Config} {N : NodeKey} {ρ : Run} {s₀ s : State} {a : Arrival} {c : Call}
variable {log : Log} {P : State → Prop}

def Untouched (log : Log) : Prop := SameLog [] log

lemma Untouched.claims (h : Untouched log) (s : State) : Claims N c log s := by
  intro g hg
  rw [h.1] at hg
  cases hg

lemma SameLog.untouched {log' : Log} (hs : SameLog log log') (h : Untouched log) : Untouched log' := h.trans hs

def Offers (N : NodeKey) (ρ : Run) (S : Text) (x : Option Gid) (s : State) : Prop :=
  ∀ g, x = some g → Target N ρ s S g

lemma stable_offers (S : Text) (x : Option Gid) : Stable N ρ s₀ c (Offers N ρ S x) :=
  fun _ _ hm _ _ h g hg => hm.target (h g hg)

variable {u : Upload}

lemma Inv.target (h : Inv N ρ s₀ s) (hN : u.node = N) :
    Offers N ρ u.session (target s u) s := by
  intro g hg
  have himage : mappedNode s u.node u.session u.run = some g → Target N ρ s u.session g := by
    intro hg
    unfold mappedNode at hg
    split at hg
    · cases hg
    · obtain ⟨m, hm, rfl⟩ := Option.map_eq_some_iff.mp hg
      obtain ⟨hm, hS⟩ := Option.filter_eq_some_iff.mp hm
      rw [hN] at hm
      have hS : m.session = u.session := by simpa using hS
      exact hS ▸ (h.mapped m hm).2
  have hlayer : storedNode s u.node u.session u.run = some g → Target N ρ s u.session g := by
    intro hg
    unfold storedNode at hg
    split at hg
    · cases hg
    · obtain ⟨x, hx, rfl⟩ := Option.map_eq_some_iff.mp hg
      obtain ⟨hx, hS⟩ := Option.filter_eq_some_iff.mp hx
      rw [hN] at hx
      obtain ⟨hgS, hd, -⟩ := h.stored x hx
      have hS : x.2 = u.session := by simpa using hS
      exact ⟨hS ▸ hgS, .inr hd⟩
  cases hk : u.kind with
  | image => exact himage (by simpa [Ingest.target, hk] using hg)
  | depth | costmap => exact hlayer (by simpa [Ingest.target, hk] using hg)

/-- What a search for the node of an upload finds is a stored node of the session. -/
def Finds (N : NodeKey) (ρ : Run) (S : Text) (log : Log) (x : Option Gid) (s : State) : Prop :=
  Untouched log ∧ Offers N ρ S x s

lemma safe_found {S : Text} (hl : Untouched log) (hx : Offers N ρ S x s) :
    Meets cfg N ρ s₀ c (Finds N ρ S) (pure x) log s :=
  safe_pure (stable_offers S x) hx fun _ _ h => ⟨hl, h⟩

lemma offers_none (S : Text) : Offers N ρ S none s := by
  intro g hg
  cases hg

lemma safe_findCached {S : Text} {ids : List Gid} (hids : ∀ g ∈ ids, InSession N S g) (hl : Untouched log) :
    Meets cfg N ρ s₀ c (Finds N ρ S) (findCached ids) log s := by
  induction ids generalizing log s with
  | nil => exact safe_found hl (offers_none S)
  | cons g ids ih =>
    refine safe_side rfl (stable_const True) (fun s _ => hl.claims s) (fun _ _ _ => trivial) trivial
      fun t hi _ _ _ => ?_
    refine safe_ite (fun hit => ?_) fun _ => ?_
    · refine safe_found hl fun k hk => ?_
      cases hk
      have hg := hids g (by simp)
      exact ⟨hg, .inr (hi.cached S g hg (of_decide_eq_true hit))⟩
    · exact ih (fun k hk => hids k (by simp [hk])) hl

lemma safe_findStored {S : Text} {ids : List Gid} (luck : Luck) (hids : ∀ g ∈ ids, InSession N S g) (hl : Untouched log) :
    Meets cfg N ρ s₀ c (Finds N ρ S) (findStored luck ids) log s := by
  induction ids generalizing log s with
  | nil => exact safe_found hl (offers_none S)
  | cons g ids ih =>
    refine safe_side rfl (stable_const True) (fun s _ => hl.claims s) (fun _ _ _ => trivial) trivial
      fun t _ _ _ _ => ?_
    refine safe_ite (fun hfound => ?_) fun _ => ih (fun k hk => hids k (by simp [hk])) hl
    have hd : (t.docs g).isSome := by
      cases hk : luck.lookup g with
      | false => simp [perform, hk] at hfound
      | true => simpa [perform, hk] using hfound
    have hP : Stable N ρ s₀ c fun s => (s.docs g).isSome := fun _ _ hm _ _ h => hm.isSome h
    change Safe _ _ _ (call (.cacheNode g) >>= fun _ => pure (some g)) _ _
    refine safe_side rfl hP (fun s _ => hl.claims s) (fun _ _ h _ _ => h) hd fun t2 _ _ _ h2 => ?_
    refine safe_found hl fun k hk => ?_
    cases hk
    exact ⟨hids g (by simp), .inr h2⟩

lemma safe_search (luck : Luck) (hN : u.node = N) (hl : Untouched log) :
    Meets cfg N ρ s₀ c
      (Finds N ρ u.session) (call (.candidates u) >>= fun ids : List Gid => findCached ids >>= fun
        | some g => pure (some g)
        | none => findStored luck ids) log s := by
  refine safe_side rfl (stable_const True) (fun s _ => hl.claims s) (fun _ _ _ => trivial) trivial
    fun t _ _ _ _ => ?_
  have hids : ∀ g ∈ candidateIds t u.node u.session u.run true, InSession N u.session g := by
    intro g hg
    rw [hN] at hg
    exact inSession_of_candidate hg
  refine Safe.bind contract_refl (safe_findCached hids hl) fun log2 hit s2 _ h2 => ?_
  cases hit with
  | some g => exact safe_found h2.1 h2.2
  | none => exact safe_findStored luck hids h2.1

lemma safe_findPartNode (luck : Luck) (hN : u.node = N) (hl : Untouched log) :
    Meets cfg N ρ s₀ c (Finds N ρ u.session) (findPartNode luck u) log s := by
  change Safe _ _ _ (if u.run.isNone = true then _ else _) _ _
  split
  · refine safe_side rfl (stable_const True) (fun s _ => hl.claims s) (fun _ _ _ => trivial) trivial
      fun t _ _ _ _ => ?_
    refine safe_ite (fun _ => ?_) fun _ => safe_search luck hN hl
    refine Safe.bind contract_refl (safe_probeRun (stable_const True)
      (fun s _ => hl.claims s) trivial) fun log2 _ s2 _ h2 => ?_
    exact safe_search luck hN (h2.2.untouched hl)
  · exact safe_search luck hN hl

lemma safe_knownNode (luck : Luck) (hN : u.node = N) (hl : Untouched log) :
    Meets cfg N ρ s₀ c (Finds N ρ u.session) (knownNode luck u) log s := by
  refine safe_side rfl (stable_const True) (fun s _ => hl.claims s) (fun _ _ _ => trivial) trivial
    fun t hi _ _ _ => ?_
  have ht := hi.target hN
  generalize hhere : (perform cfg (.known u) t).1 = here
  replace hhere : target t u = here := hhere
  cases here with
  | some g =>
    rw [hhere] at ht
    exact safe_found hl ht
  | none => exact safe_findPartNode luck hN hl

def Placement (N : NodeKey) (ρ : Run) (a : Arrival) (log : Log) (s : State) : Prop :=
  Saved N ρ a.upload.session a.upload s ∨ a.upload ∈ s.dropped ∨ WasBuffered a.upload log

def UploadEnded (N : NodeKey) (ρ : Run) (a : Arrival) (log : Log) (s : State) : Prop :=
  Untouched log ∧ Placement N ρ a log s

lemma stable_placement : Stable N ρ s₀ c (Placement N ρ a log) := by
  rintro s s' hm - - (⟨g, hg, hh⟩ | hd | hb)
  · exact .inl ⟨g, hm.target hg, hm.handed hh⟩
  · exact .inr (.inl (hm.dropped hd))
  · exact .inr (.inr hb)

lemma safe_rejectPart {reason : Reason} {sessionId : Option Text} (hl : Untouched log) :
    Meets cfg N ρ s₀ (.upload a) (fun log' _ s' => UploadEnded N ρ a log' s')
      (rejectPart a reason sessionId) log s := by
  refine safe_call (stable_const True) trivial fun t _ _ =>
    ⟨⟨trivial, hl.claims t⟩, fun _ _ => ?_⟩
  have hP : Stable N ρ s₀ (.upload a) fun s => a.upload ∈ s.dropped :=
    fun _ _ hm _ _ h => hm.dropped h
  have hd : a.upload ∈ (perform cfg (.drop [a.upload]) t).2.dropped := by simp [perform]
  refine Safe.imp (safe_report hP (fun s _ => hl.claims s) (fun _ _ => .inr trivial) hd)
    fun log2 _ s2 _ h2 => ⟨h2.2.untouched hl, .inr (.inl h2.1)⟩

lemma safe_saveUpload {g : Gid} (luck : Luck) (hN : u.node = N) (hρ : u.run = ρ)
    (hc : c.session = u.session) (hl : Untouched log) (hg : Target N ρ s u.session g) :
    Meets cfg N ρ s₀ c
      (fun log' _ s' => Untouched log' ∧ Saved N ρ u.session u s') (saveUpload luck g u) log s := by
  have hP : Stable N ρ s₀ c fun s => Target N ρ s c.session g := fun _ _ hm _ _ h => hm.target h
  have hu : OfNode N ρ (uploadKey u) := ⟨congrArg NodeKey.robot hN, hρ, congrArg NodeKey.sid hN⟩
  have hdone : ∀ log' (b : Bool) s', ((Target N ρ s' c.session g ∧ ∀ v ∈ [u], (g, v) ∈ s'.handed) ∧
      SameLog log log') → Untouched log' ∧ Saved N ρ u.session u s' := by
    intro log' b s' h
    exact ⟨h.2.untouched hl, g, hc ▸ h.1.1, h.1.2 u (by simp)⟩
  have hlayers : ∀ kind, u.kind = kind → Meets cfg N ρ s₀ c
      (fun log' _ s' => Untouched log' ∧ Saved N ρ u.session u s')
      (saveLayers luck kind g [u]) log s := by
    intro kind hk
    refine Safe.imp (safe_saveLayers luck hP (fun s _ => hl.claims s) (fun _ h => h)
      (fun v hv => ?_) (hc ▸ hg)) fun log' b s' _ h => hdone log' b s' h
    obtain rfl := List.mem_singleton.mp hv
    exact ⟨hu, hk⟩
  unfold saveUpload
  cases hk : u.kind with
  | image =>
    refine Safe.imp (safe_saveImages luck hP (fun s _ => hl.claims s) (fun _ h => h)
      (fun v hv => ?_) (hc ▸ hg)) fun log' b s' _ h => hdone log' b s' h
    obtain rfl := List.mem_singleton.mp hv
    exact ⟨hu, hk⟩
  | depth => exact hlayers .depth hk
  | costmap => exact hlayers .costmap hk

lemma offers_putUnless {known : Option Gid} {now : Int} {g : Gid}
    (h : (putUnless cfg s u known now).1 = .found g) (ht : Offers N ρ u.session (target s u) s)
    (hk : Offers N ρ u.session known s) : Target N ρ s u.session g := by
  have hor : (target s u).or known = some g := by
    unfold putUnless UploadBuffer.putUnless at h
    cases hx : (target s u).or known with
    | some k =>
      rw [hx] at h
      exact congrArg some (by simpa using h)
    | none =>
      rw [hx] at h
      simp only at h
      split at h <;> simp at h
  rcases Option.or_eq_some_iff.mp hor with h1 | ⟨-, h1⟩
  · exact ht g h1
  · exact hk g h1

theorem safe_handleUpload (hN : a.upload.node = N) (hρ : a.upload.run = ρ) :
    Meets cfg N ρ s₀ (.upload a) (fun log' _ s' => UploadEnded N ρ a log' s') (handleUpload a) [] s := by
  unfold handleUpload
  cases hr : a.refusal with
  | some x => exact safe_rejectPart (.refl [])
  | none =>
    refine Safe.bind contract_refl (safe_knownNode a.luck hN (.refl [])) fun log1 known s1 _ h1 => ?_
    refine safe_call (stable_offers a.upload.session known) h1.2 fun t hi ht =>
      ⟨⟨⟨hN, hρ⟩, h1.1.claims t⟩, fun _ hm => ?_⟩
    have hl : ∀ r, Untouched (⟨.putUnless a.upload known (a.luck.clock .taken 0), r⟩ :: log1) :=
      fun _ => h1.1
    cases hp : (putUnless cfg t a.upload known (a.luck.clock .taken 0)).1 with
    | dropped =>
      simp only [perform, hp]
      exact safe_rejectPart (hl _)
    | buffered =>
      simp only [perform, hp]
      refine safe_pure (stable_const True) trivial fun t2 _ _ => ⟨hl _, .inr (.inr ?_)⟩
      exact ⟨known, _, List.mem_cons_self ..⟩
    | found g =>
      simp only [perform, hp]
      have hg := hm.target (offers_putUnless hp (hi.target hN) ht)
      refine Safe.bind contract_refl (safe_saveUpload a.luck hN hρ rfl (hl _) hg)
        fun log2 saved s2 _ h2 => ?_
      refine safe_ite (fun _ => ?_) fun _ => safe_rejectPart h2.1
      exact safe_pure stable_placement (.inl h2.2) fun t2 _ h3 => ⟨h2.1, h3⟩

/-- A call of the node, of another node's reports or of the upkeep, made by a worker of its own. -/
def Admitted (N : NodeKey) (ρ : Run) : Call → Prop
  | .node d => d.node = N ∧ d.run = ρ
  | .upload a => a.upload.node = N ∧ a.upload.run = ρ
  | .acks e _ => Foreign N ρ e
  | .cleanup _ _ => True

theorem safe_body (ha : Admitted N ρ c) :
    Meets cfg N ρ s₀ c (Ended N ρ c) (body c ()) [] s := by
  have hsaved : ∀ log, Untouched log → ∀ s, AllSaved N ρ c log s := by
    intro log hl s u hu
    rw [hl.2.1] at hu
    cases hu
  cases c with
  | node d =>
    refine Safe.bind contract_refl (safe_handleNodeUpdate ha.1 ha.2) fun log1 x s1 _ h1 => ?_
    exact safe_pure (stable_nodeEnded log1 x) h1 fun t _ ht =>
      ⟨ht.1, ht.2.1, ht.2.2, fun a h => by cases h⟩
  | upload a =>
    refine Safe.bind contract_refl (safe_handleUpload ha.1 ha.2) fun log1 _ s1 _ h1 => ?_
    refine safe_pure stable_placement h1.2 fun t _ ht => ⟨h1.1.1, hsaved log1 h1.1 t, ?_, ?_⟩
    · exact fun h => absurd h (by simp)
    · rintro b hb
      cases hb
      exact ht
  | acks e clock =>
    refine Safe.bind contract_refl (safe_report (stable_const True)
      (fun s _ => Untouched.claims (.refl []) s) (fun _ _ => .inl ha) trivial)
      fun log1 _ s1 _ h1 => ?_
    refine safe_pure (stable_const True) trivial fun t _ _ => ⟨h1.2.1, hsaved log1 h1.2 t, ?_, ?_⟩
    · exact fun h => absurd h (by simp)
    · exact fun b hb => by cases hb
  | cleanup threshold now =>
    refine safe_side rfl (stable_const True) (fun s _ => Untouched.claims (.refl []) s)
      (fun _ _ _ => trivial) trivial fun t _ _ _ _ => ?_
    refine safe_pure (stable_const True) trivial fun t2 _ _ => ⟨rfl, hsaved _ (.refl []) t2, ?_, ?_⟩
    · exact fun h => absurd h (by simp)
    · exact fun b hb => by cases hb

end Uploads
end CloudServer.Ingest
