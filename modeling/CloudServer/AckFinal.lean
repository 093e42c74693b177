import CloudServer.Acks

/-! The final ack of a bundle: the event that leaves no declared part open sends it. -/
namespace CloudServer.AckFinal

open Acks List Dict
open Scan (Text)

def openParts (e : Entry) : List Part :=
  e.declared.filter fun p => p ∉ e.stored && p ∉ e.missing.keys

def acksOf (ms : List Message) : List Ack :=
  ms.filterMap fun x => match x with
    | .ack a => some a
    | .state .. => none

/-- The event declares the parts that the bundle of its key has. -/
def Consistent (M : Key → Option (List Part)) : Event → Prop
  | .begin k l _ => l = (M k).getD []
  | .nodeOk k _ _ l _ => l = M k
  | _ => True

inductive Reached (cfg : Config) (M : Key → Option (List Part)) : Manager → Prop
  | init : Reached cfg M .init
  | step {m : Manager} (h : Reached cfg M m) (clock : Nat → Int) {ev : Event}
      (hc : Consistent M ev) : Reached cfg M (ev.apply cfg clock m).1

/-- The tracker of a key with what the event tells of its parts, before any ack of it. -/
def told (cfg : Config) (m : Manager) (key : Key) : Event → Option Entry
  | .nodeOk k status sid (some (p :: ps)) truth =>
    if k = key then ((track cfg m k (p :: ps) sid).entries.get k).map fun e =>
      { e with declared := p :: ps, sessionId := sid, status := some status, missing := .empty,
               stored := e.stored ∪ truth }
    else m.entries.get key
  | .partStored k part =>
    if k = key then (m.entries.get k).map fun e =>
      { e with stored := e.stored.insert part, missing := e.missing.erase part }
    else m.entries.get key
  | .partRejected k part reason _ =>
    if k = key then (m.entries.get k).map fun e =>
      if e.status ≠ none ∧ part ∈ e.declared ∧ part ∉ e.stored then
        { e with missing := e.missing.set part reason }
      else e
    else m.entries.get key
  | _ => m.entries.get key

structure Ends (key : Key) (e : Entry) (a : Ack) : Prop where
  key : a.key = key
  complete : a.complete = some true ↔ ∀ p ∈ e.declared, p ∈ e.stored
  terminal : a.status = .rejected ∧ a.resend = .none ∧ a.complete = some false ↔
    ∃ p r, e.missing.get p = some r ∧ r.terminal = true
  resend : (∃ p ∈ e.declared, p ∉ e.stored) →
    (∀ p r, e.missing.get p = some r → r.terminal = false) →
      a.resend = .parts ∧ ∀ p, p ∈ a.missing ↔ p ∈ e.missing.keys

structure Fits (M : Key → Option (List Part)) (key : Key) (e : Entry) : Prop where
  declared : M key = some e.declared
  missing : ∀ p ∈ e.missing.keys, p ∈ e.declared ∧ p ∉ e.stored

structure Waits (M : Key → Option (List Part)) (key : Key) (e : Entry) : Prop
    extends Fits M key e where
  acked : e.status ≠ none → openParts e ≠ []

def Waiting (M : Key → Option (List Part)) (m : Manager) : Prop :=
  ∀ k e, m.entries.get k = some e → Waits M k e

def WaitingBut (M : Key → Option (List Part)) (key : Key) (m : Manager) : Prop :=
  ∀ k e, k ≠ key → m.entries.get k = some e → Waits M k e

def Disjoint (a : Ack) : Prop := ∀ p ∈ a.stored, p ∉ a.missing

def Sound (M : Key → Option (List Part)) (x : Step) : Prop :=
  Waiting M x.1 ∧ ∀ a ∈ acksOf x.2, Disjoint a

/-- The acks of an ack: one, or none for a robot that has no topic or for a repeated one. -/
def sent (m : Manager) (a : Ack) (now : Int) : List Ack :=
  if validTopicLevel a.robot = true ∧ coalesced m a now = false then [a] else []

def body (key : Key) (status : Status) (reason : Option Reason) (resend : Resend)
    (stored missing : List Part) (complete : Option Bool) (sessionId : Option Text) : Ack :=
  ⟨key.robot, key.run, key.sid, status, reason, resend, partDicts stored, partDicts missing,
    complete, sessionId, key.ns⟩

def finalAck (key : Key) (e : Entry) (status : Status) : Ack :=
  if e.missing.items.isEmpty then
    body key status none .none e.declared [] (some true) e.sessionId
  else match (e.missing.items.map Prod.snd).filter Reason.terminal with
    | reason :: _ =>
      body key .rejected (some reason) .none e.stored e.missing.keys (some false) e.sessionId
    | [] =>
      body key status (e.missing.items.map Prod.snd).head? .parts e.stored e.missing.keys
        (some false) e.sessionId

section
variable {M : Key → Option (List Part)} {m : Manager} {C : Config} {key : Key} {e : Entry}

@[simp]
lemma acksOf_nil : acksOf [] = [] := rfl

@[simp]
lemma acksOf_append (xs ys : List Message) : acksOf (xs ++ ys) = acksOf xs ++ acksOf ys :=
  filterMap_append

variable {m' : Manager} {p part : Part} {d : Dict Part Reason}

lemma mem_openParts :
    p ∈ openParts e ↔ p ∈ e.declared ∧ p ∉ e.stored ∧ p ∉ e.missing.keys := by
  simp [openParts]

variable {st status : Status} {sid : Option Text} {parts ps truth : List Part}

lemma mem_partDicts : p ∈ partDicts ps ↔ p ∈ ps :=
  (perm_insertionSort _ ps).mem_iff

lemma sent_eq (m : Manager) (a : Ack) (now : Int) (hv : validTopicLevel a.robot = true) :
    sent m a now = [a] ∨ sent m a now = [] ∧ coalesced m a now = true := by
  unfold sent
  cases hc : coalesced m a now with
  | false => exact .inl (by simp [hv])
  | true => exact .inr (by simp)

lemma entries_acked (m : Manager) (lastAck : Dict Key (Ack × Int)) : Manager.entries { m with lastAck } = m.entries := rfl

lemma ack_entries (m : Manager) (key : Key) (status : Status) (reason : Option Reason)
    (resend : Resend) (stored missing : List Part) (complete : Option Bool)
    (sessionId : Option Text) (now : Int) :
    (Acks.ack m key.robot key.run key.sid status reason resend stored missing complete sessionId
      key.ns now).1.entries = m.entries := by
  unfold Acks.ack
  by_cases hv : validTopicLevel key.robot = true
  · rw [if_pos hv]
    dsimp only
    split
    · rfl
    · exact entries_acked m _
  · rw [if_neg hv]

lemma ack_acks (m : Manager) (key : Key) (status : Status) (reason : Option Reason)
    (resend : Resend) (stored missing : List Part) (complete : Option Bool)
    (sessionId : Option Text) (now : Int) :
    acksOf (Acks.ack m key.robot key.run key.sid status reason resend stored missing complete
      sessionId key.ns now).2 = sent m (body key status reason resend stored missing complete sessionId) now := by
  unfold Acks.ack sent body
  by_cases hv : validTopicLevel key.robot = true
  · rw [if_pos hv]
    simp only
    split
    · rename_i hc
      simp [hc]
    · rename_i hc
      rw [if_pos ⟨hv, by simpa using hc⟩]
      rfl
  · rw [if_neg hv, if_neg fun h => hv h.1]
    rfl

lemma raise_entries (m : Manager) (robot : Text) (st : State) (now : Int) :
    (raise C m robot st now).1.entries = m.entries := rfl

lemma raise_acks (m : Manager) (robot : Text) (st : State) (now : Int) :
    acksOf (raise C m robot st now).2 = [] := by
  unfold raise maybeState
  split_ifs <;> rfl

lemma complete_quiet (m : Manager) (robot : Text) (run : Run) (sid : Sid) (ns : Option Text)
    (now : Int) : (complete C m robot run sid ns now).1.entries = m.entries ∧
      acksOf (complete C m robot run sid ns now).2 = [] := by
  unfold complete
  split
  · split_ifs
    · exact ⟨rfl, rfl⟩
    · split
      · exact ⟨raise_entries .., raise_acks ..⟩
      · split_ifs
        · exact ⟨raise_entries .., raise_acks ..⟩
        · exact ⟨raise_entries .., raise_acks ..⟩
        · exact ⟨rfl, rfl⟩
  · exact ⟨rfl, rfl⟩

lemma Waiting.but (h : Waiting M m) (key : Key) : WaitingBut M key m := fun k e _ => h k e

lemma Waiting.congr (h : Waiting M m) (he : m'.entries = m.entries) :
    Waiting M m' := by
  intro k x hx
  rw [he] at hx
  exact h k x hx

lemma WaitingBut.congr (h : WaitingBut M key m) (he : m'.entries = m.entries) :
    WaitingBut M key m' := by
  intro k x hk hx
  rw [he] at hx
  exact h k x hk hx

lemma WaitingBut.set (h : WaitingBut M key m) (he : Waits M key e) :
    Waiting M { m with entries := m.entries.set key e } := by
  intro k x hx
  rw [get_set] at hx
  split_ifs at hx with hk
  · cases hx
    exact hk ▸ he
  · exact h k x hk hx

lemma WaitingBut.put (h : WaitingBut M key m) (he : Waits M key e) :
    Waiting M { m with entries := m.entries.put key e } := by
  intro k x hx
  rw [get_put] at hx
  split_ifs at hx with hk
  · cases hx
    exact hk ▸ he
  · exact h k x hk hx

lemma WaitingBut.erase (h : WaitingBut M key m) :
    Waiting M { m with entries := m.entries.erase key } := by
  intro k x hx
  rw [get_erase] at hx
  split_ifs at hx with hk
  exact h k x hk hx

lemma WaitingBut.assigned (h : WaitingBut M key m) (e : Entry) :
    WaitingBut M key { m with entries := m.entries.set key e } := by
  intro k x hk hx
  rw [get_set, if_neg hk] at hx
  exact h k x hk hx

lemma WaitingBut.moved (h : WaitingBut M key m) (e : Entry) :
    WaitingBut M key { m with entries := m.entries.put key e } := by
  intro k x hk hx
  rw [get_put, if_neg hk] at hx
  exact h k x hk hx

lemma Waiting.evict (h : Waiting M m) : Waiting M (evict C m) :=
  fun k x hx => h k x (get_newest hx)

lemma Sound.nil (h : Waiting M m) : Sound M (m, []) := ⟨h, fun a ha => by cases ha⟩

lemma disjoint_sent {a b : Ack} {now : Int} (h : Disjoint a) (hb : b ∈ sent m a now) :
    Disjoint b := by
  unfold sent at hb
  split at hb
  · obtain rfl := mem_singleton.mp hb
    exact h
  · cases hb

lemma disjoint_body {reason : Option Reason} {resend : Resend}
    {stored missing : List Part} {complete : Option Bool} {sessionId : Option Text}
    (h : ∀ p ∈ missing, p ∉ stored) :
    Disjoint (body key status reason resend stored missing complete sessionId) := by
  intro p hp hq
  exact h p (mem_partDicts.mp hq) (mem_partDicts.mp hp)

lemma Fits.disjoint (h : Fits M key e) (status : Status) : Disjoint (finalAck key e status) := by
  unfold finalAck
  split
  · exact disjoint_body fun p hp => by cases hp
  · split
    · exact disjoint_body fun p hp => (h.missing p hp).2
    · exact disjoint_body fun p hp => (h.missing p hp).2

lemma empty_of_isEmpty (h : d.items.isEmpty = true) (p : Part) :
    d.get p = none := by
  unfold Dict.get
  rw [isEmpty_iff.mp h]
  rfl

lemma exists_missing (h : ¬d.items.isEmpty = true) : ∃ p, p ∈ d.keys := by
  obtain ⟨x, hx⟩ := exists_mem_of_ne_nil d.items fun hnil => h (by rw [hnil]; rfl)
  exact ⟨x.1, mem_map.mpr ⟨x, hx, rfl⟩⟩

lemma mem_reasons {r : Reason} :
    r ∈ (d.items.map Prod.snd).filter Reason.terminal ↔ (∃ p, d.get p = some r) ∧ r.terminal = true := by
  rw [mem_filter, mem_map]
  refine and_congr_left fun _ => ⟨?_, ?_⟩
  · rintro ⟨x, hx, rfl⟩
    exact ⟨x.1, mem_items.mp hx⟩
  · rintro ⟨p, hp⟩
    exact ⟨(p, r), mem_items.mpr hp, rfl⟩

lemma Fits.ends (h : Fits M key e) (hopen : openParts e = []) (status : Status) :
    Ends key e (finalAck key e status) := by
  have hall : ∀ p ∈ e.declared, p ∉ e.stored → p ∈ e.missing.keys := by
    intro p hp hs
    by_contra hm
    exact ne_nil_of_mem (mem_openParts.mpr ⟨hp, hs, hm⟩) hopen
  unfold finalAck
  split
  · rename_i hnone
    have hno : ∀ p, p ∉ e.missing.keys := fun p =>
      get_eq_none.mp (empty_of_isEmpty hnone p)
    have hstored : ∀ p ∈ e.declared, p ∈ e.stored := fun p hp => by
      by_contra hs
      exact hno p (hall p hp hs)
    refine ⟨rfl, iff_of_true rfl hstored, iff_of_false (fun hc => nomatch hc.2.2) ?_, ?_⟩
    · rintro ⟨p, r, hr, -⟩
      exact hno p (mem_keys.mpr ⟨r, hr⟩)
    · rintro ⟨p, hp, hs⟩
      exact absurd (hstored p hp) hs
  · rename_i hsome
    obtain ⟨q, hq⟩ := exists_missing hsome
    have hleft : ¬∀ p ∈ e.declared, p ∈ e.stored :=
      fun hs => (h.missing q hq).2 (hs q (h.missing q hq).1)
    split
    · rename_i reason rest hterminal
      have hr : reason ∈ (e.missing.items.map Prod.snd).filter Reason.terminal := by
        rw [hterminal]
        simp
      obtain ⟨⟨p, hp⟩, ht⟩ := mem_reasons.mp hr
      refine ⟨rfl, iff_of_false (fun hc => nomatch hc) hleft,
        iff_of_true ⟨rfl, rfl, rfl⟩ ⟨p, reason, hp, ht⟩, fun _ hno => ?_⟩
      rw [hno p reason hp] at ht
      cases ht
    · rename_i hterminal
      refine ⟨rfl, iff_of_false (fun hc => nomatch hc) hleft,
        iff_of_false (fun hc => nomatch hc.2.1) ?_, fun _ _ => ⟨rfl, fun p => mem_partDicts⟩⟩
      rintro ⟨p, r, hr, ht⟩
      have hmem := mem_reasons.mpr ⟨⟨p, hr⟩, ht⟩
      rw [hterminal] at hmem
      cases hmem

lemma final_acks (clock : Nat → Int) (m : Manager) (key : Key) (e : Entry) (status : Status) :
    acksOf (final C clock m key e status).2 = sent m (finalAck key e status) (clock 1) := by
  unfold final finalAck
  split
  · simp only [Step.andThen, acksOf_append, ack_acks, complete_quiet, append_nil]
  · cases (e.missing.items.map Prod.snd).filter Reason.terminal <;>
      simp only [Step.andThen, ack_acks, append_nil]

lemma final_waiting (h : WaitingBut M key m) (he : Fits M key e) (clock : Nat → Int)
    (status : Status) : Waiting M (final C clock m key e status).1 := by
  unfold final
  split
  · refine Waiting.congr ?_ (complete_quiet ..).1
    exact (h.congr (ack_entries ..)).erase
  · rename_i hsome
    split
    · exact (h.congr (ack_entries ..)).erase
    · refine (h.congr (ack_entries ..)).set ⟨⟨he.declared, fun p hp => by cases hp⟩, fun _ => ?_⟩
      obtain ⟨q, hq⟩ := exists_missing hsome
      exact ne_nil_of_mem (mem_openParts.mpr ⟨(he.missing q hq).1, (he.missing q hq).2, fun hc => by cases hc⟩)

lemma final_sound (h : WaitingBut M key m) (he : Fits M key e) (clock : Nat → Int)
    (status : Status) : Sound M (final C clock m key e status) := by
  refine ⟨final_waiting h he clock status, fun a ha => ?_⟩
  rw [final_acks] at ha
  exact disjoint_sent (he.disjoint status) ha

lemma sent_congr (h : m'.lastAck = m.lastAck) (a : Ack) (now : Int) :
    sent m' a now = sent m a now := by
  unfold sent coalesced
  rw [h]

lemma any_open : (e.declared.any fun p => p ∉ e.stored && p ∉ e.missing.keys) = true ↔
    openParts e ≠ [] := by
  rw [any_eq_true]
  constructor
  · rintro ⟨p, hp, hopen⟩
    exact ne_nil_of_mem (mem_filter.mpr ⟨hp, hopen⟩)
  · intro hne
    obtain ⟨p, hp⟩ := exists_mem_of_ne_nil _ hne
    exact ⟨p, mem_filter.mp hp⟩

lemma evaluate_sound (h : WaitingBut M key m) (hget : m.entries.get key = some e)
    (he : Fits M key e) (clock : Nat → Int) (status : Status) :
    Sound M (evaluate C clock m key e status) := by
  unfold evaluate
  split
  · rename_i hany
    refine Sound.nil fun k x hx => ?_
    by_cases hk : k = key
    · rw [hk, hget] at hx
      cases hx
      exact hk ▸ ⟨he, fun _ => any_open.mp hany⟩
    · exact h k x hk hx
  · exact final_sound h he clock status

lemma evaluate_acks (hopen : openParts e = []) (clock : Nat → Int) (status : Status) :
    acksOf (evaluate C clock m key e status).2 = sent m (finalAck key e status) (clock 1) := by
  unfold evaluate
  rw [if_neg fun h => any_open.mp h hopen]
  exact final_acks clock m key e status

lemma waits_new (h : M key = some parts) (sid : Option Text) (since : Int) :
    Waits M key (.new parts sid since) :=
  ⟨⟨h, fun p hp => by cases hp⟩, fun hs => absurd rfl hs⟩

lemma begin_waiting (h : Waiting M m) (clock : Nat → Int)
    (hc : Consistent M (.begin key parts sid)) : Waiting M (begin C clock m key parts sid) := by
  change parts = (M key).getD [] at hc
  unfold Acks.begin
  split
  · exact h
  · rename_i hne
    have hM : M key = some parts := by
      cases hm : M key with
      | none =>
        rw [hm] at hc
        exact absurd (by rw [hc]; rfl) hne
      | some l =>
        rw [hm] at hc
        rw [hc]
        rfl
    split
    · exact ((h.but key).set (waits_new hM sid (clock 0))).evict
    · rename_i x hx
      have hw := h key x hx
      have hd : x.declared = parts := Option.some.inj (hw.declared.symm.trans hM)
      subst hd
      exact (h.but key).put ⟨⟨hM, hw.missing⟩, hw.acked⟩

lemma track_waiting (h : Waiting M m) (hM : M key = some parts)
    (sid : Option Text) : Waiting M (track C m key parts sid) := by
  unfold track
  split
  · exact ((h.but key).set (waits_new hM sid 0)).evict
  · exact h

lemma track_lastAck (m : Manager) (key : Key) (parts : List Part) (sid : Option Text) :
    (track C m key parts sid).lastAck = m.lastAck := by
  unfold track
  split <;> rfl

lemma pending_eq (hnone : e.missing = .empty) : e.pending = openParts e := by
  unfold Entry.pending openParts
  rw [hnone]
  simp

def accepted (e : Entry) (parts : List Part) (sid : Option Text) (status : Status)
    (truth : List Part) (since : Int) : Entry :=
  ⟨parts, sid, some status, e.stored ∪ truth, .empty, since, e.timeouts⟩

lemma accept_sound (h : Waiting M m) (clock : Nat → Int) (hM : M key = some parts) :
    Sound M (accept C clock m key status sid parts truth) := by
  have hw := track_waiting (C := C) h hM sid
  unfold accept
  simp only
  generalize track C m key parts sid = m' at hw ⊢
  split
  · exact Sound.nil hw
  · rename_i x hx
    have hf : Fits M key (accepted x parts sid status truth (clock 0)) :=
      ⟨hM, fun p hp => by cases hp⟩
    split
    · exact final_sound ((hw.but key).moved _) hf clock status
    · rename_i hpend
      refine ⟨Waiting.congr ((hw.but key).put ⟨hf, fun _ hopen => ?_⟩) (ack_entries ..), fun a ha => ?_⟩
      · refine hpend (isEmpty_iff.mpr ?_)
        exact (pending_eq (e := accepted x parts sid status truth (clock 0)) rfl).trans hopen
      · rw [ack_acks] at ha
        refine disjoint_sent (disjoint_body fun p hp => ?_) ha
        exact of_decide_eq_true (mem_filter.mp hp).2

lemma accept_acks (clock : Nat → Int)
    {x : Entry} (hx : (track C m key parts sid).entries.get key = some x)
    (hopen : openParts (accepted x parts sid status truth (clock 0)) = []) :
    acksOf (accept C clock m key status sid parts truth).2 =
      sent m (finalAck key (accepted x parts sid status truth (clock 0)) status) (clock 1) := by
  have hlast := track_lastAck (C := C) m key parts sid
  unfold accept
  simp only
  generalize track C m key parts sid = m' at hx hlast ⊢
  rw [hx]
  simp only
  have hpend : (accepted x parts sid status truth (clock 0)).pending.isEmpty = true := by
    rw [pending_eq rfl, hopen]
    rfl
  split
  · exact (final_acks ..).trans (sent_congr hlast ..)
  · rename_i hno
    exact absurd hpend hno

lemma note_quiet (m : Manager) (key : Key) :
    (if key.ns = none then noteRun m key.robot key.run else m).entries = m.entries ∧
      (if key.ns = none then noteRun m key.robot key.run else m).lastAck = m.lastAck := by
  unfold noteRun
  split_ifs <;> exact ⟨rfl, rfl⟩

lemma nodeOk_sound (h : Waiting M m) (clock : Nat → Int)
    {parts : Option (List Part)} (hM : parts = M key) :
    Sound M (nodeOk C clock m key status sid parts truth) := by
  obtain ⟨hentries, -⟩ := note_quiet m key
  unfold nodeOk
  simp only
  generalize (if key.ns = none then noteRun m key.robot key.run else m) = m' at hentries ⊢
  have h' : Waiting M m' := h.congr hentries
  cases parts with
  | none =>
    refine ⟨((h'.but key).erase).congr (ack_entries ..), fun a ha => ?_⟩
    rw [ack_acks] at ha
    exact disjoint_sent (disjoint_body fun p hp => by cases hp) ha
  | some l =>
    cases l with
    | nil =>
      refine ⟨(((h'.but key).erase).congr (ack_entries ..)).congr (complete_quiet ..).1, fun a ha => ?_⟩
      simp only [Step.andThen, acksOf_append, ack_acks, complete_quiet, append_nil] at ha
      exact disjoint_sent (disjoint_body fun p hp => by cases hp) ha
    | cons p ps => exact accept_sound h' clock hM.symm

lemma nodeFailed_sound (h : Waiting M m) (clock : Nat → Int) (reason : Reason) (parts : List Part) (sid : Option Text) :
    Sound M (nodeFailed clock m key reason parts sid) := by
  refine ⟨((h.but key).erase).congr (ack_entries ..), fun a ha => ?_⟩
  unfold nodeFailed at ha
  rw [ack_acks] at ha
  exact disjoint_sent (disjoint_body fun p _ hp => by cases hp) ha

def storedPart (e : Entry) (part : Part) : Entry :=
  { e with stored := e.stored.insert part, missing := e.missing.erase part }

def missingPart (e : Entry) (part : Part) (reason : Reason) : Entry :=
  { e with missing := e.missing.set part reason }

lemma Fits.storedPart (h : Fits M key e) (part : Part) : Fits M key (storedPart e part) := by
  refine ⟨h.declared, fun p hp => ?_⟩
  obtain ⟨r, hr⟩ := mem_keys.mp hp
  change (e.missing.erase part).get p = some r at hr
  rw [get_erase] at hr
  split_ifs at hr with hpart
  obtain ⟨hd, hs⟩ := h.missing p (mem_keys.mpr ⟨r, hr⟩)
  refine ⟨hd, fun hc => ?_⟩
  rcases mem_insert_iff.mp hc with heq | hc
  · exact hpart heq
  · exact hs hc

lemma Fits.missingPart (h : Fits M key e) (hd : part ∈ e.declared)
    (hs : part ∉ e.stored) (reason : Reason) : Fits M key (missingPart e part reason) := by
  refine ⟨h.declared, fun p hp => ?_⟩
  rcases (mem_keys_set e.missing part p reason).mp hp with rfl | hp
  · exact ⟨hd, hs⟩
  · exact h.missing p hp

lemma partStored_sound (h : Waiting M m) (clock : Nat → Int) (part : Part) :
    Sound M (partStored C clock m key part) := by
  unfold partStored
  split
  · exact Sound.nil h
  · rename_i x hx
    have hw := h key x hx
    have hf := hw.toFits.storedPart part
    simp only
    split
    · rename_i hs
      exact Sound.nil ((h.but key).set ⟨hf, fun hne => absurd hs hne⟩)
    · refine evaluate_sound ((h.but key).assigned _) ?_ hf clock _
      rw [get_set, if_pos rfl]
      rfl

lemma alone_sound (h : Waiting M m) (key : Key) (part : Part) (reason : Reason) (resend : Resend)
    (sid : Option Text) (now : Int) : Sound M (Acks.ack m key.robot key.run key.sid .rejected
      (some reason) resend [] [part] (some false) sid key.ns now) := by
  refine ⟨h.congr (ack_entries ..), fun a ha => ?_⟩
  rw [ack_acks] at ha
  exact disjoint_sent (disjoint_body fun p _ hp => by cases hp) ha

lemma partRejected_sound (h : Waiting M m) (clock : Nat → Int) (part : Part) (reason : Reason)
    (sid : Option Text) : Sound M (partRejected C clock m key part reason sid) := by
  have halone := alone_sound h key part reason (if reason.retryable then .parts else .none) sid
    (clock 0)
  unfold partRejected
  simp only
  cases hx : m.entries.get key with
  | none => exact halone
  | some x =>
    have hw := h key x hx
    simp only
    split
    · exact Sound.nil h
    · rename_i hs
      split
      · exact halone
      · split
        · rename_i hd
          refine evaluate_sound ((h.but key).assigned _) ?_ (hw.toFits.missingPart hd hs reason)
            clock _
          rw [get_set, if_pos rfl]
          rfl
        · exact halone

lemma waits_timeout (h : Waits M key e) (hpend : ¬e.pending.isEmpty = true) (timeouts : Nat)
    (since : Int) : Waits M key { e with timeouts, since, missing := .empty } := by
  refine ⟨⟨h.declared, fun p hp => by cases hp⟩, fun _ hopen => hpend ?_⟩
  rw [← pending_eq rfl] at hopen
  exact isEmpty_iff.mpr hopen

lemma Sound.andThen {x : Step} {f : Manager → Manager} (h : Sound M x)
    (hf : Waiting M x.1 → Waiting M (f x.1)) : Sound M (x.andThen fun m => (f m, [])) := by
  refine ⟨hf h.1, fun a ha => h.2 a ?_⟩
  simpa [Step.andThen] using ha

lemma flushEntry_sound (h : Waiting M m) (clock : Nat → Int) (reading : Nat)
    (he : Waits M key e) : Sound M (flushEntry C clock m (key, e) reading) := by
  unfold flushEntry
  simp only
  split
  · split_ifs
    · exact Sound.nil (h.but key).erase
    · exact Sound.nil h
  · split_ifs
    · exact Sound.nil h
    · refine Sound.andThen ?_ fun h' => ?_
      · unfold timeoutAck
        split_ifs
        · exact Sound.nil h
        · refine ⟨h.congr (ack_entries ..), fun a ha => ?_⟩
          rw [ack_acks] at ha
          refine disjoint_sent (disjoint_body fun p hp => ?_) ha
          exact of_decide_eq_true (mem_filter.mp hp).2
      · unfold timeoutEntry
        split_ifs with hdrop
        · exact (h'.but key).erase
        · refine (h'.but key).set (waits_timeout he ?_ _ _)
          exact fun hp => hdrop (by rw [hp]; rfl)

lemma flushEntries_sound (clock : Nat → Int) {items : List (Key × Entry)} (reading : Nat)
    (h : Waiting M m) (hitems : ∀ x ∈ items, Waits M x.1 x.2) :
    Sound M (flushEntries C clock items reading m) := by
  induction items generalizing m reading with
  | nil => exact Sound.nil h
  | cons x rest ih =>
    obtain ⟨hw, ha⟩ := flushEntry_sound (C := C) h clock reading (hitems x (by simp))
    obtain ⟨hw', ha'⟩ := ih (reading + 1) hw fun y hy => hitems y (by simp [hy])
    refine ⟨hw', fun a hmem => ?_⟩
    unfold flushEntries Step.andThen at hmem
    rw [acksOf_append, mem_append] at hmem
    exact hmem.elim (ha a) (ha' a)

lemma flushStates_quiet (now : Int) (m : Manager) : (flushStates C now m).1.entries = m.entries ∧
    acksOf (flushStates C now m).2 = [] := by
  refine ⟨rfl, ?_⟩
  unfold flushStates acksOf maybeState
  rw [filterMap_eq_nil_iff]
  rintro x hx
  obtain ⟨y, -, hy⟩ := mem_flatMap.mp hx
  split_ifs at hy
  · obtain rfl := mem_singleton.mp hy
    rfl
  · cases hy

lemma flush_sound (h : Waiting M m) (clock : Nat → Int) : Sound M (flush C clock m) := by
  obtain ⟨hw, ha⟩ := flushEntries_sound (C := C) clock 1 h fun x hx =>
    h x.1 x.2 (mem_items.mp hx)
  refine ⟨hw.congr (flushStates_quiet ..).1, fun a hmem => ?_⟩
  unfold flush Step.andThen at hmem
  rw [acksOf_append, (flushStates_quiet ..).2, append_nil] at hmem
  exact ha a hmem

lemma seedState_entries (m : Manager) (robot : Text) (run : Run) (highest : Option Int) :
    (seedState m robot run highest).entries = m.entries := by
  unfold seedState
  split
  · rfl
  · split_ifs
    · rfl
    · split
      · rfl
      · split_ifs <;> rfl

theorem apply_sound (h : Waiting M m) (clock : Nat → Int) {ev : Event} (hc : Consistent M ev) :
    Sound M (ev.apply C clock m) := by
  cases ev with
  | begin k parts sid => exact Sound.nil (begin_waiting h clock hc)
  | nodeOk k status sid parts truth => exact nodeOk_sound h clock hc
  | nodeFailed k reason parts sid => exact nodeFailed_sound h clock reason parts sid
  | nodeAbandoned k parts sid =>
    change Sound M (nodeAbandoned clock m k parts sid)
    unfold nodeAbandoned
    split
    · split_ifs
      · exact nodeFailed_sound h clock _ parts sid
      · exact Sound.nil h
    · exact Sound.nil h
  | partStored k p => exact partStored_sound h clock p
  | partRejected k p reason sid => exact partRejected_sound h clock p reason sid
  | flush => exact flush_sound h clock
  | seedState robot run highest => exact Sound.nil (h.congr (seedState_entries ..))

lemma reached_waiting (h : Reached C M m) : Waiting M m := by
  induction h with
  | init => exact fun k e he => by cases he
  | step _ clock hc ih => exact (apply_sound ih clock hc).1

lemma track_congr (h : m'.entries = m.entries) (parts : List Part)
    (sid : Option Text) : (track C m' key parts sid).entries = (track C m key parts sid).entries := by
  unfold track
  rw [h]
  split <;> simp [evict, h]

lemma accepted_acks (clock : Nat → Int) (hM : some (p :: ps) = M key)
    (ht : told C m key (.nodeOk key st sid (some (p :: ps)) truth) = some e)
    (hs : e.status = some status) (hopen : openParts e = []) :
    ∃ a, Ends key e a ∧ acksOf (nodeOk C clock m key st sid (some (p :: ps)) truth).2 = sent m a (clock 1) := by
  dsimp only [told] at ht
  rw [if_pos rfl, Option.map_eq_some_iff] at ht
  obtain ⟨x, hx, rfl⟩ := ht
  obtain rfl := Option.some.inj hs
  refine ⟨_, Fits.ends ⟨hM.symm, fun q hq => by cases hq⟩ hopen st, ?_⟩
  obtain ⟨hentries, hlast⟩ := note_quiet m key
  unfold nodeOk
  simp only
  generalize (if key.ns = none then noteRun m key.robot key.run else m) = m' at hentries hlast ⊢
  rw [← track_congr hentries] at hx
  exact (accept_acks clock hx hopen).trans (sent_congr hlast ..)

lemma stored_acks (h : Waiting M m) (clock : Nat → Int)
    (ht : told C m key (.partStored key part) = some e) (hs : e.status = some status)
    (hopen : openParts e = []) :
    ∃ a, Ends key e a ∧ acksOf (partStored C clock m key part).2 = sent m a (clock 1) := by
  dsimp only [told] at ht
  rw [if_pos rfl, Option.map_eq_some_iff] at ht
  obtain ⟨x, hx, rfl⟩ := ht
  refine ⟨_, ((h key x hx).toFits.storedPart part).ends hopen status, ?_⟩
  change x.status = some status at hs
  unfold partStored
  rw [hx]
  simp only
  split
  · rename_i hn
    rw [hs] at hn
    cases hn
  · rename_i st hst
    cases hs.symm.trans hst
    exact (evaluate_acks hopen clock status).trans (sent_congr rfl ..)

lemma missing_acks (h : Waiting M m) (clock : Nat → Int) {reason : Reason}
    (ht : told C m key (.partRejected key part reason sid) = some e)
    (hs : e.status = some status) (hopen : openParts e = []) :
    ∃ a, Ends key e a ∧ acksOf (partRejected C clock m key part reason sid).2 = sent m a (clock 1) := by
  dsimp only [told] at ht
  rw [if_pos rfl, Option.map_eq_some_iff] at ht
  obtain ⟨x, hx, he⟩ := ht
  have hw := h key x hx
  split at he
  · rename_i hcond
    obtain ⟨-, hd, hst⟩ := hcond
    subst he
    refine ⟨_, (hw.toFits.missingPart hd hst reason).ends hopen status, ?_⟩
    change x.status = some status at hs
    unfold partRejected
    rw [hx]
    simp only [if_neg hst, if_pos hd]
    split
    · rename_i hn
      rw [hs] at hn
      cases hn
    · rename_i st hstatus
      cases hs.symm.trans hstatus
      exact (evaluate_acks hopen clock status).trans (sent_congr rfl ..)
  · subst he
    exact absurd hopen (hw.acked (by rw [hs]; simp))

lemma told_acks (h : Waiting M m) (clock : Nat → Int) {ev : Event} (hc : Consistent M ev)
    (ht : told C m key ev = some e) (hs : e.status = some status)
    (hopen : openParts e = []) :
    ∃ a, Ends key e a ∧ acksOf (ev.apply C clock m).2 = sent m a (clock 1) := by
  have hquiet : m.entries.get key ≠ some e := fun hx =>
    (h key e hx).acked (by rw [hs]; simp) hopen
  cases ev with
  | nodeOk k st sid parts truth =>
    match parts with
    | none => exact absurd ht hquiet
    | some [] => exact absurd ht hquiet
    | some (p :: ps) =>
      by_cases hk : k = key
      · subst hk
        exact accepted_acks clock hc ht hs hopen
      · dsimp only [told] at ht
        rw [if_neg hk] at ht
        exact absurd ht hquiet
  | partStored k part =>
    by_cases hk : k = key
    · subst hk
      exact stored_acks h clock ht hs hopen
    · dsimp only [told] at ht
      rw [if_neg hk] at ht
      exact absurd ht hquiet
  | partRejected k part reason sid =>
    by_cases hk : k = key
    · subst hk
      exact missing_acks h clock ht hs hopen
    · dsimp only [told] at ht
      rw [if_neg hk] at ht
      exact absurd ht hquiet
  | _ => exact absurd ht hquiet

/-- A tracked bundle is never stuck: an acked one has an open part, and the event that leaves it
none sends its final ack, for a robot that has a topic. -/
theorem bundle_ends (h : Reached C M m) :
    (∀ key e, m.entries.get key = some e → e.status ≠ none →
      ∃ p ∈ e.declared, p ∉ e.stored ∧ p ∉ e.missing.keys) ∧
    ∀ clock ev, Consistent M ev →
      (∀ a ∈ acksOf (ev.apply C clock m).2, ∀ p ∈ a.stored, p ∉ a.missing) ∧
      ∀ key e, told C m key ev = some e → e.status ≠ none →
        (∀ p ∈ e.declared, p ∈ e.stored ∨ p ∈ e.missing.keys) →
        validTopicLevel key.robot = true → ∃ a, Ends key e a ∧
          (acksOf (ev.apply C clock m).2 = [a] ∨
            acksOf (ev.apply C clock m).2 = [] ∧ coalesced m a (clock 1) = true) := by
  have hw := reached_waiting h
  refine ⟨fun key e he hs => ?_, fun clock ev hc =>
    ⟨(apply_sound hw clock hc).2, fun key e ht hs hall hv => ?_⟩⟩
  · obtain ⟨p, hp⟩ := exists_mem_of_ne_nil _ ((hw key e he).acked hs)
    exact ⟨p, mem_openParts.mp hp⟩
  · obtain ⟨status, hs⟩ := Option.ne_none_iff_exists'.mp hs
    have hopen : openParts e = [] := by
      refine eq_nil_iff_forall_not_mem.mpr fun p hp => ?_
      obtain ⟨hd, hn, hm⟩ := mem_openParts.mp hp
      exact (hall p hd).elim hn hm
    obtain ⟨a, ha, hsent⟩ := told_acks hw clock hc ht hs hopen
    have hrobot : a.robot = key.robot := congrArg Key.robot ha.key
    rw [hsent]
    exact ⟨a, ha, sent_eq m a (clock 1) (hrobot ▸ hv)⟩

end

def cam : Part := ⟨.image, ['c']⟩

def settings : Config := ⟨120, 20, 1⟩
def upload (robot : Text) : Key := ⟨robot, none, .int 1, none⟩
def received (robot : Text) : Event := .nodeOk (upload robot) .accepted none (some [cam]) []
def waiting (robot : Text) : Manager := ((received robot).apply settings (fun _ => 0) .init).1
def whole : Entry := ⟨[cam], none, some .accepted, [cam], .empty, 0, 0⟩

lemma reached_one (robot : Text) : Reached settings (fun _ => some [cam]) (waiting robot) :=
  .step .init (fun _ => 0) rfl

theorem bundle_ends_one : (waiting ['r']).entries.get (upload ['r']) ≠ none ∧
    ∃ a, Ends (upload ['r']) whole a ∧
      (acksOf ((Event.partStored (upload ['r']) cam).apply settings (fun _ => 5)
        (waiting ['r'])).2 = [a] ∨
      acksOf ((Event.partStored (upload ['r']) cam).apply settings (fun _ => 5)
        (waiting ['r'])).2 = [] ∧ coalesced (waiting ['r']) a 5 = true) := by
  refine ⟨by decide, ((bundle_ends (reached_one ['r'])).2 (fun _ => 5)
    (.partStored (upload ['r']) cam) trivial).2 (upload ['r']) whole ?_ ?_ ?_ ?_⟩
  · decide
  · decide
  · decide
  · decide

/-- A robot whose name is no topic level is told nothing. -/
theorem slash_robot_untold : ¬∀ (C : Config) (M : Key → Option (List Part)) (m : Manager),
    Reached C M m → ∀ clock ev, Consistent M ev → ∀ key e, told C m key ev = some e →
      e.status ≠ none → (∀ p ∈ e.declared, p ∈ e.stored ∨ p ∈ e.missing.keys) → ∃ a,
        Ends key e a ∧ (acksOf (ev.apply C clock m).2 = [a] ∨
          acksOf (ev.apply C clock m).2 = [] ∧ coalesced m a (clock 1) = true) := by
  intro h
  have hnone : acksOf ((Event.partStored (upload ['/']) cam).apply settings (fun _ => 5)
      (waiting ['/'])).2 = [] := by decide
  obtain ⟨a, -, ha⟩ := h settings _ (waiting ['/']) (reached_one ['/']) (fun _ => 5)
    (.partStored (upload ['/']) cam) trivial (upload ['/']) whole (by decide) (by decide)
    (by decide)
  rcases ha with ha | ⟨-, ha⟩
  · rw [hnone] at ha
    cases ha
  · cases ha

end CloudServer.AckFinal
