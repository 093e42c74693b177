import CloudServer.Acks

/-! What an ack says was said before by a handler: of its node, of each part it lists as stored
and of its manifest. -/
namespace CloudServer.Acks

open List
open Scan (Text)

structure Backing where
  node : Key → Option Text → Prop
  part : Key → Option Text → Part → Prop
  manifest : Key → List Part → Prop

structure Tracks (B : Backing) (key : Key) (e : Entry) : Prop where
  node : e.status ≠ none → B.node key e.sessionId
  part : ∀ p ∈ e.stored, B.part key e.sessionId p
  manifest : B.manifest key e.declared

def Backed (B : Backing) (m : Manager) : Prop :=
  ∀ key e, m.entries.get key = some e → Tracks B key e

structure Tells (B : Backing) (a : Ack) : Prop where
  node : a.status ≠ .rejected → B.node a.key a.sessionId
  complete : a.complete = some true → B.node a.key a.sessionId ∧ ∃ declared,
    (declared = [] ∨ B.manifest a.key declared) ∧ a.stored = partDicts declared ∧
      ∀ p ∈ declared, B.part a.key a.sessionId p

def Honest (B : Backing) (x : Step) : Prop :=
  Backed B x.1 ∧ ∀ a, Message.ack a ∈ x.2 → Tells B a

/-- What the event says of a key is so, for the session it names also of what the tracker
of the key knows. -/
def Says (B : Backing) (m : Manager) : Event → Prop
  | .begin k parts sid => B.manifest k parts ∧ ∀ e, m.entries.get k = some e → Tracks B k e →
    (e.status ≠ none → B.node k sid) ∧ ∀ p ∈ e.stored, B.part k sid p
  | .nodeOk k _ sid parts truth => B.node k sid ∧ (∀ l, parts = some l → B.manifest k l) ∧
    (∀ p ∈ truth, B.part k sid p) ∧ ∀ e, m.entries.get k = some e → Tracks B k e →
      ∀ p ∈ e.stored, B.part k sid p
  | .partStored k p => ∀ e, m.entries.get k = some e → B.part k e.sessionId p
  | _ => True

structure Backing.Le (B B' : Backing) : Prop where
  node : ∀ k sid, B.node k sid → B'.node k sid
  part : ∀ k sid p, B.part k sid p → B'.part k sid p
  manifest : ∀ k l, B.manifest k l → B'.manifest k l

section
variable {B B' : Backing} {m : Manager} {cfg : Config} {key : Key} {e : Entry}

lemma Backed.le (h : Backed B m) (hle : B.Le B') : Backed B' m := by
  intro k x hx
  have ht := h k x hx
  exact ⟨fun hs => hle.node _ _ (ht.node hs), fun p hp => hle.part _ _ p (ht.part p hp), hle.manifest _ _ ht.manifest⟩

variable {a : Ack} {sid : Option Text} {parts truth : List Part}

lemma Tells.le (h : Tells B a) (hle : B.Le B') : Tells B' a := by
  refine ⟨fun hs => hle.node _ _ (h.node hs), fun hc => ?_⟩
  obtain ⟨hn, declared, hd, hs, hp⟩ := h.complete hc
  exact ⟨hle.node _ _ hn, declared, hd.imp_right (hle.manifest _ _), hs, fun p hpp => hle.part _ _ p (hp p hpp)⟩

lemma Backed.congr {m' : Manager} (h : Backed B m) (he : m'.entries = m.entries) :
    Backed B m' := by
  intro k x hx
  rw [he] at hx
  exact h k x hx

lemma Backed.acked (h : Backed B m) (lastAck : Dict Key (Ack × Int)) : Backed B { m with lastAck } := h

lemma Backed.erase (h : Backed B m) (key : Key) :
    Backed B { m with entries := m.entries.erase key } := by
  intro k x hx
  rw [Dict.get_erase] at hx
  split_ifs at hx
  exact h k x hx

lemma Backed.set (h : Backed B m) (he : Tracks B key e) :
    Backed B { m with entries := m.entries.set key e } := by
  intro k x hx
  rw [Dict.get_set] at hx
  split_ifs at hx with hk
  · cases hx
    exact hk ▸ he
  · exact h k x hx

lemma Backed.put (h : Backed B m) (he : Tracks B key e) :
    Backed B { m with entries := m.entries.put key e } := by
  intro k x hx
  rw [Dict.get_put] at hx
  split_ifs at hx with hk
  · cases hx
    exact hk ▸ he
  · exact h k x hx

lemma Backed.evict (h : Backed B m) : Backed B (evict cfg m) :=
  fun k x hx => h k x (Dict.get_newest hx)

lemma honest_nil (h : Backed B m) : Honest B (m, []) := ⟨h, fun a ha => by cases ha⟩

lemma Honest.andThen {x : Step} {f : Manager → Step} (h : Honest B x)
    (hf : ∀ m, Backed B m → Honest B (f m)) : Honest B (x.andThen f) := by
  obtain ⟨hb, hm⟩ := hf x.1 h.1
  refine ⟨hb, fun a ha => ?_⟩
  rcases mem_append.mp ha with ha | ha
  · exact h.2 a ha
  · exact hm a ha

variable {status : Status}

lemma ack_honest (h : Backed B m) {reason : Option Reason} {resend : Resend}
    {stored missing : List Part} {complete : Option Bool} {sessionId : Option Text} {now : Int}
    (ht : Tells B ⟨key.robot, key.run, key.sid, status, reason, resend, partDicts stored,
      partDicts missing, complete, sessionId, key.ns⟩) :
    Honest B (ack m key.robot key.run key.sid status reason resend stored missing complete sessionId key.ns now) := by
  unfold Acks.ack
  split
  · simp only
    split
    · exact honest_nil h
    · refine ⟨h.acked _, fun a ha => ?_⟩
      rw [mem_singleton, Message.ack.injEq] at ha
      rw [ha]
      exact ht
  · exact honest_nil h

lemma tells_rejected (hs : a.status = .rejected) (hc : a.complete ≠ some true) :
    Tells B a := ⟨fun h => absurd hs h, fun h => absurd h hc⟩

lemma tells_node (hn : B.node a.key a.sessionId) (hc : a.complete ≠ some true) :
    Tells B a := ⟨fun _ => hn, fun h => absurd h hc⟩

lemma complete_honest (h : Backed B m) (robot : Text) (run : Run) (sid : Sid) (ns : Option Text)
    (now : Int) : Honest B (complete cfg m robot run sid ns now) := by
  have hraise : ∀ m' st, m'.entries = m.entries → Honest B (raise cfg m' robot st now) := by
    intro m' st he
    refine ⟨h.congr he, fun a ha => ?_⟩
    unfold Acks.raise maybeState at ha
    split_ifs at ha
    · simp at ha
    · simp at ha
  unfold Acks.complete
  split
  · split_ifs
    · exact honest_nil h
    · split
      · exact hraise _ _ rfl
      · split_ifs
        · exact hraise _ _ rfl
        · exact hraise _ _ rfl
        · exact honest_nil h
  · exact honest_nil h

lemma final_honest (h : Backed B m) (clock : Nat → Int) (he : Tracks B key e) (hs : e.status = some status)
    (hall : e.missing.items.isEmpty → ∀ p ∈ e.declared, p ∈ e.stored) :
    Honest B (final cfg clock m key e status) := by
  have hn : B.node key e.sessionId := he.node (by rw [hs]; simp)
  unfold final
  split
  · rename_i hmissing
    refine Honest.andThen (Honest.andThen (ack_honest h ⟨fun _ => hn, fun _ => ⟨hn, ?_⟩⟩) ?_) ?_
    · exact ⟨e.declared, .inr he.manifest, rfl, fun p hp => he.part p (hall hmissing p hp)⟩
    · exact fun m' h' => honest_nil (h'.erase key)
    · exact fun m' h' => complete_honest h' ..
  · split
    · refine Honest.andThen (ack_honest h (tells_rejected rfl (by simp))) ?_
      exact fun m' h' => honest_nil (h'.erase key)
    · refine Honest.andThen (ack_honest h (tells_node hn (by simp))) ?_
      exact fun m' h' => honest_nil (h'.set ⟨he.node, he.part, he.manifest⟩)

lemma evaluate_honest (h : Backed B m) (clock : Nat → Int) (he : Tracks B key e)
    (hs : e.status = some status) : Honest B (evaluate cfg clock m key e status) := by
  unfold evaluate
  split
  · exact honest_nil h
  · rename_i hany
    refine final_honest h clock he hs fun hmissing p hp => ?_
    have hkeys : e.missing.keys = [] := by
      unfold Dict.keys
      rw [isEmpty_iff.mp hmissing]
      rfl
    simp only [any_eq_true, Bool.and_eq_true, decide_eq_true_eq, not_exists, not_and] at hany
    by_contra hno
    exact hany p hp hno (by rw [hkeys]; simp)

lemma begin_honest (h : Backed B m) (clock : Nat → Int)
    (hs : Says B m (.begin key parts sid)) : Backed B (begin cfg clock m key parts sid) := by
  unfold Acks.begin
  split
  · exact h
  · split
    · exact (h.set ⟨fun hn => absurd rfl hn, fun p hp => (by cases hp), hs.1⟩).evict
    · rename_i x hx
      obtain ⟨hnode, hpart⟩ := hs.2 x hx (h key x hx)
      exact h.put ⟨hnode, hpart, hs.1⟩

lemma accept_honest (h : Backed B m) (clock : Nat → Int)
    (hnode : B.node key sid) (hman : B.manifest key parts)
    (htruth : ∀ p ∈ truth, B.part key sid p)
    (hold : ∀ e, m.entries.get key = some e → ∀ p ∈ e.stored, B.part key sid p) :
    Honest B (accept cfg clock m key status sid parts truth) := by
  have htrack : Backed B (track cfg m key parts sid) ∧ ∀ e,
      (track cfg m key parts sid).entries.get key = some e → ∀ p ∈ e.stored, B.part key sid p := by
    unfold track
    split
    · refine ⟨(h.set ⟨fun hn => absurd rfl hn, fun p hp => (by cases hp), hman⟩).evict, fun x hx => ?_⟩
      have hx' : (m.entries.set key (.new parts sid 0)).get key = some x := Dict.get_newest hx
      rw [Dict.get_set, if_pos rfl] at hx'
      cases hx'
      exact fun p hp => by cases hp
    · exact ⟨h, hold⟩
  obtain ⟨hb, hst⟩ := htrack
  unfold accept
  simp only
  generalize track cfg m key parts sid = m' at hb hst ⊢
  split
  · exact honest_nil hb
  · rename_i x hx
    have hx' : Tracks B key ⟨parts, sid, some status, x.stored ∪ truth, .empty, clock 0,
        x.timeouts⟩ := by
      refine ⟨fun _ => hnode, fun p hp => ?_, hman⟩
      rcases mem_union_iff.mp hp with hp | hp
      · exact hst x hx p hp
      · exact htruth p hp
    split
    · rename_i hpend
      refine final_honest (hb.put hx') clock hx' rfl fun _ p hp => ?_
      by_contra hno
      exact absurd (isEmpty_iff.mp hpend) (ne_nil_of_mem (mem_filter.mpr ⟨hp, decide_eq_true hno⟩))
    · exact ack_honest (hb.put hx') (tells_node hnode (by simp))

lemma nodeOk_honest (h : Backed B m) (clock : Nat → Int) {parts : Option (List Part)}
    (hs : Says B m (.nodeOk key status sid parts truth)) :
    Honest B (nodeOk cfg clock m key status sid parts truth) := by
  obtain ⟨hnode, hman, htruth, hold⟩ := hs
  have hnote : (if key.ns = none then noteRun m key.robot key.run else m).entries = m.entries := by
    unfold noteRun
    split_ifs <;> rfl
  unfold nodeOk
  simp only
  generalize (if key.ns = none then noteRun m key.robot key.run else m) = m' at hnote ⊢
  have h' : Backed B m' := h.congr hnote
  cases parts with
  | none => exact ack_honest (h'.erase key) (tells_node hnode (by simp))
  | some l =>
    cases l with
    | nil =>
      refine Honest.andThen (ack_honest (h'.erase key) ⟨fun _ => hnode, fun _ => ⟨hnode, [], ?_⟩⟩)
        fun m2 h2 => complete_honest h2 ..
      exact ⟨.inl rfl, rfl, fun p hp => by cases hp⟩
    | cons p ps =>
      refine accept_honest h' clock hnode (hman _ rfl) htruth fun e he => ?_
      rw [hnote] at he
      exact hold e he (h key e he)

lemma nodeFailed_honest (h : Backed B m) (clock : Nat → Int) (reason : Reason) (parts : List Part) (sid : Option Text) :
    Honest B (nodeFailed clock m key reason parts sid) :=
  ack_honest (h.erase key) (tells_rejected rfl (by simp))

lemma partStored_honest (h : Backed B m) (clock : Nat → Int) {part : Part}
    (hs : Says B m (.partStored key part)) : Honest B (partStored cfg clock m key part) := by
  unfold partStored
  split
  · exact honest_nil h
  · rename_i x hx
    have ht := h key x hx
    have hx' : Tracks B key ⟨x.declared, x.sessionId, x.status, x.stored.insert part,
        x.missing.erase part, x.since, x.timeouts⟩ := by
      refine ⟨ht.node, fun p hp => ?_, ht.manifest⟩
      rcases mem_insert_iff.mp hp with rfl | hp
      · exact hs x hx
      · exact ht.part p hp
    simp only
    split
    · exact honest_nil (h.set hx')
    · rename_i status hst
      exact evaluate_honest (h.set hx') clock hx' hst

lemma partRejected_honest (h : Backed B m) (clock : Nat → Int) (part : Part) (reason : Reason)
    (sid : Option Text) : Honest B (partRejected cfg clock m key part reason sid) := by
  have halone : Honest B (ack m key.robot key.run key.sid .rejected (some reason)
      (if reason.retryable then .parts else .none) [] [part] (some false) sid key.ns (clock 0)) :=
    ack_honest h (tells_rejected rfl (by simp))
  unfold partRejected
  simp only
  generalize ack m key.robot key.run key.sid .rejected _ _ [] [part] _ sid key.ns _ = alone
    at halone ⊢
  cases hx : m.entries.get key with
  | none => exact halone
  | some x =>
    have ht := h key x hx
    simp only
    split
    · exact honest_nil h
    · split
      · exact halone
      · rename_i status hst
        split
        · have hx' : Tracks B key { x with missing := x.missing.set part reason } :=
            ⟨ht.node, ht.part, ht.manifest⟩
          exact evaluate_honest (h.set hx') clock hx' hst
        · exact halone

lemma flushEntry_honest (h : Backed B m) (clock : Nat → Int) (reading : Nat)
    (he : Tracks B key e) : Honest B (flushEntry cfg clock m (key, e) reading) := by
  unfold flushEntry
  simp only
  split
  · split_ifs
    · exact honest_nil (h.erase key)
    · exact honest_nil h
  · rename_i status hst
    split_ifs
    · exact honest_nil h
    · have hn : B.node key e.sessionId := he.node (by rw [hst]; simp)
      refine Honest.andThen ?_ fun m' h' => honest_nil ?_
      · unfold timeoutAck
        split_ifs
        · exact honest_nil h
        · exact ack_honest h (tells_node hn (by simp))
      · unfold timeoutEntry
        split_ifs
        · exact h'.erase key
        · exact h'.set ⟨he.node, he.part, he.manifest⟩

lemma flushEntries_honest (clock : Nat → Int) {items : List (Key × Entry)} (reading : Nat)
    (h : Backed B m) (hitems : ∀ x ∈ items, Tracks B x.1 x.2) :
    Honest B (flushEntries cfg clock items reading m) := by
  induction items generalizing m reading with
  | nil => exact honest_nil h
  | cons x rest ih =>
    refine Honest.andThen (flushEntry_honest h clock reading (hitems x (by simp))) fun m' h' => ?_
    exact ih (reading + 1) h' fun y hy => hitems y (by simp [hy])

lemma flush_honest (h : Backed B m) (clock : Nat → Int) : Honest B (flush cfg clock m) := by
  refine Honest.andThen (flushEntries_honest clock 1 h fun x hx => ?_) fun m' h' => ?_
  · exact h x.1 x.2 (Dict.mem_items.mp hx)
  · refine ⟨h'.congr rfl, fun a ha => ?_⟩
    obtain ⟨x, -, hx⟩ := mem_flatMap.mp ha
    unfold maybeState at hx
    split_ifs at hx
    · simp at hx
    · simp at hx

theorem apply_honest (h : Backed B m) (clock : Nat → Int) {ev : Event} (hs : Says B m ev) :
    Honest B (ev.apply cfg clock m) := by
  cases ev with
  | begin k parts sid => exact honest_nil (begin_honest h clock hs)
  | nodeOk k status sid parts truth => exact nodeOk_honest h clock hs
  | nodeFailed k reason parts sid => exact nodeFailed_honest h clock reason parts sid
  | nodeAbandoned k parts sid =>
    change Honest B (nodeAbandoned clock m k parts sid)
    unfold nodeAbandoned
    split
    · split_ifs
      · exact nodeFailed_honest h clock _ parts sid
      · exact honest_nil h
    · exact honest_nil h
  | partStored k p => exact partStored_honest h clock hs
  | partRejected k p reason sid => exact partRejected_honest h clock p reason sid
  | flush => exact flush_honest h clock
  | seedState robot run highest =>
    refine honest_nil (h.congr ?_)
    unfold seedState
    split
    · rfl
    · split_ifs
      · rfl
      · split
        · rfl
        · split_ifs <;> rfl

end
end CloudServer.Acks
