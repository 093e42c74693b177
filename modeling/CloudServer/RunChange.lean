import Mathlib

/-! Detecting that a robot's client process was restarted, from the numbers of its `connection` and
`state` messages. -/
namespace CloudServer.RunChange

section Model

inductive ConnectionState
  | ONLINE
  | OFFLINE
  | CONNECTIONBROKEN
  deriving DecidableEq

inductive Evidence
  | connection_online (connection_header_id last_connection_header_id : ℤ)
  | state_header_reset (state_header_id last_state_header_id : ℤ)
  deriving DecidableEq

structure RunChangeDetector where
  last_online_header : Option ℤ
  last_state_header : Option ℤ
  pending_state_drop : Option (ℤ × ℤ)
  deriving DecidableEq

def RunChangeDetector.new : RunChangeDetector := ⟨none, none, none⟩

/-- A header id is none when `int()` refuses it. -/
def on_connection (D : RunChangeDetector) (state : ConnectionState) (header_id : Option ℤ)
    (retained : Bool) : RunChangeDetector × Option Evidence :=
  if state ≠ .ONLINE then (D, none)
  else
    match header_id with
    | none => (D, none)
    | some hid =>
      match D.last_online_header with
      | none => ({ D with last_online_header := some hid }, none)
      | some last =>
        if hid > last ∨ (retained = true ∧ hid = last) then
          ({ D with last_online_header := some hid }, none)
        else (⟨some hid, none, none⟩, some (.connection_online hid last))

def on_state (D : RunChangeDetector) (header_id : Option ℤ) : RunChangeDetector × Option Evidence :=
  match header_id with
  | none => (D, none)
  | some hid =>
    match D.pending_state_drop with
    | some (first, old_last) =>
      if hid < old_last then (⟨none, some hid, none⟩, some (.state_header_reset first old_last))
      else (⟨D.last_online_header, some (max old_last hid), none⟩, none)
    | none =>
      match D.last_state_header with
      | none => ({ D with last_state_header := some hid }, none)
      | some last =>
        if hid ≥ last then ({ D with last_state_header := some hid }, none)
        else (⟨D.last_online_header, some last, some (hid, last)⟩, none)

/-! ### What a client's processes send -/

/-- A message of a client process as it is delivered: an ONLINE with its number, live or from the
broker's retained store; an OFFLINE or a last will; a state with its number, for the first time or
again. -/
inductive Delivery
  | online (n : ℕ) (retained : Bool)
  | closed (state : ConnectionState) (header_id : Option ℤ) (retained : Bool)
  | state (n : ℕ) (redelivered : Bool)
  deriving DecidableEq

def feed (D : RunChangeDetector) : Delivery → RunChangeDetector × Option Evidence
  | .online n retained => on_connection D .ONLINE (some n) retained
  | .closed state header_id retained => on_connection D state header_id retained
  | .state n _ => on_state D (some n)

def after (D : RunChangeDetector) (deliveries : List Delivery) : RunChangeDetector :=
  deliveries.foldl (fun D d => (feed D d).1) D

def evidence (D : RunChangeDetector) : List Delivery → List Evidence
  | [] => []
  | d :: rest => (feed D d).2.toList ++ evidence (feed D d).1 rest

/-- Of a process: the last ONLINE and the newest state delivered, and whether the last state was
delivered again. -/
structure Track where
  online : Option ℕ
  newest : Option ℕ
  again : Bool

def Track.next (t : Track) : Delivery → Track
  | .online n _ => { t with online := some n }
  | .closed _ _ _ => t
  | .state n redelivered => { t with newest := some (max n (t.newest.getD n)), again := redelivered }

/-- A process numbers its ONLINEs from 1 and its states from 0, and any may be lost; a retained
ONLINE may repeat the last one, an older state may come again, followed by a newer one. -/
def Track.Sends (t : Track) : Delivery → Prop
  | .online n retained => 1 ≤ n ∧ ∀ m, t.online = some m → if retained then m ≤ n else m < n
  | .closed state _ _ => state ≠ .ONLINE
  | .state n false => ∀ m, t.newest = some m → m < n
  | .state n true => t.again = false ∧ ∃ m, t.newest = some m ∧ n ≤ m

def Track.Delivers (t : Track) : List Delivery → Prop
  | [] => t.again = false
  | d :: rest => t.Sends d ∧ (t.next d).Delivers rest

structure Process where
  deliveries : List Delivery
  valid : Track.Delivers ⟨none, none, false⟩ deliveries

def states (deliveries : List Delivery) : List ℕ :=
  deliveries.filterMap fun d => match d with
    | .state n _ => some n
    | _ => none

/-- Two values in a row are below `last`. -/
def TwoBelow (last : ℕ) : List ℕ → Prop
  | x :: y :: rest => (x < last ∧ y < last) ∨ TwoBelow last (y :: rest)
  | _ => False

end Model

/-! ### One signal at most -/

structure Own (D : RunChangeDetector) (t : Track) : Prop where
  online : ∀ v, D.last_online_header = some v → ∃ m : ℕ, t.online = some m ∧ v = m
  states : ∀ v, D.last_state_header = some v → ∃ m : ℕ, t.newest = some m ∧ v ≤ m
  drop : ∀ x v, D.pending_state_drop = some (x, v) → t.again = true ∧
    ∃ m : ℕ, t.newest = some m ∧ v ≤ m

variable {D : RunChangeDetector} {t : Track} {d : Delivery}

lemma le_next (t : Track) (n : ℕ) (redelivered : Bool) :
    ∃ m, (t.next (.state n redelivered)).newest = some m ∧ n ≤ m ∧ ∀ k, t.newest = some k → k ≤ m := by
  refine ⟨max n (t.newest.getD n), rfl, le_max_left _ _, fun k hk => ?_⟩
  rw [hk]
  exact le_max_right _ _

lemma on_state_cases (D : RunChangeDetector) (hid : ℤ) :
    (∃ first old_last, D.pending_state_drop = some (first, old_last) ∧ hid < old_last ∧
      on_state D (some hid) = (⟨none, some hid, none⟩, some (.state_header_reset first old_last))) ∨
    (∃ first old_last, D.pending_state_drop = some (first, old_last) ∧ old_last ≤ hid ∧
      on_state D (some hid) = (⟨D.last_online_header, some (max old_last hid), none⟩, none)) ∨
    (D.pending_state_drop = none ∧ (∀ last, D.last_state_header = some last → last ≤ hid) ∧
      on_state D (some hid) = ({ D with last_state_header := some hid }, none)) ∨
    ∃ last, D.pending_state_drop = none ∧ D.last_state_header = some last ∧ hid < last ∧
      on_state D (some hid) = (⟨D.last_online_header, some last, some (hid, last)⟩, none) := by
  obtain ⟨online, last, drop⟩ := D
  cases drop with
  | some drop =>
    obtain ⟨first, old_last⟩ := drop
    by_cases hlt : hid < old_last
    · exact .inl ⟨first, old_last, rfl, hlt, by simp [on_state, hlt]⟩
    · exact .inr (.inl ⟨first, old_last, rfl, not_lt.mp hlt, by simp [on_state, hlt]⟩)
  | none =>
    cases last with
    | none => exact .inr (.inr (.inl ⟨rfl, nofun, rfl⟩))
    | some last =>
      by_cases hge : last ≤ hid
      · refine .inr (.inr (.inl ⟨rfl, fun v hv => ?_, by simp [on_state, hge]⟩))
        rw [← Option.some.inj hv]
        exact hge
      · exact .inr (.inr (.inr ⟨last, rfl, rfl, not_le.mp hge, by simp [on_state, hge]⟩))

lemma on_online_cases (D : RunChangeDetector) (hid : ℤ) (retained : Bool) :
    (∃ last, D.last_online_header = some last ∧ hid ≤ last ∧ (retained = true → hid ≠ last) ∧
      on_connection D .ONLINE (some hid) retained = (⟨some hid, none, none⟩, some (.connection_online hid last))) ∨
    on_connection D .ONLINE (some hid) retained = ({ D with last_online_header := some hid }, none) := by
  obtain ⟨online, last, drop⟩ := D
  cases online with
  | none => exact .inr rfl
  | some online =>
    by_cases hgo : hid > online ∨ (retained = true ∧ hid = online)
    · exact .inr (by simp [on_connection, hgo])
    · refine .inl ⟨online, rfl, not_lt.mp fun h => hgo (.inl h), fun hr heq => hgo (.inr ⟨hr, heq⟩), ?_⟩
      simp [on_connection, hgo]

lemma on_closed {state : ConnectionState} (h : state ≠ .ONLINE) (D : RunChangeDetector)
    (header_id : Option ℤ) (retained : Bool) : on_connection D state header_id retained = (D, none) :=
  if_pos h

lemma own_step (h : Own D t) (hd : t.Sends d) :
    (feed D d).2 = none ∧ Own (feed D d).1 (t.next d) := by
  cases d with
  | online n retained =>
    obtain ⟨-, hnew⟩ := hd
    rcases on_online_cases D n retained with ⟨last, hlast, hle, hne, -⟩ | heq
    · obtain ⟨m, hm, rfl⟩ := h.online last hlast
      have hnm := hnew m hm
      cases retained with
      | true =>
        have := hne rfl
        simp only [if_true] at hnm
        omega
      | false =>
        simp only [Bool.false_eq_true, if_false] at hnm
        omega
    · simp only [feed, heq]
      refine ⟨trivial, fun v hv => ⟨n, rfl, ?_⟩, h.states, h.drop⟩
      exact (Option.some.inj hv).symm
  | closed state header_id retained =>
    simp only [feed, on_closed hd]
    exact ⟨trivial, h.online, h.states, h.drop⟩
  | state n redelivered =>
    obtain ⟨m', hm', hn, hle⟩ := le_next t n redelivered
    -- a state that is new is above every one before
    have hnew : redelivered = false → ∀ m : ℕ, t.newest = some m → m < n := by
      rintro rfl
      exact hd
    have hagain : redelivered = true → t.again = false := by
      rintro rfl
      exact hd.1
    rcases on_state_cases D n with ⟨first, old_last, hdrop, hlt, -⟩ | ⟨first, old_last, hdrop, hge, heq⟩ |
      ⟨hdrop, -, heq⟩ | ⟨last, hdrop, hlast, hlt, heq⟩
    · obtain ⟨hag, m, hm, hv⟩ := h.drop first old_last hdrop
      have hfresh : redelivered = false := by
        cases redelivered with
        | false => rfl
        | true =>
          rw [hagain rfl] at hag
          cases hag
      have hmn := hnew hfresh m hm
      omega
    · simp only [feed, heq]
      obtain ⟨-, m, hm, hv⟩ := h.drop first old_last hdrop
      have hmm := hle m hm
      refine ⟨trivial, h.online, fun v hv' => ⟨m', hm', ?_⟩, nofun⟩
      cases hv'
      omega
    · simp only [feed, heq]
      refine ⟨trivial, h.online, fun v hv => ⟨m', hm', ?_⟩, fun x v hv => ?_⟩
      · cases hv
        omega
      · rw [show D.pending_state_drop = some (x, v) from hv] at hdrop
        cases hdrop
    · simp only [feed, heq]
      obtain ⟨m, hm, hv⟩ := h.states last hlast
      have hmm := hle m hm
      refine ⟨trivial, h.online, fun v hv' => ⟨m', hm', ?_⟩, fun x v hv' => ⟨?_, m', hm', ?_⟩⟩
      · cases hv'
        omega
      · cases redelivered with
        | true => rfl
        | false =>
          have hmn := hnew rfl m hm
          omega
      · obtain ⟨-, rfl⟩ := Prod.mk.inj (Option.some.inj hv')
        omega

lemma own_of_signal {e : Evidence} (hd : t.Sends d) (he : (feed D d).2 = some e) :
    Own (feed D d).1 (t.next d) := by
  cases d with
  | online n retained =>
    rcases on_online_cases D n retained with ⟨last, -, -, -, heq⟩ | heq
    · simp only [feed, heq]
      refine ⟨fun v hv => ⟨n, rfl, (Option.some.inj hv).symm⟩, nofun, nofun⟩
    · simp only [feed, heq] at he
      cases he
  | closed state header_id retained =>
    simp only [feed, on_closed hd] at he
    cases he
  | state n redelivered =>
    obtain ⟨m', hm', hn, -⟩ := le_next t n redelivered
    rcases on_state_cases D n with ⟨first, old_last, hdrop, hlt, heq⟩ | ⟨first, old_last, hdrop, hge, heq⟩ |
      ⟨hdrop, -, heq⟩ | ⟨last, hdrop, hlast, hlt, heq⟩
    · simp only [feed, heq]
      refine ⟨nofun, fun v hv => ⟨m', hm', ?_⟩, nofun⟩
      cases hv
      omega
    all_goals
      simp only [feed, heq] at he
      cases he

variable {deliveries : List Delivery} {last n x y : ℕ}

lemma own_evidence (h : Own D t) (hd : t.Delivers deliveries) :
    evidence D deliveries = [] := by
  induction deliveries generalizing D t with
  | nil => rfl
  | cons d rest ih =>
    obtain ⟨hnone, hown⟩ := own_step h hd.1
    unfold evidence
    rw [hnone, ih hown hd.2]
    rfl

lemma evidence_length (hd : t.Delivers deliveries) : (evidence D deliveries).length ≤ 1 := by
  induction deliveries generalizing D t with
  | nil => exact Nat.zero_le 1
  | cons d rest ih =>
    unfold evidence
    cases he : (feed D d).2 with
    | none => exact ih hd.2
    | some e =>
      rw [own_evidence (own_of_signal hd.1 he) hd.2]
      exact le_rfl

/-! ### A signal for two states below the last one -/

structure Remembers (last : ℕ) (D : RunChangeDetector) : Prop where
  baseline : ∃ s : ℤ, D.last_state_header = some s ∧ last ≤ s ∧
    ∀ x v, D.pending_state_drop = some (x, v) → v = s

lemma remembers_state (D : RunChangeDetector) (n : ℕ) (redelivered : Bool) :
    Remembers n (feed D (.state n redelivered)).1 := by
  rcases on_state_cases D n with ⟨first, old_last, -, -, heq⟩ | ⟨first, old_last, -, -, heq⟩ |
    ⟨hdrop, -, heq⟩ | ⟨last, -, -, hlt, heq⟩
  · simp only [feed, heq]
    exact ⟨n, rfl, le_rfl, nofun⟩
  · simp only [feed, heq]
    exact ⟨_, rfl, le_max_right _ _, nofun⟩
  · simp only [feed, heq]
    refine ⟨n, rfl, le_rfl, fun x v hv => ?_⟩
    rw [show D.pending_state_drop = some (x, v) from hv] at hdrop
    cases hdrop
  · simp only [feed, heq]
    refine ⟨last, rfl, hlt.le, fun x v hv => ?_⟩
    exact (Prod.mk.inj (Option.some.inj hv)).2.symm

lemma remembers_other (h : Remembers last D) (hd : t.Sends d)
    (hstate : ∀ n redelivered, d ≠ .state n redelivered) (hnone : (feed D d).2 = none) :
    Remembers last (feed D d).1 ∧ (feed D d).1.pending_state_drop = D.pending_state_drop := by
  cases d with
  | online n retained =>
    rcases on_online_cases D n retained with ⟨v, -, -, -, heq⟩ | heq
    · simp only [feed, heq] at hnone
      cases hnone
    · simp only [feed, heq]
      exact ⟨⟨h.baseline⟩, trivial⟩
  | closed state header_id retained =>
    simp only [feed, on_closed hd]
    exact ⟨h, trivial⟩
  | state n redelivered => exact absurd rfl (hstate n redelivered)

variable {ys : List ℕ} {redelivered : Bool}

lemma remembers_drop (h : Remembers last D) (hn : n < last)
    (hnone : (feed D (.state n redelivered)).2 = none) :
    Remembers last (feed D (.state n redelivered)).1 ∧ (feed D (.state n redelivered)).1.pending_state_drop ≠ none := by
  obtain ⟨s, hs, hle, hdrops⟩ := h.baseline
  rcases on_state_cases D n with ⟨first, old_last, -, -, heq⟩ | ⟨first, old_last, hdrop, hge, heq⟩ |
    ⟨hdrop, hbelow, heq⟩ | ⟨v, -, hv, hlt, heq⟩
  · simp only [feed, heq] at hnone
    cases hnone
  · have := hdrops first old_last hdrop
    omega
  · have := hbelow s hs
    omega
  · simp only [feed, heq]
    cases hs.symm.trans hv
    exact ⟨⟨s, rfl, hle, fun x w hw => (Prod.mk.inj (Option.some.inj hw)).2.symm⟩, nofun⟩

lemma remembers_confirm (h : Remembers last D) (hn : n < last)
    (hpending : D.pending_state_drop ≠ none) : (feed D (.state n redelivered)).2 ≠ none := by
  obtain ⟨s, hs, hle, hdrops⟩ := h.baseline
  rcases on_state_cases D n with ⟨first, old_last, -, -, heq⟩ | ⟨first, old_last, hdrop, hge, heq⟩ |
    ⟨hdrop, -, heq⟩ | ⟨v, hdrop, -, -, heq⟩
  · simp only [feed, heq]
    nofun
  · have := hdrops first old_last hdrop
    omega
  · exact absurd hdrop hpending
  · exact absurd hdrop hpending

lemma after_append (D : RunChangeDetector) (xs ys : List Delivery) :
    after D (xs ++ ys) = after (after D xs) ys := List.foldl_append

lemma delivers_append {xs ys : List Delivery} (h : t.Delivers (xs ++ ys)) :
    (xs.foldl Track.next t).Delivers ys := by
  induction xs generalizing t with
  | nil => exact h
  | cons d xs ih => exact ih h.2

lemma evidence_cons_ne_nil {rest : List Delivery}
    (h : (feed D d).2 = none → evidence (feed D d).1 rest ≠ []) : evidence D (d :: rest) ≠ [] := by
  unfold evidence
  cases he : (feed D d).2 with
  | none => exact h he
  | some e => exact List.cons_ne_nil _ _

lemma remembers_quiet (h : Remembers last D)
    (hd : t.Delivers deliveries) (hstates : states deliveries = [])
    (hnone : evidence D deliveries = []) : Remembers last (after D deliveries) := by
  induction deliveries generalizing D t with
  | nil => exact h
  | cons d rest ih =>
    have hstate : ∀ n redelivered, d ≠ .state n redelivered := by
      rintro n redelivered rfl
      cases hstates
    have hrest : states rest = [] := by
      cases d with
      | online n retained => exact hstates
      | closed state header_id retained => exact hstates
      | state n redelivered => cases hstates
    obtain ⟨hfeed, hnone⟩ := List.append_eq_nil_iff.mp hnone
    have hfeed : (feed D d).2 = none := by
      cases he : (feed D d).2 with
      | none => rfl
      | some e =>
        rw [he] at hfeed
        cases hfeed
    exact ih (remembers_other h hd.1 hstate hfeed).1 hd.2 hrest hnone

lemma confirm_run (h : Remembers last D)
    (hpending : D.pending_state_drop ≠ none) (hd : t.Delivers deliveries)
    (hstates : states deliveries = y :: ys) (hy : y < last) : evidence D deliveries ≠ [] := by
  induction deliveries generalizing D t with
  | nil => cases hstates
  | cons d rest ih =>
    refine evidence_cons_ne_nil fun hnone => ?_
    cases d with
    | state n redelivered =>
      obtain ⟨rfl, -⟩ := List.cons.inj hstates
      exact absurd hnone (remembers_confirm h hy hpending)
    | online n retained =>
      obtain ⟨hkept, hdrop⟩ := remembers_other h hd.1 nofun hnone
      exact ih hkept (by rw [hdrop]; exact hpending) hd.2 hstates
    | closed state header_id retained =>
      obtain ⟨hkept, hdrop⟩ := remembers_other h hd.1 nofun hnone
      exact ih hkept (by rw [hdrop]; exact hpending) hd.2 hstates

lemma drop_run (h : Remembers last D)
    (hd : t.Delivers deliveries) (hstates : states deliveries = x :: y :: ys) (hx : x < last)
    (hy : y < last) : evidence D deliveries ≠ [] := by
  induction deliveries generalizing D t with
  | nil => cases hstates
  | cons d rest ih =>
    refine evidence_cons_ne_nil fun hnone => ?_
    cases d with
    | state n redelivered =>
      obtain ⟨rfl, hrest⟩ := List.cons.inj hstates
      obtain ⟨hkept, hpending⟩ := remembers_drop h hx hnone
      exact confirm_run hkept hpending hd.2 hrest hy
    | online n retained =>
      exact ih (remembers_other h hd.1 nofun hnone).1 hd.2 hstates
    | closed state header_id retained =>
      exact ih (remembers_other h hd.1 nofun hnone).1 hd.2 hstates

lemma newer_after (hd : t.Delivers deliveries)
    (hagain : t.again = true) (hstates : states deliveries = y :: ys) :
    ∀ m, t.newest = some m → m < y := by
  induction deliveries generalizing t with
  | nil => cases hstates
  | cons d rest ih =>
    cases d with
    | online n retained =>
      have hrec := ih hd.2 hagain hstates
      exact hrec
    | closed state header_id retained =>
      have hrec := ih hd.2 hagain hstates
      exact hrec
    | state n redelivered =>
      obtain ⟨rfl, -⟩ := List.cons.inj hstates
      cases redelivered with
      | false => exact hd.1
      | true =>
        rw [hd.1.1] at hagain
        cases hagain

lemma newest_below (hd : t.Delivers deliveries)
    (htwo : TwoBelow last (states deliveries)) : ∀ m, t.newest = some m → m < last := by
  induction deliveries generalizing t with
  | nil => exact htwo.elim
  | cons d rest ih =>
    cases d with
    | online n retained =>
      have hrec := ih hd.2 htwo
      exact hrec
    | closed state header_id retained =>
      have hrec := ih hd.2 htwo
      exact hrec
    | state x redelivered =>
      obtain ⟨m', hm', -, hle⟩ := le_next t x redelivered
      intro m hm
      have hmm := hle m hm
      change TwoBelow last (x :: states rest) at htwo
      cases hrest : states rest with
      | nil =>
        rw [hrest] at htwo
        exact htwo.elim
      | cons y ys =>
        rw [hrest] at htwo
        rcases htwo with ⟨hx, hy⟩ | htwo
        · cases redelivered with
          | false => exact (hd.1 m hm).trans hx
          | true =>
            have hlt := newer_after hd.2 rfl hrest m' hm'
            omega
        · have hlt := ih hd.2 (hrest ▸ htwo) m' hm'
          omega

lemma first_two_below (hd : t.Delivers deliveries) (htwo : TwoBelow last (states deliveries)) :
    ∃ x y ys, states deliveries = x :: y :: ys ∧ x < last ∧ y < last := by
  induction deliveries generalizing t with
  | nil => exact htwo.elim
  | cons d rest ih =>
    cases d with
    | online n retained => exact ih hd.2 htwo
    | closed state header_id retained => exact ih hd.2 htwo
    | state x redelivered =>
      obtain ⟨m', hm', hx, -⟩ := le_next t x redelivered
      change TwoBelow last (x :: states rest) at htwo
      change ∃ x' y ys, x :: states rest = x' :: y :: ys ∧ x' < last ∧ y < last
      cases hrest : states rest with
      | nil =>
        rw [hrest] at htwo
        exact htwo.elim
      | cons y ys =>
        rw [hrest] at htwo
        rcases htwo with ⟨hx, hy⟩ | htwo
        · exact ⟨x, y, ys, rfl, hx, hy⟩
        · have hlt := newest_below hd.2 (hrest ▸ htwo) m' hm'
          obtain ⟨y', z, zs, heq, hy', -⟩ := ih hd.2 (hrest ▸ htwo)
          obtain ⟨rfl, -⟩ := List.cons.inj (hrest.symm.trans heq)
          exact ⟨x, y, ys, rfl, hx.trans_lt hlt, hy'⟩

/-! ### Processes -/

def seen (processes : List Process) : RunChangeDetector :=
  after .new (processes.flatMap fun p => p.deliveries)

lemma seen_append (earlier : List Process) (q : Process) :
    seen (earlier ++ [q]) = after (seen earlier) q.deliveries := by
  unfold seen
  rw [List.flatMap_append, after_append]
  simp

/-- A process raises one signal at most, the first one none. One that delivers two states in a row
below the last state of its predecessor raises one, unless the predecessor was itself signalled after
that state. -/
theorem one_signal_per_restart (before : List Process) (p : Process) :
    (evidence (seen before) p.deliveries).length ≤ 1 ∧
      (before = [] → evidence (seen before) p.deliveries = []) ∧
      ∀ (earlier : List Process) (q : Process) (pre post : List Delivery) (last : ℕ)
        (redelivered : Bool), before = earlier ++ [q] →
        q.deliveries = pre ++ .state last redelivered :: post → states post = [] →
        evidence (after (seen earlier) (pre ++ [.state last redelivered])) post = [] →
        TwoBelow last (states p.deliveries) → evidence (seen before) p.deliveries ≠ [] := by
  refine ⟨evidence_length p.valid, ?_, ?_⟩
  · rintro rfl
    exact own_evidence ⟨nofun, nofun, nofun⟩ p.valid
  · rintro earlier q pre post last redelivered rfl hq hpost hquiet htwo
    have hvalid := q.valid
    rw [hq, show pre ++ Delivery.state last redelivered :: post =
      (pre ++ [.state last redelivered]) ++ post by simp] at hvalid
    have hstate : Remembers last (after (seen earlier) (pre ++ [.state last redelivered])) := by
      rw [after_append]
      exact remembers_state _ last redelivered
    have hq : Remembers last (seen (earlier ++ [q])) := by
      rw [seen_append, hq, show pre ++ Delivery.state last redelivered :: post =
        (pre ++ [.state last redelivered]) ++ post by simp, after_append]
      exact remembers_quiet hstate (delivers_append hvalid) hpost hquiet
    obtain ⟨x, y, ys, hstates, hx, hy⟩ := first_two_below p.valid htwo
    exact drop_run hq p.valid hstates hx hy

/-- A process whose ONLINE comes first, and one whose ONLINE comes after its states. -/
def promptly : Process :=
  ⟨[.online 1 false, .state 0 false, .state 1 false], by simp [Track.Delivers, Track.Sends, Track.next]⟩

def late : Process :=
  ⟨[.state 0 false, .state 1 false, .state 2 false, .state 3 false, .online 1 false],
    by simp [Track.Delivers, Track.Sends, Track.next]⟩

def silent : Process :=
  ⟨[.state 0 false, .state 1 false], by simp [Track.Delivers, Track.Sends, Track.next]⟩

/-- The states of a new process alone raise the signal. -/
theorem one_signal_per_restart_states :
    (evidence (seen [late]) silent.deliveries).length ≤ 1 ∧
      evidence (seen [late]) silent.deliveries ≠ [] := by
  obtain ⟨hle, -, hsignal⟩ := one_signal_per_restart [late] silent
  refine ⟨hle, hsignal [] late [.state 0 false, .state 1 false, .state 2 false] [.online 1 false] 3
    false rfl rfl rfl (by decide) ?_⟩
  exact .inl ⟨by decide, by decide⟩

/-- The ONLINE of the second process raises its signal after its last state, and the states are
forgotten: the third process, whose ONLINE is lost, raises none. -/
theorem restart_missed :
    (states late.deliveries).getLast? = some 3 ∧ TwoBelow 3 (states silent.deliveries) ∧
      evidence (seen [promptly, late]) silent.deliveries = [] := by
  refine ⟨by decide, .inl ⟨by decide, by decide⟩, by decide⟩

end CloudServer.RunChange
