import CloudServer.Acks

/-! The high-water mark of a robot: what is published on `ingest_state` along a run of events. -/
namespace CloudServer.AckMark

open Scan (Text)
open Acks List Option Dict

inductive Mark
  | seeded (robot : Text) (run : Run) (highest : Int)
  | accepted (robot : Text) (run : Run)
  | sent (message : Message)
  deriving DecidableEq

def Published (t : List Mark) (robot : Text) (run : Run) (n : Int) : Prop :=
  .sent (.state robot run n) ∈ t

def Seeded (t : List Mark) (robot : Text) (run : Run) (n : Int) : Prop := .seeded robot run n ∈ t

def Accepted (t : List Mark) (robot : Text) (run : Run) : Prop := .accepted robot run ∈ t

def Seen (t : List Mark) (robot : Text) (run : Run) : Prop :=
  Accepted t robot run ∨ ∃ n, Seeded t robot run n

def Completed (t : List Mark) (robot : Text) (run : Run) (n : Int) : Prop :=
  ∃ a : Ack, .sent (.ack a) ∈ t ∧ a.complete = some true ∧ a.robot = robot ∧ a.run = run ∧
    a.sid = .int n ∧ a.ns = none

variable (cfg : Config) (age : Text → Run → ℕ)

/-- A published value is not below one published or seeded before for its run, it completed or was
seeded, and no bundle of a newer run was accepted before. A retained value is not above a value
published before it was read, unless it is one of them. -/
def MarkOk (t : List Mark) : Mark → Prop
  | .sent (.state robot run n) =>
    (∀ w, Published t robot run w ∨ Seeded t robot run w → w ≤ n) ∧
      (Completed t robot run n ∨ Seeded t robot run n) ∧
      ∀ newer, Accepted t robot newer → ¬ age robot run < age robot newer
  | .seeded robot run n => Published t robot run n ∨ ∀ w, Published t robot run w → n ≤ w
  | _ => True

/-- Every mark of the trail is in order after the marks before it. -/
def Grows (t : List Mark) : Prop := ∀ before x, before ++ [x] <+: t → MarkOk age before x

def before : Event → List Mark
  | .nodeOk key _ _ _ _ =>
    if key.ns = none ∧ validTopicLevel key.robot then [.accepted key.robot key.run] else []
  | .seedState robot run (some n) => if validTopicLevel robot then [.seeded robot run n] else []
  | _ => []

def sent (out : List Message) : List Mark := out.map .sent

def play (events : List ((Nat → Int) × Event)) : Manager × List Mark :=
  events.foldl (fun x e => ((e.2.apply cfg e.1 x.1).1,
    x.2 ++ before e.2 ++ sent (e.2.apply cfg e.1 x.1).2)) (.init, [])

def latest (m : Manager) (robot : Text) : Option Run := ((m.runs.get robot).getD []).getLast?

/-- The run the manager holds for the robot: the one of its state, else the latest accepted. -/
def current (m : Manager) (robot : Text) : Option Run :=
  match m.states.get robot with
  | some st => some st.run
  | none => latest m robot

/-- The step finds room for its robot, brings up only runs newer than the ones seen, reads a
retained value of the run held or of an older one before a lower value went out, and publishes
held back values of the latest run only. -/
def Steady (m : Manager) (t : List Mark) (now : Int) : Event → Prop
  | .nodeOk key _ _ _ _ => key.ns = none → validTopicLevel key.robot →
      m.runs.Room robotCap key.robot ∧ m.states.Room robotCap key.robot ∧
      (key.run ∉ (m.runs.get key.robot).getD [] →
        ∀ run, Seen t key.robot run → run ≠ key.run → age key.robot run < age key.robot key.run)
  | .partStored key _ => m.states.Room robotCap key.robot
  | .seedState robot run (some n) => validTopicLevel robot →
      m.states.Room robotCap robot ∧
      (∀ held, current m robot = some held → held ≠ run → age robot run < age robot held) ∧
      (Published t robot run n ∨ ∀ w, Published t robot run w → n ≤ w)
  | .flush => ∀ robot st, m.states.get robot = some st → st.due cfg now →
      ∀ run, latest m robot = some run → st.run = run
  | _ => True

def Orderly (events : List ((Nat → Int) × Event)) : Prop :=
  ∀ past e, past ++ [e] <+: events →
    Steady cfg age (play cfg past).1 (play cfg past).2 (e.1 0) e.2

def Outdated (m : Manager) (robot : Text) (run : Run) : Prop :=
  (∃ st, m.states.get robot = some st ∧ age robot run < age robot st.run) ∨
    ∃ newest, latest m robot = some newest ∧ age robot run < age robot newest

structure Kept (m : Manager) (t : List Mark) : Prop where
  states_size : m.states.size ≤ robotCap
  runs_size : m.runs.size ≤ robotCap
  runs_accepted : ∀ robot run, run ∈ (m.runs.get robot).getD [] → Accepted t robot run
  newest : ∀ robot run, Accepted t robot run →
    ∃ top, latest m robot = some top ∧ (run = top ∨ age robot run < age robot top)
  state_seen : ∀ robot st, m.states.get robot = some st → Seen t robot st.run
  state_older : ∀ robot st top, m.states.get robot = some st → latest m robot = some top →
    st.run = top ∨ age robot st.run < age robot top
  value : ∀ robot run n, Published t robot run n ∨ Seeded t robot run n →
    (∃ st, m.states.get robot = some st ∧ st.run = run ∧ n ≤ st.highest) ∨
      Outdated age m robot run
  source : ∀ robot st, m.states.get robot = some st →
    Completed t robot st.run st.highest ∨ Seeded t robot st.run st.highest
  tracked : ∀ key e, m.entries.get key = some e → e.status ≠ none → key.ns = none →
    validTopicLevel key.robot → Accepted t key.robot key.run
  acked : ∀ key a sentAt, m.lastAck.get key = some (a, sentAt) → .sent (.ack a) ∈ t

structure Sound (m : Manager) (t : List Mark) : Prop extends Kept age m t where
  grows : Grows age t

variable {cfg age} {m : Manager} {t : List Mark}
variable {x : Mark} {n now : Int} {f : Manager → Step}

lemma grows_concat : Grows age (t ++ [x]) ↔ Grows age t ∧ MarkOk age t x := by
  constructor
  · intro h
    exact ⟨fun b y hb => h b y (hb.trans (prefix_append t [x])), h t x (prefix_refl _)⟩
  · rintro ⟨h, hx⟩ b y hb
    rcases prefix_concat_iff.mp hb with heq | hb
    · obtain ⟨rfl, hy⟩ := append_inj' heq rfl
      rw [singleton_inj.mp hy]
      exact hx
    · exact h b y hb

variable {robot : Text} {run : Run} {key : Key}

lemma accepted_concat :
    Accepted (t ++ [x]) robot run ↔ Accepted t robot run ∨ x = .accepted robot run := by
  unfold Accepted
  rw [mem_append, mem_singleton, eq_comm (a := x)]

lemma seeded_concat :
    Seeded (t ++ [x]) robot run n ↔ Seeded t robot run n ∨ x = .seeded robot run n := by
  unfold Seeded
  rw [mem_append, mem_singleton, eq_comm (a := x)]

lemma published_concat :
    Published (t ++ [x]) robot run n ↔ Published t robot run n ∨ x = .sent (.state robot run n) := by
  unfold Published
  rw [mem_append, mem_singleton, eq_comm (a := x)]

lemma Seen.append (h : Seen t robot run) (u : List Mark) :
    Seen (t ++ u) robot run := by
  rcases h with h | ⟨n, h⟩
  · exact .inl (mem_append_left _ h)
  · exact .inr ⟨n, mem_append_left _ h⟩

lemma Completed.append (h : Completed t robot run n)
    (u : List Mark) : Completed (t ++ u) robot run n := by
  obtain ⟨a, ha, h⟩ := h
  exact ⟨a, mem_append_left _ ha, h⟩

lemma Sound.entries (h : Sound age m t) (entries : Dict Key Entry)
    (ht : ∀ key e, entries.get key = some e → e.status ≠ none → key.ns = none →
      validTopicLevel key.robot → Accepted t key.robot key.run) :
    Sound age { m with entries } t :=
  { h with tracked := ht }

lemma Sound.erase (h : Sound age m t) (key : Key) :
    Sound age { m with entries := m.entries.erase key } t := by
  refine h.entries _ fun k e he => ?_
  rw [get_erase] at he
  split_ifs at he
  exact h.tracked k e he

lemma Sound.set (h : Sound age m t) (key : Key) (e : Entry)
    (he : e.status ≠ none → key.ns = none → validTopicLevel key.robot → Accepted t key.robot key.run) :
    Sound age { m with entries := m.entries.set key e } t := by
  refine h.entries _ fun k x hx hs hn hv => ?_
  rw [get_set] at hx
  split_ifs at hx with hk
  · obtain rfl := some_inj.mp hx
    subst hk
    exact he hs hn hv
  · exact h.tracked k x hx hs hn hv

lemma Sound.put (h : Sound age m t) (key : Key) (e : Entry)
    (he : e.status ≠ none → key.ns = none → validTopicLevel key.robot → Accepted t key.robot key.run) :
    Sound age { m with entries := m.entries.put key e } t := by
  refine h.entries _ fun k x hx hs hn hv => ?_
  rw [get_put] at hx
  split_ifs at hx with hk
  · obtain rfl := some_inj.mp hx
    subst hk
    exact he hs hn hv
  · exact h.tracked k x hx hs hn hv

lemma Sound.evict (h : Sound age m t) : Sound age (evict cfg m) t :=
  h.entries _ fun k e he => h.tracked k e (get_newest he)

lemma Sound.sent_ack (h : Sound age m t) (a : Ack) (lastAck : Dict Key (Ack × Int))
    (hl : ∀ key b sentAt, lastAck.get key = some (b, sentAt) → b = a ∨ ∃ at', m.lastAck.get key = some (b, at')) :
    Sound age { m with lastAck } (t ++ [.sent (.ack a)]) := by
  refine ⟨⟨h.states_size, h.runs_size, fun r ρ hρ => mem_append_left _ (h.runs_accepted r ρ hρ),
    fun r ρ hρ => ?_, fun r st hst => (h.state_seen r st hst).append _, h.state_older,
    fun r ρ n hn => ?_, fun r st hst => ?_, fun k e he hs hn hv =>
      mem_append_left _ (h.tracked k e he hs hn hv), fun k b sentAt hb => ?_⟩,
    grows_concat.mpr ⟨h.grows, trivial⟩⟩
  · refine h.newest r ρ ?_
    simpa [accepted_concat] using hρ
  · refine h.value r ρ n ?_
    simpa [published_concat, seeded_concat] using hn
  · exact (h.source r st hst).imp (·.append _) (mem_append_left _)
  · rcases hl k b sentAt hb with rfl | ⟨s, hs⟩
    · exact mem_append_right _ (mem_singleton.mpr rfl)
    · exact mem_append_left _ (h.acked k b s hs)

def Follows (age : Text → Run → ℕ) (t : List Mark) (x : Step) : Prop :=
  Sound age x.1 (t ++ sent x.2)

lemma follows_nil (h : Sound age m t) : Follows age t (m, []) := by
  unfold Follows sent
  rw [map_nil, append_nil]
  exact h

lemma Follows.andThen {x : Step}
    (hf : Follows age (t ++ sent x.2) (f x.1)) : Follows age t (x.andThen f) := by
  unfold Follows Step.andThen sent at *
  rw [map_append, ← append_assoc]
  exact hf

lemma ack_follows (h : Sound age m t) (robot : Text) (run : Run) (sid : Sid) (status : Status)
    (reason : Option Reason) (resend : Resend) (stored missing : List Part)
    (complete : Option Bool) (sessionId ns : Option Text) (now : Int) :
    Follows age t (ack m robot run sid status reason resend stored missing complete sessionId ns now) := by
  unfold Acks.ack
  split_ifs
  · simp only
    split_ifs
    · exact follows_nil h
    · refine h.sent_ack _ _ fun key b sentAt hb => ?_
      have hb := get_newest hb
      rw [get_put] at hb
      split_ifs at hb with hk
      · exact .inl (congrArg Prod.fst (some_inj.mp hb)).symm
      · exact .inr ⟨sentAt, hb⟩
  · exact follows_nil h

lemma ack_completed (h : Sound age m t) (hv : validTopicLevel robot) (run : Run)
    (n : Int) (status : Status) (reason : Option Reason) (resend : Resend)
    (stored missing : List Part) (sessionId : Option Text) (now : Int) :
    Completed (t ++ sent (ack m robot run (.int n) status reason resend stored missing (some true)
      sessionId none now).2) robot run n := by
  unfold Acks.ack
  rw [if_pos hv]
  simp only
  split_ifs with hc
  · unfold coalesced at hc
    split at hc
    · rename_i last sentAt hl
      simp only [Bool.and_eq_true, decide_eq_true_eq] at hc
      refine ⟨last, mem_append_left _ (h.acked _ last sentAt hl), ?_⟩
      rw [hc.1]
      exact ⟨rfl, rfl, rfl, rfl, rfl⟩
    · exact absurd hc Bool.false_ne_true
  · exact ⟨_, mem_append_right _ (mem_singleton.mpr rfl), rfl, rfl, rfl, rfl, rfl⟩

lemma Sound.publish (h : Sound age m t) (robot : Text) {st : State} (hst : m.states.get robot = some st)
    (htop : ∀ top, latest m robot = some top → st.run = top) :
    Sound age m (t ++ [.sent (.state robot st.run st.highest)]) := by
  have hnew : ∀ newer, Accepted t robot newer → ¬ age robot st.run < age robot newer := by
    intro newer hn
    obtain ⟨top, ht, hle⟩ := h.newest robot newer hn
    rw [htop top ht]
    rcases hle with rfl | hlt
    · exact lt_irrefl _
    · exact not_lt.mpr hlt.le
  have hval : ∀ w, Published t robot st.run w ∨ Seeded t robot st.run w → w ≤ st.highest := by
    intro w hw
    rcases h.value robot st.run w hw with ⟨st₂, h₂, -, hle⟩ | ⟨st₂, h₂, hlt⟩ | ⟨top, ht, hlt⟩
    · rw [hst] at h₂
      rwa [some_inj.mp h₂]
    · rw [hst] at h₂
      rw [some_inj.mp h₂] at hlt
      exact absurd hlt (lt_irrefl _)
    · rw [htop top ht] at hlt
      exact absurd hlt (lt_irrefl _)
  refine ⟨⟨h.states_size, h.runs_size, fun r ρ hρ => mem_append_left _ (h.runs_accepted r ρ hρ), fun r ρ hρ => ?_,
    fun r x hx => (h.state_seen r x hx).append _, h.state_older, fun r ρ n hn => ?_,
    fun r x hx => ?_, fun k e he hs hn hv => mem_append_left _ (h.tracked k e he hs hn hv),
    fun k b sentAt hb => mem_append_left _ (h.acked k b sentAt hb)⟩,
    grows_concat.mpr ⟨h.grows, hval, h.source robot st hst, hnew⟩⟩
  · exact h.newest r ρ (by simpa [accepted_concat] using hρ)
  · have hn' : (Published t r ρ n ∨ Seeded t r ρ n) ∨ robot = r ∧ st.run = ρ ∧ st.highest = n := by
      simp only [published_concat, seeded_concat, Mark.sent.injEq, Message.state.injEq, reduceCtorEq, or_false] at hn
      tauto
    rcases hn' with hn' | ⟨rfl, rfl, rfl⟩
    · exact h.value r ρ n hn'
    · exact .inl ⟨st, hst, rfl, le_refl _⟩
  · exact (h.source r x hx).imp (·.append _) (mem_append_left _)

lemma Sound.state_append (h : Sound age m t) (robot : Text) (st : State) (u : List Mark)
    (hu : ∀ x ∈ u, x = .seeded robot st.run st.highest) (hgrows : Grows age (t ++ u))
    (hroom : m.states.Room robotCap robot) (hseen : Seen (t ++ u) robot st.run)
    (htop : ∀ top, latest m robot = some top → st.run = top ∨ age robot st.run < age robot top)
    (hsrc : Completed (t ++ u) robot st.run st.highest ∨ Seeded (t ++ u) robot st.run st.highest)
    (hold : ∀ old, m.states.get robot = some old →
      old.run = st.run ∧ old.highest ≤ st.highest ∨ age robot old.run < age robot st.run) :
    Sound age { m with states := m.states.set robot st } (t ++ u) := by
  have hget : ∀ r x, (m.states.set robot st).get r = some x →
      r = robot ∧ x = st ∨ m.states.get r = some x := by
    intro r x hx
    rw [get_set] at hx
    split_ifs at hx with hr
    · exact .inl ⟨hr, (some_inj.mp hx).symm⟩
    · exact .inr hx
  have hself : (m.states.set robot st).get robot = some st := by rw [get_set, if_pos rfl]
  have hback : ∀ x ∈ t ++ u, x ∈ t ∨ x = .seeded robot st.run st.highest := fun x hx =>
    (mem_append.mp hx).imp_right (hu x)
  refine ⟨⟨size_set_le _ hroom h.states_size, h.runs_size,
    fun r ρ hρ => mem_append_left _ (h.runs_accepted r ρ hρ), fun r ρ hρ => ?_,
    fun r x hx => ?_, fun r x top hx ht => ?_, fun r ρ n hn => ?_, fun r x hx => ?_,
    fun k e he hs hn hv => mem_append_left _ (h.tracked k e he hs hn hv),
    fun k b sentAt hb => mem_append_left _ (h.acked k b sentAt hb)⟩, hgrows⟩
  · rcases hback _ hρ with hρ | hρ
    · exact h.newest r ρ hρ
    · cases hρ
  · rcases hget r x hx with ⟨rfl, rfl⟩ | hx
    · exact hseen
    · exact (h.state_seen r x hx).append _
  · rcases hget r x hx with ⟨rfl, rfl⟩ | hx
    · exact htop top ht
    · exact h.state_older r x top hx ht
  · have hn' : (Published t r ρ n ∨ Seeded t r ρ n) ∨ r = robot ∧ ρ = st.run ∧ n = st.highest := by
      rcases hn with hn | hn
      · rcases hback _ hn with hn | hn
        · exact .inl (.inl hn)
        · cases hn
      · rcases hback _ hn with hn | hn
        · exact .inl (.inr hn)
        · rw [Mark.seeded.injEq] at hn
          exact .inr hn
    rcases hn' with hn' | ⟨rfl, rfl, rfl⟩
    · by_cases hr : r = robot
      · subst hr
        rcases h.value r ρ n hn' with ⟨old, ho, hρ, hle⟩ | ⟨old, ho, hlt⟩ | hlt
        · rcases hold old ho with ⟨hrun, hh⟩ | hage
          · exact .inl ⟨st, hself, hrun ▸ hρ, hle.trans hh⟩
          · exact .inr (.inl ⟨st, hself, hρ ▸ hage⟩)
        · rcases hold old ho with ⟨hrun, -⟩ | hage
          · exact .inr (.inl ⟨st, hself, hrun ▸ hlt⟩)
          · exact .inr (.inl ⟨st, hself, hlt.trans hage⟩)
        · exact .inr (.inr hlt)
      · have hother : (m.states.set robot st).get r = m.states.get r := by
          rw [get_set, if_neg hr]
        unfold Outdated
        simp only [hother]
        exact h.value r ρ n hn'
    · exact .inl ⟨st, hself, rfl, le_refl _⟩
  · rcases hget r x hx with ⟨rfl, rfl⟩ | hx
    · exact hsrc
    · exact (h.source r x hx).imp (·.append _) (mem_append_left _)

lemma Sound.state (h : Sound age m t) (robot : Text) (st : State)
    (hroom : m.states.Room robotCap robot) (hseen : Seen t robot st.run)
    (htop : ∀ top, latest m robot = some top → st.run = top ∨ age robot st.run < age robot top)
    (hsrc : Completed t robot st.run st.highest ∨ Seeded t robot st.run st.highest)
    (hold : ∀ old, m.states.get robot = some old →
      old.run = st.run ∧ old.highest ≤ st.highest ∨ age robot old.run < age robot st.run) :
    Sound age { m with states := m.states.set robot st } t := by
  have hnil := append_nil t
  have hs := h.state_append robot st [] (by simp) (by rw [hnil]; exact h.grows) hroom
    (by rw [hnil]; exact hseen) htop (by rw [hnil]; exact hsrc) hold
  rwa [hnil] at hs

lemma maybeState_value (robot : Text) (st : State) (now : Int) :
    (maybeState cfg robot st now).1.run = st.run ∧ (maybeState cfg robot st now).1.highest = st.highest := by
  unfold maybeState
  split_ifs <;> exact ⟨rfl, rfl⟩

lemma raise_follows (h : Sound age m t) (robot : Text) (st : State)
    (hroom : m.states.Room robotCap robot) (hseen : Seen t robot st.run)
    (htop : ∀ top, latest m robot = some top → st.run = top)
    (hsrc : Completed t robot st.run st.highest ∨ Seeded t robot st.run st.highest)
    (hold : ∀ old, m.states.get robot = some old →
      old.run = st.run ∧ old.highest ≤ st.highest ∨ age robot old.run < age robot st.run)
    (now : Int) : Follows age t (raise cfg m robot st now) := by
  have hset := h.state robot st hroom hseen (fun top ht => .inl (htop top ht)) hsrc hold
  unfold raise maybeState
  split_ifs
  · have hmem : robot ∈ (m.states.set robot st).keys := by
      rw [mem_keys_set]
      exact .inl rfl
    have hpub := hset.publish robot (by rw [get_set, if_pos rfl]) htop
    have hlast := hpub.state robot { st with dirty := false, publishedAt := some now } (.inl hmem)
      (hseen.append _) (fun top ht => .inl (htop top ht)) ?_ fun old ho => ?_
    · rw [Dict.set_set] at hlast
      exact hlast
    · exact hsrc.imp (·.append _) (mem_append_left _)
    · rw [get_set, if_pos rfl] at ho
      obtain rfl := some_inj.mp ho
      exact .inl ⟨rfl, le_refl _⟩
  · exact follows_nil hset

lemma superseded_eq_false :
    superseded m robot run = false ↔ ∀ top, latest m robot = some top → run = top := by
  unfold superseded latest
  cases ((m.runs.get robot).getD []).getLast? with
  | none => simp
  | some top =>
    simp only [decide_eq_false_iff_not, not_not, some_inj]
    exact ⟨fun h top' h' => h' ▸ h.symm, fun h => (h top rfl).symm⟩

lemma raise_set (robot : Text) (st : State) (now : Int) :
    raise cfg { m with states := m.states.set robot st } robot st now = raise cfg m robot st now := by
  unfold raise
  simp only [Dict.set_set]

lemma complete_follows (h : Sound age m t) {sid : Sid} {ns : Option Text} (now : Int)
    (hroom : ns = none → validTopicLevel robot → m.states.Room robotCap robot)
    (hacc : ns = none → validTopicLevel robot → Accepted t robot run)
    (hdone : ∀ n, ns = none → validTopicLevel robot → sid = .int n → Completed t robot run n) :
    Follows age t (complete cfg m robot run sid ns now) := by
  unfold complete
  split
  · rename_i n
    split_ifs with hskip
    · exact follows_nil h
    · simp only [Bool.or_eq_true, Bool.not_eq_true', not_or, Bool.not_eq_false,
        Bool.not_eq_true, superseded_eq_false] at hskip
      obtain ⟨hv, htop⟩ := hskip
      have hroom := hroom rfl hv
      have hacc := hacc rfl hv
      have hdone := hdone n rfl hv rfl
      obtain ⟨top, hlatest, -⟩ := h.newest robot run hacc
      have hrun := htop top hlatest
      cases hst : m.states.get robot with
      | none =>
        simp only [newest_set _ hroom h.states_size, raise_set]
        refine raise_follows h robot _ hroom (.inl hacc) htop (.inl hdone) (fun old ho => ?_) now
        rw [hst] at ho
        cases ho
      | some st =>
        have hold : ∀ old, m.states.get robot = some old → old = st := fun old ho =>
          some_inj.mp (ho.symm.trans hst)
        simp only
        split_ifs with hne hlt
        · simp only [newest_set _ hroom h.states_size, raise_set]
          refine raise_follows h robot _ hroom (.inl hacc) htop (.inl hdone) (fun old ho => ?_) now
          rw [hold old ho]
          rcases h.state_older robot st top hst hlatest with he | hage
          · exact absurd (he.trans hrun.symm) hne
          · exact .inr (hrun ▸ hage)
        · obtain rfl := not_not.mp hne
          refine raise_follows h robot { st with highest := n, dirty := true } hroom (.inl hacc)
            htop (.inl hdone) (fun old ho => ?_) now
          rw [hold old ho]
          exact .inl ⟨rfl, hlt.le⟩
        · exact follows_nil h
  · exact follows_nil h

lemma runs_noteRun_of_mem (hroom : m.runs.Room robotCap robot) (hsize : m.runs.size ≤ robotCap)
    (hmem : run ∈ (m.runs.get robot).getD []) (r : Text) :
    ((noteRun m robot run).runs.get r).getD [] = (m.runs.get r).getD [] := by
  unfold noteRun
  split_ifs
  · simp only [newest_put _ hroom hsize, get_put]
    split_ifs with hr
    · rw [hr, getD_some]
    · rfl
  · rfl

lemma runs_noteRun_of_not_mem (hv : validTopicLevel robot)
    (hroom : m.runs.Room robotCap robot) (hsize : m.runs.size ≤ robotCap)
    (hmem : run ∉ (m.runs.get robot).getD []) (r : Text) :
    ((noteRun m robot run).runs.get r).getD [] =
      if r = robot then
        (((m.runs.get r).getD []) ++ [run]).drop (((m.runs.get r).getD []).length + 1 - runsSeenCap)
      else (m.runs.get r).getD [] := by
  unfold noteRun
  rw [if_pos hv]
  simp only [newest_put _ hroom hsize, get_put, if_neg hmem, length_append, length_singleton]
  split_ifs with hr
  · rw [hr, getD_some]
  · rfl

lemma getLast_drop_concat (xs : List Run) (run : Run) :
    ((xs ++ [run]).drop (xs.length + 1 - runsSeenCap)).getLast? = some run := by
  have hle : xs.length + 1 - runsSeenCap ≤ xs.length := by
    unfold runsSeenCap
    omega
  rw [drop_append_of_le_length hle]
  exact List.getLast?_concat

lemma noteRun_frame (robot : Text) (run : Run) :
    (noteRun m robot run).states = m.states ∧ (noteRun m robot run).entries = m.entries ∧
      (noteRun m robot run).lastAck = m.lastAck := by
  unfold Acks.noteRun
  split_ifs
  · exact ⟨rfl, rfl, rfl⟩
  · exact ⟨rfl, rfl, rfl⟩

lemma noteRun_runs (hv : validTopicLevel robot)
    (hroom : m.runs.Room robotCap robot) (hsize : m.runs.size ≤ robotCap) (run : Run) :
    (run ∈ (m.runs.get robot).getD [] ∧ ∀ r, latest (noteRun m robot run) r = latest m r ∧
        ((noteRun m robot run).runs.get r).getD [] = (m.runs.get r).getD []) ∨
      run ∉ (m.runs.get robot).getD [] ∧ latest (noteRun m robot run) robot = some run ∧
        (∀ r, r ≠ robot → latest (noteRun m robot run) r = latest m r) ∧
        ∀ r ρ, ρ ∈ ((noteRun m robot run).runs.get r).getD [] → ρ ∈ (m.runs.get r).getD [] ∨ r = robot ∧ ρ = run := by
  by_cases hmem : run ∈ (m.runs.get robot).getD []
  · refine .inl ⟨hmem, fun r => ?_⟩
    have hr := runs_noteRun_of_mem hroom hsize hmem r
    unfold latest
    rw [hr]
    exact ⟨rfl, rfl⟩
  · refine .inr ⟨hmem, ?_, fun r hr => ?_, fun r ρ hρ => ?_⟩
    · unfold latest
      rw [runs_noteRun_of_not_mem hv hroom hsize hmem, if_pos rfl, getLast_drop_concat]
    · unfold latest
      rw [runs_noteRun_of_not_mem hv hroom hsize hmem, if_neg hr]
    · rw [runs_noteRun_of_not_mem hv hroom hsize hmem] at hρ
      split_ifs at hρ with hr
      · rcases mem_append.mp (mem_of_mem_drop hρ) with hρ | hρ
        · exact .inl hρ
        · exact .inr ⟨hr, mem_singleton.mp hρ⟩
      · exact .inl hρ

lemma Sound.noteRun (h : Sound age m t) (hv : validTopicLevel robot)
    (hroom : m.runs.Room robotCap robot)
    (hnew : run ∉ (m.runs.get robot).getD [] → ∀ ρ, Seen t robot ρ → ρ ≠ run → age robot ρ < age robot run) :
    Sound age (noteRun m robot run) (t ++ [.accepted robot run]) := by
  obtain ⟨hs, he, hl⟩ := noteRun_frame (m := m) robot run
  have hsize : (Acks.noteRun m robot run).runs.size ≤ robotCap := by
    unfold Acks.noteRun
    rw [if_pos hv]
    exact size_newest _ _
  have hruns := noteRun_runs hv hroom h.runs_size run
  have hup : ∀ r ρ top, latest m r = some top → ρ = top ∨ age r ρ < age r top →
      ∃ top', latest (Acks.noteRun m robot run) r = some top' ∧
        (ρ = top' ∨ age r ρ < age r top') := by
    intro r ρ top ht hρ
    rcases hruns with ⟨-, hr⟩ | ⟨hmem, hlast, hother, -⟩
    · exact ⟨top, (hr r).1.trans ht, hρ⟩
    · by_cases hr : r = robot
      · subst hr
        have hacc : Accepted t r top := h.runs_accepted r top (mem_of_getLast? ht)
        refine ⟨run, hlast, ?_⟩
        by_cases heq : top = run
        · exact heq ▸ hρ
        · have hlt := hnew hmem top (.inl hacc) heq
          rcases hρ with rfl | hρ
          · exact .inr hlt
          · exact .inr (hρ.trans hlt)
      · exact ⟨top, (hother r hr).trans ht, hρ⟩
  refine ⟨⟨hs ▸ h.states_size, hsize, fun r ρ hρ => ?_, fun r ρ hρ => ?_, fun r st hst => ?_,
    fun r st top hst ht => ?_, fun r ρ n hn => ?_, fun r st hst => ?_, fun k e hk hst hn hkv => ?_,
    fun k b sentAt hb => ?_⟩, grows_concat.mpr ⟨h.grows, trivial⟩⟩
  · rw [accepted_concat, Mark.accepted.injEq]
    rcases hruns with ⟨-, hr⟩ | ⟨-, -, -, hr⟩
    · rw [(hr r).2] at hρ
      exact .inl (h.runs_accepted r ρ hρ)
    · rcases hr r ρ hρ with hρ | ⟨rfl, rfl⟩
      · exact .inl (h.runs_accepted r ρ hρ)
      · exact .inr ⟨rfl, rfl⟩
  · rw [accepted_concat, Mark.accepted.injEq] at hρ
    rcases hρ with hρ | ⟨rfl, rfl⟩
    · obtain ⟨top, ht, hle⟩ := h.newest r ρ hρ
      exact hup r ρ top ht hle
    · rcases hruns with ⟨hmem, -⟩ | ⟨-, hlast, -⟩
      · obtain ⟨top, ht, hle⟩ := h.newest robot run (h.runs_accepted robot run hmem)
        exact hup robot run top ht hle
      · exact ⟨run, hlast, .inl rfl⟩
  · rw [hs] at hst
    exact (h.state_seen r st hst).append _
  · rw [hs] at hst
    rcases hruns with ⟨-, hr⟩ | ⟨hmem, hlast, hother, -⟩
    · rw [(hr r).1] at ht
      exact h.state_older r st top hst ht
    · by_cases hr : r = robot
      · subst hr
        rw [hlast] at ht
        obtain rfl := some_inj.mp ht
        exact or_iff_not_imp_left.mpr (hnew hmem st.run (h.state_seen r st hst))
      · rw [hother r hr] at ht
        exact h.state_older r st top hst ht
  · have hn' : Published t r ρ n ∨ Seeded t r ρ n := by
      simpa [published_concat, seeded_concat] using hn
    unfold Outdated
    rw [hs]
    rcases h.value r ρ n hn' with hst | hst | ⟨top, ht, hlt⟩
    · exact .inl hst
    · exact .inr (.inl hst)
    · obtain ⟨top', ht', hle⟩ := hup r top top ht (.inl rfl)
      refine .inr (.inr ⟨top', ht', ?_⟩)
      rcases hle with rfl | hle
      · exact hlt
      · exact hlt.trans hle
  · rw [hs] at hst
    exact (h.source r st hst).imp (·.append _) (mem_append_left _)
  · rw [he] at hk
    exact mem_append_left _ (h.tracked k e hk hst hn hkv)
  · rw [hl] at hb
    exact mem_append_left _ (h.acked k b sentAt hb)

lemma ack_frame (robot : Text) (run : Run) (sid : Sid) (status : Status)
    (reason : Option Reason) (resend : Resend) (stored missing : List Part)
    (complete : Option Bool) (sessionId ns : Option Text) (now : Int) :
    ∃ lastAck out, ack m robot run sid status reason resend stored missing complete sessionId ns
      now = ({ m with lastAck }, out) := by
  unfold Acks.ack
  split_ifs
  · simp only
    split_ifs
    · exact ⟨m.lastAck, [], rfl⟩
    · exact ⟨_, _, rfl⟩
  · exact ⟨m.lastAck, [], rfl⟩

def Live (t : List Mark) (key : Key) : Prop :=
  key.ns = none → validTopicLevel key.robot → Accepted t key.robot key.run

lemma Live.append (h : Live t key) (u : List Mark) : Live (t ++ u) key :=
  fun hn hv => mem_append_left _ (h hn hv)

def Roomy (m : Manager) (key : Key) : Prop :=
  key.ns = none → validTopicLevel key.robot → m.states.Room robotCap key.robot

lemma ack_complete_follows (h : Sound age m t) (hlive : Live t key)
    (hroom : Roomy m key) (status : Status) (stored missing : List Part)
    (sessionId : Option Text) (now later : Int) (g : Manager → Manager)
    (hg : ∀ m t, Sound age m t → Sound age (g m) t) (hgs : ∀ m, (g m).states = m.states) :
    Follows age t ((ack m key.robot key.run key.sid status none .none stored missing (some true)
      sessionId key.ns now).andThen fun m =>
        complete cfg (g m) key.robot key.run key.sid key.ns later) := by
  have hack := ack_follows h key.robot key.run key.sid status none .none stored missing (some true)
    sessionId key.ns now
  have hstates : (ack m key.robot key.run key.sid status none .none stored missing (some true)
      sessionId key.ns now).1.states = m.states := by
    obtain ⟨l, o, heq⟩ := ack_frame (m := m) key.robot key.run key.sid status none .none stored
      missing (some true) sessionId key.ns now
    rw [heq]
  refine Follows.andThen (complete_follows (hg _ _ hack) later (fun hn hv => ?_) (hlive.append _) ?_)
  · rw [hgs, hstates]
    exact hroom hn hv
  · intro n hn hv hsid
    rw [hn, hsid]
    exact ack_completed h hv key.run n status none .none stored missing sessionId now

lemma erase_then {x : Step} :
    (x.andThen fun m => ({ m with entries := m.entries.erase key }, [])).andThen f =
      x.andThen fun m => f { m with entries := m.entries.erase key } := by
  unfold Step.andThen
  simp

lemma final_follows (h : Sound age m t) (hlive : Live t key) (clock : Nat → Int)
    (e : Entry) (status : Status) (hroom : e.missing.items.isEmpty → Roomy m key) :
    Follows age t (final cfg clock m key e status) := by
  unfold final
  split_ifs with hnone
  · rw [erase_then]
    exact ack_complete_follows h hlive (hroom hnone) status e.declared [] e.sessionId (clock 1) (clock 2)
      (fun m => { m with entries := m.entries.erase key }) (fun _ _ hm => hm.erase key)
      fun _ => rfl
  · split
    · refine Follows.andThen (follows_nil ?_)
      exact Sound.erase (ack_follows h _ _ _ _ _ _ _ _ _ _ _ _) key
    · refine Follows.andThen (follows_nil ?_)
      exact Sound.set (ack_follows h _ _ _ _ _ _ _ _ _ _ _ _) key _ fun _ => hlive.append _

lemma evaluate_follows (h : Sound age m t) (hlive : Live t key) (clock : Nat → Int)
    (e : Entry) (status : Status) (hroom : e.missing.items.isEmpty → Roomy m key) :
    Follows age t (evaluate cfg clock m key e status) := by
  unfold evaluate
  split_ifs
  · exact follows_nil h
  · exact final_follows h hlive clock e status hroom

lemma begin_sound (h : Sound age m t) (clock : Nat → Int) (key : Key) (manifest : List Part)
    (sessionId : Option Text) : Sound age (begin cfg clock m key manifest sessionId) t := by
  unfold Acks.begin
  split_ifs
  · exact h
  · split
    · exact (h.set key _ fun hs => absurd rfl hs).evict
    · rename_i e he
      exact h.put key _ fun hs => h.tracked key e he hs

lemma track_sound (cfg : Config) (h : Sound age m t) (key : Key) (manifest : List Part) (sessionId : Option Text) :
    Sound age (track cfg m key manifest sessionId) t ∧ (track cfg m key manifest sessionId).states = m.states := by
  unfold track
  split
  · exact ⟨(h.set key _ fun hs => absurd rfl hs).evict, rfl⟩
  · exact ⟨h, rfl⟩

lemma accept_follows (h : Sound age m t) (hlive : Live t key) (hroom : Roomy m key)
    (clock : Nat → Int) (status : Status) (sessionId : Option Text) (manifest truth : List Part) :
    Follows age t (accept cfg clock m key status sessionId manifest truth) := by
  obtain ⟨h', hstates⟩ := track_sound cfg h key manifest sessionId
  unfold accept
  generalize track cfg m key manifest sessionId = m' at h' hstates
  have hroom' : Roomy m' key := by
    unfold Roomy
    rw [hstates]
    exact hroom
  simp only
  split
  · exact follows_nil h'
  · rename_i e he
    have hput := h'.put key { e with declared := manifest, sessionId, status := some status,
                                     since := clock 0, missing := .empty,
                                     stored := e.stored ∪ truth } fun _ => hlive
    split_ifs
    · exact final_follows hput hlive clock _ status fun _ => hroom'
    · exact ack_follows hput _ _ _ _ _ _ _ _ _ _ _ _
    · exact ack_follows hput _ _ _ _ _ _ _ _ _ _ _ _

lemma nodeFailed_follows (h : Sound age m t) (clock : Nat → Int) (key : Key) (reason : Reason)
    (manifest : List Part) (sessionId : Option Text) :
    Follows age t (nodeFailed clock m key reason manifest sessionId) :=
  ack_follows (h.erase key) _ _ _ _ _ _ _ _ _ _ _ _

lemma nodeAbandoned_follows (h : Sound age m t) (clock : Nat → Int) (key : Key)
    (manifest : List Part) (sessionId : Option Text) :
    Follows age t (nodeAbandoned clock m key manifest sessionId) := by
  unfold nodeAbandoned
  split
  · split_ifs
    · exact nodeFailed_follows h clock key _ manifest sessionId
    · exact follows_nil h
  · exact follows_nil h

lemma partStored_follows (h : Sound age m t) (clock : Nat → Int) (key : Key) (part : Part)
    (hroom : m.states.Room robotCap key.robot) :
    Follows age t (partStored cfg clock m key part) := by
  unfold partStored
  split
  · exact follows_nil h
  · rename_i e he
    have hset := h.set key { e with stored := e.stored.insert part, missing := e.missing.erase part }
      fun hs => h.tracked key e he hs
    simp only
    split
    · exact follows_nil hset
    · rename_i status hs
      have hlive : Live t key := h.tracked key e he (by rw [hs]; exact some_ne_none _)
      exact evaluate_follows hset hlive clock _ status fun _ _ _ => hroom

lemma setItem_ne_nil {κ α : Type} [DecidableEq κ] (k : κ) (v : α) (xs : List (κ × α)) :
    (Dict.setItem k v xs).isEmpty = false := by
  cases xs with
  | nil => rfl
  | cons e xs =>
    unfold Dict.setItem
    split_ifs <;> rfl

lemma partRejected_follows (h : Sound age m t) (clock : Nat → Int) (key : Key) (part : Part)
    (reason : Reason) (sessionId : Option Text) :
    Follows age t (partRejected cfg clock m key part reason sessionId) := by
  have halone := ack_follows h key.robot key.run key.sid .rejected (some reason)
    (if reason.retryable then .parts else .none) [] [part] (some false) sessionId key.ns (clock 0)
  unfold partRejected
  cases he : m.entries.get key with
  | none => exact halone
  | some e =>
    simp only
    by_cases hst : part ∈ e.stored
    · rw [if_pos hst]
      exact follows_nil h
    · rw [if_neg hst]
      cases hs : e.status with
      | none => exact halone
      | some status =>
        simp only
        by_cases hd : part ∈ e.declared
        · rw [if_pos hd]
          have hlive : Live t key := h.tracked key e he (by rw [hs]; exact some_ne_none _)
          refine evaluate_follows (h.set key _ fun _ => hlive) hlive clock _ status fun hn => ?_
          exact absurd hn (by rw [Dict.set, setItem_ne_nil]; exact Bool.false_ne_true)
        · rw [if_neg hd]
          exact halone

lemma noted_sound (h : Sound age m t) (key : Key) (status : Status) (sessionId : Option Text)
    (manifest : Option (List Part)) (truth : List Part)
    (hs : Steady cfg age m t now (.nodeOk key status sessionId manifest truth)) :
    Sound age (if key.ns = none then noteRun m key.robot key.run else m)
        (t ++ before (.nodeOk key status sessionId manifest truth)) ∧
      Live (t ++ before (.nodeOk key status sessionId manifest truth)) key ∧
      Roomy (if key.ns = none then noteRun m key.robot key.run else m) key := by
  by_cases hn : key.ns = none
  · by_cases hv : validTopicLevel key.robot
    · obtain ⟨hruns, hstates, hnew⟩ := hs hn hv
      simp only [before, hn, hv, and_self, if_true]
      refine ⟨h.noteRun hv hruns hnew, fun _ _ => accepted_concat.mpr (.inr rfl), fun _ _ => ?_⟩
      rw [(noteRun_frame key.robot key.run).1]
      exact hstates
    · simp only [before, hn, hv, Bool.false_eq_true, and_false, if_false, if_true, append_nil, noteRun]
      exact ⟨h, fun _ hv' => absurd hv' hv, fun _ hv' => absurd hv' hv⟩
  · simp only [before, hn, false_and, if_false, append_nil]
    exact ⟨h, fun hn' => absurd hn' hn, fun hn' => absurd hn' hn⟩

lemma nodeOk_follows (h : Sound age m t) (clock : Nat → Int) (key : Key) (status : Status)
    (sessionId : Option Text) (manifest : Option (List Part)) (truth : List Part)
    (hs : Steady cfg age m t now (.nodeOk key status sessionId manifest truth)) :
    Follows age (t ++ before (.nodeOk key status sessionId manifest truth))
      (nodeOk cfg clock m key status sessionId manifest truth) := by
  obtain ⟨h', hlive, hroom⟩ := noted_sound h key status sessionId manifest truth hs
  generalize t ++ before (.nodeOk key status sessionId manifest truth) = t' at h' hlive
  unfold nodeOk
  generalize (if key.ns = none then noteRun m key.robot key.run else m) = m' at h' hroom
  simp only
  split
  · exact ack_follows (h'.erase key) _ _ _ _ _ _ _ _ _ _ _ _
  · exact ack_complete_follows (h'.erase key) hlive hroom status [] [] sessionId (clock 0)
      (clock 1) id (fun _ _ hm => hm) fun _ => rfl
  · exact accept_follows h' hlive hroom clock status sessionId _ truth

def Unmarked (m : Manager) (x : Step) : Prop := x.1.states = m.states ∧ x.1.runs = m.runs

lemma ack_unmarked (robot : Text) (run : Run) (sid : Sid) (status : Status)
    (reason : Option Reason) (resend : Resend) (stored missing : List Part)
    (complete : Option Bool) (sessionId ns : Option Text) (now : Int) :
    Unmarked m (ack m robot run sid status reason resend stored missing complete sessionId ns now) := by
  obtain ⟨l, o, heq⟩ := ack_frame (m := m) robot run sid status reason resend stored missing
    complete sessionId ns now
  rw [heq]
  exact ⟨rfl, rfl⟩

lemma timeoutAck_follows (h : Sound age m t) (key : Key) (e : Entry) (status : Status)
    (now : Int) : Follows age t (timeoutAck m key e status now) ∧ Unmarked m (timeoutAck m key e status now) := by
  unfold timeoutAck
  split_ifs
  · exact ⟨follows_nil h, rfl, rfl⟩
  · exact ⟨ack_follows h _ _ _ _ _ _ _ _ _ _ _ _, ack_unmarked _ _ _ _ _ _ _ _ _ _ _ _⟩

lemma timeoutEntry_sound (h : Sound age m t) (hlive : Live t key) (e : Entry)
    (now : Int) : Sound age (timeoutEntry key e now m) t ∧ (timeoutEntry key e now m).states = m.states ∧
      (timeoutEntry key e now m).runs = m.runs := by
  unfold timeoutEntry
  split_ifs
  · exact ⟨h.erase key, rfl, rfl⟩
  · exact ⟨h.set key _ fun _ => hlive, rfl, rfl⟩

lemma flushEntry_follows (cfg : Config) (h : Sound age m t) (clock : Nat → Int)
    (item : Key × Entry) (reading : Nat) (hlive : item.2.status ≠ none → Live t item.1) :
    Follows age t (flushEntry cfg clock m item reading) ∧ Unmarked m (flushEntry cfg clock m item reading) := by
  obtain ⟨key, e⟩ := item
  unfold flushEntry
  simp only
  split
  · split_ifs
    · exact ⟨follows_nil (h.erase key), rfl, rfl⟩
    · exact ⟨follows_nil h, rfl, rfl⟩
  · rename_i status hs
    have hlive : Live t key := hlive (by rw [hs]; exact some_ne_none _)
    split_ifs
    · exact ⟨follows_nil h, rfl, rfl⟩
    · obtain ⟨hf, hst, hr⟩ := timeoutAck_follows h key e status (clock reading)
      obtain ⟨hf', hst', hr'⟩ := timeoutEntry_sound hf (hlive.append _) e (clock 0)
      exact ⟨Follows.andThen (follows_nil hf'), hst'.trans hst, hr'.trans hr⟩

lemma flushEntries_follows (cfg : Config) (clock : Nat → Int) (items : List (Key × Entry)) (reading : Nat)
    (h : Sound age m t) (hlive : ∀ item ∈ items, item.2.status ≠ none → Live t item.1) :
    Follows age t (flushEntries cfg clock items reading m) ∧ Unmarked m (flushEntries cfg clock items reading m) := by
  induction items generalizing m t reading with
  | nil => exact ⟨follows_nil h, rfl, rfl⟩
  | cons item rest ih =>
    obtain ⟨hf, hs, hr⟩ := flushEntry_follows cfg h clock item reading
      (hlive item mem_cons_self)
    obtain ⟨hf', hs', hr'⟩ := ih (reading + 1) hf fun x hx hst =>
      (hlive x (mem_cons_of_mem _ hx) hst).append _
    exact ⟨Follows.andThen hf', hs'.trans hs, hr'.trans hr⟩

lemma Sound.restate (h : Sound age m t) (f : Text → State → State)
    (hrun : ∀ r st, (f r st).run = st.run) (hhigh : ∀ r st, (f r st).highest = st.highest) :
    Sound age { m with states := m.states.map f } t := by
  have hget : ∀ r x, (m.states.map f).get r = some x →
      ∃ st, m.states.get r = some st ∧ x.run = st.run ∧ x.highest = st.highest := by
    intro r x hx
    rw [Dict.get_map] at hx
    obtain ⟨st, hst, rfl⟩ := map_eq_some_iff.mp hx
    exact ⟨st, hst, hrun r st, hhigh r st⟩
  have hback : ∀ r st, m.states.get r = some st → (m.states.map f).get r = some (f r st) := by
    intro r st hst
    rw [Dict.get_map, hst, map_some]
  refine ⟨⟨?_, h.runs_size, h.runs_accepted, h.newest, fun r x hx => ?_, fun r x top hx ht => ?_,
    fun r ρ n hn => ?_, fun r x hx => ?_, h.tracked, h.acked⟩, h.grows⟩
  · have hsize := h.states_size
    unfold Dict.size Dict.map at *
    rwa [length_map]
  · obtain ⟨st, hst, hr, -⟩ := hget r x hx
    exact hr ▸ h.state_seen r st hst
  · obtain ⟨st, hst, hr, -⟩ := hget r x hx
    exact hr ▸ h.state_older r st top hst ht
  · rcases h.value r ρ n hn with ⟨st, hst, hr, hle⟩ | ⟨st, hst, hlt⟩ | htop
    · exact .inl ⟨_, hback r st hst, (hrun r st).trans hr, (hhigh r st).symm ▸ hle⟩
    · exact .inr (.inl ⟨_, hback r st hst, (hrun r st).symm ▸ hlt⟩)
    · exact .inr (.inr htop)
  · obtain ⟨st, hst, hr, hh⟩ := hget r x hx
    rw [hr, hh]
    exact h.source r st hst

lemma publish_items (now : Int) (items : List (Text × State)) (h : Sound age m t)
    (hitems : ∀ x ∈ items, m.states.get x.1 = some x.2)
    (htop : ∀ x ∈ items, x.2.due cfg now → ∀ top, latest m x.1 = some top → x.2.run = top) :
    Sound age m (t ++ sent (items.flatMap fun x => (maybeState cfg x.1 x.2 now).2)) := by
  induction items generalizing t with
  | nil =>
    unfold sent
    rw [flatMap_nil, map_nil, append_nil]
    exact h
  | cons x rest ih =>
    have hx : Sound age m (t ++ sent (maybeState cfg x.1 x.2 now).2) := by
      unfold maybeState
      split_ifs with hdue
      · exact h.publish x.1 (hitems x mem_cons_self) (htop x mem_cons_self hdue)
      · unfold sent
        rw [map_nil, append_nil]
        exact h
    have hrest := ih hx (fun y hy => hitems y (mem_cons_of_mem _ hy)) fun y hy =>
      htop y (mem_cons_of_mem _ hy)
    unfold sent at *
    rw [flatMap_cons, map_append, ← append_assoc]
    exact hrest

lemma flush_follows (h : Sound age m t) (clock : Nat → Int)
    (hs : Steady cfg age m t (clock 0) .flush) : Follows age t (flush cfg clock m) := by
  have hlive : ∀ item ∈ m.entries.items, item.2.status ≠ none → Live t item.1 :=
    fun item hi hst => h.tracked item.1 item.2 (mem_items.mp hi) hst
  obtain ⟨hf, hstates, hruns⟩ := flushEntries_follows cfg clock m.entries.items 1 h hlive
  refine Follows.andThen ?_
  unfold Follows at *
  generalize t ++ sent (flushEntries cfg clock m.entries.items 1 m).2 = t' at *
  generalize (flushEntries cfg clock m.entries.items 1 m).1 = m' at *
  refine Sound.restate (publish_items (clock 0) m'.states.items hf (fun x hx => mem_items.mp hx)
    fun x hx hdue top ht => ?_) _ (fun r st => (maybeState_value r st _).1)
    fun r st => (maybeState_value r st _).2
  have hx := mem_items.mp hx
  unfold latest at ht
  rw [hstates] at hx
  rw [hruns] at ht
  exact hs x.1 x.2 hx hdue top ht

lemma Sound.seeded_known (h : Sound age m t) (hok : MarkOk age t (.seeded robot run n))
    (hval : (∃ st, m.states.get robot = some st ∧ st.run = run ∧ n ≤ st.highest) ∨
      Outdated age m robot run) : Sound age m (t ++ [.seeded robot run n]) := by
  refine ⟨⟨h.states_size, h.runs_size, fun r ρ hρ => mem_append_left _ (h.runs_accepted r ρ hρ), fun r ρ hρ => ?_,
    fun r x hx => (h.state_seen r x hx).append _, h.state_older, fun r ρ w hw => ?_,
    fun r x hx => ?_, fun k e he hs hn hv => mem_append_left _ (h.tracked k e he hs hn hv),
    fun k b sentAt hb => mem_append_left _ (h.acked k b sentAt hb)⟩,
    grows_concat.mpr ⟨h.grows, hok⟩⟩
  · exact h.newest r ρ (by simpa [accepted_concat] using hρ)
  · have hw' : (Published t r ρ w ∨ Seeded t r ρ w) ∨ robot = r ∧ run = ρ ∧ n = w := by
      simp only [published_concat, seeded_concat, Mark.seeded.injEq, reduceCtorEq, or_false] at hw
      tauto
    rcases hw' with hw' | ⟨rfl, rfl, rfl⟩
    · exact h.value r ρ w hw'
    · exact hval
  · exact (h.source r x hx).imp (·.append _) (mem_append_left _)

lemma seedState_sound (h : Sound age m t) (robot : Text) (run : Run)
    (highest : Option Int) (hs : Steady cfg age m t now (.seedState robot run highest)) :
    Sound age (seedState m robot run highest) (t ++ before (.seedState robot run highest)) := by
  cases highest with
  | none =>
    simp only [before, seedState, append_nil]
    exact h
  | some n =>
    by_cases hv : validTopicLevel robot
    · obtain ⟨hroom, hheld, hok⟩ := hs hv
      have hgrows : Grows age (t ++ [.seeded robot run n]) := grows_concat.mpr ⟨h.grows, hok⟩
      have hseeded : Seeded (t ++ [.seeded robot run n]) robot run n :=
        seeded_concat.mpr (.inr rfl)
      unfold seedState current at *
      simp only [before, hv, if_true, Bool.not_true, Bool.false_eq_true, if_false]
      cases hst : m.states.get robot with
      | none =>
        rw [hst] at hheld
        simp only [newest_set _ hroom h.states_size]
        refine h.state_append robot ⟨run, n, false, none⟩ _ (by simp) hgrows hroom
          (.inr ⟨n, hseeded⟩) (fun top ht => ?_) (.inr hseeded) fun old ho => ?_
        · exact or_iff_not_imp_left.mpr fun hne => hheld top ht (Ne.symm hne)
        · rw [hst] at ho
          cases ho
      | some st =>
        rw [hst] at hheld
        have hold : ∀ old, m.states.get robot = some old → old = st := fun old ho =>
          some_inj.mp (ho.symm.trans hst)
        simp only
        split_ifs with hne hlt hgt
        · exact h.seeded_known hok (.inr (.inl ⟨st, hst, hheld st.run rfl hne⟩))
        · obtain rfl := not_not.mp hne
          refine h.state_append robot { st with highest := n, dirty := st.publishedAt.isSome } _
            (by simp) hgrows hroom (.inr ⟨n, hseeded⟩)
            (fun top ht => h.state_older robot st top hst ht) (.inr hseeded) fun old ho => ?_
          rw [hold old ho]
          exact .inl ⟨rfl, hlt.le⟩
        · have hk := h.seeded_known hok (.inl ⟨st, hst, not_not.mp hne, hgt.le⟩)
          refine hk.state robot { st with dirty := true } hroom (hk.state_seen robot st hst)
            (fun top ht => hk.state_older robot st top hst ht) (hk.source robot st hst)
            fun old ho => ?_
          rw [hold old ho]
          exact .inl ⟨rfl, le_refl _⟩
        · exact h.seeded_known hok (.inl ⟨st, hst, not_not.mp hne, by omega⟩)
    · simp only [before, seedState, hv, Bool.false_eq_true, if_false, Bool.not_false, if_true, append_nil]
      exact h

lemma apply_follows (h : Sound age m t) (clock : Nat → Int) (e : Event) (hs : Steady cfg age m t (clock 0) e) :
    Follows age (t ++ before e) (e.apply cfg clock m) := by
  cases e with
  | begin key manifest sessionId =>
    rw [show t ++ before (.begin key manifest sessionId) = t from append_nil t]
    exact follows_nil (begin_sound h clock key manifest sessionId)
  | nodeOk key status sessionId manifest truth =>
    exact nodeOk_follows h clock key status sessionId manifest truth hs
  | nodeFailed key reason manifest sessionId =>
    rw [show t ++ before (.nodeFailed key reason manifest sessionId) = t from append_nil t]
    exact nodeFailed_follows h clock key reason manifest sessionId
  | nodeAbandoned key manifest sessionId =>
    rw [show t ++ before (.nodeAbandoned key manifest sessionId) = t from append_nil t]
    exact nodeAbandoned_follows h clock key manifest sessionId
  | partStored key part =>
    rw [show t ++ before (.partStored key part) = t from append_nil t]
    exact partStored_follows h clock key part hs
  | partRejected key part reason sessionId =>
    rw [show t ++ before (.partRejected key part reason sessionId) = t from append_nil t]
    exact partRejected_follows h clock key part reason sessionId
  | flush =>
    rw [show t ++ before .flush = t from append_nil t]
    exact flush_follows h clock hs
  | seedState robot run highest =>
    exact follows_nil (seedState_sound h robot run highest hs)

lemma sound_init : Sound age .init [] := by
  have hget : ∀ {κ α : Type} [DecidableEq κ] (k : κ) (v : α),
      (Dict.empty : Dict κ α).get k = some v → False := fun k v h => by cases h
  refine ⟨⟨Nat.zero_le _, Nat.zero_le _, ?_, ?_, fun r st hst => (hget r st hst).elim,
    fun r st _ hst => (hget r st hst).elim, ?_, fun r st hst => (hget r st hst).elim,
    fun k e he => (hget k e he).elim, fun k b sentAt hb => (hget k (b, sentAt) hb).elim⟩, ?_⟩
  · intro r ρ hρ
    exact absurd hρ not_mem_nil
  · intro r ρ hρ
    exact absurd hρ not_mem_nil
  · rintro r ρ n (hn | hn) <;> exact absurd hn not_mem_nil
  · intro b x hb
    exact absurd (prefix_nil.mp hb) (by simp)

lemma play_concat (events : List ((Nat → Int) × Event)) (e : (Nat → Int) × Event) :
    play cfg (events ++ [e]) = ((e.2.apply cfg e.1 (play cfg events).1).1,
      (play cfg events).2 ++ before e.2 ++ sent (e.2.apply cfg e.1 (play cfg events).1).2) := by
  unfold play
  rw [foldl_append]
  rfl

lemma play_sound (events : List ((Nat → Int) × Event)) (h : Orderly cfg age events) :
    Sound age (play cfg events).1 (play cfg events).2 := by
  induction events using List.reverseRecOn with
  | nil => exact sound_init
  | append_singleton events e ih =>
    have hpast : Orderly cfg age events := fun past x hx =>
      h past x (hx.trans (prefix_append events [e]))
    rw [play_concat]
    exact apply_follows (ih hpast) e.1 e.2 (h events e (prefix_refl _))

/-- In every run whose steps are all steady the published high-water mark only grows. -/
theorem high_water_mark_grows (cfg : Config) (age : Text → Run → ℕ)
    (events : List ((Nat → Int) × Event)) (h : Orderly cfg age events) :
    Grows age (play cfg events).2 := (play_sound events h).grows

lemma orderly_concat {events : List ((Nat → Int) × Event)} {e : (Nat → Int) × Event} (h : Orderly cfg age events)
    (hs : Steady cfg age (play cfg events).1 (play cfg events).2 (e.1 0) e.2) :
    Orderly cfg age (events ++ [e]) := by
  intro past x hx
  rcases prefix_concat_iff.mp hx with heq | hx
  · obtain ⟨rfl, hy⟩ := append_inj' heq rfl
    rw [singleton_inj.mp hy]
    exact hs
  · exact h past x hx

def bareNode (run : Char) (n : Int) : (Nat → Int) × Event :=
  (fun _ => 0, .nodeOk ⟨['r'], some [run], .int n, none⟩ .accepted none (some []) [])

def sampleConfig : Config := ⟨120000, 20000, 1000⟩

def seedFour : (Nat → Int) × Event := (fun _ => 0, .seedState ['r'] (some ['a']) (some 4))

/-- A retained value, two nodes of its run and the pass that publishes the second. -/
theorem high_water_mark_grows_seeded :
    Grows (fun _ _ => 0) (play sampleConfig
      ([] ++ [seedFour] ++ [bareNode 'a' 7] ++ [bareNode 'a' 8] ++ [(fun _ => 2000, .flush)])).2 := by
  have hseen : ∀ run, Seen [.seeded ['r'] (some ['a']) 4] ['r'] run → run = some ['a'] := by
    rintro run (h | ⟨n, h⟩)
    · cases mem_singleton.mp h
    · cases mem_singleton.mp h
      rfl
  refine high_water_mark_grows sampleConfig (fun _ _ => 0) _ (orderly_concat (orderly_concat
    (orderly_concat (orderly_concat ?_ ?_) ?_) ?_) ?_)
  · exact fun past e he => absurd (prefix_nil.mp he) (by simp)
  · refine fun _ => ⟨by decide, fun held hheld => ?_, .inr fun w hw => absurd hw not_mem_nil⟩
    cases hheld
  · exact fun _ _ => ⟨by decide, by decide, fun _ run hs hne => absurd (hseen run hs) hne⟩
  · refine fun _ _ => ⟨by decide, by decide, fun hmem => absurd ?_ hmem⟩
    decide
  · intro robot st hst _ run hrun
    have hitems : (play sampleConfig ([] ++ [seedFour] ++ [bareNode 'a' 7] ++
        [bareNode 'a' 8])).1.states.items = [(['r'], ⟨some ['a'], 8, true, some 0⟩)] := by decide
    have hmem := mem_items.mpr hst
    rw [hitems, mem_singleton, Prod.mk.injEq] at hmem
    obtain ⟨rfl, rfl⟩ := hmem
    exact some_inj.mp hrun

/-- The ninth run pushes the first one out of the list of runs seen: a late node of the first run
makes it the latest again and a lower value is published. -/
theorem late_node_lowers_mark : ¬ ∃ age : Text → Run → ℕ, Grows age (play sampleConfig
    ([bareNode '1' 5] ++ ['2', '3', '4', '5', '6', '7', '8', '9'].map (bareNode · 1) ++
      [bareNode '1' 3])).2 := by
  rintro ⟨age, h⟩
  have hlast := h (play sampleConfig ([bareNode '1' 5] ++
      ['2', '3', '4', '5', '6', '7', '8', '9'].map (bareNode · 1) ++ [bareNode '1' 3])).2.dropLast
    (.sent (.state ['r'] (some ['1']) 3)) (by decide)
  exact absurd (hlast.1 5 (.inl (by unfold Published; decide))) (by decide)

end CloudServer.AckMark
