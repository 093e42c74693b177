import CloudServer.StateQueuesOrder

/-! Newest-state queueing keeps the order of the messages and handles the newest state. -/
namespace CloudServer.StateQueues

open Mailbox List Option

variable {κ R S O : Type} [DecidableEq κ]

structure Run (parse : R → Option S) (σ : ℕ → System κ R S O) (act : ℕ → Act κ R S O) : Prop where
  init : σ 0 = .new κ R S O
  step : ∀ n, step parse (σ n) (act n) = some (σ (n + 1))

structure Fair (σ : ℕ → System κ R S O) (act : ℕ → Act κ R S O) : Prop where
  get : ∀ n, (σ n).server.work = .idle → (σ n).server.mqtt_messages.hand = none →
    (σ n).server.mqtt_messages.queue ≠ [] → ∃ m, n ≤ m ∧ act m = .get
  take : ∀ n, (σ n).server.mqtt_messages.hand ≠ none → ∃ m, n ≤ m ∧ act m = .take
  process : ∀ n x, (σ n).server.work = .process x → ∃ m, n ≤ m ∧ act m = .process
  answer : ∀ n x, (σ n).server.work = .lookup x → ∃ m, n ≤ m ∧ ∃ found, act m = .answer found
  robot_get : ∀ k n, ((σ n).robots k).busy = false → ((σ n).robots k).messages.hand = none →
    ((σ n).robots k).messages.queue ≠ [] → ∃ m, n ≤ m ∧ act m = .robot_get k
  robot_take : ∀ k n, ((σ n).robots k).messages.hand ≠ none → ∃ m, n ≤ m ∧ act m = .robot_take k
  robot_finish : ∀ k n, ((σ n).robots k).busy = true → ∃ m, n ≤ m ∧ act m = .robot_finish k

section
variable {parse : R → Option S} {σ : ℕ → System κ R S O} {act : ℕ → Act κ R S O}

lemma empty_sound {M ι : Type} [DecidableEq ι] {key : M → ι} {state : M → Bool} :
    (Box.empty M).Sound key state :=
  ⟨⟨rfl, fun _ => List.Sublist.refl _, nofun⟩, rfl, nofun⟩

lemma new_kept : (System.new κ R S O).Kept parse :=
  ⟨⟨empty_sound, rfl, nofun, nofun⟩, fun _ => ⟨empty_sound, nofun, nofun⟩⟩

lemma Run.kept (h : Run parse σ act) (n : ℕ) : (σ n).Kept parse := by
  induction n with
  | zero =>
    rw [h.init]
    exact new_kept
  | succ n ih => exact (step_changes ih (h.step n)).kept

lemma Run.changes (h : Run parse σ act) (n : ℕ) : Changes parse (σ n) (σ (n + 1)) :=
  step_changes (h.kept n) (h.step n)

/-! ### The server's loop -/

lemma server_free (h : Run parse σ act) (hfair : Fair σ act) (n : ℕ) :
    ∃ m, n ≤ m ∧ (σ m).server.work = .idle := by
  have hlookup : ∀ m x, (σ m).server.work = .lookup x →
      ∃ k, m ≤ k ∧ (σ k).server.work = .idle := by
    intro m x hx
    obtain ⟨k, hk, found, hact⟩ := hfair.answer m x hx
    have hstep := h.step k
    rw [hact] at hstep
    exact ⟨k + 1, by omega, answer_idle hstep⟩
  cases hw : (σ n).server.work with
  | idle => exact ⟨n, le_rfl, hw⟩
  | lookup x => exact hlookup n x hw
  | process x =>
    obtain ⟨m, hm, hact⟩ := hfair.process n x hw
    have hstep := h.step m
    rw [hact] at hstep
    rcases process_idle hstep with hidle | ⟨y, hy⟩
    · exact ⟨m + 1, by omega, hidle⟩
    · obtain ⟨k, hk, hidle⟩ := hlookup (m + 1) y hy
      exact ⟨k, by omega, hidle⟩

lemma server_pops (h : Run parse σ act) (hfair : Fair σ act) (n : ℕ)
    (hn : (σ n).server.mqtt_messages.waiting ≠ []) : ∃ m, n ≤ m ∧
      Pops (σ m).server.mqtt_messages (σ (m + 1)).server.mqtt_messages := by
  refine pops_of_fair (fun n => (h.changes n).server) (fun n => (σ n).server.work = .idle)
    (server_free h hfair) (fun n hidle hhand hqueue => ?_) (fun n hhand => ?_) n hn
  · obtain ⟨m, hm, hact⟩ := hfair.get n hidle hhand hqueue
    have hstep := h.step m
    rw [hact] at hstep
    obtain ⟨V, hV, heq⟩ := map_eq_some_iff.mp hstep
    refine ⟨m + 1, by omega, ?_⟩
    rw [← heq]
    exact get_hand hV
  · obtain ⟨m, hm, hact⟩ := hfair.take n hhand
    have hstep := h.step m
    rw [hact] at hstep
    obtain ⟨V, hV, heq⟩ := map_eq_some_iff.mp hstep
    obtain ⟨entry, box, item, hbox, -, hmess, -⟩ := take_cases hV
    refine ⟨m, hm, ?_⟩
    rw [← heq]
    exact hmess ▸ Box.take_pops hbox

/-! ### A robot's loop -/

lemma robot_free (h : Run parse σ act) (hfair : Fair σ act) (k : κ) (n : ℕ) :
    ∃ m, n ≤ m ∧ ((σ m).robots k).busy = false := by
  cases hb : ((σ n).robots k).busy with
  | false => exact ⟨n, le_rfl, hb⟩
  | true =>
    obtain ⟨m, hm, hact⟩ := hfair.robot_finish k n hb
    have hstep := h.step m
    rw [hact] at hstep
    obtain ⟨A, hA, heq⟩ := map_eq_some_iff.mp hstep
    refine ⟨m + 1, by omega, ?_⟩
    rw [← heq]
    simp only [Function.update_self]
    unfold Robot.finish at hA
    split at hA
    · cases hA
      rfl
    · cases hA

lemma robot_pops (h : Run parse σ act) (hfair : Fair σ act) (k : κ) (n : ℕ)
    (hn : ((σ n).robots k).messages.waiting ≠ []) : ∃ m, n ≤ m ∧
      Pops ((σ m).robots k).messages ((σ (m + 1)).robots k).messages := by
  refine pops_of_fair (fun n => (h.changes n).robots k) (fun n => ((σ n).robots k).busy = false)
    (robot_free h hfair k) (fun n hfree hhand hqueue => ?_) (fun n hhand => ?_) n hn
  · obtain ⟨m, hm, hact⟩ := hfair.robot_get k n hfree hhand hqueue
    have hstep := h.step m
    rw [hact] at hstep
    obtain ⟨A, hA, heq⟩ := map_eq_some_iff.mp hstep
    refine ⟨m + 1, by omega, ?_⟩
    rw [← heq]
    simp only [Function.update_self]
    exact robot_get_hand hA
  · obtain ⟨m, hm, hact⟩ := hfair.robot_take k n hhand
    have hstep := h.step m
    rw [hact] at hstep
    obtain ⟨A, hA, heq⟩ := map_eq_some_iff.mp hstep
    obtain ⟨entry, hbox, -⟩ := robot_take_cases hA
    refine ⟨m, hm, ?_⟩
    rw [← heq]
    simp only [Function.update_self]
    exact Box.take_pops hbox

omit [DecidableEq κ] in
lemma readable_other (parse : R → Option S) (m : Message κ R S O) (h : m.is_state = false) :
    m.readable parse = true := by
  cases m with
  | raw | status => cases h
  | connection | client => rfl

/-! ### Finite runs -/

def play (parse : R → Option S) (acts : List (Act κ R S O)) : ℕ → System κ R S O
  | 0 => .new κ R S O
  | n + 1 => (step parse (play parse acts n) (acts.getD n .other)).getD (play parse acts n)

lemma play_run {acts : List (Act κ R S O)} (h : ∀ n < acts.length,
    (step parse (play parse acts n) (acts.getD n .other)).isSome = true) :
    Run parse (play parse acts) fun n => acts.getD n .other := by
  refine ⟨rfl, fun n => ?_⟩
  have hsome : (step parse (play parse acts n) (acts.getD n .other)).isSome = true := by
    by_cases hn : n < acts.length
    · exact h n hn
    · rw [getD_eq_default _ _ (by omega)]
      rfl
  obtain ⟨T, hT⟩ := isSome_iff_exists.mp hsome
  change _ = some ((step parse (play parse acts n) (acts.getD n .other)).getD _)
  rw [hT]
  rfl

lemma play_after {acts : List (Act κ R S O)} (n : ℕ) :
    play parse acts n = play parse acts (min n acts.length) := by
  induction n with
  | zero => rw [Nat.zero_min]
  | succ n ih =>
    by_cases hn : n < acts.length
    · rw [Nat.min_eq_left hn]
    · rw [Nat.min_eq_right (by omega)] at ih ⊢
      rw [← ih]
      change (step parse (play parse acts n) (acts.getD n .other)).getD _ = _
      rw [getD_eq_default _ _ (by omega)]
      rfl

abbrev ServerServed (σ : System Unit R S O) (acts : List (Act Unit R S O)) : Prop :=
  (σ.server.work matches .idle → σ.server.mqtt_messages.hand.isNone →
    σ.server.mqtt_messages.queue.isEmpty = false → .get ∈ acts) ∧
  (σ.server.mqtt_messages.hand.isSome → .take ∈ acts) ∧
  (σ.server.work matches .process _ → .process ∈ acts) ∧
  (σ.server.work matches .lookup _ → acts.any (· matches .answer _))

abbrev RobotServed (A : Robot S O) (acts : List (Act Unit R S O)) : Prop :=
  (A.busy = false → A.messages.hand.isNone → A.messages.queue.isEmpty = false →
    .robot_get () ∈ acts) ∧
  (A.messages.hand.isSome → .robot_take () ∈ acts) ∧
  (A.busy = true → .robot_finish () ∈ acts)

lemma fair_of_play {acts : List (Act Unit R S O)}
    (hserver : ∀ n < acts.length + 1, ServerServed (play parse acts n) (acts.drop n))
    (hrobot : ∀ n < acts.length + 1, RobotServed ((play parse acts n).robots ()) (acts.drop n)) :
    Fair (play parse acts) fun n => acts.getD n .other := by
  have hdrop : ∀ n, acts.drop (min n acts.length) = acts.drop n := by
    intro n
    rcases Nat.le_total n acts.length with hn | hn
    · rw [Nat.min_eq_left hn]
    · rw [Nat.min_eq_right hn, drop_length, drop_eq_nil_of_le hn]
  have hserved : ∀ n, ServerServed (play parse acts n) (acts.drop n) := by
    intro n
    have hmin := hserver (min n acts.length) (by omega)
    rwa [← play_after, hdrop] at hmin
  have hserved' : ∀ n, RobotServed ((play parse acts n).robots ()) (acts.drop n) := by
    intro n
    have hmin := hrobot (min n acts.length) (by omega)
    rwa [← play_after, hdrop] at hmin
  have hlater : ∀ {n : ℕ} {a : Act Unit R S O}, a ∈ acts.drop n →
      ∃ m, n ≤ m ∧ acts.getD m .other = a := by
    intro n a hmem
    obtain ⟨i, hi, heq⟩ := mem_iff_getElem.mp hmem
    rw [getElem_drop] at heq
    exact ⟨n + i, by omega, by rw [getD_eq_getElem _ _ (by simp at hi; omega), heq]⟩
  have hempty : ∀ {X : Type} {l : List X}, l ≠ [] → l.isEmpty = false := fun h =>
    Bool.eq_false_iff.mpr fun he => h (isEmpty_iff.mp he)
  refine ⟨fun n hw hh hq => ?_, fun n hh => ?_, fun n x hw => ?_, fun n x hw => ?_,
    fun k n hb hh hq => ?_, fun k n hh => ?_, fun k n hb => ?_⟩
  · exact hlater ((hserved n).1 (by rw [hw]) (by rw [hh]; rfl) (hempty hq))
  · exact hlater ((hserved n).2.1 (isSome_iff_ne_none.mpr hh))
  · exact hlater ((hserved n).2.2.1 (by rw [hw]))
  · obtain ⟨a, ha, hmatch⟩ := any_eq_true.mp ((hserved n).2.2.2 (by rw [hw]))
    obtain ⟨m, hm, heq⟩ := hlater ha
    cases a with
    | answer found => exact ⟨m, hm, found, heq⟩
    | _ => cases hmatch
  · exact hlater ((hserved' n).1 hb (by rw [hh]; rfl) (hempty hq))
  · exact hlater ((hserved' n).2.1 (isSome_iff_ne_none.mpr hh))
  · exact hlater ((hserved' n).2.2 hb)

/-! ### The newest state -/

/-- In both queues others are handled exactly once and in order, a robot's messages in order, and a
state that can be parsed is left out only for a newer one; the newest is handled. -/
theorem newest_states (h : Run parse σ act) :
    (∀ n, Delivered Message.name Message.is_state (Message.readable parse)
        (σ n).server.mqtt_messages.arrived (σ n).server.mqtt_messages.pending
        (σ n).server.handled ∧
      ∀ k, Delivered (fun _ => ()) RobotMessage.is_state (fun _ => true)
        ((σ n).robots k).messages.arrived ((σ n).robots k).messages.pending
        ((σ n).robots k).messages.taken) ∧
    (Fair σ act →
      Answered Message.name Message.is_state (Message.readable parse)
        (fun n => (σ n).server.mqtt_messages.arrived) (fun n => (σ n).server.handled) ∧
      ∀ k, Answered (fun _ => ()) RobotMessage.is_state (fun _ => true)
        (fun n => ((σ n).robots k).messages.arrived)
        fun n => ((σ n).robots k).messages.taken) := by
  have hall : ∀ l : List (Item (RobotMessage S O)), l.filter (fun _ => true) = l := fun l =>
    filter_eq_self.mpr fun _ _ => rfl
  refine ⟨fun n => ⟨?_, fun k => ?_⟩, fun hfair => ⟨?_, fun k => ?_⟩⟩
  · rw [(h.kept n).server.handled]
    exact (h.kept n).server.sound.delivered _ (readable_other parse)
  · have hd := ((h.kept n).robots k).sound.delivered (fun _ => true) fun _ _ => rfl
    rw [hall] at hd
    exact hd
  · have ha := answered_of_fair _ (readable_other parse) (fun n => (h.kept n).server.sound)
      (fun n => (h.changes n).server) (server_pops h hfair)
    have heq : (fun n => (σ n).server.handled) = fun n =>
        (σ n).server.mqtt_messages.taken.filter fun i => i.body.readable parse :=
      funext fun n => (h.kept n).server.handled
    rw [heq]
    exact ha
  · have ha := answered_of_fair (fun _ => true) (fun _ _ => rfl)
      (fun n => ((h.kept n).robots k).sound) (fun n => (h.changes n).robots k)
      (robot_pops h hfair k)
    simp only [hall] at ha
    exact ha


def parse_bit (payload : Bool) : Option Unit := if payload then some () else none

/-- A state arrives and goes through the server's queue and its robot's, found in the database. -/
def relayed : List (Act Unit Bool Unit Unit) :=
  [.enqueue (.raw () true), .get, .take, .process, .answer (some ()), .robot_get (),
    .robot_take (), .robot_finish (), .robot_get (), .robot_take (), .robot_finish ()]

def garbled : List (Act Unit Bool Unit Unit) :=
  [.enqueue (.raw () true), .enqueue (.raw () false), .get, .take]

lemma relayed_run : Run parse_bit (play parse_bit relayed) fun n => relayed.getD n .other :=
  play_run (by decide)

set_option synthInstance.maxSize 1000 in
lemma relayed_fair : Fair (play parse_bit relayed) fun n => relayed.getD n .other :=
  fair_of_play (by decide) (by decide)

lemma garbled_run : Run parse_bit (play parse_bit garbled) fun n => garbled.getD n .other :=
  play_run (by decide)

set_option synthInstance.maxSize 1000 in
lemma garbled_fair : Fair (play parse_bit garbled) fun n => garbled.getD n .other :=
  fair_of_play (by decide) (by decide)

theorem newest_states_relayed :
    (∃ n, (⟨0, .raw () true⟩ : Item (Message Unit Bool Unit Unit)) ∈
      (play parse_bit relayed n).server.handled) ∧
      ∃ n, (⟨1, .state ()⟩ : Item (RobotMessage Unit Unit)) ∈
        ((play parse_bit relayed n).robots ()).messages.taken := by
  obtain ⟨-, hlive⟩ := newest_states relayed_run
  obtain ⟨hserver, hrobot⟩ := hlive relayed_fair
  refine ⟨hserver.newest 1 _ (by decide) rfl fun m j hj hnew => ?_,
    (hrobot ()).newest 5 _ (by decide) rfl fun m j hj hnew => ?_⟩
  · have hall : ∀ n < relayed.length + 1, ∀ j ∈ (play parse_bit relayed n).server.mqtt_messages.arrived,
        j.number = 0 := by decide
    rw [play_after] at hj
    have hzero := hall _ (by omega) j hj
    exact absurd hnew.number (by rw [hzero]; exact lt_irrefl 0)
  · have hall : ∀ n < relayed.length + 1,
        ∀ j ∈ ((play parse_bit relayed n).robots ()).messages.arrived, j.number ≤ 1 := by decide
    rw [play_after] at hj
    exact absurd hnew.number (Nat.not_lt.mpr (hall _ (by omega) j hj))

/-- The newest state, which cannot be parsed, has taken the place of one that could: none is
handled. -/
theorem garbled_not_handled :
    Run parse_bit (play parse_bit garbled) (fun n => garbled.getD n .other) ∧
      Fair (play parse_bit garbled) (fun n => garbled.getD n .other) ∧
      (play parse_bit garbled 2).server.mqtt_messages.arrived =
        [⟨0, .raw () true⟩, ⟨1, .raw () false⟩] ∧
      (∀ m, ∀ j ∈ (play parse_bit garbled m).server.mqtt_messages.arrived, j.number ≤ 1) ∧
      ∀ m, (play parse_bit garbled m).server.handled = [] := by
  have harrived : ∀ n < garbled.length + 1,
      ∀ j ∈ (play parse_bit garbled n).server.mqtt_messages.arrived, j.number ≤ 1 := by decide
  have hhandled : ∀ n < garbled.length + 1, (play parse_bit garbled n).server.handled = [] := by
    decide
  refine ⟨garbled_run, garbled_fair, rfl, fun m j hj => ?_, fun m => ?_⟩
  · rw [play_after] at hj
    exact harrived _ (by omega) j hj
  · rw [play_after]
    exact hhandled _ (by omega)

end
end CloudServer.StateQueues
