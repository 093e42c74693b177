import CloudServer.MissionTimeout

/-! The mission timeout counts only running time: at most one timer counts, and a mission is ended
by the timeout only if what it ran is at least its timeout. -/
namespace CloudServer.MissionTimeout

open Steps List

variable {κ : Type}

structure TimersKept (A : Robot κ) : Prop where
  task : ∀ i, A.mission_timeout_task = some i →
    i + 1 = A.timers.length ∧ ∃ b x, A.timers[i]? = some (b, x) ∧ A.timeout_budget = some b
  budget : A.mission_timeout_task = none → A.timeout_budget = none
  single : ∀ (i : ℕ) (b : Budget κ), A.timers[i]? = some (b, .sleeping) → A.mission_timeout_task = some i
  fired : ∀ (i : ℕ) (b : Budget κ), A.timers[i]? = some (b, .fired) → b.started + b.budget ≤ A.now
  order : ∀ (i j : ℕ) (b c : Budget κ) (x : Timer), i < j → A.timers[i]? = some (b, .fired) → A.timers[j]? = some (c, x) →
    b.started + b.budget ≤ c.started
  messages : ∀ p ∈ A.messages, A.timers[p.1]? = some (p.2, .fired)

structure CountKept (A : Robot κ) : Prop where
  armed : ∀ b, A.timeout_budget = some b → b.name ∈ A.armed
  paused : ∀ name left, A.timeout_paused = some (name, left) → name ∈ A.armed
  picked : ∀ m, A.current_mission = some m → A.dispatched = false → m.name ∈ A.armed →
    m.state ≠ .running
  running : ∀ m b, A.current_mission = some m → A.dispatched = true →
    A.timeout_budget = some b → b.name = m.name →
    ∃ timeout, m.timeout = some timeout ∧ timeout ≤ b.started - A.since - A.idle + b.budget
  waiting : ∀ m timeout left, A.current_mission = some m → A.dispatched = true →
    A.timeout_paused = some (m.name, left) → m.timeout = some timeout →
    timeout ≤ A.paused_at - A.since - A.idle + left
  full : ∀ m, A.current_mission = some m → A.dispatched = true → A.resumed = false →
    A.since = A.full m.name ∧ A.idle = A.offline m.name

/-- The timeout ended a mission that ran, was not blocked and had used up its timeout; the message
was of the timer armed last, or of one armed at the same time with nothing left. -/
structure Ending.Due (e : Ending κ) : Prop where
  state : e.mission.state = .running
  blocked : e.mission.blocked = false
  timeout : ∃ timeout, e.mission.timeout = some timeout ∧ timeout ≤ e.time - e.since - e.idle
  full : e.resumed = false → e.since = e.full ∧ e.idle = e.offline
  timer : e.task = some e.timer ∨ e.token.budget ≤ 0

structure Kept (A : Robot κ) : Prop where
  timers : TimersKept A
  count : CountKept A
  ended : ∀ e ∈ A.ended, e.Due

section
variable {A A' : Robot κ} {mission : Mission κ}

/-! ### Timers -/

lemma cancelled_get (timers : List (Budget κ × Timer)) (i j : ℕ) :
    (cancelled timers i)[j]? = timers[j]?.map fun x =>
      if i = j then (x.1, if x.2 = .sleeping then .cancelled else x.2) else x := by
  unfold cancelled
  rw [List.getElem?_modify]
  rfl

lemma cancel_get (h : TimersKept A) (j : ℕ) (b : Budget κ) (x : Timer)
    (hj : (cancel_mission_timeout A).timers[j]? = some (b, x)) :
    x ≠ .sleeping ∧ (∃ y, A.timers[j]? = some (b, y)) ∧ (x = .fired → A.timers[j]? = some (b, .fired)) := by
  unfold cancel_mission_timeout at hj
  simp only at hj
  cases htask : A.mission_timeout_task with
  | none =>
    rw [htask] at hj
    refine ⟨?_, ⟨x, hj⟩, ?_⟩
    · rintro rfl
      rw [h.single j b hj] at htask
      cases htask
    · rintro rfl
      exact hj
  | some i =>
    rw [htask] at hj
    simp only [cancelled_get] at hj
    obtain ⟨⟨c, y⟩, hy, heq⟩ := Option.map_eq_some_iff.mp hj
    by_cases hij : i = j
    · rw [if_pos hij] at heq
      obtain ⟨rfl, rfl⟩ := Prod.mk.inj heq
      refine ⟨?_, ⟨y, hy⟩, ?_⟩
      · split
        · nofun
        · assumption
      · split
        · nofun
        · rintro rfl
          exact hy
    · rw [if_neg hij] at heq
      obtain ⟨rfl, rfl⟩ := Prod.mk.inj heq
      refine ⟨?_, ⟨y, hy⟩, ?_⟩
      · rintro rfl
        rw [h.single j c hy] at htask
        exact hij (Option.some.inj htask).symm
      · rintro rfl
        exact hy

lemma cancel_get_fired (A : Robot κ) {j : ℕ} {b : Budget κ} (hj : A.timers[j]? = some (b, .fired)) :
    (cancel_mission_timeout A).timers[j]? = some (b, .fired) := by
  unfold cancel_mission_timeout
  simp only
  split
  · rw [cancelled_get, hj]
    simp
  · exact hj

lemma cancel_kept (h : TimersKept A) : TimersKept (cancel_mission_timeout A) := by
  refine ⟨?_, fun _ => rfl, fun i b hi => ?_, fun i b hi => ?_, fun i j b c x hij hi hj => ?_,
    fun p hp => cancel_get_fired A (h.messages p hp)⟩
  · simp [cancel_mission_timeout]
  · exact absurd rfl (cancel_get h i b _ hi).1
  · exact h.fired i b ((cancel_get h i b _ hi).2.2 rfl)
  · obtain ⟨y, hy⟩ := (cancel_get h j c x hj).2.1
    exact h.order i j b c y hij ((cancel_get h i b _ hi).2.2 rfl) hy

lemma arm_cases (A : Robot κ) (left : Option ℚ) :
    (A.current_mission.bind (·.timeout) = none ∧ arm_mission_timeout A left = cancel_mission_timeout A) ∨
    ∃ m timeout, A.current_mission = some m ∧ m.timeout = some timeout ∧
      arm_mission_timeout A left = { cancel_mission_timeout A with
        timeout_budget := some ⟨m.name, left.getD timeout, A.now⟩
        mission_timeout_task := some (cancel_mission_timeout A).timers.length
        timers := (cancel_mission_timeout A).timers ++
          [(⟨m.name, left.getD timeout, A.now⟩, .sleeping)]
        armed := m.name :: A.armed } := by
  unfold arm_mission_timeout
  simp only
  split
  · rename_i hnone
    have hcur : A.current_mission = none := hnone
    exact .inl ⟨by rw [hcur]; rfl, rfl⟩
  · rename_i m hm
    have hcur : A.current_mission = some m := hm
    split
    · rename_i ht
      exact .inl ⟨by rw [hcur]; exact ht, rfl⟩
    · rename_i timeout ht
      exact .inr ⟨m, timeout, hcur, ht, rfl⟩

lemma arm_kept (h : TimersKept A) (left : Option ℚ) : TimersKept (arm_mission_timeout A left) := by
  have hc := cancel_kept h
  rcases arm_cases A left with ⟨-, heq⟩ | ⟨m, timeout, -, -, heq⟩
  · rw [heq]
    exact hc
  · rw [heq]
    have hnow : (cancel_mission_timeout A).now = A.now := rfl
    refine ⟨fun i hi => ?_, by simp, fun i b hi => ?_, fun i b hi => ?_, fun i j b c x hij hi hj => ?_, fun p hp => ?_⟩
    · cases hi
      refine ⟨by simp, _, .sleeping, ?_, rfl⟩
      simp only [List.getElem?_append_right (le_refl _), Nat.sub_self, List.getElem?_cons_zero]
    · simp only [List.getElem?_append] at hi
      split at hi
      · exact absurd (hc.single i b hi) nofun
      · obtain ⟨hlt, -⟩ := List.getElem?_eq_some_iff.mp hi
        simp only [length_singleton] at hlt
        exact congrArg some (by omega)
    · simp only [List.getElem?_append] at hi
      split at hi
      · exact hc.fired i b hi
      · obtain ⟨hlt, heq⟩ := List.getElem?_eq_some_iff.mp hi
        simp only [getElem_singleton] at heq
        cases (Prod.mk.inj heq).2
    · simp only [List.getElem?_append] at hi hj
      split at hi
      · split at hj
        · exact hc.order i j b c x hij hi hj
        · obtain ⟨hlt, heq⟩ := List.getElem?_eq_some_iff.mp hj
          simp only [getElem_singleton] at heq
          obtain ⟨rfl, rfl⟩ := Prod.mk.inj heq
          exact hc.fired i b hi
      · obtain ⟨hlt, heq⟩ := List.getElem?_eq_some_iff.mp hi
        simp only [getElem_singleton] at heq
        cases (Prod.mk.inj heq).2
    · have hmem := hc.messages p hp
      simp only
      rw [List.getElem?_append_left (List.getElem?_eq_some_iff.mp hmem).1]
      exact hmem


lemma fire_kept (h : TimersKept A) {i : ℕ} {b : Budget κ}
    (hi : A.timers[i]? = some (b, .sleeping)) (hdue : b.started + b.budget ≤ A.now) :
    TimersKept { A with
      timers := A.timers.set i (b, .fired)
      messages := A.messages ++ [(i, b)] } := by
  obtain ⟨hlast, c, x, hc, hbudget⟩ := h.task i (h.single i b hi)
  obtain ⟨rfl, rfl⟩ := Prod.mk.inj (Option.some.inj (hi.symm.trans hc))
  have hlt : i < A.timers.length := (List.getElem?_eq_some_iff.mp hi).1
  have hself : (A.timers.set i (b, Timer.fired))[i]? = some (b, .fired) :=
    List.getElem?_set_self hlt
  have hother : ∀ j, j ≠ i → (A.timers.set i (b, Timer.fired))[j]? = A.timers[j]? :=
    fun j hj => List.getElem?_set_ne (Ne.symm hj)
  refine ⟨fun j hj => ?_, h.budget, fun j c hj => ?_, fun j c hj => ?_, fun j k c d x hjk hj hk => ?_, fun p hp => ?_⟩
  · obtain rfl := Option.some.inj ((h.single i b hi).symm.trans hj)
    exact ⟨by simpa using hlast, b, .fired, hself, hbudget⟩
  · by_cases hji : j = i
    · subst hji
      exact h.single j b hi
    · exact h.single j c ((hother j hji).symm.trans hj)
  · by_cases hji : j = i
    · subst hji
      obtain ⟨rfl, -⟩ := Prod.mk.inj (Option.some.inj (hself.symm.trans hj))
      exact hdue
    · exact h.fired j c ((hother j hji).symm.trans hj)
  · have hk' : k < A.timers.length := by
      simpa using (List.getElem?_eq_some_iff.mp hk).1
    -- the timer that fires is the last one
    have hji : j ≠ i := by omega
    by_cases hki : k = i
    · subst hki
      obtain ⟨rfl, -⟩ := Prod.mk.inj (Option.some.inj (hself.symm.trans hk))
      exact h.order j k c b .sleeping hjk ((hother j hji).symm.trans hj) hi
    · exact h.order j k c d x hjk ((hother j hji).symm.trans hj) ((hother k hki).symm.trans hk)
  · rcases mem_append.mp hp with hp | hp
    · have hold := h.messages p hp
      have hne : p.1 ≠ i := by
        rintro rfl
        rw [hi] at hold
        cases hold
      exact (hother p.1 hne).trans hold
    · rw [mem_singleton.mp hp]
      exact hself

lemma TimersKept.of_same {B : Robot κ} (h : TimersKept A) (htask : B.mission_timeout_task = A.mission_timeout_task)
    (hbudget : B.timeout_budget = A.timeout_budget) (htimers : B.timers = A.timers)
    (hmessages : ∀ p ∈ B.messages, p ∈ A.messages) (hnow : A.now ≤ B.now) : TimersKept B := by
  refine ⟨?_, ?_, ?_, ?_, ?_, ?_⟩
  · rw [htask, hbudget, htimers]
    exact h.task
  · rw [htask, hbudget]
    exact h.budget
  · rw [htask, htimers]
    exact h.single
  · rw [htimers]
    exact fun i b hi => (h.fired i b hi).trans hnow
  · rw [htimers]
    exact h.order
  · rw [htimers]
    exact fun p hp => h.messages p (hmessages p hp)

lemma pause_kept (h : TimersKept A) (policy : Bool) :
    TimersKept (pause_mission_timeout policy A) := by
  unfold pause_mission_timeout
  split
  · exact h
  · split
    · exact h
    · split
      · exact h
      · exact (cancel_kept h).of_same rfl rfl rfl (fun _ => id) le_rfl

/-! ### The time counted -/

lemma CountKept.of_disarmed (hbudget : A.timeout_budget = none) (hpaused : A.timeout_paused = none)
    (hpicked : ∀ m, A.current_mission = some m → A.dispatched = false → m.name ∈ A.armed → m.state ≠ .running)
    (hfull : ∀ m, A.current_mission = some m → A.dispatched = true → A.resumed = false →
      A.since = A.full m.name ∧ A.idle = A.offline m.name) : CountKept A := by
  refine ⟨?_, ?_, hpicked, ?_, ?_, hfull⟩
  · simp [hbudget]
  · simp [hpaused]
  · simp [hbudget]
  · simp [hpaused]

lemma CountKept.of_idle (hm : A.current_mission = none) (harmed : ∀ b, A.timeout_budget = some b → b.name ∈ A.armed)
    (hpaused : ∀ name left, A.timeout_paused = some (name, left) → name ∈ A.armed) :
    CountKept A := by
  refine ⟨harmed, hpaused, ?_, ?_, ?_, ?_⟩
  all_goals simp [hm]

lemma arm_count (left : Option ℚ) (hpicked : ∀ m, A.current_mission = some m → A.dispatched = false → m.state ≠ .running)
    (hrun : ∀ m timeout, A.current_mission = some m → A.dispatched = true →
      m.timeout = some timeout → timeout ≤ A.now - A.since - A.idle + left.getD timeout)
    (hfull : ∀ m, A.current_mission = some m → A.dispatched = true → A.resumed = false →
      A.since = A.full m.name ∧ A.idle = A.offline m.name) :
    CountKept (arm_mission_timeout A left) := by
  rcases arm_cases A left with ⟨-, heq⟩ | ⟨m, timeout, hm, ht, heq⟩
  · rw [heq]
    exact .of_disarmed rfl rfl (fun m hm hd _ => hpicked m hm hd) hfull
  · rw [heq]
    refine ⟨fun b hb => ?_, ?_, fun m hm hd _ => hpicked m hm hd, fun m' b hm' hd hb _ => ?_, ?_, hfull⟩
    · cases hb
      exact mem_cons_self
    · simp [cancel_mission_timeout]
    · cases hb
      obtain rfl := Option.some.inj (hm.symm.trans hm')
      exact ⟨timeout, ht, hrun m timeout hm hd ht⟩
    · simp [cancel_mission_timeout]

lemma cancel_count (h : CountKept A) : CountKept (cancel_mission_timeout A) :=
  .of_disarmed rfl rfl h.picked h.full

lemma edit_count (h : CountKept A) {m m' : Mission κ} (hm : A.current_mission = some m)
    (hname : m'.name = m.name) (htimeout : A.dispatched = true → m'.timeout = m.timeout)
    (hstate : A.dispatched = false → m'.state = .running → m.state = .running) :
    CountKept { A with current_mission := some m' } := by
  refine ⟨h.armed, h.paused, fun n hn hd hmem => ?_, fun n b hn hd hb hbn => ?_,
    fun n timeout left hn hd hp ht => ?_, fun n hn hd hr => ?_⟩
  all_goals obtain rfl := Option.some.inj hn
  · rw [hname] at hmem
    exact fun hrun => h.picked m hm hd hmem (hstate hd hrun)
  · obtain ⟨timeout, ht, hle⟩ := h.running m b hm hd hb (hbn.trans hname)
    exact ⟨timeout, (htimeout hd).trans ht, hle⟩
  · rw [hname] at hp
    exact h.waiting m timeout left hm hd hp ((htimeout hd).symm.trans ht)
  · rw [hname]
    exact h.full m hm hd hr

lemma pause_count (h : CountKept A) (policy : Bool) :
    CountKept (pause_mission_timeout policy A) := by
  unfold pause_mission_timeout
  split
  · exact h
  · split
    · exact h
    · rename_i b hb
      split
      · exact h
      · refine ⟨?_, fun name left hp => ?_, h.picked, ?_, fun m timeout left hm hd hp ht => ?_, h.full⟩
        · simp [cancel_mission_timeout]
        · obtain ⟨rfl, -⟩ := Prod.mk.inj (Option.some.inj hp)
          exact h.armed b hb
        · simp [cancel_mission_timeout]
        · obtain ⟨hname, rfl⟩ := Prod.mk.inj (Option.some.inj hp)
          obtain ⟨timeout', ht', hle⟩ := h.running m b hm hd hb hname
          obtain rfl := Option.some.inj (ht'.symm.trans ht)
          have := le_max_left (b.budget - (A.now - b.started)) 0
          change timeout' ≤ A.now - A.since - A.idle + max (b.budget - (A.now - b.started)) 0
          linarith

variable {timer : ℕ} {token : Budget κ}

lemma due (h : TimersKept A) (hc : CountKept A)
    (hfired : A.timers[timer]? = some (token, .fired)) (hbudget : A.timeout_budget = some token)
    (hm : A.current_mission = some mission) (hname : token.name = mission.name)
    (hstate : mission.state = .running) (hblocked : mission.blocked = false)
    (outcome : MissionState) :
    Ending.Due ⟨mission, outcome, A.now, token, timer, A.mission_timeout_task, A.since, A.idle,
      A.resumed, A.full mission.name, A.offline mission.name⟩ := by
  have hd : A.dispatched = true := by
    cases hd : A.dispatched with
    | true => rfl
    | false =>
      have hmem := hc.armed token hbudget
      rw [hname] at hmem
      exact absurd hstate (hc.picked mission hm hd hmem)
  refine ⟨hstate, hblocked, ?_, hc.full mission hm hd, ?_⟩
  · obtain ⟨timeout, ht, hle⟩ := hc.running mission token hm hd hbudget hname
    have hdue := h.fired timer token hfired
    refine ⟨timeout, ht, ?_⟩
    change timeout ≤ A.now - A.since - A.idle
    linarith
  · cases htask : A.mission_timeout_task with
    | none =>
      rw [h.budget htask] at hbudget
      cases hbudget
    | some i =>
      obtain ⟨hlast, b, x, hi, hb⟩ := h.task i htask
      obtain rfl := Option.some.inj (hb.symm.trans hbudget)
      have hlt := (List.getElem?_eq_some_iff.mp hfired).1
      by_cases hti : timer = i
      · exact .inl (congrArg some hti.symm)
      · have horder := h.order timer i b b x (by omega) hfired hi
        refine .inr ?_
        change b.budget ≤ 0
        linarith

lemma arm_ended (A : Robot κ) (left : Option ℚ) :
    (arm_mission_timeout A left).ended = A.ended := by
  rcases arm_cases A left with ⟨-, heq⟩ | ⟨m, timeout, -, -, heq⟩
  · rw [heq]
    rfl
  · rw [heq]
    rfl

lemma pause_ended (policy : Bool) (A : Robot κ) :
    (pause_mission_timeout policy A).ended = A.ended := by
  unfold pause_mission_timeout
  split
  · rfl
  · split
    · rfl
    · split
      · rfl
      · rfl

lemma new_kept : Kept (Robot.new κ) := by
  refine ⟨⟨?_, fun _ => rfl, ?_, ?_, ?_, fun p hp => absurd hp not_mem_nil⟩,
    .of_idle rfl (by simp [Robot.new]) (by simp [Robot.new]),
    fun e he => absurd he not_mem_nil⟩
  · intro i hi
    simp [Robot.new] at hi
  · intro i b hi
    simp [Robot.new] at hi
  · intro i b hi
    simp [Robot.new] at hi
  · intro i j b c x _ hi
    simp [Robot.new] at hi

variable [DecidableEq κ]

lemma arm_full_count (mission : Mission κ) (hd : A.dispatched = true) :
    CountKept (arm_full A mission) := by
  refine arm_count none (fun m _ hf => absurd (hd.symm.trans hf) nofun) ?_ ?_
  · intro m timeout _ _ _
    simp
  · intro m hm _ _
    cases hm
    simp

lemma start_count (mission : Mission κ) (wall : ℚ) : CountKept (start A mission wall) := by
  unfold start
  simp only
  split
  · exact arm_full_count _ rfl
  · rename_i started hstart
    refine arm_count _ (fun m _ hf => nomatch hf) ?_ (fun _ _ _ hf => nomatch hf)
    intro m timeout hm _ ht
    cases hm
    simp only [remaining_timeout_s, hstart, Option.getD_some]
    simp only at ht
    rw [ht]
    simp only [Option.getD_some]
    have := le_max_left (timeout - (wall - started)) 0
    linarith

lemma resume_count (h : CountKept A) : CountKept (resume_mission_timeout A) := by
  have hnone : CountKept { A with timeout_paused := none } :=
    ⟨h.armed, by simp, h.picked, h.running, by simp, h.full⟩
  unfold resume_mission_timeout
  simp only
  split
  · rename_i name left m hp hm
    split
    · exact hnone
    · rename_i hgo
      have hname : name = m.name := by
        by_contra hne
        exact hgo (.inl hne)
      subst hname
      refine arm_count _ (fun n hn hd => ?_) (fun n timeout hn hd ht => ?_) (fun n hn hd hr => ?_)
      all_goals obtain rfl := Option.some.inj (hm.symm.trans hn)
      · exact h.picked m hm hd (h.paused _ _ hp)
      · have hle := h.waiting m timeout left hm hd hp ht
        change timeout ≤ A.now - A.since - (A.idle + (A.now - A.paused_at)) + left
        linarith
      · obtain ⟨hsince, hidle⟩ := h.full m hm hd hr
        refine ⟨hsince, ?_⟩
        change A.idle + (A.now - A.paused_at) = Function.update A.offline _ _ _
        rw [Function.update_self, hidle]
  · exact hnone

/-! ### Runs -/

lemma resume_kept (h : TimersKept A) : TimersKept (resume_mission_timeout A) := by
  unfold resume_mission_timeout
  simp only
  split
  · split
    · exact h.of_same rfl rfl rfl (fun _ => id) le_rfl
    · apply arm_kept
      exact h.of_same rfl rfl rfl (fun _ => id) le_rfl
  · exact h.of_same rfl rfl rfl (fun _ => id) le_rfl

lemma start_kept (h : TimersKept A) (mission : Mission κ) (wall : ℚ) :
    TimersKept (start A mission wall) := by
  unfold start
  simp only
  split
  · apply arm_kept
    exact h.of_same rfl rfl rfl (fun _ => id) le_rfl
  · apply arm_kept
    exact h.of_same rfl rfl rfl (fun _ => id) le_rfl

lemma handle_kept (h : Kept A) {rest : List (ℕ × Budget κ)}
    (hm : A.messages = (timer, token) :: rest) (known deleted : Bool) :
    Kept (on_mission_timeout_elapsed { A with messages := rest } timer token known deleted) := by
  have hsub : ∀ p ∈ rest, p ∈ A.messages := by
    intro p hp
    rw [hm]
    exact mem_cons_of_mem _ hp
  have hfired := h.timers.messages (timer, token) (by rw [hm]; exact mem_cons_self)
  have ht : TimersKept { A with messages := rest } := h.timers.of_same rfl rfl rfl hsub le_rfl
  have hc : CountKept { A with messages := rest } := { h.count with }
  unfold on_mission_timeout_elapsed
  split
  · exact ⟨ht, hc, h.ended⟩
  · rename_i hbudget
    have hbudget : A.timeout_budget = some token := by
      by_contra hne
      exact hbudget hne
    unfold fail_mission_on_timeout
    split
    · exact ⟨ht, hc, h.ended⟩
    · rename_i mission hcur
      split
      · rename_i hgo
        obtain ⟨-, hname, hstate, hblocked⟩ := hgo
        refine ⟨ht.of_same rfl rfl rfl (fun _ => id) le_rfl, .of_idle rfl hc.armed hc.paused, fun e he => ?_⟩
        rcases mem_append.mp he with he | he
        · exact h.ended e he
        · rw [mem_singleton.mp he]
          exact due h.timers h.count hfired hbudget hcur hname hstate hblocked _
      · exact ⟨ht, hc, h.ended⟩

lemma start_ended (A : Robot κ) (mission : Mission κ) (wall : ℚ) :
    (start A mission wall).ended = A.ended := by
  unfold start arm_full
  simp only
  split
  · rw [arm_ended]
  · rw [arm_ended]

lemma resume_ended (A : Robot κ) : (resume_mission_timeout A).ended = A.ended := by
  unfold resume_mission_timeout
  simp only
  split
  · split
    · rfl
    · rw [arm_ended]
  · rfl

lemma resume_all (h : Kept A) : Kept (resume_mission_timeout A) := by
  refine ⟨resume_kept h.timers, resume_count h.count, ?_⟩
  rw [resume_ended]
  exact h.ended

lemma elapse_step {d : ℚ} (h : Kept A) (hstep : step A (.elapse d) = some A') : Kept A' := by
  simp only [step] at hstep
  split at hstep
  · rename_i hd
    cases hstep
    refine ⟨h.timers.of_same rfl rfl rfl (fun _ => id) ?_, { h.count with }, h.ended⟩
    change A.now ≤ A.now + d
    linarith
  · cases hstep

lemma pick_step (h : Kept A) (hstep : step A (.pick mission) = some A') : Kept A' := by
  simp only [step] at hstep
  split at hstep
  · rename_i hgo
    cases hstep
    refine ⟨h.timers.of_same rfl rfl rfl (fun _ => id) le_rfl, ⟨h.count.armed, h.count.paused,
      fun m hm _ hmem hrun => ?_, by simp, by simp, by simp⟩, h.ended⟩
    cases hm
    exact hgo.2 hrun hmem
  · cases hstep

lemma edit_step {timeout : Option ℚ} (h : Kept A)
    (hstep : step A (.edit timeout) = some A') : Kept A' := by
  simp only [step] at hstep
  split at hstep
  · rename_i m hm hd
    cases hstep
    exact ⟨h.timers.of_same rfl rfl rfl (fun _ => id) le_rfl, edit_count h.count hm rfl
      (fun hd' => absurd (hd.symm.trans hd') nofun) (fun _ hrun => hrun), h.ended⟩
  · cases hstep

lemma start_step {wall : ℚ} (h : Kept A) (hstep : step A (.start wall) = some A') : Kept A' := by
  simp only [step] at hstep
  split at hstep
  · rename_i m hm hd
    cases hstep
    refine ⟨start_kept h.timers m wall, start_count m wall, ?_⟩
    rw [start_ended]
    exact h.ended
  · cases hstep

lemma set_state_step {state : MissionState} (h : Kept A)
    (hstep : step A (.set_state state) = some A') : Kept A' := by
  simp only [step] at hstep
  split at hstep
  · rename_i m hm
    split at hstep
    · rename_i hgo
      cases hstep
      refine ⟨h.timers.of_same rfl rfl rfl (fun _ => id) le_rfl, edit_count h.count hm rfl
        (fun _ => rfl) (fun hd hrun => ?_), h.ended⟩
      rcases hgo with hgo | hgo
      · cases hd.symm.trans hgo
      · exact absurd hrun hgo
    · cases hstep
  · cases hstep

lemma block_step {same : Bool} (h : Kept A) (hstep : step A (.block same) = some A') : Kept A' := by
  simp only [step] at hstep
  split at hstep
  · rename_i m hm hd
    cases hstep
    unfold edge_blocked
    split
    · exact h
    · exact ⟨cancel_kept (h.timers.of_same rfl rfl rfl (fun _ => id) le_rfl),
        cancel_count (edit_count h.count hm rfl (fun _ => rfl) fun _ hrun => hrun), h.ended⟩
  · cases hstep

lemma clear_step (h : Kept A) (hstep : step A .clear = some A') : Kept A' := by
  simp only [step] at hstep
  split at hstep
  · rename_i m hm hd
    cases hstep
    unfold clear_block
    split
    · refine ⟨?_, arm_full_count _ hd, ?_⟩
      · apply arm_kept
        exact h.timers.of_same rfl rfl rfl (fun _ => id) le_rfl
      unfold arm_full
      rw [arm_ended]
      exact h.ended
    · exact h
  · cases hstep

lemma pass_cancel_step (h : Kept A) (hstep : step A .pass_cancel = some A') : Kept A' := by
  simp only [step] at hstep
  split at hstep
  · cases hstep
    exact ⟨cancel_kept h.timers, cancel_count h.count, h.ended⟩
  · cases hstep

lemma pass_start_step (h : Kept A) (hstep : step A .pass_start = some A') : Kept A' := by
  simp only [step] at hstep
  split at hstep
  · rename_i m hm hd
    cases hstep
    refine ⟨?_, arm_full_count _ hd, ?_⟩
    · apply arm_kept
      exact h.timers.of_same rfl rfl rfl (fun _ => id) le_rfl
    unfold arm_full
    rw [arm_ended]
    exact h.ended
  · cases hstep

lemma change_step {needs_canceled : Bool} (h : Kept A)
    (hstep : step A (.change needs_canceled) = some A') : Kept A' := by
  simp only [step] at hstep
  split at hstep
  · rename_i m hm
    have hkept : Kept { A with current_mission := some { m with needs_canceled } } :=
      ⟨h.timers.of_same rfl rfl rfl (fun _ => id) le_rfl, edit_count h.count hm rfl (fun _ => rfl) (fun _ hrun => hrun), h.ended⟩
    split at hstep
    · cases hstep
      exact resume_all hkept
    · cases hstep
      exact hkept
  · cases hstep

lemma offline_step {policy : Bool} (h : Kept A)
    (hstep : step A (.offline policy) = some A') : Kept A' := by
  simp only [step] at hstep
  cases hstep
  refine ⟨pause_kept h.timers policy, pause_count h.count policy, ?_⟩
  rw [pause_ended]
  exact h.ended

lemma online_step (h : Kept A) (hstep : step A .online = some A') : Kept A' := by
  simp only [step] at hstep
  split at hstep
  · cases hstep
    exact resume_all h
  · cases hstep
    exact h

lemma fire_step {i : ℕ} (h : Kept A) (hstep : step A (.fire i) = some A') : Kept A' := by
  simp only [step] at hstep
  split at hstep
  · rename_i b hi
    split at hstep
    · rename_i hdue
      cases hstep
      exact ⟨fire_kept h.timers hi hdue, { h.count with }, h.ended⟩
    · cases hstep
  · cases hstep

lemma handle_step {known deleted : Bool} (h : Kept A)
    (hstep : step A (.handle known deleted) = some A') : Kept A' := by
  simp only [step] at hstep
  split at hstep
  · rename_i timer token rest hm
    cases hstep
    exact handle_kept h hm known deleted
  · cases hstep

lemma finish_step (h : Kept A) (hstep : step A .finish = some A') : Kept A' := by
  simp only [step] at hstep
  cases hstep
  exact ⟨h.timers.of_same rfl rfl rfl (fun _ => id) le_rfl, .of_idle rfl h.count.armed h.count.paused, h.ended⟩

lemma restart_step (h : Kept A) (hstep : step A .restart = some A') : Kept A' := by
  simp only [step] at hstep
  cases hstep
  exact ⟨{ new_kept.timers with
      budget := fun _ => rfl, fired := fun i b hi => absurd hi (by simp [Robot.new]) },
    .of_idle rfl (by simp [Robot.new]) (by simp [Robot.new]), h.ended⟩

lemma step_kept {a : Act κ} (h : Kept A) (hstep : step A a = some A') : Kept A' := by
  cases a with
  | elapse d => exact elapse_step h hstep
  | pick mission => exact pick_step h hstep
  | edit timeout => exact edit_step h hstep
  | start wall => exact start_step h hstep
  | set_state state => exact set_state_step h hstep
  | block same => exact block_step h hstep
  | clear => exact clear_step h hstep
  | pass_cancel => exact pass_cancel_step h hstep
  | pass_start => exact pass_start_step h hstep
  | change needs_canceled => exact change_step h hstep
  | offline policy => exact offline_step h hstep
  | online => exact online_step h hstep
  | fire i => exact fire_step h hstep
  | handle known deleted => exact handle_step h hstep
  | finish => exact finish_step h hstep
  | restart => exact restart_step h hstep

/-- At most one timer sleeps, and a mission that the timeout ended was running, not blocked, and
had run for its timeout: since the timeout was last armed in full or, resumed after a restart,
since it started. -/
theorem timeout_counts_running (h : Runs step (fun _ _ => True) (Robot.new κ) A) :
    (∀ (i j : ℕ) (b c : Budget κ), A.timers[i]? = some (b, .sleeping) →
      A.timers[j]? = some (c, .sleeping) → i = j) ∧ ∀ e ∈ A.ended, e.Due := by
  have hkept : Kept A := h.invariant new_kept fun _ _ _ _ hS hstep => step_kept hS hstep
  refine ⟨fun i j b c hi hj => ?_, hkept.ended⟩
  exact Option.some.inj ((hkept.timers.single i b hi).symm.trans (hkept.timers.single j c hj))

/-- A mission of five seconds whose robot is offline for ten of them. -/
theorem timeout_counts_running_paused : ∃ A : Robot Unit,
    ((∀ (i j : ℕ) (b c : Budget Unit), A.timers[i]? = some (b, .sleeping) →
      A.timers[j]? = some (c, .sleeping) → i = j) ∧ ∀ e ∈ A.ended, e.Due) ∧ A.ended.map (fun e => e.time) = [15] := by
  obtain ⟨A, hruns, hend⟩ := Runs.of_play_any (fun _ _ _ => trivial)
    (show (play step (fun _ _ => true) (Robot.new Unit)
      [.pick ⟨(), some 5, .pending, false, false, none⟩, .start 0, .elapse 2, .offline true,
        .elapse 10, .online, .elapse 3, .fire 1, .handle true false]).any
      (fun A => decide (A.ended.map (fun e => e.time) = [15])) = true by decide +kernel)
  exact ⟨A, timeout_counts_running hruns, of_decide_eq_true hend⟩

/-- The same mission ran one second; the dispatcher restarts once the robot is back, and what is
left is counted from the start. -/
theorem resumed_counts_offline : ∃ A : Robot Unit,
    Runs step (fun _ _ => True) (Robot.new Unit) A ∧
      ∃ e ∈ A.ended, e.mission.timeout = some 5 ∧ e.time - e.full - e.offline < 5 := by
  obtain ⟨A, hruns, hend⟩ := Runs.of_play_any (fun _ _ _ => trivial)
    (show (play step (fun _ _ => true) (Robot.new Unit)
      [.pick ⟨(), some 5, .pending, false, false, none⟩, .start 0, .elapse 1, .offline true,
        .elapse 8, .online, .restart, .pick ⟨(), some 5, .running, false, false, some 0⟩, .start 9,
        .fire 0, .handle true false]).any
      (fun A => decide (∃ e ∈ A.ended,
        e.mission.timeout = some 5 ∧ e.time - e.full - e.offline < 5)) = true by decide +kernel)
  exact ⟨A, hruns, of_decide_eq_true hend⟩

end
end CloudServer.MissionTimeout
