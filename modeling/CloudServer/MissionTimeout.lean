import CloudServer.Steps

/-! The mission timeout of a robot's controller: armed in full, paused while the robot is offline,
resumed, cancelled by a block, and the messages of timers that ran out. -/
namespace CloudServer.MissionTimeout

section Model

inductive MissionState
  | pending
  | running
  | completed
  | canceled
  | failed
  deriving DecidableEq

def MissionState.done : MissionState → Bool
  | .pending => false
  | .running => false
  | _ => true

structure Mission (κ : Type) where
  name : κ
  timeout : Option ℚ
  state : MissionState
  blocked : Bool
  needs_canceled : Bool
  start_timestamp : Option ℚ
  deriving DecidableEq

/-- `_timeout_budget`, the token of a timer: the mission, the time left and when it started. -/
structure Budget (κ : Type) where
  name : κ
  budget : ℚ
  started : ℚ
  deriving DecidableEq

/-- A timer sleeps until it fires or is cancelled. -/
inductive Timer
  | sleeping
  | cancelled
  | fired
  deriving DecidableEq

/-- A mission that the timeout ended, with the timer whose message did and the one armed last, the
time it is counted from, what it was paused since, whether it was resumed after a restart, and when
its timeout was last armed in full, and what it was paused since. -/
structure Ending (κ : Type) where
  mission : Mission κ
  outcome : MissionState
  time : ℚ
  token : Budget κ
  timer : ℕ
  task : Option ℕ
  since : ℚ
  idle : ℚ
  resumed : Bool
  full : ℚ
  offline : ℚ
  deriving DecidableEq

/-- A robot's controller. The timers are numbered; of each mission it is kept when its timeout was
last armed in full and how long it was paused since then. -/
structure Robot (κ : Type) where
  now : ℚ
  current_mission : Option (Mission κ)
  dispatched : Bool
  mission_timeout_task : Option ℕ
  timeout_budget : Option (Budget κ)
  timeout_paused : Option (κ × ℚ)
  timers : List (Budget κ × Timer)
  messages : List (ℕ × Budget κ)
  armed : List κ
  since : ℚ
  idle : ℚ
  paused_at : ℚ
  resumed : Bool
  full : κ → ℚ
  offline : κ → ℚ
  ended : List (Ending κ)

variable {κ : Type} [DecidableEq κ]

def Robot.new (κ : Type) : Robot κ :=
  ⟨0, none, false, none, none, none, [], [], [], 0, 0, 0, false, fun _ => 0, fun _ => 0, []⟩

def cancelled (timers : List (Budget κ × Timer)) (i : ℕ) : List (Budget κ × Timer) :=
  timers.modify i fun x => (x.1, if x.2 = .sleeping then .cancelled else x.2)

/-- `_cancel_mission_timeout`. -/
def cancel_mission_timeout (A : Robot κ) : Robot κ :=
  { A with
    timers := match A.mission_timeout_task with
      | some i => cancelled A.timers i
      | none => A.timers
    mission_timeout_task := none
    timeout_budget := none
    timeout_paused := none }

/-- `_arm_mission_timeout`. -/
def arm_mission_timeout (A : Robot κ) (remaining_s : Option ℚ) : Robot κ :=
  let A := cancel_mission_timeout A
  match A.current_mission with
  | none => A
  | some mission =>
    match mission.timeout with
    | none => A
    | some timeout =>
      let budget : Budget κ := ⟨mission.name, remaining_s.getD timeout, A.now⟩
      { A with
        timeout_budget := some budget
        mission_timeout_task := some A.timers.length
        timers := A.timers ++ [(budget, .sleeping)]
        armed := mission.name :: A.armed }

/-- `_pause_mission_timeout`, under the policy `timeout_pause_offline`. -/
def pause_mission_timeout (timeout_pause_offline : Bool) (A : Robot κ) : Robot κ :=
  if timeout_pause_offline = false ∨ A.mission_timeout_task = none then A
  else
    match A.timeout_budget with
    | none => A
    | some budget =>
      if A.current_mission.any (·.needs_canceled) then A
      else
        let remaining := max (budget.budget - (A.now - budget.started)) 0
        { cancel_mission_timeout A with
          timeout_paused := some (budget.name, remaining)
          paused_at := A.now }

/-- `_resume_mission_timeout`. -/
def resume_mission_timeout (A : Robot κ) : Robot κ :=
  let A' := { A with timeout_paused := none }
  match A.timeout_paused, A.current_mission with
  | some (name, remaining), some mission =>
    if name ≠ mission.name ∨ mission.state.done = true ∨ mission.blocked = true then A'
    else
      arm_mission_timeout
        { A' with
          idle := A.idle + (A.now - A.paused_at)
          offline := Function.update A.offline name (A.offline name + (A.now - A.paused_at)) }
        (some remaining)
  | _, _ => A'

/-- `_remaining_timeout_s`, `now` being the wall clock. -/
def remaining_timeout_s (mission : Mission κ) (now : ℚ) : Option ℚ :=
  match mission.start_timestamp, mission.timeout with
  | some started, some timeout => some (max (timeout - (now - started)) 0)
  | _, _ => none

def arm_full (A : Robot κ) (mission : Mission κ) : Robot κ :=
  arm_mission_timeout
    { A with
      current_mission := some mission
      since := A.now
      idle := 0
      resumed := false
      full := Function.update A.full mission.name A.now
      offline := Function.update A.offline mission.name 0 }
    none

/-- The end of `_try_start_mission`: the mission runs, and a resumed one gets what is left of its
timeout. -/
def start (A : Robot κ) (mission : Mission κ) (wall : ℚ) : Robot κ :=
  let running := { mission with
    state := .running
    start_timestamp := some (mission.start_timestamp.getD wall) }
  match mission.start_timestamp with
  | none => arm_full { A with dispatched := true } running
  | some started =>
    arm_mission_timeout
      { A with
        current_mission := some running
        dispatched := true
        since := A.now - (wall - started)
        idle := 0
        resumed := true }
      (remaining_timeout_s running wall)

/-- `_handle_edge_blocked` with a block; the same one again changes nothing here. -/
def edge_blocked (A : Robot κ) (mission : Mission κ) (same : Bool) : Robot κ :=
  if mission.blocked && same then A
  else cancel_mission_timeout { A with current_mission := some { mission with blocked := true } }

/-- `_clear_block`. -/
def clear_block (A : Robot κ) (mission : Mission κ) : Robot κ :=
  if mission.blocked then arm_full A { mission with blocked := false } else A

/-- `_fail_mission_on_timeout`, for the message of a timer; the queue moves on. -/
def fail_mission_on_timeout (A : Robot κ) (timer : ℕ) (token : Budget κ) (known deleted : Bool) :
    Robot κ :=
  match A.current_mission with
  | none => A
  | some mission =>
    if known = true ∧ token.name = mission.name ∧ mission.state = .running ∧
        mission.blocked = false then
      let outcome := if deleted || mission.needs_canceled then .canceled else .failed
      { A with
        current_mission := none
        dispatched := false
        ended := A.ended ++ [⟨mission, outcome, A.now, token, timer, A.mission_timeout_task, A.since,
          A.idle, A.resumed, A.full mission.name, A.offline mission.name⟩] }
    else A

/-- `_on_mission_timeout_elapsed`. -/
def on_mission_timeout_elapsed (A : Robot κ) (timer : ℕ) (token : Budget κ)
    (known deleted : Bool) : Robot κ :=
  if A.timeout_budget ≠ some token then A
  else fail_mission_on_timeout A timer token known deleted

inductive Act (κ : Type)
  | elapse (d : ℚ)
  -- a mission is picked; one that comes back running is none that this controller armed
  | pick (mission : Mission κ)
  | edit (timeout : Option ℚ)
  | start (wall : ℚ)
  | set_state (state : MissionState)
  | block (same : Bool)
  | clear
  | pass_cancel
  | pass_start
  | change (needs_canceled : Bool)
  | offline (timeout_pause_offline : Bool)
  | online
  | fire (i : ℕ)
  | handle (known deleted : Bool)
  | finish
  | restart
  deriving DecidableEq

def step (A : Robot κ) : Act κ → Option (Robot κ)
  | .elapse d => if 0 ≤ d then some { A with now := A.now + d } else none
  | .pick mission =>
    if A.current_mission = none ∧ (mission.state = .running → mission.name ∉ A.armed) then
      some { A with current_mission := some mission, dispatched := false }
    else none
  | .edit timeout =>
    match A.current_mission, A.dispatched with
    | some mission, false => some { A with current_mission := some { mission with timeout } }
    | _, _ => none
  | .start wall =>
    match A.current_mission, A.dispatched with
    | some mission, false => some (start A mission wall)
    | _, _ => none
  | .set_state state =>
    match A.current_mission with
    | some mission =>
      if A.dispatched = true ∨ state ≠ .running then
        some { A with current_mission := some { mission with state } }
      else none
    | none => none
  | .block same =>
    match A.current_mission, A.dispatched with
    | some mission, true => some (edge_blocked A mission same)
    | _, _ => none
  | .clear =>
    match A.current_mission, A.dispatched with
    | some mission, true => some (clear_block A mission)
    | _, _ => none
  -- `_start_next_pass` writes the status in between
  | .pass_cancel => if A.dispatched then some (cancel_mission_timeout A) else none
  | .pass_start =>
    match A.current_mission, A.dispatched with
    | some mission, true => some (arm_full A { mission with state := .running, blocked := false })
    | _, _ => none
  | .change needs_canceled =>
    match A.current_mission with
    | some mission =>
      let A := { A with current_mission := some { mission with needs_canceled } }
      if A.dispatched && needs_canceled && A.timeout_paused.isSome then
        some (resume_mission_timeout A)
      else some A
    | none => none
  | .offline timeout_pause_offline => some (pause_mission_timeout timeout_pause_offline A)
  | .online => if A.timeout_paused.isSome then some (resume_mission_timeout A) else some A
  | .fire i =>
    match A.timers[i]? with
    | some (budget, .sleeping) =>
      if budget.started + budget.budget ≤ A.now then
        some { A with
          timers := A.timers.set i (budget, .fired)
          messages := A.messages ++ [(i, budget)] }
      else none
    | _ => none
  | .handle known deleted =>
    match A.messages with
    | (timer, token) :: rest =>
      some (on_mission_timeout_elapsed { A with messages := rest } timer token known deleted)
    | [] => none
  | .finish => some { A with current_mission := none, dispatched := false }
  | .restart =>
    some { Robot.new κ with now := A.now, full := A.full, offline := A.offline, ended := A.ended }

end Model
end CloudServer.MissionTimeout
