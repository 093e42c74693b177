import CloudServer.Mailbox

/-! The message queues of the server and of its robots, where a robot's newest state takes the place
of those that wait. -/
namespace CloudServer.StateQueues

open Mailbox Function

section Model
variable {κ R S O : Type} [DecidableEq κ]

/-- A message from the broker: a state as received or parsed, a connection message, or another one
(factsheet, datum, approximate position). -/
inductive Message (κ R S O : Type)
  | raw (name : κ) (payload : R)
  | status (name : κ) (payload : S)
  | connection (name : κ) (payload : O)
  | client (name : κ) (payload : O)
  deriving DecidableEq

def Message.name : Message κ R S O → κ
  | .raw name _ => name
  | .status name _ => name
  | .connection name _ => name
  | .client name _ => name

def Message.is_state : Message κ R S O → Bool
  | .raw .. => true
  | .status .. => true
  | .connection .. => false
  | .client .. => false

inductive RobotMessage (S O : Type)
  | state (payload : S)
  | other (payload : O)
  deriving DecidableEq

def RobotMessage.is_state : RobotMessage S O → Bool
  | .state _ => true
  | .other _ => false

inductive Work (M : Type)
  | idle
  | process (message : M)
  | lookup (message : M)
  deriving DecidableEq

/-- `RobotServer`: its queue with the open state slot of each robot, and the messages it handled. -/
structure Server (κ R S O : Type) where
  mqtt_messages : Box (Message κ R S O)
  state_slots : κ → Option ℕ
  work : Work (Message κ R S O)
  handled : List (Item (Message κ R S O))

/-- `Robot`: its queue with its open state slot and the slot at the queue's end. -/
structure Robot (S O : Type) where
  messages : Box (RobotMessage S O)
  state_slot : Option ℕ
  queue_tail : Option ℕ
  busy : Bool

def Server.new (κ R S O : Type) : Server κ R S O := ⟨.empty _, fun _ => none, .idle, []⟩

def Robot.new (S O : Type) : Robot S O := ⟨.empty _, none, none, false⟩

/-- `_enqueue_now`. -/
def Server.enqueue_now (V : Server κ R S O) (obj : Message κ R S O) : Server κ R S O :=
  if obj.is_state then
    match V.state_slots obj.name with
    | some slot => { V with mqtt_messages := V.mqtt_messages.replace slot obj }
    | none =>
      { V with
        state_slots := update V.state_slots obj.name (some V.mqtt_messages.next)
        mqtt_messages := V.mqtt_messages.put_slot obj }
  else
    { V with
      state_slots := update V.state_slots obj.name none
      mqtt_messages := V.mqtt_messages.put obj }

/-- `parse`: a state message as received is parsed, or cannot be. -/
def Message.parsed (parse : R → Option S) : Message κ R S O → Option (Message κ R S O)
  | .raw name payload => (parse payload).map (.status name)
  | m => some m

/-- The loop of `_handle_mqtt_messages` gets the next entry. -/
def Server.get (V : Server κ R S O) : Option (Server κ R S O) :=
  if V.work matches .idle then
    V.mqtt_messages.get.map fun box => { V with mqtt_messages := box }
  else none

/-- The slot of the entry is closed, its message taken, and dropped if it cannot be parsed. -/
def Server.take (parse : R → Option S) (V : Server κ R S O) : Option (Server κ R S O) :=
  match V.mqtt_messages.take with
  | none => none
  | some (entry, box) =>
    match V.mqtt_messages.content entry with
    -- the slot has no message: `message.msg.name` raises
    | none => none
    | some item =>
      let name := item.body.name
      let state_slots := match entry with
        | .slot id =>
          if V.state_slots name = some id then update V.state_slots name none
          else V.state_slots
        | .plain _ => V.state_slots
      let V := { V with mqtt_messages := box, state_slots }
      match item.body.parsed parse with
      | none => some V
      | some message => some { V with work := .process message, handled := V.handled ++ [item] }

/-- `send_message`. -/
def Robot.send_message (A : Robot S O) (message : RobotMessage S O) : Robot S O :=
  if message.is_state then
    match A.state_slot with
    | some slot =>
      if A.queue_tail = some slot then { A with messages := A.messages.replace slot message }
      else
        let messages := A.messages.clear slot
        { A with
          messages := messages.put_slot message
          state_slot := some messages.next
          queue_tail := some messages.next }
    | none =>
      { A with
        messages := A.messages.put_slot message
        state_slot := some A.messages.next
        queue_tail := some A.messages.next }
  else { A with queue_tail := none, messages := A.messages.put message }

/-- The loop of `run` gets the next entry. -/
def Robot.get (A : Robot S O) : Option (Robot S O) :=
  if A.busy then none else A.messages.get.map fun messages => { A with messages }

/-- The references to the slot are cleared; a slot that was emptied is passed over. -/
def Robot.take (A : Robot S O) : Option (Robot S O) :=
  match A.messages.take with
  | none => none
  | some (entry, messages) =>
    let A' := { A with messages, busy := (A.messages.content entry).isSome }
    match entry with
    | .slot id =>
      some { A' with
        state_slot := if A.state_slot = some id then none else A.state_slot
        queue_tail := if A.queue_tail = some id then none else A.queue_tail }
    | .plain _ => some A'

def Robot.finish (A : Robot S O) : Option (Robot S O) :=
  if A.busy then some { A with busy := false } else none

structure System (κ R S O : Type) where
  server : Server κ R S O
  known : κ → Bool
  robots : κ → Robot S O

def System.new (κ R S O : Type) : System κ R S O :=
  ⟨.new κ R S O, fun _ => false, fun _ => .new S O⟩

def System.send (σ : System κ R S O) (name : κ) (message : RobotMessage S O) : System κ R S O :=
  { σ with robots := update σ.robots name ((σ.robots name).send_message message) }

/-- The payload that the controller gets; the bytes of a state are parsed before. -/
def Message.payload : Message κ R S O → Option (RobotMessage S O)
  | .raw .. => none
  | .status _ payload => some (.state payload)
  | .connection _ payload => some (.other payload)
  | .client _ payload => some (.other payload)

def System.deliver (σ : System κ R S O) (m : Message κ R S O) : System κ R S O :=
  match m.payload with
  | some message => σ.send m.name message
  | none => σ

/-- `_process_mqtt_message`: a message goes to its robot; a connection message of an unknown robot
is ignored, for others the robot is looked up. -/
def System.process (σ : System κ R S O) : Option (System κ R S O) :=
  match σ.server.work with
  | .process m =>
    if σ.known m.name then
      some { σ.deliver m with server := { σ.server with work := .idle } }
    else
      match m with
      | .connection .. => some { σ with server := { σ.server with work := .idle } }
      | _ => some { σ with server := { σ.server with work := .lookup m } }
  | _ => none

/-- The database, or the cache of unknown robots, answers: its object and then the message go to
the robot, or the message is ignored. -/
def System.answer (σ : System κ R S O) (found : Option O) : Option (System κ R S O) :=
  match σ.server.work with
  | .lookup m =>
    let server := { σ.server with work := .idle }
    match found with
    | none => some { σ with server }
    | some robot =>
      let σ := { σ with known := update σ.known m.name true }
      some { (σ.send m.name (.other robot)).deliver m with server }
  | _ => none

inductive Act (κ R S O : Type)
  | enqueue (m : Message κ R S O)
  | get
  | take
  | process
  | answer (found : Option O)
  -- a watcher, a timer or another task sends a message to a controller
  | send (name : κ) (m : RobotMessage S O)
  | robot_get (name : κ)
  | robot_take (name : κ)
  | robot_finish (name : κ)
  | other
  deriving DecidableEq

def System.robot (σ : System κ R S O) (name : κ) (f : Robot S O → Option (Robot S O)) :
    Option (System κ R S O) :=
  (f (σ.robots name)).map fun A => { σ with robots := update σ.robots name A }

def step (parse : R → Option S) (σ : System κ R S O) : Act κ R S O → Option (System κ R S O)
  | .enqueue m => some { σ with server := σ.server.enqueue_now m }
  | .get => σ.server.get.map fun server => { σ with server }
  | .take => (σ.server.take parse).map fun server => { σ with server }
  | .process => σ.process
  | .answer found => σ.answer found
  | .send name m => some { σ.send name m with known := update σ.known name true }
  | .robot_get name => σ.robot name Robot.get
  | .robot_take name => σ.robot name Robot.take
  | .robot_finish name => σ.robot name Robot.finish
  | .other => some σ

end Model
end CloudServer.StateQueues
