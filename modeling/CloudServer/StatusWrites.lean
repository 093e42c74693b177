import Mathlib

/-! The status writes of a database row: queued and awaited requests that share a lock, one pending
slot and a reference-counted table entry. -/
namespace CloudServer.StatusWrites

section Model

/-- A status write that was asked for: its number in the table entry, the status object, its number
among all requests of the row and when it was made. -/
structure Request where
  seq : ℕ
  status : ℕ
  number : ℕ
  made : ℕ
  deriving DecidableEq

structure Waiter where
  queued : Bool
  request : Request
  deriving DecidableEq

inductive Answer
  | stored
  | transient
  | gone
  deriving DecidableEq

/-- A write in flight: it waits for a connection, the statement with the status as it was read is
on its way, or the answer is. -/
inductive Write (V : Type)
  | connecting
  | sent (value : V) (read : ℕ)
  | answered (answer : Answer)
  deriving DecidableEq

inductive Loop
  | starting
  | writing
  | sleeping
  deriving DecidableEq

structure StatusRow (V : Type) where
  holder : Option (Waiter × Write V)
  waiters : List Waiter
  pending : Option Request
  seq : ℕ
  written_seq : ℕ
  task : Option Loop
  users : ℤ
  deriving DecidableEq

def StatusRow.new (V : Type) : StatusRow V := ⟨none, [], none, 0, 0, none, 0⟩

/-- A write that the database has taken. -/
structure Commit (V : Type) where
  request : Request
  value : V
  read : ℕ
  deriving DecidableEq

/-- One database row: whether it exists, the entries made for it, the one in the table, the number
of requests, what was committed and the awaited requests whose failure was raised. -/
structure Store (V : Type) where
  present : Bool
  heap : ℕ → StatusRow V
  table : Option ℕ
  next : ℕ
  made : ℕ
  commits : List (Commit V)
  raised : List Request

def Store.init (V : Type) : Store V := ⟨false, fun _ => .new V, none, 0, 0, [], []⟩

variable {V : Type}

def Store.put (T : Store V) (o : ℕ) (row : StatusRow V) : Store V :=
  { T with heap := Function.update T.heap o row }

/-- `_status_row`: the entry of the table, with one more user. -/
def status_row (T : Store V) : ℕ × Store V :=
  match T.table with
  | some o => (o, T.put o { T.heap o with users := (T.heap o).users + 1 })
  | none =>
    (T.next, { T.put T.next { StatusRow.new V with users := 1 } with
      table := some T.next, next := T.next + 1 })

/-- `_status_row_release`. -/
def release (T : Store V) (o : ℕ) : Store V :=
  let users := (T.heap o).users - 1
  let T := T.put o { T.heap o with users }
  if users ≤ 0 ∧ T.table = some o then { T with table := none } else T

/-- `row.seq += 1`. -/
def number (T : Store V) (o status time : ℕ) : Request × Store V :=
  (⟨(T.heap o).seq + 1, status, T.made + 1, time⟩,
    { T.put o { T.heap o with seq := (T.heap o).seq + 1 } with made := T.made + 1 })

def StatusRow.unlocked (row : StatusRow V) : Bool := row.holder.isNone && row.waiters.isEmpty

def StatusRow.stale (row : StatusRow V) (r : Request) : Bool := r.seq < row.written_seq

def loop_end (T : Store V) (o : ℕ) : Store V := release (T.put o { T.heap o with task := none }) o

/-- `while row.pending is not None`: the loop takes the pending request to the lock. -/
def loop_top (T : Store V) (o : ℕ) : Store V :=
  let row := T.heap o
  match row.pending with
  | none => loop_end T o
  | some r =>
    let row := { row with pending := none }
    if row.unlocked then
      -- the entry was stale: nothing is pending any more
      if row.stale r then loop_end (T.put o row) o
      else T.put o { row with holder := some (⟨true, r⟩, .connecting), task := some .writing }
    else T.put o { row with waiters := row.waiters ++ [⟨true, r⟩], task := some .writing }

/-- `_queue_status_write`, while the controller is alive. -/
def queue_status_write (T : Store V) (status time : ℕ) : Store V :=
  let (o, T) := status_row T
  let (r, T) := number T o status time
  let row := { T.heap o with pending := some r }
  if row.task.isSome then release (T.put o row) o
  else T.put o { row with task := some .starting }

/-- `_write_status`, up to its first wait. -/
def write_status (T : Store V) (status time : ℕ) : Store V :=
  let (o, T) := status_row T
  let (r, T) := number T o status time
  let row := T.heap o
  if row.unlocked then
    if row.stale r then release T o
    else T.put o { row with holder := some (⟨false, r⟩, .connecting) }
  else T.put o { row with waiters := row.waiters ++ [⟨false, r⟩] }

def take_lock (T : Store V) (o : ℕ) : Option (Store V) :=
  let row := T.heap o
  match row.holder, row.waiters with
  | none, w :: rest =>
    let row := { row with waiters := rest }
    if row.stale w.request then
      some (if w.queued then loop_top (T.put o row) o else release (T.put o row) o)
    else some (T.put o { row with holder := some (w, .connecting) })
  | _, _ => none

def send (statusAt : ℕ → ℕ → V) (time : ℕ) (T : Store V) (o : ℕ) : Option (Store V) :=
  match (T.heap o).holder with
  | some (w, .connecting) =>
    some (T.put o { T.heap o with holder := some (w, .sent (statusAt time w.request.status) time) })
  | _ => none

def reply (T : Store V) (o : ℕ) (answer : Answer) : Option (Store V) :=
  match (T.heap o).holder with
  | some (w, .connecting) =>
    if answer = .transient then
      some (T.put o { T.heap o with holder := some (w, .answered .transient) })
    else none
  | some (w, .sent value read) =>
    let T' := T.put o { T.heap o with holder := some (w, .answered answer) }
    match answer with
    | .stored => if T.present then
        some { T' with commits := T.commits ++ [⟨w.request, value, read⟩] } else none
    | .transient => some T'
    | .gone => if T.present then none else some T'
  | _ => none

def finish (T : Store V) (o : ℕ) : Option (Store V) :=
  let row := { T.heap o with holder := none }
  match (T.heap o).holder with
  | some (w, .answered .stored) =>
    let T := T.put o { row with written_seq := max row.written_seq w.request.seq }
    some (if w.queued then loop_top T o else release T o)
  | some (w, .answered .transient) =>
    if w.queued then
      some (T.put o { row with pending := row.pending.or (some w.request), task := some .sleeping })
    else some { release (T.put o row) o with raised := T.raised ++ [w.request] }
  | some (w, .answered .gone) =>
    if w.queued then some (loop_end (T.put o { row with pending := none }) o)
    else some { release (T.put o row) o with raised := T.raised ++ [w.request] }
  | _ => none

def resume (T : Store V) (o : ℕ) (from_ : Loop) : Option (Store V) :=
  if (T.heap o).task = some from_ then some (loop_top T o) else none

inductive Act
  | queue (status : ℕ)
  | await (status : ℕ)
  | start (o : ℕ)
  | wake (o : ℕ)
  | take (o : ℕ)
  | send (o : ℕ)
  | reply (o : ℕ) (answer : Answer)
  | finish (o : ℕ)
  | create
  | delete
  | other
  deriving DecidableEq

/-- One step on a row at a time; `statusAt` gives the content of the status objects. -/
def step (statusAt : ℕ → ℕ → V) (time : ℕ) (T : Store V) : Act → Option (Store V)
  | .queue status => some (queue_status_write T status time)
  | .await status => some (write_status T status time)
  | .start o => resume T o .starting
  | .wake o => resume T o .sleeping
  | .take o => take_lock T o
  | .send o => send statusAt time T o
  | .reply o answer => reply T o answer
  | .finish o => finish T o
  | .create => some { T with present := true }
  | .delete => some { T with present := false }
  | .other => some T

def exec {κ : Type} [DecidableEq κ] (statusAt : ℕ → ℕ → V) (time : ℕ) (S : κ → Store V)
    (label : κ × Act) : Option (κ → Store V) :=
  (step statusAt time (S label.1) label.2).map (Function.update S label.1)

end Model
end CloudServer.StatusWrites
