import CloudServer.EventSpill

/-! The event writer at work: events are put, flushes write them in transactions that commit, are
refused or lose the connection, are cancelled at any await, and the process is restarted. -/
namespace CloudServer.EventWriter

open EventSpill

inductive Outcome
  | committed
  | refused
  | broken
deriving DecidableEq

/-- The await a flush is at: the connection, the transaction of all rows, the transactions of single
rows with those refused so far, or the telemetry tables after the events. -/
inductive Stage
  | connecting
  | writing
  | singles (todo refused : List Row)
  | others

/-- The batch of a flush; `rows` is what it set out to write. -/
structure Flush where
  events : List Row
  replay : List Row
  lines : ℕ
  failed : Bool
  stage : Stage
  rows : List Row

/-- Queue and files of the process, its flush, the batches of cancelled flushes that are not settled
yet, transactions of unknown outcome, the table, and an account of the events that were accepted and
of the flushes that returned True. -/
structure State where
  queue : List Row
  spill : List Line
  rejected : List Line
  flush : Option Flush
  unwinding : List (List Row)
  inDoubt : List (List Row)
  table : List Row
  accepted : List Row
  finished : List (List Row)

def start (junk : List Line) (old : List Row) : State := ⟨[], junk, [], none, [], [], old, [], []⟩

/-- `full`: the queue is full, also of telemetry rows. `taken` events are among the drained rows,
`limit` is the replay limit, `telemetry` whether the batch has other rows. -/
inductive Move
  | put (r : Row) (full : Bool)
  | begin (taken limit : ℕ) (telemetry : Bool)
  | connect (ok : Bool)
  | write (outcome : Outcome)
  | writeOne (outcome : Outcome)
  | rest (ok : Bool)
  | cancel
  | settle (i : ℕ)
  | land (i : ℕ)
  | spillQueued
  | restart

/-- The events are written or refused: the replayed prefix is consumed, the batch is cleared. -/
def State.wrote (S : State) (f : Flush) (refused : List Row) : State :=
  { S with
    spill := consume f.lines S.spill
    rejected := append S.rejected refused
    flush := some { f with events := [], replay := [], lines := 0, stage := .others } }

/-- The rest of the rows one by one; at the end the refused rows are rejected. -/
def State.continue (S : State) (f : Flush) (todo refused : List Row) : State :=
  match todo with
  | [] => S.wrote f refused
  | _ => { S with flush := some { f with stage := .singles todo refused } }

/-- The connection is lost: the batch is kept for `settle`. -/
def State.broke (S : State) (f : Flush) (rows : List Row) : State :=
  { S with
    flush := some { f with failed := true, stage := .others }
    inDoubt := rows :: S.inDoubt }

def Flush.sent (f : Flush) : List Row :=
  match f.stage with
  | .writing => f.replay ++ f.events
  | .singles (r :: _) _ => [r]
  | _ => []

/-- `_settle` and the return of a flush. -/
def State.return (S : State) (f : Flush) (failed : Bool) : State :=
  { S with
    spill := append S.spill f.events
    flush := none
    finished := if failed then S.finished else f.rows :: S.finished }

def step (S : State) : Move → Option State
  | .put r full =>
    if full then some { S with spill := append S.spill [r], accepted := r :: S.accepted }
    else some { S with queue := S.queue ++ [r], accepted := r :: S.accepted }
  | .begin taken limit telemetry => match S.flush with
    | some _ => none
    | none =>
      let (replay, lines) := read limit S.spill
      let events := S.queue.take taken
      if events.isEmpty && lines = 0 && !telemetry then some { S with finished := [] :: S.finished }
      else some { S with
        queue := S.queue.drop taken
        flush := some ⟨events, replay, lines, false, .connecting, replay ++ events⟩ }
  | .connect ok => match S.flush with
    | some f => match f.stage with
      | .connecting =>
        if !ok then some (S.return f true)
        else if (f.replay ++ f.events).isEmpty then some (S.wrote f [])
        else some { S with flush := some { f with stage := .writing } }
      | _ => none
    | none => none
  | .write outcome => match S.flush with
    | some f => match f.stage with
      | .writing => match outcome with
        | .committed =>
          some ({ S with table := insertAll S.table (f.replay ++ f.events) }.wrote f [])
        | .refused => some (S.continue f (f.replay ++ f.events) [])
        | .broken => some (S.broke f (f.replay ++ f.events))
      | _ => none
    | none => none
  | .writeOne outcome => match S.flush with
    | some f => match f.stage with
      | .singles (r :: todo) refused => match outcome with
        | .committed => some ({ S with table := insert S.table r }.continue f todo refused)
        | .refused => some (S.continue f todo (refused ++ [r]))
        | .broken => some (S.broke f [r])
      | _ => none
    | none => none
  | .rest ok => match S.flush with
    | some f => match f.stage with
      | .others => some (S.return f (f.failed || !ok))
      | _ => none
    | none => none
  | .cancel => match S.flush with
    | some f => some { S with
        flush := none
        unwinding := f.events :: S.unwinding
        inDoubt := f.sent :: S.inDoubt }
    | none => none
  | .settle i => match S.unwinding[i]? with
    | some events => some { S with
        spill := append S.spill events
        unwinding := S.unwinding.eraseIdx i }
    | none => none
  | .land i => match S.inDoubt[i]? with
    | some rows => some { S with
        table := insertAll S.table rows
        inDoubt := S.inDoubt.eraseIdx i }
    | none => none
  | .spillQueued => some { S with queue := [], spill := append S.spill S.queue }
  | .restart =>
    if S.queue.isEmpty && S.flush.isNone && S.unwinding.isEmpty then
      some { start S.spill S.table with
        rejected := S.rejected
        inDoubt := S.inDoubt
        accepted := S.accepted
        finished := S.finished }
    else none

end CloudServer.EventWriter
