import CloudServer.Dict
import CloudServer.Steps

/-! The updates of `robot_latest`: merged in a pending map, taken by a flush, written in one
transaction, and put back underneath anything newer when the flush does not learn of the commit. -/
namespace CloudServer.LatestWrites

open Steps

section Model
variable {R C V P : Type} [DecidableEq R] [DecidableEq C]

/-- A value put for a column, with the number of its put. -/
structure Put (V : Type) where
  number : ℕ
  value : V
  deriving DecidableEq

abbrev Latest (R C V : Type) := Dict R (Dict C (Put V))

inductive Flush
  | writing
  | sent
  | landed
  deriving DecidableEq

/-- The queue's pending map, the batch of the flush that runs, a transaction whose COMMIT the
database has not carried out yet and whether it is the running flush's, the table, and the last
value put for each column. -/
structure Writer (R C V P : Type) where
  latest : Latest R C V
  batch : Option (Latest R C V × Flush)
  server : Option (Latest R C V × Bool)
  table : R → C → Option (Put P)
  puts : ℕ
  last : R → C → Option (Put V)

def Writer.new (V : Type) (old : R → C → Option P) : Writer R C V P :=
  ⟨.empty, none, none, fun r c => (old r c).map (Put.mk 0), 0, fun _ _ => none⟩

def Latest.find (d : Latest R C V) (r : R) (c : C) : Option (Put V) := (d.get r).bind (·.get c)

/-- How the columns are checked and stored: the host's own ones, the conversion of a value when it
is put (which may fail) and the parameter of the statement. -/
structure Columns (R C V P : Type) where
  named : R → Bool
  owned : C → Bool
  convert : C → V → Option V
  param : C → V → P

variable (cfg : Columns R C V P)

def Columns.fields (number : ℕ) (fields : Dict C V) : Option (List (C × Put V)) :=
  fields.items.mapM fun f => (cfg.convert f.1 f.2).map fun v => (f.1, ⟨number, v⟩)

/-- `put_latest`; a call that raises changes nothing. -/
def put_latest (robot_name : R) (fields : Dict C V) (W : Writer R C V P) : Writer R C V P :=
  if cfg.named robot_name = false ∨ fields.items = [] ∨
      fields.items.any (fun f => !cfg.owned f.1) then W
  else
    match cfg.fields (W.puts + 1) fields with
    | none => W
    | some puts =>
      { W with
        latest := W.latest.set robot_name
          (((W.latest.get robot_name).getD .empty).update puts)
        puts := W.puts + 1
        last := fun r c => if r = robot_name then ((Dict.ofList puts).get c).or (W.last r c)
          else W.last r c }

/-- `restore_latest`. -/
def restore_latest (latest : Latest R C V) (failed : List (R × Dict C (Put V))) : Latest R C V :=
  failed.foldl (fun latest f =>
    latest.set f.1 (f.2.update ((latest.get f.1).getD .empty).items)) latest

/-- The upserts of `_write_latest`. -/
def upsert (batch : Latest R C V) (table : R → C → Option (Put P)) (r : R) (c : C) :
    Option (Put P) :=
  match batch.find r c with
  | some p => some ⟨p.number, cfg.param c p.value⟩
  | none => table r c

inductive Act (R C V : Type)
  | put (robot_name : R) (fields : Dict C V)
  -- a flush takes the pending map; its statements are carried out and the COMMIT is sent
  | take
  | send
  -- the database commits, or gives the transaction up
  | commit
  | abort
  -- the flush learns of the commit, or loses its connection or is cancelled
  | answer
  | lose

def step (W : Writer R C V P) : Act R C V → Option (Writer R C V P)
  | .put robot_name fields => some (put_latest cfg robot_name fields W)
  | .take =>
    match W.batch with
    | none => some { W with batch := some (W.latest, .writing), latest := .empty }
    | some _ => none
  | .send =>
    match W.batch with
    | some (batch, .writing) =>
      -- the batch names again what a lost transaction wrote, whose rows are locked until it ends
      if W.server = none ∧ batch.items ≠ [] then
        some { W with batch := some (batch, .sent), server := some (batch, true) }
      else none
    | _ => none
  | .commit =>
    match W.server with
    | some (s, own) =>
      some { W with
        table := upsert cfg s W.table
        server := none
        batch := if own then W.batch.map fun b => (b.1, .landed) else W.batch }
    | none => none
  | .abort => some { W with server := none }
  | .answer =>
    match W.batch with
    | some (batch, flush) =>
      if flush = .landed ∨ batch.items = [] then some { W with batch := none } else none
    | none => none
  | .lose =>
    match W.batch with
    | some (batch, _) =>
      some { W with
        batch := none
        latest := restore_latest W.latest batch.items
        server := W.server.map fun s => (s.1, false) }
    | none => none

end Model
end CloudServer.LatestWrites
