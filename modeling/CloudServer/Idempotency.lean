import CloudServer.Execution

/-! The requests with one Idempotency-Key to one route: claim, the route, complete, release and
purge, statement by statement on the row of the key. -/
namespace CloudServer.Idempotency

open Interact (Prog)

structure Response (β : Type) where
  status : ℕ
  body : β
deriving DecidableEq

/-- How the route ends: `json` is its content type, `body` its parsed body. -/
inductive Ending (β : Type)
  | raised
  | answered (status : Option ℕ) (json : Bool) (body : Option β)

def Ending.storable {β : Type} : Ending β → Option (Response β)
  | .answered (some status) true (some body) => if status < 500 then some ⟨status, body⟩ else none
  | _ => none

/-- The row of the key. `response` is set together with `completed_at`; `claim` numbers the claim
that wrote the row. -/
structure Row (η β : Type) where
  requestHash : η
  response : Option (Response β)
  createdAt : ℕ
  claim : ℕ
deriving DecidableEq

structure Replay (η β : Type) where
  claim : ℕ
  requestHash : η
  response : Response β
deriving DecidableEq

/-- The row and the clock of the database, and an account of what the requests did: the number of
claims, the answers of the executions, the replays. -/
structure Store (η β : Type) where
  row : Option (Row η β)
  now : ℕ
  claims : ℕ
  responses : List (η × Response β)
  replays : List (Replay η β)

def Store.empty (η β : Type) (now : ℕ) : Store η β := ⟨none, now, 0, [], []⟩

structure Config where
  ttl : ℕ
  lease : ℕ

inductive Fate
  | done
  | failed
  | lost
deriving DecidableEq

structure Stamp where
  serial : ℕ
  time : ℕ
deriving DecidableEq

/-- The statements on the row. `routeEnds` is no statement: it marks the end of an execution. -/
inductive Op (η β : Type)
  | claim (hash : η) (fate : Fate)
  | lookup (hash : η) (fate : Fate)
  | complete (hash : η) (response : Response β) (fate : Fate)
  | release (hash : η) (fate : Fate)
  | purge (fate : Fate)
  | routeEnds (hash : η) (ending : Ending β)
  | tick (seconds : ℕ)

/-- What a statement returns, `none` when it raises. -/
def Res {η β : Type} : Op η β → Type
  | .claim .. => Option (Option Stamp)
  | .lookup .. => Option (Option (Row η β))
  | .complete .. | .release .. | .purge .. => Option Unit
  | .routeEnds .. | .tick .. => Unit

abbrev Handler (η β α : Type) := Prog (Op η β) Res α

abbrev Log (η β : Type) := List (Σ o : Op η β, Res o)

def Fate.result {α : Type} (a : α) : Fate → Option α
  | .done => some a
  | _ => none

section
variable {η β : Type}

def Row.expired (cfg : Config) (now : ℕ) (r : Row η β) : Bool := r.createdAt + cfg.ttl < now

def Store.complete [DecidableEq η] (s : Store η β) (hash : η) (response : Response β) : Store η β :=
  { s with row := s.row.map fun r =>
      if r.requestHash = hash ∧ r.response.isNone then { r with response := some response } else r }

def Store.release [DecidableEq η] (s : Store η β) (hash : η) : Store η β :=
  { s with row := s.row.filter fun r => ¬(r.requestHash = hash ∧ r.response.isNone) }

def Store.purge (cfg : Config) (s : Store η β) : Store η β :=
  { s with row := s.row.filter fun r => !r.expired cfg s.now }

variable [DecidableEq η]

/-- The claim may write the row: there is none, it is expired, or the same request left it in
progress and its lease is over. -/
def Store.free (cfg : Config) (s : Store η β) (hash : η) : Bool :=
  match s.row with
  | none => true
  | some r => r.expired cfg s.now ||
      (r.response.isNone && r.requestHash = hash && r.createdAt + cfg.lease < s.now)

def Store.claim (cfg : Config) (s : Store η β) (hash : η) : Option Stamp × Store η β :=
  if s.free cfg hash then
    (some ⟨s.claims, s.now⟩,
      { s with row := some ⟨hash, none, s.now, s.claims⟩, claims := s.claims + 1 })
  else (none, s)

def Row.replayFor (r : Row η β) (hash : η) : Option (Replay η β) :=
  if r.requestHash = hash then r.response.map (⟨r.claim, hash, ·⟩) else none

/-- The account of the replays notes what the lookup of a request with this hash will be answered. -/
def Store.looked (s : Store η β) (hash : η) : Store η β :=
  { s with replays := ((s.row.bind (·.replayFor hash)).toList ++ s.replays) }

def step (cfg : Config) : (o : Op η β) → Store η β → Res o × Store η β
  | .claim hash fate, s => match fate with
    | .done => (some (s.claim cfg hash).1, (s.claim cfg hash).2)
    | .failed => (none, s)
    | .lost => (none, (s.claim cfg hash).2)
  | .lookup hash fate, s => match fate with
    | .done => (some s.row, s.looked hash)
    | _ => (none, s)
  | .complete hash response fate, s =>
    (fate.result (), if fate = .failed then s else s.complete hash response)
  | .release hash fate, s => (fate.result (), if fate = .failed then s else s.release hash)
  | .purge fate, s => (fate.result (), if fate = .failed then s else s.purge cfg)
  | .routeEnds hash ending, s =>
    ((), { s with responses := (ending.storable.toList.map (hash, ·)) ++ s.responses })
  | .tick seconds, s => ((), { s with now := s.now + seconds })

lemma step_purge (cfg : Config) (fate : Fate) (s : Store η β) :
    step cfg (.purge fate) s = (fate.result (), if fate = .failed then s else s.purge cfg) := by
  rw [step]
  rfl

inductive Claim (β : Type)
  | new
  | replay (response : Response β)
  | mismatch
  | inProgress

def Row.outcome (r : Row η β) (hash : η) : Claim β :=
  if r.requestHash ≠ hash then .mismatch
  else match r.response with
    | none => .inProgress
    | some response => .replay response

def claimSql (hash : η) (fate : Fate) : Handler η β (Option (Option Stamp)) :=
  Prog.perform (Op.claim hash fate)

def lookupSql (hash : η) (fate : Fate) : Handler η β (Option (Option (Row η β))) :=
  Prog.perform (Op.lookup hash fate)

def completeSql (hash : η) (response : Response β) (fate : Fate) : Handler η β (Option Unit) :=
  Prog.perform (Op.complete hash response fate)

def releaseSql (hash : η) (fate : Fate) : Handler η β (Option Unit) :=
  Prog.perform (Op.release hash fate)

def purgeSql (fate : Fate) : Handler η β (Option Unit) :=
  Prog.perform (Op.purge fate)

def route (hash : η) (ending : Ending β) : Handler η β Unit :=
  Prog.perform (Op.routeEnds hash ending)

/-- `IdempotencyStore.claim`, a pass for each pair of fates: the next pass only if the row vanished
between the two statements. `none` when a statement raises. -/
def claim (hash : η) : List (Fate × Fate) → Handler η β (Option (Claim β))
  | [] => pure (some .inProgress)
  | (f, g) :: passes => do
    match ← claimSql hash f with
    | none => pure none
    | some (some _) => pure (some .new)
    | some none =>
      match ← lookupSql hash g with
      | none => pure none
      | some none => claim hash passes
      | some (some row) => pure (some (row.outcome hash))

/-- What happens to a request from outside: the fates of its statements in `claim`'s passes,
complete, release and purge, the end of its route, and whether a purge is due. -/
structure Script (β : Type) where
  first : Fate × Fate
  second : Fate × Fate
  ending : Ending β
  complete : Fate
  release : Fate
  purges : Bool
  purge : Fate

inductive Reply (β : Type)
  | replayed (response : Response β)
  | mismatch
  | inProgress
  | unavailable
  | raised
  | ran

/-- `_run`: the route, then complete or release. -/
def runRoute (hash : η) (w : Script β) : Handler η β (Reply β) := do
  route hash w.ending
  match w.ending with
  | .raised => do
    let _ ← releaseSql hash w.release
    pure .raised
  | .answered .. => do
    match w.ending.storable with
    | some response =>
      match ← completeSql hash response w.complete with
      | some () => pure .ran
      | none => do
        let _ ← releaseSql hash w.release
        pure .ran
    | none => do
      let _ ← releaseSql hash w.release
      pure .ran

def maybePurge (w : Script β) : Handler η β Unit :=
  if w.purges then do
    let _ ← purgeSql w.purge
    pure ()
  else pure ()

/-- `__call__` of a guarded request with a key. -/
def request (hash : η) (w : Script β) : Handler η β (Reply β) := do
  match ← claim hash [w.first, w.second] with
  | none => pure .unavailable
  | some (.replay response) => pure (.replayed response)
  | some .mismatch => pure .mismatch
  | some .inProgress => pure .inProgress
  | some .new =>
    match ← runRoute hash w with
    | .raised => pure .raised
    | reply => do
      maybePurge w
      pure reply

inductive Call (η β : Type)
  | request (hash : η) (script : Script β)
  | purge (fate : Fate)
  | tick (seconds : ℕ)

def Call.hash : Call η β → Option η
  | .request hash _ => some hash
  | _ => none

def body : Call η β → Unit → Handler η β (Reply β × Unit)
  | .request hash w, _ => do
    let reply ← request hash w
    pure (reply, ())
  | .purge fate, _ => do
    let _ ← purgeSql fate
    pure (.ran, ())
  | .tick seconds, _ => do
    (Prog.perform (Op.tick seconds) : Handler η β Unit)
    pure (.ran, ())

end
end CloudServer.Idempotency
