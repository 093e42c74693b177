import CloudServer.Steps

/-! The background delete of one map name: the row's mark, the runners on any API worker with the
delete lock and the scene lock, the store deletes, and the scene workers that save meanwhile. -/
namespace CloudServer.MapDelete
open Function

inductive Store
  | scene
  | graph
  | images
deriving DecidableEq

/-- A row of the map table; `inc` tells the rows of the name apart and `requested` is the
`delete_requested_at` of a row that is DELETING. -/
structure Row where
  inc : ℕ
  requested : Option ℕ
deriving DecidableEq

/-- A runner of the delete, at one of its awaits. `mark` is the request its attempt loaded and
`serial` counts the attempts. -/
inductive Pc
  | connecting
  | loading
  | probing (mark : ℕ)
  | locking (mark : ℕ)
  | deleting (mark serial : ℕ) (scene : Bool) (s : Store) (rest : List Store) (failed : Bool)
  | finishing (mark serial : ℕ) (scene : Bool)
  | failing
  | sleeping
  | orphan (s : Store)
deriving DecidableEq

structure Runner where
  attempt : ℕ
  pc : Pc
deriving DecidableEq

inductive Holder
  | runner (r : ℕ)
  | worker (k : ℕ)
deriving DecidableEq

/-- A scene worker: it owns the lock as far as it knows, it found the map not to be deleted, and it
found its connection alive after that. -/
inductive Fold
  | owner
  | checked
  | probed
deriving DecidableEq

/-- `cleared` logs the store deletes that answered success, with their attempt and the mark then
on the row; `deletedEvents` the rows that MAP.DELETED was written for; `gone` is set from the removal of the
row to the next creation of the map. -/
structure World where
  row : Option Row
  next : ℕ
  content : Store → Bool
  runners : ℕ → Option Runner
  workers : ℕ → Option Fold
  deleteLock : Option ℕ
  sceneLock : Option Holder
  cleared : List (ℕ × ℕ × Store)
  deletedEvents : List ℕ
  gone : Bool

def World.empty : World :=
  ⟨none, 0, fun _ => false, fun _ => none, fun _ => none, none, none, [], [], false⟩

inductive Act
  | create
  | fill (s : Store)
  | request
  | spawn (r : ℕ)
  | tryLock (r : ℕ)
  | load (r : ℕ)
  | probe (r : ℕ) (raises : Bool)
  | takeSceneLock (r : ℕ)
  | sceneLockFails (r : ℕ) (busy : Bool)
  | deleteStore (r : ℕ) (takes ok : Bool)
  | finish (r : ℕ) (emitted : Bool)
  | record (r : ℕ)
  | wake (r : ℕ)
  | giveUp (r : ℕ)
  | crash (r : ℕ)
  | stop (r : ℕ)
  | dropDeleteLock
  | dropSceneLock
  | acquire (k : ℕ)
  | check (k : ℕ)
  | held (k : ℕ)
  | save (k : ℕ)
  | release (k : ℕ)
deriving DecidableEq

namespace World

variable (w : World)

def setPc (r attempt : ℕ) (pc : Pc) : World :=
  { w with runners := update w.runners r (some ⟨attempt, pc⟩) }

def closeScene (r : ℕ) : World :=
  { w with sceneLock := if w.sceneLock = some (.runner r) then none else w.sceneLock }

def endRunner (r : ℕ) : World :=
  { w.closeScene r with
    runners := update w.runners r none
    deleteLock := if w.deleteLock = some r then none else w.deleteLock }

def deleting : Bool := w.row.any fun row => row.requested.isSome

/-- What `is_deleting` answers: an unknown map is never written to. -/
def isDeleting : Bool := w.row.all fun row => row.requested.isSome

def erase (s : Store) : World := { w with content := update w.content s false }

end World

def steps (scene : Bool) : List Store :=
  if scene then [.scene, .graph, .images] else [.graph, .images]

def begin (w : World) (r attempt mark : ℕ) (scene : Bool) : World :=
  let pc := match steps scene with
    | s :: rest => .deleting mark w.next scene s rest false
    | [] => .finishing mark w.next scene
  { w.setPc r attempt pc with next := w.next + 1 }

def answered (w : World) (r attempt mark serial : ℕ) (scene : Bool) (rest : List Store)
    (failed : Bool) : World :=
  match rest with
  | s :: rest => w.setPc r attempt (.deleting mark serial scene s rest failed)
  | [] => (w.closeScene r).setPc r attempt (if failed then .failing else .finishing mark serial scene)

def remove (w : World) (emitted : Bool) : World :=
  match w.row with
  | some ⟨inc, some _⟩ =>
    { w with
      row := none
      gone := true
      deletedEvents := if emitted then inc :: w.deletedEvents else w.deletedEvents }
  | _ => w

/-- `enabled` is SCENE_GRAPH_WORKER_ENABLED. -/
def stepRunner (maxAttempts : ℕ) (enabled : Bool) (w : World) (r : ℕ) (run : Runner) :
    Act → Option World
  | .tryLock _ =>
    match run.pc with
    | .connecting =>
      if w.deleteLock = none then some { w.setPc r run.attempt .loading with deleteLock := some r }
      else some (w.endRunner r)
    | _ => none
  | .load _ =>
    match run.pc with
    | .loading =>
      match w.row with
      | some ⟨_, some mark⟩ => some (w.setPc r run.attempt (.probing mark))
      | _ => some (w.endRunner r)
    | _ => none
  | .probe _ raises =>
    match run.pc with
    | .probing mark =>
      if raises || enabled || w.content .scene then some (w.setPc r run.attempt (.locking mark))
      else some (begin w r run.attempt mark false)
    | _ => none
  | .takeSceneLock _ =>
    match run.pc with
    | .locking mark =>
      if w.sceneLock = none then
        some (begin { w with sceneLock := some (.runner r) } r run.attempt mark true)
      else none
    | _ => none
  | .sceneLockFails _ busy =>
    match run.pc with
    | .locking _ => some (w.setPc r run.attempt (if busy then .sleeping else .failing))
    | _ => none
  | .deleteStore _ takes ok =>
    match run.pc with
    | .deleting mark serial scene s rest failed =>
      let w := if takes then w.erase s else w
      if ok then
        if takes then
          match w.row with
          | some ⟨_, some m⟩ => some (answered { w with cleared := (serial, m, s) :: w.cleared } r
              run.attempt mark serial scene rest failed)
          | _ => some (answered w r run.attempt mark serial scene rest failed)
        else none
      else some (answered w r run.attempt mark serial scene rest true)
    | .orphan s => some ((if takes then w.erase s else w).endRunner r)
    | _ => none
  | .finish _ emitted =>
    match run.pc with
    | .finishing _ _ _ => some ((remove w emitted).endRunner r)
    | _ => none
  | .record _ =>
    match run.pc with
    | .failing =>
      if run.attempt + 1 < maxAttempts then some (w.setPc r (run.attempt + 1) .sleeping)
      else some (w.endRunner r)
    | _ => none
  | .wake _ =>
    match run.pc with
    | .sleeping => some (w.setPc r run.attempt .loading)
    | _ => none
  | .giveUp _ =>
    match run.pc with
    | .deleting _ _ _ _ _ _ | .orphan _ => none
    | _ => some (w.endRunner r)
  | .crash _ => some (w.endRunner r)
  | .stop _ =>
    match run.pc with
    | .deleting _ _ _ s _ _ => some ((w.endRunner r).setPc r run.attempt (.orphan s))
    | .orphan _ => none
    | _ => some (w.endRunner r)
  | _ => none

def stepWorker (w : World) (k : ℕ) : Act → Option World
  | .acquire _ =>
    if w.sceneLock = none ∨ w.sceneLock = some (.worker k) then
      some { w with sceneLock := some (.worker k), workers := update w.workers k (some .owner) }
    else none
  | .check _ =>
    if w.workers k = none then none
    else if w.isDeleting then
      some { w with
        workers := update w.workers k none
        sceneLock := if w.sceneLock = some (.worker k) then none else w.sceneLock }
    else some { w with workers := update w.workers k (some .checked) }
  | .held _ =>
    if w.workers k = some .checked then
      some { w with
        workers := update w.workers k (if w.sceneLock = some (.worker k) then some .probed else none) }
    else none
  | .save _ =>
    if w.workers k = some .probed then
      some { w with
        content := update w.content .scene true
        workers := update w.workers k (some .owner) }
    else none
  | .release _ =>
    some { w with
      workers := update w.workers k none
      sceneLock := if w.sceneLock = some (.worker k) then none else w.sceneLock }
  | _ => none

def step (maxAttempts : ℕ) (enabled : Bool) (w : World) (a : Act) : Option World :=
  match a with
  | .create =>
    if w.row = none then some { w with row := some ⟨w.next, none⟩, next := w.next + 1, gone := false }
    else none
  | .fill s => if s ≠ .scene ∧ !w.isDeleting then some { w with content := update w.content s true } else none
  | .request =>
    match w.row with
    | none => some { w with row := some ⟨w.next, some w.next⟩, next := w.next + 1 }
    | some ⟨inc, none⟩ => some { w with row := some ⟨inc, some w.next⟩, next := w.next + 1 }
    | some ⟨_, some _⟩ => some w
  | .spawn r => if w.runners r = none then some (w.setPc r 0 .connecting) else none
  | .tryLock r | .load r | .probe r _ | .takeSceneLock r | .sceneLockFails r _ | .deleteStore r _ _
  | .finish r _ | .record r | .wake r | .giveUp r | .crash r | .stop r =>
    (w.runners r).bind fun run => stepRunner maxAttempts enabled w r run a
  | .dropDeleteLock => some { w with deleteLock := none }
  | .dropSceneLock => some { w with sceneLock := none }
  | .acquire k | .check k | .held k | .save k | .release k =>
    if enabled then stepWorker w k a else none

/-- No delete lock is lost while its runner goes on, no runner is stopped in a store delete, and no
scene worker saves after it lost the scene lock. -/
def Held (w : World) : Act → Prop
  | .dropDeleteLock => w.deleteLock = none
  | .stop r => ∀ run, w.runners r = some run → ∀ mark serial scene s rest failed,
    run.pc ≠ .deleting mark serial scene s rest failed
  | .save k => w.sceneLock = some (.worker k)
  | _ => True

end CloudServer.MapDelete
