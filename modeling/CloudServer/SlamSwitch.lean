import CloudServer.Steps

/-! The SLAM recording of one robot: starting, saving and discarding it, with the lock, the stored
state and API restarts between any two awaits. -/
namespace CloudServer.SlamSwitch
open Steps

inductive Phase
  | recording
  | saving
  | failed
deriving DecidableEq

variable {μ : Type}

/-- An entry of `_slam_state`; a restart may find no map for it. -/
structure Slam (μ : Type) where
  map : Option μ
  state : Phase
deriving DecidableEq

/-- A row of `robot_slam_saves`; `prev` says whether it holds a previous intent. -/
structure Row (μ : Type) where
  map : Option μ
  state : Phase
  prev : Bool
deriving DecidableEq

inductive Held (μ : Type)
  | query (m : μ)
  | localization (m : μ)
  | put (m : μ)
  | switched (m : μ)
  | storing (m : μ) (row : Option (Row μ))
  | saving (id : ℕ) (m : μ)
  | saved (id : ℕ) (m : μ)
  | restoring
  | restored
  | clearing (row : Option (Row μ))
deriving DecidableEq

inductive Outside (μ : Type)
  | start (m : μ)
  | save (id : ℕ) (m : μ)
  | persisting (id : ℕ) (m : μ) (row : Option (Row μ))
  | locking (id : ℕ) (m : μ)
  | ending (id : ℕ) (row : Option (Row μ))
  | discard
  | load
  | loaded (row : Option (Row μ))
  | reload (row : Option (Row μ))
deriving DecidableEq

/-- The robot (the map its unsaved recording was begun for, while it is in slam mode), the stored
row, the memory of the API process and the calls in progress. -/
structure World (μ : Type) where
  robot : Option μ
  row : Option (Row μ)
  slamState : Option (Slam μ)
  prevIntent : Bool
  slamTask : Option ℕ
  held : Option (Held μ)
  outside : List (Outside μ)
  next : ℕ

def World.empty : World μ := ⟨none, none, none, false, none, none, [], 0⟩

inductive MapAnswer
  | stored
  | missing
  | error
deriving DecidableEq

inductive PutAnswer
  | applied
  | problem
  | notApplied
  | lost
deriving DecidableEq

inductive SaveAnswer
  | saved
  | notice
  | nothing
  | failed
deriving DecidableEq

inductive Act (μ : Type)
  | start (m : μ)
  | schedule (m : μ)
  | discard
  | restart
  | lock (t : Outside μ)
  | run (t : Outside μ)
  | mapAnswer (a : MapAnswer)
  | locAnswer (ok : Bool)
  | putRefused (problem : Bool)
  | putTakes
  | putAnswer (a : PutAnswer)
  | written
  | saveSwitches
  | saveAnswer (a : SaveAnswer)
  | restoreRefused
  | restoreTakes
  | restoreAnswer (ok : Bool)
deriving DecidableEq

inductive Status
  | started
  | alreadyRunning
  | present
  | failed
  | busy
deriving DecidableEq

/-- What `_persist` writes: a row, or `none` to delete it. -/
def persisted (s : Option (Slam μ)) (prev : Bool) : Option (Row μ) :=
  match s with
  | some s => some ⟨s.map, s.state, prev⟩
  | none => if prev then some ⟨none, .recording, true⟩ else none

namespace World

variable (w : World μ)

def slamSavePending : Bool := w.slamTask.isSome

def slamSaveFailed : Bool := w.slamState.any fun s => s.state = .failed

def slamBusy : Option Phase := if w.slamSavePending then some .saving else w.slamState.map Slam.state

def release : World μ := { w with held := none }

/-- The end of a save under the lock: the state it leaves, to be persisted outside. -/
def saveDone (id : ℕ) (s : Option (Slam μ)) (prev : Bool) : World μ :=
  { w with
    held := none
    slamState := s
    prevIntent := prev
    outside := .ending id (persisted s prev) :: w.outside }

def saveResult (id : ℕ) (m : μ) (switched : Bool) : SaveAnswer → Option (World μ)
  | .saved => if switched then some (w.saveDone id none false) else none
  | .notice => some (w.saveDone id (some ⟨some m, .failed⟩) w.prevIntent)
  | .nothing => if w.robot.isNone then some (w.saveDone id none false) else none
  | .failed => some (w.saveDone id (some ⟨some m, .failed⟩) w.prevIntent)

/-- The rows that `load_state` has read are taken over. -/
def takeOver (rest : List (Outside μ)) : Option (Row μ) → World μ
  | none => { w with outside := rest }
  | some r =>
    let prev := w.prevIntent || r.prev
    if r.state = .saving ∧ w.slamSavePending = false then
      { w with
        slamState := some ⟨r.map, .failed⟩
        prevIntent := prev
        outside := .reload (persisted (some ⟨r.map, .failed⟩) prev) :: rest }
    else { w with slamState := some ⟨r.map, r.state⟩, prevIntent := prev, outside := rest }

end World

section
variable [DecidableEq μ]

def advance (w : World μ) (t : Outside μ) : Option (World μ) :=
  let rest := w.outside.erase t
  match t with
  | .save id m =>
    some { w with outside := .persisting id m (persisted w.slamState w.prevIntent) :: rest }
  | .persisting id m row => some { w with row := row, outside := .locking id m :: rest }
  | .ending id row =>
    some { w with
      row := row
      outside := rest
      slamTask := if w.slamTask = some id then none else w.slamTask }
  | .load => some { w with outside := .loaded w.row :: rest }
  | .loaded row => some (w.takeOver rest row)
  | .reload row => some { w with row := row, outside := rest }
  | .start _ | .locking _ _ | .discard => none

def entered : Outside μ → Option (Held μ)
  | .start m => some (.query m)
  | .locking id m => some (.saving id m)
  | .discard => some .restoring
  | _ => none

/-- A step and the answer of `start_slam` that it gives. -/
def stepAnswer (w : World μ) : Act μ → Option (World μ × Option (μ × Status))
  | .start m =>
    if w.slamSavePending then some (w, some (m, .busy))
    else if w.slamSaveFailed then some (w, some (m, .failed))
    else some ({ w with outside := .start m :: w.outside }, none)
  | .schedule m =>
    some ({ w with
      slamState := some ⟨some m, .saving⟩
      slamTask := some w.next
      outside := .save w.next m :: w.outside
      next := w.next + 1 }, none)
  | .discard =>
    if w.slamSaveFailed then some ({ w with outside := .discard :: w.outside }, none) else none
  | .restart =>
    some ({ w with
      slamState := none
      prevIntent := false
      slamTask := none
      held := none
      outside := [.load] }, none)
  | .lock t =>
    if w.held = none ∧ t ∈ w.outside then
      (entered t).map fun h => ({ w with held := some h, outside := w.outside.erase t }, none)
    else none
  | .run t => if t ∈ w.outside then (advance w t).map fun w => (w, none) else none
  | .mapAnswer a =>
    match w.held, a with
    | some (.query m), .stored => some (w.release, some (m, .present))
    | some (.query m), .missing => some ({ w with held := some (.localization m) }, none)
    | some (.query m), .error => some (w.release, some (m, .failed))
    | _, _ => none
  | .locAnswer ok =>
    match w.held with
    | some (.localization m) =>
      if !ok then some (w.release, some (m, .failed))
      else if w.robot.isSome then some (w.release, some (m, .alreadyRunning))
      else some ({ w with held := some (.put m) }, none)
    | _ => none
  | .putRefused problem =>
    match w.held with
    | some (.put m) =>
      some ({ w.release with prevIntent := w.prevIntent || problem }, some (m, .failed))
    | _ => none
  | .putTakes =>
    match w.held with
    | some (.put m) => some ({ w with robot := some m, held := some (.switched m) }, none)
    | _ => none
  | .putAnswer a =>
    match w.held with
    | some (.switched m) =>
      match a with
      | .applied =>
        some ({ w with
          prevIntent := true
          slamState := some ⟨some m, .recording⟩
          held := some (.storing m (persisted (some ⟨some m, .recording⟩) true)) }, none)
      | .lost => some (w.release, some (m, .failed))
      | .problem | .notApplied => some ({ w.release with prevIntent := true }, some (m, .failed))
    | _ => none
  | .written =>
    match w.held with
    | some (.storing m row) => some ({ w.release with row := row }, some (m, .started))
    | some (.clearing row) => some ({ w.release with row := row }, none)
    | _ => none
  | .saveSwitches =>
    match w.held with
    | some (.saving id m) => some ({ w with robot := none, held := some (.saved id m) }, none)
    | _ => none
  | .saveAnswer a =>
    match w.held with
    | some (.saving id m) => (w.saveResult id m false a).map fun w => (w, none)
    | some (.saved id m) => (w.saveResult id m true a).map fun w => (w, none)
    | _ => none
  | .restoreRefused =>
    match w.held with
    | some .restoring => some (w.release, none)
    | _ => none
  | .restoreTakes =>
    match w.held with
    | some .restoring => some ({ w with robot := none, held := some .restored }, none)
    | _ => none
  | .restoreAnswer ok =>
    match w.held with
    | some .restored =>
      if ok then
        some ({ w with
          prevIntent := false
          slamState := none
          held := some (.clearing (persisted none false)) }, none)
      else some (w.release, none)
    | _ => none

def step (w : World μ) (a : Act μ) : Option (World μ) := (stepAnswer w a).map Prod.fst

end

/-- A `start_slam` is in progress. -/
def Held.starts : Held μ → Bool
  | .query _ | .localization _ | .put _ | .switched _ | .storing _ _ => true
  | _ => false

def Outside.starts : Outside μ → Bool
  | .start _ => true
  | _ => false

def Held.saveId : Held μ → Option ℕ
  | .saving id _ | .saved id _ => some id
  | _ => none

def Outside.saveId : Outside μ → Option ℕ
  | .save id _ | .persisting id _ _ | .locking id _ | .ending id _ => some id
  | _ => none

/-- The robot was switched to slam mode and the row that says so is not written yet. -/
def Held.unstored : Held μ → Bool
  | .switched _ | .storing _ _ => true
  | _ => false

namespace World

variable (w : World μ)

def starting : Bool := w.held.any Held.starts || w.outside.any Outside.starts

def saves : List ℕ := (w.held.bind Held.saveId).toList ++ w.outside.filterMap Outside.saveId

def unstored : Bool := w.held.any Held.unstored

def Idle : Prop := w.held = none ∧ w.outside = []

end World

/-- A slam mode that is found was begun for the same map; a save is scheduled alone; no restart
before a switched robot's row is written; a switch is answered as applied. -/
def Careful (w : World μ) : Act μ → Prop
  | .locAnswer _ => ∀ m n, w.held = some (.localization m) → w.robot = some n → n = m
  | .schedule _ => w.starting = false ∧ w.saves = []
  | .restart => w.unstored = false
  | .putAnswer a => a = .applied
  | _ => True

end CloudServer.SlamSwitch
