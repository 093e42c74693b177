import CloudServer.Provenance

/-! What imports insert on this server (maps, runs and their legs, history rows, recordings), what
they remember of it, and the undo of an import. -/
namespace CloudServer.ImportUndo

open Provenance

abbrev ImportId := ℕ
abbrev RunId := ℕ
abbrev MapName := ℕ

abbrev Bag := ℕ × ℕ

abbrev Source := ℕ × ℕ

inductive Kind
  | events
  | track
  | state
  | trajectory
deriving DecidableEq

/-- A row of `import_items`: its kind and key. -/
inductive Item
  | run (id : RunId)
  | history (kind : Kind) (run : RunId)
  | rosbag (bag : Bag)
deriving DecidableEq

/-- `status.imported_from`. -/
structure Marker where
  source : Source
  importId : ImportId
  importIds : List ImportId
  complete : Bool
deriving DecidableEq

/-- `list(marker.get("import_ids") or [marker.get("import_id")])`. -/
def Marker.ids (m : Marker) : List ImportId :=
  if m.importIds.isEmpty then [m.importId] else m.importIds

def Marker.finds (m : Marker) : List ImportId := m.importId :: m.importIds

structure MapRow where
  name : MapName
  alive : Bool
  marker : Option Marker
  origin : Origin ImportId
deriving DecidableEq

def MapRow.finds (row : MapRow) : List ImportId := (row.marker.map Marker.finds).getD []

structure Open where
  map : MapName
  importId : ImportId
  marker : Marker
deriving DecidableEq

abbrev History := Kind × RunId × ℕ

/-- The target's tables, with the items that imports have recorded. -/
structure State where
  maps : List MapRow
  runs : List (Thing ImportId RunId)
  legs : List (Thing ImportId (RunId × ℕ))
  rows : List (Thing ImportId History)
  bags : List (Thing ImportId Bag)
  items : List (ImportId × Item)
  opened : List Open
  copying : List (ImportId × Bag)
  started : List ImportId

def legItem (leg : RunId × ℕ) : Item := .run leg.1

def rowItem (row : History) : Item := .history row.1 row.2.1

inductive Act
  | beginMap (x : ImportId) (map : MapName) (source : Source)
  | commitMap (x : ImportId) (map : MapName)
  | leaveMap (x : ImportId) (map : MapName)
  | addRuns (x : ImportId) (runs : List RunId) (legs : List (RunId × ℕ))
  | addHistory (x : ImportId) (kind : Kind) (run : RunId) (keys : List ℕ)
  | recordBag (x : ImportId) (bag : Bag)
  | copyBag (x : ImportId) (bag : Bag)
  | leaveBag (x : ImportId) (bag : Bag)
  | rollback (x : ImportId) (refused : List Bag)
  | otherMap (map : MapName)
  | otherRun (run : RunId)
  | otherLeg (leg : RunId × ℕ)
  | otherRow (row : History)
  | otherBag (bag : Bag)
  | hideMap (map : MapName)
  | dropMap (map : MapName)
  | dropRun (run : RunId)
  | dropRow (row : History)
  | dropBag (bag : Bag)

def State.row? (S : State) (map : MapName) : Option MapRow := S.maps.find? (·.name = map)

def State.hasRun (S : State) (run : RunId) : Bool := S.runs.any (·.key = run)

def State.hasLeg (S : State) (leg : RunId × ℕ) : Bool := S.legs.any (·.key = leg)

def State.start (S : State) (x : ImportId) : State := { S with started := x :: S.started }

/-- `_apply_map` up to its writes, under the map's lock. -/
def State.beginMap (S : State) (x : ImportId) (map : MapName) (source : Source) : State :=
  match S.row? map with
  | some row => match row.marker with
    | some m =>
      if m.source = source then
        let ids := if x ∈ m.ids then m.ids else m.ids ++ [x]
        { S with opened := ⟨map, x, { m with importIds := ids }⟩ :: S.opened }
      else S
    | none => S
  | none =>
    let m : Marker := ⟨source, x, [], false⟩
    { S with
      maps := ⟨map, true, some m, .imported x⟩ :: S.maps
      opened := ⟨map, x, { m with importIds := [x] }⟩ :: S.opened }

/-- `commit_map`: the row of that name, whichever it is now. -/
def State.commitMap (S : State) (o : Open) : State :=
  { S with
    maps := S.maps.map fun row => if row.name = o.map then
      { row with marker := some { o.marker with complete := true } } else row
    opened := S.opened.erase o }

def State.addRun (x : ImportId) (S : State) (run : RunId) : State :=
  if S.hasRun run then S
  else { S with runs := ⟨run, .imported x⟩ :: S.runs, items := (x, .run run) :: S.items }

def State.addLeg (x : ImportId) (S : State) (leg : RunId × ℕ) : State :=
  if S.hasLeg leg then S else { S with legs := ⟨leg, .imported x⟩ :: S.legs }

/-- The rows that `add_history` inserts. -/
def State.newKeys (S : State) (kind : Kind) (run : RunId) (keys : List ℕ) : List ℕ :=
  if kind = .events then
    keys.dedup.filter fun key => ¬S.rows.any fun t => t.key.1 = .events ∧ t.key.2.2 = key
  else if S.rows.any fun t => t.key.1 = kind ∧ t.key.2.1 = run then [] else keys

def State.addHistory (S : State) (x : ImportId) (kind : Kind) (run : RunId) (keys : List ℕ) :
    State :=
  let new := S.newKeys kind run keys
  if new.isEmpty then S
  else { S with
    rows := new.map (fun key => ⟨(kind, run, key), .imported x⟩) ++ S.rows
    items := (x, .history kind run) :: S.items }

/-- `rollback`: the maps that name the import are deleted, then what `import_items` has for it. The
deletes of the refused recordings fail, which `delete_bag` reports like a missing recording. -/
def State.rollback (S : State) (x : ImportId) (refused : List Bag) : State :=
  { S with
    maps := S.maps.map fun row => if x ∈ row.finds then { row with alive := false } else row
    runs := removed S.items .run x S.runs
    legs := removed S.items legItem x S.legs
    rows := removed S.items rowItem x S.rows
    bags := S.bags.filter fun t => (x, .rosbag t.key) ∉ S.items ∨ t.key ∈ refused
    items := S.items.filter (·.1 ≠ x) }

def step (S : State) : Act → Option State
  | .beginMap x map source =>
    if S.opened.any (·.map = map) then none else some ((S.start x).beginMap x map source)
  | .commitMap x map =>
    (S.opened.find? fun o => o.map = map ∧ o.importId = x).map S.commitMap
  | .leaveMap x map =>
    some { S with opened := S.opened.filter fun o => ¬(o.map = map ∧ o.importId = x) }
  | .addRuns x runs legs =>
    let T := runs.foldl (State.addRun x) (S.start x)
    if legs.all fun leg => T.hasRun leg.1 then some (legs.foldl (State.addLeg x) T) else none
  | .addHistory x kind run keys => some ((S.start x).addHistory x kind run keys)
  | .recordBag x bag =>
    -- `_bag_size` has found nothing, or could not look: the recording can be there
    some { S.start x with
      items := (x, .rosbag bag) :: S.items
      copying := (x, bag) :: S.copying }
  | .copyBag x bag =>
    if (x, bag) ∈ S.copying then
      some { S with
        bags := ⟨bag, .imported x⟩ :: S.bags.filter (·.key ≠ bag)
        copying := S.copying.erase (x, bag) }
    else none
  | .leaveBag x bag => some { S with copying := S.copying.filter (· ≠ (x, bag)) }
  | .rollback x refused =>
    if S.opened.any (·.importId = x) || S.copying.any (·.1 = x) then none
    else some (S.rollback x refused)
  | .otherMap map => if (S.row? map).isSome then none
    else some { S with maps := ⟨map, true, none, .other S.started⟩ :: S.maps }
  | .otherRun run => if S.hasRun run then none
    else some { S with runs := ⟨run, .other S.started⟩ :: S.runs }
  | .otherLeg leg => if S.hasLeg leg || !S.hasRun leg.1 then none
    else some { S with legs := ⟨leg, .other S.started⟩ :: S.legs }
  | .otherRow row => some { S with rows := ⟨row, .other S.started⟩ :: S.rows }
  | .otherBag bag =>
    some { S with bags := ⟨bag, .other S.started⟩ :: S.bags.filter (·.key ≠ bag) }
  | .hideMap map => some { S with
      maps := S.maps.map fun row => if row.name = map then { row with alive := false } else row }
  | .dropMap map => some { S with maps := S.maps.filter (·.name ≠ map) }
  | .dropRun run => some { S with
      runs := S.runs.filter (·.key ≠ run)
      legs := S.legs.filter (·.key.1 ≠ run) }
  | .dropRow row => some { S with rows := S.rows.filter (·.key ≠ row) }
  | .dropBag bag => some { S with bags := S.bags.filter (·.key ≠ bag) }

end CloudServer.ImportUndo
