import CloudServer.ImportMap

/-! A whole import, statement by statement, on the whole target: maps, runs with their history, and
recordings. It may stop after any statement. -/
namespace CloudServer.ImportFrame

open List Function
open Interact (Prog)
open ImportMap (MapName Key SessionId ImportId Row Doc Stored Coll Bundle Fate Store Object ObjectFate
  Marker Phase MapState Lifecycle batches batch insertDocs getRow beginMap reread openRow putBatches
  copyObjects putObject copyView copyContent copyMap commitMap applyMap finalState andThen)

abbrev RunId := ℕ

abbrev Bag := ℕ × ℕ

inductive Track
  | track
  | state
  | trajectory
deriving DecidableEq

/-- What an import can meet on this server. A row of a map has a spec and more of its status beside
what the import reads of it. -/
structure Target (β : Type) where
  rows : MapName → Option (Row × β)
  docs : MapName → Coll → Key → Option (Doc β)
  objects : MapName → Key → Option (Stored β)
  sessions : SessionId → Option (MapName × β)
  views : MapName → Option β
  runs : RunId → Option β
  legs : RunId × ℕ → Option β
  events : ℕ → Option β
  tracks : Track → RunId → List β
  bags : Bag → Option (Stored β)
  sidecars : Bag → Option β

section
variable {β : Type}

def Target.map (t : Target β) (dst : MapName) : Store β where
  row := (t.rows dst).map Prod.fst
  docs := t.docs dst
  objects := t.objects dst
  sessions id := (t.sessions id).map fun x => if x.1 = dst then .here x.2 else .elsewhere
  view := t.views dst
  reported := false

/-- The map after a statement; `spec` is what a new row gets. -/
def Target.setMap (t : Target β) (dst : MapName) (spec : β) (s : Store β) : Target β :=
  { t with
    rows := update t.rows dst
      (s.row.map fun r => (r, ((t.rows dst).map Prod.snd).getD spec))
    docs := update t.docs dst s.docs
    objects := update t.objects dst s.objects
    sessions := fun id => match s.sessions id with
      | none => none
      | some (.here x) => some (dst, x)
      | some .elsewhere => t.sessions id
    views := update t.views dst s.view }

/-- A recording is stored whole, or the call fails: with nothing stored, with another size, or
before its sidecar. -/
inductive BagFate
  | done
  | failed
  | torn (size : ℕ)
  | bare

inductive Op (β : Type)
  | onMap (dst : MapName) (spec : β) (op : ImportMap.Op β)
  | addRuns (runs : List (RunId × β)) (legs : List ((RunId × ℕ) × β)) (fate : Fate)
  | addEvents (rows : List (ℕ × β)) (fate : Fate)
  | addTrack (kind : Track) (run : RunId) (rows : List β) (fate : Fate)
  | bagSize (bag : Bag) (ok : Bool)
  | putBag (bag : Bag) (data : Stored β) (sidecar : β) (fate : BagFate)

/-- What a statement returns: `none` or `false` when it raises. -/
def Res : Op β → Type
  | .onMap _ _ op => ImportMap.Res op
  | .bagSize .. => Option ℕ
  | _ => Bool

abbrev Import (β α : Type) := Prog (Op β) Res α

def insertRows {κ : Type} [DecidableEq κ] (old : κ → Option β) (rows : List (κ × β)) (k : κ) :
    Option β :=
  (old k).or (rows.lookup k)

def Target.addRuns (t : Target β) (runs : List (RunId × β)) (legs : List ((RunId × ℕ) × β)) :
    Target β :=
  { t with runs := insertRows t.runs runs, legs := insertRows t.legs legs }

/-- `add_history` of a kind other than events: only where the run has no rows of the kind. -/
def Target.addTrack (t : Target β) (kind : Track) (run : RunId) (rows : List β) : Target β :=
  if (t.tracks kind run).isEmpty then
    { t with tracks := update t.tracks kind (update (t.tracks kind) run rows) }
  else t

def Target.putData (t : Target β) (bag : Bag) (data : Stored β) : Target β :=
  { t with bags := update t.bags bag (some data) }

def Target.putSidecar (t : Target β) (bag : Bag) (sidecar : β) : Target β :=
  { t with sidecars := update t.sidecars bag (some sidecar) }

def step : (o : Op β) → Target β → Res o × Target β
  | .onMap dst spec op, t =>
    ((ImportMap.step op (t.map dst)).1, t.setMap dst spec (ImportMap.step op (t.map dst)).2)
  | .addRuns runs legs fate, t => (fate.ok, if fate = .failed then t else t.addRuns runs legs)
  | .addEvents rows fate, t =>
    (fate.ok, if fate = .failed then t else { t with events := insertRows t.events rows })
  | .addTrack kind run rows fate, t =>
    (fate.ok, if fate = .failed then t else t.addTrack kind run rows)
  | .bagSize bag ok, t => (if ok then (t.bags bag).map (·.size) else none, t)
  | .putBag bag data sidecar fate, t => match fate with
    | .done => (true, (t.putData bag data).putSidecar bag sidecar)
    | .failed => (false, t)
    | .torn size => (false, t.putData bag { data with size := size })
    | .bare => (false, t.putData bag data)

structure MapEntry (β : Type) where
  target : MapName
  bundle : Bundle β
  spec : β

structure Mission (β : Type) where
  runs : List (RunId × β)
  legs : List ((RunId × ℕ) × β)
  events : List (RunId × ℕ × β)
  tracks : List (Track × List (RunId × β))

/-- A recording; `had` was left out of the bundle because the target had it. -/
structure Recording (β : Type) where
  bag : Bag
  size : ℕ
  body : β
  sidecar : β
  had : Bool

/-- `plan_import` plans a name of the target for one map of the bundle (`same`). -/
structure Plan (β : Type) where
  ok : Bool
  maps : List (MapEntry β)
  missions : List (Mission β)
  bags : List (Recording β)
  remap : β → β
  same : ∀ e ∈ maps, ∀ e' ∈ maps, e.target = e'.target → e.bundle = e'.bundle

inductive End
  | ok
  | failed
  | stopped
deriving DecidableEq

/-- Where `should_stop` is asked, outside the maps. -/
inductive Place
  | map (i : ℕ)
  | mission (i : ℕ)
  | runs (i j : ℕ)
  | events (i j : ℕ)
  | track (i j k : ℕ)
  | bag (i : ℕ)
  | data (i : ℕ)

/-- What an import meets: the check of the bundle, the requests to stop (`stopped` for one inside a
map), the answers of its statements. -/
structure Script where
  verified : Bool
  stop : Place → Bool
  map : ℕ → ImportMap.Script
  stopped : ℕ → Bool
  runs : ℕ → ℕ → Fate
  events : ℕ → ℕ → Fate
  track : ℕ → ℕ → ℕ → Fate
  stat : ℕ → Bool
  bag : ℕ → BagFate

def Script.smooth : Script :=
  ⟨true, fun _ => false, fun _ => .smooth, fun _ => false, fun _ _ => .done, fun _ _ => .done,
    fun _ _ _ => .done, fun _ => true, fun _ => .done⟩

/-- Which looks at an object of a map, and at a recording, are answered. -/
structure Looks where
  object : ℕ → ℕ → Bool
  bag : ℕ → Bool

def Script.looks (w : Script) : Looks := ⟨fun i => (w.map i).stat, w.stat⟩

def bagSize (bag : Bag) (ok : Bool) : Import β (Option ℕ) := Prog.perform (Op.bagSize bag ok)

def onMap {α : Type} (dst : MapName) (spec : β) : ImportMap.Import β α → Import β α
  | .done a => .done a
  | .call op k => .call (.onMap dst spec op) fun r => onMap dst spec (k r)

def applyMaps (importId : ImportId) (w : Script) : ℕ → List (MapEntry β) → Import β Bool
  | _, [] => pure false
  | i, e :: rest =>
    if w.stop (.map i) then pure true
    else do
      let ok ← onMap e.target e.spec (applyMap e.target e.bundle importId (w.map i))
      if !ok && w.stopped i then pure true else applyMaps importId w (i + 1) rest

def orFailed (p : Import β Bool) (rest : Import β End) : Import β End := do
  if ← p then rest else pure .failed

/-- The batches of `_apply_runs`: runs with the legs of each batch. -/
def addBatches (p : Plan β) (m : Mission β) (w : Script) (i : ℕ) :
    ℕ → List (List (RunId × β)) → Import β End → Import β End
  | _, [], next => next
  | j, runs :: rest, next =>
    if w.stop (.runs i j) then pure .stopped
    else orFailed (Prog.perform (Op.addRuns (runs.map fun r => (r.1, p.remap r.2))
        (runs.flatMap fun r => (m.legs.filter (·.1.1 = r.1)).map fun l => (l.1, p.remap l.2))
        (w.runs i j)))
      (addBatches p m w i (j + 1) rest next)

def addEvents (p : Plan β) (w : Script) (i : ℕ) :
    ℕ → List (List (RunId × ℕ × β)) → Import β End → Import β End
  | _, [], next => next
  | j, rows :: rest, next =>
    if w.stop (.events i j) then pure .stopped
    else orFailed (Prog.perform (Op.addEvents (rows.map fun r => (r.2.1, p.remap r.2.2))
        (w.events i j)))
      (addEvents p w i (j + 1) rest next)

def addTrack (p : Plan β) (w : Script) (i j : ℕ) (kind : Track) :
    ℕ → List (List (RunId × β)) → Import β End → Import β End
  | _, [], next => next
  | k, rows :: rest, next =>
    if w.stop (.track i j k) then pure .stopped
    else match rows with
      | [] => addTrack p w i j kind (k + 1) rest next
      | r :: _ =>
        orFailed (Prog.perform (Op.addTrack kind r.1 (rows.map fun r => p.remap r.2)
            (w.track i j k)))
          (addTrack p w i j kind (k + 1) rest next)

def addTracks (p : Plan β) (w : Script) (i : ℕ) :
    ℕ → List (Track × List (RunId × β)) → Import β End
  | _, [] => pure .ok
  | j, t :: rest =>
    addTrack p w i j t.1 0 (t.2.splitBy fun a b => a.1 = b.1) (addTracks p w i (j + 1) rest)

/-- `_apply_runs` and `_apply_history`. -/
def applyRuns (p : Plan β) (w : Script) (i : ℕ) (m : Mission β) : Import β End :=
  addBatches p m w i 0 (batches 500 m.runs)
    (addEvents p w i 0 (m.events.splitBy fun a b => a.1 = b.1) (addTracks p w i 0 m.tracks))

def applyMissions (p : Plan β) (w : Script) : ℕ → List (Mission β) → Bool → Import β Bool
  | _, [], stopped => pure stopped
  | i, m :: rest, stopped =>
    if stopped || w.stop (.mission i) then pure true
    else do
      let ended ← applyRuns p w i m
      applyMissions p w (i + 1) rest (ended = .stopped)

/-- `_apply_rosbag`. -/
def applyRosbag (w : Script) (i : ℕ) (r : Recording β) : Import β End := do
  let size ← bagSize r.bag (w.stat i)
  if size = some r.size then pure .ok
  else if r.had then pure .failed
  else if size.isSome then pure .failed
  else if w.stop (.data i) then pure .stopped
  else orFailed (Prog.perform (Op.putBag r.bag ⟨r.size, r.body⟩ r.sidecar (w.bag i))) (pure .ok)

def applyBags (w : Script) : ℕ → List (Recording β) → Bool → Import β Bool
  | _, [], stopped => pure stopped
  | i, r :: rest, stopped =>
    if stopped || w.stop (.bag i) then pure true
    else do
      let ended ← applyRosbag w i r
      applyBags w (i + 1) rest (ended = .stopped)

/-- `apply_import`: whether it was stopped. -/
def applyImport (p : Plan β) (importId : ImportId) (w : Script) : Import β Bool :=
  if p.ok && w.verified then do
    let stopped ← applyMaps importId w 0 p.maps
    let stopped ← applyMissions p w 0 p.missions stopped
    applyBags w 0 p.bags stopped
  else pure false

def Row.importing (r : Row) : Bool := r.importedFrom.any fun m => m.phase = .importing

/-- What was on the target is as it was, but for the markers of the maps that are imported and the
state of maps whose marker said importing. -/
structure Unchanged (targets : List MapName) (t t' : Target β) : Prop where
  rows : ∀ name r spec, t.rows name = some (r, spec) → ∃ r', t'.rows name = some (r', spec) ∧
    r'.lifecycle = r.lifecycle ∧ (Row.importing r = false → r'.state = r.state) ∧
    (name ∉ targets → r' = r)
  docs : ∀ name coll key d, t.docs name coll key = some d → t'.docs name coll key = some d
  objects : ∀ name key x, t.objects name key = some x → t'.objects name key = some x
  sessions : ∀ id x, t.sessions id = some x → t'.sessions id = some x
  views : ∀ name v, t.views name = some v → t'.views name = some v
  runs : ∀ id r, t.runs id = some r → t'.runs id = some r
  legs : ∀ id l, t.legs id = some l → t'.legs id = some l
  events : ∀ id e, t.events id = some e → t'.events id = some e
  tracks : ∀ kind run, t.tracks kind run <+: t'.tracks kind run
  bags : ∀ bag x, t.bags bag = some x →
    t'.bags bag = some x ∧ t'.sidecars bag = t.sidecars bag

/-- The row of the target, if there is one, is of an earlier import of the same map. -/
def Opens (t : Target β) (e : MapEntry β) : Prop :=
  ∀ r spec, t.rows e.target = some (r, spec) → r.lifecycle ≠ .deleted ∧
    ∃ m, r.importedFrom = some m ∧ m.source = e.bundle.source ∧ m.map = e.bundle.map

/-- The target has an object of the listed size, and the look at it is answered. -/
def Found (t : Target β) (dst : MapName) (look : ℕ → Bool) (j : ℕ) (o : Object β) :
    Prop :=
  look j = true ∧ (t.objects dst o.key).map (·.size) = some o.size

/-- The first `n` objects of the bundle that were left out of it are found. -/
def PresentFound (t : Target β) (e : MapEntry β) (look : ℕ → Bool) (n : ℕ) : Prop :=
  ∀ j < n, ∀ o, e.bundle.objects[j]? = some o → o.present = true → Found t e.target look j o

/-- What a plan may meet on the target. Of a map it would go on with, each object that was on the
target, up to the first one left out of the bundle and not found, is found, and the map is in the
state a commit gives it, if its marker said complete and all objects left out are found. Of a
recording that was on the target, the look is answered. -/
structure Harmless (p : Plan β) (t : Target β) (L : Looks) : Prop where
  objects : ∀ i e, p.maps[i]? = some e → Opens t e → ∀ j o, e.bundle.objects[j]? = some o →
    PresentFound t e (L.object i) j → o.present = false → (t.objects e.target o.key).isSome →
    Found t e.target (L.object i) j o
  states : ∀ i e, p.maps[i]? = some e → Opens t e →
    PresentFound t e (L.object i) e.bundle.objects.length → ∀ r spec m,
    t.rows e.target = some (r, spec) → r.importedFrom = some m → m.phase = .complete →
    r.state = some (finalState m.sourceState e.bundle.nodes.length)
  bags : ∀ i r, p.bags[i]? = some r → r.had = false → (t.bags r.bag).isSome → L.bag i = true

def Marker.origin (m : Marker) : ℕ × MapName × Option MapState :=
  (m.source, m.map, m.sourceState)

/-- What an import keeps of the target `t₀` it started on. -/
structure Frame (p : Plan β) (t₀ t : Target β) : Prop
    extends Unchanged (p.maps.map (·.target)) t₀ t where
  origins : ∀ name r₀ spec₀ r spec, t₀.rows name = some (r₀, spec₀) → t.rows name = some (r, spec) →
    r.importedFrom.map Marker.origin = r₀.importedFrom.map Marker.origin
  present : ∀ e ∈ p.maps, ∀ o ∈ e.bundle.objects, o.present = true →
    t.objects e.target o.key = t₀.objects e.target o.key

/-- The marker is the one the map had, as far as an import reads it. -/
def Agrees (t₀ : Target β) (dst : MapName) (marker : Marker) : Prop :=
  ∀ r spec, t₀.rows dst = some (r, spec) →
    r.importedFrom.map Marker.origin = some (Marker.origin marker)

/-- The statements on a map that keep the frame. -/
def Allowed (p : Plan β) (t₀ : Target β) (dst : MapName) : ImportMap.Op β → Prop
  | .putObject o _ => t₀.objects dst o.key = none ∧ ∀ e ∈ p.maps, e.target = dst →
    ∀ o' ∈ e.bundle.objects, o'.present = true → o'.key ≠ o.key
  | .commitMap state marker _ => Agrees t₀ dst marker ∧ ∀ r spec, t₀.rows dst = some (r, spec) →
    Row.importing r = false → r.state = some state
  | .addElsewhere .. | .mark .. | .load .. | .deleteGraph .. | .deleteImages .. | .finish .. => False
  | _ => True

def Admits (p : Plan β) (t₀ : Target β) : Op β → Prop
  | .onMap dst _ op => dst ∈ p.maps.map (·.target) ∧ Allowed p t₀ dst op
  | .putBag bag .. => t₀.bags bag = none
  | _ => True

variable {marker : Marker} {op : ImportMap.Op β}

section
variable {p : Plan β} {t t₀ : Target β} {dst : MapName} {spec : β} {s : Store β}

lemma Frame.refl (p : Plan β) (t : Target β) : Frame p t t where
  rows := fun _ r _ h => ⟨r, h, rfl, fun _ => rfl, fun _ => rfl⟩
  docs := fun _ _ _ _ h => h
  objects := fun _ _ _ h => h
  sessions := fun _ _ h => h
  views := fun _ _ h => h
  runs := fun _ _ h => h
  legs := fun _ _ h => h
  events := fun _ _ h => h
  tracks := fun _ _ => prefix_refl _
  bags := fun _ _ h => ⟨h, rfl⟩
  origins := fun _ _ _ _ _ h₀ h => by cases h₀.symm.trans h; rfl
  present := fun _ _ _ _ _ => rfl

lemma insertRows_some {κ : Type} [DecidableEq κ] {old : κ → Option β} {rows : List (κ × β)} {k : κ}
    {r : β} (h : old k = some r) : insertRows old rows k = some r := by
  unfold insertRows
  rw [h]
  rfl

@[simp]
lemma map_row : (t.map dst).row = (t.rows dst).map Prod.fst := rfl

@[simp]
lemma map_objects : (t.map dst).objects = t.objects dst := rfl

@[simp]
lemma setMap_rows : (t.setMap dst spec s).rows dst =
    s.row.map fun r => (r, ((t.rows dst).map Prod.snd).getD spec) := by
  simp [Target.setMap]

@[simp]
lemma setMap_objects : (t.setMap dst spec s).objects dst = s.objects := by
  simp [Target.setMap]

structure Gentle (p : Plan β) (t₀ t : Target β) (dst : MapName) (s : Store β) : Prop where
  row : ∀ r, (t.map dst).row = some r → ∃ r', s.row = some r' ∧ r'.lifecycle = r.lifecycle ∧
    (r' = r ∨ ∀ r₀ spec, t₀.rows dst = some (r₀, spec) →
      (Row.importing r₀ = false → r'.state = r₀.state) ∧
      r'.importedFrom.map Marker.origin = r₀.importedFrom.map Marker.origin)
  docs : ∀ coll key d, t.docs dst coll key = some d → s.docs coll key = some d
  objects : ∀ key x, t₀.objects dst key = some x → t.objects dst key = some x →
    s.objects key = some x
  sessions : ∀ id x, (t.map dst).sessions id = some x → s.sessions id = some x
  view : ∀ v, t.views dst = some v → s.view = some v
  present : ∀ e ∈ p.maps, e.target = dst → ∀ o ∈ e.bundle.objects, o.present = true →
    s.objects o.key = t.objects dst o.key

lemma gentle_same (p : Plan β) (t₀ t : Target β) (dst : MapName) :
    Gentle p t₀ t dst (t.map dst) where
  row := fun r hr => ⟨r, hr, rfl, .inl rfl⟩
  docs := fun _ _ _ h => h
  objects := fun _ _ _ h => h
  sessions := fun _ _ h => h
  view := fun _ h => h
  present := fun _ _ _ _ _ _ => rfl

/-- A row that was on the target is there, with the state and the origin the import leaves it. -/
lemma Frame.setMap_row (h : Frame p t₀ t) (hs : Gentle p t₀ t dst s) (spec : β) {r₀ : Row}
    {spec₀ : β} (hr₀ : t₀.rows dst = some (r₀, spec₀)) :
    ∃ r', (t.setMap dst spec s).rows dst = some (r', spec₀) ∧ r'.lifecycle = r₀.lifecycle ∧
      (Row.importing r₀ = false → r'.state = r₀.state) ∧
      r'.importedFrom.map Marker.origin = r₀.importedFrom.map Marker.origin := by
  obtain ⟨r, hr, hlife, hstate, -⟩ := h.rows dst r₀ spec₀ hr₀
  have horigin := h.origins dst r₀ spec₀ r spec₀ hr₀ hr
  obtain ⟨r', hr', hlife', hmoved⟩ := hs.row r (by rw [map_row, hr]; rfl)
  refine ⟨r', by rw [setMap_rows, hr', hr]; rfl, hlife'.trans hlife, ?_⟩
  rcases hmoved with rfl | hmoved
  · exact ⟨hstate, horigin⟩
  · exact hmoved r₀ spec₀ hr₀

lemma setMap_rows_ne {name : MapName} (hname : name ≠ dst) :
    (t.setMap dst spec s).rows name = t.rows name := update_of_ne hname ..

lemma Frame.setMap (h : Frame p t₀ t) (hdst : dst ∈ p.maps.map (·.target))
    (hs : Gentle p t₀ t dst s) : Frame p t₀ (t.setMap dst spec s) where
  rows := by
    intro name r₀ spec₀ hr₀
    by_cases hname : name = dst
    · subst hname
      obtain ⟨r', hr', hlife, hstate, -⟩ := h.setMap_row hs spec hr₀
      exact ⟨r', hr', hlife, hstate, fun hnot => absurd hdst hnot⟩
    · rw [setMap_rows_ne hname]
      exact h.rows name r₀ spec₀ hr₀
  origins := by
    intro name r₀ spec₀ r spec' hr₀ hr
    by_cases hname : name = dst
    · subst hname
      obtain ⟨r', hr', -, -, horigin⟩ := h.setMap_row hs spec hr₀
      cases hr'.symm.trans hr
      exact horigin
    · rw [setMap_rows_ne hname] at hr
      exact h.origins name r₀ spec₀ r spec' hr₀ hr
  present := by
    intro e he o ho hpresent
    rw [← h.present e he o ho hpresent]
    by_cases hname : e.target = dst
    · rw [hname, setMap_objects]
      exact hs.present e he hname o ho hpresent
    · exact congrFun (update_of_ne hname ..) o.key
  docs := by
    intro name coll key d hd
    have hd' := h.docs name coll key d hd
    unfold Target.setMap
    dsimp only
    by_cases hname : name = dst
    · subst hname
      rw [update_self]
      exact hs.docs coll key d hd'
    · rw [update_of_ne hname]
      exact hd'
  objects := by
    intro name key x hx
    have hx' := h.objects name key x hx
    unfold Target.setMap
    dsimp only
    by_cases hname : name = dst
    · subst hname
      rw [update_self]
      exact hs.objects key x hx hx'
    · rw [update_of_ne hname]
      exact hx'
  sessions := by
    intro id x hx
    have hx' := h.sessions id x hx
    have hview : (t.map dst).sessions id =
        some (if x.1 = dst then .here x.2 else .elsewhere) := by
      unfold Target.map
      dsimp only
      rw [hx']
      rfl
    have hkept := hs.sessions id _ hview
    unfold Target.setMap
    dsimp only
    rw [hkept]
    split_ifs with hdst'
    · rw [← hdst']
    · exact hx'
  views := by
    intro name v hv
    have hv' := h.views name v hv
    unfold Target.setMap
    dsimp only
    by_cases hname : name = dst
    · subst hname
      rw [update_self]
      exact hs.view v hv'
    · rw [update_of_ne hname]
      exact hv'
  runs := h.runs
  legs := h.legs
  events := h.events
  tracks := h.tracks
  bags := h.bags

lemma gentle_beginMap (marker : Marker) :
    Gentle p t₀ t dst ((t.map dst).beginMap marker).2 := by
  unfold Store.beginMap
  split
  · rename_i hnone
    exact { gentle_same p t₀ t dst with row := fun r hr => by cases hnone.symm.trans hr }
  · exact gentle_same p t₀ t dst

lemma gentle_addSessions (sessions : List (SessionId × β)) :
    Gentle p t₀ t dst ((t.map dst).addSessions sessions) :=
  { gentle_same p t₀ t dst with
    sessions := fun id x hx => by
      unfold Store.addSessions
      dsimp only
      rw [hx]
      rfl }

lemma gentle_insertMany (coll : Coll) (docs : List (Doc β)) :
    Gentle p t₀ t dst ((t.map dst).insertMany coll docs) :=
  { gentle_same p t₀ t dst with
    docs := fun coll' key d hd => by
      unfold Store.insertMany
      dsimp only
      by_cases hcoll : coll' = coll
      · subst hcoll
        rw [update_self]
        unfold insertDocs
        rw [show (t.map dst).docs coll' key = some d from hd]
        rfl
      · rw [update_of_ne hcoll]
        exact hd }

lemma gentle_putObject {key : Key} {stored : Stored β} (hnone : t₀.objects dst key = none)
    (hfree : ∀ e ∈ p.maps, e.target = dst → ∀ o ∈ e.bundle.objects, o.present = true →
      o.key ≠ key) : Gentle p t₀ t dst ((t.map dst).putObject key stored) :=
  { gentle_same p t₀ t dst with
    objects := fun key' x hx₀ hx => by
      have hkey : key' ≠ key := by
        rintro rfl
        cases hnone.symm.trans hx₀
      exact (update_of_ne hkey ..).trans hx
    present := fun e he hdst o ho hpresent =>
      update_of_ne (hfree e he hdst o ho hpresent) .. }

lemma gentle_putViewSettings (settings : β) :
    Gentle p t₀ t dst ((t.map dst).putViewSettings settings) :=
  { gentle_same p t₀ t dst with
    view := fun v hv => by
      unfold Store.putViewSettings
      dsimp only
      rw [show (t.map dst).view = some v from hv]
      rfl }

lemma gentle_commitMap {state : MapState}
    (hagrees : Agrees t₀ dst marker) (hstate : ∀ r spec, t₀.rows dst = some (r, spec) →
      Row.importing r = false → r.state = some state) :
    Gentle p t₀ t dst ((t.map dst).commitMap state marker) :=
  { gentle_same p t₀ t dst with
    row := fun r hr => by
      refine ⟨{ r with state := some state, importedFrom := some marker }, ?_, rfl, .inr ?_⟩
      · unfold Store.commitMap
        dsimp only
        rw [hr]
        rfl
      · intro r₀ spec hr₀
        exact ⟨fun himporting => (hstate r₀ spec hr₀ himporting).symm,
          (hagrees r₀ spec hr₀).symm⟩ }

lemma gentle_step (hop : Allowed p t₀ dst op) :
    Gentle p t₀ t dst (ImportMap.step op (t.map dst)).2 := by
  have hsame := gentle_same p t₀ t dst
  cases op with
  | lock granted => exact hsame
  | getRow ok => exact hsame
  | beginMap marker fate =>
    cases fate with
    | done => exact gentle_beginMap marker
    | failed => exact hsame
    | lost => exact gentle_beginMap marker
  | addSessions sessions fate =>
    cases fate with
    | failed => exact hsame
    | done | lost => exact gentle_addSessions sessions
  | insertMany coll docs fate =>
    cases fate with
    | done => exact gentle_insertMany coll docs
    | broken got => exact gentle_insertMany coll _
  | objectSize key ok => exact hsame
  | putObject o fate =>
    cases fate with
    | done => exact gentle_putObject hop.1 hop.2
    | failed => exact hsame
    | lost => exact gentle_putObject hop.1 hop.2
    | torn size =>
      dsimp only [ImportMap.step]
      split
      · exact hsame
      · exact gentle_putObject hop.1 hop.2
  | putViewSettings settings fate =>
    cases fate with
    | failed => exact hsame
    | done | lost => exact gentle_putViewSettings settings
  | commitMap state marker fate =>
    cases fate with
    | failed => exact hsame
    | done | lost => exact gentle_commitMap hop.1 hop.2
  | leave ok closed => exact { hsame with }
  | _ => exact hop.elim

lemma Frame.putData (h : Frame p t₀ t) {bag : Bag} (data : Stored β)
    (hnone : t₀.bags bag = none) : Frame p t₀ (t.putData bag data) :=
  { h with
    bags := fun bag' x hx => by
      have hbag : bag' ≠ bag := by
        rintro rfl
        cases hnone.symm.trans hx
      obtain ⟨hdata, hsidecar⟩ := h.bags bag' x hx
      exact ⟨(update_of_ne hbag ..).trans hdata, hsidecar⟩ }

lemma Frame.putSidecar (h : Frame p t₀ t) {bag : Bag} (sidecar : β)
    (hnone : t₀.bags bag = none) : Frame p t₀ (t.putSidecar bag sidecar) :=
  { h with
    bags := fun bag' x hx => by
      have hbag : bag' ≠ bag := by
        rintro rfl
        cases hnone.symm.trans hx
      obtain ⟨hdata, hsidecar⟩ := h.bags bag' x hx
      exact ⟨hdata, (update_of_ne hbag ..).trans hsidecar⟩ }

lemma Frame.addRuns (h : Frame p t₀ t) (runs : List (RunId × β))
    (legs : List ((RunId × ℕ) × β)) : Frame p t₀ (t.addRuns runs legs) :=
  { h with
    runs := fun id r hr => insertRows_some (h.runs id r hr)
    legs := fun id l hl => insertRows_some (h.legs id l hl) }

lemma Frame.addEvents (h : Frame p t₀ t) (rows : List (ℕ × β)) :
    Frame p t₀ { t with events := insertRows t.events rows } :=
  { h with events := fun id e he => insertRows_some (h.events id e he) }

lemma Frame.addTrack (h : Frame p t₀ t) (kind : Track) (run : RunId)
    (rows : List β) : Frame p t₀ (t.addTrack kind run rows) := by
  unfold Target.addTrack
  split
  · rename_i hempty
    refine { h with tracks := fun kind' run' => ?_ }
    have hfront := h.tracks kind' run'
    dsimp only
    by_cases hkind : kind' = kind
    · subst hkind
      rw [update_self]
      by_cases hrun : run' = run
      · subst hrun
        rw [isEmpty_iff.mp hempty, prefix_nil] at hfront
        rw [hfront]
        exact nil_prefix
      · rw [update_of_ne hrun]
        exact hfront
    · rw [update_of_ne hkind]
      exact hfront
  · exact h

lemma Frame.step (h : Frame p t₀ t) {o : Op β} (ho : Admits p t₀ o) :
    Frame p t₀ (step o t).2 := by
  cases o with
  | onMap dst spec op => exact h.setMap ho.1 (gentle_step ho.2)
  | addRuns runs legs fate =>
    cases fate with
    | failed => exact h
    | done | lost => exact h.addRuns runs legs
  | addEvents rows fate =>
    cases fate with
    | failed => exact h
    | done | lost => exact h.addEvents rows
  | addTrack kind run rows fate =>
    cases fate with
    | failed => exact h
    | done | lost => exact h.addTrack kind run rows
  | bagSize bag ok => exact h
  | putBag bag data sidecar fate =>
    cases fate with
    | done => exact (h.putData data ho).putSidecar sidecar ho
    | failed => exact h
    | torn size => exact h.putData _ ho
    | bare => exact h.putData data ho

end

section
variable {p : Plan β} {t₀ : Target β} {α γ : Type}

/-- The program keeps the frame, and what it returns has `post`. -/
abbrev Keep (p : Plan β) (t₀ : Target β) (post : α → Prop) (q : Import β α) : Prop :=
  q.Keeps step (Frame p t₀) post

lemma keep_true (q : Import β α) {post : α → Prop} (h : Keep p t₀ post q) :
    Keep p t₀ (fun _ => True) q :=
  h.imp fun _ _ => trivial

lemma onMap_bind (dst : MapName) (spec : β) (q : ImportMap.Import β α)
    (f : α → ImportMap.Import β γ) :
    onMap dst spec (q >>= f) = onMap dst spec q >>= fun a => onMap dst spec (f a) := by
  induction q with
  | done a => rfl
  | call o k ih => exact congrArg (Prog.call (Op.onMap dst spec o)) (funext ih)

variable {dst : MapName} {spec : β}

lemma keep_onMap {q : ImportMap.Import β α} {f : α → ImportMap.Import β γ} {mid : α → Prop}
    {post : γ → Prop} (hq : Keep p t₀ mid (onMap dst spec q))
    (hf : ∀ a, mid a → Keep p t₀ post (onMap dst spec (f a))) :
    Keep p t₀ post (onMap dst spec (q >>= f)) := by
  rw [onMap_bind]
  exact hq.bind hf

lemma keep_statement (hdst : dst ∈ p.maps.map (·.target)) (hop : Allowed p t₀ dst op) :
    Keep p t₀ (fun r => ∃ t, Frame p t₀ t ∧ r = (ImportMap.step op (t.map dst)).1)
      (onMap dst spec (Prog.perform op)) :=
  fun t ht => ⟨ht.step ⟨hdst, hop⟩, t, ht, rfl⟩

/-- `A` holds if the program returns `true`. -/
abbrev KeepIf (p : Plan β) (t₀ : Target β) (A : Prop) (q : Import β Bool) : Prop :=
  Keep p t₀ (fun ok => ok = true → A) q

lemma keep_stop (A : Prop) : KeepIf p t₀ A (onMap dst spec (pure false)) := by
  intro h
  cases h

lemma keep_andThen {q q' : ImportMap.Import β Bool} {A B : Prop}
    (hq : KeepIf p t₀ A (onMap dst spec q)) (hq' : A → KeepIf p t₀ B (onMap dst spec q')) :
    KeepIf p t₀ B (onMap dst spec (andThen q q')) := by
  refine keep_onMap hq fun ok hok => ?_
  cases ok with
  | true => exact hq' (hok rfl)
  | false => exact keep_stop B

lemma keep_allowed (hdst : dst ∈ p.maps.map (·.target))
    (hop : Allowed p t₀ dst op) {post : ImportMap.Res op → Prop} (hpost : ∀ r, post r) :
    Keep p t₀ post (onMap dst spec (Prog.perform op)) :=
  Prog.Keeps.imp (keep_statement hdst hop) fun r _ => hpost r

end

section
variable {p : Plan β} {t₀ : Target β} {e : MapEntry β} {importId : ImportId} {w : ImportMap.Script}

lemma getRow_some {t : Target β} {ok : Bool} {row : Row}
    (h : some (some row) = (ImportMap.step (.getRow ok) (t.map e.target)).1) :
    row.lifecycle ≠ .deleted ∧ ∃ spec, t.rows e.target = some (row, spec) := by
  cases ok with
  | false => cases h
  | true =>
    have hfilter := Option.some.inj h
    obtain ⟨hrow, hlife⟩ := Option.filter_eq_some_iff.mp hfilter.symm
    obtain ⟨⟨r, spec⟩, hr, rfl⟩ := Option.map_eq_some_iff.mp hrow
    exact ⟨of_decide_eq_true hlife, spec, hr⟩

lemma beginMap_true {s : Store β} {fate : Fate}
    (h : some true = (ImportMap.step (.beginMap marker fate) s).1) : s.row = none := by
  cases fate with
  | failed | lost => cases h
  | done =>
    cases hrow : s.row with
    | none => rfl
    | some r => simp [ImportMap.step, Store.beginMap, hrow] at h

lemma keep_reread (he : e ∈ p.maps) (hopens : Opens t₀ e) (marker : Marker) :
    Keep p t₀ (fun found => ∀ m, found = some m → Agrees t₀ e.target m)
      (onMap e.target e.spec (reread marker importId w)) := by
  refine keep_onMap (keep_statement (mem_map_of_mem he) trivial) fun row hrow => ?_
  obtain ⟨t, ht, hrow⟩ := hrow
  rcases row with _ | _ | row
  · rintro m ⟨⟩
  · rintro m ⟨⟩
  · rintro m ⟨⟩ r₀ spec₀ hr₀
    obtain ⟨-, spec, hr⟩ := getRow_some hrow
    obtain ⟨-, m₀, hm₀, -, -⟩ := hopens r₀ spec₀ hr₀
    have horigin := ht.origins e.target r₀ spec₀ row spec hr₀ hr
    rw [hm₀] at horigin ⊢
    obtain ⟨m, hm, hsame⟩ := Option.map_eq_some_iff.mp horigin
    rw [hm]
    exact congrArg some hsame.symm

lemma resumes_some {r : Row} {b : Bundle β} (h : r.resumes b importId = some marker) :
    ∃ m, r.importedFrom = some m ∧ m.source = b.source ∧ m.map = b.map := by
  unfold ImportMap.Row.resumes at h
  split at h
  · cases h
  · rename_i m hm
    split at h
    · rename_i hsame
      exact ⟨m, hm, hsame⟩
    · cases h

/-- A map is opened only where the target has none of the name, or has it from the same map. -/
lemma keep_openRow (he : e ∈ p.maps) :
    Keep p t₀ (fun found => ∀ m, found = some m → Opens t₀ e ∧ Agrees t₀ e.target m)
      (onMap e.target e.spec (openRow e.bundle importId w)) := by
  have hdst := mem_map_of_mem (f := MapEntry.target) he
  refine keep_onMap (keep_statement hdst trivial) fun row hrow => ?_
  obtain ⟨t, ht, hrow⟩ := hrow
  rcases row with _ | _ | row
  · rintro m ⟨⟩
  · refine keep_onMap (keep_statement hdst trivial) fun created hcreated => ?_
    obtain ⟨t', ht', hcreated⟩ := hcreated
    rcases created with _ | _ | _
    · rintro m ⟨⟩
    · rintro m ⟨⟩
    · have hopens : Opens t₀ e := by
        intro r₀ spec₀ hr₀
        obtain ⟨r, hr, -⟩ := ht'.rows e.target r₀ spec₀ hr₀
        have hnone := beginMap_true hcreated
        rw [map_row, hr] at hnone
        cases hnone
      exact (keep_reread he hopens _).imp fun found hfound m hm => ⟨hopens, hfound m hm⟩
  · obtain ⟨hlife, spec, hr⟩ := getRow_some hrow
    dsimp only
    cases hresumes : row.resumes e.bundle importId with
    | none => rintro m ⟨⟩
    | some marker =>
      have hopens : Opens t₀ e := by
        intro r₀ spec₀ hr₀
        obtain ⟨r, hr', hlife', -⟩ := ht.rows e.target r₀ spec₀ hr₀
        cases hr.symm.trans hr'
        have horigin := ht.origins e.target r₀ _ row _ hr₀ hr
        obtain ⟨m, hm, hsource, hmap⟩ := resumes_some hresumes
        rw [hm] at horigin
        obtain ⟨m₀, hm₀, hsame⟩ := Option.map_eq_some_iff.mp horigin.symm
        obtain ⟨hsource', hrest⟩ := Prod.mk.inj hsame
        obtain ⟨hmap', -⟩ := Prod.mk.inj hrest
        exact ⟨hlife' ▸ hlife, m₀, hm₀, hsource'.trans hsource, hmap'.trans hmap⟩
      exact (keep_reread he hopens _).imp fun found hfound m hm => ⟨hopens, hfound m hm⟩

lemma keep_putBatches (he : e ∈ p.maps) (coll : Coll) (docs : List (List (Doc β))) (i : ℕ) :
    KeepIf p t₀ True (onMap e.target e.spec (putBatches coll w i docs)) := by
  induction docs generalizing i with
  | nil => exact fun _ => trivial
  | cons docs rest ih =>
    unfold putBatches
    split
    · exact keep_stop True
    · exact keep_andThen (A := True)
        (keep_allowed (mem_map_of_mem he) (by trivial) fun _ _ => trivial) fun _ => ih (i + 1)

lemma keep_copyView (he : e ∈ p.maps) :
    KeepIf p t₀ True (onMap e.target e.spec (copyView e.bundle w)) := by
  unfold copyView
  split
  · exact keep_stop True
  · split
    · exact fun _ => trivial
    · exact keep_allowed (mem_map_of_mem he) (by trivial) fun _ _ => trivial

/-- Nothing is stored over an object of the target: where there is one, the look finds it. -/
lemma keep_copyObjects (he : e ∈ p.maps)
    (hobjects : ∀ j o, e.bundle.objects[j]? = some o → PresentFound t₀ e w.stat j →
      o.present = false → (t₀.objects e.target o.key).isSome → Found t₀ e.target w.stat j o)
    (rest : List (Object β)) (j : ℕ) (hrest : e.bundle.objects.drop j = rest)
    (hfound : PresentFound t₀ e w.stat j) :
    KeepIf p t₀ (PresentFound t₀ e w.stat e.bundle.objects.length)
      (onMap e.target e.spec (copyObjects w j rest)) := by
  have hdst := mem_map_of_mem (f := MapEntry.target) he
  induction rest generalizing j with
  | nil =>
    intro _ k hk
    exact hfound k (hk.trans_le (drop_eq_nil_iff.mp hrest))
  | cons o rest ih =>
    have ho : e.bundle.objects[j]? = some o := by
      rw [← List.head?_drop, hrest]
      rfl
    have hmem : o ∈ e.bundle.objects := mem_of_getElem? ho
    have hnext : e.bundle.objects.drop (j + 1) = rest := by
      rw [← tail_drop, hrest]
      rfl
    have hextend (hj : o.present = true → Found t₀ e.target w.stat j o) :
        PresentFound t₀ e w.stat (j + 1) := by
      intro k hk o' ho' hpresent
      rcases Nat.lt_succ_iff_lt_or_eq.mp hk with hlt | rfl
      · exact hfound k hlt o' ho' hpresent
      · cases ho.symm.trans ho'
        exact hj hpresent
    unfold copyObjects
    split
    · exact keep_stop _
    · refine keep_onMap (keep_statement hdst trivial) fun size hsize => ?_
      obtain ⟨t, ht, hsize⟩ := hsize
      split
      · rename_i hsame
        refine ih (j + 1) hnext (hextend fun hpresent => ?_)
        rw [hsame] at hsize
        cases hlook : w.stat j with
        | false =>
          rw [hlook] at hsize
          cases hsize
        | true =>
          rw [hlook] at hsize
          refine ⟨hlook, ?_⟩
          rw [← ht.present e he o hmem hpresent]
          exact hsize.symm
      · rename_i hother
        split
        · exact keep_stop _
        · rename_i habsent
          have hput : Allowed p t₀ e.target (.putObject o (w.object j)) := by
            refine ⟨?_, fun e' he' hdst' o' ho' hpresent hkey => ?_⟩
            · cases hx : t₀.objects e.target o.key with
              | none => rfl
              | some x =>
                have hsome : (t₀.objects e.target o.key).isSome := by rw [hx]; rfl
                obtain ⟨hlook, hlisted⟩ :=
                  hobjects j o ho hfound (Bool.eq_false_iff.mpr habsent) hsome
                rw [hx] at hlisted
                rw [hlook] at hsize
                have hread : size = (t.objects e.target o.key).map (·.size) := hsize
                rw [ht.objects e.target o.key x hx, hlisted] at hread
                exact absurd hread hother
            · rw [p.same e' he' e he hdst'] at ho'
              have hobj := inj_on_of_nodup_map e.bundle.objectKeys ho' hmem hkey
              exact habsent (hobj ▸ hpresent)
          exact keep_andThen (A := True) (keep_allowed hdst hput fun _ _ => trivial)
            fun _ => ih (j + 1) hnext (hextend fun hpresent => absurd hpresent habsent)

end

section
variable {p : Plan β} {t₀ : Target β} {L : Looks} {e : MapEntry β} {i : ℕ} {w : Script}
variable {importId : ImportId}

lemma Harmless.commit (h : Harmless p t₀ L) (hi : p.maps[i]? = some e) (hopens : Opens t₀ e)
    (hfound : PresentFound t₀ e (L.object i) e.bundle.objects.length)
    (hagrees : Agrees t₀ e.target marker) (fate : Fate) :
    Allowed p t₀ e.target (.commitMap (finalState marker.sourceState
      e.bundle.nodes.length) { marker with phase := .complete } fate) := by
  refine ⟨hagrees, fun r spec hr himporting => ?_⟩
  obtain ⟨-, m, hm, -, -⟩ := hopens r spec hr
  have hsame := hagrees r spec hr
  rw [hm] at hsame
  have hstate : m.sourceState = marker.sourceState :=
    (Prod.mk.inj (Prod.mk.inj (Option.some.inj hsame)).2).2
  have hcomplete : m.phase = .complete := by
    unfold Row.importing at himporting
    rw [hm] at himporting
    cases hphase : m.phase with
    | complete => rfl
    | importing => simp [hphase] at himporting
  rw [← hstate]
  exact h.states i e hi hopens hfound r spec m hr hm hcomplete

lemma keep_applyMap (h : Harmless p t₀ w.looks) (hi : p.maps[i]? = some e) :
    Keep p t₀ (fun _ => True)
      (onMap e.target e.spec (applyMap e.target e.bundle importId (w.map i))) := by
  have he : e ∈ p.maps := mem_of_getElem? hi
  have hdst := mem_map_of_mem (f := MapEntry.target) he
  have hcopy : Keep p t₀ (fun _ => True)
      (onMap e.target e.spec (copyMap e.target e.bundle importId (w.map i))) := by
    refine keep_onMap (keep_openRow he) fun found hfound => ?_
    cases found with
    | none => trivial
    | some marker =>
      obtain ⟨hopens, hagrees⟩ := hfound marker rfl
      refine keep_true _ (keep_andThen (B := True) ?_ fun hpresent => keep_allowed hdst
        (h.commit hi hopens hpresent hagrees _) fun _ _ => trivial)
      refine keep_andThen (keep_allowed hdst (by trivial) fun _ _ => trivial) fun _ =>
        keep_andThen (keep_putBatches he ..) fun _ => keep_andThen (keep_putBatches he ..) fun _ =>
        keep_andThen (keep_copyObjects he (h.objects i e hi hopens) _ 0 rfl ?_) fun hpresent => ?_
      · intro k hk
        omega
      · exact (keep_copyView he).imp fun ok _ _ => hpresent
  refine keep_onMap (keep_statement hdst trivial) fun granted _ => ?_
  split
  · exact keep_onMap hcopy fun ok _ => keep_onMap (keep_statement hdst trivial) fun _ _ => trivial
  · trivial

lemma keep_applyMaps (h : Harmless p t₀ w.looks) (rest : List (MapEntry β)) (i : ℕ)
    (hrest : p.maps.drop i = rest) : Keep p t₀ (fun _ => True) (applyMaps importId w i rest) := by
  induction rest generalizing i with
  | nil => trivial
  | cons e rest ih =>
    have hi : p.maps[i]? = some e := by
      rw [← List.head?_drop, hrest]
      rfl
    unfold applyMaps
    split
    · trivial
    · refine (keep_applyMap h hi).bind fun ok _ => ?_
      split
      · trivial
      · refine ih (i + 1) ?_
        rw [← tail_drop, hrest]
        rfl

def Op.OfRun : Op β → Prop
  | .addRuns .. | .addEvents .. | .addTrack .. => True
  | _ => False

/-- It ends stopped only if it is asked to stop. -/
def Unasked (w : Script) (ended : End) : Prop :=
  (∀ place, w.stop place = false) → ended ≠ .stopped

variable {r : Recording β}

section
variable {inv : Target β → Prop} {next : Import β End}

lemma unasked_stopped {place : Place} (h : w.stop place = true) : Unasked w .stopped := by
  intro hnever
  cases (hnever place).symm.trans h

lemma keeps_orFailed {q : Import β Bool} {post : Bool → Prop} (hq : q.Keeps step inv post)
    (hnext : next.Keeps step inv (Unasked w)) :
    (orFailed q next).Keeps step inv (Unasked w) := by
  refine hq.bind fun ok _ => ?_
  cases ok with
  | true => exact hnext
  | false => exact fun _ => End.noConfusion

lemma keeps_addBatches (hinv : ∀ (o : Op β) s, o.OfRun → inv s → inv (step o s).2) {m : Mission β}
    (hnext : next.Keeps step inv (Unasked w)) (runs : List (List (RunId × β))) (j : ℕ) :
    (addBatches p m w i j runs next).Keeps step inv (Unasked w) := by
  induction runs generalizing j with
  | nil => exact hnext
  | cons batch rest ih =>
    unfold addBatches
    split
    · rename_i hstop
      exact unasked_stopped hstop
    · exact keeps_orFailed (.perform fun s => hinv _ s trivial) (ih (j + 1))

lemma keeps_addEvents (hinv : ∀ (o : Op β) s, o.OfRun → inv s → inv (step o s).2)
    (hnext : next.Keeps step inv (Unasked w)) (rows : List (List (RunId × ℕ × β))) (j : ℕ) :
    (addEvents p w i j rows next).Keeps step inv (Unasked w) := by
  induction rows generalizing j with
  | nil => exact hnext
  | cons batch rest ih =>
    unfold addEvents
    split
    · rename_i hstop
      exact unasked_stopped hstop
    · exact keeps_orFailed (.perform fun s => hinv _ s trivial) (ih (j + 1))

lemma keeps_addTrack (hinv : ∀ (o : Op β) s, o.OfRun → inv s → inv (step o s).2) {j : ℕ}
    {kind : Track} (hnext : next.Keeps step inv (Unasked w)) (rows : List (List (RunId × β)))
    (k : ℕ) : (addTrack p w i j kind k rows next).Keeps step inv (Unasked w) := by
  induction rows generalizing k with
  | nil => exact hnext
  | cons batch rest ih =>
    unfold addTrack
    split
    · rename_i hstop
      exact unasked_stopped hstop
    · split
      · exact ih (k + 1)
      · exact keeps_orFailed (.perform fun s => hinv _ s trivial) (ih (k + 1))

lemma keeps_addTracks (hinv : ∀ (o : Op β) s, o.OfRun → inv s → inv (step o s).2)
    (tracks : List (Track × List (RunId × β))) (j : ℕ) :
    (addTracks p w i j tracks).Keeps step inv (Unasked w) := by
  induction tracks generalizing j with
  | nil => exact fun _ => End.noConfusion
  | cons t rest ih => exact keeps_addTrack hinv (ih (j + 1)) ..

lemma keeps_applyMissions (hinv : ∀ (o : Op β) s, o.OfRun → inv s → inv (step o s).2)
    (missions : List (Mission β)) (i : ℕ) (stopped : Bool) :
    (applyMissions p w i missions stopped).Keeps step inv fun r =>
      (∀ place, w.stop place = false) → stopped = false → r = false := by
  induction missions generalizing i stopped with
  | nil => exact fun _ => id
  | cons m rest ih =>
    unfold applyMissions
    split
    · rename_i hstop
      rintro hnever rfl
      rw [hnever] at hstop
      cases hstop
    · exact (keeps_addBatches hinv (keeps_addEvents hinv (keeps_addTracks hinv ..) ..) ..).bind
        fun ended hended => (ih (i + 1) _).imp fun r hr hnever _ =>
          hr hnever (decide_eq_false (hended hnever))

lemma keeps_applyRosbag (hput : r.had = false → ∀ s, inv s →
      (if w.stat i then (s.bags r.bag).map (·.size) else none) = none → ∀ s', inv s' →
      inv (step (.putBag r.bag ⟨r.size, r.body⟩ r.sidecar (w.bag i)) s').2) :
    (applyRosbag w i r).Keeps step inv (Unasked w) := by
  refine (Prog.Keeps.perform fun _ hs => hs).bind fun size hsize => ?_
  obtain ⟨s, hs, hsize⟩ := hsize
  split
  · exact fun _ => End.noConfusion
  · split
    · exact fun _ => End.noConfusion
    · rename_i hhad
      split
      · exact fun _ => End.noConfusion
      · rename_i hnone
        split
        · rename_i hstop
          exact unasked_stopped hstop
        · have hsize' := hsize.symm.trans (Option.not_isSome_iff_eq_none.mp hnone)
          exact keeps_orFailed (.perform (hput (Bool.eq_false_iff.mpr hhad) s hs hsize'))
            fun _ => End.noConfusion

end

lemma keep_applyRosbag (h : Harmless p t₀ w.looks) (hi : p.bags[i]? = some r) :
    Keep p t₀ (Unasked w) (applyRosbag w i r) := by
  refine keeps_applyRosbag fun hhad t ht hsize t' ht' => ht'.step ?_
  cases hx : t₀.bags r.bag with
  | none => exact hx
  | some x =>
    have hlook : w.stat i = true := h.bags i r hi hhad (by rw [hx]; rfl)
    rw [if_pos hlook, (ht.bags r.bag x hx).1] at hsize
    cases hsize

lemma keep_applyBags (h : Harmless p t₀ w.looks) (rest : List (Recording β)) (i : ℕ)
    (stopped : Bool) (hrest : p.bags.drop i = rest) :
    Keep p t₀ (fun _ => True) (applyBags w i rest stopped) := by
  induction rest generalizing i stopped with
  | nil => trivial
  | cons r rest ih =>
    have hi : p.bags[i]? = some r := by
      rw [← List.head?_drop, hrest]
      rfl
    unfold applyBags
    split
    · trivial
    · refine (keep_applyRosbag h hi).bind fun ended _ => ih (i + 1) _ ?_
      rw [← tail_drop, hrest]
      rfl

lemma frame_run (o : Op β) (t : Target β) (ho : o.OfRun) (h : Frame p t₀ t) :
    Frame p t₀ (step o t).2 := by
  refine h.step ?_
  cases o with
  | addRuns | addEvents | addTrack => trivial
  | onMap | bagSize | putBag => exact ho.elim

lemma keep_applyImport (h : p.ok = true → Harmless p t₀ w.looks) :
    Keep p t₀ (fun _ => True) (applyImport p importId w) := by
  unfold applyImport
  split
  · rename_i hok
    have hharmless := h (Bool.and_eq_true_iff.mp hok).1
    have hmissions (stopped : Bool) :
        Keep p t₀ (fun _ => True) (applyMissions p w 0 p.missions stopped) :=
      (keeps_applyMissions frame_run ..).imp fun _ _ => trivial
    refine (keep_applyMaps hharmless _ 0 rfl).bind fun stopped _ => ?_
    exact (hmissions stopped).bind fun stopped _ => keep_applyBags hharmless _ 0 _ rfl
  · trivial

end


end
end CloudServer.ImportFrame
