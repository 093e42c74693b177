import CloudServer.StoreOps

/-! Loading a version: the tiles are pasted into fresh planes and the stored chart ids
become chart indices again. -/
namespace CloudServer.StoreLoad
open SceneLeaf SceneFold SceneApi StoreTiles StoreSave StoreOps

/-- A square written into an array with its corner at row `y` and column `x`. -/
def paste {α : Type} {n : ℕ} (a : Cells α) (y x : ℤ) (sq : Square n α) : Cells α :=
  fun r c => if h : (y ≤ r ∧ r < y + n) ∧ (x ≤ c ∧ c < x + n)
    then sq ⟨(r - y).toNat, by omega⟩ ⟨(c - x).toNat, by omega⟩ else a r c

/-- One plane of the tile loop: the tiles that carry it, at their place from `(ax0, ay0)`. -/
def pasteAll {α : Type} {n : ℕ} (ax0 ay0 : ℤ) (plane : Tile → Option (Square n α)) (fill : α)
    (tiles : List (Coord × Tile)) : Cells α :=
  tiles.foldl (fun a e => match plane e.2 with
    | some sq => paste a (((ofLex e.1).2 - ay0) * n) (((ofLex e.1).1 - ax0) * n) sq
    | none => a) fun _ _ => fill

def lowest (xs : List ℤ) : ℤ := xs.foldr min (xs.headD 0)
def highest (xs : List ℤ) : ℤ := xs.foldr max (xs.headD 0)

/-- The charts in engine order when the stored order names each of them once, else by id. -/
def orderedCharts (man : Manifest) : List ChartDoc :=
  let by_id := Dict.ofList (man.charts.map fun c => (c.id, c))
  let order := man.body.order
  if order ≠ [] ∧ order.length = by_id.items.length ∧ (∀ i ∈ order, i ∈ by_id.keys) ∧
      ∀ i ∈ by_id.keys, i ∈ order
  then order.filterMap by_id.get else man.charts

def idToIdx (charts : List ChartDoc) : Dict ℕ ℕ :=
  Dict.ofList (charts.zipIdx.map fun e => (e.1.id, e.2))

def indexOf (ids : Dict ℕ ℕ) (own : ℕ) : ℤ :=
  if 0 < own then (ids.get (min own (ids.keys.foldr max 0))).elim (-1) fun j => (j : ℤ) else -1

/-- The engine state of a manifest, its tiles and its leaf records; `none` when no tile
is stored and a fresh engine is returned. -/
def assemble (man : Manifest) (tiles : List (Coord × Tile)) (leaves : List LeafRecord) :
    Option EngineState :=
  if tiles = [] then none
  else
    let xs := tiles.map fun e => (ofLex e.1).1
    let ys := tiles.map fun e => (ofLex e.1).2
    let ax0 := lowest xs
    let ay0 := lowest ys
    let W := (highest xs - ax0 + 1).toNat * TILE_F
    let H := (highest ys - ay0 + 1).toNat * TILE_F
    let full {α : Type} (plane : Tile → Option (Square TILE_F α)) (fill : α) :=
      pasteAll ax0 ay0 plane fill tiles
    let p := man.body.params
    let near := p.near_range_m.isSome
    let charts := orderedCharts man
    let ids := idToIdx charts
    let own := pasteAll ax0 ay0 Tile.own 0 tiles
    some {
      params := p
      canvas := ⟨ax0 * TILE_F, ay0 * TILE_F, H, W⟩
      V := full (fun t => some t.v) UNKNOWN
      T := full (fun t => some t.t) (-1)
      B := full (fun t => some t.b) (-1)
      chan := Dict.ofList (man.body.channels.map fun n => (n,
        full (fun t => (t.chans.get n).map Prod.fst) UNKNOWN,
        full (fun t => (t.chans.get n).map Prod.snd) (-1)))
      Fn := if near then some (full Tile.fn (-1)) else none
      Bn := if near then some (full Tile.bn (-1)) else none
      Hold := if p.near_min_clearance_m.isSome then some (full Tile.hold false) else none
      Val := if near then some (pasteAll ax0 ay0 Tile.val false tiles) else none
      leaves := leaves
      keys := charts.map fun c => parse c.key
      plane := some fun y x => indexOf ids (own y x)
      version := man.body.engine_version
      watermark := man.body.watermark }

def readTiles (g : ℕ) : List (Coord × Hash) → StoreProg (Except SaveError (List (Coord × Tile)))
  | [] => pure (.ok [])
  | e :: rest => do
    match ← get (.tile g e.2) with
    | some (.tile t) => match ← readTiles g rest with
      | .ok ts => pure (.ok ((e.1, t) :: ts))
      | .error e => pure (.error e)
    | _ => pure (.error (.notFound (.tile g e.2)))

def readSegments (g : ℕ) : List Hash → StoreProg (Except SaveError (List LeafRecord))
  | [] => pure (.ok [])
  | h :: rest => do
    match ← get (.segment g h) with
    | some (.segment rows) => match ← readSegments g rest with
      | .ok ls => pure (.ok (rows ++ ls))
      | .error e => pure (.error e)
    | _ => pure (.error (.notFound (.segment g h)))

/-- `load` up to the engine state it hands to a fresh engine. -/
def load (version : Option ℕ) (pending : Bool) (mem : Memory) :
    StoreProg (Except SaveError (Option EngineState) × Memory) := do
  match ← manifest version pending mem with
  | (.error e, mem) => pure (.error e, mem)
  | (.ok man, mem) =>
    if man.body.pipeline ≠ pipelineOf man.body.params then pure (.error .paramsDiffer, mem)
    else match ← readTiles man.body.generation man.tiles.items with
    | .error e => pure (.error e, mem)
    | .ok tiles =>
      if tiles = [] then pure (.ok none, mem)
      else match ← readSegments man.body.generation man.body.segments with
      | .error e => pure (.error e, mem)
      | .ok leaves => pure (.ok (assemble man tiles leaves), mem)

lemma paste_hit {α : Type} {n : ℕ} (a : Cells α) (y x : ℤ) (sq : Square n α) (r c : Fin n) :
    paste a y x sq (y + r) (x + c) = sq r c := by
  have hr := r.isLt
  have hc := c.isLt
  unfold paste
  have hin : (y ≤ y + r ∧ y + (r : ℤ) < y + n) ∧ (x ≤ x + c ∧ x + (c : ℤ) < x + n) := by omega
  rw [dif_pos hin]
  congr 1 <;> ext <;> simp

lemma tile_unique {n : ℕ} {a b : ℤ} (r : Fin n) (h1 : a * n ≤ b * n + r)
    (h2 : b * n + r < a * n + n) : a = b := by
  have hr : (r : ℤ) < n := by exact_mod_cast r.isLt
  have hr0 : (0 : ℤ) ≤ r := by positivity
  rcases lt_trichotomy a b with h | h | h
  · nlinarith
  · exact h
  · nlinarith

lemma paste_miss {α : Type} {n : ℕ} (a : Cells α) (ax0 ay0 : ℤ) (s t : Coord) (sq : Square n α) (r c : Fin n) (hne : t ≠ s) :
    paste a (((ofLex s).2 - ay0) * n) (((ofLex s).1 - ax0) * n) sq
        (((ofLex t).2 - ay0) * n + r) (((ofLex t).1 - ax0) * n + c) =
      a (((ofLex t).2 - ay0) * n + r) (((ofLex t).1 - ax0) * n + c) := by
  unfold paste
  rw [dif_neg]
  rintro ⟨⟨h1, h2⟩, h3, h4⟩
  have hy := tile_unique r h1 h2
  have hx := tile_unique c h3 h4
  refine hne ?_
  rw [← toLex_ofLex t, ← toLex_ofLex s]
  exact congrArg toLex (Prod.ext (by omega) (by omega))

lemma pasteAll_cell {α : Type} {n : ℕ} (ax0 ay0 : ℤ) (plane : Tile → Option (Square n α))
    (fill : α) {tiles : List (Coord × Tile)} (hnd : (tiles.map Prod.fst).Nodup) (t : Coord)
    (r c : Fin n) :
    pasteAll ax0 ay0 plane fill tiles (((ofLex t).2 - ay0) * n + r) (((ofLex t).1 - ax0) * n + c) =
      ((Dict.find tiles t).bind plane).elim fill fun sq => sq r c := by
  have key : ∀ (tiles : List (Coord × Tile)) (a : Cells α), (tiles.map Prod.fst).Nodup →
      tiles.foldl (fun a e => match plane e.2 with
        | some sq => paste a (((ofLex e.1).2 - ay0) * n) (((ofLex e.1).1 - ax0) * n) sq
        | none => a) a (((ofLex t).2 - ay0) * n + r) (((ofLex t).1 - ax0) * n + c) =
      ((Dict.find tiles t).bind plane).elim
        (a (((ofLex t).2 - ay0) * n + r) (((ofLex t).1 - ax0) * n + c)) fun sq => sq r c := by
    intro tiles
    induction tiles with
    | nil => simp
    | cons e tiles ih =>
      intro a hnd
      obtain ⟨s, tile⟩ := e
      obtain ⟨hs, hnd⟩ := List.nodup_cons.mp hnd
      rw [List.foldl_cons, ih _ hnd, Dict.find_cons]
      by_cases he : t = s
      · subst he
        have hnone : Dict.find tiles t = none := Dict.find_eq_none.mpr hs
        rw [hnone, if_pos rfl]
        cases hp : plane tile with
        | none => simp [hp]
        | some sq => simpa [hp] using paste_hit a _ _ sq r c
      · rw [if_neg he]
        cases hp : plane tile with
        | none => rfl
        | some sq =>
          dsimp only
          rw [paste_miss a ax0 ay0 s t sq r c he]
  exact key tiles _ hnd

end CloudServer.StoreLoad
