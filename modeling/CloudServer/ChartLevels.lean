import CloudServer.MorsePersistence

/-! The levels above the charts: persistence regions, merged on at doubling scales. -/
namespace CloudServer.ChartLevels
open Merging Morse

variable {𝕜 : Type} [Field 𝕜] [LinearOrder 𝕜]

-- one named instance for each numeral below
scoped instance atLeastTwo_two : Nat.AtLeastTwo 2 := inferInstance

structure Site (𝕜 : Type) where
  peak : 𝕜
  row : ℤ
  col : ℤ
deriving DecidableEq

def Site.seniority (c : Site 𝕜) : 𝕜ᵒᵈ ×ₗ ℤ ×ₗ ℤ := toLex (OrderDual.toDual c.peak, toLex (c.row, c.col))

structure Chart (𝕜 : Type) extends Site 𝕜 where
  region : ℕ
deriving DecidableEq

/-- Two charts meet at a saddle. -/
structure Link (𝕜 : Type) where
  a : ℕ
  b : ℕ
  saddle : 𝕜
deriving DecidableEq

/-- `np.lexsort((rc[:, 1], rc[:, 0], -peak))`. -/
def lexsort (sites : List (Site 𝕜)) : List ℕ :=
  (sites.zipIdx.insertionSort fun x y => x.1.seniority ≤ y.1.seniority).map Prod.snd

def firsts (before : Option ℕ) : List (ℕ × 𝕜) → List (ℕ × 𝕜)
  | [] => []
  | x :: rest =>
    if before = some x.1 then firsts (some x.1) rest else x :: firsts (some x.1) rest

def pairs (K : ℕ) (links : List (Link 𝕜)) : List (ℕ × ℕ × 𝕜) :=
  let coded := links.map fun l => (min l.a l.b * K + max l.a l.b, l.saddle)
  let sorted := coded.insertionSort fun x y =>
    toLex (x.1, OrderDual.toDual x.2) ≤ toLex (y.1, OrderDual.toDual y.2)
  (firsts none sorted).map fun x => (x.1 / K, x.1 % K, x.2)

/-- The loop of `levels`, from the scale before; `none` when the fuel ends first. -/
def climb (TOL tau_base : 𝕜) (K : ℕ) (tree : List (Merge ℕ 𝕜)) : ℕ → 𝕜 → Option (List (List ℕ))
  | 0, _ => none
  | k + 1, tau =>
    match tree.getLast? with
    | none => some []
    | some m =>
      if tau_base - TOL ≤ m.1 then do
        let tau := tau * 2
        let par ← survivors TOL K tree (some tau)
        if m.1 < tau - TOL then some [par]
        else
          let rest ← climb TOL tau_base K tree k tau
          some (par :: rest)
      else some []

def levels (TOL : 𝕜) (fuel : ℕ) (sites : List (Site 𝕜)) (links : List (Link 𝕜)) (tau_base : 𝕜) :
    Option (List (List ℕ)) :=
  if sites = [] then some []
  else do
    let K := sites.length
    let order := lexsort sites
    let rank := (List.range K).map fun i => order.idxOf i
    let tree ← mergeTree TOL (.array (sites.map Site.peak)) (.array rank) (pairs K links) ⊤
    climb TOL tau_base K tree fuel tau_base

def elderOf (charts : List (Chart 𝕜)) (r : ℕ) : Option ℕ :=
  (lexsort (charts.map Chart.toSite)).find? fun c =>
    (charts[c]?).any fun x => x.region == r

/-- The largest peak of the region, `-1` for a region without charts. -/
def regionPeak (charts : List (Chart 𝕜)) (r : ℕ) : 𝕜 :=
  (charts.filter fun c => c.region == r).foldl (fun p c => max p c.peak) (-1)

/-- The region with the anchor of its elder chart; `rc[-1]` is the last chart's. -/
def regionSite (charts : List (Chart 𝕜)) (last : Chart 𝕜) (r : ℕ) : Site 𝕜 :=
  let e := ((elderOf charts r).bind fun c => charts[c]?).getD last
  ⟨regionPeak charts r, e.row, e.col⟩

def crossing (charts : List (Chart 𝕜)) (links : List (Link 𝕜)) : Option (List (Link 𝕜)) := do
  let ends ← links.mapM fun l => do
    let x ← charts[l.a]?
    let y ← charts[l.b]?
    some (⟨x.region, y.region, l.saddle⟩ : Link 𝕜)
  some (ends.filter fun l => l.a ≠ l.b)

/-- `elder[rpar[region]]`. -/
def chartParents (charts : List (Chart 𝕜)) (rpar : List ℕ) : Option (List ℕ) :=
  charts.mapM fun c => rpar[c.region]?.bind (elderOf charts)

def append (out : List (List ℕ)) (nxt : List ℕ) : List (List ℕ) :=
  if out = [] ∨ out.getLast? ≠ some nxt then out ++ [nxt] else out

def cellLevels (TOL : 𝕜) (fuel : ℕ) (charts : List (Chart 𝕜)) (links : List (Link 𝕜))
    (tau_base : 𝕜) : Option (List (List ℕ)) :=
  match charts.getLast? with
  | none => some []
  | some last => do
    let nR := (charts.map Chart.region).foldr max 0 + 1
    let par ← charts.mapM fun c => elderOf charts c.region
    let out := if par = List.range charts.length then [] else [par]
    let cross ← crossing charts links
    let rpars ← levels TOL fuel ((List.range nR).map (regionSite charts last)) cross tau_base
    let nexts ← rpars.mapM (chartParents charts)
    some (nexts.foldl append out)

end CloudServer.ChartLevels
