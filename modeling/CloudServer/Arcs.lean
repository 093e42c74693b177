import CloudServer.Planes

/-! The interface between regions: its unit edges glued to arcs, and the saddles of the pairs. -/
namespace CloudServer.Arcs
open Planes

structure Space where
  H : ℕ
  W : ℕ
  cells : List (ℕ × ℕ)

namespace Space

def of (F : Plane Bool) : Space :=
  ⟨F.H, F.W, (List.range F.H).flatMap fun y => (hits (F.cell y) 0 F.W).map fun x => (y, x)⟩

variable (sp : Space)

def N : ℕ := sp.cells.length

/-- The index of the cell at `(y, x)`, nothing outside the set. -/
def index (y x : ℤ) : Option ℕ := sp.cells.findIdx? fun c => decide ((c.1 : ℤ) = y ∧ (c.2 : ℤ) = x)

def row (i : ℕ) : ℕ := (sp.cells[i]?.getD (0, 0)).1
def col (i : ℕ) : ℕ := (sp.cells[i]?.getD (0, 0)).2

def neighbour (d : ℤ × ℤ) (i : ℕ) : Option ℕ := sp.index (sp.row i + d.1) (sp.col i + d.2)

/-- The id of a corner of cell `i`. -/
def corner (i : ℕ) (c : ℕ × ℕ) : ℕ := (sp.row i + c.1) * (sp.W + 1) + (sp.col i + c.2)

def pairs (lab : ℕ → ℕ) (d : ℤ × ℤ) : List (ℕ × ℕ) :=
  (List.range sp.N).filterMap fun i => (sp.neighbour d i).bind fun j =>
    if lab i ≠ lab j then some (i, j) else none

end Space

def north : ℤ × ℤ := (-1, 0)
def east : ℤ × ℤ := (0, 1)
def south : ℤ × ℤ := (1, 0)
def west : ℤ × ℤ := (0, -1)

section
variable {𝕜 : Type} [LinearOrder 𝕜]

def crossings (sp : Space) (lab : ℕ → ℕ) (f : ℕ → 𝕜) : List (ℕ × ℕ × 𝕜) :=
  (sp.pairs lab east ++ sp.pairs lab south).map fun e => (e.1, e.2, min (f e.1) (f e.2))

def blocks {α : Type} (key : α → ℕ) (l : List α) : List (List α) := l.splitBy fun x y => key x == key y

/-- `np.maximum.reduceat` over one run that starts with `x`. -/
def largest {α : Type} (v : α → 𝕜) (x : α) (b : List α) : 𝕜 := b.foldr (fun y m => max (v y) m) (v x)

def saddles (lab : ℕ → ℕ) (cr : List (ℕ × ℕ × 𝕜)) : List (ℕ × ℕ × 𝕜) :=
  let n := (cr.map fun e => max (lab e.1) (lab e.2.1)).foldr max 0 + 1
  let coded := cr.map fun e => (min (lab e.1) (lab e.2.1) * n + max (lab e.1) (lab e.2.1), e.2.2)
  (blocks Prod.fst (coded.insertionSort fun x y => x.1 ≤ y.1)).filterMap fun b =>
    b.head?.map fun x => (x.1 / n, x.1 % n, largest Prod.snd x b)

end

/-- A unit edge between the cells `i` and `j`, from corner `v0` to corner `v1`. -/
structure Edge where
  i : ℕ
  j : ℕ
  v0 : ℕ
  v1 : ℕ
deriving DecidableEq

def side (sp : Space) (full : ℕ → ℕ) (d : ℤ × ℤ) (c0 c1 : ℕ × ℕ) : List Edge :=
  (sp.pairs full d).map fun e => ⟨e.1, e.2, sp.corner e.1 c0, sp.corner e.1 c1⟩

def interface (sp : Space) (full : ℕ → ℕ) : List Edge :=
  side sp full east (0, 1) (1, 1) ++ side sp full south (1, 0) (1, 1)

def boundary (sp : Space) : List ℕ :=
  [(north, (0, 0), (0, 1)), (east, (0, 1), (1, 1)), (south, (1, 0), (1, 1)),
    (west, (0, 0), (1, 0))].flatMap fun s =>
      let m := (List.range sp.N).filter fun i => sp.neighbour s.1 i = none
      m.map (fun i => sp.corner i s.2.1) ++ m.map fun i => sp.corner i s.2.2

def incidences (edges : List Edge) : List (ℕ × ℕ) :=
  (edges.zipIdx.map fun e => (e.1.v0, e.2)) ++ edges.zipIdx.map fun e => (e.1.v1, e.2)

/-- An arc continues through a corner of exactly two interface edges and no boundary edge. -/
def Joint (edges : List Edge) (bnd : List ℕ) (v : ℕ) : Prop :=
  ((edges.map Edge.v0 ++ edges.map Edge.v1).count v = 2) ∧ bnd.count v = 0

instance (edges : List Edge) (bnd : List ℕ) (v : ℕ) : Decidable (Joint edges bnd v) :=
  inferInstanceAs (Decidable (_ ∧ _))

/-- `(l[0], l[1]), (l[2], l[3]), …`. -/
def twos {α : Type} : List α → List (α × α)
  | a :: b :: rest => (a, b) :: twos rest
  | _ => []

def glued (edges : List Edge) (bnd : List ℕ) : List (ℕ × ℕ) :=
  (twos (((incidences edges).filter fun x => Joint edges bnd x.1).insertionSort fun x y => x.1 ≤ y.1)).map
    fun x => (x.1.2, x.2.2)

structure Arc (𝕜 : Type) where
  a : ℕ
  b : ℕ
  p : ℕ
  q : ℕ
  s : 𝕜
  g : 𝕜
  size : ℕ
deriving DecidableEq

section
variable {𝕜 : Type} [LinearOrder 𝕜] (sp : Space) (full : ℕ → ℕ) (f : ℕ → 𝕜)

namespace Edge

variable (e : Edge)

def lo : ℕ := min (full e.i) (full e.j)
def hi : ℕ := max (full e.i) (full e.j)

def p : ℕ := if full e.i = e.lo full then e.i else e.j
def q : ℕ := if full e.i = e.lo full then e.j else e.i
def val : 𝕜 := min (f e.i) (f e.j)

end Edge

def place (p q : ℕ) : ℕ ×ₗ ℕ ×ₗ ℕ ×ₗ ℕ :=
  toLex (sp.row p, toLex (sp.col p, toLex (sp.row q, sp.col q)))

/-- `(arc, -val, …)`: the order in which the best edge of an arc comes first. -/
def portalKey (arc : ℕ → ℕ) (x : Edge × ℕ) : ℕ ×ₗ 𝕜ᵒᵈ ×ₗ (ℕ ×ₗ ℕ ×ₗ ℕ ×ₗ ℕ) :=
  toLex (arc x.2, toLex (OrderDual.toDual (x.1.val f), place sp (x.1.p full) (x.1.q full)))

def arcOf (g : Option (ℕ → 𝕜)) (edges : List Edge) (arc : ℕ → ℕ) (b : List (Edge × ℕ)) : Option (Arc 𝕜) :=
  b.head?.map fun best =>
    { a := best.1.lo full
      b := best.1.hi full
      p := best.1.p full
      q := best.1.q full
      s := best.1.val f
      g := match g with
        | none => best.1.val f
        | some g => largest (fun x => x.1.val g) best b
      size := (List.range edges.length).countP fun k => arc k == arc best.2 }

/-- `connected_components` gives every edge the label of its component. -/
def arcs (connected_components : ℕ → List (ℕ × ℕ) → ℕ → ℕ) (g : Option (ℕ → 𝕜)) : List (Arc 𝕜) :=
  let edges := interface sp full
  let arc := connected_components edges.length (glued edges (boundary sp))
  let o := edges.zipIdx.insertionSort fun x y => portalKey sp full f arc x ≤ portalKey sp full f arc y
  let res := (blocks (fun x => arc x.2) o).filterMap (arcOf full f g edges arc)
  res.insertionSort fun A B => toLex (A.a, toLex (A.b, place sp A.p A.q)) ≤
    toLex (B.a, toLex (B.b, place sp B.p B.q))

end

end CloudServer.Arcs
