import CloudServer.Searches

/-! The turn-cost search of a lattice route: the incumbent, the restriction and the walk. -/
namespace CloudServer.TurnRoute
open Shortest

/-- The heading index of the lattice step `(dy, dx)`, `-1` for a non-step. -/
def HEAD : List ℤ := [5, 6, 7, 4, -1, 0, 3, 2, 1]

def heading (dy dx : ℤ) : ℤ := HEAD.getD ((dy + 1) * 3 + (dx + 1)).toNat (-1)

def BAND : ℤ := 3

def OFF : ℤ := 2 ^ 20

def KW : ℤ := 2 ^ 21

def headings : List ℤ := [0, 1, 2, 3, 4, 5, 6, 7]

/-- The cost of a turn from one heading to another. -/
abbrev Table := ℤ → ℤ → ℕ

structure Edge where
  u : ℕ
  v : ℕ
  w : ℕ
  h : ℤ
  deriving DecidableEq, Repr

def Edge.back (e : Edge) : Edge := ⟨e.v, e.u, e.w, (e.h + 4) % 8⟩

/-- The cells `0..n-1` with their lattice coordinates and the undirected edges. -/
structure Graph where
  n : ℕ
  ys : ℕ → ℤ
  xs : ℕ → ℤ
  links : List Edge

namespace Graph

variable (g : Graph)

def edges : List Edge := g.links ++ g.links.map Edge.back

def plain : List (ℕ × ℕ × ℕ) := g.edges.map fun e => (e.u, e.v, e.w)

def pathTurn (tab : Table) : List ℕ → ℕ
  | a :: b :: c :: rest =>
    tab (heading (g.ys b - g.ys a) (g.xs b - g.xs a)) (heading (g.ys c - g.ys b) (g.xs c - g.xs b)) +
      pathTurn tab (b :: c :: rest)
  | _ => 0

/-- Cells whose key is that of a lattice point within the band around a cell of the path. -/
def near (path : List ℕ) (c : ℕ) : Bool :=
  path.any fun p => (List.range 7).any fun i => (List.range 7).any fun j =>
    ((g.ys p + (i - BAND)) + OFF) * KW + ((g.xs p + (j - BAND)) + OFF) =
      (g.ys c + OFF) * KW + (g.xs c + OFF)

end Graph

/-- The arcs from an outgoing heading back to every incoming one, over the states cell and
heading. -/
def transposed (tab : Table) (E : List Edge) : List ((ℕ × ℤ) × (ℕ × ℤ) × ℕ) :=
  E.flatMap fun e => headings.map fun hin => ((e.v, e.h), (e.u, hin), e.w + tab hin e.h)

/-- The first of the smallest next cells among the edges that cost `best`. -/
def next (val : Edge → Option ℕ) (best : Option ℕ) (out : List Edge) : Option Edge :=
  (out.filter fun e => val e = best).argmin Edge.v

section
variable (tab : Table) (E : List Edge) (D : ℕ × ℤ → Option ℕ)

/-- The cells from `cur` on, entered with heading `hd`; every step uses up distance. -/
def follow (dst : ℕ) : ℕ → ℕ → ℤ → Option (List ℕ)
  | 0, cur, _ => if cur = dst then some [] else none
  | k + 1, cur, hd =>
    if cur = dst then some []
    else do
      let e ← next (fun e => (D (e.v, e.h)).map (e.w + tab hd e.h + ·)) (D (cur, hd))
        (E.filter fun e => e.u = cur)
      let rest ← follow dst k e.v e.h
      some (e.v :: rest)

end

variable (dijkstra : Search)

namespace Graph

variable (g : Graph)

/-- The minimal total cost and the canonical path over the cells `sel`; the inner `none` says that
there is no path. The selected cells keep their numbers: renumbering them keeps their order. -/
def expanded (sel : ℕ → Bool) (src dst : ℕ) (tab : Table) (limit : Option ℕ) :
    Option (Option (ℕ × List ℕ)) :=
  if src = dst then some (some (0, [src]))
  else
    let E := g.edges.filter fun e => sel e.u && sel e.v
    let D := dijkstra (ℕ × ℤ) (transposed tab E) (headings.map fun hin => (dst, hin)) limit
    let val := fun e : Edge => (D (e.v, e.h)).map (e.w + ·)
    let out := E.filter fun e => e.u = src
    match (out.filterMap val).min? with
    | none => some none
    | some cost => do
      let e ← next val (some cost) out
      let rest ← follow tab E D dst cost e.v e.h
      some (some (cost, src :: e.v :: rest))

def incumbent (src dst : ℕ) (p0 : List ℕ) (cost0 : ℕ) (tab : Table) : Option (ℕ × List ℕ) :=
  let j0 := cost0 + g.pathTurn tab p0
  if j0 = cost0 then some (j0, p0)
  else do
    -- the limit `j0 + 0.5` admits the integer distances up to `j0`
    let got ← g.expanded dijkstra (g.near p0) src dst tab (some j0)
    match got with
    | some (cost, path) => some (if cost < j0 then (cost, path) else (j0, p0))
    | none => some (j0, p0)

/-- The cells that a route of cost `jInc` can pass. -/
def reachable (dS dT : ℕ → Option ℕ) (jInc : ℕ) (c : ℕ) : Bool :=
  match dS c, dT c with
  | some a, some b => a + b ≤ jInc
  | _, _ => false

def restricted (src dst jInc : ℕ) (tab : Table) (dT : Option (ℕ → Option ℕ)) :
    Option (Option (ℕ × List ℕ)) :=
  let dS := dijkstra ℕ g.plain [src] (some jInc)
  let dT := dT.getD (dijkstra ℕ g.plain [dst] (some jInc))
  g.expanded dijkstra (reachable dS dT jInc) src dst tab (some jInc)

end Graph

def route (g : Graph) (src dst : ℕ) (p0 : List ℕ) (cost0 : ℕ) (tab : Table)
    (dT : Option (ℕ → Option ℕ)) : Option (ℕ × List ℕ) := do
  let (jInc, pInc) ← g.incumbent dijkstra src dst p0 cost0 tab
  if jInc = cost0 ∧ pInc = p0 then some (jInc, pInc)
  else
    let got ← g.restricted dijkstra src dst jInc tab dT
    some (got.getD (jInc, pInc))

end CloudServer.TurnRoute
