import CloudServer.ClearanceRule
import CloudServer.RawBasinsRule

/-! The distance of every cell to the end of its grid, transformed again only around what changed.
Distances are squares, in cells: `f = h * √n`. -/
namespace CloudServer.SolverDistance
open Planes Clearance RawBasins

structure State where
  sp : Space
  f : ℕ → ℕ

/-- `distance_transform_edt`, in squares. -/
abbrev Transform := Plane Bool → ℕ → ℕ → ℕ

/-- The exact squared distances from the cells of a grid to the nearest cell that is not in it. -/
def Field (F : Plane Bool) (f : ℕ → ℕ) : Prop :=
  ∀ i < (Space.of F).N, NearestIn (fun c => ¬ F.Marked c) ((cellAt F i).1, (cellAt F i).2) (f i)

def extent (cells : List (ℕ × ℕ)) : Box :=
  ⟨(cells.map Prod.fst).min?.getD 0, (cells.map Prod.fst).max?.getD 0 + 1,
    (cells.map Prod.snd).min?.getD 0, (cells.map Prod.snd).max?.getD 0 + 1⟩

def distance (edt : Transform) (sp : Space) (i : ℕ) : ℕ :=
  let b := extent sp.cells
  let sub : Plane Bool := ⟨b.y1 - b.y0 + 2, b.x1 - b.x0 + 2, fun y x =>
    sp.cells.any fun c => c.1 - b.y0 + 1 = y && c.2 - b.x0 + 1 = x⟩
  let c := sp.cells.getD i (0, 0)
  edt sub (c.1 - b.y0 + 1) (c.2 - b.x0 + 1)

namespace PartitionSolver

structure Laid where
  oi : ℕ → ℕ → ℤ
  off : ℕ × ℕ

/-- `_lay`: by the shift if the previous canvas fits there, or else at the same corner if it fits. -/
def lay (st : Option State) (sp : Space) (shift : ℤ × ℤ) : Option Laid := do
  let st ← st
  [shift, (0, 0)].findSome? fun s : ℤ × ℤ =>
    if s.1 ≥ 0 ∧ s.2 ≥ 0 ∧ s.1 + st.sp.H ≤ sp.H ∧ s.2 + st.sp.W ≤ sp.W then
      if s = (0, 0) ∧ st.sp.H = sp.H ∧ st.sp.W = sp.W then some ⟨st.sp.idx, (0, 0)⟩
      else some ⟨fun y x => if (⟨s.1.toNat, s.1.toNat + st.sp.H, s.2.toNat, s.2.toNat + st.sp.W⟩ : Box).Has y x then
        st.sp.idx (y - s.1.toNat) (x - s.2.toNat) else -1, (s.1.toNat, s.2.toNat)⟩
    else none

/-- `math.ceil(math.sqrt(n) + 1e-6)`. -/
def ceilMargin (n : ℕ) : ℕ := (ceilSqrt (10 ^ 12 * n) + 10 ^ 6) / 10 ^ 6

section
variable (st : State) (off : ℕ × ℕ) (b : Box)

/-- The previous cell is not in the box of the change with a margin `g`. -/
def out (g i : ℕ) : Bool :=
  let c := st.sp.cells.getD i (0, 0)
  let oy : ℤ := c.1 + off.1
  let ox : ℤ := c.2 + off.2
  oy < b.y0 - g || oy > b.y1 - 1 + g || ox < b.x0 - g || ox > b.x1 - 1 + g

def need (g : ℕ) : ℕ :=
  match (((List.range st.sp.N).filter (out st off b g)).map st.f).max? with
  | some n => ceilMargin n
  | none => 0

/-- The margin beyond which no distance reaches back to the box; after the last round, the reach of all. -/
def margin : ℕ → ℕ → ℕ
  | 0, _ => ceilMargin (((List.range st.sp.N).map st.f).max?.getD 0)
  | rounds + 1, g => if need st off b g ≤ g then g else margin rounds (need st off b g)

end

section
variable (edt : Transform) (F : Plane Bool) (w : Box)

def ringed (E : Box) : Plane Bool := Plane.embed false (E.y1 - E.y0 + 2) (E.x1 - E.x0 + 2) 1 1 (F.crop E)

def rpd (E : Box) (y : ℕ) : ℕ :=
  min (if E.y0 = 0 then max F.H F.W + 4 else y - E.y0 + 1) (if E.y1 = F.H then max F.H F.W + 4 else E.y1 - y)

def cpd (E : Box) (x : ℕ) : ℕ :=
  min (if E.x0 = 0 then max F.H F.W + 4 else x - E.x0 + 1) (if E.x1 = F.W then max F.H F.W + 4 else E.x1 - x)

def certain (E : Box) (inner : ℕ → ℕ → ℕ) : Bool :=
  (cellsIn w).all fun c => inner (c.1 - w.y0) (c.2 - w.x0) < min (rpd F E c.1) (cpd F E c.2) ^ 2

/-- The distances in the window, with a margin that grows until they are certain. -/
def transformed : ℕ → ℕ → ℕ → Option (ℕ → ℕ → ℕ)
  | 0, _, _ => none
  | fuel + 1, pad, tries =>
    let E := w.grow pad F.H F.W
    let dd := edt (ringed F E)
    let inner := fun y x => dd (w.y0 - E.y0 + 1 + y) (w.x0 - E.x0 + 1 + x)
    if certain F w E inner then some inner
    else transformed fuel (if tries = 0 then pad * 2 else max F.H F.W) (tries + 1)

end

/-- `np.searchsorted` on the rows of the cells, from the left. -/
def searchRow (sp : Space) (v : ℕ) : ℕ := sp.cells.countP fun c => decide (c.1 < v)

/-- `_distance`. -/
def distance (edt : Transform) (F : Plane Bool) (sp : Space) (st : State) (laid : Laid) (fuel : ℕ) :
    Option (ℕ → ℕ) :=
  let at_ := fun i => sp.cells.getD i (0, 0)
  let oc := fun i => laid.oi (at_ i).1 (at_ i).2
  let f := fun i => if oc i ≥ 0 then st.f (oc i).toNat else 0
  match bounding (fun y x => decide (laid.oi y x ≥ 0) != F.cell y x) F.box with
  | none => some f
  | some b => do
    let g := margin st laid.off b 6 0
    let w := b.grow g F.H F.W
    let inner ← transformed edt F w fuel (g + 2) 0
    let i0 := searchRow sp w.y0
    let i1 := searchRow sp w.y1
    some fun i => if i0 ≤ i ∧ i < i1 ∧ w.x0 ≤ (at_ i).2 ∧ (at_ i).2 < w.x1 then
      inner ((at_ i).1 - w.y0) ((at_ i).2 - w.x0) else f i

end PartitionSolver

end CloudServer.SolverDistance
