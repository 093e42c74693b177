import CloudServer.Lists
import CloudServer.Planes
import CloudServer.PointerDoubling

/-! The basins of a function on the cells of a grid, with ranks and without. -/
namespace CloudServer.RawBasins
open Planes PointerDoubling KeySort

structure Space where
  H : ℕ
  W : ℕ
  cells : List (ℕ × ℕ)
  idx : ℕ → ℕ → ℤ

def place {α : Type*} [DecidableEq α] (cells : List α) (c : α) : ℤ :=
  match cells.idxOf? c with
  | some i => i
  | none => -1

def cellsOf (F : Plane Bool) : List (ℕ × ℕ) :=
  (List.range F.H).flatMap fun y => ((List.range F.W).filter (F.cell y)).map fun x => (y, x)

def Space.of (F : Plane Bool) : Space := ⟨F.H, F.W, cellsOf F, fun y x => place (cellsOf F) (y, x)⟩

@[simp] lemma Space.of_H (F : Plane Bool) : (Space.of F).H = F.H := (rfl)

@[simp] lemma Space.of_W (F : Plane Bool) : (Space.of F).W = F.W := (rfl)

@[simp] lemma Space.of_cells (F : Plane Bool) : (Space.of F).cells = cellsOf F := (rfl)

inductive Dir
  | N | E | S | W
deriving DecidableEq

namespace Space
variable (sp : Space)

def N : ℕ := sp.cells.length

def Wp : ℕ := sp.W + 2

def pos : List ℕ := sp.cells.map fun c => (c.1 + 1) * sp.Wp + c.2 + 1

/-- `padded`: the index image with a ring of -1, flattened. -/
def P (k : ℕ) : ℤ :=
  let y := k / sp.Wp
  let x := k % sp.Wp
  if 1 ≤ y ∧ y ≤ sp.H ∧ 1 ≤ x ∧ x ≤ sp.W then sp.idx (y - 1) (x - 1) else -1

/-- `A = full(len(P), d); A[pos] = g`. -/
def scatter {β : Type*} (d : β) (g : ℕ → β) (k : ℕ) : β :=
  match sp.pos.idxOf? k with
  | some i => g i
  | none => d

/-- The flat place next to that of cell `i`. -/
def next (i : ℕ) : Dir → ℕ
  | .N => sp.pos.getD i 0 - sp.Wp
  | .E => sp.pos.getD i 0 + 1
  | .S => sp.pos.getD i 0 + sp.Wp
  | .W => sp.pos.getD i 0 - 1

end Space

structure Basins where
  bid : List ℕ
  roots : List ℕ
deriving DecidableEq

/-- The roots of the pointers in the order of `r`, and the place among them of every cell's root. -/
def finish (fuel N : ℕ) (par : ℕ → ℕ) (r : ℕ → ℕ → Prop) [DecidableRel r] : Option Basins := do
  let par ← doubling fuel (table N par)
  let roots := ((List.range N).filter fun i => par.getD i 0 = i).insertionSort r
  some ⟨par.map roots.idxOf, roots⟩

/-- `np.argsort(-f, kind="stable")` and its inverse. -/
def ranks {𝕜 : Type*} [LinearOrder 𝕜] (N : ℕ) (f : ℕ → 𝕜) (i : ℕ) : ℕ :=
  ((List.range N).insertionSort fun a b => OrderDual.toDual (f a) ≤ OrderDual.toDual (f b)).idxOf i

def IsPermutation (N : ℕ) (rank : ℕ → ℕ) : Prop :=
  0 < N ∧ (∀ i < N, rank i < N) ∧ ∀ v < N, ((List.range N).map rank).count v = 1

instance (N : ℕ) (rank : ℕ → ℕ) : Decidable (IsPermutation N rank) :=
  inferInstanceAs (Decidable (_ ∧ _ ∧ _))

section
variable (sp : Space) (rank : ℕ → ℕ)

/-- The parents when the ranks are a permutation: the cell that holds the least rank around. -/
def parOfPermutation (i : ℕ) : ℕ :=
  let RP := sp.scatter (⊤ : WithTop ℕ) fun j => WithTop.some (rank j)
  let m := min (min (RP (sp.next i .N)) (RP (sp.next i .E))) (min (RP (sp.next i .S)) (RP (sp.next i .W)))
  let cell_of := fun v => ((List.range sp.N).map rank).idxOf v
  if m < WithTop.some (rank i) then cell_of (min (m.untopD (sp.N - 1)) (sp.N - 1)) else i

def parOfNeighbours (i : ℕ) : ℕ :=
  let nb := fun d => sp.P (sp.next i d)
  let rn : Dir → WithTop ℕ := fun d => if 0 ≤ nb d then WithTop.some (rank (nb d).toNat) else ⊤
  let arg := ([Dir.N, .E, .S, .W].argmin rn).getD .N
  if rn arg < WithTop.some (rank i) then (nb arg).toNat else i

def raw_basins (fuel : ℕ) : Option Basins :=
  finish fuel sp.N (if IsPermutation sp.N rank then parOfPermutation sp rank else parOfNeighbours sp rank)
    fun a b => rank a ≤ rank b

end

section
variable {𝕜 : Type*} [LinearOrder 𝕜] (sp : Space) (f : ℕ → 𝕜)

/-- The parents without ranks: the first of the largest values around, in the order N, W, E, S. -/
def parOfValues (i : ℕ) : ℕ :=
  let FP := sp.scatter (⊥ : WithBot 𝕜) fun j => (f j : WithBot 𝕜)
  let arg := ([Dir.N, .W, .E, .S].argmax fun d => FP (sp.next i d)).getD .N
  let bf := FP (sp.next i arg)
  if f i < bf ∨ bf = f i ∧ (arg = .N ∨ arg = .W) then (sp.P (sp.next i arg)).toNat else i

def raw_basins_f (fuel : ℕ) : Option Basins :=
  finish fuel sp.N (parOfValues sp f) fun a b => OrderDual.toDual (f a) ≤ OrderDual.toDual (f b)

end

end CloudServer.RawBasins
