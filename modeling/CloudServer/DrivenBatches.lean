import CloudServer.DrivenEvidence

/-! Batches of leaves: the canvas grows to their windows, then the evidence is brought up to date. -/
namespace CloudServer.DrivenEvidence
open Planes

/-- `MARGIN`, in costmap cells. -/
def MARGIN : ℤ := 40

structure Window where
  gx : ℤ
  gy : ℤ
  w : ℕ
  h : ℕ
deriving DecidableEq

/-- `_plan_canvas` without a canvas. -/
def Canvas.fresh (gx0 gy0 gx1 gy1 : ℤ) : Canvas where
  cy0 := (gy0 - MARGIN) / 2 * 2
  cx0 := (gx0 - MARGIN) / 2 * 2
  H := ((gy1 + MARGIN - (gy0 - MARGIN) / 2 * 2 + 1) / 2 * 2).toNat
  W := ((gx1 + MARGIN - (gx0 - MARGIN) / 2 * 2 + 1) / 2 * 2).toNat
  even := by omega

/-- `_plan_canvas` on a canvas that the bounds do not fit in. -/
def Canvas.grow (c : Canvas) (gx0 gy0 gx1 gy1 : ℤ) : Canvas where
  cy0 := min c.cy0 ((gy0 - MARGIN) / 2 * 2)
  cx0 := min c.cx0 ((gx0 - MARGIN) / 2 * 2)
  H := ((max (c.cy0 + c.H) (gy1 + MARGIN) - min c.cy0 ((gy0 - MARGIN) / 2 * 2) + 1) / 2 * 2).toNat
  W := ((max (c.cx0 + c.W) (gx1 + MARGIN) - min c.cx0 ((gx0 - MARGIN) / 2 * 2) + 1) / 2 * 2).toNat
  even := by
    have h := c.even
    omega

/-- The canvas for a batch, and how far the old content moves, in lattice cells. -/
def Canvas.plan (c : Option Canvas) (gx0 gy0 gx1 gy1 : ℤ) : Canvas × (ℕ × ℕ) :=
  match c with
  | none => (Canvas.fresh gx0 gy0 gx1 gy1, (0, 0))
  | some c =>
    if c.cx0 ≤ gx0 ∧ c.cy0 ≤ gy0 ∧ gx1 ≤ c.cx0 + c.W ∧ gy1 ≤ c.cy0 + c.H then (c, (0, 0))
    else
      let g := c.grow gx0 gy0 gx1 gy1
      (g, (((c.cy0 - g.cy0) / 2).toNat, ((c.cx0 - g.cx0) / 2).toNat))

def bounds : List Window → Option (ℤ × ℤ × ℤ × ℤ)
  | [] => none
  | w :: ws =>
    match bounds ws with
    | none => some (w.gx, w.gy, w.gx + w.w, w.gy + w.h)
    | some b => some (min w.gx b.1, min w.gy b.2.1, max (w.gx + w.w) b.2.2.1, max (w.gy + w.h) b.2.2.2)

section
variable {K S 𝕜 : Type} [LinearOrder K] [DecidableEq S] [Field 𝕜] [LinearOrder 𝕜] [IsStrictOrderedRing 𝕜]
  [FloorRing 𝕜]

/-- A batch of prepared leaves; with `bbox` it is a refold of that area. -/
structure Batch (K S 𝕜 : Type) where
  leaves : List (K × Rec S 𝕜 × Window)
  bbox : Option (𝕜 × 𝕜 × 𝕜 × 𝕜)

/-- What `_prepare` checks of a pose: it lies at most `POSE_SLACK_M` outside its window. -/
def Batch.Accepted (ρ : Rule 𝕜) (slack : 𝕜) (b : Batch K S 𝕜) : Prop :=
  (b.leaves.map Prod.fst).Nodup ∧ ∀ e ∈ b.leaves, 0 < e.2.1.r_d ∧ 0 < e.2.2.w ∧ 0 < e.2.2.h ∧
    e.2.2.gx * ρ.RES - e.2.1.x ≤ slack ∧ e.2.1.x - (e.2.2.gx + e.2.2.w) * ρ.RES ≤ slack ∧
    e.2.2.gy * ρ.RES - e.2.1.y ≤ slack ∧ e.2.1.y - (e.2.2.gy + e.2.2.h) * ρ.RES ≤ slack

structure Engine (K S 𝕜 : Type) where
  canvas : Option Canvas
  leaves : Leaves K S 𝕜
  kept : Option (Kept K S 𝕜)

def Engine.empty : Engine K S 𝕜 := ⟨none, [], none⟩

def lookup (leaves : Leaves K S 𝕜) (k : K) : Option (Rec S 𝕜) :=
  (leaves.find? fun e => e.1 = k).map Prod.snd

/-- `_leaf_put`. -/
def put (leaves : Leaves K S 𝕜) (e : K × Rec S 𝕜) : Leaves K S 𝕜 :=
  if (lookup leaves e.1).isSome then leaves.map fun o => if o.1 = e.1 then e else o else leaves ++ [e]

/-- The leaves after the batch, its new ones, and whether a stored one changed. -/
def fold (leaves : Leaves K S 𝕜) (es : List (K × Rec S 𝕜)) : Leaves K S 𝕜 × Leaves K S 𝕜 × Bool :=
  es.foldl (fun acc e => match lookup acc.1 e.1 with
    | none => (put acc.1 e, acc.2.1 ++ [e], acc.2.2)
    | some o => (put acc.1 e, acc.2.1, acc.2.2 || decide (o ≠ e.2))) (leaves, [], false)

-- the keys' order and their equality test agree
local instance key_lawful : LawfulBEq K := inferInstance

def dropped (b : Batch K S 𝕜) (e : K × Rec S 𝕜) : Bool :=
  match b.bbox with
  | none => false
  | some (x0, y0, x1, y1) => decide (x0 ≤ e.2.x ∧ e.2.x ≤ x1 ∧ y0 ≤ e.2.y ∧ e.2.y ≤ y1 ∧
      e.1 ∉ b.leaves.map Prod.fst)

variable (ρ : Rule 𝕜) (edt : Plane Bool → ℕ → ℕ → ℕ)

/-- An accepted batch. Without leaves and without an area of a canvas it does nothing. -/
def Engine.apply (g : Engine K S 𝕜) (b : Batch K S 𝕜) : Engine K S 𝕜 :=
  let kept := g.leaves.filter fun e => !dropped b e
  let folded := fold kept (b.leaves.map fun e => (e.1, e.2.1))
  let full := folded.2.2 || decide (kept.length < g.leaves.length)
  match g.canvas, bounds (b.leaves.map fun e => e.2.2) with
  | none, none => g
  | some c, none =>
    if b.bbox.isSome then
      { g with leaves := kept, kept := some (evidence ρ edt g.kept c (0, 0) kept [] full) }
    else g
  | old, some (gx0, gy0, gx1, gy1) =>
    let p := Canvas.plan old gx0 gy0 gx1 gy1
    { canvas := some p.1
      leaves := folded.1
      kept := some (evidence ρ edt g.kept p.1 p.2 folded.1 folded.2.1 full) }

end

end CloudServer.DrivenEvidence
