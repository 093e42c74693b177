import CloudServer.Patches

/-! The away-from-walls filter of the held cells, of the whole canvas and of a window around a change. -/
namespace CloudServer.HoldWindow
open Planes

/-- The size of a costmap cell and `near_min_clearance_m`, which `SceneParams` checks. -/
structure Clearance (𝕜 : Type) [Field 𝕜] [LinearOrder 𝕜] where
  RES : 𝕜
  mc : 𝕜
  RES_pos : 0 < RES
  mc_pos : 0 < mc

section
variable {𝕜 : Type} [Field 𝕜] [LinearOrder 𝕜]

/-- `dist > mc`, of squares. -/
def Clearance.far (c : Clearance 𝕜) (d : ℕ) : Prop := c.mc ^ 2 < c.RES ^ 2 * d

instance (c : Clearance 𝕜) (d : ℕ) : Decidable (c.far d) := inferInstanceAs (Decidable (_ < _))

variable [IsStrictOrderedRing 𝕜] [FloorSemiring 𝕜]

def Clearance.g (c : Clearance 𝕜) : ℕ := ⌈c.mc / c.RES⌉₊ + 2

end

def anyIn (p : Plane Bool) (b : Box) : Bool :=
  (List.range' b.y0 (b.y1 - b.y0)).any fun y => (List.range' b.x0 (b.x1 - b.x0)).any fun x => p.cell y x

section
variable {𝕜 : Type} [Field 𝕜] [LinearOrder 𝕜] [IsStrictOrderedRing 𝕜] [FloorSemiring 𝕜]
  (c : Clearance 𝕜) (label edt : Plane Bool → ℕ → ℕ → ℕ)

/-- `_away_from_walls`; `edt` gives the squares of the distances. -/
def awayFromWalls (held blocked : Plane Bool) : Plane Bool :=
  match bounding held.cell held.box with
  | none => falses held.H held.W
  | some b =>
    let w := b.grow c.g held.H held.W
    let hc := held.crop w
    let bc := blocked.crop w
    if anyIn bc bc.box then
      let lab := label hc
      let dist := edt (complement bc)
      let has := fun l => l ≠ 0 ∧ anyIn ⟨hc.H, hc.W, fun y x =>
        decide (c.far (dist y x)) && hc.cell y x && decide (lab y x = l)⟩ hc.box
      (falses held.H held.W).paste w ⟨hc.H, hc.W, fun y x => decide (has (lab y x)) && hc.cell y x⟩
    else held

end

/-- The planes that the hold is made from. -/
structure State where
  H : ℕ
  W : ℕ
  V : ℕ → ℕ → ℕ
  Bn : ℕ → ℕ → ℤ
  Fn : ℕ → ℕ → ℤ

namespace State

variable (s : State)

def held : Plane Bool := ⟨s.H, s.W, fun y x => decide (s.V y x < 100 ∧ 0 ≤ s.Bn y x ∧ s.Fn y x < s.Bn y x)⟩

def blocked : Plane Bool := ⟨s.H, s.W, fun y x => decide (100 ≤ s.V y x)⟩

def crossed (w : Box) : Bool :=
  (decide (0 < w.y0) && anyIn s.held ⟨w.y0, w.y0 + 1, w.x0, w.x1⟩) ||
    (decide (w.y1 < s.H) && anyIn s.held ⟨w.y1 - 1, w.y1, w.x0, w.x1⟩) ||
    (decide (0 < w.x0) && anyIn s.held ⟨w.y0, w.y1, w.x0, w.x0 + 1⟩) ||
    (decide (w.x1 < s.W) && anyIn s.held ⟨w.y0, w.y1, w.x1 - 1, w.x1⟩)

def window (box : Box) : ℕ → ℕ → Option Box
  | 0, _ => none
  | fuel + 1, m =>
    let w := box.grow m s.H s.W
    if s.crossed w then window box fuel (m * 2) else some w

variable {𝕜 : Type} [Field 𝕜] [LinearOrder 𝕜] [IsStrictOrderedRing 𝕜] [FloorSemiring 𝕜]
  (c : Clearance 𝕜) (label edt : Plane Bool → ℕ → ℕ → ℕ)

/-- `_hold_window`: the new hold plane and the window. -/
def holdWindow (hold : Plane Bool) (box : Box) (fuel : ℕ) : Option (Plane Bool × Box) :=
  (s.window box fuel (c.g + 2)).map fun w =>
    if anyIn s.held w then
      let p := w.grow c.g s.H s.W
      let inner : Box := ⟨w.y0 - p.y0, w.y1 - p.y0, w.x0 - p.x0, w.x1 - p.x0⟩
      let hc := (falses (p.y1 - p.y0) (p.x1 - p.x0)).paste inner (s.held.crop w)
      let out := awayFromWalls c label edt hc (s.blocked.crop p)
      (hold.paste w (out.crop inner), w)
    else (hold.paste w (falses (w.y1 - w.y0) (w.x1 - w.x0)), w)

def hold : Plane Bool :=
  if anyIn s.held s.held.box then awayFromWalls c label edt s.held s.blocked else s.held

end State

end CloudServer.HoldWindow
