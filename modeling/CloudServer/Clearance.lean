import CloudServer.Patches

/-! The clearance plane, kept from call to call and transformed again only around a change. -/
namespace CloudServer.Clearance
open Planes

def cellsIn (b : Box) : List (ℕ × ℕ) :=
  (List.range' b.y0 (b.y1 - b.y0)).flatMap fun y => (List.range' b.x0 (b.x1 - b.x0)).map fun x => (y, x)

/-- `math.ceil(math.sqrt(n))`. -/
def ceilSqrt (n : ℕ) : ℕ := if n.sqrt * n.sqrt = n then n.sqrt else n.sqrt + 1

def largestIn (d : Plane ℕ) (b : Box) : ℕ := ((cellsIn b).map fun c => d.cell c.1 c.2).foldr max 0

def allSet (p : Plane Bool) : Bool := (cellsIn p.box).all fun c => p.cell c.1 c.2

/-- A cached plane: the squared distances of `free`. -/
structure Entry where
  free : Plane Bool
  d : Plane ℕ

section
variable (d : Plane ℕ) (b : Box)

/-- The border ring at distance `t` around the box, the sides that lie on the canvas. -/
def ring (t : ℕ) : List Box :=
  let e := b.grow t d.H d.W
  (if t ≤ b.y0 then [⟨b.y0 - t, b.y0 - t + 1, e.x0, e.x1⟩] else []) ++
    (if b.y1 - 1 + t < d.H then [⟨b.y1 - 1 + t, b.y1 - 1 + t + 1, e.x0, e.x1⟩] else []) ++
    (if t ≤ b.x0 then [⟨e.y0, e.y1, b.x0 - t, b.x0 - t + 1⟩] else []) ++
    if b.x1 - 1 + t < d.W then [⟨e.y0, e.y1, b.x1 - 1 + t, b.x1 - 1 + t + 1⟩] else []

def confined (t : ℕ) : Bool := decide (((ring d b t).map (largestIn d)).foldr max 0 < (t - 1) ^ 2)

def reach (fp free : Plane Bool) : ℕ :=
  let far := ceilSqrt (largestIn d d.box) + 1
  if allSet fp || allSet free then far else ([4, 8, 16, 32, 64].find? (confined d b)).getD far

end

section
variable (edt : Plane Bool → ℕ → ℕ → ℕ)

/-- Every distance in `E` ends before the first row and column that the window leaves out. -/
def certified (H W : ℕ) (w E : Box) (dw : ℕ → ℕ → ℕ) : Bool :=
  (cellsIn E).all fun c =>
    let n := dw (c.1 - w.y0) (c.2 - w.x0)
    decide ((0 < w.y0 → n ≤ (c.1 - w.y0 + 1) ^ 2) ∧ (w.y1 < H → n ≤ (w.y1 - c.1) ^ 2) ∧
      (0 < w.x0 → n ≤ (c.2 - w.x0 + 1) ^ 2) ∧ (w.x1 < W → n ≤ (w.x1 - c.2) ^ 2))

/-- The distances in `E`, from a window that is doubled until they are certain. -/
def transformed (free : Plane Bool) (E : Box) : ℕ → ℕ → Option (Plane ℕ)
  | 0, _ => none
  | fuel + 1, rw =>
    let w := E.grow rw free.H free.W
    let dw := edt (free.crop w)
    if w = free.box ∨ certified free.H free.W w E dw = true then
      some ⟨E.y1 - E.y0, E.x1 - E.x0, fun y x => dw (E.y0 - w.y0 + y) (E.x0 - w.x0 + x)⟩
    else transformed free E fuel (rw * 2)

/-- Where the changed cells are looked for: in the given box, cut off at the canvas, or everywhere. -/
def scan (free : Plane Bool) : Option Box → Box
  | some b => ⟨b.y0, min b.y1 free.H, b.x0, min b.x1 free.W⟩
  | none => free.box

def changed (old : Box) (fp free : Plane Bool) (y x : ℕ) : Bool :=
  fp.cell y x != free.cell y x || !decide (old.Has y x)

/-- The update of a plane whose old content is the box `old` of the new canvas. -/
def update (old : Box) (fp : Plane Bool) (dp : Plane ℕ) (free : Plane Bool) (box : Option Box)
    (fuel : ℕ) : Option Entry :=
  match bounding (changed old fp free) (scan free box) with
  | none => some ⟨free, dp⟩
  | some b =>
    let E := b.grow (reach dp b fp free) free.H free.W
    (transformed edt free E fuel (ceilSqrt (largestIn dp E) + 2)).map fun sub => ⟨free, dp.paste E sub⟩

/-- The plane asked about, the shift since the last call and the box that changed. -/
structure Call where
  free : Plane Bool
  shift : ℕ × ℕ
  box : Option Box

/-- `_edt(free)` of the whole plane. -/
def whole (free : Plane Bool) : Entry := ⟨free, ⟨free.H, free.W, edt free⟩⟩

def clearanceRaw (c : Option Entry) (k : Call) (fuel : ℕ) : Option Entry :=
  match c with
  | none => some (whole edt k.free)
  | some ⟨fp, dp⟩ =>
    let H := k.free.H
    let W := k.free.W
    let oy := 2 * k.shift.1
    let ox := 2 * k.shift.2
    if fp.H = H ∧ fp.W = W then update edt k.free.box fp dp k.free k.box fuel
    else if H < oy + fp.H ∨ W < ox + fp.W then some (whole edt k.free)
    else
      update edt ⟨oy, oy + fp.H, ox, ox + fp.W⟩ (Plane.embed false H W oy ox fp)
        (Plane.embed 0 H W oy ox dp) k.free none fuel

end

end CloudServer.Clearance
