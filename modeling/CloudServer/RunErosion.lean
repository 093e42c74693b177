import CloudServer.Planes

/-! Where the robot square fits: erosion by run lengths, banded and spliced. -/
namespace CloudServer.RunErosion
open Planes

structure Element where
  h : ℕ
  w : ℕ
  mark : ℕ → ℕ → Bool
  marked : ∃ i < h, ∃ j < w, mark i j = true

/-- `(dy, a, L)`: the row at `dy` from the centre, marked from `a` on for `L` cells. -/
abbrev Row := ℤ × ℤ × ℕ

/-- `ndimage.binary_erosion(free, structure=st, border_value=0)`. -/
def binaryErosion (free : Plane Bool) (st : Element) (y x : ℤ) : Bool :=
  (List.range st.h).all fun i => (List.range st.w).all fun j =>
    !st.mark i j || free.get false (y + (i - (st.h / 2 : ℕ))) (x + (j - (st.w / 2 : ℕ)))

def eroded (sqs : List Element) (free : Plane Bool) : Plane Bool :=
  ⟨free.H, free.W, fun y x => sqs.any fun st => binaryErosion free st y x⟩

/-- Row `i` of the element: nothing for an empty one, `none` when it is not one interval. -/
def Element.interval (st : Element) (i : ℕ) : Option (Option Row) :=
  let nz := hits (st.mark i) 0 st.w
  match nz.head?, nz.getLast? with
  | some a, some z =>
    if (List.range' a (z + 1 - a)).all (st.mark i) then
      some (some ((i : ℤ) - (st.h / 2 : ℕ), (a : ℤ) - (st.w / 2 : ℕ), nz.length))
    else none
  | _, _ => some none

def Element.rows (st : Element) : Option (List Row) :=
  ((List.range st.h).mapM st.interval).map List.reduceOption

def squareRows (sqs : List Element) : Option (List (List Row)) := sqs.mapM Element.rows

/-- The next blocked cell at or after `x`, `W` when there is none. -/
def nextBlocked (free : Plane Bool) (y x : ℕ) : ℕ :=
  ((List.range' x (free.W - x)).map fun i => if free.cell y i then free.W else i).foldr min free.W

/-- How many free cells there are in a row from `x` on. -/
def run (free : Plane Bool) (y x : ℕ) : ℕ := nextBlocked free y x - x

/-- Where the element of the given rows fits; `none` for the maximum of no rows. -/
def fit (free : Plane Bool) (rows : List Row) : Option (ℕ → ℕ → Bool) :=
  if rows = [] then none
  else
    let Y0 := (rows.map fun r => max 0 (-r.1)).foldr max 0
    let Y1 := (rows.map fun r => min (free.H : ℤ) (free.H - r.1)).foldr min (free.H : ℤ)
    let X0 := (rows.map fun r => max 0 (-r.2.1)).foldr max 0
    let X1 := (rows.map fun r => min (free.W : ℤ) (free.W - r.2.1)).foldr min (free.W : ℤ)
    some fun y x => decide (Y0 ≤ y ∧ y < Y1 ∧ X0 ≤ x ∧ x < X1) &&
      rows.all fun r => decide (r.2.2 ≤ run free (y + r.1).toNat (x + r.2.1).toNat)

/-- `_erode_union` on a plane that is not cut into bands. -/
def erodeWhole (free : Plane Bool) (rows_tbl : List (List Row)) : Option (Plane Bool) := do
  let fits ← rows_tbl.mapM (fit free)
  some ⟨free.H, free.W, fun y x => fits.any fun f => f y x⟩

/-- `max(max(st.shape) for st in sqs)`. -/
def reach (sqs : List Element) : Option ℕ := (sqs.map fun st => max st.h st.w).max?

/-- One band of rows from `b0` on, with its halo. No array has `2 ^ 63` cells, so the call for a
band is not cut again. -/
def band (free : Plane Bool) (rows_tbl : List (List Row)) (pad B : ℕ) (sq : Plane Bool) (b0 : ℕ) :
    Option (Plane Bool) := do
  let b1 := min free.H (b0 + B)
  let lo := b0 - pad
  let hi := min free.H (b1 + pad)
  let e ← erodeWhole (free.crop ⟨lo, hi, 0, free.W⟩) rows_tbl
  some (sq.paste ⟨b0, b1, 0, free.W⟩ (e.crop ⟨b0 - lo, b1 - lo, 0, free.W⟩))

def erodeUnion (free : Plane Bool) (sqs : List Element) (rows_tbl : Option (List (List Row)))
    (band_cells : ℕ) : Option (Plane Bool) :=
  match rows_tbl with
  | none => some (eroded sqs free)
  | some rows_tbl =>
    if free.H = 0 ∨ free.W = 0 then some (eroded sqs free)
    else if 2 * band_cells < free.H * free.W then do
      let pad ← reach sqs
      let B := max pad (band_cells / free.W)
      ((List.range ((free.H + B - 1) / B)).map (· * B)).foldlM (band free rows_tbl pad B)
        ⟨free.H, free.W, fun _ _ => false⟩
    else erodeWhole free rows_tbl

/-- One call of `_erode`: the new plane, how the canvas was shifted and the box of the changes. -/
structure Call where
  free : Plane Bool
  shift : ℕ × ℕ
  box : Option Box

def previous (c : Option (Plane Bool × Plane Bool)) (k : Call) : Option (Plane Bool × Plane Bool) :=
  match c with
  | none => none
  | some (fp, sp) =>
    if fp.H = k.free.H ∧ fp.W = k.free.W then some (fp, sp)
    else
      let oy := 2 * k.shift.1
      let ox := 2 * k.shift.2
      if oy + fp.H ≤ k.free.H ∧ ox + fp.W ≤ k.free.W then
        some (.embed false k.free.H k.free.W oy ox fp, .embed false k.free.H k.free.W oy ox sp)
      else none

def looked (c : Option (Plane Bool × Plane Bool)) (k : Call) : Box :=
  match k.box, c with
  | some b, some (fp, _) =>
    if fp.H = k.free.H ∧ fp.W = k.free.W then ⟨b.y0, min b.y1 k.free.H, b.x0, min b.x1 k.free.W⟩
    else k.free.box
  | _, _ => k.free.box

def erode (sqs : List Element) (c : Option (Plane Bool × Plane Bool)) (k : Call) : Option (Plane Bool) :=
  match previous c k with
  | none => erodeUnion k.free sqs (squareRows sqs) (2 ^ 20)
  | some (fp, sp) =>
    match bounding (fun y x => fp.cell y x != k.free.cell y x) (looked c k) with
    | none => some sp
    | some b => do
      let pad ← reach sqs
      let inner := b.grow pad k.free.H k.free.W
      let win := inner.grow pad k.free.H k.free.W
      let e ← erodeUnion (k.free.crop win) sqs (squareRows sqs) (2 ^ 20)
      some (sp.paste inner (e.crop
        ⟨inner.y0 - win.y0, inner.y1 - win.y0, inner.x0 - win.x0, inner.x1 - win.x0⟩))

/-- The results of a sequence of calls; each keeps its plane and result for the next. -/
def erodeAll (sqs : List Element) : Option (Plane Bool × Plane Bool) → List Call → Option (List (Plane Bool))
  | _, [] => some []
  | c, k :: ks => do
    let sq ← erode sqs c k
    let rest ← erodeAll sqs (some (k.free, sq)) ks
    some (sq :: rest)

section
variable {𝕜 : Type} [Field 𝕜] [LinearOrder 𝕜] [FloorRing 𝕜]

-- one named instance for each numeral below
local instance atLeastTwo_two : Nat.AtLeastTwo 2 := inferInstance
local instance atLeastTwo_ten : Nat.AtLeastTwo 10 := inferInstance

/-- `round`, ties to even. -/
def pyRound (x : 𝕜) : ℤ :=
  if x - ⌊x⌋ < 1 / 2 then ⌊x⌋
  else if 1 / 2 < x - ⌊x⌋ then ⌊x⌋ + 1
  else if ⌊x⌋ % 2 = 0 then ⌊x⌋ else ⌊x⌋ + 1

/-- The cell `(j, i)` of the grid of side `2 * (n + 2)` lies in the turned square. -/
def inSquare (ca sa R : 𝕜) (n j i : ℕ) : Bool :=
  let px : 𝕜 := i + 1 / 2 - (n + 2)
  let py : 𝕜 := j + 1 / 2 - (n + 2)
  decide (|ca * px + sa * py| ≤ R + 1 / 10 ^ 9 ∧ |-sa * px + ca * py| ≤ R + 1 / 10 ^ 9)

/-- The square cut to its cells; `none` when it has none. -/
def square (ca sa side res : 𝕜) : Option Element :=
  let n := (pyRound (side / res)).toNat
  let k := inSquare ca sa (side / res / 2) n
  match h : bounding k ⟨0, (n + 2) * 2, 0, (n + 2) * 2⟩ with
  | none => none
  | some c => some ⟨c.y1 - c.y0, c.x1 - c.x0, fun i j => k (c.y0 + i) (c.x0 + j), bounding_marked h⟩

/-- The squares at the 23 headings; `trig k` are the cosine and sine of heading `k`. -/
def squares (trig : ℕ → 𝕜 × 𝕜) (res r : 𝕜) : Option (List Element) :=
  (List.range 23).mapM fun k => square (trig k).1 (trig k).2 (2 * r) res

end

end CloudServer.RunErosion
