import CloudServer.Patches

/-! The driven evidence of the leaves: drawn leaf by leaf, or rebuilt from all of them. -/
namespace CloudServer.DrivenEvidence
open Planes

/-- The lattice and the robot the map is built for; `round4` is `round(·, 4)`. -/
structure Rule (𝕜 : Type) [Field 𝕜] [LinearOrder 𝕜] where
  RES : 𝕜
  r : 𝕜
  h : 𝕜
  eps : 𝕜
  round4 : 𝕜 → 𝕜
  h_pos : 0 < h

structure Rec (S 𝕜 : Type) where
  session : S
  t : ℤ
  x : 𝕜
  y : 𝕜
  r_d : 𝕜
deriving DecidableEq

structure Canvas where
  cy0 : ℤ
  cx0 : ℤ
  H : ℕ
  W : ℕ
  even : 2 ∣ cy0 ∧ 2 ∣ cx0 ∧ 2 ∣ H ∧ 2 ∣ W

namespace Canvas

variable (c : Canvas)

def rows : ℕ := c.H / 2
def cols : ℕ := c.W / 2

def Has (p : Cell) : Prop := 0 ≤ p.1 ∧ p.1 < c.rows ∧ 0 ≤ p.2 ∧ p.2 < c.cols

instance (p : Cell) : Decidable (c.Has p) := inferInstanceAs (Decidable (_ ∧ _ ∧ _ ∧ _))

end Canvas

def line (a b : Cell) : List Cell :=
  let n := max (max (b.1 - a.1).natAbs (b.2 - a.2).natAbs) 1
  (List.range (n + 1)).map fun k =>
    (a.1 + ((b.1 - a.1) * k * 2 + n) / (2 * n), a.2 + ((b.2 - a.2) * k * 2 + n) / (2 * n))

section
variable {𝕜 : Type} [Field 𝕜] [LinearOrder 𝕜]

namespace Rule

variable (ρ : Rule 𝕜)

/-- `sqrt(n) * h <= thr`. -/
def Within (thr : 𝕜) (n : ℤ) : Prop := 0 ≤ thr ∧ n * ρ.h ^ 2 ≤ thr ^ 2

instance (thr : 𝕜) (n : ℤ) : Decidable (ρ.Within thr n) := inferInstanceAs (Decidable (_ ∧ _))

/-- How far the body centre, the body and the body of this map's robot are proven around a cell that a
robot of half side `d` drove over. -/
def centre (_d : 𝕜) : Option 𝕜 := some (ρ.h + ρ.eps)
def body (d : 𝕜) : Option 𝕜 := some (d + ρ.eps)
def proven (d : 𝕜) : Option 𝕜 := if ρ.r - ρ.eps ≤ d then some (d - ρ.r + ρ.h + ρ.eps) else none

variable [IsStrictOrderedRing 𝕜] [FloorRing 𝕜]

/-- `_disc(thr)` at an offset. -/
def disc (thr : 𝕜) (dy dx : ℤ) : Bool :=
  let R := ⌈thr / ρ.h⌉ + 1
  decide (|dy| ≤ R ∧ |dx| ≤ R ∧ ρ.Within thr (dy ^ 2 + dx ^ 2))

def place {S : Type} (c : Canvas) (rec : Rec S 𝕜) : Cell :=
  ((⌊rec.y / ρ.RES⌋ - c.cy0) / 2, (⌊rec.x / ρ.RES⌋ - c.cx0) / 2)

/-- `tgt |= binary_dilation(cells, disc)`: every cell puts its disc. -/
def stamp (tgt : Plane Bool) (cells : List Cell) : Option 𝕜 → Plane Bool
  | none => tgt
  | some thr => ⟨tgt.H, tgt.W, fun y x => tgt.cell y x || cells.any fun c => ρ.disc thr (y - c.1) (x - c.2)⟩

end Rule

end

/-- `G`, `W`, `S` of the driven lines and `P` of the poses alone. -/
structure Images where
  G : Plane Bool
  W : Plane Bool
  S : Plane Bool
  P : Plane Bool

structure Last (K 𝕜 : Type) where
  t : ℤ
  key : K
  pos : Cell
  d : 𝕜

/-- What the engine keeps of the driven images between batches. -/
structure Kept (K S 𝕜 : Type) where
  H : ℕ
  W : ℕ
  images : Images
  last : S → Option (Last K 𝕜)

section
variable {K S 𝕜 : Type} [LinearOrder K] [DecidableEq S] [Field 𝕜] [LinearOrder 𝕜] [IsStrictOrderedRing 𝕜]
  [FloorRing 𝕜]

abbrev Leaves (K S 𝕜 : Type) := List (K × Rec S 𝕜)

def before (a b : K × Rec S 𝕜) : Prop := toLex (a.2.t, a.1) ≤ toLex (b.2.t, b.1)

instance : DecidableRel (before (K := K) (S := S) (𝕜 := 𝕜)) := fun _ _ => inferInstanceAs (Decidable (_ ≤ _))

def items (leaves : Leaves K S 𝕜) (s : S) : Leaves K S 𝕜 :=
  (leaves.filter fun e => e.2.session = s).insertionSort before

def sessions (leaves : Leaves K S 𝕜) : List S := (leaves.map fun e => e.2.session).dedup

variable (ρ : Rule 𝕜)

def chord (a b : Cell × 𝕜) : List (Cell × 𝕜) :=
  if b.2 = a.2 then (line a.1 b.1).map fun p => (p, a.2) else []

def trail : List (Cell × 𝕜) → List (Cell × 𝕜)
  | [] => []
  | [a] => [a]
  | a :: b :: rest => a :: (chord a b ++ trail (b :: rest))

def point (c : Canvas) (e : K × Rec S 𝕜) : Cell × 𝕜 := (ρ.place c e.2, ρ.round4 e.2.r_d)

def marks (c : Canvas) (leaves : Leaves K S 𝕜) : List (Cell × 𝕜) :=
  (sessions leaves).flatMap fun s => trail ((items leaves s).map (point ρ c))

def raster (c : Canvas) (ms : List (Cell × 𝕜)) (d : 𝕜) : Plane Bool :=
  ⟨c.rows, c.cols, fun y x => decide ((((y : ℤ), (x : ℤ)), d) ∈ ms)⟩

variable (edt : Plane Bool → ℕ → ℕ → ℕ)

def drawn (c : Canvas) (ms : List (Cell × 𝕜)) (reach : 𝕜 → Option 𝕜) : Plane Bool :=
  ⟨c.rows, c.cols, fun y x => (ms.map Prod.snd).any fun d =>
    match reach d with
    | none => false
    | some thr => decide (ρ.Within thr (edt (complement (raster c ms d)) y x))⟩

def newest (l : Leaves K S 𝕜) (c : Canvas) : Option (Last K 𝕜) :=
  l.getLast?.map fun e => ⟨e.2.t, e.1, ρ.place c e.2, ρ.round4 e.2.r_d⟩

/-- The full rebuild. A session's newest point is the greatest by time and key. -/
def rebuild (c : Canvas) (leaves : Leaves K S 𝕜) : Kept K S 𝕜 :=
  let ms := marks ρ c leaves
  let poses := (leaves.map (point ρ c)).filter fun m => c.Has m.1
  { H := c.rows
    W := c.cols
    images :=
      { G := drawn ρ edt c ms ρ.centre
        W := drawn ρ edt c ms ρ.proven
        S := drawn ρ edt c ms ρ.body
        P := drawn ρ edt c poses ρ.proven }
    last := fun s => newest ρ (items leaves s) c }

/-- The old images on the new canvas; `none` when the old canvas does not fit in. -/
def Kept.onto (st : Kept K S 𝕜) (c : Canvas) (shift : ℕ × ℕ) : Option (Kept K S 𝕜) :=
  if st.H = c.rows ∧ st.W = c.cols then some st
  else if c.rows < shift.1 + st.H ∨ c.cols < shift.2 + st.W then none
  else
    let pad := Plane.embed false c.rows c.cols shift.1 shift.2
    some
      { H := c.rows
        W := c.cols
        images := ⟨pad st.images.G, pad st.images.W, pad st.images.S, pad st.images.P⟩
        last := fun s => (st.last s).map fun l => { l with pos := (l.pos.1 + shift.1, l.pos.2 + shift.2) } }

def inOrder (last : Option (Last K 𝕜)) (new : Leaves K S 𝕜) : Bool :=
  match new.head?, last with
  | some e, some l => decide (toLex (l.t, l.key) < toLex (e.2.t, e.1))
  | _, _ => true

/-- One new leaf: its pose and the chord to it, as far as they lie on the canvas. -/
def drawLeaf (c : Canvas) (st : Kept K S 𝕜) (e : K × Rec S 𝕜) : Kept K S 𝕜 :=
  let s := e.2.session
  let m := point ρ c e
  let here := if c.Has m.1 then [m.1] else []
  let way := match st.last s with
    | some l => (chord (l.pos, l.d) m).map Prod.fst |>.filter fun p => c.Has p
    | none => []
  { st with
    images :=
      { G := ρ.stamp st.images.G (here ++ way) (ρ.centre m.2)
        W := ρ.stamp st.images.W (here ++ way) (ρ.proven m.2)
        S := ρ.stamp st.images.S (here ++ way) (ρ.body m.2)
        P := ρ.stamp st.images.P here (ρ.proven m.2) }
    last := Function.update st.last s (some ⟨e.2.t, e.1, m.1, m.2⟩) }

/-- `_evidence`: leaves that follow the newest points of their sessions are drawn into the old images,
anything else is a rebuild. -/
def evidence (st : Option (Kept K S 𝕜)) (c : Canvas) (shift : ℕ × ℕ) (leaves new : Leaves K S 𝕜)
    (full : Bool) : Kept K S 𝕜 :=
  match if full then none else st.bind fun st => st.onto c shift with
  | none => rebuild ρ edt c leaves
  | some st =>
    if (sessions new).all fun s => inOrder (st.last s) (items new s) then
      ((sessions new).flatMap (items new)).foldl (drawLeaf ρ c) st
    else rebuild ρ edt c leaves

end

end CloudServer.DrivenEvidence
