import CloudServer.ForwardTable

/-! The waypoint budget of a route: of the ways along the lattice path, the one with the fewest
waypoints that costs at most a budget more. -/
namespace CloudServer.Waypoints
open ForwardTable

variable {𝕜 : Type} [Field 𝕜] [LinearOrder 𝕜]

-- one named instance for each numeral below
scoped instance atLeastTwo_two : Nat.AtLeastTwo 2 := inferInstance
scoped instance atLeastTwo_ten : Nat.AtLeastTwo 10 := inferInstance
scoped instance atLeastTwo_hundred : Nat.AtLeastTwo 100 := inferInstance

/-- `math.hypot`, which `math.dist` is for the differences of the coordinates. -/
structure Hypot (𝕜 : Type) [Field 𝕜] [LinearOrder 𝕜] where
  hypot : 𝕜 → 𝕜 → 𝕜
  nonneg : ∀ a b, 0 ≤ hypot a b
  add_le : ∀ a b c d, hypot (a + c) (b + d) ≤ hypot a b + hypot c d

def Hypot.dist (N : Hypot 𝕜) (p q : 𝕜 × 𝕜) : 𝕜 := N.hypot (q.1 - p.1) (q.2 - p.2)

def dropRepeats (points : List (𝕜 × 𝕜)) : List (𝕜 × 𝕜) :=
  points.foldl (fun pts p => if pts.getLast? = some p then pts else pts ++ [p]) []

/-- `pts[k]`. -/
def pt (pts : List (𝕜 × 𝕜)) (k : ℕ) : 𝕜 × 𝕜 := pts.getD k (0, 0)

/-- The sum over the steps before point `k`: `arc[k]`, `prefix[k]`. -/
def upTo (f : 𝕜 × 𝕜 → 𝕜 × 𝕜 → 𝕜) (pts : List (𝕜 × 𝕜)) (k : ℕ) : 𝕜 :=
  ((List.range k).map fun m => f (pt pts m) (pt pts (m + 1))).sum

/-- `bisect.bisect_right` of an ascending list. -/
def bisectRight {α : Type} [LinearOrder α] (xs : List α) (x : α) : ℕ := (xs.takeWhile fun y => y ≤ x).length

/-- `while ok(end + 1): end += 1`. -/
def extend (ok : ℕ → Bool) : ℕ → ℕ → ℕ
  | 0, e => e
  | fuel + 1, e => if ok (e + 1) then extend ok fuel (e + 1) else e

def THIN_SPACING_M : 𝕜 := 1 / 2

def centimetres [FloorRing 𝕜] (budgetM : 𝕜) : ℤ := max 0 ⌈max 0 budgetM * 100 - 1 / 10 ^ 9⌉

/-- What a planner is given: sight, distances, the largest gap and the costs of legs. -/
structure Planner (𝕜 : Type) [Field 𝕜] [LinearOrder 𝕜] where
  norm : Hypot 𝕜
  visible : 𝕜 × 𝕜 → 𝕜 × 𝕜 → Bool
  maxGap : 𝕜
  cost : 𝕜 × 𝕜 → 𝕜 × 𝕜 → 𝕜
  endExtra : 𝕜

namespace Planner

variable (P : Planner 𝕜) (pts : List (𝕜 × 𝕜))

def dist (i j : ℕ) : 𝕜 := P.norm.dist (pt pts i) (pt pts j)

def arc (k : ℕ) : 𝕜 := upTo P.norm.dist pts k

/-- The last point of the candidates' window of point `i`. -/
def windowEnd (i : ℕ) : ℕ :=
  let last := pts.length - 1
  if 0 < P.maxGap then
    extend (fun k => k ≤ last ∧ P.dist pts i k ≤ P.maxGap) last
      (max (i + 1) (min last (bisectRight ((List.range pts.length).map (P.arc pts)) (P.arc pts i + P.maxGap) - 1)))
  else last

def farthest (i : ℕ) : ℕ :=
  let stop := P.windowEnd pts i
  ((List.range' (i + 2) (stop - (i + 1))).reverse.find? fun k => P.visible (pt pts i) (pt pts k)).getD (i + 1)

/-- The indices that are kept after `i`. -/
def pull : ℕ → ℕ → List ℕ
  | 0, _ => []
  | fuel + 1, i => if i < pts.length - 1 then P.farthest pts i :: pull fuel (P.farthest pts i) else []

def simplify (points : List (𝕜 × 𝕜)) : List (𝕜 × 𝕜) :=
  let pts := dropRepeats points
  if pts.length ≤ 2 then pts else (0 :: P.pull pts pts.length 0).map (pt pts)

/-- `pts.index(q, pos)`. -/
def indexFrom (q : 𝕜 × 𝕜) (pos : ℕ) : ℕ := pos + (pts.drop pos).idxOf q

def greedyPullIndices : List ℕ :=
  ((P.simplify pts).foldl (fun s q => (s.1 ++ [indexFrom pts q s.2], indexFrom pts q s.2)) ([], 0)).1

/-- The distance from the chord of `a` and `b`. -/
def offChord (a b m : ℕ) : 𝕜 :=
  let p := pt pts a
  let q := pt pts m
  let dx := (pt pts b).1 - p.1
  let dy := (pt pts b).2 - p.2
  let norm := P.norm.hypot dx dy
  if 0 < norm then |dx * (q.2 - p.2) - dy * (q.1 - p.1)| / norm else P.norm.dist q p

/-- The points that are kept between `a` and `b`; the stack of the source only orders the work. -/
def peucker (eps : 𝕜) : ℕ → ℕ → ℕ → List ℕ
  | 0, _, _ => []
  | fuel + 1, a, b =>
    if b - a < 2 then []
    else
      let far := (List.range' (a + 1) (b - a - 1)).foldl (fun (s : Option ℕ × 𝕜) m =>
        if s.2 < P.offChord pts a b m then (some m, P.offChord pts a b m) else s) (none, eps)
      match far.1 with
      | none => []
      | some far => far :: (peucker eps fuel a far ++ peucker eps fuel far b)

def thinStep : 𝕜 := if 0 < P.maxGap then min P.maxGap THIN_SPACING_M else THIN_SPACING_M

/-- The farthest point before `b` within the spacing of `a`, else the next one. -/
def retreat (a b : ℕ) : ℕ :=
  ((List.range' (a + 2) (b - (a + 2))).reverse.find? fun m => P.dist pts a m ≤ P.thinStep).getD (a + 1)

/-- The candidates from `a` to before `b`. -/
def spaced : ℕ → ℕ → ℕ → List ℕ
  | 0, a, _ => [a]
  | fuel + 1, a, b =>
    if P.thinStep < P.dist pts a b ∧ 1 < b - a then a :: spaced fuel (P.retreat pts a b) b else [a]

def thinIndices (eps : 𝕜) (keep : List ℕ) : List ℕ :=
  let n := pts.length
  let marked := P.peucker pts eps n 0 (n - 1)
  let out := (List.range n).filter fun k => k = 0 ∨ k = n - 1 ∨ k ∈ keep ∨ k ∈ marked
  ((out.zip out.tail).flatMap fun e => P.spaced pts n e.1 e.2) ++ out.getLast?.toList

variable [FloorRing 𝕜]

/-- In whole centimetres; `none` when the chord is not visible. -/
def slack (i j : ℕ) : Option ℤ :=
  if j = i + 1 then some 0
  else if P.visible (pt pts i) (pt pts j) then
    let ref := upTo P.cost pts j - upTo P.cost pts i
    let excess := P.cost (pt pts i) (pt pts j) - ref
    some (if excess ≤ ref * (1 / 10 ^ 9) + 1 / 10 ^ 9 then 0 else ⌈excess * 100 - 1 / 10 ^ 9⌉)
  else none

/-- The candidates for a chord from `i`. -/
def candidates (cand : List ℕ) (i : ℕ) : List ℕ :=
  let n := pts.length
  let stop := P.windowEnd pts i
  let lo := bisectRight cand i
  let inside := (cand.drop lo).take (bisectRight cand stop - lo)
  let last := 0 < P.maxGap ∧ stop < n - 1 ∧ P.dist pts i (n - 1) ≤ P.maxGap + P.endExtra
  if last ∧ inside.getLast? ≠ some (n - 1) then inside ++ [n - 1]
  else if inside = [] then cand[lo]?.toList
  else inside

/-- The chords from `i` that the loop does not skip, with their slacks. -/
def chords (cand : List ℕ) (budget : ℤ) (i : ℕ) : List (ℕ × ℤ) :=
  let n := pts.length
  let stop := P.windowEnd pts i
  let last := 0 < P.maxGap ∧ stop < n - 1 ∧ P.dist pts i (n - 1) ≤ P.maxGap + P.endExtra
  (P.candidates pts cand i).filterMap fun j =>
    if j ≠ i + 1 ∧ stop < j ∧ cand[bisectRight cand i]? ≠ some j ∧ ¬(j = n - 1 ∧ last) then none
    else ((P.slack pts i j).filter fun s => s ≤ budget).map fun s => (j, s)

def budgetDp (cand : List ℕ) (budget : ℤ) : Option (List ℕ) :=
  choose (table (P.chords pts cand budget) budget cand.dropLast (pts.length - 1))

/-- The indices of the waypoints; `pts` has no repetitions and more than two points. -/
def solve (budgetM thinEps : 𝕜) : Option (List ℕ) :=
  let budget := centimetres budgetM
  let full := P.budgetDp pts (List.range pts.length) budget
  if 0 < thinEps then
    match P.budgetDp pts (P.thinIndices pts thinEps (P.greedyPullIndices pts)) budget with
    | some out => some out
    | none => full
  else full

def fewestWaypoints (points : List (𝕜 × 𝕜)) (budgetM thinEps : 𝕜) : Option (List (𝕜 × 𝕜)) :=
  let pts := dropRepeats points
  if pts.length ≤ 2 then some pts else (P.solve pts budgetM thinEps).map fun path => path.map (pt pts)

end Planner

end CloudServer.Waypoints
