import CloudServer.Coverage
import CloudServer.Tallies

/-! What was driven on a map, per tile: the movements between consecutive rows of the runs. -/
namespace CloudServer.DriveStats
open Tallies Coverage

/-- One row of a track. -/
structure Row (ρ γ 𝕜 : Type*) where
  run : ρ
  ts : 𝕜
  x : 𝕜
  y : 𝕜
  group : γ
  leg_seq : Option ℕ
deriving DecidableEq

abbrev Seg (ρ γ 𝕜 : Type*) := Row ρ γ 𝕜 × Row ρ γ 𝕜

structure Params (𝕜 : Type*) where
  min_speed : 𝕜
  max_gap_s : 𝕜
  max_speed : 𝕜

/-- The places of the values in the order in which they first came: `codes.setdefault(v, len(codes))`. -/
def codesOf {α : Type*} [DecidableEq α] (l : List α) : List α :=
  l.foldl (fun codes v => if v ∈ codes then codes else codes ++ [v]) []

def pairs {α : Type*} (l : List α) : List (α × α) := l.zip l.tail

def OFF : ℤ := 2 ^ 30

def cell_key (ix iy : ℤ) : ℤ := Int.lor ((ix + OFF) <<< 32) (iy + OFF)

def SAMPLE_DIV : ℕ := 4

def MAX_SAMPLES_PER_SEGMENT : ℤ := 4000

section
variable {ρ γ 𝕜 : Type*} [DecidableEq ρ] [DecidableEq γ] [Field 𝕜] [LinearOrder 𝕜] [FloorRing 𝕜]
variable (hypot : 𝕜 → 𝕜 → 𝕜) (p : Params 𝕜)

-- one named instance for each numeral below
local instance atLeastTwo_two : Nat.AtLeastTwo 2 := inferInstance
local instance atLeastTwo_ten : Nat.AtLeastTwo 10 := inferInstance

def CELL_M : 𝕜 := 1 / 10

/-! ### Movements -/

def dist (s : Seg ρ γ 𝕜) : 𝕜 := hypot (s.2.x - s.1.x) (s.2.y - s.1.y)

def dt (s : Seg ρ γ 𝕜) : 𝕜 := s.2.ts - s.1.ts

/-- The movements between consecutive rows of one run and group, and how many pairs were rejected. -/
def track_segments (run group : Row ρ γ 𝕜 → ℕ) (rows : List (Row ρ γ 𝕜)) : List (Seg ρ γ 𝕜) × ℕ :=
  let same := (pairs rows).filter fun s => run s.1 = run s.2 ∧ group s.1 = group s.2
  let ok := same.filter fun s => dt s > 0 ∧ dt s ≤ p.max_gap_s ∧ ¬ dist hypot s / dt s > p.max_speed
  (ok, same.length - ok.length)

def overlap (m : List (𝕜 × 𝕜)) (s : Seg ρ γ 𝕜) : 𝕜 :=
  if m = [] then 0
  else min (max (interp (points 0 m) s.2.ts - interp (points 0 m) s.1.ts) 0) (dt s)

/-- The recovery seconds of each movement, and those of the intervals that overlapped none. -/
def recovery_overlap (run : Row ρ γ 𝕜 → ℕ) (seg : List (Seg ρ γ 𝕜))
    (intervals : List (ℕ × List (𝕜 × 𝕜))) : (Seg ρ γ 𝕜 → 𝕜) × 𝕜 :=
  let rec_s := fun s => match intervals.find? fun i => i.1 = run s.1 with
    | some i => overlap (merge i.2) s
    | none => 0
  let all := (intervals.map fun i => total (merge i.2)).sum
  let attributed := (intervals.map fun i =>
    ((seg.filter fun s => run s.1 = i.1).map (overlap (merge i.2))).sum).sum
  (rec_s, max 0 (all - attributed))

/-! ### The accumulator -/

structure Move (𝕜 : Type*) where
  run : ℕ
  x0 : 𝕜
  y0 : 𝕜
  x1 : 𝕜
  y1 : 𝕜
  time_s : 𝕜
  rec_s : 𝕜
  stopped_s : 𝕜

inductive Quantity
  | length | time | recovery | stopped
deriving DecidableEq

def Move.amount (m : Move 𝕜) : Quantity → 𝕜
  | .length => hypot (m.x1 - m.x0) (m.y1 - m.y0)
  | .time => m.time_s
  | .recovery => m.rec_s
  | .stopped => m.stopped_s

def Move.nsub (m : Move 𝕜) : ℕ :=
  (min (max ⌈m.amount hypot .length / (CELL_M / SAMPLE_DIV)⌉ 1) MAX_SAMPLES_PER_SEGMENT).toNat

/-- The cell of sample `k` of a movement. -/
def Move.cell (m : Move 𝕜) (k : ℕ) : ℤ × ℤ :=
  let frac := ((k : 𝕜) + 1 / 2) / (m.nsub hypot : 𝕜)
  (⌊(m.x0 + frac * (m.x1 - m.x0)) / CELL_M⌋, ⌊(m.y0 + frac * (m.y1 - m.y0)) / CELL_M⌋)

def samples (ms : List (Move 𝕜)) : List (Move 𝕜 × ℕ) := ms.flatMap fun m =>
    (List.range (m.nsub hypot)).map fun k => (m, k)

def key (a : Move 𝕜 × ℕ) : ℤ := cell_key (a.1.cell hypot a.2).1 (a.1.cell hypot a.2).2

def weight (q : Quantity) (a : Move 𝕜 × ℕ) : 𝕜 := 1 / (a.1.nsub hypot : 𝕜) * a.1.amount hypot q

structure Chunk (𝕜 : Type*) where
  keys : List ℤ
  sums : Quantity → List 𝕜
  pair_cell : List ℤ
  pair_run : List ℕ

structure Accumulator (𝕜 : Type*) where
  n_runs : ℕ
  chunks : List (Chunk 𝕜)

def Accumulator.add_chunk (acc : Accumulator 𝕜) (ms : List (Move 𝕜)) : Accumulator 𝕜 :=
  if ms = [] then acc
  else
    let s := samples hypot ms
    let uniq := unique (s.map (key hypot))
    let inv := fun a => uniq.idxOf (key hypot a)
    let pk := unique (s.map fun a => inv a * acc.n_runs + a.1.run)
    { acc with chunks := acc.chunks ++ [⟨uniq, fun q => bincount inv (weight hypot q) s uniq.length,
      pk.map fun v => uniq.getD (v / acc.n_runs) 0, pk.map fun v => v % acc.n_runs⟩] }

/-- `add`, in chunks of `size` movements. -/
def Accumulator.add (size : ℕ) (acc : Accumulator 𝕜) (ms : List (Move 𝕜)) : Accumulator 𝕜 :=
  ((List.range ((ms.length + size - 1) / size)).map fun i => (ms.drop (i * size)).take size).foldl
    (Accumulator.add_chunk hypot) acc

structure Tiles (𝕜 : Type*) where
  key : List ℤ
  sums : Quantity → List 𝕜
  n : List ℕ
  pair_tile : List ℕ
  pair_run : List ℕ

def Accumulator.tiles (acc : Accumulator 𝕜) : Tiles 𝕜 :=
  if acc.chunks = [] then ⟨[], fun _ => [], [], [], []⟩
  else
    let uniq := unique (acc.chunks.flatMap Chunk.keys)
    let entries := fun q => acc.chunks.flatMap fun c => c.keys.zip (c.sums q)
    let pi := (acc.chunks.flatMap Chunk.pair_cell).map (searchsorted uniq)
    let pair := unique ((pi.zip (acc.chunks.flatMap Chunk.pair_run)).map fun e => e.1 * acc.n_runs + e.2)
    ⟨uniq, fun q => bincount (fun e : ℤ × 𝕜 => uniq.idxOf e.1) Prod.snd (entries q) uniq.length,
      bincount (· / acc.n_runs) (fun _ => 1) pair uniq.length, pair.map (· / acc.n_runs),
        pair.map (· % acc.n_runs)⟩

/-! ### The statistics of the tracks -/

section
variable (rows : List (Row ρ γ 𝕜)) (recoveries : List (ρ × 𝕜 × Option 𝕜))

def code (run : ρ) : ℕ := (codesOf (rows.map Row.run)).idxOf run

def grp (r : Row ρ γ 𝕜) : ℕ := (codesOf (rows.map Row.group)).idxOf r.group

/-- The movements and the rejected pairs of the rows, which are sorted by run and time first. -/
def driven : List (Seg ρ γ 𝕜) × ℕ :=
  track_segments hypot p (fun r => code rows r.run) (grp rows)
    (rows.insertionSort fun a b => toLex (code rows a.run, a.ts) ≤ toLex (code rows b.run, b.ts))

def validSpans : List (ℕ × 𝕜 × 𝕜) :=
  recoveries.filterMap fun r => match r.2.2 with
    | some dur => if r.1 ∈ codesOf (rows.map Row.run) ∧
      dur > 0 then some (code rows r.1, r.2.1 - dur, r.2.1) else none
    | none => none

def spansOf (c : ℕ) : List (𝕜 × 𝕜) := ((validSpans rows recoveries).filter fun v => v.1 = c).map Prod.snd

def intervals : List (ℕ × List (𝕜 × 𝕜)) :=
  (codesOf ((validSpans rows recoveries).map Prod.fst)).map fun c => (c, spansOf rows recoveries c)

structure Stats (𝕜 : Type*) where
  tiles : Tiles 𝕜
  track_segments : ℕ
  track_pairs_rejected : ℕ
  lost : 𝕜

def moveOf (rec_s : Seg ρ γ 𝕜 → 𝕜) (s : Seg ρ γ 𝕜) : Move 𝕜 :=
  ⟨code rows s.1.run, s.1.x, s.1.y, s.2.x, s.2.y, dt s, rec_s s,
    if dist hypot s < p.min_speed * dt s then dt s else 0⟩

/-- `compute`, for runs that have a track. -/
def compute (size : ℕ) : Stats 𝕜 :=
  let (seg, rejected) := driven hypot p rows
  let (rec_s, lost) := recovery_overlap (fun r => code rows r.run) seg (intervals rows recoveries)
  let acc := Accumulator.add hypot size ⟨max 1 (codesOf (rows.map Row.run)).length, []⟩
    (seg.map (moveOf hypot p rows rec_s))
  ⟨acc.tiles, seg.length, rejected, lost⟩

/-! ### The movements of `TRACK_SQL` -/

/-- `coalesce(leg_seq, pseq)`. -/
def seq (s : Seg ρ γ 𝕜) : Option ℕ := s.2.leg_seq.or s.1.leg_seq

/-- The pairs of a row and the one before it in its partition that are counted as good. -/
def TRACK_SQL_good : List (Seg ρ γ 𝕜) :=
  let seg := (codesOf (rows.map fun r => (r.run, r.group))).flatMap fun k =>
    pairs ((rows.filter fun r => (r.run, r.group) = k).insertionSort fun a b => a.ts ≤ b.ts)
  (seg.filter fun s => (seq s).isSome).filter fun s =>
    dt s > 0 ∧ dt s ≤ p.max_gap_s ∧ dist hypot s ≤ p.max_speed * dt s

end
end
end CloudServer.DriveStats
