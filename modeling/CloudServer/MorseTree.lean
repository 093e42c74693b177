import CloudServer.Dict
import CloudServer.Merging

/-! The merge tree of the persistence partition, on lists and on dictionaries. -/
namespace CloudServer.Morse
open Merging

variable {𝕜 : Type} [LinearOrder 𝕜] [Sub 𝕜]

/-- `(p, -s, peak ranks, a, b)` and the versions of `a` and `b`, compared in that order. -/
abbrev Entry (𝕜 : Type) := Key ℕ 𝕜 ×ₗ ℤ ×ₗ ℤ

namespace Entry

def record (p s : 𝕜) (ra rb a b : ℕ) (va vb : ℤ) : Entry 𝕜 :=
  toLex (toLex (p, toLex (OrderDual.toDual s, toLex (ra, toLex (rb, toLex (a, b))))),
    toLex (va, vb))

def p (e : Entry 𝕜) : 𝕜 := e.1.1
def a (e : Entry 𝕜) : ℕ := e.1.2.2.2.2.1
def b (e : Entry 𝕜) : ℕ := e.1.2.2.2.2.2
def va (e : Entry 𝕜) : ℤ := e.2.1
def vb (e : Entry 𝕜) : ℤ := e.2.2

end Entry

def heappush (heap : List (Entry 𝕜)) (e : Entry 𝕜) : List (Entry 𝕜) :=
  heap.orderedInsert (· ≤ ·) e

def heapify (es : List (Entry 𝕜)) : List (Entry 𝕜) := es.insertionSort (· ≤ ·)

structure Table (α T : Type) where
  get : T → ℕ → Option α
  set : T → ℕ → α → T
  del : T → ℕ → T

structure Layout (𝕜 P R V S : Type) where
  value : Table 𝕜 P
  rank : Table ℕ R
  ver : Table ℤ V
  sad : Table (Dict ℕ 𝕜) S
  pop : Dict ℕ 𝕜 → ℕ → Option (Dict ℕ 𝕜)

structure State (𝕜 P R V S : Type) where
  peakv : P
  peakr : R
  ver : V
  sad : S
  heap : List (Entry 𝕜)
  out : List (Merge ℕ 𝕜)

/-- `max(sk.get(x, -math.inf), v)`. -/
def joined (old : Option 𝕜) (v : 𝕜) : 𝕜 :=
  match old with
  | none => v
  | some o => max o v

namespace Layout

variable {P R V S : Type} (L : Layout 𝕜 P R V S)

/-- `sad.setdefault(a, {})[b] = v`. -/
def put (sad : S) (a b : ℕ) (v : 𝕜) : S :=
  L.sad.set sad a (((L.sad.get sad a).getD Dict.empty).set b v)

def rows (sad : S) (pairs : List (ℕ × ℕ × 𝕜)) : S :=
  pairs.foldl (fun sad e => L.put (L.put sad e.1 e.2.1 e.2.2) e.2.1 e.1 e.2.2) sad

def fill (limit : WithTop 𝕜) (peakv : P) (peakr : R) (ver : ℕ → Option ℤ) :
    List (ℕ × ℕ × 𝕜) → Option (List (Entry 𝕜))
  | [] => some []
  | (a, b, s) :: rest => do
    let pa ← L.value.get peakv a
    let pb ← L.value.get peakv b
    let ra ← L.rank.get peakr a
    let rb ← L.rank.get peakr b
    let va ← ver a
    let vb ← ver b
    let es ← fill limit peakv peakr ver rest
    if Below limit (min pa pb - s) then
      some (Entry.record (min pa pb - s) s (min ra rb) (max ra rb) a b va vb :: es)
    else some es

/-- The rows of `keep` and of the neighbours of `drop` take over the saddles of `drop`. -/
def absorb (keep drop : ℕ) : List (ℕ × 𝕜) → S → Option S
  | [], sad => some sad
  | (x, v) :: rest, sad => do
    let sk ← L.sad.get sad keep
    let nv := joined (sk.get x) v
    let sad := L.sad.set sad keep (sk.set x nv)
    let sx ← L.sad.get sad x
    let sx ← L.pop sx drop
    absorb keep drop rest (L.sad.set sad x (sx.set keep nv))

/-- Pushes the pairs of `keep` with its current neighbours. -/
def push (limit : WithTop 𝕜) (keep : ℕ) (pk : 𝕜) (rk : ℕ) (vk : ℤ) (peakv : P) (peakr : R)
    (ver : V) : List (ℕ × 𝕜) → List (Entry 𝕜) → Option (List (Entry 𝕜))
  | [], heap => some heap
  | (x, v) :: rest, heap => do
    let px ← L.value.get peakv x
    let p := min pk px - v
    if Below limit p then
      let rx ← L.rank.get peakr x
      let vx ← L.ver.get ver x
      let e := if keep < x then Entry.record p v (min rk rx) (max rk rx) keep x vk vx
        else Entry.record p v (min rk rx) (max rk rx) x keep vx vk
      push limit keep pk rk vk peakv peakr ver rest (heappush heap e)
    else push limit keep pk rk vk peakv peakr ver rest heap

/-- The entry is of an older version of its regions, or they are no longer adjacent. -/
def Stale (st : State 𝕜 P R V S) (e : Entry 𝕜) : Prop :=
  (L.ver.get st.ver e.a).getD (-1) ≠ e.va ∨ (L.ver.get st.ver e.b).getD (-1) ≠ e.vb ∨
    (L.sad.get st.sad e.a).bind (fun row => row.get e.b) = none

instance (st : State 𝕜 P R V S) (e : Entry 𝕜) : Decidable (L.Stale st e) :=
  inferInstanceAs (Decidable (_ ∨ _ ∨ _))

def join (limit : WithTop 𝕜) (st : State 𝕜 P R V S) (e : Entry 𝕜) (rest : List (Entry 𝕜)) :
    Option (State 𝕜 P R V S) := do
  let pa ← L.value.get st.peakv e.a
  let pb ← L.value.get st.peakv e.b
  let ra ← L.rank.get st.peakr e.a
  let rb ← L.rank.get st.peakr e.b
  let keep := if pb < pa ∨ pa = pb ∧ ra ≤ rb then e.a else e.b
  let drop := if pb < pa ∨ pa = pb ∧ ra ≤ rb then e.b else e.a
  let peakr := if pa = pb then L.rank.set st.peakr keep (min ra rb) else st.peakr
  let peakv := L.value.set st.peakv keep (max pa pb)
  let sk ← L.sad.get st.sad keep
  let sd ← L.sad.get st.sad drop
  let sk ← L.pop sk drop
  let sd ← L.pop sd keep
  let sad ← L.absorb keep drop sd.items (L.sad.set st.sad keep sk)
  let sad := L.sad.del sad drop
  let ver := L.ver.del st.ver drop
  let peakv := L.value.del peakv drop
  let peakr := L.rank.del peakr drop
  let vk ← L.ver.get ver keep
  let ver := L.ver.set ver keep (vk + 1)
  let pk ← L.value.get peakv keep
  let rk ← L.rank.get peakr keep
  let sk ← L.sad.get sad keep
  let heap ← L.push limit keep pk rk (vk + 1) peakv peakr ver sk.items rest
  some ⟨peakv, peakr, ver, sad, heap, st.out ++ [(e.p, keep, drop)]⟩

def pass (limit : WithTop 𝕜) (st : State 𝕜 P R V S) (e : Entry 𝕜) (rest : List (Entry 𝕜)) :
    Option (State 𝕜 P R V S) :=
  if L.Stale st e then some { st with heap := rest } else L.join limit st e rest

/-- `while heap`; `none` when the fuel does not empty it. -/
def loop (limit : WithTop 𝕜) : ℕ → State 𝕜 P R V S → Option (State 𝕜 P R V S)
  | 0, st => if st.heap = [] then some st else none
  | k + 1, st =>
    match st.heap with
    | [] => some st
    | e :: rest => (L.pass limit st e rest).bind (loop limit k)

/-- No run of the loop pops more entries than this for `n` regions. -/
def run (limit : WithTop 𝕜) (n : ℕ) (st : State 𝕜 P R V S) : Option (List (Merge ℕ 𝕜)) :=
  (L.loop limit (st.heap.length + n ^ 2) st).map State.out

end Layout

def dictTable (α : Type) : Table α (Dict ℕ α) := ⟨Dict.get, Dict.set, Dict.erase⟩

def dictLayout (𝕜 : Type) :
    Layout 𝕜 (Dict ℕ 𝕜) (Dict ℕ ℕ) (Dict ℕ ℤ) (Dict ℕ (Dict ℕ 𝕜)) where
  value := dictTable 𝕜
  rank := dictTable ℕ
  ver := dictTable ℤ
  sad := dictTable (Dict ℕ 𝕜)
  pop d k := some (d.erase k)

def keptTable (α : Type) : Table α (List α) := ⟨fun l r => l[r]?, List.set, fun l _ => l⟩

def versionTable : Table ℤ (List ℤ) := ⟨fun l r => l[r]?, List.set, fun l r => l.set r (-1)⟩

def rowTable (𝕜 : Type) : Table (Dict ℕ 𝕜) (List (Option (Dict ℕ 𝕜))) where
  get l r := l[r]?.join
  set l r d := l.set r (some d)
  del l r := l.set r none

def listLayout (𝕜 : Type) :
    Layout 𝕜 (List 𝕜) (List ℕ) (List ℤ) (List (Option (Dict ℕ 𝕜))) where
  value := keptTable 𝕜
  rank := keptTable ℕ
  ver := versionTable
  sad := rowTable 𝕜
  pop d k := if k ∈ d.keys then some (d.erase k) else none

/-- A value per region, as an array over `0..R-1` or as a dictionary. -/
inductive PerRegion (α : Type)
  | array (l : List α)
  | dict (d : Dict ℕ α)

namespace PerRegion

variable {α : Type}

def get : PerRegion α → ℕ → Option α
  | array l, r => l[r]?
  | dict d, r => d.get r

/-- `dict(enumerate(l))` of an array. -/
def toDict : PerRegion α → Dict ℕ α
  | array l => Dict.ofList (l.zipIdx.map fun e => (e.2, e.1))
  | dict d => d

end PerRegion

/-- Unique pairs `lo < hi` of region ids in ascending code order. -/
def Coded (R : ℕ) (pairs : List (ℕ × ℕ × 𝕜)) : Prop :=
  pairs ≠ [] ∧ (∀ e ∈ pairs, e.2.1 < R ∧ e.1 < e.2.1) ∧
    (pairs.map fun e => e.1 * R + e.2.1).Pairwise (· < ·)

instance (R : ℕ) (pairs : List (ℕ × ℕ × 𝕜)) : Decidable (Coded R pairs) :=
  inferInstanceAs (Decidable (_ ∧ _ ∧ _))

def mergeLists (pv : List 𝕜) (pr : List ℕ) (pairs : List (ℕ × ℕ × 𝕜)) (limit : WithTop 𝕜) :
    Option (List (Merge ℕ 𝕜)) := do
  let L := listLayout 𝕜
  let sad := L.rows (List.replicate pv.length none) pairs
  let es ← L.fill limit pv pr (fun _ => some 0) pairs
  L.run limit pv.length ⟨pv, pr, List.replicate pv.length 0, sad, heapify es, []⟩

/-- The pairs `a < b` as the rows list them. -/
def scanned (sad : Dict ℕ (Dict ℕ 𝕜)) : List (ℕ × ℕ × 𝕜) :=
  sad.items.flatMap fun row =>
    (row.2.items.filter fun e => row.1 < e.1).map fun e => (row.1, e.1, e.2)

/-- The rest of `merge_tree`, on dictionaries; `coded` says that the first heap is filled from
the pairs. -/
def mergeDicts (coded : Bool) (peakv : Dict ℕ 𝕜) (peakr : Dict ℕ ℕ) (pairs : List (ℕ × ℕ × 𝕜))
    (limit : WithTop 𝕜) : Option (List (Merge ℕ 𝕜)) := do
  let L := dictLayout 𝕜
  let sad := L.rows Dict.empty pairs
  let ver := peakv.map fun _ _ => (0 : ℤ)
  if coded then
    let es ← L.fill limit peakv peakr (fun _ => some 0) pairs
    L.run limit peakv.keys.length ⟨peakv, peakr, ver, sad, heapify es, []⟩
  else
    let es ← L.fill limit peakv peakr ver.get (scanned sad)
    L.run limit peakv.keys.length ⟨peakv, peakr, ver, sad, es.foldl heappush [], []⟩

variable (TOL : 𝕜)

def threshold (tau : WithTop 𝕜) : WithTop 𝕜 := tau.map (· - TOL)

def mergeTree (peakv : PerRegion 𝕜) (peakr : PerRegion ℕ) (pairs : List (ℕ × ℕ × 𝕜))
    (tau : WithTop 𝕜) : Option (List (Merge ℕ 𝕜)) :=
  match peakv, peakr with
  | .array pv, .array pr =>
    if Coded pv.length pairs then mergeLists pv pr pairs (threshold TOL tau)
    else mergeDicts false peakv.toDict peakr.toDict pairs (threshold TOL tau)
  | _, _ => mergeDicts false peakv.toDict peakr.toDict pairs (threshold TOL tau)

/-- `parent = parent[parent]` until it stays; `none` for an index out of range. -/
def settle : ℕ → List ℕ → Option (List ℕ)
  | 0, _ => none
  | k + 1, parent => do
    let nxt ← parent.mapM fun r => parent[r]?
    if nxt = parent then some parent else settle k nxt

def parents (n : ℕ) (tree : List (Merge ℕ 𝕜)) : List ℕ :=
  tree.foldl (fun parent m => parent.set m.2.2 m.2.1) (List.range n)

/-- The merges of `tree` below `tau`, all of them for `none`. -/
def applied (tree : List (Merge ℕ 𝕜)) (tau : Option (WithTop 𝕜)) : List (Merge ℕ 𝕜) :=
  match tau with
  | none => tree
  | some tau => tree.takeWhile fun m => decide (Below (threshold TOL tau) m.1)

def survivors (n : ℕ) (tree : List (Merge ℕ 𝕜)) (tau : Option (WithTop 𝕜)) : Option (List ℕ) :=
  settle (tree.length + 1) (parents n (applied TOL tree tau))

/-- Two peaks of equal height, the pass between them and a lower third peak. -/
example : mergeTree (0 : ℤ) (.array [5, 5, 3]) (.array [0, 2, 1]) [(0, 1, 1), (1, 2, 2)] ⊤ =
    some [(1, 1, 2), (4, 0, 1)] := by
  decide

end CloudServer.Morse
