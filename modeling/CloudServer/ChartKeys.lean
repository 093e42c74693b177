import CloudServer.Dict

/-! Persistent chart keys: the cells the new charts share with the previous keys, and the rule that
hands the keys on. -/
namespace CloudServer.ChartKeys

/-- Which chart or key owns the cell `(y, x)`; nothing owns a cell that is negative. -/
abbrev Plane := ℕ → ℕ → ℤ

def cellsOf (H W : ℕ) : List (ℕ × ℕ) :=
  (List.range H).flatMap fun y => (List.range W).map fun x => (y, x)

/-- `np.unique(code, return_counts=True)`. -/
def unique (codes : List ℕ) : List (ℕ × ℕ) :=
  (codes.dedup.insertionSort (· ≤ ·)).map fun x => (x, codes.count x)

/-- `np.bincount` at its nonzero places. -/
def bincount (codes : List ℕ) : List (ℕ × ℕ) :=
  ((List.range (codes.foldr max 0 + 1)).filter fun x => codes.count x ≠ 0).map fun x =>
    (x, codes.count x)

def decode (nkeys : ℕ) (counts : List (ℕ × ℕ)) : Dict (ℕ × ℕ) ℕ :=
  Dict.ofList (counts.map fun e => ((e.1 / (nkeys + 1), e.1 % (nkeys + 1)), e.2))

def codeOf (nkeys : ℕ) (new prev : ℤ) : ℕ := new.toNat * (nkeys + 1) + prev.toNat

def overlaps (H W : ℕ) (prev_key_plane new_plane : Plane) (nkeys_prev : ℕ) : Dict (ℕ × ℕ) ℕ :=
  let m := (cellsOf H W).filter fun c => 0 ≤ prev_key_plane c.1 c.2 ∧ 0 ≤ new_plane c.1 c.2
  decode nkeys_prev (unique (m.map fun c =>
    codeOf nkeys_prev (new_plane c.1 c.2) (prev_key_plane c.1 c.2)))

/-- `overlaps` for a new plane that is given by the labels of its cells. -/
def overlaps_cells (prev_key_plane : Plane) (cells : List (ℕ × ℕ)) (labels : List ℕ)
    (nkeys_prev : ℕ) : Dict (ℕ × ℕ) ℕ :=
  let m := (labels.zip (cells.map fun c => prev_key_plane c.1 c.2)).filter fun e => 0 ≤ e.2
  let code := m.map fun e => codeOf nkeys_prev e.1 e.2
  decode nkeys_prev (if code.foldr max 0 < 2 ^ 22 then bincount code else unique code)

def planeOf (cells : List (ℕ × ℕ)) (labels : List ℕ) : Plane := fun y x =>
  ((Dict.ofList (cells.zip labels)).get (y, x)).elim (-1) fun l => (l : ℤ)

section Assign
variable {β : Type} [LinearOrder β]

abbrev Key (β : Type) := β ×ₗ ℕ

/-- The overlaps of chart `j`, the largest first and an older key before a younger one. -/
def ranking (prev_keys : List (Key β)) (ov : Dict (ℕ × ℕ) ℕ) (j : ℕ) : List (ℤ ×ₗ Key β ×ₗ ℕ) :=
  (ov.items.filterMap fun e => if e.1.1 = j then
    prev_keys[e.1.2]?.map fun key => toLex (-(e.2 : ℤ), toLex (key, e.1.2))
  else none).insertionSort (· ≤ ·)

/-- The key chart `j` overlaps most, by its index, and in how many cells. -/
def first (prev_keys : List (Key β)) (ov : Dict (ℕ × ℕ) ℕ) (j : ℕ) : Option (ℕ × ℕ) :=
  (ranking prev_keys ov j).head?.map fun e => ((ofLex (ofLex e).2).2, (-(ofLex e).1).toNat)

def claims (first : ℕ → Option (ℕ × ℕ)) (nj : ℕ) : Dict ℕ (List ℕ) :=
  (List.range nj).foldl (fun d j => match first j with
    | some f => d.set f.1 ((d.get f.1).getD [] ++ [j])
    | none => d) .empty

/-- `(-overlap, y, x)` of a claimant. -/
def rank (first : ℕ → Option (ℕ × ℕ)) (anchors : List (ℤ × ℤ)) (j : ℕ) : ℤ ×ₗ ℤ ×ₗ ℤ :=
  toLex (-(((first j).elim 0 Prod.snd : ℕ) : ℤ),
    toLex ((anchors.getD j (0, 0)).2, (anchors.getD j (0, 0)).1))

/-- `min(xs, key=...)`: the first of the smallest. -/
def smallest {α γ : Type} [LinearOrder γ] (key : α → γ) : List α → Option α
  | [] => none
  | x :: xs => match smallest key xs with
    | some m => if key m < key x then some m else some x
    | none => some x

def award (prev_keys : List (Key β)) (first : ℕ → Option (ℕ × ℕ)) (anchors : List (ℤ × ℤ))
    (acc : List (Option (Key β)) × List ℕ) (e : ℕ × List ℕ) : List (Option (Key β)) × List ℕ :=
  match smallest (rank first anchors) e.2 with
  | some w => (acc.1.set w prev_keys[e.1]?, e.1 :: acc.2)
  | none => acc

def born (birth : β) : ℕ → List (Option (Key β)) → List (Key β)
  | _, [] => []
  | n, some key :: keys => key :: born birth n keys
  | n, none :: keys => toLex (birth, n) :: born birth (n + 1) keys

/-- `assign_A`: a key for each new chart, and the retired keys. -/
def assign_A (prev_keys : List (Key β)) (H W : ℕ) (prev_plane new_plane : Plane)
    (anchors : List (ℤ × ℤ)) (birth : β) (ov : Option (Dict (ℕ × ℕ) ℕ)) :
    List (Key β) × List (Key β) :=
  let ov := ov.getD (overlaps H W prev_plane new_plane prev_keys.length)
  let first := first prev_keys ov
  let nj := anchors.length
  let r := (claims first nj).items.foldl (award prev_keys first anchors)
    (List.replicate nj none, [])
  (born birth 0 r.1, ((List.range prev_keys.length).filter fun k => k ∉ r.2).filterMap fun k =>
    prev_keys[k]?)

end Assign

end CloudServer.ChartKeys
