import CloudServer.SceneFold

/-! Tiles: the planes of an engine state cut into squares of global cells, the owner plane
stored through persistent chart ids. -/
namespace CloudServer.StoreTiles
open SceneLeaf SceneFold

def TILE_F : ℕ := 128
def TILE_L : ℕ := 64

/-- A square array of side `n`. -/
abbrev Square (n : ℕ) (α : Type*) := Fin n → Fin n → α

/-- `size * size` cells of an `H * W` array from row `y0` and column `x0` on, `fill` outside. -/
def slice {α : Type*} (a : Cells α) (H W : ℕ) (x0 y0 : ℤ) (size : ℕ) (fill : α) : Square size α :=
  fun r c => if (0 ≤ y0 + r ∧ y0 + r < H) ∧ (0 ≤ x0 + c ∧ x0 + c < W)
    then a (y0 + r) (x0 + c) else fill

def anyCell {α : Type*} {n : ℕ} (p : α → Bool) (a : Square n α) : Bool := decide (∃ r c, p (a r c))

structure Tile where
  v : Square TILE_F U8
  t : Square TILE_F ℤ
  b : Square TILE_F ℤ
  fn : Option (Square TILE_F ℤ)
  bn : Option (Square TILE_F ℤ)
  hold : Option (Square TILE_F Bool)
  val : Option (Square TILE_L Bool)
  chans : Dict String (Square TILE_F U8 × Square TILE_F ℤ)
  own : Option (Square TILE_L ℕ)
  deriving DecidableEq

def tileRange (c : Canvas) : ℤ × ℤ × ℤ × ℤ :=
  (c.cx0 / TILE_F, c.cy0 / TILE_F, (c.cx0 + c.W - 1) / TILE_F, (c.cy0 + c.H - 1) / TILE_F)

/-- The id table read at a plane entry; `-1` indexes the trailing `0`. -/
def lutAt (lut : List ℕ) (i : ℤ) : ℕ := if i = -1 then 0 else lut.getD i.toNat 0

/-- The costmap cells of tile `(tx, ty)`. -/
def fullTile {α : Type*} (c : Canvas) (tx ty : ℤ) (a : Cells α) (fill : α) : Square TILE_F α :=
  slice a c.H c.W (tx * TILE_F - c.cx0) (ty * TILE_F - c.cy0) TILE_F fill

/-- The lattice cells of tile `(tx, ty)`. -/
def halfTile {α : Type*} (c : Canvas) (tx ty : ℤ) (a : Cells α) (fill : α) : Square TILE_L α :=
  slice a (c.H / 2) (c.W / 2) (tx * TILE_L - c.cx0 / 2) (ty * TILE_L - c.cy0 / 2) TILE_L fill

def chanTiles (st : EngineState) (tx ty : ℤ) : Dict String (Square TILE_F U8 × Square TILE_F ℤ) :=
  let cut := st.chan.map fun _ c =>
    (fullTile st.canvas tx ty c.1 UNKNOWN, fullTile st.canvas tx ty c.2 (-1))
  cut.sorted.filter fun _ c => anyCell (· ≠ UNKNOWN) c.1 || anyCell (0 ≤ ·) c.2

def ownTile (st : EngineState) (tx ty : ℤ) (ids_lut : Option (List ℕ)) : Option (Square TILE_L ℕ) :=
  st.plane.bind fun plane => ids_lut.map fun lut =>
    fun r c => lutAt lut (halfTile st.canvas tx ty plane (-1) r c)

/-- Every plane of tile `(tx, ty)`, `none` when the tile holds nothing. -/
def tileArrays (st : EngineState) (tx ty : ℤ) (ids_lut : Option (List ℕ)) : Option Tile :=
  let full {α : Type} (a : Cells α) (fill : α) := fullTile st.canvas tx ty a fill
  let v := full st.V UNKNOWN
  let t := full st.T (-1)
  let b := full st.B (-1)
  let val := st.Val.map fun a => halfTile st.canvas tx ty a false
  let chans := chanTiles st tx ty
  let own := ownTile st tx ty ids_lut
  let nonempty := anyCell (· ≠ UNKNOWN) v || anyCell (0 ≤ ·) t || anyCell (0 ≤ ·) b ||
    val.any (anyCell id) || !chans.items.isEmpty || own.any (anyCell (0 < ·))
  if nonempty then
    some ⟨v, t, b, st.Fn.map fun a => full a (-1), st.Bn.map fun a => full a (-1),
      st.Hold.map fun a => full a false, val, chans, own⟩
  else none

def fmt (k : String × ℕ) : String := k.1 ++ ":" ++ toString k.2

def parse (s : String) : String × ℕ :=
  let cs := s.toList.reverse
  (String.ofList ((cs.dropWhile (· ≠ ':')).drop 1).reverse,
    Nat.ofDigitChars 10 (cs.takeWhile (· ≠ ':')).reverse 0)

lemma digit_ne_colon {n : ℕ} {c : Char} (h : c ∈ Nat.toDigits 10 n) : c ≠ ':' := by
  intro hc
  have hd := Nat.isDigit_of_mem_toDigits (by norm_num) (by norm_num) h
  rw [hc] at hd
  exact absurd hd (by decide)

lemma parse_fmt (k : String × ℕ) : parse (fmt k) = k := by
  obtain ⟨s, n⟩ := k
  have hchars : (fmt (s, n)).toList.reverse =
      (Nat.toDigits 10 n).reverse ++ ':' :: s.toList.reverse := by
    simp [fmt]
  have hall : ∀ c ∈ (Nat.toDigits 10 n).reverse, (decide (c ≠ ':')) = true := by
    intro c hc
    exact decide_eq_true (digit_ne_colon (List.mem_reverse.mp hc))
  unfold parse
  rw [hchars]
  dsimp only
  rw [List.takeWhile_append_of_pos hall, List.dropWhile_append_of_pos hall]
  simp [Nat.ofDigitChars_ten_toDigits]

/-- Ids of the keys in order: a key of the table keeps its id, a new one takes the next. -/
def assignIds : Dict String ℕ × ℕ → List String → Dict String ℕ × ℕ
  | acc, [] => acc
  | acc, k :: rest => match acc.1.get k with
    | some _ => assignIds acc rest
    | none => assignIds (acc.1.set k acc.2, acc.2 + 1) rest

end CloudServer.StoreTiles
