import CloudServer.StoreSave

/-! What an engine state says about the global cells, and what a tile says about its own. -/
namespace CloudServer.StoreSnapshot
open SceneLeaf SceneFold SceneApi StoreTiles StoreSave Option

/-- A lattice plane read at a global lattice cell, `fill` outside the canvas. -/
def halfGlobal {α : Type*} (c : Canvas) (fill : α) (a : Cells α) (y x : ℤ) : α :=
  if (0 ≤ y - c.cy0 / 2 ∧ y - c.cy0 / 2 < (c.H / 2 : ℕ)) ∧
      (0 ≤ x - c.cx0 / 2 ∧ x - c.cx0 / 2 < (c.W / 2 : ℕ))
    then a (y - c.cy0 / 2) (x - c.cx0 / 2) else fill

/-- Every plane as a function of the global cell; `val` and `owner` of the lattice cell. -/
@[ext]
structure Snapshot where
  v : ℤ → ℤ → U8
  t : ℤ → ℤ → ℤ
  b : ℤ → ℤ → ℤ
  fn : ℤ → ℤ → ℤ
  bn : ℤ → ℤ → ℤ
  hold : ℤ → ℤ → Bool
  val : ℤ → ℤ → Bool
  chan : String → ℤ → ℤ → U8 × ℤ
  owner : ℤ → ℤ → Option (String × ℕ)

def Snapshot.blank : Snapshot :=
  ⟨fun _ _ => UNKNOWN, fun _ _ => -1, fun _ _ => -1, fun _ _ => -1, fun _ _ => -1,
    fun _ _ => false, fun _ _ => false, fun _ _ _ => (UNKNOWN, -1), fun _ _ => none⟩

def keyAt (keys : List (String × ℕ)) (i : ℤ) : Option (String × ℕ) :=
  if i < 0 then none else keys[i.toNat]?

/-- The planes of a state by global cell. -/
def snapshot (st : EngineState) : Snapshot where
  v := st.global UNKNOWN st.V
  t := st.global (-1) st.T
  b := st.global (-1) st.B
  fn y x := st.Fn.elim (-1) fun a => st.global (-1) a y x
  bn y x := st.Bn.elim (-1) fun a => st.global (-1) a y x
  hold y x := st.Hold.elim false fun a => st.global false a y x
  val y x := st.Val.elim false fun a => halfGlobal st.canvas false a y x
  chan name y x := (st.chan.get name).elim (UNKNOWN, -1) fun c =>
    (st.global UNKNOWN c.1 y x, st.global (-1) c.2 y x)
  owner y x := st.plane.elim none fun a => keyAt st.keys (halfGlobal st.canvas (-1) a y x)

/-- What the planes of an engine satisfy: an unknown cell carries no evidence and no time but
`-1`, the planes of the close-evidence rule are there only with the rule, and the owner plane
indexes the key table. -/
structure Consistent (st : EngineState) : Prop where
  t : ∀ y x, st.canvas.box.Has y x → st.V y x = UNKNOWN → -1 ≤ st.T y x
  b : ∀ y x, st.canvas.box.Has y x → st.V y x = UNKNOWN → -1 ≤ st.B y x
  fn : ∀ a ∈ st.Fn, ∀ y x, st.canvas.box.Has y x → st.V y x = UNKNOWN → a y x = -1
  bn : ∀ a ∈ st.Bn, ∀ y x, st.canvas.box.Has y x → st.V y x = UNKNOWN → a y x = -1
  hold : ∀ a ∈ st.Hold, ∀ y x, st.canvas.box.Has y x → st.V y x = UNKNOWN → a y x = false
  chan : ∀ name c, st.chan.get name = some c → ∀ y x, st.canvas.box.Has y x →
    c.1 y x = UNKNOWN → -1 ≤ c.2 y x
  near : st.params.near_range_m = none → st.Fn = none ∧ st.Bn = none ∧ st.Val = none
  clearance : st.params.near_min_clearance_m = none → st.Hold = none
  plane : ∀ a ∈ st.plane, ∀ y x : ℤ, (0 ≤ y ∧ y < (st.canvas.H / 2 : ℕ)) ∧
    (0 ≤ x ∧ x < (st.canvas.W / 2 : ℕ)) → -1 ≤ a y x ∧ a y x < st.keys.length

/-- Costmap row or column `r` of tile `t`. -/
def cellF (t : ℤ) (r : Fin TILE_F) : ℤ := t * TILE_F + r

def cellL (t : ℤ) (r : Fin TILE_L) : ℤ := t * TILE_L + r

def ownAt (o : Option Tile) (r c : Fin TILE_L) : ℕ := (o.bind Tile.own).elim 0 fun a => a r c

def Names (ids : Key → Option ℕ) (owner : Option (String × ℕ)) (id : ℕ) : Prop :=
  match owner with
  | none => id = 0
  | some k => ids (fmt k) = some id ∧ 0 < id

structure Shows (sn : Snapshot) (ids : Key → Option ℕ) (tx ty : ℤ) (o : Option Tile) : Prop where
  v : ∀ r c, o.elim UNKNOWN (fun t => t.v r c) = sn.v (cellF ty r) (cellF tx c)
  t : ∀ r c, o.elim (-1) (fun t => t.t r c) = sn.t (cellF ty r) (cellF tx c)
  b : ∀ r c, o.elim (-1) (fun t => t.b r c) = sn.b (cellF ty r) (cellF tx c)
  fn : ∀ r c, (o.bind Tile.fn).elim (-1) (fun a => a r c) = sn.fn (cellF ty r) (cellF tx c)
  bn : ∀ r c, (o.bind Tile.bn).elim (-1) (fun a => a r c) = sn.bn (cellF ty r) (cellF tx c)
  hold : ∀ r c, (o.bind Tile.hold).elim false (fun a => a r c) = sn.hold (cellF ty r) (cellF tx c)
  val : ∀ r c, (o.bind Tile.val).elim false (fun a => a r c) = sn.val (cellL ty r) (cellL tx c)
  chan : ∀ name r c, (o.bind fun t => t.chans.get name).elim (UNKNOWN, -1)
    (fun a => (a.1 r c, a.2 r c)) = sn.chan name (cellF ty r) (cellF tx c)
  own : ∀ r c, Names ids (sn.owner (cellL ty r) (cellL tx c)) (ownAt o r c)

variable {α : Type*} {lut : Option (List ℕ)}

lemma fullTile_eq (st : EngineState) (fill : α) (a : Cells α) (tx ty : ℤ) (r c : Fin TILE_F) :
    fullTile st.canvas tx ty a fill r c = st.global fill a (cellF ty r) (cellF tx c) := by
  have hy : ty * (TILE_F : ℤ) - st.canvas.cy0 + r = cellF ty r - st.canvas.cy0 := by
    unfold cellF
    ring
  have hx : tx * (TILE_F : ℤ) - st.canvas.cx0 + c = cellF tx c - st.canvas.cx0 := by
    unfold cellF
    ring
  unfold fullTile slice EngineState.global
  rw [hy, hx]
  simp only [Canvas.box, Box.Has]
  congr 1
  exact propext and_comm

lemma halfTile_eq (cv : Canvas) (fill : α) (a : Cells α) (tx ty : ℤ) (r c : Fin TILE_L) :
    halfTile cv tx ty a fill r c = halfGlobal cv fill a (cellL ty r) (cellL tx c) := by
  have hy : ty * (TILE_L : ℤ) - cv.cy0 / 2 + r = cellL ty r - cv.cy0 / 2 := by
    unfold cellL
    ring
  have hx : tx * (TILE_L : ℤ) - cv.cx0 / 2 + c = cellL tx c - cv.cx0 / 2 := by
    unfold cellL
    ring
  unfold halfTile slice halfGlobal
  rw [hy, hx]

lemma anyCell_false {n : ℕ} {p : α → Bool} {a : Square n α}
    (h : anyCell p a = false) (r c : Fin n) : p (a r c) = false := by
  have hne := of_decide_eq_false h
  by_contra hp
  exact hne ⟨r, c, by simpa using hp⟩

def LutOf (ids : Key → Option ℕ) (keys : List (String × ℕ)) (lut : Option (List ℕ)) : Prop :=
  (lut = none ∧ keys = []) ∨ ∃ l, lut = some l ∧ ∀ (j : ℕ) k, keys[j]? = some k →
    ids (fmt k) = some (l.getD j 0) ∧ 0 < l.getD j 0

variable {st : EngineState} {ids : Key → Option ℕ}

lemma keyAt_names {keys : List (String × ℕ)} {l : List ℕ}
    (h : LutOf ids keys (some l)) {i : ℤ} (h0 : -1 ≤ i) (h1 : i < keys.length) :
    Names ids (keyAt keys i) (lutAt l i) := by
  rcases h with ⟨hn, -⟩ | ⟨l', hl, hk⟩
  · simp at hn
  · cases hl
    by_cases hneg : i = -1
    · subst hneg
      rfl
    · have hpos : ¬i < 0 := by omega
      have hlt : i.toNat < keys.length := by omega
      have hkey : keyAt keys i = some keys[i.toNat] := by
        unfold keyAt
        rw [if_neg hpos, List.getElem?_eq_getElem hlt]
      rw [hkey]
      unfold lutAt
      rw [if_neg hneg]
      exact hk i.toNat _ (List.getElem?_eq_getElem hlt)

lemma halfGlobal_plane (hc : Consistent st) {a : Cells ℤ} (ha : st.plane = some a) (y x : ℤ) :
    -1 ≤ halfGlobal st.canvas (-1) a y x ∧ halfGlobal st.canvas (-1) a y x < st.keys.length := by
  unfold halfGlobal
  split_ifs with hin
  · exact hc.plane a ha _ _ hin
  · constructor <;> omega

lemma global_time_blank {V : Cells U8} {T : Cells ℤ} {y x : ℤ}
    (hv : st.global UNKNOWN V y x = UNKNOWN) (ht : ¬0 ≤ st.global (-1) T y x)
    (hc : ∀ y x, st.canvas.box.Has y x → V y x = UNKNOWN → -1 ≤ T y x) :
    st.global (-1) T y x = -1 := by
  unfold EngineState.global at *
  split_ifs at * with hin
  · have := hc _ _ hin hv
    omega
  · rfl

lemma global_blank {fill : α} {a : Cells α} {y x : ℤ} (hv : st.global UNKNOWN st.V y x = UNKNOWN)
    (hc : ∀ y x, st.canvas.box.Has y x → st.V y x = UNKNOWN → a y x = fill) :
    st.global fill a y x = fill := by
  unfold EngineState.global at *
  split_ifs at * with hin
  · exact hc _ _ hin hv
  · rfl

lemma ownTile_names (hc : Consistent st)
    (hl : LutOf ids st.keys lut) (tx ty : ℤ) (r c : Fin TILE_L) :
    Names ids ((snapshot st).owner (cellL ty r) (cellL tx c)) ((ownTile st tx ty lut).elim 0 fun a => a r c) := by
  unfold snapshot ownTile
  cases hp : st.plane with
  | none => simp [Names]
  | some plane =>
    obtain ⟨h0, h1⟩ := halfGlobal_plane hc hp (cellL ty r) (cellL tx c)
    cases lut with
    | none =>
      rcases hl with ⟨-, hk⟩ | ⟨l, hn, -⟩
      · have hnone : keyAt st.keys (halfGlobal st.canvas (-1) plane (cellL ty r) (cellL tx c)) =
            none := by simp [keyAt, hk]
        simp [hnone, Names]
      · simp at hn
    | some l =>
      simp only [halfTile_eq, bind_some, map_some, elim_some]
      exact keyAt_names hl h0 h1

lemma chanTiles_get (hc : Consistent st) (tx ty : ℤ) (name : String) (r q : Fin TILE_F) :
    ((chanTiles st tx ty).get name).elim (UNKNOWN, -1) (fun a => (a.1 r q, a.2 r q)) =
      (snapshot st).chan name (cellF ty r) (cellF tx q) := by
  simp only [chanTiles, Dict.get_filter, Dict.get_sorted, Dict.get_map, snapshot]
  cases hg : st.chan.get name with
  | none => rfl
  | some ch =>
    simp only [map_some, elim_some, filter_some]
    split_ifs with hk
    · simp [fullTile_eq]
    · simp only [Bool.or_eq_true, not_or, Bool.not_eq_true] at hk
      have hv := anyCell_false hk.1 r q
      have ht := anyCell_false hk.2 r q
      simp only [fullTile_eq, ne_eq, decide_not, Bool.not_eq_false', decide_eq_true_eq, decide_eq_false_iff_not] at hv ht
      rw [hv, global_time_blank hv ht (hc.chan name ch hg)]
      rfl

lemma tileArrays_shows (hc : Consistent st) (hl : LutOf ids st.keys lut) (tx ty : ℤ) :
    Shows (snapshot st) ids tx ty (tileArrays st tx ty lut) := by
  have hown := ownTile_names hc hl tx ty
  have hchan := chanTiles_get hc tx ty
  unfold tileArrays
  dsimp only
  split_ifs with hne
  · refine ⟨fullTile_eq st _ _ tx ty, fullTile_eq st _ _ tx ty, fullTile_eq st _ _ tx ty,
      fun r c => ?_, fun r c => ?_, fun r c => ?_, fun r c => ?_, hchan, hown⟩
    · cases hf : st.Fn with
      | none => simp [snapshot, hf]
      | some a => simp [snapshot, hf, fullTile_eq]
    · cases hf : st.Bn with
      | none => simp [snapshot, hf]
      | some a => simp [snapshot, hf, fullTile_eq]
    · cases hf : st.Hold with
      | none => simp [snapshot, hf]
      | some a => simp [snapshot, hf, fullTile_eq]
    · cases hf : st.Val with
      | none => simp [snapshot, hf]
      | some a => simp [snapshot, hf, halfTile_eq]
  · simp only [Bool.or_eq_true, not_or, Bool.not_eq_true] at hne
    obtain ⟨⟨⟨⟨⟨hv, ht⟩, hb⟩, hval⟩, hch⟩, ho⟩ := hne
    have hV : ∀ r c, st.global UNKNOWN st.V (cellF ty r) (cellF tx c) = UNKNOWN := by
      intro r c
      have := anyCell_false hv r c
      simpa [fullTile_eq] using this
    refine ⟨fun r c => (hV r c).symm, fun r c => ?_, fun r c => ?_, fun r c => ?_, fun r c => ?_,
      fun r c => ?_, fun r c => ?_, fun name r c => ?_, fun r c => ?_⟩
    · have := anyCell_false ht r c
      simp only [fullTile_eq, decide_eq_false_iff_not] at this
      exact (global_time_blank (hV r c) this hc.t).symm
    · have := anyCell_false hb r c
      simp only [fullTile_eq, decide_eq_false_iff_not] at this
      exact (global_time_blank (hV r c) this hc.b).symm
    · cases hf : st.Fn with
      | none => simp [snapshot, hf]
      | some a => simp [snapshot, hf, global_blank (hV r c) (hc.fn a hf)]
    · cases hf : st.Bn with
      | none => simp [snapshot, hf]
      | some a => simp [snapshot, hf, global_blank (hV r c) (hc.bn a hf)]
    · cases hf : st.Hold with
      | none => simp [snapshot, hf]
      | some a => simp [snapshot, hf, global_blank (hV r c) (hc.hold a hf)]
    · cases hf : st.Val with
      | none => simp [snapshot, hf]
      | some a =>
        simp only [hf, map_some, any_some] at hval
        have := anyCell_false hval r c
        simpa [snapshot, hf, halfTile_eq] using this.symm
    · have hnil : (chanTiles st tx ty).items = [] := by simpa using hch
      rw [← hchan name r c]
      simp [Dict.get, hnil]
    · have h := hown r c
      cases hO : ownTile st tx ty lut with
      | none => simpa [hO, ownAt] using h
      | some a =>
        simp only [hO, any_some] at ho
        have h0 := anyCell_false ho r c
        simp only [decide_eq_false_iff_not, not_lt, Nat.le_zero_eq] at h0
        simpa [hO, ownAt, h0] using h

end CloudServer.StoreSnapshot
