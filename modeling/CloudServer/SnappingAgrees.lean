import CloudServer.Snapping
import CloudServer.StoreChain

/-! The engine and a view of the stored version put a point on the same cell; they differ where the
close-evidence rule holds a cell on the way blocked. -/
namespace CloudServer.Snapping
open SceneLeaf SceneFold SceneApi StoreTiles StoreSave StoreOps StoreObjects StoreExpand StoreRun
open StoreHistory StoreSequence StoreRetain StoreSnapshot StoreRepresent StoreLoad StoreRoundTrip
open StoreChain StoreCodec WindowSearch List
open Planes (Plane sqDist)

/-- A cell of the half plane that a chart owns. -/
def Navigable (st : EngineState) (p : ℤ × ℤ) : Prop :=
  ∃ plane, st.plane = some plane ∧ 0 ≤ halfGlobal st.canvas (-1) plane p.1 p.2

/-- A navigable cell, and none is nearer to `c`. -/
def NearestTo (st : EngineState) (c p : ℤ × ℤ) : Prop :=
  Navigable st p ∧ ∀ q, Navigable st q → sqDist c p ≤ sqDist c q

def latticeOf (x y : ℚ) : ℤ × ℤ := (cellOf y / 2, cellOf x / 2)

def centre (p : ℤ × ℤ) : ℚ × ℚ := ((2 * p.2 + 1) * RES, (2 * p.1 + 1) * RES)

structure Reads (codec : Codec) (w : StoredView) (st : EngineState) : Prop where
  represents : Represents codec st w.man
  consistent : Consistent st
  allowed : w.allowed = none
  tile : ∀ t, ∃ o, w.tile t = .ok o ∧ Shows (snapshot st) w.man.key_ids.get (ofLex t).1 (ofLex t).2 o ∧
    (o.isSome → (w.man.tiles.get t).isSome)

def StoredView.tileAt (w : StoredView) (t : Coord) : Option Tile :=
  match w.tile t with
  | .ok o => o
  | .error _ => none

def StoredView.index (w : StoredView) (p : ℤ × ℤ) : ℤ :=
  w.indexIn (w.tileAt (coord (p.2 / TILE_L) (p.1 / TILE_L))) p.1 p.2

def Charted (charts : List ChartDoc) (owner : Option (String × ℕ)) (j : ℤ) : Prop :=
  match owner with
  | none => j = -1
  | some k => 0 ≤ j ∧ (charts[j.toNat]?).map ChartDoc.key = some (fmt k)

variable {p : ℤ × ℤ} {man : Manifest} {plane : Cells ℤ}

lemma mem_cells {b : Box} : p ∈ b.cells ↔ b.Has p.1 p.2 := by
  unfold Box.cells Box.Has
  simp only [mem_flatMap, mem_map, mem_intRange]
  constructor
  · rintro ⟨y, hy, x, hx, rfl⟩
    exact ⟨hx, hy⟩
  · rintro ⟨hx, hy⟩
    exact ⟨p.1, hy, p.2, hx, rfl⟩

lemma cellF_within (i : ℤ) : cellF (i / TILE_F) (within TILE_F i) = i := by
  unfold cellF within TILE_F
  simp only [Fin.ofNat]
  omega

lemma cellL_within (i : ℤ) : cellL (i / TILE_L) (within TILE_L i) = i := by
  unfold cellL within TILE_L
  simp only [Fin.ofNat]
  omega

section Reads
variable {codec : Codec} {w : StoredView} {st : EngineState}

lemma Reads.tile_eq (h : Reads codec w st) (t : Coord) : w.tile t = .ok (w.tileAt t) := by
  obtain ⟨o, ho, -⟩ := h.tile t
  unfold StoredView.tileAt
  rw [ho]

lemma Reads.own_eq (h : Reads codec w st) (t : Coord) : w.own t = .ok (w.tileAt t) := by
  unfold StoredView.own
  rw [h.tile_eq]
  rfl

lemma Reads.shows (h : Reads codec w st) (t : Coord) :
    Shows (snapshot st) w.man.key_ids.get (ofLex t).1 (ofLex t).2 (w.tileAt t) := by
  obtain ⟨o, ho, hshow, -⟩ := h.tile t
  unfold StoredView.tileAt
  rwa [ho]

lemma Reads.stored (h : Reads codec w st) {t : Coord} (hs : (w.tileAt t).isSome) :
    t ∈ w.man.tiles.keys := by
  obtain ⟨o, ho, -, hin⟩ := h.tile t
  unfold StoredView.tileAt at hs
  rw [ho] at hs
  exact Dict.mem_keys.mpr (Option.isSome_iff_exists.mp (hin hs))

lemma index_of_id (h : Represents codec st man) {owner : Option (String × ℕ)} {id : ℕ}
    (hn : Names man.key_ids.get owner id) : Charted man.charts owner (indexOf (idToIdx man.charts) id) := by
  cases owner with
  | none =>
    obtain rfl : id = 0 := hn
    exact if_neg (lt_irrefl 0)
  | some k =>
    obtain ⟨hk, hpos⟩ := hn
    obtain ⟨ch, hch, hkey, rfl⟩ := h.listed _ _ hk
    have hmem : ch.id ∈ (idToIdx man.charts).keys := idToIdx_mem hch
    obtain ⟨j, hj⟩ := Dict.mem_keys.mp hmem
    obtain ⟨ch2, hget, hid2⟩ := idToIdx_get hj
    have hsame : ch2.key = fmt k := by
      have h2 := h.charts ch2 (mem_of_getElem? hget)
      rw [hid2] at h2
      exact h.inj _ _ _ h2 hk
    have hmin : min ch.id ((idToIdx man.charts).keys.foldr max 0) = ch.id :=
      min_eq_left (le_foldr_max hmem)
    have hindex : indexOf (idToIdx man.charts) ch.id = j := by
      unfold indexOf
      rw [if_pos hpos, hmin, hj]
      rfl
    rw [hindex]
    exact ⟨Int.natCast_nonneg j, by simp [hget, hsame]⟩

lemma indexIn_eq (o : Option Tile) (y x : ℤ) :
    w.indexIn o y x = indexOf (idToIdx w.man.charts) (ownAt o (within TILE_L y) (within TILE_L x)) := by
  unfold StoredView.indexIn ownAt
  cases o.bind Tile.own with
  | none => exact (if_neg (lt_irrefl 0)).symm
  | some ids => rfl

lemma Reads.charted (h : Reads codec w st) (p : ℤ × ℤ) :
    Charted w.man.charts ((snapshot st).owner p.1 p.2) (w.index p) := by
  have hown := (h.shows (coord (p.2 / TILE_L) (p.1 / TILE_L))).own (within TILE_L p.1) (within TILE_L p.2)
  simp only [coord, ofLex_toLex, cellL_within] at hown
  have hindex := index_of_id h.represents hown
  rw [← indexIn_eq] at hindex
  exact hindex

lemma owner_of_plane (hc : Consistent st) (hp : st.plane = some plane)
    (h0 : 0 ≤ halfGlobal st.canvas (-1) plane p.1 p.2) :
    ∃ k, (snapshot st).owner p.1 p.2 = some k ∧
      st.keys[(halfGlobal st.canvas (-1) plane p.1 p.2).toNat]? = some k := by
  have hlt := (halfGlobal_plane hc hp p.1 p.2).2
  have hget : st.keys[(halfGlobal st.canvas (-1) plane p.1 p.2).toNat]? =
      some (st.keys.get ⟨(halfGlobal st.canvas (-1) plane p.1 p.2).toNat, by omega⟩) := by
    simp
  refine ⟨_, ?_, hget⟩
  unfold snapshot keyAt
  dsimp only
  rw [hp]
  simp only [Option.elim_some]
  rw [if_neg (by omega), hget]

lemma Reads.navigable_iff (h : Reads codec w st) (p : ℤ × ℤ) : Navigable st p ↔ 0 ≤ w.index p := by
  have hindex := h.charted p
  constructor
  · rintro ⟨plane, hp, h0⟩
    obtain ⟨k, hk, -⟩ := owner_of_plane h.consistent hp h0
    rw [hk] at hindex
    exact hindex.1
  · intro h0
    cases hk : (snapshot st).owner p.1 p.2 with
    | none =>
      rw [hk] at hindex
      have hneg : w.index p = -1 := hindex
      omega
    | some k =>
      unfold snapshot keyAt at hk
      dsimp only at hk
      cases hp : st.plane with
      | none => simp [hp] at hk
      | some plane =>
        rw [hp] at hk
        simp only [Option.elim_some] at hk
        refine ⟨plane, hp, ?_⟩
        by_contra hneg
        rw [if_pos (not_le.mp hneg)] at hk
        cases hk

lemma Reads.need_ok (h : Reads codec w st) (tiles : List Coord) : w.need tiles = .ok () := by
  unfold StoredView.need
  rw [h.allowed]

lemma Reads.mapM_own (h : Reads codec w st) (tiles : List Coord) :
    (tiles.mapM fun t => do
      let tile ← w.own t
      pure (t, tile)) = Except.ok (tiles.map fun t => (t, w.tileAt t)) := by
  induction tiles with
  | nil => rfl
  | cons t tiles ih =>
    rw [mapM_cons, h.own_eq, ih]
    rfl

lemma find_read (f : Coord → Option Tile) {tiles : List Coord} {t : Coord} (ht : t ∈ tiles) :
    Dict.find (tiles.map fun t => (t, f t)) t = some (f t) := by
  induction tiles with
  | nil => cases ht
  | cons s tiles ih =>
    rw [map_cons, Dict.find_cons]
    split_ifs with hst
    · rw [hst]
    · exact ih ((mem_cons.mp ht).resolve_left hst)

lemma Reads.window_eq (h : Reads codec w st) (b : Box) :
    ∃ idx, w.window b = .ok idx ∧ ∀ p : ℤ × ℤ, b.Has p.1 p.2 → idx p.1 p.2 = w.index p := by
  unfold StoredView.window
  dsimp only
  rw [h.need_ok]
  have hok : ∀ f : Unit → Except ViewError (ℤ → ℤ → ℤ), (Except.ok () >>= f) = f () := fun _ => rfl
  refine ⟨_, by rw [hok, h.mapM_own]; rfl, ?_⟩
  intro p hp
  obtain ⟨⟨hx0, hx1⟩, hy0, hy1⟩ := hp
  rw [find_read]
  · rfl
  · refine mem_flatMap.mpr ⟨p.1 / TILE_L, mem_intRange.mpr ?_,
      mem_map.mpr ⟨p.2 / TILE_L, mem_intRange.mpr ?_, rfl⟩⟩
    · unfold TILE_L
      omega
    · unfold TILE_L
      omega

lemma Reads.scan_eq (h : Reads codec w st) (e : Box) (c : ℤ × ℤ) (r : ℤ) :
    ∃ found, w.scan e c r = .ok found ∧ match found with
      | none => ∀ q, Navigable st q → ¬(StoredView.around e c r).Has q.1 q.2
      | some (p, j) => Navigable st p ∧ j = w.index p ∧
          ∀ q, Navigable st q → (StoredView.around e c r).Has q.1 q.2 → sqDist c p ≤ sqDist c q := by
  unfold StoredView.scan
  dsimp only
  generalize StoredView.around e c r = b
  split_ifs with hb
  · obtain ⟨idx, hidx, hcell⟩ := h.window_eq b
    rw [hidx]
    have hmem : ∀ q, q ∈ b.cells.filter (fun p => 0 ≤ idx p.1 p.2) ↔ b.Has q.1 q.2 ∧ Navigable st q := by
      intro q
      rw [mem_filter, mem_cells, decide_eq_true_eq, h.navigable_iff]
      exact and_congr_right fun hq => by rw [hcell q hq]
    refine ⟨_, rfl, ?_⟩
    cases hmin : (b.cells.filter fun p => 0 ≤ idx p.1 p.2).argmin fun p => (sqDist c p).toNat with
    | none =>
      intro q hq hin
      rw [argmin_eq_none] at hmin
      have hq' := (hmem q).mpr ⟨hin, hq⟩
      rw [hmin] at hq'
      cases hq'
    | some p =>
      obtain ⟨hin, hp⟩ := (hmem p).mp (argmin_mem hmin)
      refine ⟨hp, hcell p hin, fun q hq hqin => ?_⟩
      have hle := le_of_mem_argmin ((hmem q).mpr ⟨hqin, hq⟩) hmin
      have hpos := Planes.sqDist_nonneg c q
      omega
  · refine ⟨none, rfl, fun q _ hq => hb ?_⟩
    obtain ⟨⟨hx0, hx1⟩, hy0, hy1⟩ := hq
    constructor <;> omega

lemma Reads.extent_spec (h : Reads codec w st) : match w.extent with
    | none => ∀ q, ¬Navigable st q
    | some e => ∀ q, Navigable st q → e.Has q.1 q.2 := by
  have hkey : ∀ q, Navigable st q → coord (q.2 / TILE_L) (q.1 / TILE_L) ∈ w.man.tiles.keys := by
    intro q hq
    refine h.stored ?_
    have h0 := (h.navigable_iff q).mp hq
    by_contra hnone
    rw [Option.not_isSome_iff_eq_none] at hnone
    unfold StoredView.index at h0
    rw [hnone] at h0
    have hneg : w.indexIn none q.1 q.2 = -1 := rfl
    omega
  unfold StoredView.extent
  dsimp only
  split_ifs with hnil
  · intro q hq
    have hq' := hkey q hq
    rw [hnil] at hq'
    cases hq'
  · intro q hq
    have hx : q.2 / TILE_L ∈ w.man.tiles.keys.map fun t => (ofLex t).1 :=
      mem_map.mpr ⟨_, hkey q hq, rfl⟩
    have hy : q.1 / TILE_L ∈ w.man.tiles.keys.map fun t => (ofLex t).2 :=
      mem_map.mpr ⟨_, hkey q hq, rfl⟩
    have hx0 := lowest_le hx
    have hx1 := le_highest hx
    have hy0 := lowest_le hy
    have hy1 := le_highest hy
    unfold Box.Has
    unfold TILE_L at *
    dsimp only
    omega

def reach (e : Box) (c : ℤ × ℤ) : ℤ :=
  max (max |c.2 - e.x0| |c.2 - e.x1|) (max |c.1 - e.y0| |c.1 - e.y1|) + 1

variable {e : Box} {c q : ℤ × ℤ}

lemma around_whole {r : ℤ} (hr : reach e c ≤ r) (hq : e.Has q.1 q.2) :
    (StoredView.around e c r).Has q.1 q.2 := by
  unfold reach at hr
  unfold StoredView.around Box.Has at *
  dsimp only
  have h₁ := abs_le.mp (show |c.2 - e.x0| ≤ r - 1 by omega)
  have h₂ := abs_le.mp (show |c.2 - e.x1| ≤ r - 1 by omega)
  have h₃ := abs_le.mp (show |c.1 - e.y0| ≤ r - 1 by omega)
  have h₄ := abs_le.mp (show |c.1 - e.y1| ≤ r - 1 by omega)
  omega

lemma lt_of_outside {r : ℤ} (hr : 0 ≤ r) (hq : e.Has q.1 q.2)
    (hout : ¬(StoredView.around e c r).Has q.1 q.2) : r * r < sqDist c q := by
  unfold StoredView.around Box.Has at *
  dsimp only at hout
  have hcases : r < |c.1 - q.1| ∨ r < |c.2 - q.2| := by
    by_contra hnone
    rw [not_or, not_lt, not_lt, abs_le, abs_le] at hnone
    exact hout (by omega)
  have hsq : sqDist c q = (c.1 - q.1) ^ 2 + (c.2 - q.2) ^ 2 := rfl
  have h₁ := sq_nonneg (c.1 - q.1)
  have h₂ := sq_nonneg (c.2 - q.2)
  rcases hcases with hlt | hlt
  · have hle := mul_self_lt_mul_self hr hlt
    rw [abs_mul_abs_self] at hle
    nlinarith
  · have hle := mul_self_lt_mul_self hr hlt
    rw [abs_mul_abs_self] at hle
    nlinarith

lemma Reads.search_nearest (h : Reads codec w st) (he : ∀ q, Navigable st q → e.Has q.1 q.2)
    (c : ℤ × ℤ) {r₀ : ℤ} (hr : 1 ≤ r₀) :
    ∃ answer N, (∀ fuel, N ≤ fuel →
        search (w.scan e c) (StoredView.near c) (reach e c) fuel r₀ = some (.ok answer)) ∧
      match answer with
      | none => ∀ q, ¬Navigable st q
      | some (p, j) => NearestTo st c p ∧ j = w.index p := by
  have hscan : ∀ r, ∃ found, w.scan e c r = .ok found := by
    intro r
    obtain ⟨found, hfound, -⟩ := h.scan_eq e c r
    exact ⟨found, hfound⟩
  have hends : ∃ answer, Answers (w.scan e c) (StoredView.near c) (reach e c) answer ∧ ∀ more,
      search (w.scan e c) (StoredView.near c) (reach e c) ((reach e c - r₀).toNat + 1 + more) r₀ =
        some (.ok answer) :=
    search_answers hscan _ hr (by omega)
  obtain ⟨answer, ⟨r, hr1, hanswer, hstop⟩, hrun⟩ := hends
  refine ⟨answer, (reach e c - r₀).toNat + 1, fun fuel hfuel => ?_, ?_⟩
  · obtain ⟨more, rfl⟩ := Nat.exists_eq_add_of_le hfuel
    exact hrun more
  · obtain ⟨found, hfound, hspec⟩ := h.scan_eq e c r
    obtain rfl : answer = found := by
      rw [hanswer] at hfound
      exact Except.ok.inj hfound
    cases answer with
    | none => exact fun q hq => hspec q hq (around_whole hstop (he q hq))
    | some a =>
      obtain ⟨p, j⟩ := a
      obtain ⟨hp, hj, hmin⟩ := hspec
      refine ⟨⟨hp, fun q hq => ?_⟩, hj⟩
      by_cases hin : (StoredView.around e c r).Has q.1 q.2
      · exact hmin q hq hin
      · rcases hstop with hnear | hwhole
        · obtain ⟨hr0, hle⟩ := of_decide_eq_true hnear
          exact hle.trans (lt_of_outside hr0 (he q hq) hin).le
        · exact absurd (around_whole hwhole (he q hq)) hin

def Blocked (st : EngineState) (p : ℤ × ℤ) : Prop := blocked ((snapshot st).v p.1 p.2) = true

def HeldAt (w : StoredView) (p : ℤ × ℤ) : Prop :=
  ∃ t, w.tile (coord (p.2 / TILE_F) (p.1 / TILE_F)) = .ok (some t) ∧
    held t (within TILE_F p.1) (within TILE_F p.2) = true

lemma blocked_effectiveV (t : Tile) (r c : Fin TILE_F) :
    blocked (effectiveV t r c) = true ↔ held t r c = true ∨ blocked (t.v r c) = true := by
  unfold effectiveV
  split_ifs with hheld
  · exact iff_of_true (by decide) (Or.inl hheld)
  · exact (or_iff_right hheld).symm

lemma Reads.blocked_iff (h : Reads codec w st) (p : ℤ × ℤ) :
    (w.tileAt (coord (p.2 / TILE_F) (p.1 / TILE_F))).any
        (fun t => blocked (effectiveV t (within TILE_F p.1) (within TILE_F p.2))) = true ↔
      HeldAt w p ∨ Blocked st p := by
  have hv := (h.shows (coord (p.2 / TILE_F) (p.1 / TILE_F))).v (within TILE_F p.1) (within TILE_F p.2)
  simp only [coord, ofLex_toLex, cellF_within] at hv
  unfold HeldAt Blocked
  rw [← hv, h.tile_eq]
  change (w.tileAt (coord (p.2 / TILE_F) (p.1 / TILE_F))).any _ = true ↔ _
  have hcoord : (toLex (p.2 / (TILE_F : ℤ), p.1 / (TILE_F : ℤ)) : Coord) =
      coord (p.2 / TILE_F) (p.1 / TILE_F) := rfl
  rw [hcoord]
  cases w.tileAt (coord (p.2 / TILE_F) (p.1 / TILE_F)) with
  | none =>
    refine iff_of_false (by simp) ?_
    rintro (⟨t, ht, -⟩ | hb)
    · cases ht
    · have hfalse : blocked UNKNOWN = false := by decide
      rw [Option.elim_none, hfalse] at hb
      cases hb
  | some t =>
    simp only [Option.any_some, Option.elim_some, blocked_effectiveV]
    refine or_congr_left ⟨fun hh => ⟨t, rfl, hh⟩, ?_⟩
    rintro ⟨t', ht', hh⟩
    obtain rfl : t = t' := Option.some.inj (Except.ok.inj ht')
    exact hh

lemma Reads.held_of_hold (h : Reads codec w st) (hfree : (snapshot st).v p.1 p.2 < 100)
    (hfn : (snapshot st).fn p.1 p.2 ≠ -1) (hhold : (snapshot st).hold p.1 p.2 = true) : HeldAt w p := by
  have hshow := h.shows (coord (p.2 / TILE_F) (p.1 / TILE_F))
  have hv := hshow.v (within TILE_F p.1) (within TILE_F p.2)
  have hf := hshow.fn (within TILE_F p.1) (within TILE_F p.2)
  have hh := hshow.hold (within TILE_F p.1) (within TILE_F p.2)
  simp only [coord, ofLex_toLex, cellF_within] at hv hf hh
  rw [← hv] at hfree
  rw [← hf] at hfn
  rw [← hh] at hhold
  unfold HeldAt
  rw [h.tile_eq]
  change ∃ t, Except.ok (w.tileAt (toLex (p.2 / (TILE_F : ℤ), p.1 / (TILE_F : ℤ)))) = _ ∧ _
  cases hat : w.tileAt (toLex (p.2 / (TILE_F : ℤ), p.1 / (TILE_F : ℤ))) with
  | none => simp [hat] at hhold
  | some t =>
    rw [hat] at hfree hfn hhold
    simp only [Option.bind_some, Option.elim_some] at hfree hfn hhold
    refine ⟨t, rfl, ?_⟩
    unfold held
    cases hfn' : t.fn with
    | none => simp [hfn'] at hfn
    | some fn =>
      cases hhold' : t.hold with
      | none => simp [hhold'] at hhold
      | some hold =>
        rw [hhold', Option.elim_some] at hhold
        simp [hfree, hhold]

lemma Reads.crosses_eq (h : Reads codec w st) (cells : List (ℤ × ℤ)) :
    ∃ found, w.crosses cells = .ok found ∧ (found = true ↔ ∃ p ∈ cells, HeldAt w p ∨ Blocked st p) := by
  set tileOf : ℤ × ℤ → Coord := fun p => coord (p.2 / TILE_F) (p.1 / TILE_F) with htileOf
  set hit : Coord → Bool := fun t => (w.tileAt t).any fun a => cells.any fun p =>
    decide (tileOf p = t) && blocked (effectiveV a (within TILE_F p.1) (within TILE_F p.2)) with hhit
  have hfold : ∀ (tiles : List Coord) (found : Bool), tiles.foldlM (fun found t => do
      if found then pure true
      else
        let tile ← w.own t
        pure (tile.any fun a => cells.any fun p =>
          decide (tileOf p = t) && blocked (effectiveV a (within TILE_F p.1) (within TILE_F p.2)))) found =
        (Except.ok (found || tiles.any hit) : Except ViewError Bool) := by
    intro tiles
    induction tiles with
    | nil =>
      intro found
      simp [pure, Except.pure]
    | cons t tiles ih =>
      intro found
      rw [foldlM_cons, any_cons]
      cases found with
      | true => exact (ih true).trans (by simp)
      | false =>
        rw [if_neg Bool.false_ne_true, h.own_eq]
        exact (ih (hit t)).trans (by simp)
  have hhits : ∀ t, hit t = true ↔ ∃ p ∈ cells, tileOf p = t ∧ (HeldAt w p ∨ Blocked st p) := by
    intro t
    simp only [← h.blocked_iff]
    have hsame : (∃ p ∈ cells, tileOf p = t ∧ (w.tileAt (coord (p.2 / TILE_F) (p.1 / TILE_F))).any
        (fun a => blocked (effectiveV a (within TILE_F p.1) (within TILE_F p.2))) = true) ↔
        ∃ p ∈ cells, tileOf p = t ∧ (w.tileAt t).any
          (fun a => blocked (effectiveV a (within TILE_F p.1) (within TILE_F p.2))) = true := by
      refine exists_congr fun p => and_congr_right fun _ => and_congr_right fun ht => ?_
      rw [← ht]
    rw [hsame, hhit]
    dsimp only
    cases w.tileAt t with
    | none => simp
    | some a => simp [any_eq_true]
  refine ⟨((cells.map tileOf).dedup).any hit, ?_, ?_⟩
  · unfold StoredView.crosses
    dsimp only
    rw [h.need_ok]
    exact (hfold _ false).trans rfl
  · rw [any_eq_true]
    constructor
    · rintro ⟨t, -, ht⟩
      obtain ⟨p, hp, -, hb⟩ := (hhits t).mp ht
      exact ⟨p, hp, hb⟩
    · rintro ⟨p, hp, hb⟩
      exact ⟨tileOf p, mem_dedup.mpr (mem_map_of_mem hp), (hhits _).mpr ⟨p, hp, rfl, hb⟩⟩

end Reads

section Landing
variable {codec : Codec} {w : StoredView} {st : EngineState} {x y : ℚ} {max_dist : Option ℚ}
  (hypot : ℚ → ℚ → ℚ)

def distanceTo (x y : ℚ) (p : ℤ × ℤ) : ℚ := hypot ((centre p).1 - x) ((centre p).2 - y)

/-- The costmap cells on the way from a point to the centre of a lattice cell. -/
def onWay (x y : ℚ) (p : ℤ × ℤ) : List (ℤ × ℤ) :=
  samples x y (centre p).1 (centre p).2 (distanceTo hypot x y p)

def landed (st : EngineState) (x y : ℚ) (max_dist : Option ℚ) (p : ℤ × ℤ) (k : String × ℕ)
    (crosses : Bool) : Snap :=
  ⟨if distanceTo hypot x y p ≤ limit st.params.chart_radius max_dist then some (fmt k) else none,
    some (centre p), some (distanceTo hypot x y p), crosses⟩

/-- The point lands on the cell, with the key of its chart and the flag of what is crossed. -/
def LandsOn (st : EngineState) (x y : ℚ) (max_dist : Option ℚ) (p : ℤ × ℤ)
    (crossed : ℤ × ℤ → Prop) (s : Snap) : Prop :=
  ∃ k crosses, (snapshot st).owner p.1 p.2 = some k ∧ s = landed hypot st x y max_dist p k crosses ∧
    (crosses = true ↔ ∃ c ∈ onWay hypot x y p, crossed c)

lemma Reads.snap_spec (h : Reads codec w st) (hlattice : 0 < st.params.lattice)
    (hradius : 0 ≤ st.params.chart_radius) (x y : ℚ) (max_dist : Option ℚ) :
    ∃ s N, (∀ fuel, N ≤ fuel → w.snap hypot fuel x y max_dist = some (.ok s)) ∧
      (((∀ q, ¬Navigable st q) ∧ s = far) ∨ ∃ p, NearestTo st (latticeOf x y) p ∧
        LandsOn hypot st x y max_dist p (fun c => HeldAt w c ∨ Blocked st c) s) := by
  have hextent := h.extent_spec
  unfold StoredView.snap
  dsimp only
  rw [h.represents.params]
  cases he : w.extent with
  | none =>
    rw [he] at hextent
    exact ⟨far, 0, fun _ _ => rfl, Or.inl ⟨hextent, rfl⟩⟩
  | some e =>
    rw [he] at hextent
    have hr : 1 ≤ ⌈2 * st.params.chart_radius / st.params.lattice⌉ + 1 := by
      have hnonneg : 0 ≤ ⌈2 * st.params.chart_radius / st.params.lattice⌉ :=
        Int.ceil_nonneg (div_nonneg (by linarith) hlattice.le)
      omega
    obtain ⟨answer, N, hrun, hanswer⟩ := h.search_nearest hextent (latticeOf x y) hr
    cases answer with
    | none =>
      refine ⟨far, N, fun fuel hfuel => ?_, Or.inl ⟨hanswer, rfl⟩⟩
      have hsearch := hrun fuel hfuel
      unfold reach latticeOf at hsearch
      dsimp only at hsearch ⊢
      rw [hsearch]
      rfl
    | some a =>
      obtain ⟨p, j⟩ := a
      obtain ⟨hp, rfl⟩ := hanswer
      obtain ⟨found, hfound, hiff⟩ := h.crosses_eq (onWay hypot x y p)
      have hcharted := h.charted p
      have hindex := (h.navigable_iff p).mp hp.1
      cases hk : (snapshot st).owner p.1 p.2 with
      | none =>
        rw [hk] at hcharted
        have hneg : w.index p = -1 := hcharted
        omega
      | some k =>
        rw [hk] at hcharted
        refine ⟨landed hypot st x y max_dist p k found, N, fun fuel hfuel => ?_,
          Or.inr ⟨p, hp, k, found, hk, rfl, hiff⟩⟩
        have hsearch := hrun fuel hfuel
        unfold reach latticeOf at hsearch
        dsimp only at hsearch ⊢
        rw [hsearch]
        unfold onWay distanceTo centre at hfound
        simp only [Option.map_some, bind, Except.bind, pure, Except.pure] at hfound ⊢
        rw [hfound, hcharted.2]
        rfl

end Landing

section Engine
variable {codec : Codec} {w : StoredView} {st : EngineState} {nearest : Plane Bool → ℕ → ℕ → ℕ × ℕ}

/-- The indices of a distance transform: on a plane with a cell to measure to, a nearest one. -/
def Indexes (nearest : Plane Bool → ℕ → ℕ → ℕ × ℕ) : Prop :=
  ∀ p : Plane Bool, (∃ c, p.Unset c) → ∀ y < p.H, ∀ x < p.W,
    p.Unset (((nearest p y x).1 : ℤ), ((nearest p y x).2 : ℤ)) ∧
      ∀ c, p.Unset c → sqDist ((y : ℤ), (x : ℤ)) (((nearest p y x).1 : ℤ), ((nearest p y x).2 : ℤ)) ≤
        sqDist ((y : ℤ), (x : ℤ)) c

/-- A state as the engine makes them. -/
structure Proper (st : EngineState) : Prop where
  even_y : 2 ∣ st.canvas.cy0
  even_x : 2 ∣ st.canvas.cx0
  lattice : 0 < st.params.lattice
  radius : 0 ≤ st.params.chart_radius

def OnCanvas (st : EngineState) (c : ℤ × ℤ) : Prop :=
  (0 ≤ c.1 - st.canvas.cy0 / 2 ∧ c.1 - st.canvas.cy0 / 2 < (st.canvas.H / 2 : ℕ)) ∧
    (0 ≤ c.2 - st.canvas.cx0 / 2 ∧ c.2 - st.canvas.cx0 / 2 < (st.canvas.W / 2 : ℕ))

def corner (st : EngineState) : ℤ × ℤ := (st.canvas.cy0 / 2, st.canvas.cx0 / 2)

def offPlane (st : EngineState) (plane : Cells ℤ) : Plane Bool :=
  ⟨st.canvas.H / 2, st.canvas.W / 2, fun r c => !decide (0 ≤ plane r c)⟩

lemma unset_iff (hp : st.plane = some plane) (a : ℤ × ℤ) :
    (offPlane st plane).Unset a ↔ Navigable st (a + corner st) := by
  have hglobal : Navigable st (a + corner st) ↔
      0 ≤ halfGlobal st.canvas (-1) plane (a + corner st).1 (a + corner st).2 := by
    constructor
    · rintro ⟨plane', hp', h0⟩
      obtain rfl : plane = plane' := Option.some.inj (hp.symm.trans hp')
      exact h0
    · exact fun h0 => ⟨plane, hp, h0⟩
  rw [hglobal]
  unfold halfGlobal corner
  simp only [Prod.fst_add, Prod.snd_add, add_sub_cancel_right]
  constructor
  · intro hu
    obtain ⟨y, x, rfl, hy, hx, hcell⟩ := hu.exists
    unfold offPlane at hy hx hcell
    dsimp only at hy hx hcell ⊢
    rw [if_pos (by omega)]
    simpa using hcell
  · intro h0
    split_ifs at h0 with hin
    · obtain ⟨⟨hy0, hy1⟩, hx0, hx1⟩ := hin
      obtain ⟨y, hy⟩ := Int.eq_ofNat_of_zero_le hy0
      obtain ⟨x, hx⟩ := Int.eq_ofNat_of_zero_le hx0
      have ha : a = ((y : ℤ), (x : ℤ)) := Prod.ext hy hx
      subst ha
      dsimp only at hy1 hx1 h0
      refine (Plane.unset_nat ?_ ?_).mpr ?_
      · unfold offPlane
        dsimp only
        omega
      · unfold offPlane
        dsimp only
        omega
      · unfold offPlane
        simpa using h0
    · omega

def crossedAt (st : EngineState) (c : ℤ × ℤ) : Bool :=
  decide (st.canvas.box.Has (c.1 - st.canvas.cy0) (c.2 - st.canvas.cx0)) &&
    blocked (st.V (c.1 - st.canvas.cy0) (c.2 - st.canvas.cx0))

lemma crossedAt_iff (c : ℤ × ℤ) : crossedAt st c = true ↔ Blocked st c := by
  unfold crossedAt Blocked snapshot EngineState.global
  dsimp only
  split_ifs with hin
  · simp [hin]
  · have hunknown : blocked UNKNOWN = false := by decide
    simp [hin, hunknown]

lemma engine_spec (hnear : Indexes nearest) (hypot : ℚ → ℚ → ℚ) (hc : Consistent st) (hproper : Proper st)
    {x y : ℚ} (max_dist : Option ℚ) (hon : OnCanvas st (latticeOf x y)) (hsome : ∃ q, Navigable st q) :
    ∃ p, NearestTo st (latticeOf x y) p ∧
      LandsOn hypot st x y max_dist p (Blocked st) (engineSnap nearest hypot st x y max_dist) := by
  obtain ⟨q, hq⟩ := hsome
  obtain ⟨plane, hp, -⟩ := id hq
  obtain ⟨⟨hy0, hy1⟩, hx0, hx1⟩ := hon
  have hevy := hproper.even_y
  have hevx := hproper.even_x
  have hcy : (cellOf y - st.canvas.cy0) / 2 = (latticeOf x y).1 - st.canvas.cy0 / 2 := by
    unfold latticeOf
    dsimp only
    omega
  have hcx : (cellOf x - st.canvas.cx0) / 2 = (latticeOf x y).2 - st.canvas.cx0 / 2 := by
    unfold latticeOf
    dsimp only
    omega
  obtain ⟨cy, hcy'⟩ := Int.eq_ofNat_of_zero_le hy0
  obtain ⟨cx, hcx'⟩ := Int.eq_ofNat_of_zero_le hx0
  rw [hcy'] at hcy hy1
  rw [hcx'] at hcx hx1
  have hlat : ((cy : ℤ), (cx : ℤ)) + corner st = latticeOf x y := by
    unfold corner
    refine Prod.ext ?_ ?_
    · simp only [Prod.fst_add]
      omega
    · simp only [Prod.snd_add]
      omega
  have hunset : (offPlane st plane).Unset (q - corner st) := by
    rw [unset_iff hp, sub_add_cancel]
    exact hq
  obtain ⟨hset, hmin⟩ := hnear (offPlane st plane) ⟨_, hunset⟩ cy (by unfold offPlane; dsimp only; omega) cx
    (by unfold offPlane; dsimp only; omega)
  set cell := nearest (offPlane st plane) cy cx with hcell
  set p : ℤ × ℤ := ((cell.1 : ℤ), (cell.2 : ℤ)) + corner st with hpdef
  have hnav : Navigable st p := (unset_iff hp _).mp hset
  refine ⟨p, ⟨hnav, fun r hr => ?_⟩, ?_⟩
  · have hr' : (offPlane st plane).Unset (r - corner st) := by
      rw [unset_iff hp, sub_add_cancel]
      exact hr
    have hle := hmin _ hr'
    have hshift : ∀ a b : ℤ × ℤ, sqDist (a + corner st) (b + corner st) = sqDist a b :=
      fun a b => Planes.sqDist_shift
    calc sqDist (latticeOf x y) p = sqDist ((cy : ℤ), (cx : ℤ)) ((cell.1 : ℤ), (cell.2 : ℤ)) := by
          rw [← hlat, hpdef, hshift]
      _ ≤ sqDist ((cy : ℤ), (cx : ℤ)) (r - corner st) := hle
      _ = sqDist (latticeOf x y) r := by rw [← hshift, hlat, sub_add_cancel]
  · obtain ⟨hbox, -⟩ := hset
    unfold Plane.box offPlane Planes.Box.Has at hbox
    dsimp only at hbox
    have hglobal : halfGlobal st.canvas (-1) plane p.1 p.2 = plane cell.1 cell.2 := by
      unfold halfGlobal
      rw [hpdef]
      unfold corner
      simp only [Prod.fst_add, Prod.snd_add, add_sub_cancel_right]
      rw [if_pos (by omega)]
    obtain ⟨plane', hp', h0⟩ := id hnav
    obtain rfl : plane = plane' := Option.some.inj (hp.symm.trans hp')
    obtain ⟨k, hk, hkey⟩ := owner_of_plane hc hp h0
    rw [hglobal] at h0 hkey
    have hcentre : ((st.canvas.cx0 + 2 * cell.2 + 1) * RES,
        (st.canvas.cy0 + 2 * cell.1 + 1) * RES) = centre p := by
      obtain ⟨m, hm⟩ := hevx
      obtain ⟨n, hn⟩ := hevy
      unfold centre
      rw [hpdef]
      unfold corner
      rw [hm, hn, Int.mul_ediv_cancel_left _ two_ne_zero, Int.mul_ediv_cancel_left _ two_ne_zero]
      simp only [Prod.fst_add, Prod.snd_add]
      push_cast
      refine Prod.ext ?_ ?_ <;> ring
    obtain ⟨hpx, hpy⟩ := Prod.ext_iff.mp hcentre
    dsimp only at hpx hpy
    refine ⟨k, (onWay hypot x y p).any (crossedAt st), hk, ?_, ?_⟩
    · unfold engineSnap
      rw [hp]
      dsimp only
      rw [hcy, hcx, if_pos (by omega)]
      change (if plane cell.1 cell.2 < 0 then far else _) = _
      rw [if_neg (not_lt.mpr h0)]
      change (⟨if hypot ((st.canvas.cx0 + 2 * cell.2 + 1) * RES - x)
            ((st.canvas.cy0 + 2 * cell.1 + 1) * RES - y) ≤ limit st.params.chart_radius max_dist
          then st.keys[(plane cell.1 cell.2).toNat]?.map fmt else none,
        some ((st.canvas.cx0 + 2 * cell.2 + 1) * RES, (st.canvas.cy0 + 2 * cell.1 + 1) * RES),
        some (hypot ((st.canvas.cx0 + 2 * cell.2 + 1) * RES - x)
          ((st.canvas.cy0 + 2 * cell.1 + 1) * RES - y)),
        (samples x y ((st.canvas.cx0 + 2 * cell.2 + 1) * RES) ((st.canvas.cy0 + 2 * cell.1 + 1) * RES)
          (hypot ((st.canvas.cx0 + 2 * cell.2 + 1) * RES - x)
            ((st.canvas.cy0 + 2 * cell.1 + 1) * RES - y))).any (crossedAt st)⟩ : Snap) = _
      rw [hkey, hpx, hpy]
      rfl
    · simp only [any_eq_true, crossedAt_iff]

end Engine

section Agree
variable {codec : Codec} {cfg : Config} {indexed : Bool} {nearest : Plane Bool → ℕ → ℕ → ℕ × ℕ}

lemma openView_reads (hx : Codec.Exact codec) {s : Backend} {st : EngineState}
    (hs : AllNamed codec s.blobs) (hr : Represents codec st man) (hc : Consistent st)
    (hstored : ∀ n ∈ knownNames (some man), (s.blobs.get n).isSome) :
    Reads codec (openView s man none) st where
  represents := hr
  consistent := hc
  allowed := rfl
  tile t := by
    obtain ⟨o, ho, hshow⟩ := hr.tiles t
    unfold openView
    dsimp only
    cases hget : man.tiles.get t with
    | none =>
      rw [hget] at ho
      obtain rfl : o = none := Option.map_eq_none_iff.mp ho.symm
      exact ⟨none, rfl, hshow, fun h => by cases h⟩
    | some h =>
      rw [hget] at ho
      obtain ⟨a, rfl, ha⟩ := Option.map_eq_some_iff.mp ho.symm
      obtain ⟨b, hb⟩ := Option.isSome_iff_exists.mp (hstored _ (mem_known_tile hget))
      have hnamed := hs _ _ hb
      dsimp only
      rw [hb]
      cases b with
      | tile a' =>
        obtain rfl : a = a' := hx.tile (ha.trans (show codec.tile a' = h from hnamed).symm)
        exact ⟨some a, rfl, hshow, fun _ => rfl⟩
      | _ => exact hnamed.elim

lemma Chain.reads {ι : Type} [DecidableEq ι] (hx : Codec.Exact codec) {S : World ι} {σ : Shelf}
    (h : Chain codec cfg indexed S σ) {m : Meta} (hdoc : S.store.doc = some m)
    {version : Option ℕ} {n : Name} (hn : wantedName m version false = some n)
    {b : Body} (hb : S.store.blobs.get n = some (.manifest b)) (i : ι) :
    ∃ st man mem', σ n = some st ∧
      (manifest version false (S.memory i)).run (perform indexed) S.store = ((.ok man, mem'), S.store) ∧
      Reads codec (openView S.store man none) st := by
  obtain ⟨H, hS, hσ⟩ := h.ok hx
  obtain ⟨st, man, ps, hσn, hcons, hcont, he, hr⟩ := hσ n b (hS.store.stored n b hb).hist
  obtain ⟨man', ps', mem', hrun, rfl, hps, -⟩ :=
    @manifest_run codec indexed H S.store hS.store (S.memory i) (hS.memory i) m hdoc version false n hn b hb
  refine ⟨st, man', mem', hσn, hrun, ?_⟩
  refine openView_reads hx hS.store.named (represents_expands hx hr he hps hcont.symm) hcons fun k hk => ?_
  exact hps.known_stored hx hS.store.named (hS.store.stored n _ hb).complete hk

/-- The view of a stored version and the engine that was saved put a point on the same cell, at the same
distance and with the same key; what they say is crossed is the same exactly when a held cell on the way
comes with a blocked one. The view's loop ends, on a nearest navigable cell. -/
theorem snap_agrees_iff {ι : Type} [DecidableEq ι] (hx : Codec.Exact codec) (hnear : Indexes nearest)
    (hypot : ℚ → ℚ → ℚ) {S : World ι} {σ : Shelf} (h : Chain codec cfg indexed S σ) {m : Meta}
    (hdoc : S.store.doc = some m) {version : Option ℕ} {n : Name} (hn : wantedName m version false = some n)
    {b : Body} (hb : S.store.blobs.get n = some (.manifest b)) (i : ι) :
    ∃ st man mem', σ n = some st ∧
      (manifest version false (S.memory i)).run (perform indexed) S.store = ((.ok man, mem'), S.store) ∧
      (Proper st → ∀ x y max_dist, ∃ s N,
        (∀ fuel, N ≤ fuel → (openView S.store man none).snap hypot fuel x y max_dist = some (.ok s)) ∧
        (((∀ q, ¬Navigable st q) ∧ s = far) ∨
          ∃ p, NearestTo st (latticeOf x y) p ∧ s.place = some (centre p)) ∧
        ∀ p, OnCanvas st (latticeOf x y) → NearestTo st (latticeOf x y) p →
          (∀ q, NearestTo st (latticeOf x y) q → q = p) →
          s.place = some (centre p) ∧ (engineSnap nearest hypot st x y max_dist).place = some (centre p) ∧
            s.distance = (engineSnap nearest hypot st x y max_dist).distance ∧
            s.key = (engineSnap nearest hypot st x y max_dist).key ∧
            (s.crosses_blocked = (engineSnap nearest hypot st x y max_dist).crosses_blocked ↔
              ((∃ c ∈ onWay hypot x y p, HeldAt (openView S.store man none) c) →
                ∃ c ∈ onWay hypot x y p, Blocked st c))) := by
  obtain ⟨st, man, mem', hσ, hrun, hreads⟩ := Chain.reads hx h hdoc hn hb i
  refine ⟨st, man, mem', hσ, hrun, fun hproper x y max_dist => ?_⟩
  obtain ⟨s, N, hfuel, hs⟩ := hreads.snap_spec hypot hproper.lattice hproper.radius x y max_dist
  refine ⟨s, N, hfuel, ?_, fun p hon hp hunique => ?_⟩
  · refine hs.imp id ?_
    rintro ⟨p, hp, k, crosses, -, rfl, -⟩
    exact ⟨p, hp, rfl⟩
  · rcases hs with ⟨hnone, -⟩ | ⟨q, hq, k, crosses, hk, rfl, hiff⟩
    · exact absurd hp.1 (hnone p)
    · obtain rfl := hunique q hq
      obtain ⟨q', hq', k', crosses', hk', heq, hiff'⟩ :=
        engine_spec hnear hypot hreads.consistent hproper max_dist hon ⟨q, hq.1⟩
      obtain rfl := hunique q' hq'
      cases hk.symm.trans hk'
      rw [heq]
      refine ⟨rfl, rfl, rfl, rfl, ?_⟩
      change crosses = crosses' ↔ _
      rw [Bool.eq_iff_iff, hiff, hiff']
      constructor
      · rintro hsame ⟨c, hc, hheld⟩
        exact hsame.mp ⟨c, hc, Or.inl hheld⟩
      · intro hcond
        constructor
        · rintro ⟨c, hc, hheld | hblocked⟩
          · exact hcond ⟨c, hc, hheld⟩
          · exact ⟨c, hc, hblocked⟩
        · rintro ⟨c, hc, hblocked⟩
          exact ⟨c, hc, Or.inr hblocked⟩

end Agree

section Lane

def axisHypot (a b : ℚ) : ℚ := |a| + |b|

def firstNearest (p : Plane Bool) (y x : ℕ) : ℕ × ℕ :=
  ((((List.range p.H).flatMap fun r => (List.range p.W).map fun c => (r, c)).filter
    fun a => !p.cell a.1 a.2).argmin fun a =>
      (sqDist ((y : ℤ), (x : ℤ)) ((a.1 : ℤ), (a.2 : ℤ))).toNat).getD (0, 0)

lemma firstNearest_indexes : Indexes firstNearest := by
  intro p hsome y _ x _
  have hmem : ∀ a : ℕ × ℕ,
      a ∈ ((List.range p.H).flatMap fun r => (List.range p.W).map fun c => (r, c)).filter
        (fun a => !p.cell a.1 a.2) ↔ p.Unset ((a.1 : ℤ), (a.2 : ℤ)) := by
    intro a
    simp only [mem_filter, mem_flatMap, mem_map, mem_range]
    constructor
    · rintro ⟨⟨r, hr, c, hc, rfl⟩, hcell⟩
      exact (Plane.unset_nat hr hc).mpr (by simpa using hcell)
    · intro hu
      obtain ⟨r, c, ha, hr, hc, hcell⟩ := hu.exists
      obtain ⟨h₁, h₂⟩ := Prod.ext_iff.mp ha
      dsimp only at h₁ h₂
      have heq : a = (r, c) := Prod.ext (by omega) (by omega)
      subst heq
      exact ⟨⟨r, hr, c, hc, rfl⟩, by simp [hcell]⟩
  unfold firstNearest
  cases hmin : (((List.range p.H).flatMap fun r => (List.range p.W).map fun c => (r, c)).filter
      fun a => !p.cell a.1 a.2).argmin fun a =>
        (sqDist ((y : ℤ), (x : ℤ)) ((a.1 : ℤ), (a.2 : ℤ))).toNat with
  | none =>
    obtain ⟨c, hc⟩ := hsome
    obtain ⟨r, k, rfl, -⟩ := hc.exists
    have hin := (hmem (r, k)).mpr hc
    rw [argmin_eq_none.mp hmin] at hin
    cases hin
  | some a =>
    refine ⟨(hmem a).mp (argmin_mem hmin), fun c hc => ?_⟩
    obtain ⟨r, k, rfl, -⟩ := hc.exists
    have hle := le_of_mem_argmin ((hmem (r, k)).mpr hc) hmin
    have hpos := Planes.sqDist_nonneg ((y : ℤ), (x : ℤ)) ((r : ℤ), (k : ℤ))
    simp only [Option.getD_some]
    dsimp only at hle
    omega

/-- A free lane of three lattice cells, the last of which is a chart; one costmap cell of the way there is
held blocked. -/
def laneState : EngineState :=
  { emptyState 1 with
    params := ⟨1 / 5, 1 / 10, 2, some 1, some (1 / 10), none, none, by simp, by norm_num, none_both,
      none_place⟩
    canvas := ⟨0, 0, 2, 6⟩
    V := fun _ _ => 0
    T := fun _ _ => 5
    Fn := some fun _ _ => 3
    Bn := some fun _ x => if x = 3 then 4 else -1
    Hold := some fun _ x => decide (x = 3)
    Val := some fun _ _ => true
    keys := [("a", 1)]
    plane := some fun _ x => if x = 2 then 0 else -1 }

def laneSave : SaveCall :=
  { emptySave 1 none with
    state := some laneState
    charts := [⟨"a:1", (1 / 4, 1 / 20), 1, 1 / 100, 1 / 10, 0, 0, none, .empty, 1, 0⟩] }

lemma laneState_consistent : Consistent laneState := by
  have hknown : ∀ y x, laneState.V y x ≠ UNKNOWN := by
    intro y x
    change (0 : U8) ≠ UNKNOWN
    decide
  refine ⟨fun y x _ h => absurd h (hknown y x), fun y x _ h => absurd h (hknown y x),
    fun a _ y x _ h => absurd h (hknown y x), fun a _ y x _ h => absurd h (hknown y x),
    fun a _ y x _ h => absurd h (hknown y x), fun name c h => ?_, fun h => ?_, fun h => ?_,
      fun a ha y x _ => ?_⟩
  · cases h
  · cases h
  · cases h
  · cases ha
    change -1 ≤ (if x = 2 then (0 : ℤ) else -1) ∧ (if x = 2 then (0 : ℤ) else -1) < 1
    split_ifs <;> norm_num

lemma laneState_proper : Proper laneState := by
  refine ⟨by decide, by decide, ?_, ?_⟩
  · change (0 : ℚ) < 1 / 10
    norm_num
  · change (0 : ℚ) ≤ 2
    norm_num

noncomputable def laneWorld : World Bool :=
  (World.fresh Bool).call exactCodec lazyConfig false true (.save laneSave)

lemma laneWorld_saved : ∃ σ m n b, Chain exactCodec lazyConfig false laneWorld σ ∧
    laneWorld.store.doc = some m ∧ wantedName m none false = some n ∧
    laneWorld.store.blobs.get n = some (.manifest b) ∧ σ n = some laneState := by
  have hcov : Covered (fun _ => none) (World.fresh Bool).store (.save laneSave) := by
    intro st hst
    cases hst
    refine ⟨laneState_consistent, fun gen pend n st0 _ _ h => ?_⟩
    cases h
  have hcharts : ∀ k ∈ laneState.keys.map fmt, (chartOf laneSave.charts k).isSome := by
    intro k hk
    obtain rfl := mem_singleton.mp hk
    decide
  obtain ⟨m, b, hok, -⟩ := @charted_save exactCodec lazyConfig false (fun _ => none)
    (World.fresh Bool).store ((World.fresh Bool).memory true) exactCodec_exact
    (WorldOk.fresh exactCodec Bool).store (MemOk.blank exactCodec _) rfl laneSave
    laneState rfl hcharts rfl rfl rfl rfl (by simp [World.fresh, Backend.empty])
  rw [← result_save exactCodec lazyConfig false (World.fresh Bool) true laneSave] at hok
  have hfresh : Chain exactCodec lazyConfig false (World.fresh Bool) fun _ => none := .fresh
  have hchain := hfresh.call true (.save laneSave) trivial hcov
  rw [hok] at hchain
  obtain ⟨m', n, b', hdoc, hn, hb, hrec⟩ :=
    saved_stored exactCodec_exact hfresh true (show saveTarget _ laneSave = .ok (1, none) from rfl) hok
  exact ⟨_, m', n, b', hchain, hdoc, hn, hb, hrec⟩

lemma lane_navigable (q : ℤ × ℤ) : Navigable laneState q ↔ q = (0, 2) := by
  obtain ⟨y, x⟩ := q
  have hplane : Navigable laneState (y, x) ↔
      0 ≤ halfGlobal laneState.canvas (-1) (fun _ x => if x = 2 then 0 else -1) y x := by
    constructor
    · rintro ⟨plane, hp, h0⟩
      cases hp
      exact h0
    · exact fun h0 => ⟨_, rfl, h0⟩
  rw [hplane]
  unfold halfGlobal
  change (0 ≤ if (0 ≤ y - 0 / 2 ∧ y - 0 / 2 < (2 / 2 : ℕ)) ∧ (0 ≤ x - 0 / 2 ∧ x - 0 / 2 < (6 / 2 : ℕ)) then
    (if x - 0 / 2 = 2 then (0 : ℤ) else -1) else -1) ↔ _
  rw [Prod.mk.injEq]
  split_ifs <;> omega

lemma lane_nearest (c : ℤ × ℤ) :
    NearestTo laneState c (0, 2) ∧ ∀ q, NearestTo laneState c q → q = (0, 2) := by
  refine ⟨⟨(lane_navigable _).mpr rfl, fun q hq => ?_⟩, fun q hq => (lane_navigable q).mp hq.1⟩
  rw [(lane_navigable q).mp hq]

/-- A free point of the lane lands on its chart, in the engine and in the view. -/
theorem snap_agrees_iff_lane : ∃ man mem' s N,
    (manifest none false (laneWorld.memory true)).run (perform false) laneWorld.store =
      ((.ok man, mem'), laneWorld.store) ∧
    (∀ fuel, N ≤ fuel →
      (openView laneWorld.store man none).snap axisHypot fuel (1 / 20) (1 / 20) none = some (.ok s)) ∧
    s.place = some (centre (0, 2)) ∧
    s.key = (engineSnap firstNearest axisHypot laneState (1 / 20) (1 / 20) none).key := by
  obtain ⟨σ, m, n, b, hchain, hdoc, hn, hb, hσ⟩ := laneWorld_saved
  obtain ⟨st, man, mem', hst, hrun, hagree⟩ :=
    snap_agrees_iff exactCodec_exact firstNearest_indexes axisHypot hchain hdoc hn hb true
  obtain rfl : laneState = st := Option.some.inj (hσ.symm.trans hst)
  obtain ⟨s, N, hfuel, -, hcell⟩ := hagree laneState_proper (1 / 20) (1 / 20) none
  obtain ⟨hplace, -, -, hkey, -⟩ :=
    hcell (0, 2) (by unfold OnCanvas; decide +kernel) (lane_nearest _).1 (lane_nearest _).2
  exact ⟨man, mem', s, N, hrun, hfuel, hplace, hkey⟩

/-- The cell that the rule holds blocked is crossed for the view, and not for the engine. -/
theorem held_crossed : ∃ man mem' s N,
    (manifest none false (laneWorld.memory true)).run (perform false) laneWorld.store =
      ((.ok man, mem'), laneWorld.store) ∧
    (∀ fuel, N ≤ fuel →
      (openView laneWorld.store man none).snap axisHypot fuel (1 / 20) (1 / 20) none = some (.ok s)) ∧
    OnCanvas laneState (latticeOf (1 / 20) (1 / 20)) ∧
    NearestTo laneState (latticeOf (1 / 20) (1 / 20)) (0, 2) ∧
    (∀ q, NearestTo laneState (latticeOf (1 / 20) (1 / 20)) q → q = (0, 2)) ∧
    s.crosses_blocked = true ∧
    (engineSnap firstNearest axisHypot laneState (1 / 20) (1 / 20) none).crosses_blocked = false := by
  obtain ⟨σ, m, n, b, hchain, hdoc, hn, hb, hσ⟩ := laneWorld_saved
  obtain ⟨st, man, mem', hst, hrun, hreads⟩ := Chain.reads exactCodec_exact hchain hdoc hn hb true
  obtain rfl : laneState = st := Option.some.inj (hσ.symm.trans hst)
  obtain ⟨s, N, hfuel, hs⟩ := hreads.snap_spec axisHypot laneState_proper.lattice laneState_proper.radius
    (1 / 20) (1 / 20) none
  refine ⟨man, mem', s, N, hrun, hfuel, by unfold OnCanvas; decide +kernel, (lane_nearest _).1,
    (lane_nearest _).2,
    ?_, by decide +kernel⟩
  rcases hs with ⟨hnone, -⟩ | ⟨p, hp, k, crosses, -, rfl, hiff⟩
  · exact absurd (lane_nearest (0, 0)).1.1 (hnone _)
  · obtain rfl := (lane_nearest _).2 p hp
    refine hiff.mpr ⟨(1, 3), by decide +kernel, Or.inl ?_⟩
    exact hreads.held_of_hold (by decide) (by decide) (by decide)

end Lane

end CloudServer.Snapping
