import CloudServer.StoreLoad
import CloudServer.StoreRepresent
import CloudServer.StoreRetain

/-! Loading what was saved: the planes agree at every global cell and the owner plane names
the same charts. -/
namespace CloudServer.StoreRoundTrip
open SceneLeaf SceneFold SceneApi StoreTiles StoreSave StoreOps StoreObjects StoreExpand StoreRun
open StoreHistory StoreSequence StoreCalls StoreRetain StoreSnapshot StoreRepresent StoreLoad List
open StoreCodec Interact Dict

section Cells

lemma exists_cellF (y : ℤ) : ∃ (t : ℤ) (r : Fin TILE_F), y = cellF t r :=
  ⟨y / 128, ⟨(y % 128).toNat, by unfold TILE_F; omega⟩, by
    unfold cellF TILE_F
    dsimp only
    omega⟩

lemma exists_cellL (y : ℤ) : ∃ (t : ℤ) (r : Fin TILE_L), y = cellL t r :=
  ⟨y / 64, ⟨(y % 64).toNat, by unfold TILE_L; omega⟩, by
    unfold cellL TILE_L
    dsimp only
    omega⟩

variable {xs : List ℤ}

lemma lowest_le {x : ℤ} (h : x ∈ xs) : lowest xs ≤ x := by
  have key : ∀ (xs : List ℤ) (a : ℤ), x ∈ xs → xs.foldr min a ≤ x := by
    intro xs a
    induction xs with
    | nil => simp
    | cons z xs ih =>
      intro hm
      rcases mem_cons.mp hm with rfl | hm
      · exact min_le_left _ _
      · exact le_trans (min_le_right _ _) (ih hm)
  exact key xs _ h

lemma le_highest {x : ℤ} (h : x ∈ xs) : x ≤ highest xs := by
  have key : ∀ (xs : List ℤ) (a : ℤ), x ∈ xs → x ≤ xs.foldr max a := by
    intro xs a
    induction xs with
    | nil => simp
    | cons z xs ih =>
      intro hm
      rcases mem_cons.mp hm with rfl | hm
      · exact le_max_left _ _
      · exact le_trans (ih hm) (le_max_right _ _)
  exact key xs _ h

end Cells

def loadCanvas (tiles : List (Coord × Tile)) : Canvas :=
  let xs := tiles.map fun e => (ofLex e.1).1
  let ys := tiles.map fun e => (ofLex e.1).2
  ⟨lowest xs * TILE_F, lowest ys * TILE_F, (highest ys - lowest ys + 1).toNat * TILE_F,
    (highest xs - lowest xs + 1).toNat * TILE_F⟩

variable {α : Type}

section Paste
variable {tiles : List (Coord × Tile)}

lemma range_of_find {t : Coord} {tile : Tile} (h : Dict.find tiles t = some tile) (hnd : (tiles.map Prod.fst).Nodup) :
    (lowest (tiles.map fun e => (ofLex e.1).1) ≤ (ofLex t).1 ∧ (ofLex t).1 ≤ highest (tiles.map fun e => (ofLex e.1).1)) ∧
    (lowest (tiles.map fun e => (ofLex e.1).2) ≤ (ofLex t).2 ∧ (ofLex t).2 ≤ highest (tiles.map fun e => (ofLex e.1).2)) := by
  have hmem := (mem_iff_find hnd).mpr h
  have hx : (ofLex t).1 ∈ tiles.map fun e => (ofLex e.1).1 := mem_map.mpr ⟨_, hmem, rfl⟩
  have hy : (ofLex t).2 ∈ tiles.map fun e => (ofLex e.1).2 := mem_map.mpr ⟨_, hmem, rfl⟩
  exact ⟨⟨lowest_le hx, le_highest hx⟩, lowest_le hy, le_highest hy⟩

lemma pasted_global (st : EngineState) (hcv : st.canvas = loadCanvas tiles)
    (hnd : (tiles.map Prod.fst).Nodup) (plane : Tile → Option (Square TILE_F α)) (fill : α)
    (t : Coord) (r c : Fin TILE_F) :
    st.global fill (pasteAll (lowest (tiles.map fun e => (ofLex e.1).1))
        (lowest (tiles.map fun e => (ofLex e.1).2)) plane fill tiles)
        (cellF (ofLex t).2 r) (cellF (ofLex t).1 c) =
      ((Dict.find tiles t).bind plane).elim fill fun sq => sq r c := by
  have hcell := pasteAll_cell (lowest (tiles.map fun e => (ofLex e.1).1))
    (lowest (tiles.map fun e => (ofLex e.1).2)) plane fill hnd t r c
  unfold EngineState.global
  rw [hcv]
  have hr : (r : ℕ) < 128 := r.isLt
  have hc : (c : ℕ) < 128 := c.isLt
  split_ifs with hin
  · rw [← hcell]
    congr 1 <;> unfold loadCanvas cellF <;> ring
  · cases hf : Dict.find tiles t with
    | none => rfl
    | some tile =>
      obtain ⟨⟨h1, h2⟩, h3, h4⟩ := range_of_find hf hnd
      refine absurd ?_ hin
      unfold loadCanvas cellF Canvas.box Box.Has TILE_F
      dsimp only
      push_cast
      omega

lemma pasted_lattice (hnd : (tiles.map Prod.fst).Nodup)
    (plane : Tile → Option (Square TILE_L α)) (fill : α) (t : Coord) (r c : Fin TILE_L) :
    halfGlobal (loadCanvas tiles) fill (pasteAll (lowest (tiles.map fun e => (ofLex e.1).1))
        (lowest (tiles.map fun e => (ofLex e.1).2)) plane fill tiles)
        (cellL (ofLex t).2 r) (cellL (ofLex t).1 c) =
      ((Dict.find tiles t).bind plane).elim fill fun sq => sq r c := by
  have hcell := pasteAll_cell (lowest (tiles.map fun e => (ofLex e.1).1))
    (lowest (tiles.map fun e => (ofLex e.1).2)) plane fill hnd t r c
  have hr : (r : ℕ) < 64 := r.isLt
  have hc : (c : ℕ) < 64 := c.isLt
  unfold halfGlobal
  split_ifs with hin
  · rw [← hcell]
    congr 1 <;> unfold loadCanvas cellL TILE_F TILE_L <;> push_cast <;> omega
  · cases hf : Dict.find tiles t with
    | none => rfl
    | some tile =>
      obtain ⟨⟨h1, h2⟩, h3, h4⟩ := range_of_find hf hnd
      refine absurd ?_ hin
      unfold loadCanvas cellL TILE_F TILE_L
      dsimp only
      push_cast
      omega

end Paste

section Owner
variable {codec : Codec} {man : Manifest} {st : EngineState}
variable {ch : ChartDoc} {cs : List ChartDoc}

lemma byId_get {i : ℕ}
    (h : (Dict.ofList (cs.map fun c => (c.id, c))).get i = some ch) : ch ∈ cs ∧ ch.id = i := by
  rcases get_update (.empty : Dict ℕ ChartDoc) (cs.map fun c => (c.id, c)) i with
    ⟨-, hg⟩ | ⟨v, hv, hg⟩
  · rw [Dict.ofList, hg] at h
    simp at h
  · rw [Dict.ofList, hg] at h
    cases h
    obtain ⟨c, hc, he⟩ := mem_map.mp hv
    cases he
    exact ⟨hc, rfl⟩

lemma orderedCharts_mem (h : ch ∈ orderedCharts man) : ch ∈ man.charts := by
  unfold orderedCharts at h
  dsimp only at h
  split_ifs at h
  · obtain ⟨i, -, hi⟩ := mem_filterMap.mp h
    exact (byId_get hi).1
  · exact h

lemma orderedCharts_id (h : ch ∈ man.charts) :
    ∃ ch' ∈ orderedCharts man, ch'.id = ch.id := by
  unfold orderedCharts
  dsimp only
  split_ifs with hord
  · have hkey : ch.id ∈ (Dict.ofList (man.charts.map fun c => (c.id, c))).keys := by
      unfold Dict.ofList
      rw [mem_keys_update]
      refine .inr (mem_map.mpr ⟨(ch.id, ch), mem_map.mpr ⟨ch, h, rfl⟩, rfl⟩)
    obtain ⟨ch', hch'⟩ := mem_keys.mp hkey
    exact ⟨ch', mem_filterMap.mpr ⟨ch.id, hord.2.2.2 _ hkey, hch'⟩, (byId_get hch').2⟩
  · exact ⟨ch, h, rfl⟩

lemma idToIdx_get {i j : ℕ} (h : (idToIdx cs).get i = some j) :
    ∃ ch, cs[j]? = some ch ∧ ch.id = i := by
  unfold idToIdx at h
  rcases get_update (.empty : Dict ℕ ℕ) (cs.zipIdx.map fun e => (e.1.id, e.2)) i with
    ⟨-, hg⟩ | ⟨v, hv, hg⟩
  · rw [Dict.ofList, hg] at h
    simp at h
  · rw [Dict.ofList, hg] at h
    cases h
    obtain ⟨⟨ch, k⟩, hc, he⟩ := mem_map.mp hv
    cases he
    exact ⟨ch, mk_mem_zipIdx_iff_getElem?.mp hc, rfl⟩

lemma idToIdx_mem (h : ch ∈ cs) :
    ch.id ∈ (idToIdx cs).keys := by
  obtain ⟨j, hj⟩ := mem_iff_getElem?.mp h
  unfold idToIdx Dict.ofList
  rw [mem_keys_update]
  refine .inr (mem_map.mpr ⟨(ch.id, j), mem_map.mpr ⟨(ch, j), ?_, rfl⟩, rfl⟩)
  exact mk_mem_zipIdx_iff_getElem?.mpr hj

lemma owner_of_id (h : Represents codec st man) {owner : Option (String × ℕ)} {id : ℕ} (hn : Names man.key_ids.get owner id) :
    keyAt ((orderedCharts man).map fun c => parse c.key) (indexOf (idToIdx (orderedCharts man)) id) = owner := by
  cases owner with
  | none =>
    obtain rfl : id = 0 := hn
    simp [indexOf, keyAt]
  | some k =>
    obtain ⟨hk, hpos⟩ := hn
    obtain ⟨ch, hch, hkey, rfl⟩ := h.listed _ _ hk
    obtain ⟨ch', hch', hid⟩ := orderedCharts_id hch
    have hmem : ch.id ∈ (idToIdx (orderedCharts man)).keys := hid ▸ idToIdx_mem hch'
    obtain ⟨j, hj⟩ := mem_keys.mp hmem
    obtain ⟨ch2, hget, hid2⟩ := idToIdx_get hj
    have hsame : ch2.key = fmt k := by
      have h2 := h.charts ch2 (orderedCharts_mem (mem_of_getElem? hget))
      rw [hid2] at h2
      exact h.inj _ _ _ h2 hk
    have hmin : min ch.id ((idToIdx (orderedCharts man)).keys.foldr max 0) = ch.id :=
      min_eq_left (le_foldr_max hmem)
    unfold indexOf
    rw [if_pos hpos, hmin, hj]
    simp [keyAt, List.getElem?_map, hget, hsame, parse_fmt]

end Owner

section Assemble
variable {codec : Codec} {man : Manifest} {st : EngineState} {tiles : List (Coord × Tile)}

lemma snapshot_of_tiles {a b : Snapshot} (h : ∀ t, SameOn t a b) : a = b := by
  have hfull : ∀ y x, AgreeAt a b y x := by
    intro y x
    obtain ⟨ty, r, rfl⟩ := exists_cellF y
    obtain ⟨tx, c, rfl⟩ := exists_cellF x
    exact (h (coord tx ty)).full r c
  have hhalf : ∀ y x, AgreeLattice a b y x := by
    intro y x
    obtain ⟨ty, r, rfl⟩ := exists_cellL y
    obtain ⟨tx, c, rfl⟩ := exists_cellL x
    exact (h (coord tx ty)).half r c
  refine Snapshot.ext ?_ ?_ ?_ ?_ ?_ ?_ ?_ ?_ ?_
  · exact funext₂ fun y x => (hfull y x).1
  · exact funext₂ fun y x => (hfull y x).2.1
  · exact funext₂ fun y x => (hfull y x).2.2.1
  · exact funext₂ fun y x => (hfull y x).2.2.2.1
  · exact funext₂ fun y x => (hfull y x).2.2.2.2.1
  · exact funext₂ fun y x => (hfull y x).2.2.2.2.2.1
  · exact funext₂ fun y x => (hhalf y x).1
  · exact funext fun name => funext₂ fun y x => (hfull y x).2.2.2.2.2.2 name
  · exact funext₂ fun y x => (hhalf y x).2

lemma blank_same {ids : Key → Option ℕ} {t : Coord} (h : Shows (snapshot st) ids (ofLex t).1 (ofLex t).2 none) :
    SameOn t Snapshot.blank (snapshot st) := by
  refine ⟨fun r c => ?_, fun r c => ?_⟩
  · exact ⟨h.v r c, h.t r c, h.b r c, h.fn r c, h.bn r c, h.hold r c, fun name => h.chan name r c⟩
  · refine ⟨h.val r c, ?_⟩
    have hown := h.own r c
    cases ho : (snapshot st).owner (cellL (ofLex t).2 r) (cellL (ofLex t).1 c) with
    | none => rfl
    | some k =>
      rw [ho] at hown
      exact absurd hown.2 (lt_irrefl _)

variable {β : Type}

lemma halfGlobal_map (f : α → β) (cv : Canvas) (fill : α) {fill' : β}
    (hf : f fill = fill') (a : Cells α) (y x : ℤ) :
    halfGlobal cv fill' (fun y x => f (a y x)) y x = f (halfGlobal cv fill a y x) := by
  unfold halfGlobal
  split_ifs
  · rfl
  · exact hf.symm

lemma tabled_get (names : List String) (f : String → α) (name : String) :
    (Dict.ofList (names.map fun n => (n, f n))).get name =
      if name ∈ names then some (f name) else none := by
  split_ifs with hn
  · refine get_ofList (fun e he hek => ?_) ?_
    · obtain ⟨n, -, rfl⟩ := mem_map.mp he
      rw [← hek]
    · simpa [Function.comp_def] using hn
  · refine get_ofList_none ?_
    simpa [Function.comp_def] using hn

lemma assemble_snapshot (h : Represents codec st man) (hc : Consistent st) (hnd : (tiles.map Prod.fst).Nodup)
    (hshow : ∀ t, Shows (snapshot st) man.key_ids.get (ofLex t).1 (ofLex t).2 (Dict.find tiles t))
    (leaves : List LeafRecord) :
    (assemble man tiles leaves).elim Snapshot.blank snapshot = snapshot st := by
  refine snapshot_of_tiles fun t => ?_
  by_cases hnil : tiles = []
  · subst hnil
    exact blank_same (hshow t)
  · have hs := hshow t
    have hbind : ∀ {α β : Type} (o : Option Tile) (f : Tile → Option α) (g : α → β) (fill : β),
        (o.bind f).elim fill g = o.elim fill fun tile => (f tile).elim fill g := by
      intro α β o f g fill
      cases o <;> rfl
    have hnear : ¬man.body.params.near_range_m.isSome = true → st.params.near_range_m = none := by
      intro hn
      rw [← h.params]
      simpa using hn
    unfold assemble
    rw [if_neg hnil, Option.elim_some]
    refine ⟨fun r c => ⟨?_, ?_, ?_, ?_, ?_, ?_, fun name => ?_⟩, fun r c => ⟨?_, ?_⟩⟩
    · rw [← hs.v r c]
      exact (pasted_global _ rfl hnd (fun t => some t.v) UNKNOWN t r c).trans (hbind _ _ _ _)
    · rw [← hs.t r c]
      exact (pasted_global _ rfl hnd (fun t => some t.t) (-1) t r c).trans (hbind _ _ _ _)
    · rw [← hs.b r c]
      exact (pasted_global _ rfl hnd (fun t => some t.b) (-1) t r c).trans (hbind _ _ _ _)
    · by_cases hn : man.body.params.near_range_m.isSome
      · rw [← hs.fn r c]
        simp only [snapshot, if_pos hn]
        exact pasted_global _ rfl hnd Tile.fn (-1) t r c
      · simp [snapshot, hn, (hc.near (hnear hn)).1]
    · by_cases hn : man.body.params.near_range_m.isSome
      · rw [← hs.bn r c]
        simp only [snapshot, if_pos hn]
        exact pasted_global _ rfl hnd Tile.bn (-1) t r c
      · simp [snapshot, hn, (hc.near (hnear hn)).2.1]
    · by_cases hn : man.body.params.near_min_clearance_m.isSome
      · rw [← hs.hold r c]
        simp only [snapshot, if_pos hn]
        exact pasted_global _ rfl hnd Tile.hold false t r c
      · have hnone : st.params.near_min_clearance_m = none := by
          rw [← h.params]
          simpa using hn
        simp [snapshot, hn, hc.clearance hnone]
    · simp only [snapshot]
      rw [tabled_get]
      by_cases hn : name ∈ man.body.channels
      · rw [if_pos hn, Option.elim_some, show (st.chan.get name).elim (UNKNOWN, -1) _ =
          (snapshot st).chan name (cellF (ofLex t).2 r) (cellF (ofLex t).1 c) from rfl,
          ← hs.chan name r c]
        refine Prod.ext ?_ ?_
        · refine (pasted_global _ rfl hnd (fun t => (t.chans.get name).map Prod.fst) UNKNOWN t r c).trans ?_
          cases Dict.find tiles t with
          | none => rfl
          | some tile => cases hg : tile.chans.get name <;> simp [hg]
        · refine (pasted_global _ rfl hnd (fun t => (t.chans.get name).map Prod.snd) (-1) t r c).trans ?_
          cases Dict.find tiles t with
          | none => rfl
          | some tile => cases hg : tile.chans.get name <;> simp [hg]
      · rw [if_neg hn]
        rw [h.channels, ← get_eq_none] at hn
        rw [hn]
        rfl
    · by_cases hn : man.body.params.near_range_m.isSome
      · rw [← hs.val r c]
        simp only [snapshot, if_pos hn]
        exact pasted_lattice hnd Tile.val false t r c
      · simp [snapshot, hn, (hc.near (hnear hn)).2.2]
    · refine (congrArg (keyAt _) ?_).trans (owner_of_id h (hs.own r c))
      have hzero : indexOf (idToIdx (orderedCharts man)) 0 = -1 := by simp [indexOf]
      exact (halfGlobal_map _ (loadCanvas tiles) 0 hzero _ _ _).trans
        (congrArg _ (pasted_lattice hnd Tile.own 0 t r c))

end Assemble

section Load
variable {codec : Codec} {indexed : Bool} {H : History} {s : Backend}

lemma readTiles_run (hs : AllNamed codec s.blobs) {g : ℕ} {es : List (Coord × Hash)}
    (h : ∀ e ∈ es, (s.blobs.get (.tile g e.2)).isSome) :
    ∃ ts : List (Coord × Tile), (readTiles g es).run (perform indexed) s = (.ok ts, s) ∧
      es = ts.map fun e => (e.1, codec.tile e.2) := by
  induction es with
  | nil => exact ⟨[], rfl, rfl⟩
  | cons e es ih =>
    obtain ⟨ts, hrun, hts⟩ := ih fun d hd => h d (mem_cons_of_mem _ hd)
    obtain ⟨o, ho⟩ := Option.isSome_iff_exists.mp (h e mem_cons_self)
    have hn := hs _ _ ho
    cases o with
    | tile t =>
      refine ⟨(e.1, t) :: ts, ?_, ?_⟩
      · unfold readTiles
        rw [run_get, ho]
        dsimp only
        rw [Prog.run_bind, hrun]
        rfl
      · rw [map_cons, ← hts, show codec.tile t = e.2 from hn]
    | _ => exact hn.elim

lemma readSegments_run (hs : AllNamed codec s.blobs) {g : ℕ} {hashes : List Hash}
    (h : ∀ h ∈ hashes, (s.blobs.get (.segment g h)).isSome) :
    ∃ rows, (readSegments g hashes).run (perform indexed) s = (.ok rows, s) := by
  induction hashes with
  | nil => exact ⟨[], rfl⟩
  | cons a hashes ih =>
    obtain ⟨rows, hrun⟩ := ih fun d hd => h d (mem_cons_of_mem _ hd)
    obtain ⟨o, ho⟩ := Option.isSome_iff_exists.mp (h a mem_cons_self)
    have hn := hs _ _ ho
    cases o with
    | segment r =>
      refine ⟨r ++ rows, ?_⟩
      unfold readSegments
      rw [run_get, ho]
      dsimp only
      rw [Prog.run_bind, hrun]
      rfl
    | _ => exact hn.elim

lemma find_map_hash (ts : List (Coord × Tile)) (t : Coord) :
    Dict.find (ts.map fun e => (e.1, codec.tile e.2)) t = (Dict.find ts t).map codec.tile :=
  find_map (fun _ => codec.tile) ts t

lemma load_run (hx : Codec.Exact codec) (hs : StoreOk codec H s) {mem : Memory}
    (hM : MemOk codec H mem) {m : Meta} (hdoc : s.doc = some m) {version : Option ℕ} {pend : Bool}
    {n : Name} (hn : wantedName m version pend = some n) {b : Body}
    (hb : s.blobs.get n = some (.manifest b)) {st : EngineState} (hc : Consistent st)
    (hrep : ∀ man ps, man.body = b → Expands codec man ps → Represents codec st man) :
    ∃ loaded mem', (load version pend mem).run (perform indexed) s = ((.ok loaded, mem'), s) ∧
      loaded.elim Snapshot.blank snapshot = snapshot st := by
  obtain ⟨man, ps, mem', hrun, rfl, hps, -⟩ :=
    @manifest_run codec indexed H s hs mem hM m hdoc version pend n hn b hb
  have hr := hrep man ps rfl hps
  have hcomp := (hs.stored n _ hb).complete
  obtain ⟨ts, hts, hmap⟩ := @readTiles_run codec indexed s hs.named man.body.generation
    man.tiles.items fun e he => hps.known_stored hx hs.named hcomp
      (mem_known_tile (mem_items.mp (show (e.1, e.2) ∈ man.tiles.items from he)))
  obtain ⟨rows, hrows⟩ := @readSegments_run codec indexed s hs.named man.body.generation
    man.body.segments hcomp.segments
  have hnd : (ts.map Prod.fst).Nodup := by
    have := man.tiles.nodup
    rw [hmap, map_map] at this
    exact this
  have hshow : ∀ t, Shows (snapshot st) man.key_ids.get (ofLex t).1 (ofLex t).2 (Dict.find ts t) := by
    intro t
    obtain ⟨o, ho, hshow⟩ := hr.tiles t
    have hfind : (Dict.find ts t).map codec.tile = o.map codec.tile := by
      rw [← ho, ← find_map_hash, ← hmap]
      rfl
    rw [Option.map_injective hx.tile hfind]
    exact hshow
  have hsnap := assemble_snapshot hr hc hnd hshow
  unfold load
  rw [Prog.run_bind, hrun]
  dsimp only
  rw [if_neg (by rw [hr.pipeline, hr.params]; exact not_not.mpr rfl), Prog.run_bind, hts]
  dsimp only
  by_cases hnil : ts = []
  · rw [if_pos hnil]
    refine ⟨none, mem', rfl, ?_⟩
    rw [← hsnap []]
    unfold assemble
    rw [if_pos hnil]
  · rw [if_neg hnil, Prog.run_bind, hrows]
    exact ⟨_, mem', rfl, hsnap rows⟩

end Load
end CloudServer.StoreRoundTrip
