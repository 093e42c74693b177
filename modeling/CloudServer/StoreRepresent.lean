import CloudServer.StoreExpand
import CloudServer.StoreSnapshot

/-! A manifest represents an engine state: its tiles show the planes and its ids name the
charts. A draft over a base that represents the state before the dirty tiles changed
represents the state it was made from. -/
namespace CloudServer.StoreRepresent
open SceneLeaf SceneFold SceneApi StoreTiles StoreSave StoreOps StoreObjects StoreExpand List
open StoreSnapshot

def AgreeAt (a b : Snapshot) (y x : ℤ) : Prop :=
  a.v y x = b.v y x ∧ a.t y x = b.t y x ∧ a.b y x = b.b y x ∧ a.fn y x = b.fn y x ∧
    a.bn y x = b.bn y x ∧ a.hold y x = b.hold y x ∧ ∀ name, a.chan name y x = b.chan name y x

def AgreeLattice (a b : Snapshot) (y x : ℤ) : Prop :=
  a.val y x = b.val y x ∧ a.owner y x = b.owner y x

structure SameOn (t : Coord) (a b : Snapshot) : Prop where
  full : ∀ r c : Fin TILE_F, AgreeAt a b (cellF (ofLex t).2 r) (cellF (ofLex t).1 c)
  half : ∀ r c : Fin TILE_L, AgreeLattice a b (cellL (ofLex t).2 r) (cellL (ofLex t).1 c)

def Shown (codec : Codec) (sn : Snapshot) (ids : Key → Option ℕ) (t : Coord) (h : Option Hash) :
    Prop :=
  ∃ o : Option Tile, h = o.map codec.tile ∧ Shows sn ids (ofLex t).1 (ofLex t).2 o

structure Represents (codec : Codec) (st : EngineState) (man : Manifest) : Prop where
  tiles : ∀ t, Shown codec (snapshot st) man.key_ids.get t (man.tiles.get t)
  keys : ∀ k, (man.key_ids.get k).isSome ↔ k ∈ st.keys.map fmt
  charts : ∀ c ∈ man.charts, man.key_ids.get c.key = some c.id
  listed : ∀ k i, man.key_ids.get k = some i → ∃ c ∈ man.charts, c.key = k ∧ c.id = i
  ids : ∀ k i, man.key_ids.get k = some i → 0 < i ∧ i < man.body.next_id
  inj : ∀ k k' i, man.key_ids.get k = some i → man.key_ids.get k' = some i → k = k'
  next : 1 ≤ man.body.next_id
  params : man.body.params = st.params
  pipeline : man.body.pipeline = pipelineOf st.params
  channels : ∀ name, name ∈ man.body.channels ↔ name ∈ st.chan.keys
  leaf_count : man.body.leaf_count = st.leaves.length
  watermark : man.body.watermark = st.watermark

section Ids

lemma assignIds_spec (keys : List String) (acc : Dict String ℕ × ℕ) (hpos : 1 ≤ acc.2)
    (hlt : ∀ k i, acc.1.get k = some i → 0 < i ∧ i < acc.2)
    (hinj : ∀ k k' i, acc.1.get k = some i → acc.1.get k' = some i → k = k') :
    acc.2 ≤ (assignIds acc keys).2 ∧
    (∀ k i, acc.1.get k = some i → (assignIds acc keys).1.get k = some i) ∧
    (∀ k ∈ keys, ((assignIds acc keys).1.get k).isSome) ∧
    (∀ k i, (assignIds acc keys).1.get k = some i → 0 < i ∧ i < (assignIds acc keys).2) ∧
    ∀ k k' i, (assignIds acc keys).1.get k = some i → (assignIds acc keys).1.get k' = some i → k = k' := by
  induction keys generalizing acc with
  | nil => exact ⟨le_rfl, fun _ _ h => h, by simp, hlt, hinj⟩
  | cons a keys ih =>
    unfold assignIds
    cases hg : acc.1.get a with
    | some v =>
      obtain ⟨h1, h2, h3, h4, h5⟩ := ih acc hpos hlt hinj
      refine ⟨h1, h2, fun k hk => ?_, h4, h5⟩
      rcases mem_cons.mp hk with rfl | hk
      · rw [h2 _ _ hg]
        rfl
      · exact h3 k hk
    | none =>
      have hget : ∀ k i, (acc.1.set a acc.2).get k = some i ↔
          (k = a ∧ i = acc.2) ∨ (k ≠ a ∧ acc.1.get k = some i) := by
        intro k i
        rw [Dict.get_set]
        split_ifs with hk
        · simp [hk, eq_comm]
        · simp [hk]
      obtain ⟨h1, h2, h3, h4, h5⟩ := ih (acc.1.set a acc.2, acc.2 + 1) (Nat.le_add_left 1 _)
        (fun k i hi => by
          rcases (hget k i).mp hi with ⟨-, rfl⟩ | ⟨-, hi⟩
          · exact ⟨hpos, Nat.lt_succ_self _⟩
          · exact ⟨(hlt k i hi).1, Nat.lt_succ_of_lt (hlt k i hi).2⟩)
        (fun k k' i hi hi' => by
          rcases (hget k i).mp hi with ⟨rfl, rfl⟩ | ⟨-, hold⟩
          · rcases (hget k' _).mp hi' with ⟨rfl, -⟩ | ⟨-, hold'⟩
            · rfl
            · exact absurd (hlt k' _ hold').2 (lt_irrefl _)
          · rcases (hget k' i).mp hi' with ⟨-, rfl⟩ | ⟨-, hold'⟩
            · exact absurd (hlt k _ hold).2 (lt_irrefl _)
            · exact hinj k k' i hold hold')
      dsimp only
      refine ⟨le_trans (Nat.le_succ _) h1, fun k i hi => h2 k i ((hget k i).mpr (.inr ⟨?_, hi⟩)), fun k hk => ?_, h4, h5⟩
      · rintro rfl
        rw [hg] at hi
        cases hi
      · rcases mem_cons.mp hk with rfl | hk
        · rw [h2 k acc.2 ((hget _ _).mpr (.inl ⟨rfl, rfl⟩))]
          rfl
        · exact h3 k hk

structure BaseIds (prev : Option Manifest) : Prop where
  next : ∀ m ∈ prev, 1 ≤ m.body.next_id
  ids : ∀ m ∈ prev, ∀ k i, m.key_ids.get k = some i → 0 < i ∧ i < m.body.next_id
  inj : ∀ m ∈ prev, ∀ k k' i, m.key_ids.get k = some i → m.key_ids.get k' = some i → k = k'

lemma idsOf_spec {prev : Option Manifest} (hp : BaseIds prev) (st : EngineState) : 1 ≤ (idsOf prev st).next_id ∧
    (∀ m ∈ prev, ∀ k i, m.key_ids.get k = some i → (idsOf prev st).table.get k = some i) ∧
    (∀ k ∈ st.keys.map fmt, (idsOf prev st).table.get k = some ((idsOf prev st).id k)) ∧
    (∀ k i, (idsOf prev st).table.get k = some i → 0 < i ∧ i < (idsOf prev st).next_id) ∧
    ∀ k k' i, (idsOf prev st).table.get k = some i → (idsOf prev st).table.get k' = some i → k = k' := by
  obtain ⟨h1, h2, h3, h4, h5⟩ := assignIds_spec (st.keys.map fmt)
    (prev.elim (.empty, 1) fun m => (m.key_ids, m.body.next_id))
    (by cases prev with
      | none => exact le_rfl
      | some m => exact hp.next m rfl)
    (by cases prev with
      | none => simp
      | some m => exact hp.ids m rfl)
    (by cases prev with
      | none => simp
      | some m => exact hp.inj m rfl)
  refine ⟨?_, fun m hm k i hk => ?_, fun k hk => ?_, h4, h5⟩
  · refine le_trans ?_ h1
    cases prev with
    | none => exact le_rfl
    | some m => exact hp.next m rfl
  · cases hm
    exact h2 k i hk
  · obtain ⟨i, hi⟩ := Option.isSome_iff_exists.mp (h3 k hk)
    have hid : (idsOf prev st).id k = i := by
      unfold Ids.id
      rw [show (idsOf prev st).table.get k = some i from hi]
      rfl
    rw [hid]
    exact hi

lemma idsOf_lut {prev : Option Manifest} (hp : BaseIds prev) (st : EngineState)
    {ids : Key → Option ℕ} (hids : ∀ k ∈ st.keys.map fmt, ids k = some ((idsOf prev st).id k)) :
    LutOf ids st.keys (idsOf prev st).lut := by
  obtain ⟨-, -, h3, h4, -⟩ := idsOf_spec hp st
  have hkeys : (idsOf prev st).keys = st.keys.map fmt := rfl
  unfold Ids.lut
  by_cases hnil : (idsOf prev st).keys = []
  · rw [if_pos hnil]
    rw [hkeys, map_eq_nil_iff] at hnil
    exact .inl ⟨rfl, hnil⟩
  · rw [if_neg hnil]
    refine .inr ⟨_, rfl, fun j k hj => ?_⟩
    have hmem : fmt k ∈ st.keys.map fmt := mem_map_of_mem (mem_of_getElem? hj)
    have hget : ((idsOf prev st).keys.map (idsOf prev st).id).getD j 0 = (idsOf prev st).id (fmt k) := by
      rw [getD_eq_getElem?_getD, hkeys, List.getElem?_map, List.getElem?_map, hj]
      rfl
    rw [hget]
    exact ⟨hids _ hmem, (h4 _ _ (h3 _ hmem)).1⟩

end Ids

section Tiles
variable {codec : Codec} {st st' : EngineState} {ids ids' : Key → Option ℕ}
variable {t : Coord} {o : Option Tile}

lemma shows_congr {a b : Snapshot} (h : Shows a ids (ofLex t).1 (ofLex t).2 o) (hs : SameOn t a b) :
    Shows b ids (ofLex t).1 (ofLex t).2 o where
  v := fun r c => (h.v r c).trans (hs.full r c).1
  t := fun r c => (h.t r c).trans (hs.full r c).2.1
  b := fun r c => (h.b r c).trans (hs.full r c).2.2.1
  fn := fun r c => (h.fn r c).trans (hs.full r c).2.2.2.1
  bn := fun r c => (h.bn r c).trans (hs.full r c).2.2.2.2.1
  hold := fun r c => (h.hold r c).trans (hs.full r c).2.2.2.2.2.1
  val := fun r c => (h.val r c).trans (hs.half r c).1
  chan := fun name r c => (h.chan name r c).trans ((hs.full r c).2.2.2.2.2.2 name)
  own := fun r c => (hs.half r c).2 ▸ h.own r c

lemma owner_mem {y x : ℤ} {k : String × ℕ} (h : (snapshot st).owner y x = some k) : k ∈ st.keys := by
  have hat : ∀ i, keyAt st.keys i = some k → k ∈ st.keys := by
    intro i hi
    unfold keyAt at hi
    split_ifs at hi
    exact mem_of_getElem? hi
  cases hp : st.plane with
  | none => simp [snapshot, hp] at h
  | some a => exact hat _ (by simpa [snapshot, hp] using h)

lemma shows_ids (h : Shows (snapshot st) ids (ofLex t).1 (ofLex t).2 o)
    (hids : ∀ k ∈ st.keys.map fmt, ∀ i, ids k = some i → ids' k = some i) :
    Shows (snapshot st) ids' (ofLex t).1 (ofLex t).2 o := by
  refine ⟨h.v, h.t, h.b, h.fn, h.bn, h.hold, h.val, h.chan, fun r c => ?_⟩
  have hown := h.own r c
  cases ho : (snapshot st).owner (cellL (ofLex t).2 r) (cellL (ofLex t).1 c) with
  | none => simpa [Names, ho] using hown
  | some k =>
    rw [ho] at hown
    exact ⟨hids _ (mem_map_of_mem (owner_mem ho)) _ hown.1, hown.2⟩

lemma mem_intRange {a b i : ℤ} : i ∈ intRange a b ↔ a ≤ i ∧ i < b := by
  unfold intRange
  rw [mem_map]
  constructor
  · rintro ⟨n, hn, rfl⟩
    have := mem_range.mp hn
    omega
  · rintro ⟨h1, h2⟩
    exact ⟨(i - a).toNat, mem_range.mpr (by omega), by omega⟩

lemma mem_allTiles {c : Canvas} : t ∈ allTiles c ↔
    (c.cx0 / TILE_F ≤ (ofLex t).1 ∧ (ofLex t).1 ≤ (c.cx0 + c.W - 1) / TILE_F) ∧
      (c.cy0 / TILE_F ≤ (ofLex t).2 ∧ (ofLex t).2 ≤ (c.cy0 + c.H - 1) / TILE_F) := by
  unfold allTiles tileRange
  simp only [mem_flatMap, mem_map, mem_intRange, Int.lt_add_one_iff]
  constructor
  · rintro ⟨x, hx, y, hy, rfl⟩
    exact ⟨hx, hy⟩
  · rintro ⟨hx, hy⟩
    exact ⟨_, hx, _, hy, rfl⟩

lemma tile_of_cell {c0 t : ℤ} {n : ℕ} {r : Fin TILE_F} (h0 : 0 ≤ cellF t r - c0)
    (h1 : cellF t r - c0 < n) : c0 / TILE_F ≤ t ∧ t ≤ (c0 + n - 1) / TILE_F := by
  have hr : (r : ℕ) < 128 := r.isLt
  unfold cellF TILE_F at *
  omega

lemma tile_of_lattice {c0 t : ℤ} {n : ℕ} {r : Fin TILE_L} (h0 : 0 ≤ cellL t r - c0 / 2)
    (h1 : cellL t r - c0 / 2 < (n / 2 : ℕ)) : c0 / TILE_F ≤ t ∧ t ≤ (c0 + n - 1) / TILE_F := by
  have hr : (r : ℕ) < 64 := r.isLt
  unfold cellL TILE_F TILE_L at *
  omega

lemma shows_outside (ht : t ∉ allTiles st.canvas) :
    Shows (snapshot st) ids (ofLex t).1 (ofLex t).2 none := by
  have hfull : ∀ {α : Type} (fill : α) (a : Cells α) (r c : Fin TILE_F),
      st.global fill a (cellF (ofLex t).2 r) (cellF (ofLex t).1 c) = fill := by
    intro α fill a r c
    unfold EngineState.global
    refine if_neg fun hin => ht (mem_allTiles.mpr ?_)
    obtain ⟨⟨h1, h2⟩, h3, h4⟩ := hin
    exact ⟨tile_of_cell h1 h2, tile_of_cell h3 h4⟩
  have hhalf : ∀ {α : Type} (fill : α) (a : Cells α) (r c : Fin TILE_L),
      halfGlobal st.canvas fill a (cellL (ofLex t).2 r) (cellL (ofLex t).1 c) = fill := by
    intro α fill a r c
    unfold halfGlobal
    refine if_neg fun hin => ht (mem_allTiles.mpr ?_)
    obtain ⟨⟨h1, h2⟩, h3, h4⟩ := hin
    exact ⟨tile_of_lattice h3 h4, tile_of_lattice h1 h2⟩
  refine ⟨fun r c => (hfull _ _ r c).symm, fun r c => (hfull _ _ r c).symm,
    fun r c => (hfull _ _ r c).symm, fun r c => ?_, fun r c => ?_, fun r c => ?_, fun r c => ?_,
    fun name r c => ?_, fun r c => ?_⟩
  · cases hf : st.Fn <;> simp [snapshot, hf, hfull]
  · cases hf : st.Bn <;> simp [snapshot, hf, hfull]
  · cases hf : st.Hold <;> simp [snapshot, hf, hfull]
  · cases hf : st.Val <;> simp [snapshot, hf, hhalf]
  · cases hf : st.chan.get name <;> simp [snapshot, hf, hfull]
  · cases hf : st.plane <;> simp [snapshot, hf, hhalf, keyAt, Names, ownAt]

end Tiles

section Draft
variable {codec : Codec} {cfg : Config} {gen : ℕ} {pend : Option Pending}
  {prev : Option Manifest} {c : SaveCall} {full : Bool} {d : Draft}

/-- The base represents a state that agrees with the new one outside the dirty tiles, unless
the save starts over. -/
def BaseShows (codec : Codec) (pend : Option Pending) (prev : Option Manifest) (c : SaveCall)
    (st : EngineState) : Prop :=
  ∀ m ∈ prev, ∃ st0, Represents codec st0 m ∧ (restarts pend prev st = false →
    ∀ t, t ∉ dirtyTiles st.canvas c.dirty → SameOn t (snapshot st0) (snapshot st))

lemma BaseShows.ids {st : EngineState} (h : BaseShows codec pend prev c st) : BaseIds prev where
  next := fun m hm => by
    obtain ⟨st0, hr, -⟩ := h m hm
    exact hr.next
  ids := fun m hm => by
    obtain ⟨st0, hr, -⟩ := h m hm
    exact hr.ids
  inj := fun m hm => by
    obtain ⟨st0, hr, -⟩ := h m hm
    exact hr.inj

lemma saveTiles_shown {st : EngineState} {dirty : Option Dirty} {r : Dict Coord Hash × Dict Name Obj}
    (h : saveTiles codec cfg st (idsOf prev st) gen pend prev dirty full = .ok r)
    (hc : Consistent st) {ids : Key → Option ℕ} (hlut : LutOf ids st.keys (idsOf prev st).lut)
    (hbase : ∀ m ∈ prev, restarts pend prev st = false → ∀ t, t ∉ dirtyTiles st.canvas dirty →
      Shown codec (snapshot st) ids t (m.tiles.get t)) (t : Coord) :
    Shown codec (snapshot st) ids t (r.1.get t) := by
  have hpack : Shown codec (snapshot st) ids t
      ((tileArrays st (ofLex t).1 (ofLex t).2 (idsOf prev st).lut).map codec.tile) :=
    ⟨_, rfl, tileArrays_shows hc hlut _ _⟩
  have hall : Shown codec (snapshot st) ids t (if t ∈ allTiles st.canvas
      then (tileArrays st (ofLex t).1 (ofLex t).2 (idsOf prev st).lut).map codec.tile else none) := by
    split_ifs with ht
    · exact hpack
    · exact ⟨none, rfl, shows_outside ht⟩
  rcases saveTiles_cases h with rfl | ⟨m, rfl, hr, rfl | rfl⟩
  · unfold freshTiles
    rw [packTiles_get]
    exact hall
  · unfold overTiles
    rw [packTiles_get]
    split_ifs with ht
    · exact hpack
    · exact hbase m rfl hr t ht
  · unfold checkTiles
    dsimp only
    rw [packTiles_get]
    exact hall

lemma draft_represents (hf : DraftFrom codec cfg gen pend prev c full d) (hc : Consistent d.st)
    (hbase : BaseShows codec pend prev c d.st) (version : Option ℕ) :
    Represents codec d.st (expandedOf (d.body codec gen version c) d.tiles d.charts d.links) := by
  obtain ⟨h1, h2, h3, h4, h5⟩ := idsOf_spec hbase.ids d.st
  obtain ⟨hkeys, hid⟩ := chartDocs_spec hf.charts
  have hdocs : d.charts.map ChartDoc.key = d.st.keys.map fmt := by
    rw [hkeys, hf.ids]
    rfl
  rw [← hf.ids] at h1 h2 h3 h4 h5
  have htable : ∀ k, (Dict.ofList (d.charts.map fun c => (c.key, c.id))).get k =
      if k ∈ d.st.keys.map fmt then some (d.ids.id k) else none := by
    intro k
    rw [keyTable_get hid, hdocs]
  have hmem : ∀ k i, (Dict.ofList (d.charts.map fun c => (c.key, c.id))).get k = some i →
      k ∈ d.st.keys.map fmt ∧ d.ids.table.get k = some i := by
    intro k i hk
    rw [htable] at hk
    split_ifs at hk with hkk
    cases hk
    exact ⟨hkk, h3 k hkk⟩
  refine ⟨fun t => ?_, fun k => ?_, fun ch hch => ?_, fun k i hk => ?_, fun k i hk => ?_,
    fun k k' i hk hk' => ?_, h1, rfl, rfl, fun name => ?_, rfl, rfl⟩
  · obtain ⟨blobs, ht⟩ := hf.tiles
    rw [hf.ids] at ht
    refine saveTiles_shown ht hc (idsOf_lut hbase.ids d.st fun k hk => ?_) (fun m hm hr t ht => ?_) t
    · change (Dict.ofList _).get k = _
      rw [htable, if_pos hk, hf.ids]
    · obtain ⟨st0, hrep, hsame⟩ := hbase m hm
      obtain ⟨o, ho, hshow⟩ := hrep.tiles t
      refine ⟨o, ho, shows_ids (shows_congr hshow (hsame hr t ht)) fun k hk i hi => ?_⟩
      change (Dict.ofList _).get k = _
      rw [htable, if_pos hk, ← Option.some.inj ((h2 m hm k i hi).symm.trans (h3 k hk))]
  · change ((Dict.ofList _).get k).isSome ↔ _
    rw [htable]
    split_ifs with hk <;> simp [hk]
  · have hch' := mem_sortCharts.mp hch
    change (Dict.ofList _).get ch.key = _
    rw [htable, if_pos (by rw [← hdocs]; exact mem_map_of_mem hch'), hid ch hch']
  · obtain ⟨hkk, htk⟩ := hmem k i hk
    rw [← hdocs] at hkk
    obtain ⟨ch, hch, rfl⟩ := mem_map.mp hkk
    refine ⟨ch, mem_sortCharts.mpr hch, rfl, ?_⟩
    have hk' := h3 ch.key (by rw [← hdocs]; exact hkk)
    rw [htk] at hk'
    rw [hid ch hch]
    exact (Option.some.inj hk').symm
  · exact h4 k i (hmem k i hk).2
  · exact h5 k k' i (hmem k i hk).2 (hmem k' i hk').2
  · exact (mergeSort_perm _ _).mem_iff

variable {man man' : Manifest}

lemma represents_congr {st : EngineState} (h : Represents codec st man)
    (hbody : man'.body.toContent = man.body.toContent) (htiles : ∀ t, man'.tiles.get t = man.tiles.get t)
    (hcharts : ∀ ch, ch ∈ man'.charts ↔ ch ∈ man.charts)
    (hids : ∀ k, man'.key_ids.get k = man.key_ids.get k) : Represents codec st man' := by
  have hfun : man'.key_ids.get = man.key_ids.get := funext hids
  refine ⟨fun t => ?_, fun k => ?_, fun ch hch => ?_, fun k i hk => ?_, fun k i hk => ?_,
    fun k k' i hk hk' => ?_, ?_, ?_, ?_, ?_, ?_, ?_⟩
  · rw [hfun, htiles]
    exact h.tiles t
  · rw [hids]
    exact h.keys k
  · rw [hids]
    exact h.charts ch ((hcharts ch).mp hch)
  · rw [hids] at hk
    obtain ⟨ch, hch, h1⟩ := h.listed k i hk
    exact ⟨ch, (hcharts ch).mpr hch, h1⟩
  · rw [hids] at hk
    rw [hbody]
    exact h.ids k i hk
  · rw [hids] at hk hk'
    exact h.inj k k' i hk hk'
  all_goals rw [hbody]
  · exact h.next
  · exact h.params
  · exact h.pipeline
  · exact h.channels
  · exact h.leaf_count
  · exact h.watermark

lemma represents_expands (hx : Codec.Exact codec) {st : EngineState}
    {ps ps' : List Page} (h : Represents codec st man) (he : Expands codec man ps)
    (he' : Expands codec man' ps') (hbody : man'.body.toContent = man.body.toContent) :
    Represents codec st man' := by
  have hps : ps' = ps := by
    have hpages := he'.pages
    rw [hbody, he.pages] at hpages
    exact (map_injective_iff.mpr hx.page hpages).symm
  subst hps
  have hcharts : ∀ ch, ch ∈ man'.charts ↔ ch ∈ man.charts := fun ch =>
    (he'.charts ch).trans (he.charts ch).symm
  have hid : ∀ ch ∈ man.charts, ch.id = (man.key_ids.get ch.key).getD 0 := by
    intro ch hch
    rw [h.charts ch hch]
    rfl
  refine represents_congr h hbody (fun t => ?_) hcharts fun k => ?_
  · rw [he'.tiles, he.tiles]
    rfl
  · have hid' : ∀ ch ∈ man'.charts, ch.id = (man.key_ids.get ch.key).getD 0 := fun ch hch =>
      hid ch ((hcharts ch).mp hch)
    have hk := keyTable_get (f := fun k => (man.key_ids.get k).getD 0) hid k
    have hk' := keyTable_get (f := fun k => (man.key_ids.get k).getD 0) hid' k
    rw [he'.key_ids, he.key_ids, hk, hk']
    simp only [mem_map, hcharts]

end Draft
end CloudServer.StoreRepresent
