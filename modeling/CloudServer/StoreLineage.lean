import CloudServer.StoreRetain
import CloudServer.Succession

/-! Lineage: which keys took over the cells of the keys retired since a version, against the
composition of the retirement maps of the versions in between. -/
namespace CloudServer.StoreLineage
open SceneFold SceneApi StoreTiles StoreSave StoreOps StoreObjects StoreExpand StoreRun List
open StoreHistory StoreSequence StoreCalls StoreCodec StoreRetain Succession Interact

inductive LineageError
  | tooOld (version : ℕ)
  | failed (e : SaveError)

/-- The order in which the retirement map of a version is enumerated: by key when the manifest
was read back, as the engine built it when a save left it in memory. -/
abbrev Enumeration := ℕ → Dict Key (List Key) → List (Key × List Key)

def lineageOver (order : Enumeration) : List ℕ → Dict Key (List Key) → Memory →
    StoreProg (Except LineageError (Dict Key (List Key)) × Memory)
  | [], res, mem => pure (.ok res, mem)
  | v :: rest, res, mem => do
    match ← manifest (some v) false mem with
    | (.ok man, mem) => lineageOver order rest (retireAll res (order v man.body.retired)) mem
    | (.error (.notFound _), mem) => pure (.error (.tooOld v), mem)
    | (.error e, mem) => pure (.error (.failed e), mem)

/-- The versions after `v` up to `u`. -/
def versionsAfter (v u : ℕ) : List ℕ := List.range' (v + 1) (u - v)

def lineage (order : Enumeration) (from_version : ℕ) (mem : Memory) :
    StoreProg (Except LineageError (Dict Key (List Key)) × Memory) := do
  match ← readMeta with
  | none => pure (.ok .empty, mem)
  | some m => lineageOver order (versionsAfter from_version m.version) .empty mem

/-- The retirement maps of the versions after `v` up to `u`, as they are enumerated. -/
def stepsAfter (order : Enumeration) (bodies : ℕ → Body) (v u : ℕ) :
    List (List (Key × List Key)) :=
  (versionsAfter v u).map fun w => order w (bodies w).retired

lemma lineageOver_run {codec : Codec} {indexed : Bool} {H : History} {s : Backend}
    (hs : StoreOk codec H s) {m : Meta} (hdoc : s.doc = some m) {bodies : ℕ → Body}
    (order : Enumeration) {vs : List ℕ} (hvs : ∀ w ∈ vs, ∃ n,
      wantedName m (some w) false = some n ∧ s.blobs.get n = some (.manifest (bodies w)))
    (res : Dict Key (List Key)) {mem : Memory} (hM : MemOk codec H mem) :
    ∃ mem', (lineageOver order vs res mem).run (perform indexed) s =
      ((.ok ((vs.map fun w => order w (bodies w).retired).foldl retireAll res), mem'), s) := by
  induction vs generalizing res mem with
  | nil => exact ⟨mem, rfl⟩
  | cons w vs ih =>
    obtain ⟨n, hn, hb⟩ := hvs w (by simp)
    obtain ⟨man, ps, mem1, hrun, hbody, -, hM1⟩ :=
      @manifest_run codec indexed H s hs mem hM m hdoc (some w) false n hn _ hb
    obtain ⟨mem', hrest⟩ := ih (fun u hu => hvs u (by simp [hu]))
      (retireAll res (order w (bodies w).retired)) hM1
    refine ⟨mem', ?_⟩
    unfold lineageOver
    rw [Prog.run_bind, hrun]
    dsimp only
    rw [hbody]
    exact hrest

lemma stepsAfter_prefix (order : Enumeration) (bodies : ℕ → Body) {v w u : ℕ} (hvw : v ≤ w)
    (hwu : w ≤ u) : stepsAfter order bodies v w <+: stepsAfter order bodies v u := by
  refine List.IsPrefix.map _ ?_
  unfold versionsAfter
  rw [show u - v = (w - v) + (u - w) by omega, ← List.range'_append_1]
  exact prefix_append _ _

lemma prefix_stepsAfter {order : Enumeration} {bodies : ℕ → Body} {v u : ℕ} (hvu : v ≤ u)
    {p : List (List (Key × List Key))} :
    p <+: stepsAfter order bodies v u ↔ ∃ w, v ≤ w ∧ w ≤ u ∧ p = stepsAfter order bodies v w := by
  constructor
  · intro hp
    have hlen : p.length ≤ u - v := by simpa [stepsAfter, versionsAfter] using hp.length_le
    have hw : p.length = (stepsAfter order bodies v (v + p.length)).length := by
      simp [stepsAfter, versionsAfter]
    refine ⟨v + p.length, by omega, by omega, ?_⟩
    have hq := stepsAfter_prefix order bodies (Nat.le_add_right v p.length)
      (show v + p.length ≤ u by omega)
    exact (prefix_of_prefix_length_le hp hq hw.le).eq_of_length hw
  · rintro ⟨w, hvw, hwu, rfl⟩
    exact stepsAfter_prefix order bodies hvw hwu

lemma stepsAfter_succ (order : Enumeration) (bodies : ℕ → Body) {v w : ℕ} (h : v < w) :
    stepsAfter order bodies v w = stepsAfter order bodies v (w - 1) ++ [order w (bodies w).retired] := by
  unfold stepsAfter versionsAfter
  rw [show w - v = (w - 1 - v) + 1 by omega, List.range'_1_concat, map_append,
    show v + 1 + (w - 1 - v) = w by omega]
  rfl

/-- Over a chain of versions that are still there, `lineage` returns the running table of their
retirement maps, and this table is the composition of the maps at every version of the chain
exactly when each map is settled over the ones before it. -/
theorem lineage_composes_iff {codec : Codec} {cfg : Config} {indexed : Bool} {ι : Type}
    [DecidableEq ι] (hx : Codec.Exact codec) {S : World ι} (h : Reached codec cfg indexed S)
    {m : Meta} (hdoc : S.store.doc = some m) {v : ℕ} (hv : v ≤ m.version) {bodies : ℕ → Body}
    (hlive : ∀ w, v < w → w ≤ m.version → ∃ n, (w, n, bodies w) ∈ S.live) {order : Enumeration}
    (horder : ∀ w, (order w (bodies w).retired).Perm (bodies w).retired.items) :
    (∀ i, ∃ mem', (lineage order v (S.memory i)).run (perform indexed) S.store =
      ((.ok (table (stepsAfter order bodies v m.version)), mem'), S.store)) ∧
    ((∀ u, v ≤ u → u ≤ m.version →
        Composes (stepsAfter order bodies v u) (table (stepsAfter order bodies v u))) ↔
      ∀ w, v < w → w ≤ m.version →
        Settled (stepsAfter order bodies v (w - 1)) (order w (bodies w).retired)) := by
  obtain ⟨H, hS⟩ := h.ok hx
  constructor
  · intro i
    have hvs : ∀ w ∈ versionsAfter v m.version, ∃ n, wantedName m (some w) false = some n ∧
        S.store.blobs.get n = some (.manifest (bodies w)) := by
      intro w hw
      obtain ⟨h1, h2⟩ := mem_range'_1.mp hw
      obtain ⟨n, hn⟩ := hlive w (by omega) (by omega)
      exact ⟨n, hS.wanted hdoc hn⟩
    obtain ⟨mem', hrun⟩ := @lineageOver_run codec indexed H S.store hS.store m hdoc bodies order
      _ hvs .empty (S.memory i) (hS.memory i)
    refine ⟨mem', ?_⟩
    unfold lineage
    rw [run_readMeta, hdoc]
    exact hrun
  · have hnd : ∀ es ∈ stepsAfter order bodies v m.version, (retiredBy es).Nodup := by
      intro es hes
      obtain ⟨w, -, rfl⟩ := mem_map.mp hes
      exact ((horder w).map Prod.fst).nodup_iff.mpr (bodies w).retired.nodup
    have hiff := table_composes_iff hnd
    constructor
    · intro hall w hvw hw
      refine hiff.mp (fun p hp => ?_) _ _ ?_
      · obtain ⟨u, hu1, hu2, rfl⟩ := (prefix_stepsAfter hv).mp hp
        exact hall u hu1 hu2
      · rw [← stepsAfter_succ order bodies hvw]
        exact (prefix_stepsAfter hv).mpr ⟨w, hvw.le, hw, rfl⟩
    · intro hall u hvu hu
      refine hiff.mpr (fun p es hp => ?_) _ ((prefix_stepsAfter hv).mpr ⟨u, hvu, hu, rfl⟩)
      obtain ⟨w, hw1, hw2, heq⟩ := (prefix_stepsAfter hv).mp hp
      have hlt : v < w := by
        rcases Nat.lt_or_ge v w with h | h
        · exact h
        · have : stepsAfter order bodies v w = [] := by
            simp [stepsAfter, versionsAfter, Nat.sub_eq_zero_of_le h]
          simp [this] at heq
      rw [stepsAfter_succ order bodies hlt] at heq
      obtain ⟨rfl, he⟩ := append_inj' heq rfl
      cases he
      exact hall w hlt hw2

section Renamed

def renameSave (t : ℤ) (expected : ℕ) (old new : Key) : SaveCall :=
  { emptySave t (some expected) with
    dirty := some ⟨none, [], Dict.ofList [(old, [new])], [], toLex (t, "a")⟩ }

noncomputable def renamedWorld : World Bool :=
  firstWorld.call exactCodec lazyConfig false false (.save (renameSave 2 1 "a" "b"))

noncomputable def twiceRenamed : World Bool :=
  renamedWorld.call exactCodec lazyConfig false false (.save (renameSave 3 2 "b" "c"))

lemma renamedWorld_reached : Reached exactCodec lazyConfig false renamedWorld :=
  .call firstWorld_reached false (.save (renameSave 2 1 "a" "b")) trivial

lemma twiceRenamed_reached : Reached exactCodec lazyConfig false twiceRenamed :=
  .call renamedWorld_reached false (.save (renameSave 3 2 "b" "c")) trivial

/-- A save of a newer leaf that retires one key commits the next version with that map. -/
lemma renameSave_live {S : World Bool} (h : Reached exactCodec lazyConfig false S) {m : Meta}
    {b : Body} (hdoc : S.store.doc = some m)
    (hb : S.store.blobs.get m.manifest = some (.manifest b)) {t : ℤ} {v : ℕ}
    (hv : m.version = v) (hpos : v ≠ 0) (hw : b.watermark ≠ toLex (t, "a")) (old new : Key) :
    ∃ m' b', (S.call exactCodec lazyConfig false false
        (.save (renameSave t v old new))).store.doc = some m' ∧
      m'.version = v + 1 ∧
      (S.call exactCodec lazyConfig false false
        (.save (renameSave t v old new))).store.blobs.get m'.manifest =
          some (.manifest b') ∧
      b'.watermark = toLex (t, "a") ∧ b'.retired = Dict.ofList [(old, [new])] ∧
      (v + 1, m'.manifest, b') ∈ (S.call exactCodec lazyConfig false false
        (.save (renameSave t v old new))).live := by
  obtain ⟨H, hS⟩ := h.ok exactCodec_exact
  obtain ⟨m', b', -, hdoc', hv', hb', hw', hret⟩ := @plain_save exactCodec lazyConfig false H
    S.store (S.memory false) exactCodec_exact hS.store (hS.memory false) rfl
    (renameSave t v old new) (emptyState t) rfl rfl rfl rfl
    (by
      rw [hdoc, Option.map_some, hv]
      simp [renameSave, emptySave, hpos]) rfl (by
      intro m₁ hm₁ b₁ hb₁
      cases hdoc.symm.trans hm₁
      cases hb.symm.trans hb₁
      exact hw)
  rw [hdoc, Option.elim_some, hv] at hv'
  rw [← store_save] at hdoc' hb'
  obtain ⟨H', hS'⟩ := (Reached.call h false (.save (renameSave t v old new))
    trivial).ok exactCodec_exact
  refine ⟨m', b', hdoc', hv', hb', hw', hret, (hS'.live _ _ _).mpr ⟨m'.generation, ?_, hb'⟩⟩
  rw [(hS'.store.doc m' hdoc').manifest, hv']

lemma twiceRenamed_live : ∃ m n b₂ b₃, twiceRenamed.store.doc = some m ∧ m.version = 3 ∧
    (2, n, b₂) ∈ twiceRenamed.live ∧ (3, m.manifest, b₃) ∈ twiceRenamed.live ∧
    b₂.retired = Dict.ofList [("a", ["b"])] ∧ b₃.retired = Dict.ofList [("b", ["c"])] := by
  obtain ⟨m, b, hdoc, hv, hb, hw⟩ := firstWorld_doc
  obtain ⟨m₂, b₂, hdoc₂, hv₂, hb₂, hw₂, hret₂, hlive₂⟩ := renameSave_live firstWorld_reached hdoc hb
    hv one_ne_zero (show b.watermark ≠ toLex (2, "a") by simp [hw]) "a" "b"
  obtain ⟨m₃, b₃, hdoc₃, hv₃, -, -, hret₃, hlive₃⟩ := renameSave_live renamedWorld_reached hdoc₂ hb₂
    (show m₂.version = 2 from hv₂) two_ne_zero (show b₂.watermark ≠ toLex (3, "a") by simp [hw₂]) "b" "c"
  have hkept : (2, m₂.manifest, b₂) ∈ twiceRenamed.live :=
    mem_append_left _ (mem_filter.mpr ⟨hlive₂, rfl⟩)
  exact ⟨m₃, m₂.manifest, b₂, b₃, hdoc₃, hv₃, hkept, hlive₃, hret₂, hret₃⟩

lemma settled_rename (steps : List (List (Key × List Key))) (old new : Key)
    (hfresh : ∀ es ∈ steps, old ∉ retiredBy es) : Settled steps [(old, [new])] := by
  refine Settled.of_fresh (by simp) (fun es hes k hk => ?_) fun l k succ r he y hy => ?_
  · obtain rfl : k = old := by simpa using hk
    exact hfresh es hes
  · rcases l with _ | ⟨e, l⟩
    · cases he
      simp
    · have := congrArg List.length he
      simp at this

/-- A key renamed twice leads to the key that has its cells now. -/
theorem lineage_composes_iff_renamed : Reached exactCodec lazyConfig false twiceRenamed ∧
    ∃ mem', (lineage (fun _ d => d.items) 1 (twiceRenamed.memory false)).run (perform false)
      twiceRenamed.store = ((.ok (Dict.ofList [("a", ["c"]), ("b", ["c"])]), mem'),
        twiceRenamed.store) ∧
    Composes [[("a", ["b"])], [("b", ["c"])]] (Dict.ofList [("a", ["c"]), ("b", ["c"])]) := by
  obtain ⟨m, n, b₂, b₃, hdoc, hv, hlive₂, hlive₃, hret₂, hret₃⟩ := twiceRenamed_live
  have hcases : ∀ w, 1 < w → w ≤ m.version → w = 2 ∨ w = 3 := by
    intro w h1 h2
    omega
  have hchain : ∀ w, 1 < w → w ≤ m.version →
      ∃ n, (w, n, if w = 2 then b₂ else b₃) ∈ twiceRenamed.live := by
    intro w h1 h2
    rcases hcases w h1 h2 with rfl | rfl
    · exact ⟨n, hlive₂⟩
    · exact ⟨m.manifest, hlive₃⟩
  have hmain := @lineage_composes_iff exactCodec lazyConfig false Bool _ exactCodec_exact
    twiceRenamed twiceRenamed_reached m hdoc 1 (by omega) (fun w => if w = 2 then b₂ else b₃)
    hchain (fun _ d => d.items) fun _ => List.Perm.refl _
  have hsteps : stepsAfter (fun _ d => d.items) (fun w => if w = 2 then b₂ else b₃) 1 m.version =
      [[("a", ["b"])], [("b", ["c"])]] := by
    rw [hv]
    simp [stepsAfter, versionsAfter, List.range', hret₂, hret₃]
    exact ⟨rfl, rfl⟩
  have htable : table [[("a", ["b"])], [("b", ["c"])]] =
      Dict.ofList [("a", ["c"]), ("b", ["c"])] := by decide
  obtain ⟨mem', hrun⟩ := hmain.1 false
  refine ⟨twiceRenamed_reached, mem', by rw [hrun, hsteps, htable], ?_⟩
  rw [← htable, ← hsteps]
  refine hmain.2.mpr (fun w h1 h2 => ?_) m.version (by omega) le_rfl
  rcases hcases w h1 h2 with rfl | rfl
  · rw [if_pos rfl, hret₂]
    exact settled_rename _ "a" "b" (by simp [stepsAfter, versionsAfter])
  · rw [if_neg (by decide), hret₃]
    refine settled_rename _ "b" "c" ?_
    simp [stepsAfter, versionsAfter, hret₂]
    decide

end Renamed

section Swapped

def swapParams : SceneParams :=
  ⟨1 / 5, 1 / 10, 2, none, none, none, none, none_needs, none_pos, none_both, none_place⟩

def swapTile (i j : ℕ) : Tile :=
  ⟨fun _ _ => 0, fun _ _ => 1, fun _ _ => -1, none, none, none, none, .empty,
    some fun r c => if r.val = 0 then if c.val = 0 then i else if c.val = 1 then j else 0 else 0⟩

def swapChart (k : Key) (id : ℕ) (x : ℤ) : ChartDoc :=
  ⟨k, id, 1, 0, (x / 10, 0), (x, 0), 1, 1 / 100, 1 / 10, 0, 0, none⟩

def swapPage (tile : Hash) (a b : ℤ) : Page :=
  ⟨Dict.ofList [(coord 0 0, tile)], [swapChart "a" 1 a, swapChart "b" 2 b], []⟩

def swapBody (g : ℕ) (page : Hash) (version : Option ℕ) : Body :=
  ⟨⟨"morse/2", g, swapParams, "p", toLex (1, "l"), [], 3, Dict.ofList [(coord 0 0, page)], [1, 2],
    2, 1, [], 1⟩, none, 1, ⟨0, 0, 4, 2⟩, .empty, "c", version, 0, none⟩

def swapManifest (g : ℕ) (page tile : Hash) (version : Option ℕ) (a b : ℤ) : Manifest :=
  expandWith (swapBody g page version) [swapPage tile a b]

/-- A map with a version of charts `a` and `b`, and a pending generation in which the charts of
these two cells are named the other way round. -/
def swapStore : Backend where
  blobs := Dict.ofList [
    (.tile 1 "s", .tile (swapTile 1 2)), (.page 1 "q", .page (swapPage "s" 0 1)),
    (.manifest 1 1, .manifest (swapBody 1 "q" (some 1))),
    (.tile 2 "t", .tile (swapTile 2 1)), (.page 2 "r", .page (swapPage "t" 1 0)),
    (.pending 2 1, .manifest (swapBody 2 "r" none))]
  doc := some ⟨1, 1, swapParams, "p", none, toLex (1, "l"), .manifest 1 1, Dict.ofList [(1, 1)], 0,
    "e", some ⟨2, 1, some (.pending 2 1), some "p", none, some (toLex (1, "l")), none, 0⟩, none⟩

def swapMap : Dict Key (List Key) := Dict.ofList [("a", ["b"]), ("b", ["a"])]

lemma swap_charts (g : ℕ) (page tile : Hash) (version : Option ℕ) (a b : ℤ) :
    (swapManifest g page tile version a b).charts = [swapChart "a" 1 a, swapChart "b" 2 b] := by
  change sortCharts _ = _
  unfold sortCharts
  refine mergeSort_of_pairwise ?_
  simp [swapPage, swapChart]

lemma swap_keyOfId (g : ℕ) (page tile : Hash) (version : Option ℕ) (a b : ℤ) (id : ℕ) :
    keyOfId (swapManifest g page tile version a b) id =
      if id = 2 then some "b" else if id = 1 then some "a" else none := by
  unfold keyOfId
  rw [swap_charts]
  by_cases h2 : id = 2
  · simp [swapChart, h2]
  · by_cases h1 : id = 1
    · simp [swapChart, h1]
    · simp [swapChart, h1, h2, eq_comm]

lemma swap_shared : sharedKeys (swapManifest 1 "q" "s" (some 1) 0 1)
    (swapManifest 2 "r" "t" none 1 0) (swapTile 1 2, swapTile 2 1) = [("a", "b"), ("b", "a")] := by
  unfold sharedKeys
  simp only [swap_keyOfId]
  decide

lemma swap_keymap : overlapKeymap (swapManifest 1 "q" "s" (some 1) 0 1)
    (swapManifest 2 "r" "t" none 1 0) [(swapTile 1 2, swapTile 2 1)] = swapMap := by
  unfold overlapKeymap
  rw [swap_charts, flatMap_singleton, swap_shared]
  simp [swapChart]
  rfl

def swappedStore : Backend where
  blobs := swapStore.blobs.set (.manifest 2 2) (.manifest { swapBody 2 "r" none with
    version := some 2, retired := swapMap, from_generation := some 1 })
  doc := some ⟨2, 2, swapParams, "p", none, toLex (1, "l"), .manifest 2 2,
    Dict.ofList [(1, 1), (2, 2)], 0, "e", none, none⟩

lemma swap_commit : ∃ mem', (commitGeneration 2 Memory.blank).run (perform false) swapStore =
    ((.ok (2, swapMap), mem'), swappedStore) := by
  unfold swappedStore
  rw [← swap_keymap]
  exact ⟨_, rfl⟩

lemma swap_lineage (order : Enumeration) : ∃ mem',
    (lineage order 1 Memory.blank).run (perform false) swappedStore =
      ((.ok (table [order 2 swapMap]), mem'), swappedStore) := ⟨_, rfl⟩

/-- A switch that exchanges two keys: whichever is enumerated first is reported as its own
successor, although the other one took over its cells. -/
theorem lineage_swapped : (∃ mem', (commitGeneration 2 Memory.blank).run (perform false) swapStore =
      ((.ok (2, swapMap), mem'), swappedStore)) ∧
    ∀ order : Enumeration, (order 2 swapMap).Perm swapMap.items → ∃ res mem',
      (lineage order 1 Memory.blank).run (perform false) swappedStore =
        ((.ok res, mem'), swappedStore) ∧ ¬Composes [swapMap.items] res := by
  refine ⟨swap_commit, fun order horder => ?_⟩
  obtain ⟨mem', hrun⟩ := swap_lineage order
  refine ⟨_, mem', hrun, fun h => ?_⟩
  have hcases : order 2 swapMap = [("a", ["b"]), ("b", ["a"])] ∨
      order 2 swapMap = [("b", ["a"]), ("a", ["b"])] := by
    have hmem := mem_permutations'.mpr horder
    generalize order 2 swapMap = es at hmem
    revert es
    decide
  rcases hcases with he | he
  · rw [he] at h
    have := (h "a").2 ["a"] (by decide) "a"
    revert this
    decide
  · rw [he] at h
    have := (h "b").2 ["b"] (by decide) "b"
    revert this
    decide

end Swapped

end CloudServer.StoreLineage
