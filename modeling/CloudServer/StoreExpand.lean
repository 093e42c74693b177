import CloudServer.StoreObjects

/-! Complete versions: what a draft writes is complete once its objects are stored, and an
expanded manifest is its body with the content of its pages. -/
namespace CloudServer.StoreExpand
open SceneFold SceneApi StoreTiles StoreSave StoreOps StoreObjects List Dict

/-- Every object that the manifest names is stored. -/
structure Complete (d : Dict Name Obj) (b : Body) : Prop where
  pages : ∀ h ∈ b.pages.items.map Prod.snd, ∃ p, d.get (.page b.generation h) = some (.page p) ∧
    ∀ e ∈ p.tiles.items, (d.get (.tile b.generation e.2)).isSome
  segments : ∀ h ∈ b.segments, (d.get (.segment b.generation h)).isSome

structure DraftOk (codec : Codec) (gen : ℕ) (prev : Option Manifest) (d : Draft) : Prop where
  packed : AllPacked codec d.blobs
  tiles : ∀ t h, d.tiles.get t = some h →
    (d.blobs.get (.tile gen h)).isSome ∨ Name.tile gen h ∈ knownNames prev
  seg_hashes : d.seg_hashes = d.segs.map codec.segment
  segs : ∀ h ∈ d.seg_hashes,
    (d.blobs.get (.segment gen h)).isSome ∨ Name.segment gen h ∈ knownNames prev
  page_hashes : d.page_hashes = Dict.ofList (d.pages.map fun e => (e.1, codec.page e.2))
  pages : ∀ e ∈ d.pages, (d.blobs.get (.page gen (codec.page e.2))).isSome ∨
    Name.page gen (codec.page e.2) ∈ knownNames prev

variable {s : Coord} {h : Hash} {store : Dict Name Obj} {cs : List ChartDoc} {ps : List Page}

section Draft
variable {codec : Codec} {cfg : Config} {mem : Memory} {md : Option Meta} {gen : ℕ}
  {pend : Option Pending} {prev : Option Manifest} {c : SaveCall} {full : Bool} {d : Draft}

structure DraftFrom (codec : Codec) (cfg : Config) (gen : ℕ) (pend : Option Pending)
    (prev : Option Manifest) (c : SaveCall) (full : Bool) (d : Draft) : Prop where
  state : c.state = some d.st
  ids : d.ids = idsOf prev d.st
  tiles : ∃ blobs, saveTiles codec cfg d.st d.ids gen pend prev c.dirty full = .ok (d.tiles, blobs)
  charts : chartDocs d.ids c.charts = some d.charts
  links : d.links = c.links.map linkDoc

lemma draftSave_ok (h : draftSave codec cfg mem md gen pend prev c full = .ok d) (hg : ∀ m ∈ prev, m.body.generation = gen)
    (hs : TrustSegments codec gen (knownNames prev) (trusted mem.last_segments gen (baseName md pend)))
    (hp : TrustPages codec gen (knownNames prev) (trusted mem.last_pages gen (baseName md pend))) :
    DraftOk codec gen prev d ∧ DraftFrom codec cfg gen pend prev c full d := by
  unfold draftSave at h
  cases hst : c.state with
  | none => simp [hst] at h
  | some st =>
    simp only [hst] at h
    split_ifs at h
    cases ht : saveTiles codec cfg st (idsOf prev st) gen pend prev c.dirty full with
    | error e => simp [ht] at h
    | ok t =>
      cases hc : chartDocs (idsOf prev st) c.charts with
      | none => simp [ht, hc] at h
      | some charts =>
        simp only [ht, hc] at h
        split_ifs at h
        cases h
        obtain ⟨s1, s2, s3, s4⟩ := saveSegments_spec hs (segmentsOf st.leaves) (saveTiles_named ht)
        obtain ⟨p1, p2, p3, p4⟩ := savePage_run hp (pagesOf t.1 charts (c.links.map linkDoc))
          (.empty, (saveSegments codec gen (trusted mem.last_segments gen (baseName md pend))
            (segmentsOf st.leaves) t.2).2) s2
        refine ⟨⟨p2, fun t' h' ht' => ?_, s1, fun h' hh' => ?_, p1, p4⟩, hst, rfl, ⟨t.2, ht⟩, hc, rfl⟩
        · exact (saveTiles_present ht hg ht').imp_left fun hb => p3 _ (s3 _ hb)
        · dsimp only at hh'
          rw [s1] at hh'
          obtain ⟨rows, hrows, rfl⟩ := mem_map.mp hh'
          exact (s4 rows hrows).imp_left fun hb => p3 _ hb

lemma mem_pages {e : Coord × Page} (he : e ∈ d.pages) :
    e.2 = pageAt d.tiles d.charts d.links e.1 := by
  obtain ⟨s, -, rfl⟩ := mem_map.mp he
  rfl

lemma DraftOk.page_get (hd : DraftOk codec gen prev d) (hs : d.page_hashes.get s = some h) :
    (s, pageAt d.tiles d.charts d.links s) ∈ d.pages ∧ h = codec.page (pageAt d.tiles d.charts d.links s) := by
  rw [hd.page_hashes] at hs
  rcases get_update (.empty : Dict Coord Hash)
    (d.pages.map fun e => (e.1, codec.page e.2)) s with ⟨-, hg⟩ | ⟨v, hv, hg⟩
  · rw [Dict.ofList, hg] at hs
    simp at hs
  · rw [Dict.ofList, hg] at hs
    cases hs
    obtain ⟨e, he, hev⟩ := mem_map.mp hv
    cases hev
    have hpg := mem_pages he
    refine ⟨?_, by rw [hpg]⟩
    rw [← hpg]
    exact he

lemma named_page {g : ℕ} {o : Obj} (hn : Named codec (.page g h) o) :
    ∃ p, o = .page p ∧ codec.page p = h := by
  cases o with
  | page p => exact ⟨p, rfl, hn⟩
  | _ => exact hn.elim

lemma DraftOk.complete (hx : Codec.Exact codec) (hd : DraftOk codec gen prev d)
    (hstore : AllNamed codec store)
    (hknown : ∀ n ∈ knownNames prev, (store.get n).isSome)
    (hput : ∀ n, (d.blobs.get n).isSome → n ∉ knownNames prev → (store.get n).isSome)
    (version : Option ℕ) : Complete store (d.body codec gen version c) := by
  have hhas : ∀ n, (d.blobs.get n).isSome ∨ n ∈ knownNames prev → (store.get n).isSome := by
    intro n hn
    by_cases hk : n ∈ knownNames prev
    · exact hknown n hk
    · exact hput n (hn.resolve_right hk) hk
  refine ⟨fun h hh => ?_, fun h hh => hhas _ (hd.segs h hh)⟩
  obtain ⟨⟨s, h'⟩, he, rfl⟩ := mem_map.mp hh
  have hget : d.page_hashes.get s = some h' := by
    rw [← get_sorted]
    exact mem_items.mp he
  obtain ⟨hmem, rfl⟩ := hd.page_get hget
  obtain ⟨o, ho⟩ := Option.isSome_iff_exists.mp (hhas _ (hd.pages _ hmem))
  obtain ⟨p, rfl, hp⟩ := named_page (hstore _ _ ho)
  obtain rfl := hx.page hp
  refine ⟨_, ho, fun e he => ?_⟩
  have htile : d.tiles.get e.1 = some e.2 := by
    have := mem_items.mp he
    rw [pageAt, get_sorted, get_filter, Option.filter_eq_some_iff] at this
    exact this.1
  exact hhas _ (hd.tiles _ _ htile)

end Draft

structure Expands (codec : Codec) (man : Manifest) (ps : List Page) : Prop where
  pages : man.body.pages.items.map Prod.snd = ps.map codec.page
  tiles : ∀ t, man.tiles.get t = (expandWith man.body ps).tiles.get t
  charts : ∀ c, c ∈ man.charts ↔ ∃ p ∈ ps, c ∈ p.charts
  key_ids : ∀ k, man.key_ids.get k = (Dict.ofList (man.charts.map fun c => (c.key, c.id))).get k

lemma mem_sortCharts {c : ChartDoc} : c ∈ sortCharts cs ↔ c ∈ cs :=
  (mergeSort_perm cs _).mem_iff

lemma expandWith_expands {codec : Codec} {b : Body}
    (h : b.pages.items.map Prod.snd = ps.map codec.page) : Expands codec (expandWith b ps) ps where
  pages := h
  tiles := fun _ => rfl
  charts := by
    intro c
    simp only [expandWith, mem_sortCharts, mem_flatMap]
  key_ids := fun _ => rfl

lemma Expands.known_stored {codec : Codec} (hx : Codec.Exact codec) {man : Manifest}
    (he : Expands codec man ps)
    (hstore : AllNamed codec store) (hc : Complete store man.body) {n : Name}
    (hn : n ∈ knownNames (some man)) : (store.get n).isSome := by
  rcases mem_append.mp hn with hn | hn
  · rcases mem_append.mp hn with hn | hn
    · obtain ⟨⟨t, h⟩, ht, rfl⟩ := mem_map.mp hn
      have hget := he.tiles t
      rw [mem_items.mp ht] at hget
      rcases get_update (.empty : Dict Coord Hash) (ps.flatMap fun p => p.tiles.items) t with
        ⟨-, hg⟩ | ⟨v, hv, hg⟩
      · simp [expandWith, Dict.ofList, hg] at hget
      · obtain rfl : h = v := by simpa [expandWith, Dict.ofList, hg] using hget
        obtain ⟨p, hp, hpt⟩ := mem_flatMap.mp hv
        have hmem : codec.page p ∈ man.body.pages.items.map Prod.snd := by
          rw [he.pages]
          exact mem_map_of_mem hp
        obtain ⟨q, hq, htiles⟩ := hc.pages _ hmem
        have hqp : codec.page q = codec.page p := hstore _ _ hq
        obtain rfl := hx.page hqp
        exact htiles _ hpt
    · obtain ⟨h, hh, rfl⟩ := mem_map.mp hn
      exact hc.segments h hh
  · obtain ⟨e, hm, rfl⟩ := mem_map.mp hn
    obtain ⟨p, hp, -⟩ := hc.pages e.2 (mem_map_of_mem hm)
    rw [hp]
    rfl

lemma chartDocs_spec {ids : Ids} {charts : List Chart} {docs : List ChartDoc} (h : chartDocs ids charts = some docs) :
    docs.map ChartDoc.key = ids.keys ∧ ∀ c ∈ docs, c.id = ids.id c.key := by
  unfold chartDocs at h
  generalize ids.keys = keys at h ⊢
  induction keys generalizing docs with
  | nil =>
    simp only [mapM_nil, Option.pure_def, Option.some.injEq] at h
    subst h
    simp
  | cons k ks ih =>
    simp only [mapM_cons, Option.bind_eq_bind, Option.pure_def, Option.bind_eq_some_iff, Option.some.injEq] at h
    obtain ⟨c, hc, rest, hrest, rfl⟩ := h
    obtain ⟨ch, -, rfl⟩ := Option.map_eq_some_iff.mp hc
    obtain ⟨h1, h2⟩ := ih hrest
    refine ⟨by simp [h1, chartDoc], fun d hd => ?_⟩
    rcases mem_cons.mp hd with rfl | hd
    · rfl
    · exact h2 d hd

lemma keyTable_get {f : Key → ℕ} (h : ∀ c ∈ cs, c.id = f c.key) (k : Key) :
    (Dict.ofList (cs.map fun c => (c.key, c.id))).get k =
      if k ∈ cs.map ChartDoc.key then some (f k) else none := by
  split_ifs with hk
  · refine get_ofList (fun e he hek => ?_) ?_
    · obtain ⟨c, hc, rfl⟩ := mem_map.mp he
      rw [← hek]
      exact h c hc
    · simpa [Function.comp_def] using hk
  · refine get_ofList_none ?_
    simpa [Function.comp_def] using hk

section Draft
variable {codec : Codec} {cfg : Config} {gen : ℕ} {pend : Option Pending}
  {prev : Option Manifest} {c : SaveCall} {full : Bool} {d : Draft}

lemma DraftOk.get_page (hd : DraftOk codec gen prev d)
    (hs : s ∈ d.tiles.keys.map superOf ++ d.charts.map homeOf) :
    d.page_hashes.get s = some (codec.page (pageAt d.tiles d.charts d.links s)) := by
  have hmem : (s, pageAt d.tiles d.charts d.links s) ∈ d.pages :=
    mem_map.mpr ⟨s, mem_dedup.mpr hs, rfl⟩
  rw [hd.page_hashes]
  refine get_ofList (fun e he hes => ?_) ?_
  · obtain ⟨e', he', rfl⟩ := mem_map.mp he
    dsimp only at hes ⊢
    rw [mem_pages he', hes]
  · rw [map_map]
    exact mem_map.mpr ⟨_, hmem, rfl⟩

def Draft.pageList (d : Draft) : List Page :=
  d.page_hashes.sorted.items.map fun e => pageAt d.tiles d.charts d.links e.1

lemma DraftOk.mem_pageList (hd : DraftOk codec gen prev d)
    (hs : s ∈ d.tiles.keys.map superOf ++ d.charts.map homeOf) :
    pageAt d.tiles d.charts d.links s ∈ Draft.pageList d := by
  refine mem_map.mpr ⟨(s, codec.page (pageAt d.tiles d.charts d.links s)), ?_, rfl⟩
  rw [mem_items, get_sorted]
  exact hd.get_page hs

lemma pageAt_tile {t : Coord} :
    (t, h) ∈ (pageAt d.tiles d.charts d.links s).tiles.items ↔ d.tiles.get t = some h ∧ superOf t = s := by
  rw [mem_items, pageAt, get_sorted, get_filter, Option.filter_eq_some_iff]
  simp

lemma DraftOk.expands (hd : DraftOk codec gen prev d) (hf : DraftFrom codec cfg gen pend prev c full d) (version : Option ℕ) :
    Expands codec (expandedOf (d.body codec gen version c) d.tiles d.charts d.links) (Draft.pageList d) where
  pages := by
    change d.page_hashes.sorted.items.map Prod.snd = _
    unfold Draft.pageList
    rw [map_map]
    refine map_congr_left fun e he => ?_
    have hget := mem_items.mp (show (e.1, e.2) ∈ d.page_hashes.sorted.items from he)
    rw [get_sorted] at hget
    exact (hd.page_get hget).2
  tiles := by
    intro t
    change d.tiles.get t = _
    rcases get_update (.empty : Dict Coord Hash)
      ((Draft.pageList d).flatMap fun p => p.tiles.items) t with ⟨hk, hg⟩ | ⟨v, hv, hg⟩
    · simp only [expandWith, Dict.ofList, hg, get_empty]
      by_contra hne
      obtain ⟨h, hh⟩ := Option.ne_none_iff_exists'.mp hne
      have hs : superOf t ∈ d.tiles.keys.map superOf ++ d.charts.map homeOf :=
        mem_append_left _ (mem_map_of_mem (mem_keys.mpr ⟨h, hh⟩))
      refine hk (mem_map.mpr ⟨(t, h), mem_flatMap.mpr ⟨_, hd.mem_pageList hs, pageAt_tile.mpr ⟨hh, rfl⟩⟩, rfl⟩)
    · simp only [expandWith, Dict.ofList, hg]
      obtain ⟨p, hp, hpt⟩ := mem_flatMap.mp hv
      obtain ⟨e, -, rfl⟩ := mem_map.mp hp
      exact (pageAt_tile.mp hpt).1
  charts := by
    intro ch
    change ch ∈ sortCharts d.charts ↔ _
    rw [mem_sortCharts]
    constructor
    · intro hch
      refine ⟨_, hd.mem_pageList (mem_append_right _ (mem_map_of_mem hch)), ?_⟩
      exact mem_sortCharts.mpr (mem_filter.mpr ⟨hch, by simp⟩)
    · rintro ⟨p, hp, hch⟩
      obtain ⟨e, -, rfl⟩ := mem_map.mp hp
      exact (mem_filter.mp (mem_sortCharts.mp hch)).1
  key_ids := by
    intro k
    obtain ⟨-, hid⟩ := chartDocs_spec hf.charts
    have hsort : ∀ ch ∈ sortCharts d.charts, ch.id = d.ids.id ch.key := fun ch hch =>
      hid ch (mem_sortCharts.mp hch)
    change (Dict.ofList (d.charts.map fun c => (c.key, c.id))).get k =
      (Dict.ofList ((sortCharts d.charts).map fun c => (c.key, c.id))).get k
    rw [keyTable_get hid, keyTable_get hsort]
    simp only [mem_map, mem_sortCharts]

end Draft

end CloudServer.StoreExpand
