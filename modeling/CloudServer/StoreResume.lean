import CloudServer.StoreChain

/-! A rebuild that is committed: the cursor and the watermark of the committed version against
the last save into the pending generation. -/
namespace CloudServer.StoreResume
open SceneLeaf SceneFold SceneApi StoreTiles StoreSave StoreOps StoreObjects StoreExpand StoreRun
open StoreHistory StoreSequence StoreCalls StoreRetain StoreChain StoreCodec Interact Option

/-- The last save into the pending generation, and the last one that changed its content. -/
structure Last where
  save : Option SaveCall
  change : Option SaveCall

def Last.none : Last := ⟨.none, .none⟩

def pendingContent (s : Backend) : Option Hash :=
  ((s.doc.bind Meta.pending).bind Pending.manifest).bind fun n => match s.blobs.get n with
    | some (.manifest b) => some b.content_hash
    | _ => .none

def pendingGeneration (s : Backend) : Option ℕ := (s.doc.bind Meta.pending).map Pending.generation

/-- A pending save that succeeds is the last one; a new generation and a switch begin anew. -/
def Last.after (L : Last) (s : Backend) (c : Call) (r : Except SaveError ℕ) (s' : Backend) : Last :=
  match c, r with
  | .save c, .ok _ => match saveTarget s.doc c with
    | .ok (_, some _) => ⟨some c, if pendingContent s' = pendingContent s then L.change else some c⟩
    | _ => L
  | .begin _, .ok g => if pendingGeneration s = some g then L else .none
  | .commit _, .ok _ => .none
  | _, _ => L

section Runs
variable (codec : Codec) (cfg : Config) (indexed : Bool) {ι : Type} [DecidableEq ι]

inductive Rebuilding : World ι → Last → Prop
  | fresh : Rebuilding (World.fresh ι) .none
  | call {S : World ι} {L : Last} (h : Rebuilding S L) (i : ι) (c : Call) (hc : Allowed c) :
      Rebuilding (S.call codec cfg indexed i c)
        (L.after S.store c (result codec cfg indexed S i c) (S.call codec cfg indexed i c).store)

variable {codec cfg indexed}

/-- The pending manifest has the watermark of the last save and the cursor of the last one that
changed the content. -/
def Tracks (H : History) (s : Backend) (L : Last) : Prop :=
  ∀ m ∈ s.doc, ∀ p ∈ m.pending, ∀ n ∈ p.manifest, ∃ c st cw b, L.save = some c ∧
    c.state = some st ∧ L.change = some cw ∧ H n = some b ∧ b.watermark = st.watermark ∧
    b.cursor = cw.cursor

lemma Tracks.mono {H H' : History} {s s' : Backend} {L : Last} (h : Tracks H s L) (hle : H.Le H')
    (hp : ∀ n, (s'.doc.bind Meta.pending).bind Pending.manifest = some n →
      (s.doc.bind Meta.pending).bind Pending.manifest = some n) : Tracks H' s' L := by
  intro m' hm' p' hp' n hn
  rw [mem_def] at hm' hp' hn
  have hold := hp n (by rw [hm', bind_some, hp', bind_some, hn])
  obtain ⟨p, hbind, hpn⟩ := bind_eq_some_iff.mp hold
  obtain ⟨m, hm, hmp⟩ := bind_eq_some_iff.mp hbind
  obtain ⟨c, st, cw, b, hc, hst, hcw, hb, hrest⟩ := h m hm p hmp n hpn
  exact ⟨c, st, cw, b, hc, hst, hcw, hle n b hb, hrest⟩

lemma pendingContent_eq {s : Backend} {m : Meta} (hdoc : s.doc = some m) {p : Pending}
    (hp : m.pending = some p) : pendingContent s = p.manifest.bind fun n => match s.blobs.get n with
      | some (.manifest b) => some b.content_hash
      | _ => .none := by
  unfold pendingContent
  rw [hdoc, bind_some, hp, bind_some]

lemma same_tracks (hx : Codec.Exact codec) {H : History} {s : Backend} (hs : StoreOk codec H s)
    {L : Last} (h : Tracks H s L) {c : SaveCall} {gen : ℕ} {pend : Option Pending}
    {prev : Option Manifest} {full : Bool} {d : Draft}
    (hb : Built codec cfg H s c gen pend prev full d) {o : Option Meta} {k : ℕ}
    (ho : planSave codec s.doc gen pend prev c d = .same o k) :
    Tracks H { s with doc := o.or s.doc } (L.after s (.save c) (.ok k) { s with doc := o.or s.doc }) := by
  have hkeep : ((o.or s.doc).bind Meta.pending).bind Pending.manifest =
      (s.doc.bind Meta.pending).bind Pending.manifest := by
    cases o with
    | none => rfl
    | some m' =>
      obtain ⟨m, hdoc, ⟨p, hp, rfl⟩ | rfl⟩ := planSave_same ho
      · rcases saveTarget_cases hb.target with ⟨rfl, -⟩ | ⟨m2, p2, hdoc2, hp2, hpend, -⟩
        · cases hp
        · cases hp.symm.trans hpend
          rw [hdoc2, bind_some, hp2]
          rfl
      · rw [hdoc]
        rfl
  have hold : Tracks H { s with doc := o.or s.doc } L :=
    h.mono (fun _ _ hn => hn) fun n hn => hkeep ▸ hn
  unfold Last.after
  dsimp only
  rw [hb.target]
  cases pend with
  | none => exact hold
  | some p =>
    dsimp only
    have hcont : pendingContent { s with doc := o.or s.doc } = pendingContent s := by
      unfold pendingContent
      dsimp only
      rw [hkeep]
    rw [if_pos hcont]
    intro m' hm' p' hp' n hn
    obtain ⟨c0, st0, cw, b, -, -, hcw, hbn, -, hcur⟩ := hold m' hm' p' hp' n hn
    refine ⟨c, d.st, cw, b, rfl, hb.draft.state, hcw, hbn, ?_, hcur⟩
    have hbase : baseName s.doc (some p) = some n := by
      have hm' : o.or s.doc = some m' := hm'
      rw [mem_def] at hp' hn
      rcases saveTarget_cases hb.target with ⟨hnone, -⟩ | ⟨m, q, hdoc, hq, hpq, -⟩
      · cases hnone
      · cases hpq
        have : ((o.or s.doc).bind Meta.pending).bind Pending.manifest = some n := by
          rw [hm', bind_some, hp', bind_some, hn]
        rw [hkeep, hdoc, bind_some, hq, bind_some] at this
        exact this
    obtain ⟨man, hprev, hhash⟩ := planSave_unchanged ho
    obtain ⟨man', ps, hman, hst, -, -⟩ := hb.base n hbase
    obtain rfl : man = man' := Option.some.inj (hprev.symm.trans hman)
    obtain rfl : man.body = b := Option.some.inj (hst.hist.symm.trans hbn)
    rw [hs.hashed _ _ hst.hist] at hhash
    exact congrArg Content.watermark (hx.content hhash)

lemma write_tracks {H : History} {s : Backend} {L : Last} (h : Tracks H s L) {c : SaveCall}
    {gen : ℕ} {pend : Option Pending} {prev : Option Manifest}
    {full : Bool} {d : Draft} (hb : Built codec cfg H s c gen pend prev full d) {w : Write}
    (hw : planSave codec s.doc gen pend prev c d = .write w) (index : Option ℕ)
    (hle : H.Le (Function.update H w.name (some w.body))) :
    Tracks (Function.update H w.name (some w.body))
      ⟨(s.blobs.update w.puts).set w.name (.manifest w.body), some { w.newMeta with index_version := index }⟩
      (L.after s (.save c) (.ok w.result) ⟨(s.blobs.update w.puts).set w.name (.manifest w.body),
        some { w.newMeta with index_version := index }⟩) := by
  unfold Last.after
  dsimp only
  rw [hb.target]
  rcases planSave_numbers hw with ⟨m, p, hdoc, rfl, hwrite⟩ | ⟨hcur, hwrite⟩
  · dsimp only
    have hhash : ∀ man ∈ prev, man.body.content_hash ≠ codec.content (d.content codec gen) := by
      intro man hman he
      rw [mem_def] at hman
      simp [planSave, hdoc, hman, he] at hw
    have hdiff : pendingContent ⟨(s.blobs.update w.puts).set w.name (.manifest w.body),
        some { w.newMeta with index_version := index }⟩ ≠ pendingContent s := by
      have hnew : pendingContent ⟨(s.blobs.update w.puts).set w.name (.manifest w.body),
          some { w.newMeta with index_version := index }⟩ =
          some (codec.content (d.content codec gen)) := by
        rw [hwrite]
        unfold pendingContent Draft.write commitPending
        dsimp only [bind_some]
        rw [Dict.get_set, if_pos rfl]
        rfl
      obtain ⟨m2, p2, hdoc2, hp2, hpend, -⟩ : ∃ m2 p2, s.doc = some m2 ∧ m2.pending = some p2 ∧
          some p = some p2 ∧ gen = p2.generation := by
        rcases saveTarget_cases hb.target with ⟨hnone, -⟩ | hsome
        · cases hnone
        · exact hsome
      cases hpend
      rw [hnew, pendingContent_eq hdoc2 hp2]
      cases hman : p.manifest with
      | none => exact fun he => by cases he
      | some n =>
        obtain ⟨man, ps, hprev, hst, -, -⟩ := hb.base n hman
        rw [bind_some, hst.blob]
        exact fun he => hhash man hprev (Option.some.inj he).symm
    rw [if_neg hdiff]
    intro m' hm' p' hp' n hn
    cases hm'
    rw [hwrite] at hp'
    cases hp'
    cases hn
    refine ⟨c, d.st, c, d.body codec gen .none c, rfl, hb.draft.state, rfl, ?_, rfl, rfl⟩
    rw [hwrite]
    exact Function.update_self ..
  · have hmeta : w.newMeta.pending = s.doc.bind Meta.pending := by
      rw [hwrite]
      rfl
    have hold : Tracks (Function.update H w.name (some w.body))
        ⟨(s.blobs.update w.puts).set w.name (.manifest w.body), some { w.newMeta with index_version := index }⟩ L := by
      refine h.mono hle fun n hn => ?_
      rw [bind_some, hmeta] at hn
      exact hn
    cases pend with
    | none => exact hold
    | some p =>
      rcases hcur with hnone | hnone
      · rcases saveTarget_cases hb.target with ⟨hp, -⟩ | ⟨m, q, hdoc, -⟩
        · cases hp
        · rw [hnone] at hdoc
          cases hdoc
      · cases hnone

lemma Tracks.save (hx : Codec.Exact codec) {H : History} {s : Backend} (hs : StoreOk codec H s)
    {L : Last} (h : Tracks H s L) {c : SaveCall} {r : (Except SaveError ℕ × Memory) × Backend}
    (hr : SaveRun codec cfg H s c r) :
    ∃ H', Advance codec H s H' r.2 r.1.2 ∧ Tracks H' r.2 (L.after s (.save c) r.1.1 r.2) := by
  cases hr with
  | error e he mem' hM => exact ⟨H, .idle hs hM, h⟩
  | same hb o k ho mem' hM => exact ⟨H, same_advance hs hb ho hM, same_tracks hx hs h hb ho⟩
  | write hb w hw index mem' hM =>
    have hadv := write_advance hx hs hb hw index hM
    exact ⟨_, hadv, write_tracks h hb hw index hadv.le⟩

lemma Tracks.begin {H : History} {s : Backend} {L : Last} (h : Tracks H s L) (c : BeginCall)
    {r : Except SaveError ℕ × Backend} (hr : BeginRun s r) :
    Tracks H r.2 (L.after s (.begin c) r.1 r.2) := by
  cases hr with
  | none hdoc => exact h
  | @resume m hdoc p hp =>
    have hgen : pendingGeneration s = some p.generation := by
      unfold pendingGeneration
      rw [hdoc, bind_some, hp]
      rfl
    unfold Last.after
    dsimp only
    rw [if_pos hgen]
    exact h
  | @adopt m hdoc p hp hash =>
    have hgen : pendingGeneration s = some p.generation := by
      unfold pendingGeneration
      rw [hdoc, bind_some, hp]
      rfl
    unfold Last.after
    dsimp only
    rw [if_pos hgen]
    refine h.mono (fun _ _ hn => hn) fun n hn => ?_
    rw [hdoc, bind_some, hp]
    exact hn
  | @start m hdoc q hq hman =>
    intro m' hm' p' hp' n hn
    cases hm'
    cases hp'
    rw [hman] at hn
    cases hn

lemma Tracks.switch {H : History} {m : Meta} {new : Manifest} {g v : ℕ} {n : Name}
    (blobs : Dict Name Obj) : Tracks H ⟨blobs, some (switchMeta m new g v n)⟩ Last.none := by
  intro m' hm' p' hp'
  cases hm'
  cases hp'

omit [DecidableEq ι] in
lemma result_begin (S : World ι) (i : ι) (c : BeginCall) : result codec cfg indexed S i (.begin c) =
    ((beginGeneration c).run (perform indexed) S.store).1 := by
  unfold result program
  dsimp only
  rw [Prog.run_bind]
  rfl

lemma store_begin (S : World ι) (i : ι) (c : BeginCall) :
    (S.call codec cfg indexed i (.begin c)).store = ((beginGeneration c).run (perform indexed) S.store).2 := by
  unfold World.call program
  dsimp only
  rw [Prog.run_bind]
  rfl

omit [DecidableEq ι] in
lemma result_commit (S : World ι) (i : ι) (g : ℕ) : result codec cfg indexed S i (.commit g) =
    ((commitGeneration g (S.memory i)).run (perform indexed) S.store).1.1.map Prod.fst := by
  unfold result program
  dsimp only
  rw [Prog.run_bind]
  rfl

lemma store_commit (S : World ι) (i : ι) (g : ℕ) : (S.call codec cfg indexed i (.commit g)).store =
    ((commitGeneration g (S.memory i)).run (perform indexed) S.store).2 := by
  unfold World.call program
  dsimp only
  rw [Prog.run_bind]
  rfl

lemma Rebuilding.ok (hx : Codec.Exact codec) {S : World ι} {L : Last}
    (h : Rebuilding codec cfg indexed S L) : ∃ H, WorldOk codec H S ∧ Tracks H S.store L := by
  induction h with
  | fresh => exact ⟨_, WorldOk.fresh codec ι, by intro m hm; cases hm⟩
  | @call S L h i c hc ih =>
    obtain ⟨H, hS, hL⟩ := ih
    cases c with
    | save c =>
      obtain ⟨H', hadv, hL'⟩ := hL.save hx hS.store (hS.save_run i c)
      exact ⟨H', hS.save i c hadv, hL'⟩
    | begin c =>
      refine ⟨H, hS.begin i c, ?_⟩
      rw [result_begin, store_begin]
      exact hL.begin c (begin_run c S.store)
    | commit g =>
      have hr := @commit_run codec indexed H (S.memory i) S.store hS.store (hS.memory i) g
      obtain ⟨H', hadv⟩ := commit_advance hx hS.store hr
      refine ⟨H', hS.commit i g hadv, ?_⟩
      rw [result_commit, store_commit]
      have hle := hadv.le
      generalize (commitGeneration g (S.memory i)).run (perform indexed) S.store = r at hr hle ⊢
      cases hr with
      | error e mem' hM => exact hL.mono hle fun n hn => hn
      | switch hdoc hp hg hpn hold hnew kmap pairs hk mem' hM => exact Tracks.switch _
    | gc c =>
      refine ⟨H, hS.collect i hc, hL.mono (fun _ _ hn => hn) fun n hn => ?_⟩
      rw [store_gc] at hn
      cases hdoc : S.store.doc with
      | none =>
        rw [@gc_blank indexed S.store hdoc c (S.memory i), hdoc] at hn
        exact hn
      | some m =>
        obtain ⟨dead, hrun, -⟩ := @gc_run codec indexed H S.store hS.store m hdoc c (S.memory i)
        rw [hrun] at hn
        exact hn
    | drop => exact hc.elim

lemma Rebuilding.commit (hx : Codec.Exact codec) {S : World ι} {L : Last}
    (h : Rebuilding codec cfg indexed S L) (i : ι) {g v : ℕ}
    (hok : result codec cfg indexed S i (.commit g) = .ok v) :
    ∃ c st cw m, L.save = some c ∧ c.state = some st ∧ L.change = some cw ∧
      (S.call codec cfg indexed i (.commit g)).store.doc = some m ∧ m.watermark = st.watermark ∧
      m.cursor = cw.cursor := by
  obtain ⟨H, hS, hL⟩ := h.ok hx
  have hr := @commit_run codec indexed H (S.memory i) S.store hS.store (hS.memory i) g
  rw [result_commit] at hok
  rw [store_commit]
  generalize (commitGeneration g (S.memory i)).run (perform indexed) S.store = r at hr hok ⊢
  cases hr with
  | error e mem' hM => cases hok
  | @switch m hdoc p hp hg pn hpn old new hold hnew kmap pairs hk mem' hM =>
    obtain ⟨c, st, cw, b, hc, hst, hcw, hb, hwater, hcursor⟩ := hL m hdoc p hp pn hpn
    cases hnew.hist.symm.trans hb
    exact ⟨c, st, cw, _, hc, hst, hcw, rfl, hwater, hcursor⟩

/-- The committed version has the watermark of the last pending save, and its cursor exactly when
the last pending save that changed the content had it too. -/
theorem commit_resumes_iff (hx : Codec.Exact codec) {S : World ι} {L : Last}
    (h : Rebuilding codec cfg indexed S L) (i : ι) {g v : ℕ}
    (hok : result codec cfg indexed S i (.commit g) = .ok v) :
    ∃ c st m, L.save = some c ∧ c.state = some st ∧
      (S.call codec cfg indexed i (.commit g)).store.doc = some m ∧ m.watermark = st.watermark ∧
      ((m.cursor = c.cursor ∧ m.watermark = st.watermark) ↔
        L.change.map SaveCall.cursor = some c.cursor) := by
  obtain ⟨c, st, cw, m, hc, hst, hcw, hdoc, hwater, hcursor⟩ := h.commit hx i hok
  refine ⟨c, st, m, hc, hst, hdoc, hwater, ?_⟩
  rw [hcw, map_some, Option.some.injEq, ← hcursor]
  exact ⟨fun he => he.1, fun he => ⟨he, hwater⟩⟩

end Runs

section Sample
variable {codec : Codec} {cfg : Config} {indexed : Bool} {H : History} {s : Backend} {mem : Memory}

lemma tileArrays_empty (t tx ty : ℤ) : tileArrays (emptyState t) tx ty none = none := by
  simp [tileArrays, fullTile, slice, anyCell, emptyState, chanTiles, ownTile, Dict.map, Dict.sorted, Dict.filter, Dict.empty]

lemma packTiles_empty {st : EngineState} {t : ℤ} (hst : st = emptyState t) {lut : Option (List ℕ)}
    (hlut : lut = none) (gen : ℕ) (old : Dict Coord Hash) (known : List Name) (coords : List Coord)
    (acc : Dict Coord Hash × Dict Name Obj) (h : acc.1.items = []) :
    (packTiles codec st lut gen old known acc coords).1.items = [] := by
  subst hst hlut
  induction coords generalizing acc with
  | nil => exact h
  | cons x coords ih =>
    unfold packTiles
    rw [List.foldl_cons]
    refine ih _ ?_
    unfold packTile
    rw [tileArrays_empty]
    dsimp only [Dict.erase]
    rw [h]
    rfl

def emptyContent (codec : Codec) (gen : ℕ) (t : ℤ) : Content :=
  ⟨pipelineOf (emptyState t).params, gen, (emptyState t).params, codec.params (emptyState t).params,
    (emptyState t).watermark, [], 1, .empty, [], 0, 0,
    (segmentsOf (emptyState t).leaves).map codec.segment, 1⟩

lemma eq_empty {κ α : Type} {d : Dict κ α} (h : d.items = []) : d = .empty := by
  cases d
  cases h
  rfl

def Bare (prev : Option Manifest) : Prop :=
  ∀ m ∈ prev, m.body.next_id = 1 ∧ m.tiles.items = []

lemma empty_draft {gen : ℕ} {pend : Option Pending} {prev : Option Manifest} {c : SaveCall}
    {full : Bool} {d : Draft} {t : ℤ} (hok : DraftOk codec gen prev d)
    (hd : DraftFrom codec cfg gen pend prev c full d) (hst : c.state = some (emptyState t))
    (hprev : Bare prev) : d.content codec gen = emptyContent codec gen t := by
  have hstate : d.st = emptyState t := Option.some.inj (hd.state.symm.trans hst)
  have hids : d.ids.keys = [] ∧ d.ids.next_id = 1 := by
    rw [hd.ids, hstate]
    cases prev with
    | none => exact ⟨rfl, rfl⟩
    | some m => exact ⟨rfl, (hprev m rfl).1⟩
  have hcharts : d.charts = [] := by
    have := hd.charts
    unfold chartDocs at this
    rw [hids.1] at this
    exact (Option.some.inj this).symm
  have htiles : d.tiles.items = [] := by
    obtain ⟨blobs, hsave⟩ := hd.tiles
    have hlut : d.ids.lut = none := by
      unfold Ids.lut
      rw [hids.1, if_pos rfl]
    rcases saveTiles_cases hsave with he | ⟨m, hm, -, he | he⟩
    · obtain ⟨htiles, -⟩ := Prod.mk.inj he
      rw [htiles]
      exact packTiles_empty hstate hlut gen _ _ _ _ rfl
    · obtain ⟨htiles, -⟩ := Prod.mk.inj he
      rw [htiles]
      exact packTiles_empty hstate hlut gen _ _ _ _ (hprev m hm).2
    · obtain ⟨htiles, -⟩ := Prod.mk.inj he
      rw [htiles]
      exact packTiles_empty hstate hlut gen _ _ _ _ rfl
  have hpages : d.pages = [] := by
    unfold Draft.pages pagesOf Dict.keys
    rw [htiles, hcharts]
    rfl
  have hhashes : d.page_hashes.sorted = .empty := by
    have hnil : d.page_hashes = .empty := by
      rw [hok.page_hashes, hpages]
      rfl
    refine eq_empty ?_
    rw [hnil]
    unfold Dict.sorted Dict.empty
    simp
  unfold Draft.content emptyContent
  rw [hok.seg_hashes, hids.1, hids.2, hhashes, hcharts, htiles, hstate]
  unfold Draft.segs
  rw [hstate]
  simp [emptyState, Dict.keys, Dict.empty]

/-- A pending save of the empty map over version `expected`. -/
def emptyResave (t : ℤ) (expected gen : ℕ) (cursor : Option String) : SaveCall :=
  { emptySave t (some expected) with cursor := cursor, generation := some gen }

lemma bare_base {gen : ℕ} {t : ℤ} {man : Manifest} {ps : List Page} (he : Expands codec man ps)
    (hb : man.body.toContent = emptyContent codec gen t) :
    man.body.next_id = 1 ∧ man.tiles.items = [] := by
  have hpages : man.body.pages = .empty := congrArg Content.pages hb
  refine ⟨congrArg Content.next_id hb, List.eq_nil_iff_forall_not_mem.mpr fun e hmem => ?_⟩
  have hps : ps = [] := by
    have := he.pages
    rw [hpages] at this
    exact List.map_eq_nil_iff.mp this.symm
  have hget := he.tiles e.1
  rw [hps, Dict.mem_items.mp hmem] at hget
  cases hget

lemma resave_target (hs : StoreOk codec H s) {m : Meta} (hdoc : s.doc = some m) {p : Pending}
    (hp : m.pending = some p) (t : ℤ) (cursor : Option String) :
    saveTarget s.doc (emptyResave t m.version p.generation cursor) = .ok (p.generation, some p) := by
  have hmeta := hs.doc m hdoc
  have hver : m.version ≠ 0 := by
    obtain ⟨b, hb⟩ := hs.current m hdoc
    have := (hs.stored _ _ hb).hist
    rw [hmeta.manifest] at this
    have := (hmeta.committed m.generation m.version (by rw [this]; rfl)).1.1
    omega
  have hne : p.generation ≠ m.generation := (hmeta.pending p hp).1.ne'
  unfold saveTarget emptyResave emptySave
  rw [hdoc]
  simp [hver, hne, hp]

lemma resave_run (hs : StoreOk codec H s) (hM : MemOk codec H mem)
    (hcfg : cfg.verify_every = 0) {m : Meta} (hdoc : s.doc = some m) {p : Pending}
    (hp : m.pending = some p) {t : ℤ}
    (hparams : (p.params_hash.any fun h => h ≠ codec.params (emptyState t).params) = false)
    (hbase : ∀ n ∈ p.manifest, ∀ b, H n = some b → b.toContent = emptyContent codec p.generation t)
    (cursor : Option String) : ∃ k m' p' n b,
      ((save codec cfg (emptyResave t m.version p.generation cursor) mem).run (perform indexed) s).1.1 = .ok k ∧
      ((save codec cfg (emptyResave t m.version p.generation cursor) mem).run (perform indexed) s).2.doc = some m' ∧
      m'.version = m.version ∧ m'.manifest = m.manifest ∧ m'.pending = some p' ∧
      p'.generation = p.generation ∧
      (p'.params_hash.any fun h => h ≠ codec.params (emptyState t).params) = false ∧
      p'.manifest = some n ∧
      ((save codec cfg (emptyResave t m.version p.generation cursor) mem).run
        (perform indexed) s).2.blobs.get n = some (.manifest b) ∧
      b.toContent = emptyContent codec p.generation t := by
  have htarget := resave_target hs hdoc hp t cursor
  have hr := @save_run codec cfg indexed H mem s hM hs.named
    (emptyResave t m.version p.generation cursor)
    fun gen pend ht n hn => hs.base ht hn
  have hdue : ∀ mem, checkDue cfg mem (emptyResave t m.version p.generation cursor) = false := by
    intro mem
    simp [checkDue, hcfg, emptyResave, emptySave]
  have hbare {gen : ℕ} {pend : Option Pending} {prev : Option Manifest} {full : Bool} {d : Draft}
      (hb : Built codec cfg H s (emptyResave t m.version p.generation cursor) gen pend prev full
        d) : gen = p.generation ∧ pend = some p ∧
        d.content codec gen = emptyContent codec p.generation t := by
    have ht := hb.target
    rw [htarget] at ht
    cases ht
    refine ⟨rfl, rfl, empty_draft hb.ok hb.draft rfl fun man hman => ?_⟩
    cases hn : p.manifest with
    | none =>
      have := hb.fresh hn
      rw [this] at hman
      cases hman
    | some n =>
      obtain ⟨man', ps, hprev, hst, -, hps⟩ := hb.base n hn
      obtain rfl : man' = man := Option.some.inj (hprev.symm.trans hman)
      exact bare_base hps (hbase n hn _ hst.hist)
  generalize (save codec cfg (emptyResave t m.version p.generation cursor) mem).run
    (perform indexed) s = r at hr
  cases hr with
  | error e he mem' hM' =>
    rcases he with he | ⟨mem1, gen, pend, prev, ht, hd⟩
    · rw [htarget] at he
      cases he
    · rw [htarget] at ht
      cases ht
      rw [hdue] at hd
      exact absurd hd (@draftSave_plain codec cfg mem1 s.doc p.generation (some p) prev _
        (emptyState t) rfl (fun _ hk => by cases hk) rfl hparams e)
  | @same gen pend prev full d hb o k ho mem' hM' =>
    obtain ⟨rfl, rfl, hcont⟩ := hbare hb
    obtain ⟨man, hprev, hhash⟩ := planSave_unchanged ho
    have hsome : ∃ n, p.manifest = some n := by
      by_contra hne
      push Not at hne
      rw [hb.fresh (eq_none_iff_forall_ne_some.mpr hne)] at hprev
      cases hprev
    obtain ⟨n, hn⟩ := hsome
    obtain ⟨man', ps, hman, hst, -, -⟩ := hb.base n hn
    have hbody := hbase n hn _ hst.hist
    cases o with
    | none =>
      exact ⟨k, m, p, n, man'.body, rfl, hdoc, rfl, rfl, hp, rfl, hparams, hn, hst.blob, hbody⟩
    | some m' =>
      obtain ⟨m2, hdoc2, ⟨p2, hp2, rfl⟩ | rfl⟩ := planSave_same ho
      · cases hdoc2.symm.trans hdoc
        cases hp2
        exact ⟨k, _, _, n, man'.body, rfl, rfl, rfl, rfl, rfl, rfl, hparams, hn, hst.blob, hbody⟩
      · cases hdoc2.symm.trans hdoc
        exact ⟨k, _, p, n, man'.body, rfl, rfl, rfl, rfl, hp, rfl, hparams, hn, hst.blob, hbody⟩
  | @write gen pend prev full d hb w hw index mem' hM' =>
    obtain ⟨rfl, rfl, hcont⟩ := hbare hb
    have hstate : d.st = emptyState t := Option.some.inj (hb.draft.state.symm.trans rfl)
    rcases planSave_numbers hw with ⟨m2, p2, hdoc2, hp2, rfl⟩ | ⟨hnone | hnone, -⟩
    · cases hdoc2.symm.trans hdoc
      cases hp2
      refine ⟨_, _, _, _, d.body codec p.generation .none _, rfl, rfl, rfl, rfl, rfl, rfl, ?_, rfl,
        (Dict.get_set _ _ _ _).trans (if_pos rfl), hcont⟩
      change (decide (codec.params d.st.params ≠ codec.params (emptyState t).params)) = false
      rw [hstate]
      exact decide_eq_false fun he => he rfl
    · rw [hdoc] at hnone
      cases hnone
    · cases hnone

lemma commit_empty (hs : StoreOk codec H s) (hM : MemOk codec H mem) {m : Meta}
    (hdoc : s.doc = some m) {p : Pending} (hp : m.pending = some p) {n : Name}
    (hn : p.manifest = some n) {b : Body}
    (hb : s.blobs.get n = some (.manifest b)) {gen : ℕ} {t : ℤ}
    (hbody : b.toContent = emptyContent codec gen t) : ∃ v,
      ((commitGeneration p.generation mem).run (perform indexed) s).1.1.map Prod.fst = .ok v := by
  obtain ⟨ob, hob⟩ := hs.current m hdoc
  obtain ⟨old, ps, mem1, hrun, hold, hps, hM1⟩ :=
    @manifestByName_run codec indexed H mem s hM hs.named _ _ (hs.stored _ _ hob)
  obtain ⟨new, ps', mem2, hrun', hnew, hps', hM2⟩ :=
    @manifestByName_run codec indexed H mem1 s hM1 hs.named _ _ (hs.stored _ _ hb)
  have hraw : (rawManifest n).run (perform indexed) s = (.ok b, s) := by
    unfold rawManifest
    rw [run_get, hb]
    rfl
  have hcommon : commonTiles old new = [] := by
    have htiles := eq_empty (bare_base hps' (hnew.symm ▸ hbody)).2
    unfold commonTiles
    rw [htiles]
    simp
  unfold commitGeneration
  rw [run_readMeta, hdoc]
  dsimp only [bind_some]
  rw [hp]
  dsimp only
  rw [hn]
  dsimp only
  rw [if_neg (not_not.mpr rfl), Prog.run_bind, hrun]
  dsimp only
  rw [Prog.run_bind, hrun']
  dsimp only
  rw [hcommon, Prog.run_bind]
  dsimp only [readPairs, Prog.run_pure]
  rw [Prog.run_bind, hraw]
  dsimp only
  rw [run_put, run_cas (by simp [hdoc])]
  exact ⟨_, rfl⟩

structure EmptyRebuild (S : World Bool) (L : Last) (m : Meta) (p : Pending) : Prop where
  reached : Rebuilding exactCodec lazyConfig false S L
  doc : S.store.doc = some m
  pending : m.pending = some p
  params : (p.params_hash.any fun h => h ≠ exactCodec.params (emptyState 1).params) = false
  base : ∀ n ∈ p.manifest, ∀ b, S.store.blobs.get n = some (.manifest b) →
    b.toContent = emptyContent exactCodec p.generation 1

lemma exists_rebuild : ∃ S L m p, EmptyRebuild S L m p ∧ p.manifest = none := by
  obtain ⟨m, b, hdoc, -⟩ := firstWorld_doc
  have hnone : m.pending = none := by
    have hr := @WorldOk.save_run exactCodec lazyConfig false Bool _ _
      (WorldOk.fresh exactCodec Bool) false (emptySave 1 none)
    unfold firstWorld at hdoc
    rw [store_save] at hdoc
    generalize (save exactCodec lazyConfig (emptySave 1 none) ((World.fresh Bool).memory false)).run
      (perform false) (World.fresh Bool).store = r at hr hdoc
    cases hr with
    | error e he mem' hM => cases hdoc
    | @same gen pend prev full d hb o k ho mem' hM =>
      cases o with
      | none => cases hdoc
      | some m' =>
        obtain ⟨m2, hdoc2, -⟩ := planSave_same ho
        cases hdoc2
    | @write gen pend prev full d hb w hw index mem' hM =>
      cases hdoc
      rcases planSave_numbers hw with ⟨m2, p2, hdoc2, -⟩ | ⟨-, rfl⟩
      · cases hdoc2
      · rfl
  have hreached : Rebuilding exactCodec lazyConfig false firstWorld _ :=
    .call .fresh false (.save (emptySave 1 none)) trivial
  have hbegin : (firstWorld.call exactCodec lazyConfig false false
      (.begin ⟨none, true, none, 0⟩)).store.doc =
        some { m with pending := some ⟨nextGeneration m, 0, none, none, none, none, none, 0⟩ } := by
    rw [store_begin]
    unfold beginGeneration
    rw [run_readMeta, hdoc]
    dsimp only
    rw [hnone]
    dsimp only
    rw [run_cas (by rw [hdoc]; rfl)]
    rfl
  exact ⟨_, _, _, _, ⟨.call hreached false (.begin ⟨none, true, none, 0⟩) trivial, hbegin, rfl, rfl,
    fun n hn => (nomatch hn)⟩, rfl⟩

lemma EmptyRebuild.resave {S : World Bool} {L : Last} {m : Meta} {p : Pending}
    (h : EmptyRebuild S L m p) (cursor : Option String) : ∃ S' L' m' p' n b,
    EmptyRebuild S' L' m' p' ∧ p'.manifest = some n ∧ S'.store.blobs.get n = some (.manifest b) ∧
      b.toContent = emptyContent exactCodec p.generation 1 ∧
      L'.save = some (emptyResave 1 m.version p.generation cursor) ∧
      L'.change = if p.manifest = none then some (emptyResave 1 m.version p.generation cursor)
        else L.change := by
  obtain ⟨H, hS, -⟩ := h.reached.ok exactCodec_exact
  obtain ⟨k, m', p', n, b, hok, hdoc', hver, hman, hp', hgen, hparams', hn, hb, hbody⟩ :=
    @resave_run exactCodec lazyConfig false H S.store (S.memory false) hS.store (hS.memory false)
      rfl m h.doc p h.pending 1 h.params
      (fun n hn b hb => by
        obtain ⟨b', hb'⟩ := hS.store.pending m h.doc p h.pending n hn
        obtain rfl := Option.some.inj ((hS.store.stored _ _ hb').hist.symm.trans hb)
        exact h.base n hn _ hb') cursor
  have hreached := h.reached.call false
    (.save (emptyResave 1 m.version p.generation cursor)) trivial
  obtain ⟨H', hS', -⟩ := hreached.ok exactCodec_exact
  have hhash {b' : Body} {T : World Bool} {G : History} (hT : WorldOk exactCodec G T) {n' : Name}
      (hb' : T.store.blobs.get n' = some (.manifest b'))
      (hbody' : b'.toContent = emptyContent exactCodec p.generation 1) :
      b'.content_hash = exactCodec.content (emptyContent exactCodec p.generation 1) := by
    rw [hT.store.hashed _ _ (hT.store.stored _ _ hb').hist, hbody']
  rw [← store_save exactCodec lazyConfig false] at hdoc' hb
  have hnew : pendingContent (S.call exactCodec lazyConfig false false
      (.save (emptyResave 1 m.version p.generation cursor))).store =
      some (exactCodec.content (emptyContent exactCodec p.generation 1)) := by
    rw [pendingContent_eq hdoc' hp', hn, bind_some, hb]
    exact congrArg some (hhash hS' hb hbody)
  refine ⟨_, _, m', p', n, b, ⟨hreached, hdoc', hp', hparams', fun n' hn' b' hb' => ?_⟩, hn, hb, hbody, ?_, ?_⟩
  · cases hn.symm.trans hn'
    obtain rfl : b = b' := by
      have := hb.symm.trans hb'
      exact Obj.manifest.inj (Option.some.inj this)
    rw [hgen]
    exact hbody
  · rw [result_save, hok]
    unfold Last.after
    dsimp only
    rw [resave_target hS.store h.doc h.pending]
  · rw [result_save, hok]
    unfold Last.after
    dsimp only
    rw [resave_target hS.store h.doc h.pending]
    dsimp only
    rw [hnew, pendingContent_eq h.doc h.pending]
    cases hman0 : p.manifest with
    | none =>
      rw [if_pos rfl, if_neg]
      exact fun he => (nomatch he)
    | some n0 =>
      obtain ⟨b0, hb0⟩ := hS.store.pending m h.doc p h.pending n0 hman0
      have hheld : some (exactCodec.content (emptyContent exactCodec p.generation 1)) =
          some b0.content_hash := congrArg some (hhash hS hb0 (h.base n0 hman0 b0 hb0)).symm
      rw [bind_some, hb0, if_pos hheld, if_neg fun he => nomatch he]

lemma EmptyRebuild.commit {S : World Bool} {L : Last} {m : Meta} {p : Pending}
    (h : EmptyRebuild S L m p) {n : Name} (hn : p.manifest = some n) {b : Body}
    (hb : S.store.blobs.get n = some (.manifest b)) :
    ∃ v, result exactCodec lazyConfig false S false (.commit p.generation) = .ok v := by
  obtain ⟨H, hS, -⟩ := h.reached.ok exactCodec_exact
  rw [result_commit]
  exact commit_empty hS.store (hS.memory false) h.doc h.pending hn hb (h.base n hn b hb)

/-- A rebuild that saved once is committed with its cursor. -/
theorem commit_resumes_iff_once : ∃ S L g v c m, Rebuilding exactCodec lazyConfig false S L ∧
    result exactCodec lazyConfig false S false (.commit g) = .ok v ∧ L.save = some c ∧
    c.cursor = some "7" ∧
    (S.call exactCodec lazyConfig false false (.commit g)).store.doc = some m ∧
    m.cursor = some "7" ∧ m.watermark = toLex (1, "a") := by
  obtain ⟨S, L, m, p, h, hp⟩ := exists_rebuild
  obtain ⟨S', L', m', p', n, b, h', hn, hb, -, hsave, hchange⟩ := h.resave (some "7")
  rw [if_pos hp] at hchange
  obtain ⟨v, hok⟩ := h'.commit hn hb
  obtain ⟨c, st, k, hc, hst, hdoc, -, hiff⟩ :=
    commit_resumes_iff exactCodec_exact h'.reached false hok
  cases hsave.symm.trans hc
  cases hst
  rw [hchange] at hiff
  obtain ⟨hcursor, hwater⟩ := hiff.mpr rfl
  exact ⟨S', L', p'.generation, v, _, k, h'.reached, hok, hsave, rfl, hdoc, hcursor, hwater⟩

/-- A rebuild saves twice, the second time with a new cursor only: the commit goes back to the
first one. -/
theorem cursor_goes_back : ¬∀ (S : World Bool) L, Rebuilding exactCodec lazyConfig false S L →
    ∀ i g v, result exactCodec lazyConfig false S i (.commit g) = .ok v →
    ∀ c st m, L.save = some c → c.state = some st →
      (S.call exactCodec lazyConfig false i (.commit g)).store.doc = some m →
      m.cursor = c.cursor ∧ m.watermark = st.watermark := by
  intro hall
  obtain ⟨S, L, m, p, h, hp⟩ := exists_rebuild
  obtain ⟨S1, L1, m1, p1, n1, b1, h1, hn1, hb1, -, hsave1, hchange1⟩ := h.resave (some "7")
  obtain ⟨S2, L2, m2, p2, n2, b2, h2, hn2, hb2, -, hsave2, hchange2⟩ := h1.resave (some "8")
  rw [if_pos hp] at hchange1
  have hne : p1.manifest ≠ none := fun he => nomatch hn1.symm.trans he
  rw [if_neg hne, hchange1] at hchange2
  obtain ⟨v, hok⟩ := h2.commit hn2 hb2
  obtain ⟨c, st, cw, k, hc, hst, hcw, hdoc, -, hcursor⟩ :=
    h2.reached.commit exactCodec_exact false hok
  have hgood := (hall S2 L2 h2.reached false p2.generation v hok c st k hc hst hdoc).1
  cases hsave2.symm.trans hc
  cases hchange2.symm.trans hcw
  rw [hcursor] at hgood
  exact absurd (Option.some.inj hgood) (by decide)

end Sample
end CloudServer.StoreResume
