import CloudServer.StoreSequence

/-! What each call does to a good store when nobody interferes. -/
namespace CloudServer.StoreCalls
open SceneFold SceneApi StoreTiles StoreSave StoreOps StoreObjects StoreExpand StoreRun StoreHistory
open StoreSequence Interact Function

def topGen (m : Meta) : ℕ := m.pending.elim m.generation Pending.generation

/-- A call that deletes nothing: the history grows, and a version that is new to the history
is the current one of the new meta document. -/
structure Advance (codec : Codec) (H : History) (s : Backend) (H' : History) (s' : Backend)
    (mem' : Memory) : Prop where
  le : H.Le H'
  ok : StoreOk codec H' s'
  mem : MemOk codec H' mem'
  manifests : ∀ n b, s'.blobs.get n = some (.manifest b) ↔
    s.blobs.get n = some (.manifest b) ∨ (H n = none ∧ H' n = some b)
  version : ∀ g v, H (.manifest g v) = none → (H' (.manifest g v)).isSome → ∃ m', s'.doc = some m' ∧
    m'.version = v ∧ m'.manifest = .manifest g v ∧ s.doc.map Meta.version ≠ some v
  still : (∀ g v, H' (.manifest g v) = H (.manifest g v)) →
    s'.doc.map Meta.version = s.doc.map Meta.version
  top : ∀ m ∈ s.doc, ∃ m' ∈ s'.doc, topGen m ≤ topGen m'

lemma topGen_lt (m : Meta) : topGen m < nextGeneration m := by
  obtain ⟨h1, h2⟩ := lt_nextGeneration m
  cases hp : m.pending with
  | none => simpa [topGen, hp] using h1
  | some p => simpa [topGen, hp] using h2 p hp

section Calls
variable {codec : Codec} {cfg : Config} {indexed : Bool} {H : History} {mem : Memory} {s : Backend}

lemma History.le_update {n : Name} {b : Body} (hn : H n = none) :
    H.Le (update H n (some b)) := by
  intro k c hk
  rw [update_of_ne]
  · exact hk
  · rintro rfl
    rw [hn] at hk
    cases hk

variable {c : SaveCall} {mem' : Memory} {gen : ℕ} {pend : Option Pending} {prev : Option Manifest}
variable {d : Draft}

lemma Advance.redoc (hM : MemOk codec H mem') {doc' : Option Meta}
    (h : StoreOk codec H { s with doc := doc' }) (hv : doc'.map Meta.version = s.doc.map Meta.version)
    (htop : ∀ m ∈ s.doc, ∃ m' ∈ doc', topGen m ≤ topGen m') :
    Advance codec H s H { s with doc := doc' } mem' where
  le := fun _ _ h => h
  ok := h
  mem := hM
  manifests := by
    intro n b
    constructor
    · exact .inl
    · rintro (h | ⟨h1, h2⟩)
      · exact h
      · rw [h1] at h2
        cases h2
  version := by
    intro g v h1 h2
    rw [h1] at h2
    cases h2
  still := fun _ => hv
  top := htop

lemma Advance.idle (hs : StoreOk codec H s) (hM : MemOk codec H mem') :
    Advance codec H s H s mem' :=
  .redoc hM hs rfl fun m hm => ⟨m, hm, le_rfl⟩

lemma Advance.write (hs : StoreOk codec H s) (puts : List (Name × Obj))
    (hputs : ∀ e ∈ puts, Packed codec e.1 e.2) {n : Name} {b : Body} (hn : H n = none) {m' : Meta}
    (hok : StoreOk codec (update H n (some b)) ⟨(s.blobs.update puts).set n (.manifest b), some m'⟩)
    (hM : MemOk codec (update H n (some b)) mem')
    (hman : ∀ g v, n = .manifest g v → m'.version = v ∧ m'.manifest = n ∧ s.doc.map Meta.version ≠ some v)
    (hstill : (∀ g v, n ≠ .manifest g v) → s.doc.map Meta.version = some m'.version)
    (htop : ∀ m ∈ s.doc, topGen m ≤ topGen m') :
    Advance codec H s (update H n (some b)) ⟨(s.blobs.update puts).set n (.manifest b), some m'⟩ mem' where
  le := History.le_update hn
  ok := hok
  mem := hM
  manifests := by
    intro k c
    constructor
    · intro hk
      have hh := (hok.stored k c hk).hist
      by_cases hkn : k = n
      · subst hkn
        exact .inr ⟨hn, hh⟩
      · refine .inl ?_
        change ((s.blobs.update puts).set n (.manifest b)).get k = _ at hk
        rw [Dict.get_set, if_neg hkn] at hk
        rcases Dict.get_update s.blobs puts k with ⟨-, hg⟩ | ⟨o, ho, hg⟩
        · rwa [hg] at hk
        · rw [hg] at hk
          cases hk
          exact absurd (hputs _ ho).named ((hputs _ ho).ne_manifest c)
    · rintro (hk | ⟨h1, h2⟩)
      · refine get_written puts hputs hs.named ?_ hk
        rintro rfl
        rw [(hs.stored _ c hk).hist] at hn
        cases hn
      · by_cases hkn : k = n
        · subst hkn
          obtain rfl : b = c := by simpa using h2
          change ((s.blobs.update puts).set k (.manifest b)).get k = _
          rw [Dict.get_set, if_pos rfl]
        · rw [update_of_ne hkn, h1] at h2
          cases h2
  version := by
    intro g v h1 h2
    by_cases hgv : Name.manifest g v = n
    · obtain ⟨h3, h4, h5⟩ := hman g v hgv.symm
      exact ⟨m', rfl, h3, h4.trans hgv.symm, h5⟩
    · rw [update_of_ne hgv, h1] at h2
      cases h2
  still := by
    intro hsame
    refine (hstill fun g v hgv => ?_).symm
    have := hsame g v
    rw [← hgv, update_self, hn] at this
    cases this
  top := fun m hm => ⟨m', rfl, htop m hm⟩

variable {full : Bool} {w : Write} {md : Option Meta}

lemma built_complete (hx : Codec.Exact codec) (hs : AllNamed codec s.blobs)
    (hb : Built codec cfg H s c gen pend prev full d) (n : Name) (version : Option ℕ) (m : Meta)
    (r : ℕ) (hn : manifestGen n = some gen) :
    let w := d.write prev n (d.body codec gen version c) m r
    (∀ e ∈ w.puts, Packed codec e.1 e.2) ∧
      Complete ((s.blobs.update w.puts).set n (.manifest w.body)) w.body := by
  intro w
  have hputs : ∀ e ∈ w.puts, Packed codec e.1 e.2 := fun e he =>
    hb.ok.packed.items e (List.mem_of_mem_filter he)
  refine ⟨hputs, hb.ok.complete hx ?_ (fun k hk => ?_) (fun k hk hkn => ?_) version⟩
  · refine (hs.update fun e he => (hputs e he).named).set ?_
    cases n <;> simp_all [manifestGen, Named]
  · cases hbase : baseName s.doc pend with
    | none =>
      rw [hb.fresh hbase] at hk
      simp [knownNames] at hk
    | some nb =>
      obtain ⟨man, ps, rfl, hst, -, hps⟩ := hb.base nb hbase
      exact isSome_written (.inl (hps.known_stored hx hs hst.complete hk))
  · refine isSome_written (.inr ?_)
    obtain ⟨o, ho⟩ := Option.isSome_iff_exists.mp hk
    refine List.mem_map.mpr ⟨(k, o), List.mem_filter.mpr ⟨Dict.mem_items.mpr ho, ?_⟩, rfl⟩
    simpa using hkn

lemma planSave_same {m' : Meta} {r : ℕ}
    (h : planSave codec md gen pend prev c d = .same (some m') r) :
    ∃ m, md = some m ∧ ((∃ p, pend = some p ∧
      m' = { m with pending := some { p with cursor := c.cursor } }) ∨ m' = { m with cursor := c.cursor }) := by
  cases md with
  | none =>
    simp only [planSave] at h
    split_ifs at h
    cases (Outcome.same.inj h).1
  | some m =>
    cases pend with
    | none =>
      simp only [planSave] at h
      split_ifs at h
      obtain ⟨ho, -⟩ := Outcome.same.inj h
      rw [Option.bind_some] at ho
      split_ifs at ho
      exact ⟨m, rfl, .inr (Option.some.inj ho).symm⟩
    | some p =>
      simp only [planSave] at h
      split_ifs at h
      · exact ⟨m, rfl, .inl ⟨p, rfl, (Option.some.inj (Outcome.same.inj h).1).symm⟩⟩
      · cases (Outcome.same.inj h).1

lemma planSave_numbers (h : planSave codec md gen pend prev c d = .write w) :
    (∃ m p, md = some m ∧ pend = some p ∧
      w = d.write prev (.pending gen (p.version + 1)) (d.body codec gen none c)
        { m with pending := some (commitPending p c (p.version + 1) (.pending gen (p.version + 1))
          (d.body codec gen none c)) } (p.version + 1)) ∨
    ((md = none ∨ pend = none) ∧
      w = d.write prev (.manifest gen (md.elim 0 Meta.version + 1))
        (d.body codec gen (some (md.elim 0 Meta.version + 1)) c)
        (commitMeta md c gen (md.elim 0 Meta.version + 1) (.manifest gen (md.elim 0 Meta.version + 1))
          (d.body codec gen (some (md.elim 0 Meta.version + 1)) c))
        (md.elim 0 Meta.version + 1)) := by
  cases md with
  | none =>
    simp only [planSave] at h
    split_ifs at h
    exact .inr ⟨.inl rfl, (Outcome.write.inj h).symm⟩
  | some m =>
    cases pend with
    | none =>
      simp only [planSave] at h
      split_ifs at h
      exact .inr ⟨.inr rfl, (Outcome.write.inj h).symm⟩
    | some p =>
      simp only [planSave] at h
      split_ifs at h
      exact .inl ⟨m, p, rfl, rfl, (Outcome.write.inj h).symm⟩

lemma write_ok (hx : Codec.Exact codec) (hs : StoreOk codec H s)
    (hb : Built codec cfg H s c gen pend prev full d)
    (hw : planSave codec s.doc gen pend prev c d = .write w) (index : Option ℕ) :
    H w.name = none ∧ StoreOk codec (update H w.name (some w.body))
      ⟨(s.blobs.update w.puts).set w.name (.manifest w.body), some { w.newMeta with index_version := index }⟩ := by
  rcases planSave_numbers hw with ⟨m, p, hdoc, hpe, rfl⟩ | ⟨hcur, rfl⟩
  · rcases saveTarget_cases hb.target with ⟨h, -⟩ | ⟨m2, p2, hdoc2, hp2, he, rfl⟩
    · rw [hpe] at h
      cases h
    · obtain rfl : m2 = m := Option.some.inj (hdoc2.symm.trans hdoc)
      obtain rfl : p = p2 := Option.some.inj (hpe.symm.trans he)
      have hfresh := hs.fresh_pending hdoc hp2
      obtain ⟨hputs, hcomp⟩ := built_complete hx hs.named hb
        (.pending p.generation (p.version + 1)) none m2 (p.version + 1) rfl
      refine ⟨hfresh, hs.write hx _ hputs hfresh rfl rfl hcomp (((hs.doc _ hdoc).pend hp2 c _).aside rfl rfl rfl rfl rfl)
        (.inr (hs.current m2 hdoc)) fun q hq k hk => .inl ?_⟩
      cases hq
      cases hk
      rfl
  · have hgen : pend = none ∧ gen = s.doc.elim 1 Meta.generation := by
      rcases saveTarget_cases hb.target with h | ⟨m, p, hdoc, -, hp, -⟩
      · exact h
      · rcases hcur with h | h
        · rw [hdoc] at h
          cases h
        · rw [hp] at h
          cases h
    obtain ⟨rfl, rfl⟩ := hgen
    have hfresh := hs.fresh_manifest (s.doc.elim 1 Meta.generation)
    obtain ⟨hputs, hcomp⟩ := built_complete hx hs.named hb
      (.manifest (s.doc.elim 1 Meta.generation) (s.doc.elim 0 Meta.version + 1))
      (some (s.doc.elim 0 Meta.version + 1)) (commitMeta s.doc c 1 1 (.manifest 1 1)
        (d.body codec (s.doc.elim 1 Meta.generation) none c)) 0 rfl
    refine ⟨hfresh, hs.write hx _ hputs hfresh rfl rfl hcomp ?_ (.inl rfl) ?_⟩
    · cases hdoc : s.doc with
      | none => exact (MetaOk.first (hs.blank hdoc) c _).aside rfl rfl rfl rfl rfl
      | some m => exact ((hs.doc m hdoc).next c _).aside rfl rfl rfl rfl rfl
    · intro q hq k hk
      cases hdoc : s.doc with
      | none =>
        rw [hdoc] at hq
        cases hq
      | some m =>
        rw [hdoc] at hq
        exact .inr (hs.pending m hdoc q hq k hk)

lemma same_advance (hs : StoreOk codec H s)
    (hb : Built codec cfg H s c gen pend prev full d) {o : Option Meta} {k : ℕ}
    (ho : planSave codec s.doc gen pend prev c d = .same o k)
    (hM : MemOk codec H mem') : Advance codec H s H { s with doc := o.or s.doc } mem' := by
  cases o with
  | none => exact .idle hs hM
  | some m' =>
    obtain ⟨m, hdoc, hcase⟩ := planSave_same ho
    rcases hcase with ⟨p, rfl, rfl⟩ | rfl
    · rcases saveTarget_cases hb.target with ⟨h, -⟩ | ⟨m2, p2, hdoc2, hp2, he, -⟩
      · cases h
      · cases he
        obtain rfl : m2 = m := Option.some.inj (hdoc2.symm.trans hdoc)
        refine .redoc hM (hs.redoc hdoc ((hs.doc _ hdoc).aside rfl rfl rfl rfl
          (by rw [hp2]; rfl)) rfl fun q hq n hn => ?_) (by rw [hdoc]; rfl) fun k hk => ?_
        · cases hq
          exact hs.pending _ hdoc p hp2 n hn
        · obtain rfl : m2 = k := Option.some.inj (hdoc.symm.trans hk)
          exact ⟨_, rfl, by simp [topGen, hp2]⟩
    · refine .redoc hM (hs.redoc hdoc ((hs.doc _ hdoc).aside rfl rfl rfl rfl rfl) rfl
        fun q hq n hn => hs.pending _ hdoc q hq n hn) (by rw [hdoc]; rfl) fun k hk => ?_
      obtain rfl : m = k := Option.some.inj (hdoc.symm.trans hk)
      exact ⟨_, rfl, le_rfl⟩

lemma write_advance (hx : Codec.Exact codec) (hs : StoreOk codec H s)
    (hb : Built codec cfg H s c gen pend prev full d)
    (hw : planSave codec s.doc gen pend prev c d = .write w) (index : Option ℕ)
    (hM : ∀ H' : History, H.Le H' → H' w.name = some w.body → MemOk codec H' mem') :
    Advance codec H s (update H w.name (some w.body))
      ⟨(s.blobs.update w.puts).set w.name (.manifest w.body), some { w.newMeta with index_version := index }⟩ mem' := by
  obtain ⟨hfresh, hok⟩ := write_ok hx hs hb hw index
  have hle : H.Le (update H w.name (some w.body)) := History.le_update hfresh
  have hputs : ∀ e ∈ w.puts, Packed codec e.1 e.2 := by
    obtain ⟨n, version, m, k, rfl⟩ := planSave_write hw
    exact fun e he => hb.ok.packed.items e (List.mem_of_mem_filter he)
  refine .write hs w.puts hputs hfresh hok (hM _ hle (by simp)) ?_ ?_ ?_
  · intro g v hgv
    rcases planSave_numbers hw with ⟨m, p, -, -, rfl⟩ | ⟨-, rfl⟩
    · cases hgv
    · cases hgv
      refine ⟨rfl, rfl, ?_⟩
      cases s.doc <;> simp
  · intro hne
    rcases planSave_numbers hw with ⟨m, p, hdoc, -, rfl⟩ | ⟨-, rfl⟩
    · rw [hdoc]
      rfl
    · exact absurd rfl (hne _ _)
  · intro m hm
    rcases planSave_numbers hw with ⟨m2, p, hdoc, hpe, rfl⟩ | ⟨-, rfl⟩
    · rcases saveTarget_cases hb.target with ⟨h, -⟩ | ⟨m3, p2, hdoc2, hp2, he, rfl⟩
      · rw [hpe] at h
        cases h
      · obtain rfl : m3 = m := Option.some.inj (hdoc2.symm.trans hm)
        obtain rfl : p = p2 := Option.some.inj (hpe.symm.trans he)
        simp [topGen, hp2, Draft.write, commitPending]
    · rcases saveTarget_cases hb.target with ⟨-, rfl⟩ | ⟨m3, p2, hdoc2, hp2, he, rfl⟩
      · rw [Option.mem_def] at hm
        simp [topGen, Draft.write, commitMeta, hm]
      · obtain rfl : m3 = m := Option.some.inj (hdoc2.symm.trans hm)
        simp [topGen, Draft.write, commitMeta, hdoc2, hp2]

lemma save_advance (hx : Codec.Exact codec) (hs : StoreOk codec H s)
    {r : (Except SaveError ℕ × Memory) × Backend} (hr : SaveRun codec cfg H s c r) :
    ∃ H', Advance codec H s H' r.2 r.1.2 := by
  cases hr with
  | error e he mem' hM => exact ⟨H, .idle hs hM⟩
  | same hb o k ho mem' hM => exact ⟨H, same_advance hs hb ho hM⟩
  | write hb w hw index mem' hM => exact ⟨_, write_advance hx hs hb hw index hM⟩

/-- The ways `begin_generation` alone on the store can end. -/
inductive BeginRun (s : Backend) : Except SaveError ℕ × Backend → Prop
  | none (hdoc : s.doc = none) : BeginRun s (.error .keyError, s)
  | resume {m : Meta} (hdoc : s.doc = some m) {p : Pending} (hp : m.pending = some p) :
      BeginRun s (.ok p.generation, s)
  | adopt {m : Meta} (hdoc : s.doc = some m) {p : Pending} (hp : m.pending = some p)
      (h : Option Hash) : BeginRun s (.ok p.generation,
        { s with doc := some { m with pending := some { p with params_hash := h } } })
  | start {m : Meta} (hdoc : s.doc = some m) {q : Pending} (hq : q.generation = nextGeneration m)
      (hman : q.manifest = .none) : BeginRun s (.ok q.generation,
        { s with doc := some { m with pending := some q } })

lemma begin_run (c : BeginCall) (s : Backend) :
    BeginRun s ((beginGeneration c).run (perform indexed) s) := by
  unfold beginGeneration
  rw [run_readMeta]
  cases hdoc : s.doc with
  | none => exact .none hdoc
  | some m =>
    dsimp only
    have hver : s.doc.map Meta.version = some m.version := by rw [hdoc]; rfl
    cases hp : m.pending with
    | none =>
      dsimp only
      rw [run_cas hver]
      exact @BeginRun.start s m hdoc ⟨nextGeneration m, 0, none, c.params_hash, none, none, c.rebuild_batch, c.now⟩ rfl rfl
    | some p =>
      dsimp only
      split_ifs
      · rw [run_cas hver]
        exact .adopt hdoc hp _
      · exact .resume hdoc hp
      · rw [run_cas hver]
        exact @BeginRun.start s m hdoc ⟨nextGeneration m, 0, none, c.params_hash, none, none, c.rebuild_batch, c.now⟩ rfl rfl

lemma begin_advance (hs : StoreOk codec H s) (hM : MemOk codec H mem)
    {r : Except SaveError ℕ × Backend} (hr : BeginRun s r) : Advance codec H s H r.2 mem := by
  cases hr with
  | none hdoc => exact .idle hs hM
  | resume hdoc hp => exact .idle hs hM
  | @adopt m hdoc p hp h =>
    refine .redoc hM (hs.redoc hdoc ((hs.doc m hdoc).aside rfl rfl rfl rfl (by rw [hp]; rfl)) rfl
      fun q hq n hn => ?_) (by rw [hdoc]; rfl) fun k hk => ?_
    · cases hq
      exact hs.pending m hdoc p hp n hn
    · obtain rfl : m = k := Option.some.inj (hdoc.symm.trans hk)
      exact ⟨_, rfl, by simp [topGen, hp]⟩
  | @start m hdoc q hq hman =>
    refine .redoc hM (hs.redoc hdoc ((hs.doc m hdoc).begin hq hman) rfl fun q' hq' n hn => ?_)
      (by rw [hdoc]; rfl) fun k hk => ?_
    · cases hq'
      rw [hman] at hn
      cases hn
    · obtain rfl : m = k := Option.some.inj (hdoc.symm.trans hk)
      exact ⟨_, rfl, by simpa [topGen, hq] using (topGen_lt m).le⟩

/-- The body a switch writes: the pending one with the key map of the old charts. -/
def switchBody (raw : Body) (newv : ℕ) (kmap : Dict Key (List Key)) (old : ℕ) : Body :=
  { raw with version := some newv, retired := kmap, from_generation := some old }

/-- The ways `commit_generation` alone on the store can end. -/
inductive CommitRun (codec : Codec) (H : History) (s : Backend) (g : ℕ) :
    (Except SaveError (ℕ × Dict Key (List Key)) × Memory) × Backend → Prop
  | error (e : SaveError) (mem' : Memory) (hM : MemOk codec H mem') :
      CommitRun codec H s g ((.error e, mem'), s)
  | switch {m : Meta} (hdoc : s.doc = some m) {p : Pending} (hp : m.pending = some p)
      (hg : p.generation = g) {pn : Name} (hpn : p.manifest = some pn) {old new : Manifest}
      (hold : Stored H s m.manifest old.body) (hnew : Stored H s pn new.body)
      (kmap : Dict Key (List Key)) (pairs : List (Tile × Tile))
      (hk : kmap = overlapKeymap old new pairs) (mem' : Memory) (hM : MemOk codec H mem') :
      CommitRun codec H s g ((.ok (m.version + 1, kmap), mem'),
        ⟨s.blobs.set (.manifest g (m.version + 1))
          (.manifest (switchBody new.body (m.version + 1) kmap old.body.generation)),
          some (switchMeta m new g (m.version + 1) (.manifest g (m.version + 1)))⟩)

lemma readPair_state (go gn : ℕ) (ho hn : Hash) (s : Backend) :
    ((readPair go gn ho hn).run (perform indexed) s).2 = s := by
  unfold readPair
  rw [run_get]
  split
  · split_ifs
    · rfl
    · rw [run_get]
      split <;> rfl
  · rfl

lemma readPairs_state (go gn : ℕ) (es : List (Hash × Hash)) (s : Backend) :
    ((readPairs go gn es).run (perform indexed) s).2 = s := by
  induction es with
  | nil => rfl
  | cons e es ih =>
    unfold readPairs
    rw [Prog.run_bind, readPair_state]
    cases ((readPair go gn e.1 e.2).run (perform indexed) s).1 with
    | error x => rfl
    | ok p =>
      dsimp only
      rw [Prog.run_bind, ih]
      cases ((readPairs go gn es).run (perform indexed) s).1 with
      | error x => rfl
      | ok ps => rfl

lemma commit_run (hs : StoreOk codec H s) (hM : MemOk codec H mem) (g : ℕ) :
    CommitRun codec H s g ((commitGeneration g mem).run (perform indexed) s) := by
  unfold commitGeneration
  rw [run_readMeta]
  cases hdoc : s.doc with
  | none => exact .error _ _ hM
  | some m =>
    dsimp only [Option.bind_some]
    cases hp : m.pending with
    | none => exact .error _ _ hM
    | some p =>
      dsimp only
      cases hpn : p.manifest with
      | none => exact .error _ _ hM
      | some pn =>
        dsimp only
        by_cases hg : p.generation = g
        · subst hg
          rw [if_neg (not_not.mpr rfl)]
          obtain ⟨b, hb⟩ := hs.current m hdoc
          obtain ⟨nb, hnb⟩ := hs.pending m hdoc p hp pn hpn
          obtain ⟨old, ps, mem1, hrun, rfl, hps, hM1⟩ :=
            @manifestByName_run codec indexed H mem s hM hs.named _ _ (hs.stored _ _ hb)
          rw [Prog.run_bind, hrun]
          obtain ⟨new, ps', mem2, hrun', rfl, hps', hM2⟩ :=
            @manifestByName_run codec indexed H mem1 s hM1 hs.named _ _ (hs.stored _ _ hnb)
          dsimp only
          rw [Prog.run_bind, hrun']
          dsimp only
          rw [Prog.run_bind, readPairs_state]
          cases ((readPairs old.body.generation new.body.generation (commonTiles old new)).run (perform indexed) s).1 with
          | error e => exact .error _ _ hM2
          | ok pairs =>
            have hraw : (rawManifest pn).run (perform indexed) s = (.ok new.body, s) := by
              unfold rawManifest
              rw [run_get, hnb]
              rfl
            dsimp only
            rw [Prog.run_bind, hraw]
            dsimp only
            rw [run_put]
            rw [run_cas (by simp [hdoc])]
            exact .switch hdoc hp rfl hpn (hs.stored _ _ hb) (hs.stored _ _ hnb) _ pairs rfl _ hM2
        · rw [if_pos hg]
          exact .error _ _ hM

lemma switch_advance (hx : Codec.Exact codec) (hs : StoreOk codec H s) {m : Meta}
    (hdoc : s.doc = some m) {p : Pending} (hp : m.pending = some p) {pn : Name}
    (hpn : p.manifest = some pn) {new : Manifest} (hnew : Stored H s pn new.body)
    (kmap : Dict Key (List Key)) (old : ℕ) (hM : MemOk codec H mem') :
    Advance codec H s (update H (.manifest p.generation (m.version + 1))
        (some (switchBody new.body (m.version + 1) kmap old)))
      ⟨s.blobs.set (.manifest p.generation (m.version + 1)) (.manifest (switchBody new.body (m.version + 1) kmap old)),
        some (switchMeta m new p.generation (m.version + 1) (.manifest p.generation (m.version + 1)))⟩ mem' := by
  have hfresh : H (.manifest p.generation (m.version + 1)) = none := by
    simpa [hdoc] using hs.fresh_manifest p.generation
  have hgen : manifestGen (.manifest p.generation (m.version + 1)) =
      some (switchBody new.body (m.version + 1) kmap old).generation := by
    have h := hs.gens _ _ hnew.hist
    rw [((hs.doc m hdoc).pending p hp).2 pn hpn] at h
    exact h
  have hhash : (switchBody new.body (m.version + 1) kmap old).content_hash =
      codec.content (switchBody new.body (m.version + 1) kmap old).toContent := by
    have h := hs.hashed pn _ hnew.hist
    exact h
  have hcomp : Complete (s.blobs.set (.manifest p.generation (m.version + 1))
      (.manifest (switchBody new.body (m.version + 1) kmap old)))
      (switchBody new.body (m.version + 1) kmap old) := by
    have hnamed : AllNamed codec (s.blobs.set (.manifest p.generation (m.version + 1))
        (.manifest (switchBody new.body (m.version + 1) kmap old))) :=
      hs.named.set (show Named codec (.manifest _ _) (.manifest _) from trivial)
    have := complete_mono hx hs.named hnamed (fun k hk => isSome_set hk) hnew.complete
    exact ⟨this.pages, this.segments⟩
  refine .write hs [] (by simp) hfresh (hs.write hx [] (by simp) hfresh hgen hhash hcomp
    ((hs.doc m hdoc).switch hp new _) (.inl rfl) (by simp [switchMeta]))
    (hM.mono (History.le_update hfresh)) ?_ (fun hne => absurd rfl (hne _ _)) fun k hk => ?_
  · intro g v hgv
    cases hgv
    refine ⟨rfl, rfl, ?_⟩
    simp [hdoc]
  · obtain rfl : m = k := Option.some.inj (hdoc.symm.trans hk)
    simp [topGen, hp, switchMeta]

lemma commit_advance (hx : Codec.Exact codec) (hs : StoreOk codec H s) {g : ℕ}
    {r : (Except SaveError (ℕ × Dict Key (List Key)) × Memory) × Backend}
    (hr : CommitRun codec H s g r) : ∃ H', Advance codec H s H' r.2 r.1.2 := by
  cases hr with
  | error e mem' hM => exact ⟨H, .idle hs hM⟩
  | switch hdoc hp hg hpn hold hnew kmap pairs hk mem' hM =>
    subst hg
    exact ⟨_, switch_advance hx hs hdoc hp hpn hnew kmap _ hM⟩

end Calls
end CloudServer.StoreCalls
