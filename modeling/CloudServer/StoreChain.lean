import CloudServer.StoreRoundTrip

/-! Chains of saves: over any sequence of calls, every stored version and the pending one
load as the state that was last saved as them. -/
namespace CloudServer.StoreChain
open SceneLeaf SceneFold SceneApi StoreTiles StoreSave StoreOps StoreObjects StoreExpand StoreRun
open StoreHistory StoreSequence StoreCalls StoreRetain StoreSnapshot StoreRepresent StoreLoad Option
open StoreRoundTrip StoreCodec Interact Function

/-- The state that each manifest was saved from. -/
abbrev Shelf := Name → Option EngineState

/-- The manifest a save of this target leaves current: the pending one or the map's. -/
def savedName (s : Backend) (pend : Option Pending) : Option Name :=
  if pend.isSome then (s.doc.bind Meta.pending).bind Pending.manifest else s.doc.map Meta.manifest

/-- A save that succeeds files its state under the manifest it leaves, a switch files the
pending state under the new version. -/
def recorded (σ : Shelf) (s : Backend) (c : Call) (r : Except SaveError ℕ) (s' : Backend) : Shelf :=
  match c, r with
  | .save c, .ok _ => match saveTarget s.doc c with
    | .ok (_, pend) => (savedName s' pend).elim σ fun n => update σ n c.state
    | .error _ => σ
  | .commit _, .ok _ => (s'.doc.map Meta.manifest).elim σ fun n =>
      update σ n (((s.doc.bind Meta.pending).bind Pending.manifest).bind σ)
  | _, _ => σ

/-- The engine's part of a chain: what it saves is consistent, and outside the dirty tiles it
agrees with the state its base was saved from, unless the save rewrites everything. -/
def Covered (σ : Shelf) (s : Backend) : Call → Prop
  | .save c => ∀ st, c.state = some st → Consistent st ∧ ∀ gen pend n st0,
      saveTarget s.doc c = .ok (gen, pend) → baseName s.doc pend = some n → σ n = some st0 →
      (pend = none ∨ (st0.leaves.length ≤ st.leaves.length ∧ st0.watermark ≤ st.watermark)) →
      ∀ t, t ∉ dirtyTiles st.canvas c.dirty → SameOn t (snapshot st0) (snapshot st)
  | _ => True

section Chain
variable (codec : Codec) (cfg : Config) (indexed : Bool) {ι : Type} [DecidableEq ι]

def result (S : World ι) (i : ι) (c : Call) : Except SaveError ℕ :=
  ((program codec cfg c (S.memory i)).run (perform indexed) S.store).1.1

omit [DecidableEq ι] in
lemma result_save (S : World ι) (i : ι) (c : SaveCall) : result codec cfg indexed S i (.save c) =
    ((save codec cfg c (S.memory i)).run (perform indexed) S.store).1.1 := rfl

/-- The worlds that calls lead to, with the states filed on the way. -/
inductive Chain : World ι → Shelf → Prop
  | fresh : Chain (World.fresh ι) fun _ => none
  | call {S : World ι} {σ : Shelf} (h : Chain S σ) (i : ι) (c : Call) (hc : Allowed c)
      (hcov : Covered σ S.store c) : Chain (S.call codec cfg indexed i c)
        (recorded σ S.store c (result codec cfg indexed S i c) (S.call codec cfg indexed i c).store)

variable {codec cfg indexed}

def ShelfOk (codec : Codec) (H : History) (σ : Shelf) : Prop :=
  ∀ n b, H n = some b → ∃ st man ps, σ n = some st ∧ Consistent st ∧
    man.body.toContent = b.toContent ∧ Expands codec man ps ∧ Represents codec st man

variable {σ : Shelf} {c : SaveCall} {s : Backend} {pend : Option Pending} {prev : Option Manifest}
variable {gen r : ℕ} {H : History} {d : Draft} {S : World ι} {o : Option Meta}

lemma ShelfOk.update (h : ShelfOk codec H σ) {n : Name} {b : Body}
    {st : EngineState} {man : Manifest} {ps : List Page} (hc : Consistent st)
    (hb : man.body.toContent = b.toContent) (he : Expands codec man ps)
    (hr : Represents codec st man) :
    ShelfOk codec (update H n (some b)) (update σ n (some st)) := by
  intro k c hk
  by_cases hkn : k = n
  · subst hkn
    obtain rfl : b = c := by simpa using hk
    exact ⟨st, man, ps, by simp, hc, hb, he, hr⟩
  · rw [update_of_ne hkn] at hk
    obtain ⟨st', man', ps', h1, h2⟩ := h k c hk
    exact ⟨st', man', ps', by rw [update_of_ne hkn]; exact h1, h2⟩

lemma base_shows (hx : Codec.Exact codec) (hσ : ShelfOk codec H σ) (hcov : Covered σ s (.save c))
    {full : Bool}
    (hb : Built codec cfg H s c gen pend prev full d) :
    Consistent d.st ∧ BaseShows codec pend prev c d.st := by
  obtain ⟨hcons, hsame⟩ := hcov d.st hb.draft.state
  refine ⟨hcons, fun man hman => ?_⟩
  cases hbase : baseName s.doc pend with
  | none =>
    rw [hb.fresh hbase] at hman
    cases hman
  | some n =>
    obtain ⟨man', ps, hprev, hst, -, hps⟩ := hb.base n hbase
    obtain rfl : man = man' := Option.some.inj (hman.symm.trans hprev)
    obtain ⟨st0, man0, ps0, hσn, -, hcont, he0, hr0⟩ := hσ n _ hst.hist
    have hr := represents_expands hx hr0 he0 hps hcont.symm
    refine ⟨st0, hr, fun hrestart => hsame gen pend n st0 hb.target hbase hσn ?_⟩
    cases pend with
    | none => exact .inl rfl
    | some p =>
      refine .inr ?_
      simpa [restarts, hprev, hr.leaf_count, hr.watermark, not_lt] using hrestart

lemma planSave_unchanged {md : Option Meta} (h : planSave codec md gen pend prev c d = .same o r) :
    ∃ man, prev = some man ∧ man.body.content_hash = codec.content (d.content codec gen) := by
  have hany : (prev.any fun m =>
      decide (m.body.content_hash = codec.content (d.content codec gen))) = true := by
    by_contra hne
    rw [Bool.not_eq_true] at hne
    cases md with
    | none => simp [planSave, hne] at h
    | some m => cases pend <;> simp [planSave, hne] at h
  cases prev with
  | none => cases hany
  | some man => exact ⟨man, rfl, of_decide_eq_true hany⟩

lemma savedName_same (ht : saveTarget s.doc c = .ok (gen, pend))
    (h : planSave codec s.doc gen pend prev c d = .same o r) :
    savedName { s with doc := o.or s.doc } pend = baseName s.doc pend := by
  rcases saveTarget_cases ht with ⟨rfl, -⟩ | ⟨m, p, hdoc, hp, rfl, -⟩
  · cases o with
    | none => simp [savedName, baseName]
    | some m' =>
      obtain ⟨m, hdoc, ⟨p, hp, -⟩ | rfl⟩ := planSave_same h
      · cases hp
      · simp [savedName, baseName, hdoc]
  · cases o with
    | none => simp [savedName, baseName, hdoc, hp]
    | some m' =>
      obtain ⟨m2, hdoc2, ⟨p2, hp2, rfl⟩ | rfl⟩ := planSave_same h
      · cases hp2
        simp [savedName, baseName]
      · obtain rfl : m2 = m := Option.some.inj (hdoc2.symm.trans hdoc)
        simp [savedName, baseName, hp]

lemma savedName_write {w : Write} (ht : saveTarget s.doc c = .ok (gen, pend))
    (h : planSave codec s.doc gen pend prev c d = .write w) (blobs : Dict Name Obj)
    (index : Option ℕ) :
    savedName ⟨blobs, some { w.newMeta with index_version := index }⟩ pend = some w.name := by
  rcases planSave_numbers h with ⟨m, p, hdoc, rfl, rfl⟩ | ⟨hcur, rfl⟩
  · rfl
  · rcases saveTarget_cases ht with ⟨rfl, -⟩ | ⟨m, p, hdoc, hp, rfl, -⟩
    · rfl
    · rcases hcur with hnone | hnone
      · rw [hdoc] at hnone
        cases hnone
      · cases hnone

lemma save_chain (hx : Codec.Exact codec) (hs : StoreOk codec H s)
    (hσ : ShelfOk codec H σ) (hcov : Covered σ s (.save c))
    {r : (Except SaveError ℕ × Memory) × Backend} (hr : SaveRun codec cfg H s c r) :
    ∃ H', Advance codec H s H' r.2 r.1.2 ∧ ShelfOk codec H' (recorded σ s (.save c) r.1.1 r.2) := by
  cases hr with
  | error e he mem' hM => exact ⟨H, .idle hs hM, hσ⟩
  | @same gen pend prev full d hb o k ho mem' hM =>
    refine ⟨H, same_advance hs hb ho hM, ?_⟩
    obtain ⟨hcons, hshows⟩ := base_shows hx hσ hcov hb
    obtain ⟨man, rfl, hhash⟩ := planSave_unchanged ho
    cases hbase : baseName s.doc pend with
    | none => cases hb.fresh hbase
    | some n =>
      obtain ⟨man', ps, hman, hst, hgen, -⟩ := hb.base n hbase
      cases hman
      have hcont : (d.body codec gen none c).toContent = man.body.toContent := by
        rw [hs.hashed _ _ hst.hist] at hhash
        exact (hx.content hhash).symm
      have hup : update H n (some man.body) = H := by
        rw [← hst.hist, update_eq_self]
      have hname := savedName_same hb.target ho
      unfold recorded
      dsimp only
      rw [hb.target]
      dsimp only
      rw [hname, hbase, elim_some, hb.draft.state]
      have := hσ.update (n := n) hcons hcont (hb.ok.expands hb.draft none)
        (draft_represents hb.draft hcons hshows none)
      rwa [hup] at this
  | @write gen pend prev full d hb w hw index mem' hM =>
    refine ⟨_, write_advance hx hs hb hw index hM, ?_⟩
    obtain ⟨hcons, hshows⟩ := base_shows hx hσ hcov hb
    have hname := savedName_write hb.target hw ((s.blobs.update w.puts).set w.name (.manifest w.body))
      index
    unfold recorded
    dsimp only
    rw [hb.target]
    dsimp only
    rw [hname, elim_some, hb.draft.state]
    obtain ⟨n, version, m, k, rfl⟩ := planSave_write hw
    exact hσ.update hcons rfl (hb.ok.expands hb.draft version)
      (draft_represents hb.draft hcons hshows version)

lemma commit_chain (hx : Codec.Exact codec) (hs : StoreOk codec H s)
    (hσ : ShelfOk codec H σ) {g : ℕ}
    {r : (Except SaveError (ℕ × Dict Key (List Key)) × Memory) × Backend}
    (hr : CommitRun codec H s g r) :
    ∃ H', Advance codec H s H' r.2 r.1.2 ∧ ShelfOk codec H' (recorded σ s (.commit g) (r.1.1.map Prod.fst) r.2) := by
  cases hr with
  | error e mem' hM => exact ⟨H, .idle hs hM, hσ⟩
  | @switch m hdoc p hp hg pn hpn old new hold hnew kmap pairs hk mem' hM =>
    subst hg
    refine ⟨_, switch_advance hx hs hdoc hp hpn hnew kmap _ hM, ?_⟩
    obtain ⟨st, man, ps, hσn, hcons, hcont, he, hr⟩ := hσ pn _ hnew.hist
    have hval : ((s.doc.bind Meta.pending).bind Pending.manifest).bind σ = some st := by
      rw [hdoc, bind_some, hp, bind_some, hpn, bind_some, hσn]
    unfold recorded
    dsimp only [Except.map, map_some, elim_some]
    rw [hval]
    exact hσ.update hcons hcont he hr

lemma Chain.ok (hx : Codec.Exact codec)
    (h : Chain codec cfg indexed S σ) : ∃ H, WorldOk codec H S ∧ ShelfOk codec H σ := by
  induction h with
  | fresh => exact ⟨_, WorldOk.fresh codec ι, by intro n b hn; cases hn⟩
  | @call S σ h i c hc hcov ih =>
    obtain ⟨H, hS, hσ⟩ := ih
    cases c with
    | save c =>
      obtain ⟨H', hadv, hσ'⟩ := save_chain hx hS.store hσ hcov (hS.save_run i c)
      exact ⟨H', hS.save i c hadv, hσ'⟩
    | begin c => exact ⟨H, hS.begin i c, hσ⟩
    | commit g =>
      obtain ⟨H', hadv, hσ'⟩ := commit_chain hx hS.store hσ (commit_run hS.store (hS.memory i) g)
      refine ⟨H', hS.commit i g hadv, ?_⟩
      have hres : result codec cfg indexed S i (.commit g) =
          ((commitGeneration g (S.memory i)).run (perform indexed) S.store).1.1.map Prod.fst := by
        unfold result program
        dsimp only
        rw [Prog.run_bind]
        rfl
      have hstore : (S.call codec cfg indexed i (.commit g)).store =
          ((commitGeneration g (S.memory i)).run (perform indexed) S.store).2 := by
        unfold World.call program
        dsimp only
        rw [Prog.run_bind]
        rfl
      rw [hres, hstore]
      exact hσ'
    | gc c => exact ⟨H, hS.collect i hc, hσ⟩
    | drop => exact hc.elim

lemma Chain.load (hx : Codec.Exact codec)
    (h : Chain codec cfg indexed S σ) {m : Meta} (hdoc : S.store.doc = some m)
    {version : Option ℕ} {pend : Bool} {n : Name} (hn : wantedName m version pend = some n)
    {b : Body} (hb : S.store.blobs.get n = some (.manifest b)) (i : ι) :
    ∃ st loaded mem', σ n = some st ∧
      (StoreLoad.load version pend (S.memory i)).run (perform indexed) S.store = ((.ok loaded, mem'), S.store) ∧
      loaded.elim Snapshot.blank snapshot = snapshot st := by
  obtain ⟨H, hS, hσ⟩ := h.ok hx
  obtain ⟨st, man, ps, hσn, hcons, hcont, he, hr⟩ := hσ n b (hS.store.stored n b hb).hist
  obtain ⟨loaded, mem', hrun, hsnap⟩ := @load_run codec indexed H S.store hx hS.store (S.memory i)
    (hS.memory i) m hdoc version pend n hn b hb st hcons fun man' ps' hbody' he' =>
      represents_expands hx hr he he' (by rw [hbody']; exact hcont.symm)
  exact ⟨st, loaded, mem', hσn, hrun, hsnap⟩

lemma saved_stored (hx : Codec.Exact codec) (h : Chain codec cfg indexed S σ) (i : ι)
    (ht : saveTarget S.store.doc c = .ok (gen, pend))
    (hok : result codec cfg indexed S i (.save c) = .ok r) :
    ∃ m n b, (S.call codec cfg indexed i (.save c)).store.doc = some m ∧ wantedName m none pend.isSome = some n ∧
      (S.call codec cfg indexed i (.save c)).store.blobs.get n = some (.manifest b) ∧
      recorded σ S.store (.save c) (.ok r) (S.call codec cfg indexed i (.save c)).store n = c.state := by
  obtain ⟨H, hS, hσ⟩ := h.ok hx
  have hr := @WorldOk.save_run codec cfg indexed ι H S hS i c
  obtain ⟨H', hadv⟩ := save_advance hx hS.store hr
  have hwant : ∀ (s' : Backend) m, s'.doc = some m →
      savedName s' pend = wantedName m none pend.isSome := by
    intro s' m hm
    cases pend with
    | none => simp [savedName, wantedName, hm]
    | some p => simp [savedName, wantedName, hm]
  have hstore := hadv.ok
  unfold result program at hok
  rw [store_save]
  generalize (save codec cfg c (S.memory i)).run (perform indexed) S.store = q at hr hok hstore ⊢
  have hname : ∃ n, savedName q.2 pend = some n := by
    cases hr with
    | error e he mem' hM => cases hok
    | same hb o k ho mem' hM =>
      obtain ⟨-, rfl⟩ : _ ∧ pend = _ := by simpa [ht] using hb.target
      rw [savedName_same hb.target ho]
      obtain ⟨man, hman, -⟩ := planSave_unchanged ho
      by_contra hne
      push Not at hne
      have := hb.fresh (eq_none_iff_forall_ne_some.mpr hne)
      rw [hman] at this
      cases this
    | write hb w hw index mem' hM =>
      obtain ⟨-, rfl⟩ : _ ∧ pend = _ := by simpa [ht] using hb.target
      exact ⟨_, savedName_write hb.target hw _ index⟩
  obtain ⟨n, hn⟩ := hname
  cases hdoc : q.2.doc with
  | none => cases pend <;> simp [savedName, hdoc] at hn
  | some m =>
    have hw := (hwant q.2 m hdoc).symm.trans hn
    have hb : ∃ b, q.2.blobs.get n = some (.manifest b) := by
      cases pend with
      | none =>
        obtain rfl : m.manifest = n := by simpa [wantedName] using hw
        exact hstore.current m hdoc
      | some p =>
        have hpn : m.pending.bind Pending.manifest = some n := by simpa [wantedName] using hw
        obtain ⟨q', hq', hm'⟩ := bind_eq_some_iff.mp hpn
        exact hstore.pending m hdoc q' hq' n hm'
    obtain ⟨b, hb⟩ := hb
    refine ⟨m, n, b, rfl, hw, hb, ?_⟩
    unfold recorded
    dsimp only
    rw [ht]
    dsimp only
    rw [hn, elim_some, update_self]

/-- The round trip over a chain. Every version and pending manifest that is still stored loads
with the planes and owners of the state it was saved from, at every global cell; and so does
what a further save, the first or a later one, has just written. -/
theorem load_agrees (hx : Codec.Exact codec) {S : World ι} {σ : Shelf}
    (h : Chain codec cfg indexed S σ) :
    (∀ m version pend n b i, S.store.doc = some m → wantedName m version pend = some n →
      S.store.blobs.get n = some (.manifest b) → ∃ st loaded mem', σ n = some st ∧
        (load version pend (S.memory i)).run (perform indexed) S.store =
          ((.ok loaded, mem'), S.store) ∧
        loaded.elim Snapshot.blank snapshot = snapshot st) ∧
    ∀ i j c r gen pend st, Covered σ S.store (.save c) → c.state = some st →
      saveTarget S.store.doc c = .ok (gen, pend) →
      result codec cfg indexed S i (.save c) = .ok r → ∃ loaded mem',
        (load none pend.isSome ((S.call codec cfg indexed i (.save c)).memory j)).run
            (perform indexed) (S.call codec cfg indexed i (.save c)).store =
          ((.ok loaded, mem'), (S.call codec cfg indexed i (.save c)).store) ∧
        loaded.elim Snapshot.blank snapshot = snapshot st := by
  refine ⟨fun m version pend n b i hdoc hn hb => h.load hx hdoc hn hb i,
    fun i j c r gen pend st hcov hst ht hok => ?_⟩
  obtain ⟨m, n, b, hdoc, hn, hb, hrec⟩ := saved_stored hx h i ht hok
  have hnext := h.call i (.save c) trivial hcov
  rw [hok] at hnext
  obtain ⟨st', loaded, mem', hσ, hrun, hsnap⟩ := hnext.load hx hdoc hn hb j
  obtain rfl : st = st' := by
    rw [hrec, hst] at hσ
    exact Option.some.inj hσ
  exact ⟨loaded, mem', hrun, hsnap⟩

end Chain

section Sample

def sampleState (t : ℤ) : EngineState :=
  { emptyState t with
    canvas := ⟨-2, 4, 2, 2⟩
    V := fun y x => if y = 0 ∧ x = 0 then 100 else UNKNOWN
    T := fun y x => if y = 0 ∧ x = 0 then 5 else -1
    B := fun y x => if y = 0 ∧ x = 0 then 5 else -1 }

def sampleSave (t : ℤ) (expected : Option ℕ) : SaveCall :=
  { emptySave t expected with state := some (sampleState t) }

lemma sampleState_consistent (t : ℤ) : Consistent (sampleState t) := by
  refine ⟨fun y x _ _ => ?_, fun y x _ _ => ?_, ?_, ?_, ?_, ?_, ?_, ?_, ?_⟩
  · change -1 ≤ if y = 0 ∧ x = 0 then (5 : ℤ) else -1
    split_ifs <;> norm_num
  · change -1 ≤ if y = 0 ∧ x = 0 then (5 : ℤ) else -1
    split_ifs <;> norm_num
  all_goals simp [sampleState, emptyState]

noncomputable def sampleWorld : World Bool :=
  (World.fresh Bool).call exactCodec lazyConfig false true (.save (sampleSave 5 none))

lemma sampleWorld_saved : ∃ σ m b, Chain exactCodec lazyConfig false sampleWorld σ ∧
    sampleWorld.store.doc = some m ∧ m.version = 1 ∧
    sampleWorld.store.blobs.get m.manifest = some (.manifest b) ∧
    b.watermark = (sampleState 5).watermark ∧ σ m.manifest = some (sampleState 5) := by
  have hcov : Covered (fun _ => none) (World.fresh Bool).store (.save (sampleSave 5 none)) := by
    intro st hst
    cases hst
    refine ⟨sampleState_consistent 5, fun gen pend n st0 _ _ h => ?_⟩
    cases h
  obtain ⟨m, b, hok, hdoc, hversion, hb, hwater, -⟩ := @plain_save exactCodec lazyConfig false
    (fun _ => none) (World.fresh Bool).store ((World.fresh Bool).memory true) exactCodec_exact
    (WorldOk.fresh exactCodec Bool).store (MemOk.blank exactCodec _) rfl (sampleSave 5 none)
    (sampleState 5) rfl rfl rfl rfl rfl rfl (by simp [World.fresh, Backend.empty])
  have hfresh : Chain exactCodec lazyConfig false (World.fresh Bool) fun _ => none := .fresh
  rw [← result_save exactCodec lazyConfig false (World.fresh Bool) true] at hok
  obtain ⟨m', n, b', hdoc', hn, -, hrec⟩ := saved_stored exactCodec_exact hfresh true
    (show saveTarget _ (sampleSave 5 none) = .ok (1, none) from rfl) hok
  have hchain := hfresh.call true (.save (sampleSave 5 none)) trivial hcov
  rw [hok] at hchain
  rw [← store_save exactCodec lazyConfig false (World.fresh Bool) true] at hdoc hb
  cases hdoc.symm.trans hdoc'
  obtain rfl : m.manifest = n := Option.some.inj hn
  exact ⟨_, m, b, hchain, hdoc, hversion, hb, hwater, hrec⟩

/-- The second save has a newer leaf that changes no cell, and takes its tile from the first. -/
theorem load_agrees_sample : ∃ loaded mem', (load none false Memory.blank).run (perform false)
      (sampleWorld.call exactCodec lazyConfig false true (.save (sampleSave 6 (some 1)))).store =
        ((.ok loaded, mem'), (sampleWorld.call exactCodec lazyConfig false true
          (.save (sampleSave 6 (some 1)))).store) ∧
    loaded.elim Snapshot.blank snapshot = snapshot (sampleState 6) ∧
    (snapshot (sampleState 6)).v 4 (-2) = 100 := by
  obtain ⟨σ, m, b, hchain, hdoc, hversion, hb, hwater, hσ⟩ := sampleWorld_saved
  have htarget : saveTarget sampleWorld.store.doc (sampleSave 6 (some 1)) =
      .ok (m.generation, none) := by
    rw [hdoc]
    simp [saveTarget, sampleSave, emptySave, hversion]
  have hcov : Covered σ sampleWorld.store (.save (sampleSave 6 (some 1))) := by
    intro st hst
    cases hst
    refine ⟨sampleState_consistent 6, fun gen pend n st0 ht hn hst0 _ t _ => ?_⟩
    cases htarget.symm.trans ht
    rw [hdoc] at hn
    cases hn
    cases hσ.symm.trans hst0
    exact ⟨fun _ _ => ⟨rfl, rfl, rfl, rfl, rfl, rfl, fun _ => rfl⟩, fun _ _ => ⟨rfl, rfl⟩⟩
  obtain ⟨H, hS, -⟩ := hchain.ok exactCodec_exact
  obtain ⟨m₂, b₂, hok, -⟩ := @plain_save exactCodec lazyConfig false H sampleWorld.store
    (sampleWorld.memory true) exactCodec_exact hS.store (hS.memory true) rfl
    (sampleSave 6 (some 1)) (sampleState 6) rfl rfl rfl rfl (by rw [hdoc, Option.map_some, hversion]; rfl)
    rfl (by
      intro m' hm' b' hb'
      cases hdoc.symm.trans hm'
      cases hb.symm.trans hb'
      rw [hwater]
      simp [sampleState, emptyState])
  rw [← result_save exactCodec lazyConfig false sampleWorld true] at hok
  obtain ⟨loaded, mem', hrun, hsnap⟩ := (load_agrees exactCodec_exact hchain).2 true false
    (sampleSave 6 (some 1)) m₂.version m.generation none (sampleState 6) hcov rfl htarget hok
  exact ⟨loaded, mem', hrun, hsnap, rfl⟩

end Sample
end CloudServer.StoreChain
