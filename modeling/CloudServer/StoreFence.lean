import CloudServer.StoreRetain

/-! Writers that run at the same time. The compare-and-set of the meta document tests its
version number only; under which steps a call that replaces the document replaces the one it
read at its start. -/
namespace CloudServer.StoreFence
open SceneFold SceneApi StoreTiles StoreSave StoreOps StoreObjects StoreExpand StoreRun Function
open StoreHistory StoreSequence StoreCalls StoreCodec StoreRetain Interact

abbrev Log := List (Σ o, Res o)

/-- The document that a call read with its first statement. -/
def readAtStart (own : Log) : Option (Option Meta) :=
  match own.getLast? with
  | some ⟨.readMeta, d⟩ => some d
  | _ => none

def Compared (own : Log) : Prop := ∃ e m r, (⟨.cas e m, r⟩ : Σ o, Res o) ∈ own

/-- A compare-and-set of the call failed. -/
def Lost (own : Log) : Prop := ∃ e m, (⟨.cas e m, false⟩ : Σ o, Res o) ∈ own

/-- A document of a higher version took the place of `d`. -/
def Behind (d doc : Option Meta) : Prop := ∃ m, doc = some m ∧ ∀ m' ∈ d, m'.version < m.version

/-- The call read `d` at its start and made no compare-and-set so far. -/
structure Begun (d : Option Meta) (own : Log) : Prop where
  read : readAtStart own = some d
  fresh : ¬Compared own

/-- What every writer promises of its operations: a single compare-and-set against the version
of the document it read, that keeps or raises the version; objects under their names, manifests
before the compare-and-set; deletions only by a call that does not read the document first. -/
def promised (codec : Codec) (own : Log) : Op → Prop
  | .cas e m => ∃ d, Begun d own ∧ e = d.map Meta.version ∧
      (d.map Meta.version = some m.version ∨ Behind d (some m))
  | .put n o => Named codec n o ∧ ∀ b, o = .manifest b → ∃ d, Begun d own
  | .delete _ => own ≠ [] ∧ readAtStart own = none
  | .dropMeta => own ≠ [] ∧ readAtStart own = none
  | .putIndex _ => Compared own
  | _ => True

def fencing (codec : Codec) : Contract Op Res Backend where
  rely := fun _ _ _ => True
  inv := fun _ => True
  guar := fun own o _ => ¬Lost own ∧ promised codec own o

def Reports {α : Type} (own : Log) (a : Except SaveError α × Memory) (_ : Backend) : Prop :=
  Lost own → a.1 = .error .lostCompareAndSet

lemma readAtStart_cons {own : Log} (h : own ≠ []) (e : Σ o, Res o) :
    readAtStart (e :: own) = readAtStart own := by
  unfold readAtStart
  rw [List.getLast?_cons_of_ne_nil h]

lemma Begun.ne_nil {d : Option Meta} {own : Log} (h : Begun d own) : own ≠ [] := by
  rintro rfl
  cases h.read

lemma Begun.not_lost {d : Option Meta} {own : Log} (h : Begun d own) : ¬Lost own :=
  fun ⟨e, m, hm⟩ => h.fresh ⟨e, m, false, hm⟩

lemma Begun.cons {d : Option Meta} {own : Log} (h : Begun d own) {o : Op} (r : Res o)
    (ho : ∀ e m, o ≠ .cas e m) : Begun d (⟨o, r⟩ :: own) where
  read := (readAtStart_cons h.ne_nil _).trans h.read
  fresh := by
    rintro ⟨e, m, r', hm⟩
    rcases List.mem_cons.mp hm with heq | hm
    · exact ho e m (congrArg Sigma.fst heq).symm
    · exact h.fresh ⟨e, m, r', hm⟩

lemma begun_readMeta (d : Option Meta) : Begun d [⟨.readMeta, d⟩] where
  read := rfl
  fresh := by
    rintro ⟨e, m, r, hm⟩
    cases List.mem_singleton.mp hm

def OnlyReads {α : Type} : StoreProg α → Prop
  | .done _ => True
  | .call o k => (o = .readMeta ∨ ∃ n, o = .get n) ∧ ∀ r, OnlyReads (k r)

variable {α β : Type} {s : Backend}

lemma OnlyReads.bind {p : StoreProg α} {f : α → StoreProg β} (hp : OnlyReads p)
    (hf : ∀ a, OnlyReads (f a)) : OnlyReads (p >>= f) := by
  induction p with
  | done a => exact hf a
  | call o k ih => exact ⟨hp.1, fun r => ih r (hp.2 r)⟩

lemma onlyReads_pure (a : α) : OnlyReads (pure a : StoreProg α) := trivial

lemma onlyReads_get (n : Name) : OnlyReads (StoreOps.get n) := ⟨.inr ⟨n, rfl⟩, fun _ => trivial⟩

lemma onlyReads_readMeta : OnlyReads readMeta := ⟨.inl rfl, fun _ => trivial⟩

lemma onlyReads_readPages (g : ℕ) (hashes : List Hash) : OnlyReads (readPages g hashes) := by
  induction hashes with
  | nil => exact onlyReads_pure _
  | cons h rest ih =>
    refine OnlyReads.bind (onlyReads_get _) fun r => ?_
    split
    · refine OnlyReads.bind ih fun r => ?_
      split <;> exact onlyReads_pure _
    · exact onlyReads_pure _

lemma onlyReads_rawManifest (n : Name) : OnlyReads (rawManifest n) := by
  refine OnlyReads.bind (onlyReads_get _) fun r => ?_
  split <;> exact onlyReads_pure _

lemma onlyReads_expand (n : Name) : OnlyReads (expand n) := by
  refine OnlyReads.bind (onlyReads_rawManifest n) fun r => ?_
  split
  · exact onlyReads_pure _
  · refine OnlyReads.bind (onlyReads_readPages _ _) fun r => ?_
    split <;> exact onlyReads_pure _

lemma onlyReads_manifestByName (mem : Memory) (n : Option Name) :
    OnlyReads (manifestByName mem n) := by
  cases n with
  | none => exact onlyReads_pure _
  | some n =>
    refine OnlyReads.bind onlyReads_readMeta fun r => ?_
    dsimp only
    split
    · exact onlyReads_pure _
    · refine OnlyReads.bind (onlyReads_expand n) fun r => ?_
      split <;> exact onlyReads_pure _

lemma onlyReads_readPair (go gn : ℕ) (ho hn : Hash) : OnlyReads (readPair go gn ho hn) := by
  refine OnlyReads.bind (onlyReads_get _) fun r => ?_
  split
  · split_ifs
    · exact onlyReads_pure _
    · refine OnlyReads.bind (onlyReads_get _) fun r => ?_
      split <;> exact onlyReads_pure _
  · exact onlyReads_pure _

lemma onlyReads_readPairs (go gn : ℕ) (es : List (Hash × Hash)) :
    OnlyReads (readPairs go gn es) := by
  induction es with
  | nil => exact onlyReads_pure _
  | cons e rest ih =>
    refine OnlyReads.bind (onlyReads_readPair _ _ _ _) fun r => ?_
    split
    · exact onlyReads_pure _
    · refine OnlyReads.bind ih fun r => ?_
      split <;> exact onlyReads_pure _

section Packs
variable {codec : Codec} {gen : ℕ}

lemma saveSegments_packed (last : Option (List (List LeafRecord) × List Hash))
    (es : List (List LeafRecord × ℕ)) (acc : List Hash × Dict Name Obj)
    (h : AllPacked codec acc.2) :
    AllPacked codec (es.foldl (saveSegment codec gen last) acc).2 := by
  induction es generalizing acc with
  | nil => exact h
  | cons e es ih =>
    refine ih _ ?_
    unfold saveSegment
    split
    · exact h
    · exact h.set rfl

lemma savePages_packed (last : Option (Dict Coord (Page × Hash))) (es : List (Coord × Page))
    (acc : Dict Coord Hash × Dict Name Obj) (h : AllPacked codec acc.2) :
    AllPacked codec (es.foldl (savePage codec gen last) acc).2 := by
  induction es generalizing acc with
  | nil => exact h
  | cons e es ih =>
    refine ih _ ?_
    unfold savePage
    split
    · exact h
    · exact h.set rfl

lemma draftSave_packed {cfg : Config} {mem : Memory} {md : Option Meta} {pend : Option Pending}
    {prev : Option Manifest} {c : SaveCall} {full : Bool} {d : Draft}
    (h : draftSave codec cfg mem md gen pend prev c full = .ok d) : AllPacked codec d.blobs := by
  unfold draftSave at h
  cases hst : c.state with
  | none => simp [hst] at h
  | some st =>
    simp only [hst] at h
    split_ifs at h
    cases ht : saveTiles codec cfg st (idsOf prev st) gen pend prev c.dirty full with
    | error e => simp [ht] at h
    | ok t =>
      cases hc : chartDocs (idsOf prev st) c.charts with
      | none => simp [ht, hc] at h
      | some charts =>
        simp only [ht, hc] at h
        split_ifs at h
        cases h
        exact savePages_packed _ _ _ (saveSegments_packed _ _ _ (saveTiles_named ht))

end Packs

section Writers
variable {codec : Codec} {cfg : Config} {indexed : Bool} {d : Option Meta} {own : Log}

lemma fencing_refl (own : Log) (s : Backend) : (fencing codec).rely own s s := trivial

lemma safe_pure {post : Log → α → Backend → Prop} {a : α} (h : ∀ s, post own a s) (s : Backend) :
    Safe (perform indexed) (fencing codec) post (pure a) own s := fun s' _ _ => h s'

lemma OnlyReads.safe {p : StoreProg α} (hp : OnlyReads p) (h : Begun d own) (s : Backend) :
    Safe (perform indexed) (fencing codec) (fun own' _ _ => Begun d own') p own s := by
  induction p generalizing own s with
  | done a => exact fun _ _ _ => h
  | call o k ih =>
    intro s' _ _
    obtain ⟨ho, hk⟩ := hp
    have hcas : ∀ e m, o ≠ .cas e m := by
      rcases ho with rfl | ⟨n, rfl⟩ <;> simp
    refine ⟨⟨h.not_lost, ?_⟩, ih _ (hk _) (h.cons _ hcas) _⟩
    rcases ho with rfl | ⟨n, rfl⟩ <;> trivial

lemma safe_putAll {es : List (Name × Obj)} (he : ∀ e ∈ es, Packed codec e.1 e.2) (h : Begun d own) (s : Backend) :
    Safe (perform indexed) (fencing codec) (fun own' _ _ => Begun d own') (putAll es) own s := by
  induction es generalizing own s with
  | nil => exact fun _ _ _ => h
  | cons e es ih =>
    intro s' _ _
    have hp := he e (by simp)
    refine ⟨⟨h.not_lost, hp.named, fun b hb => ?_⟩, ?_⟩
    · exact absurd hp.named (hb ▸ hp.ne_manifest b)
    · exact ih (fun x hx => he x (by simp [hx])) (h.cons _ (by simp)) _

lemma Begun.not_lost_won (h : Begun d own) (e : Option ℕ) (m : Meta) :
    ¬Lost (⟨.cas e m, true⟩ :: own) := by
  rintro ⟨e', m', hm⟩
  rcases List.mem_cons.mp hm with heq | hm
  · cases heq
  · exact h.not_lost ⟨e', m', hm⟩

lemma safe_cas {e : Option ℕ} {m : Meta} {f : Bool → StoreProg (Except SaveError α × Memory)}
    (h : Begun d own) (he : e = d.map Meta.version)
    (hm : d.map Meta.version = some m.version ∨ Behind d (some m))
    (hwon : ∀ s, Safe (perform indexed) (fencing codec) Reports (f true) (⟨.cas e m, true⟩ :: own) s)
    {mem : Memory} (hlost : f false = pure (.error .lostCompareAndSet, mem)) (s : Backend) :
    Safe (perform indexed) (fencing codec) Reports (cas e m >>= f) own s := by
  intro s' _ _
  refine ⟨⟨h.not_lost, d, h, he, hm⟩, ?_⟩
  change Safe _ _ _ (f (perform indexed (.cas e m) s').1) _ _
  generalize hr : (perform indexed (.cas e m) s').1 = r
  cases r with
  | true => exact hwon _
  | false =>
    rw [hlost]
    exact safe_pure (fun _ _ => rfl) _

lemma safe_ended (h : Begun d own) (a : Except SaveError α × Memory) (s : Backend) :
    Safe (perform indexed) (fencing codec) Reports (pure a) own s :=
  safe_pure (fun _ hl => absurd hl h.not_lost) s

lemma not_lost_nil : ¬Lost [] := fun ⟨_, _, hm⟩ => nomatch hm

lemma safe_readMeta {post : Log → α → Backend → Prop} {f : Option Meta → StoreProg α}
    (h : ∀ d s, Begun d [⟨.readMeta, d⟩] →
      Safe (perform indexed) (fencing codec) post (f d) [⟨.readMeta, d⟩] s) (s : Backend) :
    Safe (perform indexed) (fencing codec) post (readMeta >>= f) [] s := fun s' _ _ =>
  ⟨⟨not_lost_nil, trivial⟩, h s'.doc s' (begun_readMeta s'.doc)⟩

lemma safe_writeVersion {w : Write} (hputs : ∀ e ∈ w.puts, Packed codec e.1 e.2)
    (hname : Named codec w.name (.manifest w.body)) (h : Begun d own)
    (hm : d.map Meta.version = some w.newMeta.version ∨ Behind d (some w.newMeta))
    (mem : Memory) (gen : ℕ) (pend : Bool) (s : Backend) :
    Safe (perform indexed) (fencing codec) Reports (writeVersion mem (d.map Meta.version) gen pend w) own s := by
  refine Safe.bind fencing_refl (safe_putAll hputs h s) fun own1 _ s1 _ h1 => ?_
  intro s2 _ _
  refine ⟨⟨h1.not_lost, hname, fun _ _ => ⟨d, h1⟩⟩, ?_⟩
  have h2 := @Begun.cons d own1 h1 (.put w.name (.manifest w.body)) () (by simp)
  refine safe_cas h2 rfl hm (fun s3 => ?_) rfl _
  have hwon := h2.not_lost_won (d.map Meta.version) w.newMeta
  cases pend with
  | true => exact safe_pure (fun _ hl => absurd hl hwon) _
  | false =>
    intro s4 _ _
    refine ⟨⟨hwon, _, _, _, List.mem_cons_self⟩, ?_⟩
    refine safe_pure (fun _ hl => absurd ?_ hwon) _
    obtain ⟨e, m, hl⟩ := hl
    rcases List.mem_cons.mp hl with heq | hl
    · cases heq
    · exact ⟨e, m, hl⟩

lemma planSave_step {md : Option Meta} {gen : ℕ} {pend : Option Pending} {prev : Option Manifest}
    {c : SaveCall} {x : Draft} {w : Write} (hw : planSave codec md gen pend prev c x = .write w) :
    (md.map Meta.version = some w.newMeta.version ∨ Behind md (some w.newMeta)) ∧ Named codec w.name (.manifest w.body) := by
  rcases planSave_numbers hw with ⟨m, p, rfl, -, rfl⟩ | ⟨-, rfl⟩
  · exact ⟨.inl rfl, trivial⟩
  · refine ⟨.inr ⟨_, rfl, fun m hm => ?_⟩, trivial⟩
    obtain rfl : md = some m := hm
    exact Nat.lt_succ_self _

lemma safe_save (c : SaveCall) (mem : Memory) (s : Backend) :
    Safe (perform indexed) (fencing codec) Reports (save codec cfg c mem) [] s := by
  refine safe_readMeta (fun md s1 h => ?_) s
  cases saveTarget md c with
  | error e => exact safe_ended h _ _
  | ok t =>
    obtain ⟨gen, pend⟩ := t
    refine Safe.bind fencing_refl ((onlyReads_manifestByName mem _).safe h _)
      fun own1 r s2 _ h1 => ?_
    obtain ⟨res, mem1⟩ := r
    cases res with
    | error e => exact safe_ended h1 _ _
    | ok prev =>
      dsimp only
      cases hd : draftSave codec cfg mem1 md gen pend prev c (checkDue cfg mem1 c) with
      | error e => exact safe_ended h1 _ _
      | ok x =>
        dsimp only
        cases hp : planSave codec md gen pend prev c x with
        | same o r =>
          cases o with
          | none => exact safe_ended h1 _ _
          | some m =>
            obtain ⟨m0, hdoc, hm⟩ := planSave_same hp
            refine safe_cas h1 rfl (.inl ?_) (fun s3 => ?_) rfl _
            · rw [hdoc]
              rcases hm with ⟨p, -, rfl⟩ | rfl <;> rfl
            · exact safe_pure (fun _ hl => absurd hl (h1.not_lost_won _ _)) _
        | write w =>
          obtain ⟨hstep, hname⟩ := planSave_step hp
          refine safe_writeVersion (fun e he => ?_) hname h1 hstep _ gen _ _
          obtain ⟨n, version, m, r, rfl⟩ := planSave_write hp
          exact (draftSave_packed hd).items e (List.mem_filter.mp he).1

lemma safe_map {p : StoreProg (Except SaveError α × Memory)} (f : α → β)
    (h : Safe (perform indexed) (fencing codec) Reports p own s) :
    Safe (perform indexed) (fencing codec) Reports (p >>= fun r => pure (r.1.map f, r.2)) own s := by
  refine Safe.bind fencing_refl h fun own1 r s1 _ hr => safe_pure (fun _ hl => ?_) _
  rw [hr hl]
  rfl

lemma safe_begin (c : BeginCall) (mem : Memory) (s : Backend) :
    Safe (perform indexed) (fencing codec) Reports (beginGeneration c >>= fun r => pure (r, mem)) [] s := by
  unfold beginGeneration
  rw [Prog.bind_assoc]
  refine safe_readMeta (fun md s1 h => ?_) s
  cases md with
  | none => exact safe_ended h _ _
  | some m =>
    have hset : ∀ m' (r : ℕ) s, m'.version = m.version → Safe (perform indexed) (fencing codec) Reports
        ((cas (some m.version) m' >>= fun b => if b then pure (.ok r)
          else pure (.error .lostCompareAndSet)) >>= fun r => pure (r, mem))
        [⟨.readMeta, some m⟩] s := by
      intro m' r s hv
      rw [Prog.bind_assoc]
      refine safe_cas h rfl (.inl (by rw [hv]; rfl)) (fun s3 => ?_) rfl _
      exact safe_pure (fun _ hl => absurd hl (h.not_lost_won _ _)) _
    dsimp only
    cases m.pending with
    | none => exact hset _ _ _ rfl
    | some p =>
      dsimp only
      split_ifs
      · exact hset _ _ _ rfl
      · exact safe_ended h _ _
      · exact hset _ _ _ rfl

lemma safe_commit (g : ℕ) (mem : Memory) (s : Backend) :
    Safe (perform indexed) (fencing codec) Reports (commitGeneration g mem) [] s := by
  refine safe_readMeta (fun md s1 h => ?_) s
  cases md with
  | none => exact safe_ended h _ _
  | some m =>
    dsimp only [Option.bind_some]
    cases m.pending with
    | none => exact safe_ended h _ _
    | some p =>
      dsimp only
      cases p.manifest with
      | none => exact safe_ended h _ _
      | some pn =>
        dsimp only
        by_cases hg : p.generation ≠ g
        · rw [if_pos hg]
          exact safe_ended h _ _
        rw [if_neg hg]
        refine Safe.bind fencing_refl ((onlyReads_manifestByName mem _).safe h _)
          fun own1 r s2 _ h1 => ?_
        rcases r with ⟨_ | _ | old, mem1⟩
        · exact safe_ended h1 _ _
        · exact safe_ended h1 _ _
        refine Safe.bind fencing_refl ((onlyReads_manifestByName mem1 _).safe h1 _)
          fun own2 r s3 _ h2 => ?_
        rcases r with ⟨_ | _ | new, mem2⟩
        · exact safe_ended h2 _ _
        · exact safe_ended h2 _ _
        refine Safe.bind fencing_refl ((onlyReads_readPairs _ _ _).safe h2 _)
          fun own3 r s4 _ h3 => ?_
        cases r with
        | error e => exact safe_ended h3 _ _
        | ok pairs =>
          dsimp only
          refine Safe.bind fencing_refl ((onlyReads_rawManifest pn).safe h3 _)
            fun own4 r s5 _ h4 => ?_
          cases r with
          | error e => exact safe_ended h4 _ _
          | ok raw =>
            intro s6 _ _
            refine ⟨⟨h4.not_lost, trivial, fun _ _ => ⟨_, h4⟩⟩, ?_⟩
            have h5 := @Begun.cons _ own4 h4 (.put (.manifest g (m.version + 1)) (.manifest
              { raw with
                version := some (m.version + 1), retired := overlapKeymap old new pairs
                from_generation := some old.body.generation })) () (by simp)
            refine safe_cas h5 rfl (.inr ⟨_, rfl, fun m' hm' => ?_⟩) (fun s7 => ?_) rfl _
            · cases hm'
              exact Nat.lt_succ_self _
            · exact safe_pure (fun _ hl => absurd hl (h5.not_lost_won _ _)) _

structure Dropping (own : Log) : Prop where
  ne_nil : own ≠ []
  read : readAtStart own = none
  fresh : ¬Compared own

lemma Dropping.cons (h : Dropping own) {o : Op} (r : Res o) (ho : ∀ e m, o ≠ .cas e m) :
    Dropping (⟨o, r⟩ :: own) where
  ne_nil := by simp
  read := (readAtStart_cons h.ne_nil _).trans h.read
  fresh := by
    rintro ⟨e, m, r', hm⟩
    rcases List.mem_cons.mp hm with heq | hm
    · exact ho e m (congrArg Sigma.fst heq).symm
    · exact h.fresh ⟨e, m, r', hm⟩

lemma Dropping.not_lost (h : Dropping own) : ¬Lost own :=
  fun ⟨e, m, hm⟩ => h.fresh ⟨e, m, false, hm⟩

lemma safe_deleteAll (ns : List Name) (h : Dropping own) (s : Backend) :
    Safe (perform indexed) (fencing codec) (fun own' _ _ => Dropping own') (deleteAll ns) own s := by
  induction ns generalizing own s with
  | nil => exact fun _ _ _ => h
  | cons n ns ih =>
    intro s' _ _
    exact ⟨⟨h.not_lost, h.ne_nil, h.read⟩, ih (h.cons _ (by simp)) _⟩

lemma safe_drop (mem : Memory) (s : Backend) :
    Safe (perform indexed) (fencing codec) Reports (drop mem) [] s := by
  refine Safe.perform fun s1 _ _ => ⟨⟨not_lost_nil, trivial⟩, ?_⟩
  have h : Dropping [⟨.list, s1.blobs.keys⟩] := ⟨by simp, rfl, by
    rintro ⟨e, m, r, hm⟩
    cases List.mem_singleton.mp hm⟩
  refine Safe.bind fencing_refl (safe_deleteAll s1.blobs.keys h s1) fun own1 _ s2 _ h1 => ?_
  refine Safe.perform fun s3 _ _ => ⟨⟨h1.not_lost, trivial⟩, ?_⟩
  have h2 := @Dropping.cons own1 h1 .list s3.blobs.keys (by simp)
  refine Safe.bind fencing_refl (safe_deleteAll s3.blobs.keys h2 s3) fun own2 _ s4 _ h3 => ?_
  refine Safe.perform fun s5 _ _ => ⟨⟨h3.not_lost, h3.ne_nil, h3.read⟩, ?_⟩
  have h4 := @Dropping.cons own2 h3 .dropMeta () (by simp)
  exact safe_pure (fun _ hl => absurd hl h4.not_lost) _

lemma safe_program {c : Call} (hc : ∀ g, c ≠ .gc g) (mem : Memory) (s : Backend) :
    Safe (perform indexed) (fencing codec) Reports (program codec cfg c mem) [] s := by
  cases c with
  | save c => exact safe_save c mem s
  | begin c => exact safe_begin c mem s
  | commit g => exact safe_map Prod.fst (safe_commit g mem s)
  | gc c => exact absurd rfl (hc c)
  | drop => exact safe_drop mem s

end Writers

section System
variable {codec : Codec} {cfg : Config} {indexed : Bool} {ι : Type} [DecidableEq ι]

abbrev Writers (ι : Type) := Sys Op Res Backend ι Call (Except SaveError ℕ) Memory

def idle (ι : Type) : Writers ι := ⟨.empty, fun _ => .blank, fun _ => none⟩

/-- The document changes and its version does not grow: a save into the pending generation, a
move of the cursor, a generation that is begun, an update of the index, a drop. -/
def Rewrites (s s' : Backend) : Prop := s'.doc ≠ s.doc ∧ ¬Behind s.doc s'.doc

def Holds (S : Writers ι) (j : ι) (m : Meta) : Prop :=
  ∃ c p own, S.flight j = some ⟨c, p, own⟩ ∧ Begun (some m) own

/-- Writers that do not disturb each other: the document is rewritten only when no other call
holds one of its version, and dropped when no other call holds any; a manifest is put only while
the version that was read is the current one. -/
def Orderly (indexed : Bool) (S : Writers ι) : Move ι Call → Prop
  | .start _ c => ∀ g, c ≠ .gc g
  | .op i => ∀ c o k own, S.flight i = some ⟨c, .call o k, own⟩ →
      (Rewrites S.store (perform indexed o S.store).2 → ∀ j, j ≠ i → ∀ m, Holds S j m →
        (perform indexed o S.store).2.doc ≠ none ∧
          S.store.doc.map Meta.version ≠ some m.version) ∧
      ∀ n b, o = .put n (.manifest b) →
        (readAtStart own).map (Option.map Meta.version) = some (S.store.doc.map Meta.version)
  | _ => True

def Current (S : Writers ι) : Prop :=
  ∀ j c p own d, S.flight j = some ⟨c, p, own⟩ → Begun d own →
    d = S.store.doc ∨ Behind d S.store.doc

abbrev Fenced (codec : Codec) (indexed : Bool) (S : Writers ι) : Prop :=
  Good (perform indexed) (fun _ => fencing codec) (fun s => AllNamed codec s.blobs)
    (fun _ _ => True) (fun _ => Reports) S

lemma AllOf.erase {P : Name → Obj → Prop} {b : Dict Name Obj} (h : AllOf P b) (n : Name) :
    AllOf P (b.erase n) := by
  intro m o hm
  rw [Dict.get_erase] at hm
  split_ifs at hm
  exact h m o hm

lemma named_perform {own : Log} {o : Op} (hs : AllNamed codec s.blobs)
    (hg : promised codec own o) : AllNamed codec (perform indexed o s).2.blobs := by
  cases o with
  | readMeta => exact hs
  | cas e m =>
    simp only [perform]
    split_ifs <;> exact hs
  | put n o => exact hs.set hg.1
  | get n => exact hs
  | list => exact hs
  | delete n => exact AllOf.erase hs n
  | dropMeta => exact hs
  | putIndex v =>
    simp only [perform]
    split_ifs <;> exact hs

omit [DecidableEq ι] in
lemma idle_fenced : Fenced codec indexed (idle ι) where
  inv := AllOf.empty _
  safe := fun _ _ _ _ h => nomatch h
  idle := fun _ _ => trivial

lemma run_fenced {T : Writers ι}
    (hrun : Run (perform indexed) (program codec cfg) Memory.blank (Orderly indexed) (idle ι) T) :
    Fenced codec indexed T := by
  refine Run.good (fun _ _ _ => trivial) (fun _ _ _ => trivial) (fun _ _ _ _ _ _ _ => trivial)
    (fun S i c hc _ _ _ => safe_program hc _ _) (fun S i c o k own _ hS _ hg => ?_)
    (fun _ _ _ _ _ => trivial) (fun _ => trivial) idle_fenced hrun
  exact ⟨named_perform hS.inv hg.2, fun _ _ _ _ _ _ => trivial, fun _ _ => trivial⟩

lemma rewrite_version {own : Log} {o : Op} (hg : promised codec own o) {m' : Meta}
    (hdoc : (perform indexed o s).2.doc = some m') :
    s.doc = some m' ∨ Behind s.doc (some m') ∨ s.doc.map Meta.version = some m'.version := by
  cases o with
  | cas e m =>
    simp only [perform] at hdoc
    split_ifs at hdoc with he
    · cases hdoc
      obtain ⟨d, -, hd, hm⟩ := hg
      rw [hd] at he
      rcases hm with hm | ⟨m1, h1, hm⟩
      · exact .inr (.inr (he.trans hm))
      · cases h1
        refine .inr (.inl ⟨m', rfl, fun m0 hm0 => ?_⟩)
        obtain hm0 : s.doc = some m0 := hm0
        rw [hm0, Option.map_some] at he
        cases d with
        | none => cases he
        | some m2 =>
          rw [Option.map_some, Option.some.injEq] at he
          rw [he]
          exact hm m2 rfl
    · exact .inl hdoc
  | putIndex v =>
    simp only [perform] at hdoc
    split_ifs at hdoc
    · obtain ⟨m0, hm0, rfl⟩ := Option.map_eq_some_iff.mp hdoc
      rw [hm0]
      exact .inr (.inr rfl)
    · exact .inl hdoc
  | dropMeta => cases hdoc
  | _ => exact .inl hdoc

lemma Behind.trans {a b c : Option Meta} (h1 : Behind a b) (h2 : Behind b c) : Behind a c := by
  obtain ⟨m, rfl, hm⟩ := h1
  obtain ⟨m', rfl, hm'⟩ := h2
  exact ⟨m', rfl, fun x hx => (hm x hx).trans (hm' m rfl)⟩

omit [DecidableEq ι] in
lemma current_other {own : Log} {o : Op} {S : Writers ι} {d : Option Meta}
    (hg : promised codec own o) (hd : d = S.store.doc ∨ Behind d S.store.doc)
    (hquiet : Rewrites S.store (perform indexed o S.store).2 → ∀ m, d = some m →
      (perform indexed o S.store).2.doc ≠ none ∧ S.store.doc.map Meta.version ≠ some m.version) :
    d = (perform indexed o S.store).2.doc ∨ Behind d (perform indexed o S.store).2.doc := by
  by_cases hsame : (perform indexed o S.store).2.doc = S.store.doc
  · rw [hsame]
    exact hd
  by_cases hup : Behind S.store.doc (perform indexed o S.store).2.doc
  · rcases hd with rfl | hd
    · exact .inr hup
    · exact .inr (hd.trans hup)
  have hq := hquiet ⟨hsame, hup⟩
  cases hdoc : (perform indexed o S.store).2.doc with
  | none =>
    cases d with
    | none => exact .inl rfl
    | some m => exact absurd hdoc (hq m rfl).1
  | some m' =>
    rw [hdoc] at hsame hup
    have hv : S.store.doc.map Meta.version = some m'.version := by
      rcases rewrite_version hg hdoc with h | h | h
      · exact absurd h.symm hsame
      · exact absurd h hup
      · exact h
    refine .inr ⟨m', rfl, fun m hm => ?_⟩
    obtain rfl : d = some m := hm
    have hne := (hq m rfl).2
    rcases hd with hd | ⟨m0, hm0, hlt⟩
    · rw [← hd] at hne
      exact absurd rfl hne
    · rw [hm0, Option.map_some, Option.some.injEq] at hv
      rw [← hv]
      exact hlt m rfl

lemma begun_cons {own : Log} {o : Op} {d : Option Meta}
    (hg : promised codec own o) (hd : Begun d (⟨o, (perform indexed o s).1⟩ :: own)) :
    (perform indexed o s).2.doc = s.doc ∧ (d = s.doc ∨ Begun d own) := by
  have hnot : ¬Compared own := fun ⟨e, m, r, hm⟩ => hd.fresh ⟨e, m, r, List.mem_cons_of_mem _ hm⟩
  by_cases hnil : own = []
  · subst hnil
    have hread := hd.read
    cases o with
    | readMeta => exact ⟨rfl, .inl (Option.some.inj hread).symm⟩
    | _ => cases hread
  · have hbegun : Begun d own := ⟨(readAtStart_cons hnil _).symm.trans hd.read, hnot⟩
    refine ⟨?_, .inr hbegun⟩
    cases o with
    | cas e m => exact absurd ⟨e, m, _, List.mem_cons_self⟩ hd.fresh
    | putIndex v => exact absurd hg hnot
    | dropMeta =>
      have := hg.2
      rw [hbegun.read] at this
      cases this
    | _ => rfl

lemma step_current {S U : Writers ι} (hS : Fenced codec indexed S) (hC : Current S)
    {m : Move ι Call} (hc : Orderly indexed S m)
    (hn : next (perform indexed) (program codec cfg) Memory.blank S m = some U) : Current U := by
  cases m with
  | start i c =>
    simp only [next] at hn
    cases hf : S.flight i with
    | some t => simp [hf] at hn
    | none =>
      simp only [hf, Option.some.injEq] at hn
      subst hn
      intro j c' p own d hj hd
      by_cases hji : j = i
      · subst hji
        simp only [Sys.put, update_self, Option.some.injEq, Flight.mk.injEq] at hj
        obtain ⟨-, -, rfl⟩ := hj
        cases hd.read
      · simp only [Sys.put, update_of_ne hji] at hj
        exact hC j c' p own d hj hd
  | op i =>
    simp only [next] at hn
    rcases hf : S.flight i with _ | ⟨c, _ | ⟨o, k⟩, own⟩
    · simp [hf] at hn
    · simp [hf] at hn
    simp only [hf, Option.some.injEq] at hn
    subst hn
    obtain ⟨hg, -⟩ := hS.safe i c _ own hf S.store trivial trivial
    intro j c' p own' d hj hd
    by_cases hji : j = i
    · subst hji
      simp only [Sys.put, update_self, Option.some.injEq, Flight.mk.injEq] at hj
      obtain ⟨-, -, rfl⟩ := hj
      obtain ⟨hdoc, hcase⟩ := begun_cons hg.2 hd
      change d = (perform indexed o S.store).2.doc ∨ Behind d (perform indexed o S.store).2.doc
      rw [hdoc]
      exact hcase.elim .inl fun h => hC j c _ own d hf h
    · simp only [Sys.put, update_of_ne hji] at hj
      refine current_other hg.2 (hC j c' p own' d hj hd) fun hr m hm => ?_
      exact (hc c o k own hf).1 hr j hji m ⟨c', p, own', hj, hm ▸ hd⟩
  | finish i =>
    simp only [next] at hn
    rcases hf : S.flight i with _ | ⟨c, a | ⟨o, k⟩, own⟩
    · simp [hf] at hn
    · simp only [hf, Option.some.injEq] at hn
      subst hn
      intro j c' p own' d hj hd
      by_cases hji : j = i
      · subst hji
        simp [Sys.put] at hj
      · simp only [Sys.put, update_of_ne hji] at hj
        exact hC j c' p own' d hj hd
    · simp [hf] at hn
  | crash i =>
    simp only [next] at hn
    cases hf : S.flight i with
    | none => simp [hf] at hn
    | some t =>
      simp only [hf, Option.some.injEq] at hn
      subst hn
      intro j c' p own' d hj hd
      by_cases hji : j = i
      · subst hji
        simp [Sys.put] at hj
      · simp only [Sys.put, update_of_ne hji] at hj
        exact hC j c' p own' d hj hd

lemma run_current {T : Writers ι}
    (hrun : Run (perform indexed) (program codec cfg) Memory.blank (Orderly indexed) (idle ι) T) :
    Current T := by
  induction hrun with
  | refl => exact fun _ _ _ _ _ h => nomatch h
  | tail m h hc hn ih => exact step_current (run_fenced h) ih hc hn

lemma Named.unique (hx : Codec.Exact codec) {n : Name} {x y : Obj} (h1 : Named codec n x)
    (h2 : Named codec n y) (hx' : ∀ b, x ≠ .manifest b) : x = y := by
  cases n <;> cases x <;> cases y <;>
    first
      | exact h1.elim
      | exact h2.elim
      | exact absurd rfl (hx' _)
      | exact congrArg _ (hx.tile (h1.trans h2.symm))
      | exact congrArg _ (hx.segment (h1.trans h2.symm))
      | exact congrArg _ (hx.page (h1.trans h2.symm))

variable {doc : Option Meta}

lemma Behind.version_ne {d : Option Meta} (h : Behind d doc) :
    d.map Meta.version ≠ doc.map Meta.version := by
  obtain ⟨m, rfl, hm⟩ := h
  cases d with
  | none => simp
  | some m' => simpa using (hm m' rfl).ne

/-- No lost update. In every state an orderly run of writers reaches: a compare-and-set that
succeeds replaces the document its call read at its start; a call whose document was replaced
changes neither the document nor any stored object with its next operation; and a call that lost
its compare-and-set ends with that error. -/
theorem no_lost_update (hx : Codec.Exact codec) {T : Writers ι}
    (hrun : Run (perform indexed) (program codec cfg) Memory.blank (Orderly indexed) (idle ι) T) :
    (∀ i c e m k own, T.flight i = some ⟨c, .call (.cas e m) k, own⟩ →
      T.store.doc.map Meta.version = e → readAtStart own = some T.store.doc) ∧
    (∀ i c o k own d U, T.flight i = some ⟨c, .call o k, own⟩ → Begun d own →
      d ≠ T.store.doc → Orderly indexed T (.op i) →
      next (perform indexed) (program codec cfg) Memory.blank T (.op i) = some U →
      U.store.doc = T.store.doc ∧
        ∀ n x, T.store.blobs.get n = some x → U.store.blobs.get n = some x) ∧
    ∀ i c a own, T.flight i = some ⟨c, .done a, own⟩ → Lost own →
      a.1 = .error .lostCompareAndSet := by
  have hT : Fenced codec indexed T := run_fenced hrun
  have hC : Current T := run_current hrun
  refine ⟨fun i c e m k own hf hv => ?_, fun i c o k own d U hf hd hne ho hn => ?_,
    fun i c a own hf hl => ?_⟩
  · obtain ⟨⟨-, d, hd, he, -⟩, -⟩ := hT.safe i c _ own hf T.store trivial trivial
    rcases hC i c _ own d hf hd with rfl | hb
    · exact hd.read
    · exact absurd (he.symm.trans hv.symm) hb.version_ne
  · obtain ⟨⟨-, hg⟩, -⟩ := hT.safe i c _ own hf T.store trivial trivial
    have hb : Behind d T.store.doc := (hC i c _ own d hf hd).resolve_left hne
    simp only [next, hf, Option.some.injEq] at hn
    subst hn
    change (perform indexed o T.store).2.doc = _ ∧ ∀ n x, _ → (perform indexed o T.store).2.blobs.get n = _
    cases o with
    | cas e m =>
      obtain ⟨d', hd', he, -⟩ := hg
      obtain rfl : d = d' := Option.some.inj (hd.read.symm.trans hd'.read)
      have hlose : T.store.doc.map Meta.version ≠ e := by
        rw [he]
        exact hb.version_ne.symm
      simp [perform, hlose]
    | put n o =>
      refine ⟨rfl, fun n' x hx' => ?_⟩
      change (T.store.blobs.set n o).get n' = _
      rw [Dict.get_set]
      split_ifs with heq
      · subst heq
        refine congrArg some (Named.unique hx hg.1 (hT.inv _ _ hx') fun b hob => ?_)
        have hman := (ho c _ k own hf).2 n' b (by rw [hob])
        rw [hd.read] at hman
        exact hb.version_ne (Option.some.inj hman)
      · exact hx'
    | delete n =>
      have := hg.2
      rw [hd.read] at this
      cases this
    | dropMeta =>
      have := hg.2
      rw [hd.read] at this
      cases this
    | putIndex v => exact absurd hg hd.fresh
    | _ => exact ⟨rfl, fun _ _ h => h⟩
  · exact hT.safe i c _ own hf T.store trivial trivial hl

lemma ops_alone {S : Writers ι} (hidle : ∀ j, S.flight j = none) (i : ι) (c : Call)
    {p : StoreProg (Except SaveError ℕ × Memory)} {own : Log} (m : Memory)
    (hp : Safe (perform indexed) (fencing codec) Reports p own s)
    (hown : ∀ d, Begun d own → d = s.doc) :
    Run (perform indexed) (program codec cfg) Memory.blank (Orderly indexed) (S.put s i m (some ⟨c, p, own⟩))
      (S.put (p.run (perform indexed) s).2 i (p.run (perform indexed) s).1.2 none) := by
  have hflight : ∀ q own, (S.put s i m (some ⟨c, q, own⟩)).flight i = some ⟨c, q, own⟩ := by
    simp [Sys.put]
  induction p generalizing own s with
  | done a =>
    refine .tail (.finish i) (.refl _) trivial ?_
    simp [next, hflight, Sys.put_put]
    rfl
  | call o k ih =>
    obtain ⟨⟨-, hg⟩, hk⟩ := hp s trivial trivial
    have hnext : next (perform indexed) (program codec cfg) Memory.blank
        (S.put s i m (some ⟨c, .call o k, own⟩)) (.op i) =
        some (S.put (perform indexed o s).2 i m
          (some ⟨c, k (perform indexed o s).1, ⟨o, (perform indexed o s).1⟩ :: own⟩)) := by
      simp [next, Sys.put]
    have hstep : Orderly indexed (S.put s i m (some ⟨c, .call o k, own⟩)) (.op i) := by
      intro c' o' k' own' hf
      rw [hflight, Option.some.injEq, Flight.mk.injEq] at hf
      obtain ⟨rfl, hcall, rfl⟩ := hf
      cases hcall
      refine ⟨fun _ j hj m' hput => ?_, fun n b hput => ?_⟩
      · obtain ⟨c2, q, own2, h2, -⟩ := hput
        simp [Sys.put, update_of_ne hj, hidle] at h2
      · subst hput
        obtain ⟨d, hd⟩ := hg.2 b rfl
        rw [hd.read, hown d hd]
        rfl
    refine Run.trans (.tail (.op i) (.refl _) hstep hnext) (ih _ hk (fun d hd => ?_) ?_)
    · obtain ⟨hdoc, hcase⟩ := begun_cons hg hd
      rw [hdoc]
      exact hcase.elim id fun h => hown d h
    · simp [Sys.put]

lemma run_alone {S : Writers ι} (hidle : ∀ j, S.flight j = none) (i : ι) {c : Call} (hc : ∀ g, c ≠ .gc g) :
    Run (perform indexed) (program codec cfg) Memory.blank (Orderly indexed) S
      (S.put ((program codec cfg c (S.memory i)).run (perform indexed) S.store).2 i
        ((program codec cfg c (S.memory i)).run (perform indexed) S.store).1.2 none) := by
  refine Run.trans (.tail (.start i c) (.refl _) hc ?_)
    (ops_alone hidle i c (S.memory i) (safe_program hc (S.memory i) S.store) fun d hd => absurd rfl hd.ne_nil)
  simp [next, hidle]

end System

section Examples

lemma program_save (c : SaveCall) (mem : Memory) :
    program exactCodec lazyConfig (.save c) mem = save exactCodec lazyConfig c mem := rfl

lemma put_doc {S : Writers Bool} {i : Bool} {mem : Memory}
    {f : Option (Flight Op Res Call (Except SaveError ℕ × Memory))} {d : Option Meta}
    (h : s.doc = d) : (S.put s i mem f).store.doc = d := h

lemma exists_saved : ∃ S : Writers Bool, ∃ m,
    Run (perform false) (program exactCodec lazyConfig) Memory.blank (Orderly false) (idle Bool) S ∧
    (∀ j, S.flight j = none) ∧ S.store.doc = some m ∧ m.version = 1 := by
  obtain ⟨m, b, -, hdoc, hv, -⟩ := @plain_save exactCodec lazyConfig false (fun _ => none)
    Backend.empty Memory.blank exactCodec_exact (WorldOk.fresh exactCodec Bool).store
    (MemOk.blank exactCodec _) rfl (emptySave 1 none) (emptyState 1) rfl rfl rfl rfl rfl rfl
    (by simp [Backend.empty])
  have hrun := @run_alone exactCodec lazyConfig false Bool _ (idle Bool) (fun _ => rfl) false
    (.save (emptySave 1 none)) (by simp)
  have hmem : (idle Bool).memory false = Memory.blank := rfl
  have hstore : (idle Bool).store = Backend.empty := rfl
  rw [program_save, hmem, hstore] at hrun
  refine ⟨_, m, hrun, fun j => ?_, put_doc hdoc, hv⟩
  cases j <;> simp [idle, Sys.put]

def freshBegin : BeginCall := ⟨none, true, none, 0⟩

def freshPending (m : Meta) : Pending := ⟨nextGeneration m, 0, none, none, none, none, none, 0⟩

/-- What is left of `begin_generation` after it read the document. -/
def freshRest (m : Meta) (mem : Memory) (b : Bool) : StoreProg (Except SaveError ℕ × Memory) :=
  (if b then pure (.ok (nextGeneration m)) else pure (.error .lostCompareAndSet)) >>= fun r =>
    pure (r, mem)

lemma freshBegin_program (m : Meta) (mem : Memory) : ∃ k,
    program exactCodec lazyConfig (.begin freshBegin) mem = .call .readMeta k ∧
      k (some m) = .call (.cas (some m.version) { m with pending := some (freshPending m) }) (freshRest m mem) := by
  refine ⟨_, rfl, ?_⟩
  obtain ⟨v, g, pa, ph, cu, wa, ma, ge, cr, ep, pend, ix⟩ := m
  cases pend <;> rfl

noncomputable def beginning (m : Meta) (mem : Memory) :
    Flight Op Res Call (Except SaveError ℕ × Memory) :=
  ⟨.begin freshBegin, .call (.cas (some m.version) { m with pending := some (freshPending m) })
    (freshRest m mem), [⟨.readMeta, some m⟩]⟩

lemma run_beginning {S : Writers Bool} {i : Bool} (hi : S.flight i = none) {m : Meta} (hdoc : S.store.doc = some m) :
    Run (perform false) (program exactCodec lazyConfig) Memory.blank (Orderly false) S
      (S.put S.store i (S.memory i) (some (beginning m (S.memory i)))) := by
  obtain ⟨k, hk, hrest⟩ := freshBegin_program m (S.memory i)
  have hstart : Run (perform false) (program exactCodec lazyConfig) Memory.blank (Orderly false) S
      (S.put S.store i (S.memory i) (some ⟨.begin freshBegin, .call .readMeta k, []⟩)) := by
    refine .tail (.start i (.begin freshBegin)) (.refl _) (by simp [Orderly]) ?_
    simp only [next, hi, hk]
  refine .tail (.op i) hstart ?_ ?_
  · intro c o k' own hf
    simp only [Sys.put, update_self, Option.some.injEq, Flight.mk.injEq] at hf
    obtain ⟨-, hcall, -⟩ := hf
    cases hcall
    exact ⟨fun hr => absurd rfl hr.1, by simp⟩
  · simp only [next, Sys.put, update_self, update_idem, perform]
    unfold beginning
    rw [hdoc, hrest]

/-- One version and one process about to begin a generation: its compare-and-set will replace
the document it read. -/
theorem no_lost_update_begin : ∃ T : Writers Bool, ∃ m,
    Run (perform false) (program exactCodec lazyConfig) Memory.blank (Orderly false) (idle Bool) T ∧
    T.flight true = some (beginning m (T.memory true)) ∧ T.store.doc.map Meta.version = some 1 ∧
    readAtStart (beginning m (T.memory true)).own = some T.store.doc := by
  obtain ⟨S, m, hS, hidle, hdoc, hv⟩ := exists_saved
  have hrun := hS.trans (run_beginning (hidle true) hdoc)
  have hflight : (S.put S.store true (S.memory true)
      (some (beginning m (S.memory true)))).flight true = some (beginning m (S.memory true)) := by
    simp [Sys.put]
  refine ⟨_, m, hrun, ?_, ?_, ?_⟩
  · simp [Sys.put]
  · simp [Sys.put, hdoc, hv]
  · refine (no_lost_update exactCodec_exact hrun).1 true _ _ _ _ _ hflight ?_
    simp [Sys.put, hdoc]

/-- Two processes begin a generation over the same version: both compare-and-sets succeed, and the
second one replaces a document its call did not read. -/
theorem second_begin_replaces : ¬∀ T : Writers Bool,
    Run (perform false) (program exactCodec lazyConfig) Memory.blank (fun _ _ => True) (idle Bool) T →
    ∀ i c e m k own, T.flight i = some ⟨c, .call (.cas e m) k, own⟩ →
      T.store.doc.map Meta.version = e → readAtStart own = some T.store.doc := by
  intro hall
  obtain ⟨S, m, hS, hidle, hdoc, -⟩ := exists_saved
  have hrun1 := hS.trans (run_beginning (hidle false) hdoc)
  have hrun2 := hrun1.trans (@run_beginning _ true (by simp [Sys.put, hidle]) m hdoc)
  generalize hT : (S.put S.store false (S.memory false) (some (beginning m (S.memory false)))) = T at hrun1 hrun2
  have hmem : T.flight false = some (beginning m (S.memory false)) := by
    rw [← hT]
    simp [Sys.put]
  have hstore : T.store.doc = some m := by
    rw [← hT]
    exact hdoc
  have hnext : next (perform false) (program exactCodec lazyConfig) Memory.blank
      (T.put T.store true (T.memory true) (some (beginning m (T.memory true)))) (.op false) =
      some ((T.put T.store true (T.memory true) (some (beginning m (T.memory true)))).put
        ⟨T.store.blobs, some { m with pending := some (freshPending m) }⟩ false (T.memory false)
        (some ⟨.begin freshBegin, freshRest m (S.memory false) true,
          [⟨.cas (some m.version) { m with pending := some (freshPending m) }, true⟩,
            ⟨.readMeta, some m⟩]⟩)) := by
    have hf : (T.put T.store true (T.memory true) (some (beginning m (T.memory true)))).flight
        false = some (beginning m (S.memory false)) := by
      simp [Sys.put, hmem]
    simp only [next, hf]
    unfold beginning
    simp [perform, Sys.put, hstore]
  have hrun3 := Run.tail (.op false) (hrun2.mono fun _ _ _ => trivial) trivial hnext
  have h := hall _ hrun3 true (.begin freshBegin) (some m.version)
    { m with pending := some (freshPending m) } (freshRest m (T.memory true)) [⟨.readMeta, some m⟩]
    (by simp [Sys.put, beginning]) (by simp [Sys.put])
  have hp : m.pending = some (freshPending m) :=
    congrArg Meta.pending (Option.some.inj (Option.some.inj h))
  exact lt_irrefl _ ((lt_nextGeneration m).2 _ hp)

end Examples

end CloudServer.StoreFence
