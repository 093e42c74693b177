import CloudServer.StoreRun

/-! What a store remembers between calls, against the history of the manifests written
under each name. -/
namespace CloudServer.StoreHistory
open SceneFold SceneApi StoreTiles StoreSave StoreOps StoreObjects StoreExpand StoreRun Interact

abbrev History := Name → Option Body

def History.Le (H H' : History) : Prop := ∀ n b, H n = some b → H' n = some b

structure MemOk (codec : Codec) (H : History) (mem : Memory) : Prop where
  expanded : ∀ e n man, mem.expanded.get (e, n) = some man →
    H n = some man.body ∧ ∃ ps, Expands codec man ps
  segments : ∀ gen n segs hashes, mem.last_segments.get gen = some (n, segs, hashes) →
    ∃ b, H n = some b ∧ b.generation = gen ∧ b.segments = hashes ∧
      hashes = segs.map codec.segment
  pages : ∀ gen n pages, mem.last_pages.get gen = some (n, pages) →
    ∃ b, H n = some b ∧ b.generation = gen ∧ ∀ s pg h, pages.get s = some (pg, h) →
      h = codec.page pg ∧ b.pages.get s = some h

section Memory
variable {codec : Codec} {H H' : History} {mem : Memory}

lemma MemOk.blank (codec : Codec) (H : History) : MemOk codec H Memory.blank := by
  refine ⟨?_, ?_, ?_⟩ <;> intros <;> simp_all [Memory.blank]

lemma MemOk.mono (h : MemOk codec H mem) (hle : H.Le H') : MemOk codec H' mem where
  expanded := fun e n man hg => (h.expanded e n man hg).imp_left (hle n _)
  segments := fun gen n segs hashes hg =>
    (h.segments gen n segs hashes hg).imp fun b hb => ⟨hle n b hb.1, hb.2⟩
  pages := fun gen n pages hg => (h.pages gen n pages hg).imp fun b hb => ⟨hle n b hb.1, hb.2⟩

lemma evict_get {d : Dict (Option String × Name) Manifest} {k : Option String × Name}
    {man : Manifest} (h : (evict d).get k = some man) : d.get k = some man := by
  rw [← Dict.mem_items] at h ⊢
  exact List.mem_of_mem_drop h

lemma MemOk.remember (h : MemOk codec H mem) {epoch : Option String} {n : Name} {man : Manifest}
    (hn : H n = some man.body) {ps : List Page} (hps : Expands codec man ps) :
    MemOk codec H (mem.remember epoch n man) := by
  refine ⟨fun e m man' hg => ?_, h.segments, h.pages⟩
  unfold Memory.remember at hg
  rw [Dict.get_set] at hg
  split_ifs at hg with he
  · cases hg
    obtain ⟨-, rfl⟩ := Prod.mk.inj he
    exact ⟨hn, ps, hps⟩
  · exact h.expanded e m man' (evict_get hg)

lemma MemOk.expanded_filter (h : MemOk codec H mem) (p : Option String × Name → Manifest → Bool) :
    MemOk codec H { mem with expanded := mem.expanded.filter p } := by
  refine ⟨fun e n man hg => ?_, h.segments, h.pages⟩
  rw [Dict.get_filter, Option.filter_eq_some_iff] at hg
  exact h.expanded e n man hg.1

lemma MemOk.saves (h : MemOk codec H mem) (k : ℕ) : MemOk codec H { mem with saves := k } :=
  ⟨h.expanded, h.segments, h.pages⟩

lemma trusted_eq {α : Type} {d : Dict ℕ (Name × α)} {gen : ℕ} {base : Option Name} {a : α}
    (h : trusted d gen base = some a) : ∃ n, base = some n ∧ d.get gen = some (n, a) := by
  obtain ⟨⟨n, a'⟩, hd, hb⟩ := Option.bind_eq_some_iff.mp h
  split_ifs at hb with hbase
  cases hb
  exact ⟨n, hbase, hd⟩

lemma MemOk.trust (h : MemOk codec H mem) {gen : ℕ} {base : Option Name} {prev : Option Manifest}
    (hbase : ∀ n ∈ base, ∃ man, prev = some man ∧ H n = some man.body) :
    TrustSegments codec gen (knownNames prev) (trusted mem.last_segments gen base) ∧
      TrustPages codec gen (knownNames prev) (trusted mem.last_pages gen base) := by
  constructor
  · intro l hl i rows hh hrows hhash
    obtain ⟨n, hb, hget⟩ := trusted_eq hl
    obtain ⟨man, rfl, hman⟩ := hbase n hb
    obtain ⟨b, hHn, hgen, hseg, hmap⟩ := h.segments gen n l.1 l.2 hget
    obtain rfl : b = man.body := Option.some.inj (hHn.symm.trans hman)
    refine ⟨?_, ?_⟩
    · rw [hmap, List.getElem?_map, hrows] at hhash
      exact (Option.some.inj hhash).symm
    · rw [← hgen]
      refine mem_known_segment ?_
      rw [hseg]
      exact List.mem_of_getElem? hhash
  · intro l hl s pg hh hget'
    obtain ⟨n, hb, hget⟩ := trusted_eq hl
    obtain ⟨man, rfl, hman⟩ := hbase n hb
    obtain ⟨b, hHn, hgen, hpages⟩ := h.pages gen n l hget
    obtain rfl : b = man.body := Option.some.inj (hHn.symm.trans hman)
    obtain ⟨h1, h2⟩ := hpages s pg hh hget'
    refine ⟨h1, ?_⟩
    rw [← hgen]
    exact mem_known_page h2

lemma MemOk.commit (h : MemOk codec H mem) {gen : ℕ} {prev : Option Manifest} {d : Draft}
    (hd : DraftOk codec gen prev d) {cfg : Config} {pend : Option Pending} {c : SaveCall}
    {full : Bool} (hf : DraftFrom codec cfg gen pend prev c full d) {n : Name}
    {version : Option ℕ} {m : Meta} {result : ℕ}
    (hn : H n = some (d.body codec gen version c)) (epoch : Option String) :
    let w := d.write prev n (d.body codec gen version c) m result
    MemOk codec H (({ mem with
      last_segments := mem.last_segments.set gen (w.name, w.segs)
      last_pages := mem.last_pages.set gen (w.name, w.pages) } : Memory).remember epoch w.name
        w.expanded) := by
  intro w
  suffices hm : MemOk codec H ({ mem with
      last_segments := mem.last_segments.set gen (w.name, w.segs)
      last_pages := mem.last_pages.set gen (w.name, w.pages) } : Memory) from
    hm.remember hn (hd.expands hf version)
  refine ⟨h.expanded, fun g nn segs hashes hg => ?_, fun g nn pages hg => ?_⟩
  · rw [Dict.get_set] at hg
    split_ifs at hg with he
    · cases hg
      exact ⟨_, hn, he.symm, rfl, hd.seg_hashes⟩
    · exact h.segments g nn segs hashes hg
  · rw [Dict.get_set] at hg
    split_ifs at hg with he
    · cases hg
      refine ⟨_, hn, he.symm, fun s pg hh hget => ?_⟩
      rcases Dict.get_update (.empty : Dict Coord (Page × Hash))
        (d.pages.map fun e => (e.1, e.2, (d.page_hashes.get e.1).getD "")) s with
        ⟨-, hu⟩ | ⟨v, hv, hu⟩
      · simp only [w, Draft.write, Dict.ofList, hu, Dict.get_empty, reduceCtorEq] at hget
      · simp only [w, Draft.write, Dict.ofList, hu, Option.some.injEq] at hget
        subst hget
        obtain ⟨e, he', hev⟩ := List.mem_map.mp hv
        obtain ⟨rfl, hpair⟩ := Prod.mk.inj hev
        cases hpair
        have hmem : e.1 ∈ d.tiles.keys.map superOf ++ d.charts.map homeOf := by
          obtain ⟨s', hs', rfl⟩ := List.mem_map.mp he'
          exact List.mem_dedup.mp hs'
        have hget := hd.get_page hmem
        rw [mem_pages he', hget]
        refine ⟨rfl, ?_⟩
        change d.page_hashes.sorted.get e.1 = _
        rw [Dict.get_sorted, hget]
        rfl
    · exact h.pages g nn pages hg

end Memory

structure Stored (H : History) (s : Backend) (n : Name) (b : Body) : Prop where
  blob : s.blobs.get n = some (.manifest b)
  hist : H n = some b
  complete : Complete s.blobs b

section Run
variable {codec : Codec} {cfg : Config} {indexed : Bool} {H : History} {mem : Memory} {s : Backend}

lemma manifestByName_run (hM : MemOk codec H mem) (hs : AllNamed codec s.blobs) {n : Name}
    {b : Body} (hn : Stored H s n b) :
    ∃ man ps mem', (manifestByName mem (some n)).run (perform indexed) s =
        ((.ok (some man), mem'), s) ∧ man.body = b ∧ Expands codec man ps ∧ MemOk codec H mem' := by
  unfold manifestByName
  rw [run_readMeta]
  dsimp only
  cases hg : mem.expanded.get (s.doc.map Meta.epoch, n) with
  | some man =>
    obtain ⟨hHn, ps, hps⟩ := hM.expanded _ _ _ hg
    exact ⟨man, ps, mem, rfl, Option.some.inj (hHn.symm.trans hn.hist), hps, hM⟩
  | none =>
    obtain ⟨man, ps, hrun, hbody, hps⟩ := @expand_run indexed codec s n b hs hn.blob hn.complete
    dsimp only
    rw [Prog.run_bind, hrun]
    exact ⟨man, ps, _, rfl, hbody, hps, hM.remember (hbody ▸ hn.hist) hps⟩

structure Built (codec : Codec) (cfg : Config) (H : History) (s : Backend) (c : SaveCall)
    (gen : ℕ) (pend : Option Pending) (prev : Option Manifest) (full : Bool) (d : Draft) : Prop where
  target : saveTarget s.doc c = .ok (gen, pend)
  base : ∀ n ∈ baseName s.doc pend, ∃ man ps, prev = some man ∧ Stored H s n man.body ∧
    man.body.generation = gen ∧ Expands codec man ps
  fresh : baseName s.doc pend = none → prev = none
  ok : DraftOk codec gen prev d
  draft : DraftFrom codec cfg gen pend prev c full d

def Refused (codec : Codec) (cfg : Config) (s : Backend) (c : SaveCall) (e : SaveError) : Prop :=
  saveTarget s.doc c = .error e ∨ ∃ mem gen pend prev, saveTarget s.doc c = .ok (gen, pend) ∧
    draftSave codec cfg mem s.doc gen pend prev c (checkDue cfg mem c) = .error e

/-- The ways a save alone on the store can end: an error that changes nothing, the version
that is already there with perhaps another cursor, or a new version. -/
inductive SaveRun (codec : Codec) (cfg : Config) (H : History) (s : Backend) (c : SaveCall) :
    (Except SaveError ℕ × Memory) × Backend → Prop
  | error (e : SaveError) (he : Refused codec cfg s c e) (mem' : Memory)
      (hM : MemOk codec H mem') : SaveRun codec cfg H s c ((.error e, mem'), s)
  | same {gen pend prev full d} (hb : Built codec cfg H s c gen pend prev full d)
      (o : Option Meta) (r : ℕ) (ho : planSave codec s.doc gen pend prev c d = .same o r)
      (mem' : Memory) (hM : MemOk codec H mem') :
      SaveRun codec cfg H s c ((.ok r, mem'), { s with doc := o.or s.doc })
  | write {gen pend prev full d} (hb : Built codec cfg H s c gen pend prev full d) (w : Write)
      (hw : planSave codec s.doc gen pend prev c d = .write w) (index : Option ℕ) (mem' : Memory)
      (hM : ∀ H' : History, H.Le H' → H' w.name = some w.body → MemOk codec H' mem') :
      SaveRun codec cfg H s c ((.ok w.result, mem'),
        ⟨(s.blobs.update w.puts).set w.name (.manifest w.body),
          some { w.newMeta with index_version := index }⟩)

lemma planSave_write {gen : ℕ} {pend : Option Pending} {prev : Option Manifest} {c : SaveCall}
    {d : Draft} {md : Option Meta} {w : Write} (h : planSave codec md gen pend prev c d = .write w) :
    ∃ n version m r, w = d.write prev n (d.body codec gen version c) m r := by
  unfold planSave at h
  split at h <;> dsimp only at h <;> split_ifs at h <;> cases h
  · exact ⟨_, _, _, _, rfl⟩
  · exact ⟨_, _, _, _, rfl⟩

lemma writeVersion_run (mem : Memory) (s : Backend) (gen : ℕ) (pend : Bool) (w : Write) :
    ∃ index, (writeVersion mem (s.doc.map Meta.version) gen pend w).run (perform indexed) s =
      ((.ok w.result, ({ mem with
        last_segments := mem.last_segments.set gen (w.name, w.segs)
        last_pages := mem.last_pages.set gen (w.name, w.pages) } : Memory).remember
          (some w.newMeta.epoch) w.name w.expanded),
        ⟨(s.blobs.update w.puts).set w.name (.manifest w.body), some { w.newMeta with index_version := index }⟩) := by
  unfold writeVersion
  rw [Prog.run_bind, putAll_run]
  dsimp only
  rw [run_put]
  rw [run_cas (s := ⟨(s.blobs.update w.puts).set w.name (.manifest w.body), s.doc⟩) rfl]
  cases pend with
  | true => exact ⟨w.newMeta.index_version, rfl⟩
  | false =>
    cases indexed with
    | true => exact ⟨some w.result, rfl⟩
    | false => exact ⟨w.newMeta.index_version, rfl⟩

lemma save_run (hM : MemOk codec H mem) (hs : AllNamed codec s.blobs) (c : SaveCall)
    (hbase : ∀ gen pend, saveTarget s.doc c = .ok (gen, pend) → ∀ n ∈ baseName s.doc pend,
      ∃ b, Stored H s n b ∧ b.generation = gen) :
    SaveRun codec cfg H s c ((save codec cfg c mem).run (perform indexed) s) := by
  unfold save
  rw [run_readMeta]
  cases ht : saveTarget s.doc c with
  | error e => exact .error e (.inl ht) mem hM
  | ok t =>
    obtain ⟨gen, pend⟩ := t
    dsimp only
    obtain ⟨prev, mem1, hrun, hM1, hprev, hnone⟩ : ∃ prev mem1,
        (manifestByName mem (baseName s.doc pend)).run (perform indexed) s =
          ((.ok prev, mem1), s) ∧ MemOk codec H mem1 ∧
        (∀ n ∈ baseName s.doc pend, ∃ man ps, prev = some man ∧ Stored H s n man.body ∧
          man.body.generation = gen ∧ Expands codec man ps) ∧
        (baseName s.doc pend = none → prev = none) := by
      cases hb : baseName s.doc pend with
      | none => exact ⟨none, mem, rfl, hM, by simp, fun _ => rfl⟩
      | some n =>
        obtain ⟨b, hst, hgen⟩ := hbase gen pend ht n hb
        obtain ⟨man, ps, mem1, hrun, rfl, hps, hM1⟩ :=
          @manifestByName_run codec indexed H mem s hM hs n b hst
        refine ⟨some man, mem1, hrun, hM1, fun m hm => ?_, by simp⟩
        cases hm
        exact ⟨man, ps, rfl, hst, hgen, hps⟩
    rw [Prog.run_bind, hrun]
    dsimp only
    have hM2 := hM1.saves (if checkDue cfg mem1 c = true then 0 else mem1.saves + 1)
    have hgen : ∀ m ∈ prev, m.body.generation = gen := by
      intro m hm
      cases hb : baseName s.doc pend with
      | none =>
        rw [hnone hb] at hm
        cases hm
      | some n =>
        obtain ⟨man, ps, rfl, -, hg, -⟩ := hprev n hb
        cases hm
        exact hg
    cases hd : draftSave codec cfg mem1 s.doc gen pend prev c (checkDue cfg mem1 c) with
    | error e =>
      dsimp only
      by_cases he : e = .keyError
      · rw [if_pos he]
        exact .error e (.inr ⟨mem1, gen, pend, prev, ht, hd⟩) _ hM2
      · rw [if_neg he]
        exact .error e (.inr ⟨mem1, gen, pend, prev, ht, hd⟩) _ hM1
    | ok d =>
      obtain ⟨hts, htp⟩ := @MemOk.trust codec H mem1 hM1 gen (baseName s.doc pend) prev
        fun n hn => by
          obtain ⟨man, ps, h1, h2, -⟩ := hprev n hn
          exact ⟨man, h1, h2.hist⟩
      obtain ⟨hok, hfrom⟩ := draftSave_ok hd hgen hts htp
      have hb : Built codec cfg H s c gen pend prev (checkDue cfg mem1 c) d :=
        ⟨ht, hprev, hnone, hok, hfrom⟩
      dsimp only
      cases hp : planSave codec s.doc gen pend prev c d with
      | same o r =>
        cases o with
        | none => exact .same hb none r hp _ hM2
        | some m =>
          dsimp only
          rw [run_cas rfl]
          exact .same hb (some m) r hp _ hM2
      | write w =>
        obtain ⟨index, hrun⟩ := @writeVersion_run indexed
          { mem1 with saves := if checkDue cfg mem1 c = true then 0 else mem1.saves + 1 }
          s gen pend.isSome w
        dsimp only
        rw [hrun]
        refine .write hb w hp index _ fun H' hle hw => ?_
        obtain ⟨n, version, m, r, rfl⟩ := planSave_write hp
        exact (hM2.mono hle).commit hok hfrom hw _

end Run

end CloudServer.StoreHistory
