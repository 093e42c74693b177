import CloudServer.StoreCalls
import CloudServer.StoreCodec

/-! Retention: what a collection deletes, and the versions that stay readable over any
sequence of calls. -/
namespace CloudServer.StoreRetain
open SceneLeaf SceneFold SceneApi StoreTiles StoreSave StoreOps StoreObjects StoreExpand StoreRun StoreHistory
open StoreSequence StoreCalls StoreCodec Interact List

def Refers (s : Backend) (b : Body) (n : Name) : Prop :=
  (∃ h ∈ b.pages.items.map Prod.snd, n = .page b.generation h ∨
    ∃ p, s.blobs.get (.page b.generation h) = some (.page p) ∧
      ∃ e ∈ p.tiles.items, n = .tile b.generation e.2) ∨
  ∃ h ∈ b.segments, n = .segment b.generation h

section Refs
variable {indexed : Bool} {s : Backend}

lemma pageRefs_run (g : ℕ) (hs : List Hash) (s : Backend) :
    ∃ l, (pageRefs g hs).run (perform indexed) s = (l, s) ∧ ∀ n, n ∈ l ↔ ∃ h ∈ hs,
      n = .page g h ∨ ∃ p, s.blobs.get (.page g h) = some (.page p) ∧ ∃ e ∈ p.tiles.items, n = .tile g e.2 := by
  induction hs with
  | nil => exact ⟨[], rfl, by simp⟩
  | cons h hs ih =>
    obtain ⟨l, hrun, hl⟩ := ih
    unfold pageRefs
    rw [run_get]
    dsimp only
    rw [Prog.run_bind, hrun]
    refine ⟨_, rfl, fun n => ?_⟩
    rw [cons_append, mem_cons, mem_append, hl]
    simp only [mem_cons, exists_eq_or_imp, or_assoc]
    refine or_congr_right (or_congr_left ?_)
    cases hg : s.blobs.get (.page g h) with
    | none => simp
    | some o =>
      cases o with
      | page p => simp [eq_comm]
      | _ => simp

lemma bodyRefs_run (b : Body) (s : Backend) :
    ∃ l, (bodyRefs b).run (perform indexed) s = (l, s) ∧ ∀ n, n ∈ l ↔ Refers s b n := by
  obtain ⟨l, hrun, hl⟩ := @pageRefs_run indexed b.generation (b.pages.items.map Prod.snd) s
  unfold bodyRefs
  rw [Prog.run_bind, hrun]
  refine ⟨_, rfl, fun n => ?_⟩
  rw [mem_append, hl, mem_map]
  unfold Refers
  refine or_congr_right ?_
  simp only [eq_comm]

def RootRefers (s : Backend) (r n : Name) : Prop :=
  ∃ b, s.blobs.get r = some (.manifest b) ∧ (n = r ∨ Refers s b n)

lemma keepRefs_run (rs : List Name) (s : Backend) :
    ∃ l, (keepRefs rs).run (perform indexed) s = (l, s) ∧ ∀ n, n ∈ l ↔ ∃ r ∈ rs, RootRefers s r n := by
  induction rs with
  | nil => exact ⟨[], rfl, by simp⟩
  | cons r rs ih =>
    obtain ⟨l, hrun, hl⟩ := ih
    have hskip : (∀ b, s.blobs.get r ≠ some (.manifest b)) →
        ∀ n, n ∈ l ↔ ∃ r' ∈ r :: rs, RootRefers s r' n := by
      intro hno n
      have hr : ¬RootRefers s r n := fun ⟨b, hb, _⟩ => hno b hb
      simp [hl, hr]
    unfold keepRefs
    rw [run_get]
    cases hg : s.blobs.get r with
    | none => exact ⟨l, hrun, hskip (by simp [hg])⟩
    | some o =>
      cases o with
      | manifest b =>
        obtain ⟨l1, hrun1, hl1⟩ := @bodyRefs_run indexed b s
        dsimp only
        rw [Prog.run_bind, hrun1]
        dsimp only
        rw [Prog.run_bind, hrun]
        refine ⟨_, rfl, fun n => ?_⟩
        have hr : RootRefers s r n ↔ n = r ∨ Refers s b n := by
          constructor
          · rintro ⟨b', hb', h⟩
            rw [hg] at hb'
            cases hb'
            exact h
          · exact fun h => ⟨b, hg, h⟩
        rw [cons_append, mem_cons, mem_append, hl1, hl]
        simp only [mem_cons, exists_eq_or_imp, hr, or_assoc]
      | _ => exact ⟨l, hrun, hskip (by simp [hg])⟩

end Refs

/-- What a collection keeps: the retained versions and the pending manifest, with everything
reachable from them. -/
def Keeps (s : Backend) (m : Meta) (c : GcCall) (n : Name) : Prop :=
  (∃ v ∈ keepVersions m.version c, RootRefers s (nameOf m v) n) ∨
    ∃ p ∈ m.pending, ∃ r ∈ p.manifest, RootRefers s r n

section Gc
variable {codec : Codec} {indexed : Bool} {H : History} {mem : Memory} {s : Backend}

lemma get_deleted (ns : List Name) (d : Dict Name Obj) (n : Name) :
    (ns.foldl Dict.erase d).get n = if n ∈ ns then none else d.get n := by
  induction ns generalizing d with
  | nil => simp
  | cons a ns ih =>
    rw [foldl_cons, ih, Dict.get_erase]
    by_cases hn : n ∈ ns
    · simp [hn]
    · by_cases ha : n = a
      · simp [ha]
      · simp [hn, ha]

lemma gc_blank (hdoc : s.doc = none) (c : GcCall) (mem : Memory) :
    (gc c mem).run (perform indexed) s = ((.ok 0, mem), s) := by
  unfold gc
  rw [run_readMeta, hdoc]
  rfl

lemma gc_run (hs : StoreOk codec H s) {m : Meta} (hdoc : s.doc = some m) (c : GcCall) (mem : Memory) :
    ∃ dead : List Name, (gc c mem).run (perform indexed) s = ((.ok dead.length,
        { mem with expanded := mem.expanded.filter fun k _ => k.2 ∉ dead }),
        ⟨dead.foldl Dict.erase s.blobs, some m⟩) ∧
      ∀ n, n ∈ dead ↔ n ∈ s.blobs.keys ∧ ¬Keeps s m c n := by
  obtain ⟨l, hrun, hl⟩ := @keepRefs_run indexed ((keepVersions m.version c).map (nameOf m)) s
  have hkept : ∀ n, n ∈ l ↔ ∃ v ∈ keepVersions m.version c, RootRefers s (nameOf m v) n := by
    intro n
    rw [hl]
    simp
  unfold gc
  rw [run_readMeta, hdoc]
  dsimp only
  rw [Prog.run_bind, hrun]
  dsimp only
  cases hpn : m.pending.bind Pending.manifest with
  | none =>
    have hnone : ∀ n, ¬∃ p ∈ m.pending, ∃ r ∈ p.manifest, RootRefers s r n := by
      rintro n ⟨p, hp, r, hr, -⟩
      rw [Option.mem_def] at hp hr
      rw [hp, Option.bind_some, hr] at hpn
      cases hpn
    refine ⟨s.blobs.keys.filter fun n => n ∉ l ∧ n ∉ ([] : List Name), ?_, fun n => ?_⟩
    · change (Prog.run (perform indexed) (deleteAll _ >>= _) s) = _
      rw [Prog.run_bind, deleteAll_run, hdoc]
      rfl
    · have hk : Keeps s m c n ↔ n ∈ l := by
        rw [hkept]
        exact or_iff_left (hnone n)
      rw [hk, mem_filter]
      simp
  | some r =>
    obtain ⟨p, hp, hr⟩ := Option.bind_eq_some_iff.mp hpn
    obtain ⟨b, hb⟩ := hs.pending m hdoc p hp r hr
    obtain ⟨l1, hrun1, hl1⟩ := @bodyRefs_run indexed b s
    refine ⟨s.blobs.keys.filter fun n => n ∉ l ∧ n ∉ r :: l1, ?_, fun n => ?_⟩
    · dsimp only
      rw [run_get, hb]
      dsimp only
      rw [Prog.run_bind, hrun1]
      change (Prog.run (perform indexed) (deleteAll _ >>= _) s) = _
      rw [Prog.run_bind, deleteAll_run, hdoc]
      rfl
    · have hpend : (∃ p ∈ m.pending, ∃ r ∈ p.manifest, RootRefers s r n) ↔ n ∈ r :: l1 := by
        rw [mem_cons, hl1]
        constructor
        · rintro ⟨p', hp', r', hr', b', hb', h⟩
          obtain rfl : p = p' := Option.some.inj (hp.symm.trans hp')
          obtain rfl : r = r' := Option.some.inj (hr.symm.trans hr')
          rw [hb] at hb'
          cases hb'
          exact h
        · exact fun h => ⟨p, hp, r, hr, b, hb, h⟩
      have hk : Keeps s m c n ↔ n ∈ l ∨ n ∈ r :: l1 := by
        rw [hkept]
        exact or_congr_right hpend
      rw [hk, mem_filter, not_or, decide_eq_true_eq]

lemma refers_not_manifest (hs : AllNamed codec s.blobs) {b c : Body} {n : Name}
    (hn : s.blobs.get n = some (.manifest c)) : ¬Refers s b n := by
  have hnamed := hs _ _ hn
  rintro (⟨h, -, rfl | ⟨p, -, e, -, rfl⟩⟩ | ⟨h, -, rfl⟩) <;> exact hnamed

lemma keeps_root (hs : AllNamed codec s.blobs) {m : Meta} {c : GcCall} {n : Name} {b : Body}
    (hn : s.blobs.get n = some (.manifest b)) :
    Keeps s m c n ↔ (∃ v ∈ keepVersions m.version c, nameOf m v = n) ∨ ∃ p ∈ m.pending, p.manifest = some n := by
  have hroot : ∀ r, RootRefers s r n ↔ r = n := by
    intro r
    constructor
    · rintro ⟨b', -, h | h⟩
      · exact h.symm
      · exact absurd h (refers_not_manifest hs hn)
    · rintro rfl
      exact ⟨b, hn, .inl rfl⟩
  unfold Keeps
  simp only [hroot, Option.mem_def, exists_eq_right]

lemma keeps_refers {m : Meta} {c : GcCall} {n k : Name} {b : Body}
    (hn : s.blobs.get n = some (.manifest b)) (hk : (∃ v ∈ keepVersions m.version c, nameOf m v = n) ∨
      ∃ p ∈ m.pending, p.manifest = some n) (hr : Refers s b k) : Keeps s m c k := by
  rcases hk with ⟨v, hv, rfl⟩ | ⟨p, hp, hpn⟩
  · exact .inl ⟨v, hv, b, hn, .inr hr⟩
  · exact .inr ⟨p, hp, n, hpn, b, hn, .inr hr⟩

lemma mem_keepVersions {cur v : ℕ} {c : GcCall} : v ∈ keepVersions cur c ↔
    (1 ≤ v ∧ v ≤ cur) ∧ ((cur : ℤ) - c.keep_last + 1 ≤ v ∨ v ∈ c.leased) := by
  unfold keepVersions
  rw [mem_filter, mem_range, decide_eq_true_eq, Nat.lt_succ_iff]
  tauto

lemma StoreOk.current_kept (hs : StoreOk codec H s) {m : Meta} (hdoc : s.doc = some m) {c : GcCall}
    (hk : 1 ≤ c.keep_last) : m.version ∈ keepVersions m.version c := by
  obtain ⟨b, hb⟩ := hs.current m hdoc
  have hh := (hs.stored _ _ hb).hist
  rw [(hs.doc m hdoc).manifest] at hh
  have hpos := ((hs.doc m hdoc).committed _ _ (by rw [hh]; rfl)).1
  exact mem_keepVersions.mpr ⟨hpos, .inl (by omega)⟩

lemma gc_ok (hs : StoreOk codec H s) {m : Meta} (hdoc : s.doc = some m) {c : GcCall} (hk : 1 ≤ c.keep_last) {dead : List Name}
    (hdead : ∀ n, n ∈ dead ↔ n ∈ s.blobs.keys ∧ ¬Keeps s m c n) :
    StoreOk codec H ⟨dead.foldl Dict.erase s.blobs, some m⟩ := by
  have hget : ∀ n o, (dead.foldl Dict.erase s.blobs).get n = some o ↔
      s.blobs.get n = some o ∧ Keeps s m c n := by
    intro n o
    rw [get_deleted]
    split_ifs with hd
    · simp [((hdead n).mp hd).2]
    · refine ⟨fun ho => ⟨ho, ?_⟩, fun h => h.1⟩
      by_contra hne
      exact hd ((hdead n).mpr ⟨Dict.mem_keys.mpr ⟨o, ho⟩, hne⟩)
  have hroot : ∀ n b, s.blobs.get n = some (.manifest b) →
      ((∃ v ∈ keepVersions m.version c, nameOf m v = n) ∨ ∃ p ∈ m.pending, p.manifest = some n) →
      (dead.foldl Dict.erase s.blobs).get n = some (.manifest b) := fun n b hn h =>
    (hget n _).mpr ⟨hn, (keeps_root hs.named hn).mpr h⟩
  refine ⟨fun n o ho => hs.named n o ((hget n o).mp ho).1, fun n b hn => ?_, hs.gens, hs.hashed, by simp,
    by simp, fun m' hm' => ?_, fun m' hm' => ?_, fun m' hm' p hp n hn => ?_⟩
  · obtain ⟨hb, hkeep⟩ := (hget n _).mp hn
    have hst := hs.stored n b hb
    have hr := fun k => @keeps_refers s m c n k b hb ((keeps_root hs.named hb).mp hkeep)
    refine ⟨hn, hst.hist, fun h hh => ?_, fun h hh => ?_⟩
    · obtain ⟨p, hp, htiles⟩ := hst.complete.pages h hh
      refine ⟨p, (hget _ _).mpr ⟨hp, hr _ (.inl ⟨h, hh, .inl rfl⟩)⟩, fun e he => ?_⟩
      obtain ⟨o, ho⟩ := Option.isSome_iff_exists.mp (htiles e he)
      exact Option.isSome_iff_exists.mpr
        ⟨o, (hget _ _).mpr ⟨ho, hr _ (.inl ⟨h, hh, .inr ⟨p, hp, e, he, rfl⟩⟩)⟩⟩
    · obtain ⟨o, ho⟩ := Option.isSome_iff_exists.mp (hst.complete.segments h hh)
      exact Option.isSome_iff_exists.mpr ⟨o, (hget _ _).mpr ⟨ho, hr _ (.inr ⟨h, hh, rfl⟩)⟩⟩
  · cases hm'
    exact hs.doc m hdoc
  · cases hm'
    obtain ⟨b, hb⟩ := hs.current m hdoc
    refine ⟨b, hroot _ b hb (.inl ⟨m.version, StoreOk.current_kept hs hdoc hk, ?_⟩)⟩
    exact (hs.doc m hdoc).nameOf_current
  · cases hm'
    obtain ⟨b, hb⟩ := hs.pending m hdoc p hp n hn
    exact ⟨b, hroot n b hb (.inr ⟨p, hp, hn⟩)⟩

end Gc

/-- Store instances on one map whose calls follow each other. `live` holds the versions that
every collection since their commit retained, with the manifest written then, and `begun` the
generation numbers taken so far. -/
structure World (ι : Type) where
  store : Backend
  memory : ι → Memory
  live : List (ℕ × Name × Body)
  begun : List ℕ

def World.fresh (ι : Type) : World ι := ⟨.empty, fun _ => .blank, [], []⟩

def commits (s s' : Backend) : List (ℕ × Name × Body) :=
  match s'.doc with
  | none => []
  | some m =>
    if s.doc.map Meta.version = some m.version then []
    else match s'.blobs.get m.manifest with
      | some (.manifest b) => [(m.version, m.manifest, b)]
      | _ => []

def retains (s : Backend) : Call → ℕ → Bool
  | .gc c, v => s.doc.all fun m => decide (v ∈ keepVersions m.version c)
  | _, _ => true

def taken (s : Backend) : List ℕ :=
  s.doc.elim [] fun m => m.generation :: (m.pending.map Pending.generation).toList

/-- The calls the map is not dropped by, collections keeping at least the current version. -/
def Allowed : Call → Prop
  | .gc c => 1 ≤ c.keep_last
  | .drop => False
  | _ => True

section Worlds
variable (codec : Codec) (cfg : Config) (indexed : Bool) {ι : Type} [DecidableEq ι]

def World.call (S : World ι) (i : ι) (c : Call) : World ι :=
  let r := (program codec cfg c (S.memory i)).run (perform indexed) S.store
  ⟨r.2, Function.update S.memory i r.1.2,
    S.live.filter (fun e => retains S.store c e.1) ++ commits S.store r.2, S.begun ++ taken r.2⟩

lemma store_save (S : World ι) (i : ι) (c : SaveCall) :
    (S.call codec cfg indexed i (.save c)).store = ((save codec cfg c (S.memory i)).run (perform indexed) S.store).2 := rfl

lemma store_gc (S : World ι) (i : ι) (c : GcCall) :
    (S.call codec cfg indexed i (.gc c)).store = ((gc c (S.memory i)).run (perform indexed) S.store).2 := rfl

inductive Reached : World ι → Prop
  | fresh : Reached (World.fresh ι)
  | call {S : World ι} (h : Reached S) (i : ι) (c : Call) (hc : Allowed c) :
      Reached (S.call codec cfg indexed i c)

variable {codec cfg indexed}

structure WorldOk (codec : Codec) (H : History) (S : World ι) : Prop where
  store : StoreOk codec H S.store
  memory : ∀ i, MemOk codec H (S.memory i)
  live : ∀ v n b, (v, n, b) ∈ S.live ↔
    ∃ g, n = .manifest g v ∧ S.store.blobs.get n = some (.manifest b)
  begun : ∀ g ∈ S.begun, ∃ m ∈ S.store.doc, g ≤ topGen m

omit [DecidableEq ι] in
lemma WorldOk.fresh (codec : Codec) (ι : Type) : WorldOk codec (fun _ => none) (World.fresh ι) where
  store := by
    refine ⟨AllOf.empty _, ?_, by simp, by simp, by simp, ?_, ?_, ?_, ?_⟩ <;>
      intros <;> simp_all [World.fresh, Backend.empty]
  memory := fun _ => MemOk.blank codec _
  live := by
    intro v n b
    simp [World.fresh, Backend.empty]
  begun := by simp [World.fresh]

lemma mem_commits {H H' : History} {s s' : Backend} {mem' : Memory}
    (h : Advance codec H s H' s' mem') {v : ℕ} {n : Name} {b : Body} :
    (v, n, b) ∈ commits s s' ↔ ∃ g, n = .manifest g v ∧ H n = none ∧ H' n = some b := by
  constructor
  · intro hm
    unfold commits at hm
    cases hdoc : s'.doc with
    | none => simp [hdoc] at hm
    | some m =>
      simp only [hdoc] at hm
      split_ifs at hm with hv
      · simp at hm
      · obtain ⟨g, v', hne⟩ : ∃ g v', H' (.manifest g v') ≠ H (.manifest g v') := by
          by_contra hall
          push Not at hall
          have := h.still hall
          rw [hdoc] at this
          exact hv this.symm
        have hnone : H (.manifest g v') = none := by
          by_contra hsome
          obtain ⟨c, hc⟩ := Option.ne_none_iff_exists'.mp hsome
          exact hne ((h.le _ c hc).trans hc.symm)
        have hsome : (H' (.manifest g v')).isSome := by
          rw [hnone] at hne
          exact Option.isSome_iff_ne_none.mpr hne
        obtain ⟨m', hm', rfl, hman, -⟩ := h.version g v' hnone hsome
        obtain rfl : m = m' := Option.some.inj (hdoc.symm.trans hm')
        cases hb : s'.blobs.get m.manifest with
        | none => simp [hb] at hm
        | some o =>
          cases o with
          | manifest c =>
            simp only [hb, mem_singleton, Prod.mk.injEq] at hm
            obtain ⟨rfl, rfl, rfl⟩ := hm
            refine ⟨g, hman, ?_, (h.ok.stored _ _ hb).hist⟩
            rw [hman]
            exact hnone
          | _ => simp [hb] at hm
  · rintro ⟨g, rfl, h1, h2⟩
    obtain ⟨m', hm', rfl, hman, hne⟩ := h.version g v h1 (by rw [h2]; rfl)
    have hb := (h.manifests _ b).mpr (.inr ⟨h1, h2⟩)
    unfold commits
    simp [hm', hne, hman, hb]

omit [DecidableEq ι] in
lemma taken_le {s : Backend} {H : History} (hs : StoreOk codec H s) {g : ℕ} (hg : g ∈ taken s) :
    ∃ m ∈ s.doc, g ≤ topGen m := by
  unfold taken at hg
  cases hdoc : s.doc with
  | none => simp [hdoc] at hg
  | some m =>
    refine ⟨m, rfl, ?_⟩
    cases hp : m.pending with
    | none =>
      simp only [hdoc, hp, Option.elim_some, Option.map_none, Option.toList_none, mem_singleton] at hg
      simp [topGen, hp, hg]
    | some p =>
      have := ((hs.doc m hdoc).pending p hp).1
      simp only [hdoc, hp, Option.elim_some, Option.map_some, Option.toList_some, mem_cons,
        not_mem_nil, or_false] at hg
      rcases hg with rfl | rfl
      · simpa [topGen, hp] using this.le
      · simp [topGen, hp]

lemma WorldOk.advance {H H' : History} {S : World ι} (hS : WorldOk codec H S) {i : ι} {s' : Backend}
    {mem' : Memory} (h : Advance codec H S.store H' s' mem') :
    WorldOk codec H' ⟨s', Function.update S.memory i mem', S.live ++ commits S.store s', S.begun ++ taken s'⟩ where
  store := h.ok
  memory := by
    intro j
    by_cases hj : j = i
    · subst hj
      simpa using h.mem
    · simpa [hj] using (hS.memory j).mono h.le
  live := by
    intro v n b
    rw [mem_append, hS.live, mem_commits h, h.manifests]
    constructor
    · rintro (⟨g, rfl, hb⟩ | ⟨g, rfl, hb⟩)
      · exact ⟨g, rfl, .inl hb⟩
      · exact ⟨g, rfl, .inr hb⟩
    · rintro ⟨g, rfl, hb | hb⟩
      · exact .inl ⟨g, rfl, hb⟩
      · exact .inr ⟨g, rfl, hb⟩
  begun := by
    intro g hg
    rcases mem_append.mp hg with hg | hg
    · obtain ⟨m, hm, hle⟩ := hS.begun g hg
      obtain ⟨m', hm', hle'⟩ := h.top m hm
      exact ⟨m', hm', le_trans hle hle'⟩
    · exact taken_le h.ok hg

lemma stored_name {H : History} {s : Backend} (hs : StoreOk codec H s) {m : Meta} (hdoc : s.doc = some m) {g v : ℕ} {b : Body}
    (hb : s.blobs.get (.manifest g v) = some (.manifest b)) : nameOf m v = .manifest g v := by
  have hh := (hs.stored _ _ hb).hist
  rw [nameOf, ((hs.doc m hdoc).committed g v (by rw [hh]; rfl)).2.1]

lemma WorldOk.collect {H : History} {S : World ι} (hS : WorldOk codec H S) (i : ι) {c : GcCall}
    (hk : 1 ≤ c.keep_last) : WorldOk codec H (S.call codec cfg indexed i (.gc c)) := by
  cases hdoc : S.store.doc with
  | none =>
    have hrun := @gc_blank indexed S.store hdoc c (S.memory i)
    have hcall : S.call codec cfg indexed i (.gc c) = ⟨S.store, S.memory, S.live, S.begun⟩ := by
      unfold World.call program
      dsimp only
      rw [hrun]
      simp [retains, hdoc, commits, taken]
    rw [hcall]
    exact hS
  | some m =>
    obtain ⟨dead, hrun, hdead⟩ := @gc_run codec indexed H S.store hS.store m hdoc c (S.memory i)
    have hok := gc_ok hS.store hdoc hk hdead
    unfold World.call program
    dsimp only
    rw [hrun]
    refine ⟨hok, fun j => ?_, fun v n b => ?_, fun g hg => ?_⟩
    · by_cases hj : j = i
      · subst hj
        simpa using (hS.memory j).expanded_filter _
      · simpa [hj] using hS.memory j
    · have hnew : commits S.store ⟨dead.foldl Dict.erase S.store.blobs, some m⟩ = [] := by
        simp [commits, hdoc]
      rw [hnew, append_nil, mem_filter, hS.live]
      simp only [retains, hdoc, Option.all_some, decide_eq_true_eq, get_deleted]
      constructor
      · rintro ⟨⟨g, rfl, hb⟩, hv⟩
        refine ⟨g, rfl, ?_⟩
        rw [if_neg, hb]
        rw [hdead, not_and, not_not]
        exact fun _ => (keeps_root hS.store.named hb).mpr
          (.inl ⟨v, hv, stored_name hS.store hdoc hb⟩)
      · rintro ⟨g, rfl, hb⟩
        split_ifs at hb with hd
        refine ⟨⟨g, rfl, hb⟩, ?_⟩
        rw [hdead, not_and, not_not] at hd
        rcases (keeps_root hS.store.named hb).mp (hd (Dict.mem_keys.mpr ⟨_, hb⟩)) with
          ⟨v', hv', hname⟩ | ⟨p, hp, hpn⟩
        · obtain ⟨-, rfl⟩ := Name.manifest.inj hname
          exact hv'
        · have := ((hS.store.doc m hdoc).pending p hp).2 _ hpn
          cases this
    · rcases mem_append.mp hg with hg | hg
      · obtain ⟨m', hm', hle⟩ := hS.begun g hg
        exact ⟨m', by rw [← hdoc]; exact hm', hle⟩
      · exact taken_le hok hg

omit [DecidableEq ι] in
lemma live_retained (S : World ι) {c : Call} (h : ∀ v, retains S.store c v = true) :
    S.live.filter (fun e => retains S.store c e.1) = S.live := by
  simp [h]

lemma WorldOk.save {H H' : History} {S : World ι} (hS : WorldOk codec H S) (i : ι) (c : SaveCall)
    (h : Advance codec H S.store H' ((save codec cfg c (S.memory i)).run (perform indexed) S.store).2
      ((save codec cfg c (S.memory i)).run (perform indexed) S.store).1.2) :
    WorldOk codec H' (S.call codec cfg indexed i (.save c)) := by
  unfold World.call
  rw [live_retained S fun _ => rfl]
  exact hS.advance h

lemma WorldOk.begin {H : History} {S : World ι} (hS : WorldOk codec H S) (i : ι) (c : BeginCall) :
    WorldOk codec H (S.call codec cfg indexed i (.begin c)) := by
  have h := begin_advance hS.store (hS.memory i) (@begin_run indexed c S.store)
  unfold World.call program
  rw [live_retained S fun _ => rfl]
  dsimp only
  rw [Prog.run_bind]
  exact hS.advance h

lemma WorldOk.commit {H H' : History} {S : World ι} (hS : WorldOk codec H S) (i : ι) (g : ℕ)
    (h : Advance codec H S.store H' ((commitGeneration g (S.memory i)).run (perform indexed) S.store).2
      ((commitGeneration g (S.memory i)).run (perform indexed) S.store).1.2) :
    WorldOk codec H' (S.call codec cfg indexed i (.commit g)) := by
  unfold World.call program
  rw [live_retained S fun _ => rfl]
  dsimp only
  rw [Prog.run_bind]
  exact hS.advance h

omit [DecidableEq ι] in
lemma WorldOk.save_run {H : History} {S : World ι} (hS : WorldOk codec H S) (i : ι) (c : SaveCall) :
    SaveRun codec cfg H S.store c ((StoreOps.save codec cfg c (S.memory i)).run (perform indexed) S.store) :=
  StoreHistory.save_run (hS.memory i) hS.store.named c fun _ _ ht _ hn => hS.store.base ht hn

lemma WorldOk.call (hx : Codec.Exact codec) {H : History} {S : World ι} (hS : WorldOk codec H S)
    (i : ι) {c : Call} (hc : Allowed c) : ∃ H', WorldOk codec H' (S.call codec cfg indexed i c) := by
  cases c with
  | save c =>
    obtain ⟨H', hadv⟩ := save_advance hx hS.store (hS.save_run i c)
    exact ⟨H', hS.save i c hadv⟩
  | begin c => exact ⟨H, hS.begin i c⟩
  | commit g =>
    obtain ⟨H', hadv⟩ := commit_advance hx hS.store (commit_run hS.store (hS.memory i) g)
    exact ⟨H', hS.commit i g hadv⟩
  | gc c => exact ⟨H, hS.collect i hc⟩
  | drop => exact hc.elim

lemma Reached.ok (hx : Codec.Exact codec) {S : World ι} (h : Reached codec cfg indexed S) :
    ∃ H, WorldOk codec H S := by
  induction h with
  | fresh => exact ⟨_, WorldOk.fresh codec ι⟩
  | call h i c hc ih =>
    obtain ⟨H, hS⟩ := ih
    exact hS.call hx i hc

/-- What a collection retains, by the manifests as they were committed: the versions among
the last `keep_last` and the leased ones, and the pending manifest, with all they reference. -/
def Retained (S : World ι) (c : GcCall) (n : Name) : Prop :=
  ∃ m, S.store.doc = some m ∧
    ((∃ e ∈ S.live, e.1 ∈ keepVersions m.version c ∧ (n = e.2.1 ∨ Refers S.store e.2.2 n)) ∨
      ∃ p ∈ m.pending, ∃ r ∈ p.manifest, ∃ b, S.store.blobs.get r = some (.manifest b) ∧
        (n = r ∨ Refers S.store b n))

omit [DecidableEq ι] in
lemma WorldOk.retained {H : History} {S : World ι} (hS : WorldOk codec H S) {m : Meta}
    (hdoc : S.store.doc = some m) (c : GcCall) (n : Name) :
    Retained S c n ↔ Keeps S.store m c n := by
  constructor
  · rintro ⟨m', hm', h⟩
    obtain rfl : m = m' := Option.some.inj (hdoc.symm.trans hm')
    rcases h with ⟨⟨v, r, b⟩, he, hv, hn⟩ | ⟨p, hp, r, hr, h⟩
    · obtain ⟨g, rfl, hb⟩ := (hS.live v r b).mp he
      refine .inl ⟨v, hv, b, ?_, ?_⟩
      · rw [stored_name hS.store hdoc hb]
        exact hb
      · rw [stored_name hS.store hdoc hb]
        exact hn
    · exact .inr ⟨p, hp, r, hr, h⟩
  · rintro (⟨v, hv, b, hb, hn⟩ | ⟨p, hp, r, hr, h⟩)
    · exact ⟨m, hdoc, .inl ⟨(v, nameOf m v, b), (hS.live _ _ _).mpr ⟨_, rfl, hb⟩, hv, hn⟩⟩
    · exact ⟨m, hdoc, .inr ⟨p, hp, r, hr, h⟩⟩

omit [DecidableEq ι] in
lemma WorldOk.wanted {H : History} {S : World ι} (hS : WorldOk codec H S) {m : Meta}
    (hdoc : S.store.doc = some m) {v : ℕ} {n : Name} {b : Body} (he : (v, n, b) ∈ S.live) :
    wantedName m (some v) false = some n ∧ S.store.blobs.get n = some (.manifest b) := by
  obtain ⟨g, rfl, hb⟩ := (hS.live v n b).mp he
  refine ⟨?_, hb⟩
  have hn := stored_name hS.store hdoc hb
  by_cases hv : v = m.version
  · rw [hv, (hS.store.doc m hdoc).nameOf_current] at hn
    simp [wantedName, hv, hn]
  · simp [wantedName, hv, hn]

lemma manifest_run {H : History} {s : Backend} (hs : StoreOk codec H s) {mem : Memory}
    (hM : MemOk codec H mem) {m : Meta} (hdoc : s.doc = some m) {version : Option ℕ} {pend : Bool}
    {n : Name} (hn : wantedName m version pend = some n) {b : Body}
    (hb : s.blobs.get n = some (.manifest b)) :
    ∃ man ps mem', (manifest version pend mem).run (perform indexed) s = ((.ok man, mem'), s) ∧
      man.body = b ∧ Expands codec man ps ∧ MemOk codec H mem' := by
  obtain ⟨man, ps, mem', hrun, hbody, hps, hM'⟩ :=
    @manifestByName_run codec indexed H mem s hM hs.named n b (hs.stored n b hb)
  refine ⟨man, ps, mem', ?_, hbody, hps, hM'⟩
  unfold manifest
  rw [run_readMeta, hdoc]
  dsimp only
  rw [hn, Prog.run_bind, hrun]
  rfl

/-- Retention over any sequence of calls. A collection deletes the objects not reachable from
what it retains and nothing else; every version that each collection since its commit retained
is resolved to the manifest written then, with all its objects, and the current version is one
of them; a generation that is begun takes a number above all that were ever taken. -/
theorem retention_exact (hx : Codec.Exact codec) {S : World ι} (h : Reached codec cfg indexed S) :
    (∀ i c, 1 ≤ c.keep_last → ∀ n o,
      (S.call codec cfg indexed i (.gc c)).store.blobs.get n = some o ↔
        S.store.blobs.get n = some o ∧ Retained S c n) ∧
    (∀ e ∈ S.live, ∀ i, ∃ man mem',
      (manifest (some e.1) false (S.memory i)).run (perform indexed) S.store =
        ((.ok man, mem'), S.store) ∧
      man.body = e.2.2 ∧ Complete S.store.blobs e.2.2) ∧
    (∀ m, S.store.doc = some m → ∃ b, (m.version, m.manifest, b) ∈ S.live) ∧
    ∀ c g, ((beginGeneration c).run (perform indexed) S.store).1 = .ok g →
      (∀ m ∈ S.store.doc, ∀ p ∈ m.pending, p.generation ≠ g) → ∀ g' ∈ S.begun, g' < g := by
  obtain ⟨H, hS⟩ := h.ok hx
  refine ⟨fun i c hk n o => ?_, fun e he i => ?_, fun m hdoc => ?_, fun c g hrun hnew g' hg' => ?_⟩
  · cases hdoc : S.store.doc with
    | none =>
      rw [store_gc, @gc_blank indexed S.store hdoc c (S.memory i), hS.store.void hdoc n]
      simp
    | some m =>
      obtain ⟨dead, hrun, hdead⟩ := @gc_run codec indexed H S.store hS.store m hdoc c (S.memory i)
      rw [store_gc, hrun, hS.retained hdoc]
      dsimp only
      rw [get_deleted]
      split_ifs with hd
      · simp [((hdead n).mp hd).2]
      · rw [hdead, not_and, not_not] at hd
        exact ⟨fun ho => ⟨ho, hd (Dict.mem_keys.mpr ⟨o, ho⟩)⟩, fun h => h.1⟩
  · obtain ⟨v, n, b⟩ := e
    cases hdoc : S.store.doc with
    | none =>
      obtain ⟨g, rfl, hb⟩ := (hS.live v n b).mp he
      rw [hS.store.void hdoc] at hb
      cases hb
    | some m =>
      obtain ⟨hname, hb⟩ := hS.wanted hdoc he
      obtain ⟨man, ps, mem', hrun, hbody, -⟩ :=
        @manifest_run codec indexed H S.store hS.store (S.memory i) (hS.memory i) m hdoc _ _ _ hname b hb
      exact ⟨man, mem', hrun, hbody, (hS.store.stored _ _ hb).complete⟩
  · obtain ⟨b, hb⟩ := hS.store.current m hdoc
    exact ⟨b, (hS.live _ _ _).mpr ⟨m.generation, (hS.store.doc m hdoc).manifest, hb⟩⟩
  · obtain ⟨m, hm, hle⟩ := hS.begun g' hg'
    refine lt_of_le_of_lt hle ?_
    have hr := @begin_run indexed c S.store
    generalize (beginGeneration c).run (perform indexed) S.store = r at hr hrun
    cases hr with
    | none hdoc => cases hrun
    | @resume m' hdoc p hp => exact absurd (Except.ok.inj hrun) (hnew m' hdoc p hp)
    | @adopt m' hdoc p hp => exact absurd (Except.ok.inj hrun) (hnew m' hdoc p hp)
    | @start m' hdoc q hq hman =>
      obtain rfl : m = m' := Option.some.inj (hm.symm.trans hdoc)
      rw [← Except.ok.inj hrun, hq]
      exact topGen_lt m

end Worlds

section Lost

lemma draftSave_plain {codec : Codec} {cfg : Config} {mem : Memory} {md : Option Meta} {gen : ℕ}
    {pend : Option Pending} {prev : Option Manifest} {c : SaveCall} {st : EngineState}
    (hst : c.state = some st) (hcharts : ∀ k ∈ st.keys.map fmt, (chartOf c.charts k).isSome)
    (hlinks : c.links = [])
    (hpend : (pend.any fun p => p.params_hash.any fun h => h ≠ codec.params st.params) = false)
    {e : SaveError} : draftSave codec cfg mem md gen pend prev c false ≠ .error e := by
  have htiles : ∀ t, saveTiles codec cfg st (idsOf prev st) gen pend prev c.dirty false ≠ .error t := by
    intro t
    unfold saveTiles
    cases prev with
    | none => simp
    | some m =>
      dsimp only
      split_ifs <;> simp_all
  have hdocs : ∃ docs, chartDocs (idsOf prev st) c.charts = some docs := by
    have hall : ∀ ks : List Key, (∀ k ∈ ks, (chartOf c.charts k).isSome) →
        ∃ docs, ks.mapM (fun k => (chartOf c.charts k).map (chartDoc (idsOf prev st) k)) = some docs := by
      intro ks
      induction ks with
      | nil => exact fun _ => ⟨[], rfl⟩
      | cons k ks ih =>
        intro hks
        obtain ⟨docs, hdocs⟩ := ih fun j hj => hks j (mem_cons_of_mem _ hj)
        obtain ⟨d, hd⟩ := Option.isSome_iff_exists.mp (hks k mem_cons_self)
        exact ⟨chartDoc (idsOf prev st) k d :: docs, by simp [mapM_cons, hd, hdocs]⟩
    exact hall _ hcharts
  obtain ⟨docs, hdocs⟩ := hdocs
  unfold draftSave
  rw [hst]
  dsimp only
  rw [hpend, if_neg Bool.false_ne_true]
  cases ht : saveTiles codec cfg st (idsOf prev st) gen pend prev c.dirty false with
  | error t => exact absurd ht (htiles t)
  | ok t =>
    dsimp only
    rw [hdocs]
    simp [hlinks]

lemma charted_save {codec : Codec} {cfg : Config} {indexed : Bool} {H : History} {s : Backend}
    {mem : Memory} (hx : Codec.Exact codec) (hs : StoreOk codec H s) (hM : MemOk codec H mem)
    (hcfg : cfg.verify_every = 0) {c : SaveCall} {st : EngineState} (hst : c.state = some st)
    (hcharts : ∀ k ∈ st.keys.map fmt, (chartOf c.charts k).isSome) (hlinks : c.links = [])
    (hfull : c.full = false)
    (hexp : c.expected_version.filter (· ≠ 0) = s.doc.map Meta.version) (hgen : c.generation = none)
    (hwater : ∀ m ∈ s.doc, ∀ b, s.blobs.get m.manifest = some (.manifest b) → b.watermark ≠ st.watermark) :
    ∃ m b, ((save codec cfg c mem).run (perform indexed) s).1.1 = .ok m.version ∧
      ((save codec cfg c mem).run (perform indexed) s).2.doc = some m ∧
      m.version = s.doc.elim 0 Meta.version + 1 ∧
      ((save codec cfg c mem).run (perform indexed) s).2.blobs.get m.manifest =
        some (.manifest b) ∧ b.watermark = st.watermark ∧
      b.retired = c.dirty.elim .empty Dirty.retired := by
  have htarget : saveTarget s.doc c = .ok (s.doc.elim 1 Meta.generation, none) := by
    unfold saveTarget
    dsimp only
    rw [if_neg (not_not.mpr hexp), hgen]
  have hdue : ∀ mem, checkDue cfg mem c = false := by
    intro mem
    simp [checkDue, hfull, hcfg]
  have hr := @save_run codec cfg indexed H mem s hM hs.named c
    fun gen pend ht n hn => hs.base ht hn
  generalize (save codec cfg c mem).run (perform indexed) s = r at hr
  cases hr with
  | error e he mem' hM' =>
    rcases he with he | ⟨mem1, gen, pend, prev, ht, hd⟩
    · rw [htarget] at he
      cases he
    · rw [htarget] at ht
      cases ht
      rw [hdue] at hd
      exact absurd hd (draftSave_plain hst hcharts hlinks rfl)
  | @same gen pend prev full d hb o r ho mem' hM' =>
    exfalso
    have ht := hb.target
    rw [htarget] at ht
    cases ht
    obtain rfl : st = d.st := Option.some.inj (hst.symm.trans hb.draft.state)
    cases hdoc : s.doc with
    | none =>
      have hprev := hb.fresh (by rw [hdoc]; rfl)
      subst hprev
      simp [planSave, hdoc] at ho
    | some m =>
      obtain ⟨man, ps, rfl, hstored, -, -⟩ := hb.base m.manifest (by rw [hdoc]; rfl)
      have hne : man.body.content_hash ≠ codec.content (d.content codec m.generation) := by
        rw [hs.hashed _ _ hstored.hist]
        intro he
        have := congrArg Content.watermark (hx.content he)
        exact hwater m hdoc _ hstored.blob this
      simp [planSave, hdoc, hne] at ho
  | @write gen pend prev full d hb w hw index mem' hM' =>
    have ht := hb.target
    rw [htarget] at ht
    cases ht
    obtain rfl : st = d.st := Option.some.inj (hst.symm.trans hb.draft.state)
    rcases planSave_numbers hw with ⟨m, p, -, hp, -⟩ | ⟨-, rfl⟩
    · cases hp
    · refine ⟨_, d.body codec (s.doc.elim 1 Meta.generation)
        (some (s.doc.elim 0 Meta.version + 1)) c, rfl, rfl, rfl, ?_, rfl, rfl⟩
      exact (Dict.get_set _ _ _ _).trans (if_pos rfl)

lemma plain_save {codec : Codec} {cfg : Config} {indexed : Bool} {H : History} {s : Backend}
    {mem : Memory} (hx : Codec.Exact codec) (hs : StoreOk codec H s) (hM : MemOk codec H mem)
    (hcfg : cfg.verify_every = 0) {c : SaveCall} {st : EngineState} (hst : c.state = some st)
    (hkeys : st.keys = []) (hlinks : c.links = []) (hfull : c.full = false)
    (hexp : c.expected_version.filter (· ≠ 0) = s.doc.map Meta.version) (hgen : c.generation = none)
    (hwater : ∀ m ∈ s.doc, ∀ b, s.blobs.get m.manifest = some (.manifest b) → b.watermark ≠ st.watermark) :
    ∃ m b, ((save codec cfg c mem).run (perform indexed) s).1.1 = .ok m.version ∧
      ((save codec cfg c mem).run (perform indexed) s).2.doc = some m ∧
      m.version = s.doc.elim 0 Meta.version + 1 ∧
      ((save codec cfg c mem).run (perform indexed) s).2.blobs.get m.manifest =
        some (.manifest b) ∧ b.watermark = st.watermark ∧
      b.retired = c.dirty.elim .empty Dirty.retired :=
  charted_save hx hs hM hcfg hst (by simp [hkeys]) hlinks hfull hexp hgen hwater

def emptyState (t : ℤ) : EngineState where
  params := ⟨1 / 5, 1 / 10, 2, none, none, none, none, none_needs, none_pos, none_both, none_place⟩
  canvas := ⟨0, 0, 2, 2⟩
  V := fun _ _ => UNKNOWN
  T := fun _ _ => -1
  B := fun _ _ => -1
  chan := .empty
  Fn := none
  Bn := none
  Hold := none
  Val := none
  leaves := [⟨"a", none, t, 0, 0, 1 / 5, none⟩]
  keys := []
  plane := none
  version := 1
  watermark := toLex (t, "a")

def emptySave (t : ℤ) (expected : Option ℕ) : SaveCall :=
  ⟨some (emptyState t), [], [], none, expected, none, none, false, t, "e"⟩

def lazyConfig : Config := ⟨0, false⟩

noncomputable def firstWorld : World Bool :=
  (World.fresh Bool).call exactCodec lazyConfig false false (.save (emptySave 1 none))

noncomputable def secondWorld : World Bool :=
  firstWorld.call exactCodec lazyConfig false false (.save (emptySave 2 (some 1)))

noncomputable def lostWorld : World Bool :=
  secondWorld.call exactCodec lazyConfig false false (.gc ⟨1, []⟩)

lemma firstWorld_reached : Reached exactCodec lazyConfig false firstWorld :=
  .call .fresh false (.save (emptySave 1 none)) trivial

lemma secondWorld_reached : Reached exactCodec lazyConfig false secondWorld :=
  .call firstWorld_reached false (.save (emptySave 2 (some 1))) trivial

lemma lostWorld_reached : Reached exactCodec lazyConfig false lostWorld :=
  .call secondWorld_reached false (.gc ⟨1, []⟩) (le_refl (1 : ℤ))

lemma firstWorld_doc : ∃ m b, firstWorld.store.doc = some m ∧ m.version = 1 ∧
    firstWorld.store.blobs.get m.manifest = some (.manifest b) ∧ b.watermark = toLex (1, "a") := by
  obtain ⟨m, b, -, hdoc, hv, hb, hw, -⟩ := @plain_save exactCodec lazyConfig false (fun _ => none)
    (World.fresh Bool).store ((World.fresh Bool).memory false) exactCodec_exact
    (WorldOk.fresh exactCodec Bool).store (MemOk.blank exactCodec _) rfl (emptySave 1 none)
    (emptyState 1) rfl rfl rfl rfl rfl rfl (by simp [World.fresh, Backend.empty])
  unfold firstWorld
  rw [store_save]
  exact ⟨m, b, hdoc, hv, hb, hw⟩

lemma secondWorld_doc : ∃ m, secondWorld.store.doc = some m ∧ m.version = 2 := by
  obtain ⟨H, hS⟩ := firstWorld_reached.ok exactCodec_exact
  obtain ⟨m, b, hdoc, hv, hb, hw⟩ := firstWorld_doc
  have hsave := @plain_save exactCodec lazyConfig false H firstWorld.store (firstWorld.memory false)
    exactCodec_exact hS.store (hS.memory false) rfl (emptySave 2 (some 1)) (emptyState 2) rfl rfl rfl
    rfl (by rw [hdoc, Option.map_some, hv]; rfl) rfl (by
      intro m' hm' b' hb'
      obtain rfl : m = m' := Option.some.inj (hdoc.symm.trans hm')
      rw [hb] at hb'
      cases hb'
      rw [hw]
      simp [emptyState])
  obtain ⟨m', b', -, hdoc', hv', -⟩ := hsave
  rw [hdoc, Option.elim_some, hv] at hv'
  unfold secondWorld
  rw [store_save]
  exact ⟨m', hdoc', hv'⟩

/-- The second version of the example is retained and readable. -/
theorem retention_exact_second : Reached exactCodec lazyConfig false secondWorld ∧
    ∃ m b, secondWorld.store.doc = some m ∧ m.version = 2 ∧
      (2, m.manifest, b) ∈ secondWorld.live := by
  obtain ⟨m, hdoc, hv⟩ := secondWorld_doc
  obtain ⟨b, hb⟩ := (retention_exact exactCodec_exact secondWorld_reached).2.2.1 m hdoc
  rw [hv] at hb
  exact ⟨secondWorld_reached, m, b, hdoc, hv, hb⟩

lemma lostWorld_gone : ∃ m, lostWorld.store.doc = some m ∧ m.version = 2 ∧
    lostWorld.store.blobs.get (nameOf m 1) = none := by
  obtain ⟨H, hS⟩ := secondWorld_reached.ok exactCodec_exact
  obtain ⟨m, hdoc, hv⟩ := secondWorld_doc
  obtain ⟨dead, hrun, hdead⟩ := @gc_run exactCodec false H secondWorld.store hS.store m hdoc
    ⟨1, []⟩ (secondWorld.memory false)
  have hstore : lostWorld.store = ⟨dead.foldl Dict.erase secondWorld.store.blobs, some m⟩ := by
    unfold lostWorld
    rw [store_gc, hrun]
  refine ⟨m, by rw [hstore], hv, ?_⟩
  rw [hstore]
  dsimp only
  rw [get_deleted]
  split_ifs with hd
  · rfl
  · by_contra hne
    obtain ⟨o, ho⟩ := Option.ne_none_iff_exists'.mp hne
    rw [hdead, not_and, not_not] at hd
    have hkeep := hd (Dict.mem_keys.mpr ⟨o, ho⟩)
    have hn := hS.store.named _ _ ho
    cases o with
    | manifest b =>
      rcases (keeps_root hS.store.named ho).mp hkeep with ⟨v, hvk, hname⟩ | ⟨p, hp, hpn⟩
      · obtain ⟨-, rfl⟩ := Name.manifest.inj hname
        have := (mem_keepVersions.mp hvk).2
        simp [hv] at this
      · cases ((hS.store.doc m hdoc).pending p hp).2 _ hpn
    | _ => exact hn

lemma manifest_missing {indexed : Bool} {s : Backend} {m : Meta} (hdoc : s.doc = some m)
    {version : Option ℕ} {n : Name} (hn : wantedName m version false = some n)
    (hb : s.blobs.get n = none) :
    (manifest version false Memory.blank).run (perform indexed) s = ((.error (.notFound n), Memory.blank), s) := by
  have hraw : (rawManifest n).run (perform indexed) s = (.error (.notFound n), s) := by
    unfold rawManifest
    rw [run_get, hb]
    rfl
  have hexpand : (expand n).run (perform indexed) s = (.error (.notFound n), s) := by
    unfold expand
    rw [Prog.run_bind, hraw]
    rfl
  unfold manifest
  rw [run_readMeta, hdoc]
  dsimp only
  rw [hn, Prog.run_bind]
  unfold manifestByName
  rw [run_readMeta]
  dsimp only [Memory.blank]
  rw [Dict.get_empty]
  dsimp only
  rw [Prog.run_bind, hexpand]
  rfl

/-- A version among the last two that a collection before the last one did not retain is not
found any more. -/
theorem retained_version_lost : ¬∀ S : World Bool, Reached exactCodec lazyConfig false S →
    ∀ i c m, 1 ≤ c.keep_last → S.store.doc = some m → ∀ v ∈ keepVersions m.version c, ∀ j,
      ∃ man mem', (manifest (some v) false
          ((S.call exactCodec lazyConfig false i (.gc c)).memory j)).run (perform false)
            (S.call exactCodec lazyConfig false i (.gc c)).store =
        ((.ok man, mem'), (S.call exactCodec lazyConfig false i (.gc c)).store) := by
  intro hall
  obtain ⟨H, hS⟩ := lostWorld_reached.ok exactCodec_exact
  obtain ⟨m, hdoc, hv, hgone⟩ := lostWorld_gone
  have hmem : 1 ∈ keepVersions m.version ⟨2, []⟩ := by
    rw [mem_keepVersions, hv]
    simp
  obtain ⟨man, mem', hman⟩ := hall lostWorld lostWorld_reached false ⟨2, []⟩ m (by norm_num) hdoc 1
    hmem true
  obtain ⟨dead, hrun, hdead⟩ := @gc_run exactCodec false H lostWorld.store hS.store m hdoc
    ⟨2, []⟩ (lostWorld.memory false)
  have hblank : (lostWorld.call exactCodec lazyConfig false false (.gc ⟨2, []⟩)).memory true =
      Memory.blank := rfl
  have hname : wantedName m (some 1) false = some (nameOf m 1) := by
    simp [wantedName, hv]
  have hnone : (dead.foldl Dict.erase lostWorld.store.blobs).get (nameOf m 1) = none := by
    rw [get_deleted, hgone, ite_self]
  rw [store_gc, hrun, hblank, manifest_missing rfl hname hnone] at hman
  cases hman

end Lost
end CloudServer.StoreRetain
