import CloudServer.StoreHistory

/-! The invariant of a store whose calls follow each other: every stored manifest is complete
and as written, and the numbers of the meta document are new or found again. -/
namespace CloudServer.StoreSequence
open SceneFold SceneApi StoreTiles StoreSave StoreOps StoreObjects StoreExpand StoreRun StoreHistory
open Interact List Option Function Dict

/-- Version and generation numbers of a meta document, against the manifests written: a
version is found again under the generation that committed it, and the numbers of the next
version, pending version and generation are new. -/
structure MetaOk (H : History) (m : Meta) : Prop where
  manifest : m.manifest = .manifest m.generation m.version
  start : ∃ v, m.generations.get m.generation = some v ∧ v ≤ m.version
  upper : ∀ g v, m.generations.get g = some v → g ≤ m.generation
  committed : ∀ g v, (H (.manifest g v)).isSome → (1 ≤ v ∧ v ≤ m.version) ∧
    generationOf m v = g ∧ ∃ e ∈ m.generations.items, e.2 ≤ v
  pending : ∀ p ∈ m.pending, m.generation < p.generation ∧
    ∀ n ∈ p.manifest, n = .pending p.generation p.version
  pended : ∀ g v, (H (.pending g v)).isSome → g ≤ m.pending.elim m.generation Pending.generation ∧
    ∀ p ∈ m.pending, g = p.generation → v ≤ p.version

def manifestGen : Name → Option ℕ
  | .manifest g _ => some g
  | .pending g _ => some g
  | _ => none

structure StoreOk (codec : Codec) (H : History) (s : Backend) : Prop where
  named : AllNamed codec s.blobs
  stored : ∀ n b, s.blobs.get n = some (.manifest b) → Stored H s n b
  gens : ∀ n b, H n = some b → manifestGen n = some b.generation
  hashed : ∀ n b, H n = some b → b.content_hash = codec.content b.toContent
  blank : s.doc = none → ∀ n, H n = none
  void : s.doc = none → ∀ n, s.blobs.get n = none
  doc : ∀ m ∈ s.doc, MetaOk H m
  current : ∀ m ∈ s.doc, ∃ b, s.blobs.get m.manifest = some (.manifest b)
  pending : ∀ m ∈ s.doc, ∀ p ∈ m.pending, ∀ n ∈ p.manifest,
    ∃ b, s.blobs.get n = some (.manifest b)

variable {m' : Meta} {p : Pending}

section Numbers
variable {H : History} {m : Meta}
variable {xs : List ℕ}

lemma foldr_max_le {k : ℕ} (h : ∀ x ∈ xs, x ≤ k) : xs.foldr max 0 ≤ k := by
  induction xs with
  | nil => exact Nat.zero_le k
  | cons x xs ih =>
    exact max_le (h x (by simp)) (ih fun y hy => h y (mem_cons_of_mem _ hy))

lemma le_foldr_max {x : ℕ} (h : x ∈ xs) : x ≤ xs.foldr max 0 := by
  induction xs with
  | nil => simp at h
  | cons y xs ih =>
    rcases mem_cons.mp h with rfl | h
    · exact le_max_left _ _
    · exact le_trans (ih h) (le_max_right _ _)

lemma MetaOk.generationOf_current (hm : MetaOk H m) {v : ℕ} (hv : m.version ≤ v) :
    generationOf m v = m.generation := by
  obtain ⟨v0, hget, hv0⟩ := hm.start
  have hmem : m.generation ∈ (m.generations.items.filter fun e => e.2 ≤ v).map Prod.fst := by
    refine mem_map.mpr ⟨(m.generation, v0), mem_filter.mpr ⟨mem_items.mpr hget, ?_⟩, rfl⟩
    simpa using le_trans hv0 hv
  unfold generationOf
  dsimp only
  rw [if_neg (ne_nil_of_mem hmem)]
  refine le_antisymm (foldr_max_le fun g hg => ?_) (le_foldr_max hmem)
  obtain ⟨e, he, rfl⟩ := mem_map.mp hg
  exact hm.upper e.1 e.2 (mem_items.mp (mem_of_mem_filter he))

lemma MetaOk.nameOf_current (hm : MetaOk H m) : nameOf m m.version = m.manifest := by
  rw [nameOf, hm.generationOf_current le_rfl, hm.manifest]

lemma generationOf_set {g newv v : ℕ} (hg : m'.generations = m.generations.set g newv)
    (hnew : m.generations.get g = none) (hv : v < newv)
    (he : ∃ e ∈ m.generations.items, e.2 ≤ v) : generationOf m' v = generationOf m v := by
  have hmem : ∀ e, e ∈ m'.generations.items.filter (fun e => e.2 ≤ v) ↔
      e ∈ m.generations.items.filter (fun e => e.2 ≤ v) := by
    rintro ⟨a, b⟩
    simp only [mem_filter, hg, mem_items, get_set, decide_eq_true_eq]
    by_cases ha : a = g
    · subst ha
      simp only [if_true, hnew, Option.some.injEq, reduceCtorEq, false_and, iff_false, not_and]
      omega
    · simp [ha]
  obtain ⟨e, he, hev⟩ := he
  have hne : e.1 ∈ (m.generations.items.filter fun e => e.2 ≤ v).map Prod.fst :=
    mem_map_of_mem (mem_filter.mpr ⟨he, by simpa using hev⟩)
  have hne' : e.1 ∈ (m'.generations.items.filter fun e => e.2 ≤ v).map Prod.fst :=
    mem_map_of_mem ((hmem e).mpr (mem_filter.mpr ⟨he, by simpa using hev⟩))
  unfold generationOf
  dsimp only
  rw [if_neg (ne_nil_of_mem hne), if_neg (ne_nil_of_mem hne')]
  refine le_antisymm (foldr_max_le fun x hx => le_foldr_max ?_)
    (foldr_max_le fun x hx => le_foldr_max ?_)
  · obtain ⟨f, hf, rfl⟩ := mem_map.mp hx
    exact mem_map_of_mem ((hmem f).mp hf)
  · obtain ⟨f, hf, rfl⟩ := mem_map.mp hx
    exact mem_map_of_mem ((hmem f).mpr hf)

lemma lt_nextGeneration (m : Meta) :
    m.generation < nextGeneration m ∧ ∀ p ∈ m.pending, p.generation < nextGeneration m := by
  unfold nextGeneration
  constructor
  · exact Nat.lt_succ_of_le (le_foldr_max (by simp))
  · intro p hp
    rw [mem_def] at hp
    exact Nat.lt_succ_of_le (le_foldr_max (by simp [hp]))

end Numbers

section Store
variable {codec : Codec} {H : History} {s : Backend}
variable {d d' : Dict Name Obj}

lemma complete_mono (hx : Codec.Exact codec) (hd : AllNamed codec d)
    (hd' : AllNamed codec d') (hle : ∀ n, (d.get n).isSome → (d'.get n).isSome) {b : Body}
    (hc : Complete d b) : Complete d' b := by
  refine ⟨fun h hh => ?_, fun h hh => hle _ (hc.segments h hh)⟩
  obtain ⟨p, hp, htiles⟩ := hc.pages h hh
  obtain ⟨o, ho⟩ := isSome_iff_exists.mp (hle _ (by rw [hp]; rfl))
  obtain ⟨q, rfl, hq⟩ := named_page (hd' _ _ ho)
  have hpq : codec.page p = h := hd _ _ hp
  obtain rfl := hx.page (hpq.trans hq.symm)
  exact ⟨p, ho, fun e he => hle _ (htiles e he)⟩

lemma StoreOk.redoc (hs : StoreOk codec H s) {m : Meta} (hdoc : s.doc = some m)
    (hm' : MetaOk H m') (hcur : m'.manifest = m.manifest)
    (hp : ∀ p ∈ m'.pending, ∀ n ∈ p.manifest, ∃ b, s.blobs.get n = some (.manifest b)) :
    StoreOk codec H { s with doc := some m' } where
  named := hs.named
  stored := fun n b h => ⟨h, (hs.stored n b h).hist, (hs.stored n b h).complete⟩
  gens := hs.gens
  hashed := hs.hashed
  blank := by simp
  void := by simp
  doc := by
    intro k hk
    cases hk
    exact hm'
  current := by
    intro k hk
    cases hk
    rw [hcur]
    exact hs.current m hdoc
  pending := by
    intro k hk
    cases hk
    exact hp

lemma get_written (puts : List (Name × Obj))
    (hputs : ∀ e ∈ puts, Packed codec e.1 e.2) (hd : AllNamed codec d) {n m : Name} {b c : Body}
    (hne : m ≠ n) (hm : d.get m = some (.manifest c)) :
    ((d.update puts).set n (.manifest b)).get m = some (.manifest c) := by
  rw [get_set, if_neg hne]
  rcases get_update d puts m with ⟨-, hg⟩ | ⟨o, ho, -⟩
  · rw [hg, hm]
  · exact absurd (hd _ _ hm) ((hputs _ ho).ne_manifest c)

lemma isSome_written {puts : List (Name × Obj)} {n m : Name} {o : Obj}
    (h : (d.get m).isSome ∨ m ∈ puts.map Prod.fst) : (((d.update puts).set n o).get m).isSome := by
  refine isSome_set ?_
  rw [isSome_iff_exists, ← Dict.mem_keys, Dict.mem_keys_update, Dict.mem_keys,
    ← isSome_iff_exists]
  exact h

lemma StoreOk.write (hx : Codec.Exact codec) (hs : StoreOk codec H s) (puts : List (Name × Obj))
    (hputs : ∀ e ∈ puts, Packed codec e.1 e.2) {n : Name} {b : Body} (hn : H n = none)
    (hgen : manifestGen n = some b.generation) (hhash : b.content_hash = codec.content b.toContent)
    (hc : Complete ((s.blobs.update puts).set n (.manifest b)) b)
    (hm' : MetaOk (update H n (some b)) m')
    (hcur : m'.manifest = n ∨ ∃ c, s.blobs.get m'.manifest = some (.manifest c))
    (hp : ∀ p ∈ m'.pending, ∀ k ∈ p.manifest, k = n ∨ ∃ c, s.blobs.get k = some (.manifest c)) :
    StoreOk codec (update H n (some b)) ⟨(s.blobs.update puts).set n (.manifest b), some m'⟩ := by
  have hnamed : AllNamed codec ((s.blobs.update puts).set n (.manifest b)) := by
    refine (hs.named.update fun e he => (hputs e he).named).set ?_
    cases n <;> simp_all [manifestGen, Named]
  have hkeep : ∀ k c, s.blobs.get k = some (.manifest c) →
      ((s.blobs.update puts).set n (.manifest b)).get k = some (.manifest c) := by
    intro k c hk
    refine get_written puts hputs hs.named ?_ hk
    rintro rfl
    rw [(hs.stored _ c hk).hist] at hn
    cases hn
  have hroot : ∀ k, (k = n ∨ ∃ c, s.blobs.get k = some (.manifest c)) →
      ∃ c, ((s.blobs.update puts).set n (.manifest b)).get k = some (.manifest c) := by
    rintro k (rfl | ⟨c, hc⟩)
    · exact ⟨b, by rw [get_set, if_pos rfl]⟩
    · exact ⟨c, hkeep k c hc⟩
  have hold : ∀ k c, update H n (some b) k = some c → H k = some c ∨ (k = n ∧ b = c) := by
    intro k c hk
    by_cases hkn : k = n
    · subst hkn
      exact .inr ⟨rfl, by simpa using hk⟩
    · rw [update_of_ne hkn] at hk
      exact .inl hk
  refine ⟨hnamed, fun k c hk => ?_, fun k c hk => ?_, fun k c hk => ?_, by simp, by simp, ?_, ?_, ?_⟩
  · by_cases hkn : k = n
    · subst hkn
      obtain rfl : b = c := by simpa using hk
      exact ⟨hk, by simp, hc⟩
    · have hold : s.blobs.get k = some (.manifest c) := by
        change ((s.blobs.update puts).set n (.manifest b)).get k = _ at hk
        rw [get_set, if_neg hkn] at hk
        rcases get_update s.blobs puts k with ⟨-, hg⟩ | ⟨o, ho, hg⟩
        · rwa [hg] at hk
        · rw [hg] at hk
          cases hk
          exact absurd (hputs _ ho).named ((hputs _ ho).ne_manifest c)
      have hst := hs.stored k c hold
      refine ⟨hk, by rw [update_of_ne hkn]; exact hst.hist, ?_⟩
      exact complete_mono hx hs.named hnamed (fun j hj => isSome_written (.inl hj)) hst.complete
  · rcases hold k c hk with h | ⟨rfl, rfl⟩
    · exact hs.gens k c h
    · exact hgen
  · rcases hold k c hk with h | ⟨rfl, rfl⟩
    · exact hs.hashed k c h
    · exact hhash
  · intro k hk
    cases hk
    exact hm'
  · intro k hk
    cases hk
    exact hroot _ hcur
  · intro k hk p hpk j hj
    cases hk
    exact hroot j (hp p hpk j hj)

end Store

section Meta
variable {H : History} {m : Meta} {n : Name} {b : Body}

lemma MetaOk.first (hH : ∀ n, H n = none) (c : SaveCall) (b : Body) :
    MetaOk (update H (.manifest 1 1) (some b)) (commitMeta none c 1 1 (.manifest 1 1) b) := by
  have hgens : (commitMeta none c 1 1 (.manifest 1 1) b).generations =
      (Dict.empty : Dict ℕ ℕ).set 1 1 := rfl
  refine ⟨rfl, ⟨1, rfl, le_rfl⟩, ?_, ?_, by simp [commitMeta], ?_⟩
  · intro g v hgv
    rw [hgens, get_set] at hgv
    split_ifs at hgv with hg
    · exact hg.le
    · simp at hgv
  · intro g v hgv
    by_cases he : Name.manifest g v = .manifest 1 1
    · obtain ⟨rfl, rfl⟩ := Name.manifest.inj he
      exact ⟨⟨le_rfl, le_rfl⟩, rfl, (1, 1), by rw [hgens]; exact mem_cons_self, le_rfl⟩
    · rw [update_of_ne he, hH] at hgv
      cases hgv
  · intro g v hgv
    rw [update_of_ne (by simp), hH] at hgv
    cases hgv

lemma MetaOk.next (hm : MetaOk H m) (c : SaveCall) (b : Body) :
    MetaOk (update H (.manifest m.generation (m.version + 1)) (some b))
      (commitMeta (some m) c m.generation (m.version + 1) (.manifest m.generation (m.version + 1)) b) := by
  obtain ⟨v0, hget, hv0⟩ := hm.start
  have hgens : (commitMeta (some m) c m.generation (m.version + 1)
      (.manifest m.generation (m.version + 1)) b).generations = m.generations := by
    simp [commitMeta, hget]
  have hof : ∀ v, generationOf (commitMeta (some m) c m.generation (m.version + 1)
      (.manifest m.generation (m.version + 1)) b) v = generationOf m v := by
    intro v
    unfold generationOf
    rw [hgens]
    rfl
  refine ⟨rfl, ⟨v0, by rw [hgens]; exact hget, le_trans hv0 (Nat.le_succ _)⟩, ?_, ?_, hm.pending, ?_⟩
  · intro g v hgv
    rw [hgens] at hgv
    exact hm.upper g v hgv
  · intro g v hgv
    rw [hof, hgens]
    by_cases he : Name.manifest g v = .manifest m.generation (m.version + 1)
    · obtain ⟨rfl, rfl⟩ := Name.manifest.inj he
      exact ⟨⟨Nat.succ_pos _, le_rfl⟩, hm.generationOf_current (Nat.le_succ _),
        (m.generation, v0), mem_items.mpr hget, le_trans hv0 (Nat.le_succ _)⟩
    · rw [update_of_ne he] at hgv
      obtain ⟨⟨h1, h2⟩, h3⟩ := hm.committed g v hgv
      exact ⟨⟨h1, le_trans h2 (Nat.le_succ _)⟩, h3⟩
  · intro g v hgv
    rw [update_of_ne (by simp)] at hgv
    exact hm.pended g v hgv

lemma MetaOk.pend (hm : MetaOk H m) (hp : m.pending = some p) (c : SaveCall) (b : Body) :
    MetaOk (update H (.pending p.generation (p.version + 1)) (some b))
      { m with pending := some (commitPending p c (p.version + 1) (.pending p.generation (p.version + 1)) b) } := by
  refine ⟨hm.manifest, hm.start, hm.upper, ?_, ?_, ?_⟩
  · intro g v hgv
    rw [update_of_ne (by simp)] at hgv
    exact hm.committed g v hgv
  · intro q hq
    cases hq
    refine ⟨(hm.pending p hp).1, fun k hk => ?_⟩
    cases hk
    rfl
  · intro g v hgv
    by_cases he : Name.pending g v = .pending p.generation (p.version + 1)
    · obtain ⟨rfl, rfl⟩ := Name.pending.inj he
      refine ⟨le_rfl, fun q hq _ => ?_⟩
      cases hq
      exact le_rfl
    · rw [update_of_ne he] at hgv
      obtain ⟨h1, h2⟩ := hm.pended g v hgv
      rw [hp] at h1
      refine ⟨h1, fun q hq hg => ?_⟩
      cases hq
      exact le_trans (h2 p hp hg) (Nat.le_succ _)

lemma MetaOk.begin (hm : MetaOk H m) {q : Pending} (hq : q.generation = nextGeneration m)
    (hman : q.manifest = none) : MetaOk H { m with pending := some q } := by
  obtain ⟨hlt, hplt⟩ := lt_nextGeneration m
  refine ⟨hm.manifest, hm.start, hm.upper, hm.committed, ?_, ?_⟩
  · intro p hp
    cases hp
    refine ⟨by rw [hq]; exact hlt, ?_⟩
    rw [hman]
    simp
  · intro g v hgv
    have hg : g < nextGeneration m := by
      refine lt_of_le_of_lt (hm.pended g v hgv).1 ?_
      cases hp : m.pending with
      | none => exact hlt
      | some p => exact hplt p hp
    refine ⟨by rw [← hq] at hg; exact hg.le, fun p hp he => ?_⟩
    cases hp
    omega

lemma MetaOk.switch (hm : MetaOk H m) (hp : m.pending = some p) (man : Manifest) (b : Body) :
    MetaOk (update H (.manifest p.generation (m.version + 1)) (some b))
      (switchMeta m man p.generation (m.version + 1) (.manifest p.generation (m.version + 1))) := by
  have hlt := (hm.pending p hp).1
  have hnew : m.generations.get p.generation = none := by
    by_contra hne
    obtain ⟨v, hv⟩ := ne_none_iff_exists'.mp hne
    have := hm.upper _ _ hv
    omega
  have hself : (m.generations.set p.generation (m.version + 1)).get p.generation =
      some (m.version + 1) := by rw [get_set, if_pos rfl]
  have hup : ∀ g v, (m.generations.set p.generation (m.version + 1)).get g = some v →
      g ≤ p.generation := by
    intro g v hgv
    rw [get_set] at hgv
    split_ifs at hgv with hg
    · exact hg.le
    · exact le_trans (hm.upper g v hgv) hlt.le
  refine ⟨rfl, ⟨m.version + 1, hself, le_rfl⟩, hup, ?_, by simp [switchMeta], ?_⟩
  · intro g v hgv
    by_cases he : Name.manifest g v = .manifest p.generation (m.version + 1)
    · obtain ⟨rfl, rfl⟩ := Name.manifest.inj he
      have hmem : p.generation ∈ ((m.generations.set p.generation (m.version + 1)).items.filter
          fun e => e.2 ≤ m.version + 1).map Prod.fst :=
        mem_map.mpr ⟨(p.generation, m.version + 1), mem_filter.mpr ⟨mem_items.mpr hself, by simp⟩, rfl⟩
      refine ⟨⟨Nat.succ_pos _, le_rfl⟩, ?_, (p.generation, m.version + 1), mem_items.mpr hself, le_rfl⟩
      unfold generationOf switchMeta
      dsimp only
      rw [if_neg (ne_nil_of_mem hmem)]
      refine le_antisymm (foldr_max_le fun g hg => ?_) (le_foldr_max hmem)
      obtain ⟨e, he', rfl⟩ := mem_map.mp hg
      exact hup e.1 e.2 (mem_items.mp (mem_of_mem_filter he'))
    · rw [update_of_ne he] at hgv
      obtain ⟨⟨h1, h2⟩, h3, h4⟩ := hm.committed g v hgv
      refine ⟨⟨h1, le_trans h2 (Nat.le_succ _)⟩, ?_, ?_⟩
      · rw [generationOf_set rfl hnew (Nat.lt_succ_of_le h2) h4, h3]
      · obtain ⟨e, he', hev⟩ := h4
        refine ⟨e, mem_items.mpr ?_, hev⟩
        change (m.generations.set p.generation (m.version + 1)).get e.1 = some e.2
        rw [get_set, if_neg, mem_items.mp he']
        intro hg
        rw [← hg, mem_items.mp he'] at hnew
        cases hnew
  · intro g v hgv
    rw [update_of_ne (by simp)] at hgv
    have := (hm.pended g v hgv).1
    rw [hp] at this
    exact ⟨this, by simp [switchMeta]⟩

end Meta

section Aside
variable {H : History}

lemma MetaOk.aside {m : Meta} (hm : MetaOk H m) (h1 : m'.version = m.version)
    (h2 : m'.generation = m.generation) (h3 : m'.generations = m.generations)
    (h4 : m'.manifest = m.manifest)
    (h5 : m'.pending.map (fun p => (p.generation, p.version, p.manifest)) =
      m.pending.map fun p => (p.generation, p.version, p.manifest)) : MetaOk H m' := by
  have hof : ∀ v, generationOf m' v = generationOf m v := by
    intro v
    unfold generationOf
    rw [h2, h3]
  have hpend : ∀ p' ∈ m'.pending, ∃ p ∈ m.pending, p'.generation = p.generation ∧
      p'.version = p.version ∧ p'.manifest = p.manifest := by
    intro p' hp'
    rw [mem_def] at hp'
    rw [hp', map_some, eq_comm, map_eq_some_iff] at h5
    obtain ⟨p, hp, he⟩ := h5
    simp only [Prod.mk.injEq] at he
    exact ⟨p, hp, he.1.symm, he.2.1.symm, he.2.2.symm⟩
  have helim : m'.pending.elim m'.generation Pending.generation =
      m.pending.elim m.generation Pending.generation := by
    cases hp : m'.pending with
    | none =>
      rw [hp, map_none, eq_comm, map_eq_none_iff] at h5
      rw [h5]
      exact h2
    | some p' =>
      obtain ⟨p, hp', hg, -⟩ := hpend p' hp
      rw [mem_def.mp hp']
      exact hg
  refine ⟨by rw [h4, h2, h1]; exact hm.manifest, by rw [h3, h2, h1]; exact hm.start,
    by rw [h3, h2]; exact hm.upper, fun g v h => ?_, fun p' hp' => ?_, fun g v h => ?_⟩
  · rw [hof, h3, h1]
    exact hm.committed g v h
  · obtain ⟨p, hp, hg, hv, hman⟩ := hpend p' hp'
    rw [hg, hv, hman, h2]
    exact hm.pending p hp
  · rw [helim]
    refine ⟨(hm.pended g v h).1, fun p' hp' hgp => ?_⟩
    obtain ⟨p, hp, hg, hv, -⟩ := hpend p' hp'
    rw [hv]
    exact (hm.pended g v h).2 p hp (hgp.trans hg)

end Aside

section Numbering
variable {codec : Codec} {H : History} {s : Backend}
variable {pend : Option Pending}

lemma saveTarget_cases {md : Option Meta} {c : SaveCall} {gen : ℕ}
    (h : saveTarget md c = .ok (gen, pend)) :
    (pend = none ∧ gen = md.elim 1 Meta.generation) ∨
      ∃ m p, md = some m ∧ m.pending = some p ∧ pend = some p ∧ gen = p.generation := by
  unfold saveTarget at h
  dsimp only at h
  split_ifs at h
  cases hg : c.generation with
  | none =>
    simp only [hg, Except.ok.injEq, Prod.mk.injEq] at h
    exact .inl ⟨h.2.symm, h.1.symm⟩
  | some g =>
    simp only [hg] at h
    split_ifs at h with hcur
    · simp only [Except.ok.injEq, Prod.mk.injEq] at h
      exact .inl ⟨h.2.symm, h.1.symm⟩
    · cases hp : md.bind Meta.pending with
      | none => simp [hp] at h
      | some p =>
        simp only [hp] at h
        split_ifs at h with hpg
        simp only [Except.ok.injEq, Prod.mk.injEq] at h
        obtain ⟨m, rfl, hm⟩ := bind_eq_some_iff.mp hp
        exact .inr ⟨m, p, rfl, hm, h.2.symm, h.1.symm.trans hpg.symm⟩

lemma StoreOk.base (hs : StoreOk codec H s) {c : SaveCall} {gen : ℕ}
    (h : saveTarget s.doc c = .ok (gen, pend)) {n : Name} (hn : n ∈ baseName s.doc pend) :
    ∃ b, Stored H s n b ∧ b.generation = gen := by
  rcases saveTarget_cases h with ⟨rfl, rfl⟩ | ⟨m, p, hm, hp, rfl, rfl⟩
  · cases hd : s.doc with
    | none => simp [baseName, hd] at hn
    | some m =>
      obtain rfl : m.manifest = n := by simpa [baseName, hd] using hn
      obtain ⟨b, hb⟩ := hs.current m hd
      have hg := hs.gens _ _ (hs.stored _ _ hb).hist
      rw [(hs.doc m hd).manifest] at hg
      exact ⟨b, hs.stored _ _ hb, by simpa [manifestGen] using hg.symm⟩
  · have hn' : n ∈ p.manifest := by simpa [baseName] using hn
    obtain ⟨b, hb⟩ := hs.pending m hm p hp n hn'
    have hg := hs.gens _ _ (hs.stored _ _ hb).hist
    rw [((hs.doc m hm).pending p hp).2 n hn'] at hg
    exact ⟨b, hs.stored _ _ hb, by simpa [manifestGen] using hg.symm⟩

lemma StoreOk.fresh_pending (hs : StoreOk codec H s) {m : Meta} (hdoc : s.doc = some m)
    (hp : m.pending = some p) : H (.pending p.generation (p.version + 1)) = none := by
  by_contra hne
  have := ((hs.doc m hdoc).pended _ _ (isSome_iff_ne_none.mpr hne)).2 p hp rfl
  omega

lemma StoreOk.fresh_manifest (hs : StoreOk codec H s) (g : ℕ) :
    H (.manifest g (s.doc.elim 0 Meta.version + 1)) = none := by
  cases hdoc : s.doc with
  | none => exact hs.blank hdoc _
  | some m =>
    by_contra hne
    have := ((hs.doc m hdoc).committed _ _ (isSome_iff_ne_none.mpr hne)).1.2
    simp at this

end Numbering

end CloudServer.StoreSequence
