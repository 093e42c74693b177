import CloudServer.ArcsPartition

/-! The best arc between two regions crosses at their saddle. -/
namespace CloudServer.Arcs
open Planes List

section
variable {𝕜 : Type} [LinearOrder 𝕜]

lemma largest_of_blocks {l : List (ℕ × 𝕜)} (hl : l.Pairwise fun x y => x.1 ≤ y.1) {c : ℕ} {m : 𝕜} :
    (∃ b ∈ blocks Prod.fst l, ∃ x, b.head? = some x ∧ x.1 = c ∧ largest Prod.snd x b = m) ↔
      IsGreatest {t | (c, t) ∈ l} m := by
  have hset : ∀ b ∈ blocks Prod.fst l, ∀ x ∈ b, {t | ∃ y ∈ b, y.2 = t} = {t | (x.1, t) ∈ l} := by
    intro b hb x hx
    ext t
    constructor
    · rintro ⟨y, hy, rfl⟩
      obtain ⟨hyl, hk⟩ := (mem_block hl hb hx).mp hy
      rw [Set.mem_ofPred_eq, ← hk]
      exact hyl
    · intro ht
      exact ⟨_, (mem_block hl hb hx).mpr ⟨ht, rfl⟩, rfl⟩
  constructor
  · rintro ⟨b, hb, x, hx, rfl, rfl⟩
    have hxb := mem_of_mem_head? hx
    rw [← hset b hb x hxb]
    exact largest_spec _ x b hxb
  · intro hm
    obtain ⟨b, hb, hz⟩ := (mem_blocks _).mp hm.1
    cases hb' : b with
    | nil => exact absurd hb' (block_ne hb)
    | cons x rest =>
      have hxb : x ∈ b := hb' ▸ mem_cons_self
      have hk := block_key hb hxb hz
      have hg := largest_spec Prod.snd x b hxb
      rw [hset b hb x hxb, hk] at hg
      exact ⟨b, hb, x, by rw [hb']; rfl, hk, hg.unique hm⟩

variable {sp : Space} {full : ℕ → ℕ} {f : ℕ → 𝕜}

lemma crossings_eq : crossings sp full f = (interface sp full).map fun e => (e.i, e.j, e.val f) := by
  unfold crossings interface side
  rw [map_append, map_append, map_map, map_map]
  rfl

lemma mem_saddles {lo hi : ℕ} {s : 𝕜} : (lo, hi, s) ∈ saddles full (crossings sp full f) ↔
    IsGreatest {t | ∃ e ∈ interface sp full, e.lo full = lo ∧ e.hi full = hi ∧ e.val f = t} s := by
  unfold saddles
  rw [crossings_eq]
  set labels := ((interface sp full).map fun e => (e.i, e.j, e.val f)).map
    fun e => max (full e.1) (full e.2.1) with hlabels
  set n := labels.foldr max 0 + 1 with hn
  have hlt : ∀ e ∈ interface sp full, e.hi full < n := by
    intro e he
    have hm : e.hi full ∈ labels := mem_map.mpr ⟨_, mem_map_of_mem he, rfl⟩
    exact Nat.lt_succ_of_le (le_max_of_le' 0 hm le_rfl)
  set coded := ((interface sp full).map fun e => (e.i, e.j, e.val f)).map fun e =>
    (min (full e.1) (full e.2.1) * n + max (full e.1) (full e.2.1), e.2.2) with hcoded
  set o := coded.insertionSort fun x y => x.1 ≤ y.1 with ho
  have hsorted : o.Pairwise fun x y => x.1 ≤ y.1 := pairwise_insertionSort _ _
  have hmem : ∀ {c t}, (c, t) ∈ o ↔
      ∃ e ∈ interface sp full, e.lo full * n + e.hi full = c ∧ e.val f = t := by
    intro c t
    rw [ho, mem_insertionSort, hcoded, map_map, mem_map]
    simp only [Function.comp, Prod.mk.injEq]
    rfl
  have hcode : ∀ {lo hi}, hi < n → {t | (lo * n + hi, t) ∈ o} =
      {t | ∃ e ∈ interface sp full, e.lo full = lo ∧ e.hi full = hi ∧ e.val f = t} := by
    intro lo hi hhi
    ext t
    rw [Set.mem_ofPred_eq, Set.mem_ofPred_eq, hmem]
    refine exists_congr fun e => and_congr_right fun he => ?_
    rw [← and_assoc]
    refine and_congr_left fun _ => ⟨fun heq => ?_, fun ⟨hl, hh⟩ => by rw [hl, hh]⟩
    have hdiv := congrArg (· / n) heq
    have hmod := congrArg (· % n) heq
    have hpos : 0 < n := Nat.succ_pos _
    simp only [Nat.mul_add_mod_self_right, Nat.mod_eq_of_lt (hlt e he), Nat.mod_eq_of_lt hhi] at hmod
    rw [hmod] at heq
    exact ⟨Nat.eq_of_mul_eq_mul_right hpos (Nat.add_right_cancel heq), hmod⟩
  rw [mem_filterMap]
  simp only [Option.map_eq_some_iff, Prod.mk.injEq]
  constructor
  · rintro ⟨b, hb, x, hx, hdiv, hmod, hlarge⟩
    have hx1 : x.1 = lo * n + hi := by rw [← hdiv, ← hmod, Nat.div_add_mod']
    have hhi : hi < n := hmod ▸ Nat.mod_lt _ (Nat.succ_pos _)
    rw [← hcode hhi]
    exact (largest_of_blocks hsorted).mp ⟨b, hb, x, hx, hx1, hlarge⟩
  · intro hs
    obtain ⟨e, he, hlo, hhi, -⟩ := hs.1
    have hhin : hi < n := hhi ▸ hlt e he
    rw [← hcode hhin] at hs
    obtain ⟨b, hb, x, hx, hx1, hlarge⟩ := (largest_of_blocks hsorted).mpr hs
    refine ⟨b, hb, x, hx, ?_, ?_, hlarge⟩
    · rw [hx1, Nat.mul_comm, Nat.mul_add_div (Nat.succ_pos _), Nat.div_eq_of_lt hhin, Nat.add_zero]
    · rw [hx1, Nat.mul_add_mod_self_right, Nat.mod_eq_of_lt hhin]

variable {owner : Edge → Arc 𝕜} {out : List (Arc 𝕜)}

lemma Partitioned.greatest (P : Partitioned sp full f out owner) {lo hi : ℕ} {s : 𝕜} :
    IsGreatest {t | ∃ e ∈ interface sp full, e.lo full = lo ∧ e.hi full = hi ∧ e.val f = t} s ↔
      IsGreatest {t | ∃ A ∈ out, A.a = lo ∧ A.b = hi ∧ A.s = t} s := by
  have hdown : ∀ {t}, (∃ A ∈ out, A.a = lo ∧ A.b = hi ∧ A.s = t) →
      ∃ e ∈ interface sp full, e.lo full = lo ∧ e.hi full = hi ∧ e.val f = t := by
    rintro t ⟨A, hA, ha, hb, rfl⟩
    obtain ⟨-, -, hs, e, he, hj, rfl⟩ := P.portal A hA
    obtain ⟨hlo, hhi⟩ := P.labels e he
    exact ⟨e, he, hlo.symm.trans ha, hhi.symm.trans hb, (hj.val f).trans hs.symm⟩
  have hup : ∀ {t}, (∃ e ∈ interface sp full, e.lo full = lo ∧ e.hi full = hi ∧ e.val f = t) →
      ∃ A ∈ out, (A.a = lo ∧ A.b = hi) ∧ t ≤ A.s := by
    rintro t ⟨e, he, hlo, hhi, rfl⟩
    obtain ⟨ha, hb⟩ := P.labels e he
    exact ⟨owner e, (P.mem _).mpr ⟨e, he, rfl⟩, ⟨ha.trans hlo, hb.trans hhi⟩, P.best e he⟩
  constructor
  · rintro ⟨hs, hbound⟩
    refine ⟨?_, fun t ht => hbound (hdown ht)⟩
    obtain ⟨A, hA, ⟨ha, hb⟩, hle⟩ := hup hs
    have hge := hbound (hdown ⟨A, hA, ha, hb, rfl⟩)
    exact ⟨A, hA, ha, hb, le_antisymm hge hle⟩
  · rintro ⟨hs, hbound⟩
    refine ⟨hdown hs, fun t ht => ?_⟩
    obtain ⟨A, hA, ⟨ha, hb⟩, hle⟩ := hup ht
    exact hle.trans (hbound ⟨A, hA, ha, hb, rfl⟩)

end

section
variable {𝕜 : Type} [LinearOrder 𝕜]

/-- Every pair of neighbouring cells of different regions is one edge, and every edge is in one arc. -/
theorem arcs_partition (F : Plane Bool) (full : ℕ → ℕ) (f : ℕ → 𝕜) (g : Option (ℕ → 𝕜))
    {connected_components : ℕ → List (ℕ × ℕ) → ℕ → ℕ} (hcc : Components connected_components) :
    let sp := Space.of F
    let out := arcs sp full f connected_components g
    (∀ i j, Across sp full i j ↔ ∃ e ∈ interface sp full, e.Joins i j) ∧
      (∀ e ∈ interface sp full, ∀ e' ∈ interface sp full, ∀ i j, e.Joins i j → e'.Joins i j → e = e') ∧
      (∃ owner, Partitioned sp full f out owner) ∧
      ∀ lo hi s, (lo, hi, s) ∈ saddles full (crossings sp full f) ↔
        IsGreatest {t | ∃ A ∈ out, A.a = lo ∧ A.b = hi ∧ A.s = t} s := by
  intro sp out
  have h := Space.wide_of F
  have hex : ∃ owner, Partitioned sp full f out owner := arcs_partitioned h hcc
  obtain ⟨owner, P⟩ := hex
  refine ⟨across_iff h, fun e he e' he' i j hj hj' => edge_unique h he he' ?_, ⟨owner, P⟩,
    fun lo hi s => mem_saddles.trans P.greatest⟩
  unfold Edge.Joins at hj hj'
  omega

end

def relabel (_n : ℕ) (adj : List (ℕ × ℕ)) : ℕ → ℕ :=
  adj.foldr (fun e lab k => if lab k = lab e.2 then lab e.1 else lab k) id

lemma relabel_iff {n : ℕ} (adj : List (ℕ × ℕ)) (u v : ℕ) :
    relabel n adj u = relabel n adj v ↔ Relation.EqvGen (fun a b => (a, b) ∈ adj) u v := by
  induction adj generalizing u v with
  | nil =>
    constructor
    · rintro rfl
      exact Relation.EqvGen.refl _
    · intro h
      induction h with
      | rel a b h => cases h
      | refl a => rfl
      | symm a b _ ih => exact ih.symm
      | trans a b c _ _ ih ih' => exact ih.trans ih'
  | cons e adj ih =>
    have hnew : ∀ k, relabel n (e :: adj) k =
        if relabel n adj k = relabel n adj e.2 then relabel n adj e.1 else relabel n adj k := fun _ => rfl
    constructor
    · intro h
      have hold : ∀ {a b}, relabel n adj a = relabel n adj b →
          Relation.EqvGen (fun a b => (a, b) ∈ e :: adj) a b := fun he =>
        Relation.EqvGen.mono (fun a b hab => mem_cons_of_mem _ hab) _ _ ((ih _ _).mp he)
      have hpair : Relation.EqvGen (fun a b => (a, b) ∈ e :: adj) e.1 e.2 :=
        Relation.EqvGen.rel _ _ mem_cons_self
      rw [hnew, hnew] at h
      by_cases hu : relabel n adj u = relabel n adj e.2 <;>
        by_cases hv : relabel n adj v = relabel n adj e.2
      · exact hold (hu.trans hv.symm)
      · rw [if_pos hu, if_neg hv] at h
        exact (hold hu).trans _ _ _ (hpair.symm.trans _ _ _ (hold h))
      · rw [if_neg hu, if_pos hv] at h
        exact (hold h).trans _ _ _ (hpair.trans _ _ _ (hold hv.symm))
      · rw [if_neg hu, if_neg hv] at h
        exact hold h
    · intro h
      induction h with
      | rel a b hab =>
        rw [hnew, hnew]
        rcases mem_cons.mp hab with rfl | hab
        · simp
        · rw [(ih a b).mpr (Relation.EqvGen.rel _ _ hab)]
      | refl a => rfl
      | symm a b _ ih' => exact ih'.symm
      | trans a b c _ _ hab hbc => exact hab.trans hbc

lemma relabel_components : Components relabel := fun _ adj _ u _ v _ => relabel_iff adj u v

/-- A hole cuts the interface of two regions into two arcs. -/
theorem arcs_partition_hole :
    let F : Plane Bool := ⟨3, 3, fun y x => !(y == 1 && x == 1)⟩
    let full : ℕ → ℕ := fun i => if i < 3 then 4 else 7
    let f : ℕ → ℕ := fun i => i
    let out := arcs (Space.of F) full f relabel none
    out = [⟨4, 7, 0, 3, 0, 0, 1⟩, ⟨4, 7, 2, 4, 2, 2, 1⟩] ∧
      (∃ owner, Partitioned (Space.of F) full f out owner) ∧
      ((4, 7, 2) ∈ saddles full (crossings (Space.of F) full f) ↔
        IsGreatest {t | ∃ A ∈ out, A.a = 4 ∧ A.b = 7 ∧ A.s = t} 2) := by
  have h := arcs_partition ⟨3, 3, fun y x => !(y == 1 && x == 1)⟩ (fun i => if i < 3 then 4 else 7)
    (fun i : ℕ => i) none relabel_components
  exact ⟨by decide, h.2.2.1, h.2.2.2 4 7 2⟩

end CloudServer.Arcs
