import CloudServer.ArcsCorners

/-! The interface falls into arcs, each between two regions, each with its best crossing. -/
namespace CloudServer.Arcs
open Planes List

section
variable {edges : List Edge} {bnd : List ℕ} {k k' v : ℕ}

lemma mem_incidences : (v, k) ∈ incidences edges ↔ ∃ e, edges[k]? = some e ∧ (e.v0 = v ∨ e.v1 = v) := by
  unfold incidences
  simp only [mem_append, mem_map, Prod.mk.injEq, Prod.exists, mem_zipIdx_iff_getElem?]
  constructor
  · rintro (⟨e, i, he, hv, rfl⟩ | ⟨e, i, he, hv, rfl⟩)
    · exact ⟨e, he, Or.inl hv⟩
    · exact ⟨e, he, Or.inr hv⟩
  · rintro ⟨e, he, hv | hv⟩
    · exact Or.inl ⟨e, k, he, hv, rfl⟩
    · exact Or.inr ⟨e, k, he, hv, rfl⟩

lemma incidences_corners :
    (incidences edges).map Prod.fst = edges.map Edge.v0 ++ edges.map Edge.v1 := by
  have hfst : ∀ f : Edge → ℕ, (edges.zipIdx.map fun e => (f e.1, e.2)).map Prod.fst = edges.map f := by
    intro f
    rw [map_map]
    conv_rhs => rw [← zipIdx_map_fst 0 edges]
    rw [map_map]
    rfl
  unfold incidences
  rw [map_append, hfst, hfst]

def Meet (edges : List Edge) (bnd : List ℕ) (e e' : Edge) : Prop :=
  e ∈ edges ∧ e' ∈ edges ∧ ∃ v, Joint edges bnd v ∧ (e.v0 = v ∨ e.v1 = v) ∧ (e'.v0 = v ∨ e'.v1 = v)

def ends (edges : List Edge) (bnd : List ℕ) : List (ℕ × ℕ) :=
  ((incidences edges).filter fun x => Joint edges bnd x.1).insertionSort fun x y => x.1 ≤ y.1

lemma mem_ends {x : ℕ × ℕ} : x ∈ ends edges bnd ↔
    Joint edges bnd x.1 ∧ ∃ e, edges[x.2]? = some e ∧ (e.v0 = x.1 ∨ e.v1 = x.1) := by
  unfold ends
  rw [mem_insertionSort, mem_filter, decide_eq_true_iff, mem_incidences (v := x.1), and_comm]

lemma ends_spec : (∀ e ∈ twos (ends edges bnd), e.1 ∈ ends edges bnd ∧ e.2 ∈ ends edges bnd ∧
      e.1.1 = e.2.1) ∧
    ∀ x ∈ ends edges bnd, ∀ y ∈ ends edges bnd, x.1 = y.1 →
      x = y ∨ (x, y) ∈ twos (ends edges bnd) ∨ (y, x) ∈ twos (ends edges bnd) := by
  refine twos_spec (pairwise_insertionSort _ _) fun x hx => ?_
  have hperm : (ends edges bnd).Perm ((incidences edges).filter fun x => Joint edges bnd x.1) :=
    perm_insertionSort _ _
  have hJ := (mem_ends.mp hx).1
  have hfilter : ((incidences edges).filter fun x => Joint edges bnd x.1).map Prod.fst =
      ((incidences edges).map Prod.fst).filter fun v => Joint edges bnd v := by
    rw [filter_map]
    rfl
  rw [(hperm.map Prod.fst).count_eq, hfilter,
    count_filter (p := fun v => decide (Joint edges bnd v)) (by simpa using hJ), incidences_corners]
  exact hJ.1

lemma meet_of_glued (h : (k, k') ∈ glued edges bnd) :
    ∃ e e', edges[k]? = some e ∧ edges[k']? = some e' ∧ Meet edges bnd e e' := by
  obtain ⟨x, hx, he⟩ := mem_map.mp h
  obtain ⟨h1, h2, hv⟩ := ends_spec.1 x hx
  obtain ⟨hJ, e, hk, hev⟩ := mem_ends.mp h1
  obtain ⟨-, e', hk', hev'⟩ := mem_ends.mp h2
  cases he
  exact ⟨e, e', hk, hk', mem_of_getElem? hk, mem_of_getElem? hk', x.1.1, hJ, hev, hv ▸ hev'⟩

lemma glued_of_meet {e e' : Edge} (hk : edges[k]? = some e) (hk' : edges[k']? = some e')
    (h : Meet edges bnd e e') : k = k' ∨ (k, k') ∈ glued edges bnd ∨ (k', k) ∈ glued edges bnd := by
  obtain ⟨-, -, v, hJ, hv, hv'⟩ := h
  have hx : (v, k) ∈ ends edges bnd := mem_ends.mpr ⟨hJ, e, hk, hv⟩
  have hy : (v, k') ∈ ends edges bnd := mem_ends.mpr ⟨hJ, e', hk', hv'⟩
  rcases ends_spec.2 _ hx _ hy rfl with he | hm | hm
  · exact Or.inl (Prod.ext_iff.mp he).2
  · exact Or.inr (Or.inl (mem_map.mpr ⟨_, hm, rfl⟩))
  · exact Or.inr (Or.inr (mem_map.mpr ⟨_, hm, rfl⟩))

end

/-- The labels of `connected_components`: equal where edges connect, and only there. -/
def Components (connected_components : ℕ → List (ℕ × ℕ) → ℕ → ℕ) : Prop :=
  ∀ n adj, (∀ e ∈ adj, e.1 < n ∧ e.2 < n) → ∀ u < n, ∀ v < n,
    (connected_components n adj u = connected_components n adj v ↔
      Relation.EqvGen (fun a b => (a, b) ∈ adj) u v)

section
variable {edges : List Edge} {bnd : List ℕ} {k k' : ℕ} {e e' : Edge}

lemma glued_iff (hn : edges.Nodup) (hk : edges[k]? = some e) (hk' : edges[k']? = some e') :
    Relation.EqvGen (fun a b => (a, b) ∈ glued edges bnd) k k' ↔ Relation.EqvGen (Meet edges bnd) e e' := by
  constructor
  · intro h
    have hmap : ∀ {a b}, Relation.EqvGen (fun a b => (a, b) ∈ glued edges bnd) a b →
        Relation.EqvGen (Meet edges bnd) (edges[a]?.getD e) (edges[b]?.getD e) := by
      intro a b hab
      induction hab with
      | rel a b hab =>
        obtain ⟨x, y, hx, hy, hm⟩ := meet_of_glued hab
        rw [hx, hy]
        exact Relation.EqvGen.rel _ _ hm
      | refl a => exact Relation.EqvGen.refl _
      | symm a b _ ih => exact ih.symm
      | trans a b c _ _ ih ih' => exact ih.trans _ _ _ ih'
    have hm := hmap h
    rwa [hk, hk'] at hm
  · intro h
    have hidx : ∀ {x i}, edges[i]? = some x → edges.idxOf x = i := by
      intro x i hi
      obtain ⟨hlt, rfl⟩ := List.getElem?_eq_some_iff.mp hi
      exact hn.idxOf_getElem i hlt
    have hmap : ∀ {x y}, Relation.EqvGen (Meet edges bnd) x y →
        Relation.EqvGen (fun a b => (a, b) ∈ glued edges bnd) (edges.idxOf x) (edges.idxOf y) := by
      intro x y hxy
      induction hxy with
      | rel x y hm =>
        obtain ⟨i, hi⟩ := List.getElem?_of_mem hm.1
        obtain ⟨j, hj⟩ := List.getElem?_of_mem hm.2.1
        rw [hidx hi, hidx hj]
        rcases glued_of_meet hi hj hm with rfl | hg | hg
        · exact Relation.EqvGen.refl _
        · exact Relation.EqvGen.rel _ _ hg
        · exact (Relation.EqvGen.rel _ _ hg).symm
      | refl x => exact Relation.EqvGen.refl _
      | symm x y _ ih => exact ih.symm
      | trans x y z _ _ ih ih' => exact ih.trans _ _ _ ih'
    have hm := hmap h
    rwa [hidx hk, hidx hk'] at hm

lemma meet_labels {sp : Space} {full : ℕ → ℕ} (h : sp.Wide)
    (hm : Relation.EqvGen (Meet (interface sp full) (boundary sp)) e e') :
    e.lo full = e'.lo full ∧ e.hi full = e'.hi full := by
  induction hm with
  | rel e e' hm =>
    obtain ⟨he, he', v, hJ, hv, hv'⟩ := hm
    obtain ⟨lo, hi, hall⟩ := joint_labels h hJ
    obtain ⟨hlo, hhi⟩ := hall e he hv
    obtain ⟨hlo', hhi'⟩ := hall e' he' hv'
    exact ⟨hlo.trans hlo'.symm, hhi.trans hhi'.symm⟩
  | refl e => exact ⟨rfl, rfl⟩
  | symm e e' _ ih => exact ⟨ih.1.symm, ih.2.symm⟩
  | trans e e' e'' _ _ ih ih' => exact ⟨ih.1.trans ih'.1, ih.2.trans ih'.2⟩

end

namespace Edge

variable {full : ℕ → ℕ} {e : Edge}

/-- The edge lies between the cells `i` and `j`. -/
def Joins (e : Edge) (i j : ℕ) : Prop := (e.i = i ∧ e.j = j) ∨ e.i = j ∧ e.j = i

lemma joins_portal (hne : full e.i ≠ full e.j) :
    e.Joins (e.p full) (e.q full) ∧ full (e.p full) = e.lo full ∧ full (e.q full) = e.hi full := by
  unfold Joins p q lo hi
  rcases le_total (full e.i) (full e.j) with hle | hle
  · simp [min_eq_left hle, max_eq_right hle]
  · simp [min_eq_right hle, max_eq_left hle, hne]

variable {𝕜 : Type} [LinearOrder 𝕜]

lemma Joins.val (f : ℕ → 𝕜) {i j : ℕ} (h : e.Joins i j) : e.val f = min (f i) (f j) := by
  unfold Edge.val
  rcases h with ⟨rfl, rfl⟩ | ⟨rfl, rfl⟩
  · rfl
  · exact min_comm _ _

end Edge

/-- Two neighbouring cells of different regions. -/
def Across (sp : Space) (full : ℕ → ℕ) (i j : ℕ) : Prop :=
  i < sp.N ∧ j < sp.N ∧ full i ≠ full j ∧
    ((sp.row i = sp.row j ∧ (sp.col i + 1 = sp.col j ∨ sp.col j + 1 = sp.col i)) ∨
      sp.col i = sp.col j ∧ (sp.row i + 1 = sp.row j ∨ sp.row j + 1 = sp.row i))

lemma across_iff {sp : Space} (h : sp.Wide) {full : ℕ → ℕ} (i j : ℕ) :
    Across sp full i j ↔ ∃ e ∈ interface sp full, e.Joins i j := by
  constructor
  · rintro ⟨hi, hj, hne, hadj⟩
    have hnext : ∀ {d c0 c1 k l}, k < sp.N → l < sp.N → full k ≠ full l →
        ((sp.row l : ℤ) = sp.row k + (d : ℤ × ℤ).1 ∧ (sp.col l : ℤ) = sp.col k + d.2) →
        (⟨k, l, sp.corner k c0, sp.corner k c1⟩ : Edge) ∈ side sp full d c0 c1 := by
      intro d c0 c1 k l hk hl hne hpos
      exact mem_side.mpr ⟨Space.mem_pairs.mpr ⟨hk, h.neighbour_eq.mpr ⟨hl, hpos⟩, hne⟩, rfl, rfl⟩
    unfold interface
    simp only [mem_append]
    rcases hadj with ⟨hr, hc | hc⟩ | ⟨hc, hr | hr⟩
    · exact ⟨_, Or.inl (hnext hi hj hne (by simp only [east]; omega)), Or.inl ⟨rfl, rfl⟩⟩
    · exact ⟨_, Or.inl (hnext hj hi hne.symm (by simp only [east]; omega)), Or.inr ⟨rfl, rfl⟩⟩
    · exact ⟨_, Or.inr (hnext hi hj hne (by simp only [south]; omega)), Or.inl ⟨rfl, rfl⟩⟩
    · exact ⟨_, Or.inr (hnext hj hi hne.symm (by simp only [south]; omega)), Or.inr ⟨rfl, rfl⟩⟩
  · rintro ⟨e, he, hjoins⟩
    obtain ⟨hi, hj, hne, hs⟩ := of_interface he h
    simp only [h.neighbour_eq, east, south] at hs
    unfold Across
    rcases hjoins with ⟨rfl, rfl⟩ | ⟨rfl, rfl⟩
    · exact ⟨hi, hj, hne, by omega⟩
    · exact ⟨hj, hi, hne.symm, by omega⟩

section
variable {𝕜 : Type} [LinearOrder 𝕜]

/-- Every edge of the interface is in one arc, with the edges it is connected to and no others. -/
structure Partitioned (sp : Space) (full : ℕ → ℕ) (f : ℕ → 𝕜) (out : List (Arc 𝕜))
    (owner : Edge → Arc 𝕜) : Prop where
  nodup : out.Nodup
  mem : ∀ A, A ∈ out ↔ ∃ e ∈ interface sp full, owner e = A
  connected : ∀ e ∈ interface sp full, ∀ e' ∈ interface sp full,
    (owner e = owner e' ↔ Relation.EqvGen (Meet (interface sp full) (boundary sp)) e e')
  labels : ∀ e ∈ interface sp full, (owner e).a = e.lo full ∧ (owner e).b = e.hi full
  portal : ∀ A ∈ out, full A.p = A.a ∧ full A.q = A.b ∧ A.s = min (f A.p) (f A.q) ∧
    ∃ e ∈ interface sp full, e.Joins A.p A.q ∧ owner e = A
  best : ∀ e ∈ interface sp full, e.val f ≤ (owner e).s

variable {sp : Space} {full : ℕ → ℕ} {f : ℕ → 𝕜} {g : Option (ℕ → 𝕜)} {arc : ℕ → ℕ}
  {edges : List Edge} {A A' : Arc 𝕜} {b b' : List (Edge × ℕ)}

/-- The edges as `arcs` sorts them. -/
def ordered (sp : Space) (full : ℕ → ℕ) (f : ℕ → 𝕜) (edges : List Edge) (arc : ℕ → ℕ) : List (Edge × ℕ) :=
  edges.zipIdx.insertionSort fun x y => portalKey sp full f arc x ≤ portalKey sp full f arc y

lemma mem_ordered {x : Edge × ℕ} : x ∈ ordered sp full f edges arc ↔ edges[x.2]? = some x.1 := by
  unfold ordered
  rw [mem_insertionSort, mem_zipIdx_iff_getElem?]

lemma ordered_sorted : (ordered sp full f edges arc).Pairwise fun x y =>
    portalKey sp full f arc x ≤ portalKey sp full f arc y := pairwise_insertionSort _ _

lemma portalKey_le {x y : Edge × ℕ} (h : portalKey sp full f arc x ≤ portalKey sp full f arc y) :
    arc x.2 ≤ arc y.2 ∧ (arc x.2 = arc y.2 → y.1.val f ≤ x.1.val f) := by
  rcases Prod.Lex.toLex_le_toLex.mp h with hlt | ⟨he, hle⟩
  · exact ⟨hlt.le, fun he => (hlt.ne he).elim⟩
  · refine ⟨he.le, fun _ => ?_⟩
    rcases Prod.Lex.toLex_le_toLex.mp hle with hlt | ⟨hv, -⟩
    · exact (OrderDual.toDual_lt_toDual.mp hlt).le
    · exact (OrderDual.toDual_inj.mp hv).ge

lemma ordered_arc : (ordered sp full f edges arc).Pairwise fun x y => arc x.2 ≤ arc y.2 :=
  ordered_sorted.imp fun h => (portalKey_le h).1

lemma arcOf_spec (hb : b ∈ blocks (fun x => arc x.2) (ordered sp full f edges arc))
    (hA : arcOf full f g edges arc b = some A) : ∃ x ∈ b, A.a = x.1.lo full ∧ A.b = x.1.hi full ∧
      A.p = x.1.p full ∧ A.q = x.1.q full ∧ A.s = x.1.val f ∧ ∀ y ∈ b, y.1.val f ≤ x.1.val f := by
  obtain ⟨x, hx, rfl⟩ := Option.map_eq_some_iff.mp hA
  refine ⟨x, mem_of_mem_head? hx, rfl, rfl, rfl, rfl, rfl, fun y hy => ?_⟩
  have hsort := block_sorted ordered_sorted hb
  cases b with
  | nil => cases hy
  | cons z b =>
    cases hx
    rcases mem_cons.mp hy with rfl | hyb
    · exact le_rfl
    · exact (portalKey_le ((pairwise_cons.mp hsort).1 y hyb)).2
        (block_key hb mem_cons_self hy)

lemma arcOf_inj (h : sp.Wide) (hb : b ∈ blocks (fun x => arc x.2) (ordered sp full f (interface sp full) arc))
    (hb' : b' ∈ blocks (fun x => arc x.2) (ordered sp full f (interface sp full) arc))
    (hA : arcOf full f g (interface sp full) arc b = some A)
    (hA' : arcOf full f g (interface sp full) arc b' = some A) : b = b' := by
  obtain ⟨x, hx, -, -, hp, hq, -⟩ := arcOf_spec hb hA
  obtain ⟨y, hy, -, -, hp', hq', -⟩ := arcOf_spec hb' hA'
  have hxo := mem_ordered.mp ((mem_blocks x).mpr ⟨b, hb, hx⟩)
  have hyo := mem_ordered.mp ((mem_blocks y).mpr ⟨b', hb', hy⟩)
  have hxe := mem_of_getElem? hxo
  have hye := mem_of_getElem? hyo
  have hjx := (Edge.joins_portal (of_interface hxe h).2.2.1).1
  have hjy := (Edge.joins_portal (of_interface hye h).2.2.1).1
  rw [← hp, ← hq] at hjx
  rw [← hp', ← hq'] at hjy
  have hedge : x.1 = y.1 := by
    refine edge_unique h hxe hye ?_
    unfold Edge.Joins at hjx hjy
    omega
  have hidx : x.2 = y.2 := by
    rw [hedge] at hxo
    exact (List.getElem?_inj (List.getElem?_eq_some_iff.mp hxo).1 (interface_nodup h)).mp
      (hxo.trans hyo.symm)
  exact block_unique ordered_arc hb hb' hx hy (congrArg arc hidx)

lemma exists_owner {e : Edge} (he : e ∈ edges) : ∃ k, edges[k]? = some e ∧
    ∃ b ∈ blocks (fun x => arc x.2) (ordered sp full f edges arc), (e, k) ∈ b ∧ ∃ A, arcOf full f g edges arc b = some A := by
  obtain ⟨k, hk⟩ := List.getElem?_of_mem he
  have hordered : (e, k) ∈ ordered sp full f edges arc := mem_ordered.mpr hk
  obtain ⟨b, hb, hm⟩ := (mem_blocks (e, k)).mp hordered
  cases hb' : b with
  | nil => exact absurd hb' (block_ne hb)
  | cons x c => exact ⟨k, hk, b, hb, hm, _, by rw [hb']; rfl⟩

variable {connected_components : ℕ → List (ℕ × ℕ) → ℕ → ℕ}

lemma arcs_partitioned (h : sp.Wide) (hcc : Components connected_components) :
    ∃ owner, Partitioned sp full f (arcs sp full f connected_components g) owner := by
  set edges := interface sp full with hedges
  set arc := connected_components edges.length (glued edges (boundary sp)) with harc
  set B := blocks (fun x => arc x.2) (ordered sp full f edges arc) with hB
  have hout : ∀ A, A ∈ arcs sp full f connected_components g ↔
      ∃ b ∈ B, arcOf full f g edges arc b = some A := by
    intro A
    unfold arcs
    rw [mem_insertionSort, mem_filterMap]
    rfl
  have hown : ∀ e, ∃ A, e ∈ edges → ∃ k, edges[k]? = some e ∧ ∃ b ∈ B, (e, k) ∈ b ∧
      arcOf full f g edges arc b = some A := by
    intro e
    by_cases he : e ∈ edges
    · have hex : ∃ k, edges[k]? = some e ∧ ∃ b ∈ B, (e, k) ∈ b ∧
          ∃ A, arcOf full f g edges arc b = some A := exists_owner he
      obtain ⟨k, hk, b, hb, hm, A, hA⟩ := hex
      exact ⟨A, fun _ => ⟨k, hk, b, hb, hm, hA⟩⟩
    · exact ⟨⟨0, 0, 0, 0, f 0, f 0, 0⟩, fun h => (he h).elim⟩
  choose owner howner using hown
  have hsame : ∀ e ∈ edges, ∀ e' ∈ edges, owner e = owner e' ↔ Relation.EqvGen (Meet edges (boundary sp)) e e' := by
    intro e he e' he'
    obtain ⟨k, hk, b, hb, hm, hA⟩ := howner e he
    obtain ⟨k', hk', b', hb', hm', hA'⟩ := howner e' he'
    have hlt := (List.getElem?_eq_some_iff.mp hk).1
    have hlt' := (List.getElem?_eq_some_iff.mp hk').1
    have hvalid : ∀ x ∈ glued edges (boundary sp), x.1 < edges.length ∧ x.2 < edges.length := by
      intro x hx
      obtain ⟨y, z, hy, hz, -⟩ := meet_of_glued hx
      exact ⟨(List.getElem?_eq_some_iff.mp hy).1, (List.getElem?_eq_some_iff.mp hz).1⟩
    have harcs : arc k = arc k' ↔ Relation.EqvGen (Meet edges (boundary sp)) e e' :=
      (hcc _ _ hvalid k hlt k' hlt').trans (glued_iff (interface_nodup h) hk hk')
    rw [← harcs]
    constructor
    · intro heq
      have hbb := arcOf_inj h hb hb' hA (heq ▸ hA')
      exact block_key hb hm (hbb ▸ hm')
    · intro heq
      have hbb := block_unique ordered_arc hb hb' hm hm' heq
      exact Option.some.inj (hA.symm.trans (hbb ▸ hA'))
  have hof : ∀ {b A}, b ∈ B → arcOf full f g edges arc b = some A → ∀ x ∈ b, x.1 ∈ edges ∧ owner x.1 = A := by
    intro b A hb hA x hx
    have hxk := mem_ordered.mp ((mem_blocks x).mpr ⟨b, hb, hx⟩)
    have hxe := mem_of_getElem? hxk
    obtain ⟨k, hk, c, hc, hm, hAc⟩ := howner x.1 hxe
    have hidx := (List.getElem?_inj (List.getElem?_eq_some_iff.mp hk).1 (interface_nodup h)).mp
      (hk.trans hxk.symm)
    have hcb := block_unique ordered_arc hc hb hm hx (congrArg arc hidx)
    exact ⟨hxe, Option.some.inj (hAc.symm.trans (hcb ▸ hA))⟩
  have hbest : ∀ e ∈ edges, ∃ x ∈ edges, owner x = owner e ∧ (owner e).a = x.lo full ∧
      (owner e).b = x.hi full ∧ (owner e).p = x.p full ∧ (owner e).q = x.q full ∧
      (owner e).s = x.val f ∧ e.val f ≤ x.val f := by
    intro e he
    obtain ⟨k, hk, b, hb, hm, hA⟩ := howner e he
    obtain ⟨x, hx, ha, hb', hp, hq, hs, hle⟩ := arcOf_spec hb hA
    obtain ⟨hxe, hox⟩ := hof hb hA x hx
    exact ⟨x.1, hxe, hox, ha, hb', hp, hq, hs, hle _ hm⟩
  have hmem : ∀ A, A ∈ arcs sp full f connected_components g ↔ ∃ e ∈ edges, owner e = A := by
    intro A
    rw [hout]
    constructor
    · rintro ⟨b, hb, hA⟩
      obtain ⟨x, hx, -⟩ := arcOf_spec hb hA
      exact ⟨x.1, hof hb hA x hx⟩
    · rintro ⟨e, he, rfl⟩
      obtain ⟨k, hk, b, hb, hm, hA⟩ := howner e he
      exact ⟨b, hb, hA⟩
  refine ⟨owner, ⟨?_, hmem, hsame, fun e he => ?_, fun A hA => ?_, fun e he => ?_⟩⟩
  · unfold arcs
    refine (perm_insertionSort _ _).nodup_iff.mpr ?_
    have hinc := (blocks_increase ordered_arc : B.Pairwise _)
    refine List.Pairwise.filterMap _ (fun b b' hbb A hA A' hA' he => ?_)
      (List.Pairwise.imp_of_mem (S := fun b b' => b ∈ B ∧ b' ∈ B ∧ b ≠ b') (fun hb hb' hlt => ?_) hinc)
    · subst he
      exact hbb.2.2 (arcOf_inj h hbb.1 hbb.2.1 hA hA')
    · refine ⟨hb, hb', fun hbb => ?_⟩
      obtain ⟨x, hx⟩ := exists_mem_of_ne_nil _ (block_ne hb)
      exact (hlt x hx x (hbb ▸ hx)).false
  · obtain ⟨x, hx, hox, ha, hb, -⟩ := hbest e he
    obtain ⟨hlo, hhi⟩ := meet_labels h ((hsame x hx e he).mp hox)
    exact ⟨ha.trans hlo, hb.trans hhi⟩
  · obtain ⟨e, he, rfl⟩ := (hmem A).mp hA
    obtain ⟨x, hx, hox, ha, hb, hp, hq, hs, -⟩ := hbest e he
    obtain ⟨hj, hlo, hhi⟩ := Edge.joins_portal (of_interface hx h).2.2.1
    rw [ha, hb, hp, hq, hs]
    exact ⟨hlo, hhi, hj.val f, x, hx, hj, hox⟩
  · obtain ⟨x, hx, hox, -, -, -, -, hs, hle⟩ := hbest e he
    exact hs ▸ hle

end

end CloudServer.Arcs
