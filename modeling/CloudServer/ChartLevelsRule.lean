import CloudServer.ChartLevels
import CloudServer.MergingDepth

/-! The levels above the charts are nested, and end in the connected components. -/
namespace CloudServer.ChartLevels
open Merging Morse List

variable {𝕜 : Type} [Field 𝕜] [LinearOrder 𝕜]
variable {c x : Chart 𝕜} {e e' i j r u w : ℕ} {y : Site 𝕜} {l : List (ℕ × 𝕜)}

section
omit [Field 𝕜]

lemma lexsort_perm (sites : List (Site 𝕜)) : (lexsort sites).Perm (List.range sites.length) := by
  have hp := (perm_insertionSort (fun x y : Site 𝕜 × ℕ => x.1.seniority ≤ y.1.seniority) sites.zipIdx).map Prod.snd
  unfold lexsort
  rw [zipIdx_map_snd, ← range_eq_range'] at hp
  exact hp

variable {sites : List (Site 𝕜)}

lemma mem_lexsort : i ∈ lexsort sites ↔ i < sites.length := by
  rw [(lexsort_perm sites).mem_iff, mem_range]

lemma lexsort_sorted (sites : List (Site 𝕜)) : (lexsort sites).Pairwise fun i j =>
    ∀ x y, sites[i]? = some x → sites[j]? = some y → x.seniority ≤ y.seniority := by
  have hs := pairwise_insertionSort
    (fun x y : Site 𝕜 × ℕ => x.1.seniority ≤ y.1.seniority) sites.zipIdx
  have hmem : ∀ p, p ∈ sites.zipIdx.insertionSort (fun x y => x.1.seniority ≤ y.1.seniority) →
      sites[p.2]? = some p.1 := fun p hp =>
    mem_zipIdx_iff_getElem?.mp ((mem_insertionSort _).mp hp)
  unfold lexsort
  rw [pairwise_map]
  refine hs.imp_of_mem fun {p q} hp hq hle x y hx hy => ?_
  cases (hmem p hp).symm.trans hx
  cases (hmem q hq).symm.trans hy
  exact hle

lemma rank_lt {x : Site 𝕜} (hx : sites[i]? = some x)
    (hy : sites[j]? = some y) (h : x.seniority < y.seniority) :
    (lexsort sites).idxOf i < (lexsort sites).idxOf j := by
  have hi : (lexsort sites).idxOf i < (lexsort sites).length :=
    idxOf_lt_length_of_mem (mem_lexsort.mpr (lt_of_getElem? hx))
  have hj : (lexsort sites).idxOf j < (lexsort sites).length :=
    idxOf_lt_length_of_mem (mem_lexsort.mpr (lt_of_getElem? hy))
  by_contra hno
  rcases (not_lt.mp hno).lt_or_eq with hlt | heq
  · have hle := pairwise_iff_getElem.mp (lexsort_sorted sites) _ _ hj hi hlt y x
      (by rwa [getElem_idxOf hj]) (by rwa [getElem_idxOf hi])
    exact absurd hle (not_le.mpr h)
  · have hij : i = j := by rw [← getElem_idxOf hi, ← getElem_idxOf hj]; simp only [heq]
    subst hij
    cases hx.symm.trans hy
    exact lt_irrefl _ h

end

structure View (charts : List (Chart 𝕜)) (links : List (Link 𝕜)) : Prop where
  peaks : ∀ c ∈ charts, 0 ≤ c.peak
  anchors : charts.Pairwise fun c c' => (c.row, c.col) ≠ (c'.row, c'.col)
  ends : ∀ l ∈ links, l.a < charts.length ∧ l.b < charts.length

/-- Chart `e` is the eldest of region `r`. -/
def Heads (charts : List (Chart 𝕜)) (r e : ℕ) : Prop :=
  ∃ x, charts[e]? = some x ∧ x.region = r ∧ ∀ c ∈ charts, c.region = r → x.seniority ≤ c.seniority

section
variable {charts : List (Chart 𝕜)} {links : List (Link 𝕜)}

omit [Field 𝕜] [LinearOrder 𝕜] in
lemma seniority_injective {x : Site 𝕜} (h : x.seniority = y.seniority) :
    x.peak = y.peak ∧ (x.row, x.col) = (y.row, y.col) := by
  have h := congrArg ofLex h
  simp only [Site.seniority, ofLex_toLex, Prod.mk.injEq, OrderDual.toDual_inj, toLex_inj] at h
  exact ⟨h.1, Prod.ext h.2.1 h.2.2⟩

lemma View.anchor (h : View charts links) {y : Chart 𝕜} (hx : charts[i]? = some x)
    (hy : charts[j]? = some y) (hpos : (x.row, x.col) = (y.row, y.col)) : i = j := by
  have hi := lt_of_getElem? hx
  have hj := lt_of_getElem? hy
  rw [List.getElem?_eq_getElem hi, Option.some.injEq] at hx
  rw [List.getElem?_eq_getElem hj, Option.some.injEq] at hy
  rcases lt_trichotomy i j with hlt | heq | hgt
  · exact absurd (by rw [hx, hy]; exact hpos) (pairwise_iff_getElem.mp h.anchors i j hi hj hlt)
  · exact heq
  · exact absurd (by rw [hx, hy]; exact hpos.symm) (pairwise_iff_getElem.mp h.anchors j i hj hi hgt)

lemma View.same (h : View charts links) {y : Chart 𝕜} (hx : charts[i]? = some x)
    (hy : charts[j]? = some y) (he : x.seniority = y.seniority) : i = j :=
  h.anchor hx hy (seniority_injective he).2

lemma Heads.unique (h : View charts links) (he : Heads charts r e)
    (he' : Heads charts r e') : e = e' := by
  obtain ⟨x, hx, hr, hle⟩ := he
  obtain ⟨x', hx', hr', hle'⟩ := he'
  refine h.same hx hx' (le_antisymm (hle x' (mem_of_getElem? hx') hr') ?_)
  exact hle' x (mem_of_getElem? hx) hr

omit [Field 𝕜] [LinearOrder 𝕜] in
lemma getElem?_sites (i : ℕ) : (charts.map Chart.toSite)[i]? = charts[i]?.map Chart.toSite :=
  List.getElem?_map

section
omit [Field 𝕜]

lemma elderOf_spec (charts : List (Chart 𝕜)) (hc : c ∈ charts) (hr : c.region = r) :
    ∃ e, elderOf charts r = some e ∧ Heads charts r e := by
  obtain ⟨i, hi⟩ := mem_iff_getElem?.mp hc
  have hin : i ∈ lexsort (charts.map Chart.toSite) := by
    rw [mem_lexsort, length_map]
    exact lt_of_getElem? hi
  cases he : elderOf charts r with
  | none =>
    have := List.find?_eq_none.mp he i hin
    simp [hi, hr] at this
  | some e =>
    obtain ⟨hp, as, bs, hsplit, hfirst⟩ := List.find?_eq_some_iff_append.mp he
    obtain ⟨x, hx, hxr⟩ : ∃ x, charts[e]? = some x ∧ x.region = r := by
      cases hx : charts[e]? with
      | none => simp [hx] at hp
      | some x => exact ⟨x, rfl, by simpa [hx] using hp⟩
    refine ⟨e, rfl, x, hx, hxr, fun c' hc' hr' => ?_⟩
    obtain ⟨j, hj⟩ := mem_iff_getElem?.mp hc'
    have hsorted := lexsort_sorted (charts.map Chart.toSite)
    have hjin : j ∈ lexsort (charts.map Chart.toSite) := by
      rw [mem_lexsort, length_map]
      exact lt_of_getElem? hj
    rw [hsplit] at hsorted hjin
    rcases mem_append.mp hjin with hj' | hj'
    · have := hfirst j hj'
      simp [hj, hr'] at this
    · rcases mem_cons.mp hj' with rfl | hj'
      · rw [hx] at hj
        cases hj
        exact le_rfl
      · have hle := (pairwise_cons.mp (pairwise_append.mp hsorted).2.1).1 j hj'
        exact hle x.toSite c'.toSite (by rw [getElem?_sites, hx]; rfl) (by rw [getElem?_sites, hj]; rfl)

lemma peak_le_of_seniority {x : Site 𝕜} (h : x.seniority ≤ y.seniority) : y.peak ≤ x.peak := by
  rw [Site.seniority, Site.seniority, Prod.Lex.toLex_le_toLex] at h
  rcases h with h | h
  · exact (OrderDual.toDual_lt_toDual.mp h).le
  · exact (OrderDual.toDual_inj.mp h.1).ge

lemma foldl_max_eq {l : List (Chart 𝕜)} {p q : 𝕜} (hp : p ≤ q) (hle : ∀ c ∈ l, c.peak ≤ q)
    (hq : p = q ∨ ∃ c ∈ l, c.peak = q) : l.foldl (fun p c => max p c.peak) p = q := by
  induction l generalizing p with
  | nil =>
    rcases hq with hq | ⟨c, hc, -⟩
    · exact hq
    · cases hc
  | cons c rest ih =>
    rw [foldl_cons]
    have hc := hle c mem_cons_self
    refine ih (max_le hp hc) (fun c' hc' => hle c' (.tail _ hc')) ?_
    rcases hq with rfl | ⟨c', hc', he⟩
    · exact .inl (max_eq_left hc)
    · rcases mem_cons.mp hc' with rfl | hc'
      · exact .inl (by rw [he]; exact max_eq_right hp)
      · exact .inr ⟨c', hc', he⟩

end

variable [IsStrictOrderedRing 𝕜]

lemma View.regionSite_eq (h : View charts links) (last : Chart 𝕜)
    (he : elderOf charts r = some e) (hh : Heads charts r e) (hx : charts[e]? = some x) :
    regionSite charts last r = x.toSite := by
  obtain ⟨x', hx', hr, hle⟩ := hh
  cases hx.symm.trans hx'
  have hin := mem_of_getElem? hx
  have hpeak : regionPeak charts r = x.peak := by
    refine foldl_max_eq ((neg_nonpos.mpr zero_le_one).trans (h.peaks x hin)) ?_ (.inr ⟨x, ?_, rfl⟩)
    · intro c hc
      obtain ⟨hc, hcr⟩ := mem_filter.mp hc
      exact peak_le_of_seniority (hle c hc (by simpa using hcr))
    · exact mem_filter.mpr ⟨hin, by simpa using hr⟩
  unfold regionSite
  rw [he, hpeak, Option.bind_some, hx]
  rfl

end

/-- The link is one between `u` and `w`. -/
def Link.Joins (l : Link 𝕜) (u w : ℕ) : Prop := l.a = u ∧ l.b = w ∨ l.a = w ∧ l.b = u

abbrev CodeOrder (x y : ℕ × 𝕜) : Prop :=
  toLex (x.1, OrderDual.toDual x.2) ≤ toLex (y.1, OrderDual.toDual y.2)

omit [Field 𝕜] in
lemma mem_firsts {before : Option ℕ} (hs : l.Pairwise CodeOrder)
    (hb : ∀ b, before = some b → ∀ x ∈ l, b ≤ x.1) (c : ℕ) (s : 𝕜) :
    (c, s) ∈ firsts before l ↔ before ≠ some c ∧ (c, s) ∈ l ∧ ∀ t, (c, t) ∈ l → t ≤ s := by
  induction l generalizing before with
  | nil => simp [firsts]
  | cons x rest ih =>
    obtain ⟨hx, hrest⟩ := pairwise_cons.mp hs
    have hcode : ∀ y ∈ rest, x.1 < y.1 ∨ x.1 = y.1 ∧ y.2 ≤ x.2 := fun y hy =>
      Prod.Lex.toLex_le_toLex.mp (hx y hy)
    have hge : ∀ b, some x.1 = some b → ∀ y ∈ rest, b ≤ y.1 := by
      rintro b ⟨⟩ y hy
      rcases hcode y hy with h | h
      · exact h.le
      · exact h.1.le
    have hxs := ih hrest hge
    have hxb := fun b hb' => hb b hb' x mem_cons_self
    -- behind `x` no entry of its code has a larger saddle
    have hhead : ∀ s, (x.1, s) ∈ x :: rest → s ≤ x.2 := by
      intro s hm
      rcases mem_cons.mp hm with he | hm
      · exact (congrArg Prod.snd he).le
      · rcases hcode _ hm with h | h
        · exact absurd h (lt_irrefl _)
        · exact h.2
    unfold firsts
    split_ifs with h
    · rw [hxs, h]
      refine and_congr_right fun hne => ?_
      have hcx : c ≠ x.1 := fun he => hne (by rw [he])
      have hmem : ∀ t, (c, t) ∈ x :: rest ↔ (c, t) ∈ rest := fun t =>
        ⟨fun hm => (mem_cons.mp hm).resolve_left fun he => hcx (congrArg Prod.fst he), .tail _⟩
      simp only [hmem]
    · rw [mem_cons, hxs]
      by_cases hcx : c = x.1
      · subst hcx
        constructor
        · rintro (he | ⟨hne, -⟩)
          · have hs : s = x.2 := congrArg Prod.snd he
            rw [hs]
            exact ⟨h, mem_cons_self, hhead⟩
          · exact absurd rfl hne
        · rintro ⟨-, hm, hle⟩
          exact .inl (Prod.ext rfl (le_antisymm (hhead s hm) (hle x.2 mem_cons_self)))
      · have hmem : ∀ t, (c, t) ∈ x :: rest ↔ (c, t) ∈ rest := fun t =>
          ⟨fun hm => (mem_cons.mp hm).resolve_left fun he => hcx (congrArg Prod.fst he), .tail _⟩
        simp only [hmem]
        constructor
        · rintro (he | ⟨-, hm, hle⟩)
          · exact absurd (congrArg Prod.fst he) hcx
          · refine ⟨fun he => ?_, hm, hle⟩
            have h₁ := hxb c he
            rcases hcode _ hm with h₂ | h₂
            · exact absurd h₂ (not_lt.mpr h₁)
            · exact hcx h₂.1.symm
        · rintro ⟨-, hm, hle⟩
          exact .inr ⟨fun he => hcx (Option.some.inj he).symm, hm, hle⟩

omit [Field 𝕜] in
lemma firsts_lt (before : Option ℕ) (hs : l.Pairwise CodeOrder) :
    (firsts before l).Pairwise fun x y => x.1 < y.1 := by
  induction l generalizing before with
  | nil => exact List.Pairwise.nil
  | cons x rest ih =>
    obtain ⟨hx, hrest⟩ := pairwise_cons.mp hs
    have hge : ∀ y ∈ rest, x.1 ≤ y.1 := by
      intro y hy
      rcases Prod.Lex.toLex_le_toLex.mp (hx y hy) with h | h
      · exact h.le
      · exact h.1.le
    unfold firsts
    split_ifs
    · exact ih _ hrest
    · refine pairwise_cons.mpr ⟨fun y hy => ?_, ih _ hrest⟩
      have hmem := (mem_firsts hrest (fun b hb y hy => Option.some.inj hb ▸ hge y hy) y.1 y.2).mp hy
      exact lt_of_le_of_ne (hge y hmem.2.1) fun he => hmem.1 (by rw [he])

omit [Field 𝕜] [LinearOrder 𝕜] in
lemma code_joins {K : ℕ} {l : Link 𝕜} (ha : l.a < K) (hb : l.b < K) {lo hi : ℕ} (hlt : lo < hi)
    (hK : hi < K) : min l.a l.b * K + max l.a l.b = lo * K + hi ↔ l.Joins lo hi := by
  have hmax : max l.a l.b < K := max_lt ha hb
  have hdiv : ∀ u w, w < K → (u * K + w) / K = u ∧ (u * K + w) % K = w := by
    intro u w hw
    rw [Nat.mul_comm]
    constructor
    · rw [Nat.mul_add_div (by omega), Nat.div_eq_of_lt hw, Nat.add_zero]
    · rw [Nat.mul_add_mod, Nat.mod_eq_of_lt hw]
  unfold Link.Joins
  constructor
  · intro h
    have h₁ := (hdiv (min l.a l.b) _ hmax).1.symm.trans ((congrArg (· / K) h).trans (hdiv lo _ hK).1)
    have h₂ := (hdiv (min l.a l.b) _ hmax).2.symm.trans ((congrArg (· % K) h).trans (hdiv lo _ hK).2)
    omega
  · rintro (⟨rfl, rfl⟩ | ⟨rfl, rfl⟩)
    · rw [min_eq_left hlt.le, max_eq_right hlt.le]
    · rw [min_eq_right hlt.le, max_eq_left hlt.le]

/-- The saddles of the links between `u` and `w`. -/
def saddlesOf (links : List (Link 𝕜)) (u w : ℕ) : Set 𝕜 := {s | ∃ l ∈ links, l.Joins u w ∧ l.saddle = s}

def codedLinks (K : ℕ) (links : List (Link 𝕜)) : List (ℕ × 𝕜) :=
  (links.map fun l => (min l.a l.b * K + max l.a l.b, l.saddle)).insertionSort CodeOrder

section
omit [Field 𝕜]

lemma mem_codedLinks {K : ℕ} {links : List (Link 𝕜)} (c : ℕ) (s : 𝕜) : (c, s) ∈ codedLinks K links ↔
    ∃ l ∈ links, min l.a l.b * K + max l.a l.b = c ∧ l.saddle = s := by
  unfold codedLinks
  rw [mem_insertionSort, mem_map]
  simp only [Prod.mk.injEq]

lemma mem_pairs_code {K : ℕ} {links : List (Link 𝕜)} (e : ℕ × ℕ × 𝕜) : e ∈ pairs K links ↔
    ∃ c s, ((c, s) ∈ codedLinks K links ∧ ∀ t, (c, t) ∈ codedLinks K links → t ≤ s) ∧ (c / K, c % K, s) = e := by
  have hs : (codedLinks K links).Pairwise CodeOrder := pairwise_insertionSort _ _
  have hnone : ∀ b, none = some b → ∀ x ∈ codedLinks K links, b ≤ x.1 := fun b hb => nomatch hb
  have hmem := mem_firsts hs hnone
  unfold pairs
  rw [mem_map]
  constructor
  · rintro ⟨⟨c, s⟩, hm, he⟩
    exact ⟨c, s, ((hmem c s).mp hm).2, he⟩
  · rintro ⟨c, s, hm, he⟩
    exact ⟨(c, s), (hmem c s).mpr ⟨nofun, hm⟩, he⟩

lemma mem_pairs {K : ℕ} {links : List (Link 𝕜)} (hl : ∀ l ∈ links, l.a < K ∧ l.b < K ∧ l.a ≠ l.b)
    (e : ℕ × ℕ × 𝕜) : e ∈ pairs K links ↔ e.1 < e.2.1 ∧ e.2.1 < K ∧ IsGreatest (saddlesOf links e.1 e.2.1) e.2.2 := by
  have hcode : ∀ l ∈ links, ∀ lo hi, lo < hi → hi < K →
      (min l.a l.b * K + max l.a l.b = lo * K + hi ↔ l.Joins lo hi) := fun l hm lo hi h h' =>
    code_joins (hl l hm).1 (hl l hm).2.1 h h'
  rw [mem_pairs_code]
  constructor
  · rintro ⟨c, s, ⟨hm, hle⟩, rfl⟩
    obtain ⟨l, hlm, rfl, rfl⟩ := (mem_codedLinks c s).mp hm
    obtain ⟨ha, hb, hne⟩ := hl l hlm
    have hlt : min l.a l.b < max l.a l.b := by omega
    have hK : max l.a l.b < K := max_lt ha hb
    have hlo : (min l.a l.b * K + max l.a l.b) / K = min l.a l.b := by
      rw [Nat.mul_comm, Nat.mul_add_div (by omega), Nat.div_eq_of_lt hK, Nat.add_zero]
    have hhi : (min l.a l.b * K + max l.a l.b) % K = max l.a l.b := by
      rw [Nat.mul_comm, Nat.mul_add_mod, Nat.mod_eq_of_lt hK]
    simp only [hlo, hhi]
    refine ⟨hlt, hK, ⟨l, hlm, (hcode l hlm _ _ hlt hK).mp rfl, rfl⟩, ?_⟩
    rintro t ⟨l', hlm', hj, rfl⟩
    exact hle _ ((mem_codedLinks _ _).mpr ⟨l', hlm', (hcode l' hlm' _ _ hlt hK).mpr hj, rfl⟩)
  · obtain ⟨lo, hi, s⟩ := e
    rintro ⟨hlt, hK, ⟨l, hlm, hj, hs⟩, hle⟩
    refine ⟨lo * K + hi, s, ⟨?_, fun t ht => ?_⟩, ?_⟩
    · exact (mem_codedLinks _ _).mpr ⟨l, hlm, (hcode l hlm _ _ hlt hK).mpr hj, hs⟩
    · obtain ⟨l', hlm', hc, rfl⟩ := (mem_codedLinks _ _).mp ht
      exact hle ⟨l', hlm', (hcode l' hlm' _ _ hlt hK).mp hc, rfl⟩
    · rw [Nat.mul_comm, Nat.mul_add_div (by omega), Nat.div_eq_of_lt hK, Nat.add_zero, Nat.mul_add_mod, Nat.mod_eq_of_lt hK]

lemma pairs_once {K : ℕ} {links : List (Link 𝕜)} (hl : ∀ l ∈ links, l.a < K ∧ l.b < K ∧ l.a ≠ l.b) :
    (pairs K links).Pairwise fun e e' => s(e.1, e.2.1) ≠ s(e'.1, e'.2.1) := by
  have hs : (codedLinks K links).Pairwise CodeOrder := pairwise_insertionSort _ _
  have hcodes : (pairs K links).Pairwise fun e e' => e.1 * K + e.2.1 ≠ e'.1 * K + e'.2.1 := by
    unfold pairs
    rw [pairwise_map]
    refine (firsts_lt none hs).imp fun {x y} hlt => ?_
    rw [Nat.div_add_mod', Nat.div_add_mod']
    exact hlt.ne
  refine hcodes.imp_of_mem fun {e e'} he he' hne heq => hne ?_
  have h₁ := ((mem_pairs hl e).mp he).1
  have h₂ := ((mem_pairs hl e').mp he').1
  rcases Sym2.eq_iff.mp heq with ⟨h, h'⟩ | ⟨h, h'⟩
  · rw [h, h']
  · omega

end

/-- The saddles of the links between charts of the regions `u` and `w`. -/
def between (charts : List (Chart 𝕜)) (links : List (Link 𝕜)) (u w : ℕ) : Set 𝕜 :=
  {s | ∃ l ∈ links, ∃ x y, charts[l.a]? = some x ∧ charts[l.b]? = some y ∧
    (x.region = u ∧ y.region = w ∨ x.region = w ∧ y.region = u) ∧ l.saddle = s}

/-- `P` and `S` are the peaks and saddles of the regions of the charts. -/
structure Graph (charts : List (Chart 𝕜)) (links : List (Link 𝕜)) (P : Peaks ℕ 𝕜) (S : Saddles ℕ 𝕜) :
    Prop where
  symm : Merging.Symmetric S
  saddle : ∀ u w (s : 𝕜), S u w = s ↔ u ≠ w ∧ IsGreatest (between charts links u w) s
  value : ∀ r e x, Heads charts r e → charts[e]? = some x → P.value r = x.peak
  rank : ∀ r r' e e' x x', Heads charts r e → Heads charts r' e' → charts[e]? = some x →
    charts[e']? = some x' → x.seniority < x'.seniority → P.rank r < P.rank r'

section
variable {charts : List (Chart 𝕜)} {links : List (Link 𝕜)}

lemma View.crossing_eq (h : View charts links) : ∃ cross, crossing charts links = some cross ∧
    ∀ l', l' ∈ cross ↔ ∃ l ∈ links, ∃ x y, charts[l.a]? = some x ∧ charts[l.b]? = some y ∧
      x.region ≠ y.region ∧ l' = ⟨x.region, y.region, l.saddle⟩ := by
  have hends : ∀ l ∈ links, ∃ x y, charts[l.a]? = some x ∧ charts[l.b]? = some y := fun l hl =>
    ⟨_, _, List.getElem?_eq_getElem (h.ends l hl).1, List.getElem?_eq_getElem (h.ends l hl).2⟩
  let f : Link 𝕜 → Link 𝕜 := fun l =>
    ⟨(charts[l.a]?.map Chart.region).getD 0, (charts[l.b]?.map Chart.region).getD 0, l.saddle⟩
  have hmap : (links.mapM fun l => do
      let x ← charts[l.a]?
      let y ← charts[l.b]?
      some (⟨x.region, y.region, l.saddle⟩ : Link 𝕜)) = some (links.map f) := by
    refine mapM_some fun l hl => ?_
    obtain ⟨x, y, hx, hy⟩ := hends l hl
    simp [f, hx, hy]
  refine ⟨(links.map f).filter fun l => l.a ≠ l.b, ?_, fun l' => ?_⟩
  · unfold crossing
    rw [hmap]
    rfl
  · rw [mem_filter, mem_map]
    constructor
    · rintro ⟨⟨l, hl, rfl⟩, hne⟩
      obtain ⟨x, y, hx, hy⟩ := hends l hl
      refine ⟨l, hl, x, y, hx, hy, ?_, ?_⟩
      · simpa [f, hx, hy] using hne
      · simp [f, hx, hy]
    · rintro ⟨l, hl, x, y, hx, hy, hne, rfl⟩
      refine ⟨⟨l, hl, ?_⟩, ?_⟩
      · simp [f, hx, hy]
      · simpa using hne

omit [Field 𝕜] [LinearOrder 𝕜] in
lemma region_lt (hc : c ∈ charts) :
    c.region < (charts.map Chart.region).foldr max 0 + 1 :=
  Nat.lt_succ_of_le (le_max_of_le' 0 (mem_map_of_mem hc) le_rfl)

variable [IsStrictOrderedRing 𝕜]

/-- The sites of the regions `0..nR-1`. -/
def base (charts : List (Chart 𝕜)) (last : Chart 𝕜) : List (Site 𝕜) :=
  (List.range ((charts.map Chart.region).foldr max 0 + 1)).map (regionSite charts last)

lemma View.base_heads (h : View charts links) (last : Chart 𝕜)
    (he : Heads charts r e) (hx : charts[e]? = some x) : (base charts last)[r]? = some x.toSite := by
  obtain ⟨x', hx', hr, hle⟩ := he
  cases hx.symm.trans hx'
  have hin := mem_of_getElem? hx
  obtain ⟨e', he', hh⟩ := elderOf_spec charts hin hr
  have hlt := region_lt hin
  rw [hr] at hlt
  cases hh.unique h ⟨x, hx, hr, hle⟩
  unfold base
  rw [List.getElem?_map, List.getElem?_range hlt, Option.map_some, h.regionSite_eq last he' hh hx]

section
omit [IsStrictOrderedRing 𝕜] [Field 𝕜] [LinearOrder 𝕜]

lemma between_comm (u w : ℕ) : between charts links u w = between charts links w u := by
  unfold between
  simp only [or_comm]

lemma saddlesOf_crossing {cross : List (Link 𝕜)} (hmem : ∀ l', l' ∈ cross ↔ ∃ l ∈ links, ∃ x y,
    charts[l.a]? = some x ∧ charts[l.b]? = some y ∧ x.region ≠ y.region ∧
      l' = ⟨x.region, y.region, l.saddle⟩) (hne : u ≠ w) :
    saddlesOf cross u w = between charts links u w := by
  ext s
  constructor
  · rintro ⟨l', hl', hj, rfl⟩
    obtain ⟨l, hl, x, y, hx, hy, -, rfl⟩ := (hmem l').mp hl'
    exact ⟨l, hl, x, y, hx, hy, hj, rfl⟩
  · rintro ⟨l, hl, x, y, hx, hy, hj, rfl⟩
    have hxy : x.region ≠ y.region := by
      rcases hj with ⟨rfl, rfl⟩ | ⟨rfl, rfl⟩
      · exact hne
      · exact hne.symm
    exact ⟨_, (hmem _).mpr ⟨l, hl, x, y, hx, hy, hxy, rfl⟩, hj, rfl⟩

lemma between_lt {s : 𝕜} (h : s ∈ between charts links u w) :
    u < (charts.map Chart.region).foldr max 0 + 1 ∧ w < (charts.map Chart.region).foldr max 0 + 1 := by
  obtain ⟨l, -, x, y, hx, hy, hj, -⟩ := h
  have hxlt := region_lt (mem_of_getElem? hx)
  have hylt := region_lt (mem_of_getElem? hy)
  rcases hj with ⟨rfl, rfl⟩ | ⟨rfl, rfl⟩
  · exact ⟨hxlt, hylt⟩
  · exact ⟨hylt, hxlt⟩

end

lemma View.levels_eq (h : View charts links) (TOL : 𝕜) (last : Chart 𝕜) :
    ∃ cross P S tree T, crossing charts links = some cross ∧ Graph charts links P S ∧
      Greedy P ⊤ S tree T ∧ (∀ m ∈ tree, m.2.1 < (base charts last).length) ∧
      (∀ tau : 𝕜, ∃ T, Greedy P (threshold TOL tau) S (applied TOL tree (some tau)) T) ∧
      ∀ fuel tau_base, levels TOL fuel (base charts last) cross tau_base =
        climb TOL tau_base (base charts last).length tree fuel tau_base := by
  obtain ⟨cross, hcross, hmem⟩ := h.crossing_eq
  have hlen : (base charts last).length = (charts.map Chart.region).foldr max 0 + 1 := by
    simp [base]
  have hends : ∀ l ∈ cross, l.a < (base charts last).length ∧ l.b < (base charts last).length ∧ l.a ≠ l.b := by
    intro l hl
    obtain ⟨l, -, x, y, hx, hy, hne, rfl⟩ := (hmem l).mp hl
    rw [hlen]
    exact ⟨region_lt (mem_of_getElem? hx), region_lt (mem_of_getElem? hy), hne⟩
  set K := (base charts last).length with hK
  set peakv : PerRegion 𝕜 := .array ((base charts last).map Site.peak) with hpeakv
  set peakr : PerRegion ℕ :=
    .array ((List.range K).map fun i => (lexsort (base charts last)).idxOf i) with hpeakr
  have hvalue : ∀ r, r < K → peakv.get r = ((base charts last)[r]?).map Site.peak := fun r _ =>
    List.getElem?_map
  have hrank : ∀ r, r < K → peakr.get r = some ((lexsort (base charts last)).idxOf r) := by
    intro r hr
    change ((List.range K).map _)[r]? = _
    rw [List.getElem?_map, List.getElem?_range hr, Option.map_some]
  have hknown : ∀ r, r < K → ∃ v, peakv.get r = some v := fun r hr => by
    rw [hvalue r hr, List.getElem?_eq_getElem hr]
    exact ⟨_, rfl⟩
  have hlt : ∀ r v, peakv.get r = some v → r < K := by
    intro r v hv
    have := lt_of_getElem? (t := (base charts last).map Site.peak) hv
    rwa [length_map] at this
  have hR : Regions peakv peakr (pairs K cross) := by
    refine ⟨fun r v hv => ⟨_, hrank r (hlt r v hv)⟩, fun e he => ?_, fun e he => ?_, pairs_once hends⟩
    · obtain ⟨h₁, h₂, -⟩ := (mem_pairs hends e).mp he
      exact ⟨hknown _ (h₁.trans h₂), hknown _ h₂⟩
    · exact ((mem_pairs hends e).mp he).1.ne
  obtain ⟨tree, T, htree, hg⟩ := mergeTree_greedy TOL 0 hR ⊤
  have hS := saddleOf_symmetric hR
  refine ⟨cross, peaksOf 0 peakv peakr, saddleOf (pairs K cross), tree, T, hcross, ?_, hg,
    lt_of_merge 0 hR hlt hg, fun tau => ?_, fun fuel tau_base => ?_⟩
  · refine ⟨hS, fun u w s => ?_, fun r e x he hx => ?_, fun r r' e e' x x' he he' hx hx' hlt => ?_⟩
    · have hpair : ∀ u w, (u, w, s) ∈ pairs K cross ↔ u < w ∧ IsGreatest (between charts links u w) s := by
        intro u w
        rw [mem_pairs hends]
        constructor
        · rintro ⟨hlt, -, hs⟩
          exact ⟨hlt, saddlesOf_crossing hmem hlt.ne ▸ hs⟩
        · rintro ⟨hlt, hs⟩
          exact ⟨hlt, hlen ▸ (between_lt hs.1).2, (saddlesOf_crossing hmem hlt.ne).symm ▸ hs⟩
      rw [saddleOf_eq hR, Adjacent, hpair, hpair, between_comm w u, ← or_and_right, ne_iff_lt_or_gt]
    · have hb := h.base_heads last he hx
      have hr : r < K := lt_of_getElem? hb
      simp only [peaksOf, hvalue r hr, hb, Option.map_some, Option.getD_some]
    · have hb := h.base_heads last he hx
      have hb' := h.base_heads last he' hx'
      have hr : r < K := lt_of_getElem? hb
      have hr' : r' < K := lt_of_getElem? hb'
      simp only [peaksOf, hrank r hr, hrank r' hr', Option.getD_some]
      exact rank_lt hb hb' hlt
  · obtain ⟨out, T', hout, hg'⟩ := mergeTree_greedy TOL 0 hR (tau : WithTop 𝕜)
    have hcut := hg'.takeWhile hg le_top hS
    refine ⟨T', ?_⟩
    rw [← hcut] at hg'
    exact hg'
  · unfold levels
    rw [if_neg]
    · change (mergeTree TOL peakv peakr (pairs K cross) ⊤).bind _ = _
      rw [htree, Option.bind_some]
    · intro hnil
      have hpos : 0 < K := by omega
      rw [hK, hnil] at hpos
      exact absurd hpos (lt_irrefl 0)

end

section
variable [IsStrictOrderedRing 𝕜] {TOL tau_base : 𝕜} {K : ℕ} {tree : List (Merge ℕ 𝕜)}

def cut (TOL : 𝕜) (tree : List (Merge ℕ 𝕜)) (tau : 𝕜) : List (Merge ℕ 𝕜) := applied TOL tree (some tau)

omit [IsStrictOrderedRing 𝕜] in
lemma cut_eq (TOL : 𝕜) (tree : List (Merge ℕ 𝕜)) (tau : 𝕜) : cut TOL tree tau =
    tree.takeWhile fun m => decide (Below (threshold TOL (tau : WithTop 𝕜)) m.1) := rfl

omit [IsStrictOrderedRing 𝕜] in
lemma cut_sublist (TOL : 𝕜) (tree : List (Merge ℕ 𝕜)) (tau : 𝕜) : cut TOL tree tau <+: tree :=
  List.takeWhile_prefix _

def rungs (TOL : 𝕜) (tree : List (Merge ℕ 𝕜)) (tau : 𝕜) (n : ℕ) : List (List (Merge ℕ 𝕜)) :=
  (List.range n).map fun i => cut TOL tree (tau * 2 ^ (i + 1))

variable {m : Merge ℕ 𝕜}

section
omit [IsStrictOrderedRing 𝕜]

lemma survivors_cut (hone : Once tree) (hK : ∀ m ∈ tree, m.2.1 < K) (tau : 𝕜) :
    survivors TOL K tree (some tau) = some ((List.range K).map (survivor (cut TOL tree tau))) :=
  survivors_eq TOL tree (some (tau : WithTop 𝕜)) rfl (cut_sublist TOL tree tau).length_le
    (hone.sublist (cut_sublist TOL tree tau).sublist) fun m hm => hK m ((cut_sublist TOL tree tau).subset hm)

lemma rungs_succ (tau : 𝕜) (n : ℕ) :
    rungs TOL tree tau (n + 1) = cut TOL tree (tau * 2) :: rungs TOL tree (tau * 2) n := by
  unfold rungs
  rw [range_succ_eq_map, map_cons, map_map, zero_add, pow_one]
  refine congrArg _ (map_congr_left fun i _ => ?_)
  simp only [Function.comp_apply, Nat.succ_eq_add_one, pow_succ' _ (i + 1), mul_assoc]

lemma climb_rungs (hone : Once tree) (hK : ∀ m ∈ tree, m.2.1 < K)
    (hm : tree.getLast? = some m) (hge : tau_base - TOL ≤ m.1) (j : ℕ) (tau : 𝕜)
    (hj : m.1 < tau * 2 ^ (j + 1) - TOL) : ∃ n, 0 < n ∧ m.1 < tau * 2 ^ n - TOL ∧
      ∀ fuel, climb TOL tau_base K tree fuel tau =
        if n ≤ fuel then some ((rungs TOL tree tau n).map fun c => (List.range K).map (survivor c))
        else none := by
  have hlast : ∀ tau, m.1 < tau * 2 - TOL → ∃ n, 0 < n ∧ m.1 < tau * 2 ^ n - TOL ∧
      ∀ fuel, climb TOL tau_base K tree fuel tau =
        if n ≤ fuel then some ((rungs TOL tree tau n).map fun c => (List.range K).map (survivor c))
        else none := by
    refine fun tau hend => ⟨1, one_pos, by rwa [pow_one], fun fuel => ?_⟩
    cases fuel with
    | zero => rfl
    | succ fuel =>
      unfold climb
      simp only [hm, if_pos hge, survivors_cut hone hK, Option.bind_eq_bind, Option.bind_some, if_pos hend]
      rw [if_pos (by omega), rungs_succ]
      rfl
  induction j generalizing tau with
  | zero =>
    rw [zero_add, pow_one] at hj
    exact hlast tau hj
  | succ j ih =>
    by_cases hend : m.1 < tau * 2 - TOL
    · exact hlast tau hend
    · obtain ⟨n, hn, hlt, hrun⟩ := ih (tau * 2) (by rwa [mul_assoc, ← pow_succ'])
      refine ⟨n + 1, Nat.succ_pos n, by rwa [pow_succ', ← mul_assoc], fun fuel => ?_⟩
      cases fuel with
      | zero => rfl
      | succ fuel =>
        unfold climb
        simp only [hm, if_pos hge, survivors_cut hone hK, Option.bind_eq_bind, Option.bind_some, if_neg hend,
          hrun, Nat.add_le_add_iff_right, rungs_succ, map_cons]
        split_ifs <;> rfl

end

lemma cut_mono (tree : List (Merge ℕ 𝕜)) {tau tau' : 𝕜} (h : tau ≤ tau') :
    cut TOL tree tau <+: cut TOL tree tau' := by
  have hle : (threshold TOL tau : WithTop 𝕜) ≤ threshold TOL tau' :=
    WithTop.coe_le_coe.mpr (sub_le_sub_right h TOL)
  rw [cut_eq, cut_eq]
  induction tree with
  | nil => exact prefix_rfl
  | cons m rest ih =>
    by_cases hm : Below (threshold TOL tau) m.1
    · have hm' : Below (threshold TOL tau') m.1 := lt_of_lt_of_le hm hle
      rw [takeWhile_cons_of_pos (by simpa using hm), takeWhile_cons_of_pos (by simpa using hm')]
      exact (prefix_cons_inj m).mpr ih
    · rw [takeWhile_cons_of_neg (by simpa using hm)]
      exact nil_prefix

omit [Field 𝕜] [IsStrictOrderedRing 𝕜] in
lemma le_last (hm : tree.getLast? = some m) (hs : (tree.map Prod.fst).Pairwise (· ≤ ·)) :
    ∀ m' ∈ tree, m'.1 ≤ m.1 := by
  intro m' hm'
  obtain ⟨rest, rfl⟩ := List.getLast?_eq_some_iff.mp hm
  rcases mem_append.mp hm' with h | h
  · rw [map_append, pairwise_append] at hs
    exact hs.2.2 _ (mem_map_of_mem h) _ (by simp)
  · rw [mem_singleton.mp h]

omit [IsStrictOrderedRing 𝕜] in
lemma cut_all (hm : tree.getLast? = some m) {tau : 𝕜}
    (hs : (tree.map Prod.fst).Pairwise (· ≤ ·)) (hlt : m.1 < tau - TOL) : cut TOL tree tau = tree := by
  rw [cut_eq]
  refine takeWhile_eq_self_iff.mpr fun m' hm' => decide_eq_true (WithTop.coe_lt_coe.mpr ?_)
  exact (le_last hm hs m' hm').trans_lt hlt

lemma climb_spec [Archimedean 𝕜] (K : ℕ) (hone : Once tree) (hK : ∀ m ∈ tree, m.2.1 < K)
    (hs : (tree.map Prod.fst).Pairwise (· ≤ ·)) (ht : 0 < tau_base) :
    ∃ n, (n = 0 ↔ ∀ m ∈ tree, m.1 < tau_base - TOL) ∧ (0 < n → cut TOL tree (tau_base * 2 ^ n) = tree) ∧
      ∀ fuel, climb TOL tau_base K tree fuel tau_base = if max n 1 ≤ fuel then
        some ((rungs TOL tree tau_base n).map fun c => (List.range K).map (survivor c)) else none := by
  cases hm : tree.getLast? with
  | none =>
    have hnil := List.getLast?_eq_none_iff.mp hm
    subst hnil
    refine ⟨0, by simp, by simp, fun fuel => ?_⟩
    cases fuel <;> rfl
  | some m =>
    have hin := mem_of_getLast? hm
    by_cases hge : tau_base - TOL ≤ m.1
    · obtain ⟨j, hj⟩ := pow_unbounded_of_one_lt ((m.1 + TOL) / tau_base) (one_lt_two (α := 𝕜))
      have hj' : m.1 < tau_base * 2 ^ (j + 1) - TOL := by
        rw [div_lt_iff₀ ht] at hj
        rw [pow_succ]
        nlinarith [pow_pos (zero_lt_two (α := 𝕜)) j, mul_pos ht (pow_pos (zero_lt_two (α := 𝕜)) j)]
      obtain ⟨n, hn, hlt, hrun⟩ := climb_rungs hone hK hm hge j tau_base hj'
      refine ⟨n, iff_of_false hn.ne' fun hall => not_lt.mpr hge (hall m hin), fun _ => cut_all hm hs hlt, fun fuel => ?_⟩
      rw [hrun, max_eq_left hn]
    · have hlt := not_le.mp hge
      have hall : ∀ m' ∈ tree, m'.1 < tau_base - TOL := fun m' hm' =>
        (le_last hm hs m' hm').trans_lt hlt
      refine ⟨0, iff_of_true rfl hall, by simp, fun fuel => ?_⟩
      cases fuel with
      | zero => rfl
      | succ fuel =>
        unfold climb
        simp only [hm, if_neg hge]
        rw [if_pos (by omega)]
        rfl

end

section
variable {charts : List (Chart 𝕜)} {links : List (Link 𝕜)} {P : Peaks ℕ 𝕜} {S : Saddles ℕ 𝕜}

def Present (charts : List (Chart 𝕜)) : Set ℕ := {r | ∃ c ∈ charts, c.region = r}

omit [Field 𝕜] in
lemma Graph.ends (g : Graph charts links P S) : ∀ a b, S a b ≠ ⊥ → a ∈ Present charts ∧ b ∈ Present charts := by
  intro a b hab
  obtain ⟨s, hs⟩ := WithBot.ne_bot_iff_exists.mp hab
  obtain ⟨-, ⟨l, -, x, y, hx, hy, hj, -⟩, -⟩ := (g.saddle a b s).mp hs.symm
  have hxin : x.region ∈ Present charts := ⟨x, mem_of_getElem? hx, rfl⟩
  have hyin : y.region ∈ Present charts := ⟨y, mem_of_getElem? hy, rfl⟩
  rcases hj with ⟨rfl, rfl⟩ | ⟨rfl, rfl⟩
  · exact ⟨hxin, hyin⟩
  · exact ⟨hyin, hxin⟩

variable {x' : Chart 𝕜}

lemma Graph.senior (h : View charts links) (g : Graph charts links P S)
    (he : Heads charts u e) (he' : Heads charts w e') (hx : charts[e]? = some x)
    (hx' : charts[e']? = some x') : Senior P u w ↔ x.seniority ≤ x'.seniority := by
  have hv := g.value u e x he hx
  have hv' := g.value w e' x' he' hx'
  unfold Senior
  rw [hv, hv']
  rcases lt_trichotomy x.seniority x'.seniority with hlt | heq | hgt
  · refine iff_of_true ?_ hlt.le
    rcases (peak_le_of_seniority hlt.le).lt_or_eq with hp | hp
    · exact .inl hp
    · exact .inr ⟨hp.symm, (g.rank u w e e' x x' he he' hx hx' hlt).le⟩
  · refine iff_of_true (.inr ⟨(seniority_injective heq).1, ?_⟩) heq.le
    cases h.same hx hx' heq
    cases hx.symm.trans hx'
    obtain ⟨y, hy, hr, -⟩ := he
    obtain ⟨y', hy', hr', -⟩ := he'
    cases hy.symm.trans hx
    cases hy'.symm.trans hx
    rw [← hr, ← hr']
  · refine iff_of_false ?_ (not_le.mpr hgt)
    rintro (hp | ⟨-, hr⟩)
    · exact absurd hp (not_lt.mpr (peak_le_of_seniority hgt.le))
    · exact absurd hr (not_le.mpr (g.rank w u e' e x' x he' he hx' hx hgt))

lemma Graph.above (h : View charts links) (g : Graph charts links P S)
    (he : Heads charts u e) (he' : Heads charts w e') (hx : charts[e]? = some x)
    (hx' : charts[e']? = some x') : Above P u w ↔ x.seniority < x'.seniority := by
  rw [← not_senior, g.senior h he' he hx' hx, not_le]

omit [Field 𝕜] in
lemma exists_heads (h : r ∈ Present charts) :
    ∃ e x, elderOf charts r = some e ∧ Heads charts r e ∧ charts[e]? = some x := by
  obtain ⟨c, hc, hr⟩ := h
  obtain ⟨e, he, hh⟩ := elderOf_spec charts hc hr
  obtain ⟨x, hx, -⟩ := id hh
  exact ⟨e, x, he, hh, hx⟩

lemma Graph.rank_injOn (h : View charts links) (g : Graph charts links P S) :
    Set.InjOn P.rank (Present charts) := by
  intro u hu w hw heq
  obtain ⟨e, x, -, he, hx⟩ := exists_heads hu
  obtain ⟨e', x', -, he', hx'⟩ := exists_heads hw
  rcases lt_trichotomy x.seniority x'.seniority with hlt | hxx | hgt
  · exact absurd heq (g.rank u w e e' x x' he he' hx hx' hlt).ne
  · cases h.same hx hx' hxx
    obtain ⟨y, hy, hr, -⟩ := he
    obtain ⟨y', hy', hr', -⟩ := he'
    cases hy.symm.trans hy'
    rw [← hr, ← hr']
  · exact absurd heq (g.rank w u e' e x' x he' he hx' hx hgt).ne'

end

end CloudServer.ChartLevels
