import CloudServer.Arcs

/-! Runs of equal keys, pairs of equal keys, and the corners an arc continues through. -/
namespace CloudServer.Arcs
open Planes List

section
variable {α : Type} {key : α → ℕ} {l : List α} {b b' : List α}

lemma block_ne (hb : b ∈ blocks key l) : b ≠ [] := ne_nil_of_mem_splitBy hb

lemma mem_blocks (x : α) : x ∈ l ↔ ∃ b ∈ blocks key l, x ∈ b := by
  conv_lhs => rw [← flatten_splitBy (fun x y => key x == key y) l]
  exact mem_flatten

lemma block_key (hb : b ∈ blocks key l) {x y : α} (hx : x ∈ b) (hy : y ∈ b) : key x = key y := by
  have hchain := isChain_of_mem_splitBy hb
  have htrans : IsTrans α fun x y => (key x == key y) = true := ⟨fun x y z hxy hyz => by
    rw [beq_iff_eq] at *
    exact hxy.trans hyz⟩
  have hpair : b.Pairwise fun x y => key x = key y :=
    (isChain_iff_pairwise.mp hchain).imp fun h => beq_iff_eq.mp h
  have hsymm : Std.Symm fun x y : α => key x = key y := ⟨fun x y h => h.symm⟩
  exact List.Pairwise.forall_of_forall (R := fun x y => key x = key y) (fun x _ => rfl) hpair hx hy

lemma block_sorted {r : α → α → Prop} (hl : l.Pairwise r) (hb : b ∈ blocks key l) : b.Pairwise r := by
  rw [← flatten_splitBy (fun x y => key x == key y) l] at hl
  exact (pairwise_flatten.mp hl).1 b hb

lemma increase {L : List (List α)} (hle : L.Pairwise fun b b' => ∀ x ∈ b, ∀ y ∈ b', key x ≤ key y)
    (hnext : L.IsChain fun b b' => ∃ ha hb, (key (b.getLast ha) == key (b'.head hb)) = false)
    (hkey : ∀ b ∈ L, ∀ x ∈ b, ∀ y ∈ b, key x = key y) :
    L.Pairwise fun b b' => ∀ x ∈ b, ∀ y ∈ b', key x < key y := by
  induction L with
  | nil => exact List.Pairwise.nil
  | cons b L ih =>
    obtain ⟨hb, hrest⟩ := pairwise_cons.mp hle
    refine pairwise_cons.mpr ⟨?_, ih hrest hnext.tail fun c hc => hkey c (mem_cons_of_mem _ hc)⟩
    intro c hc x hx y hy
    cases L with
    | nil => cases hc
    | cons d L =>
      obtain ⟨⟨hbn, hdn, hne⟩, -⟩ := isChain_cons_cons.mp hnext
      have hlast := hkey b mem_cons_self x hx _ (getLast_mem hbn)
      have hlt : key (b.getLast hbn) < key (d.head hdn) :=
        lt_of_le_of_ne (hb d mem_cons_self _ (getLast_mem hbn) _ (head_mem hdn))
          fun he => by simp [he] at hne
      have hhead : key (d.head hdn) ≤ key y := by
        rcases mem_cons.mp hc with rfl | hc
        · exact (hkey c (by simp) _ (head_mem hdn) y hy).le
        · exact (pairwise_cons.mp hrest).1 c hc _ (head_mem hdn) y hy
      omega

lemma blocks_increase (hl : l.Pairwise fun x y => key x ≤ key y) :
    (blocks key l).Pairwise fun b b' => ∀ x ∈ b, ∀ y ∈ b', key x < key y := by
  have hnext := isChain_getLast_head_splitBy (fun x y => key x == key y) l
  rw [← flatten_splitBy (fun x y => key x == key y) l] at hl
  exact increase (pairwise_flatten.mp hl).2 hnext fun b hb x hx y hy => block_key hb hx hy

lemma block_unique (hl : l.Pairwise fun x y => key x ≤ key y) (hb : b ∈ blocks key l)
    (hb' : b' ∈ blocks key l) {x y : α} (hx : x ∈ b) (hy : y ∈ b') (he : key x = key y) : b = b' := by
  by_contra hne
  have hsymm : Std.Symm fun b b' : List α => ∀ x ∈ b, ∀ y ∈ b', key x ≠ key y :=
    ⟨fun b b' h x hx y hy => (h y hy x hx).symm⟩
  have hapart := (blocks_increase hl).imp (S := fun b b' => ∀ x ∈ b, ∀ y ∈ b', key x ≠ key y)
    fun h x hx y hy => (h x hx y hy).ne
  exact hapart.forall hb hb' hne x hx y hy he

lemma mem_block (hl : l.Pairwise fun x y => key x ≤ key y) (hb : b ∈ blocks key l) {x y : α}
    (hx : x ∈ b) : y ∈ b ↔ y ∈ l ∧ key y = key x := by
  constructor
  · intro hy
    exact ⟨(mem_blocks y).mpr ⟨b, hb, hy⟩, block_key hb hy hx⟩
  · rintro ⟨hy, he⟩
    obtain ⟨b', hb', hy'⟩ := (mem_blocks y).mp hy
    exact block_unique hl hb hb' hx hy' he.symm ▸ hy'

end

section
variable {α 𝕜 : Type} [LinearOrder 𝕜]

lemma largest_spec (v : α → 𝕜) (x : α) (b : List α) (hx : x ∈ b) :
    IsGreatest {t | ∃ y ∈ b, v y = t} (largest v x b) := by
  have hle : ∀ y ∈ b, v y ≤ largest v x b := by
    intro y hy
    unfold largest
    clear hx
    induction b with
    | nil => cases hy
    | cons z b ih =>
      rw [foldr_cons]
      rcases mem_cons.mp hy with rfl | hy
      · exact le_max_left _ _
      · exact (ih hy).trans (le_max_right _ _)
  have hmem : ∃ y ∈ x :: b, v y = largest v x b := by
    unfold largest
    clear hx hle
    induction b with
    | nil => exact ⟨x, by simp, rfl⟩
    | cons z b ih =>
      rw [foldr_cons]
      obtain ⟨y, hy, he⟩ := ih
      rcases max_choice (v z) (b.foldr (fun y m => max (v y) m) (v x)) with h | h
      · exact ⟨z, by simp, h.symm⟩
      · refine ⟨y, ?_, he.trans h.symm⟩
        rcases mem_cons.mp hy with rfl | hy
        · simp
        · simp [hy]
  refine ⟨?_, fun t ⟨y, hy, he⟩ => he ▸ hle y hy⟩
  obtain ⟨y, hy, he⟩ := hmem
  rcases mem_cons.mp hy with rfl | hy
  · exact ⟨y, hx, he⟩
  · exact ⟨y, hy, he⟩

end

section
variable {α : Type} {key : α → ℕ}

lemma twos_spec {l : List α} (hs : l.Pairwise fun x y => key x ≤ key y) (h2 : ∀ x ∈ l, (l.map key).count (key x) = 2) :
    (∀ e ∈ twos l, e.1 ∈ l ∧ e.2 ∈ l ∧ key e.1 = key e.2) ∧
      ∀ x ∈ l, ∀ y ∈ l, key x = key y → x = y ∨ (x, y) ∈ twos l ∨ (y, x) ∈ twos l := by
  induction l using twos.induct with
  | case1 a b rest ih =>
    obtain ⟨ha, htail⟩ := pairwise_cons.mp hs
    obtain ⟨hb, hrest⟩ := pairwise_cons.mp htail
    have hcount := h2 a (by simp)
    rw [map_cons, count_cons_self] at hcount
    have hmem : key a ∈ (b :: rest).map key := count_pos_iff.mp (by omega)
    obtain ⟨c, hc, hca⟩ := mem_map.mp hmem
    have hab : key b = key a := by
      refine le_antisymm ?_ (ha b (by simp))
      rcases mem_cons.mp hc with rfl | hc
      · exact hca.le
      · exact hca ▸ hb c hc
    have hzero : (rest.map key).count (key a) = 0 := by
      rw [map_cons, hab, count_cons_self] at hcount
      omega
    have hnot : ∀ x ∈ rest, key x ≠ key a := fun x hx he =>
      count_eq_zero.mp hzero (he ▸ mem_map_of_mem hx)
    have hrest2 : ∀ x ∈ rest, (rest.map key).count (key x) = 2 := by
      intro x hx
      have hx2 := h2 x (by simp [hx])
      have hne := hnot x hx
      rwa [map_cons, map_cons, hab, count_cons_of_ne hne.symm, count_cons_of_ne hne.symm] at hx2
    obtain ⟨hsound, hcomplete⟩ := ih hrest hrest2
    constructor
    · intro e he
      rcases mem_cons.mp he with rfl | he
      · exact ⟨by simp, by simp, hab.symm⟩
      · obtain ⟨h1, h2, h3⟩ := hsound e he
        exact ⟨by simp [h1], by simp [h2], h3⟩
    · intro x hx y hy hxy
      simp only [mem_cons, twos] at hx hy ⊢
      rcases hx with rfl | rfl | hx <;> rcases hy with rfl | rfl | hy
      all_goals try simp only [true_or, or_true]
      · exact absurd hxy.symm (hnot y hy)
      · exact absurd (hxy.symm.trans hab) (hnot y hy)
      · exact absurd hxy (hnot x hx)
      · exact absurd (hxy.trans hab) (hnot x hx)
      · rcases hcomplete x hx y hy hxy with h | h | h
        · exact Or.inl h
        · exact Or.inr (Or.inl (Or.inr h))
        · exact Or.inr (Or.inr (Or.inr h))
  | case2 l hl =>
    cases l with
    | nil => simp [twos]
    | cons a l =>
      cases l with
      | nil => exact absurd (h2 a (by simp)) (by simp)
      | cons b l => exact (hl a b l rfl).elim

end

end CloudServer.Arcs
