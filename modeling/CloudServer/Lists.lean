import Mathlib

/-! Lists in the strict order of a key, the stable sort by a key, and lists mapped by a function that may
fail. -/
namespace CloudServer.KeySort

open List

section
variable {α κ : Type*} [LinearOrder κ] {f : α → κ} {l s : List α}

lemma ordered_nodup (h : s.Pairwise fun a b => f a < f b) : s.Nodup :=
  h.imp fun hlt heq => (heq ▸ hlt).false

lemma ordered_unique (hl : l.Pairwise fun a b => f a < f b) (hs : s.Pairwise fun a b => f a < f b)
    (hmem : ∀ a, a ∈ l ↔ a ∈ s) : l = s :=
  ((perm_ext_iff_of_nodup (ordered_nodup hl) (ordered_nodup hs)).mpr hmem).eq_of_pairwise
    (fun _ _ _ _ hab hba => (lt_asymm hab hba).elim) hl hs

lemma sort_pairwise (f : α → κ) (l : List α) :
    (l.insertionSort fun a b => f a ≤ f b).Pairwise fun a b => f a ≤ f b := by
  have : Std.Total fun a b => f a ≤ f b := ⟨fun a b => le_total (f a) (f b)⟩
  have : IsTrans α fun a b => f a ≤ f b := ⟨fun _ _ _ => le_trans⟩
  exact pairwise_insertionSort _ l

end

section
variable {α κ : Type*} [LinearOrder α] [LinearOrder κ]

/-- In the order of the key, and of the items themselves where the keys are equal. -/
def Stable (f : α → κ) (a b : α) : Prop := f a < f b ∨ f a = f b ∧ a < b

lemma stable_sort (f : α → κ) {l : List α} (h : l.Pairwise (· < ·)) :
    (l.insertionSort fun a b => f a ≤ f b).Pairwise (Stable f) := by
  have hinsert : ∀ (a : α) (s : List α), s.Pairwise (Stable f) → (∀ b ∈ s, a < b) →
      (s.orderedInsert (fun a b => f a ≤ f b) a).Pairwise (Stable f) := by
    intro a s
    induction s with
    | nil => exact fun _ _ => pairwise_singleton _ _
    | cons b s ih =>
      intro hs hlt
      obtain ⟨hb, hs⟩ := pairwise_cons.mp hs
      rw [orderedInsert_cons]
      split_ifs with hab
      · refine pairwise_cons.mpr ⟨fun c hc => ?_, pairwise_cons.mpr ⟨hb, hs⟩⟩
        have hac : f a ≤ f c := by
          rcases mem_cons.mp hc with rfl | hc
          · exact hab
          · exact hab.trans ((hb c hc).elim le_of_lt fun he => he.1.le)
        exact hac.lt_or_eq.imp id fun he => ⟨he, hlt c hc⟩
      · refine pairwise_cons.mpr ⟨fun c hc => ?_, ih hs fun c hc => hlt c (mem_cons_of_mem b hc)⟩
        rcases (mem_orderedInsert _).mp hc with rfl | hc
        · exact .inl (not_le.mp hab)
        · exact hb c hc
  induction h with
  | nil => exact .nil
  | cons hlt _ ih =>
    rw [insertionSort_cons]
    exact hinsert _ _ ih fun b hb => hlt b ((mem_insertionSort _).mp hb)

end
end CloudServer.KeySort

namespace CloudServer

open List

variable {α β γ : Type}

lemma mapM_mem {f : α → Option β} {l : List α} {l' : List β} (h : l.mapM f = some l') :
    (∀ a ∈ l, ∃ b ∈ l', f a = some b) ∧ ∀ b ∈ l', ∃ a ∈ l, f a = some b := by
  induction l generalizing l' with
  | nil =>
    cases h
    simp
  | cons a rest ih =>
    rw [mapM_cons] at h
    obtain ⟨b, hb, h⟩ := Option.bind_eq_some_iff.mp h
    obtain ⟨bs, hbs, h⟩ := Option.bind_eq_some_iff.mp h
    cases h
    obtain ⟨h₁, h₂⟩ := ih hbs
    constructor
    · refine forall_mem_cons.mpr ⟨⟨b, mem_cons_self, hb⟩, fun a ha => ?_⟩
      obtain ⟨b, hb, he⟩ := h₁ a ha
      exact ⟨b, .tail _ hb, he⟩
    · refine forall_mem_cons.mpr ⟨⟨a, mem_cons_self, hb⟩, fun b hb => ?_⟩
      obtain ⟨a, ha, he⟩ := h₂ b hb
      exact ⟨a, .tail _ ha, he⟩

lemma exists_mapM {f : α → Option β} {l : List α} (h : ∀ a ∈ l, ∃ b, f a = some b) :
    ∃ l', l.mapM f = some l' := by
  induction l with
  | nil => exact ⟨[], rfl⟩
  | cons a rest ih =>
    obtain ⟨b, hb⟩ := h a mem_cons_self
    obtain ⟨bs, hbs⟩ := ih fun a ha => h a (.tail _ ha)
    exact ⟨b :: bs, by rw [mapM_cons, hb, hbs]; rfl⟩

lemma mapM_map_some {l : List α} {f : α → β} {F : β → Option γ} {G : α → γ}
    (h : ∀ x ∈ l, F (f x) = some (G x)) : (l.map f).mapM F = some (l.map G) := by
  induction l with
  | nil => rfl
  | cons x rest ih =>
    rw [map_cons, mapM_cons, h x mem_cons_self, ih fun y hy => h y (.tail _ hy)]
    rfl

lemma mapM_some {f : α → Option β} {g : α → β} {l : List α} (h : ∀ x ∈ l, f x = some (g x)) :
    l.mapM f = some (l.map g) := by
  have hmap := mapM_map_some h (f := id)
  rwa [map_id] at hmap

end CloudServer
