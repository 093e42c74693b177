import Mathlib

/-! Things with the import that inserted them, and what the imports remember of what they inserted,
at a grain that may be coarser than a thing. -/
namespace CloudServer.Provenance

inductive Origin (ι : Type)
  | imported (id : ι)
  | other (started : List ι)
deriving DecidableEq

/-- The undo of the import has to leave the thing: it was there before, or it is another import's. -/
def Spared {ι : Type} (x : ι) : Origin ι → Prop
  | .imported y => y ≠ x
  | .other started => x ∉ started

/-- A stored thing and where it came from. -/
structure Thing (ι α : Type) where
  key : α
  origin : Origin ι
deriving DecidableEq

section
variable {ι α γ : Type}

structure Remembered (items : List (ι × γ)) (grain : α → γ) (things : List (Thing ι α)) : Prop where
  sound : ∀ t ∈ things, ∀ x, (x, grain t.key) ∈ items → ¬Spared x t.origin
  complete : ∀ t ∈ things, ∀ x, t.origin = .imported x → (x, grain t.key) ∈ items

variable {items items' : List (ι × γ)} {grain : α → γ} {things things' : List (Thing ι α)} {x : ι}
  {t : Thing ι α} {g : γ}

lemma not_spared_self : ¬Spared x (.imported x) := fun h => h rfl

lemma not_spared_other {started : List ι} (h : x ∈ started) : ¬Spared x (.other started) :=
  fun hn => hn h

lemma Remembered.subset (h : Remembered items grain things) (hs : things' ⊆ things) :
    Remembered items grain things' :=
  ⟨fun t ht => h.sound t (hs ht), fun t ht => h.complete t (hs ht)⟩

lemma Remembered.insert_imported (h : Remembered items grain things) (ht : t.origin = .imported x)
    (hx : (x, grain t.key) ∈ items) (hothers : ∀ y, y ≠ x → (y, grain t.key) ∉ items) :
    Remembered items grain (t :: things) := by
  constructor
  · intro t' ht' y hy
    obtain rfl | ht' := List.mem_cons.mp ht'
    · by_cases hyx : y = x
      · subst hyx
        rw [ht]
        exact not_spared_self
      · exact absurd hy (hothers y hyx)
    · exact h.sound t' ht' y hy
  · intro t' ht' y hy
    obtain rfl | ht' := List.mem_cons.mp ht'
    · obtain rfl : x = y := by simpa using ht.symm.trans hy
      exact hx
    · exact h.complete t' ht' y hy

lemma Remembered.insert_other (h : Remembered items grain things) {started : List ι}
    (ht : t.origin = .other started) (hstarted : ∀ p ∈ items, p.1 ∈ started) :
    Remembered items grain (t :: things) := by
  constructor
  · intro t' ht' y hy
    obtain rfl | ht' := List.mem_cons.mp ht'
    · rw [ht]
      exact not_spared_other (hstarted _ hy)
    · exact h.sound t' ht' y hy
  · intro t' ht' y hy
    obtain rfl | ht' := List.mem_cons.mp ht'
    · rw [ht] at hy
      cases hy
    · exact h.complete t' ht' y hy

lemma Remembered.remember (h : Remembered items grain things) (hg : ∀ t ∈ things, grain t.key = g → ¬Spared x t.origin) :
    Remembered ((x, g) :: items) grain things := by
  constructor
  · intro t ht y hy
    obtain heq | hy := List.mem_cons.mp hy
    · obtain ⟨rfl, he⟩ := Prod.mk.inj heq
      exact hg t ht he
    · exact h.sound t ht y hy
  · exact fun t ht y hy => List.mem_cons_of_mem _ (h.complete t ht y hy)

variable [DecidableEq ι]

lemma Remembered.forget (h : Remembered items grain things) (hgone : ∀ t ∈ things, t.origin ≠ .imported x) :
    Remembered (items.filter (·.1 ≠ x)) grain things := by
  constructor
  · exact fun t ht y hy => h.sound t ht y (List.mem_filter.mp hy).1
  · intro t ht y hy
    refine List.mem_filter.mpr ⟨h.complete t ht y hy, ?_⟩
    have hne : y ≠ x := by
      rintro rfl
      exact hgone t ht hy
    simpa using hne

variable [DecidableEq γ]

/-- What is left of the things once the remembered ones of an import are removed. -/
def removed (items : List (ι × γ)) (grain : α → γ) (x : ι)
    (things : List (Thing ι α)) : List (Thing ι α) :=
  things.filter fun t => (x, grain t.key) ∉ items

lemma mem_removed : t ∈ removed items grain x things ↔ t ∈ things ∧ (x, grain t.key) ∉ items := by
  simp [removed]

lemma Remembered.removed_exact (h : Remembered items grain things) (x : ι) :
    (∀ t ∈ removed items grain x things, t.origin ≠ .imported x) ∧
      ∀ t ∈ things, Spared x t.origin → t ∈ removed items grain x things := by
  constructor
  · intro t ht ho
    obtain ⟨hin, hnot⟩ := mem_removed.mp ht
    exact hnot (h.complete t hin x ho)
  · exact fun t ht hs => mem_removed.mpr ⟨ht, fun hm => h.sound t ht x hm hs⟩

end
end CloudServer.Provenance
