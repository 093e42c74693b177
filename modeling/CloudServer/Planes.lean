import Mathlib

/-! Rectangular planes: reading past the border, cutting a box out and putting one in. -/
namespace CloudServer.Planes

open List

universe u

structure Plane (α : Type u) where
  H : ℕ
  W : ℕ
  cell : ℕ → ℕ → α

/-- The rows `y0:y1` and the columns `x0:x1`. -/
structure Box where
  y0 : ℕ
  y1 : ℕ
  x0 : ℕ
  x1 : ℕ
deriving DecidableEq

def Box.Has (b : Box) (y x : ℤ) : Prop := b.y0 ≤ y ∧ y < b.y1 ∧ b.x0 ≤ x ∧ x < b.x1

instance (b : Box) (y x : ℤ) : Decidable (b.Has y x) := inferInstanceAs (Decidable (_ ∧ _ ∧ _ ∧ _))

def Box.grow (b : Box) (m H W : ℕ) : Box := ⟨b.y0 - m, min H (b.y1 + m), b.x0 - m, min W (b.x1 + m)⟩

namespace Plane

variable {α : Type u}

def box (p : Plane α) : Box := ⟨0, p.H, 0, p.W⟩

/-- The cell, or `d` outside the plane. -/
def get (p : Plane α) (d : α) (y x : ℤ) : α := if p.box.Has y x then p.cell y.toNat x.toNat else d

def crop (p : Plane α) (b : Box) : Plane α :=
  ⟨min b.y1 p.H - b.y0, min b.x1 p.W - b.x0, fun y x => p.cell (b.y0 + y) (b.x0 + x)⟩

/-- `p[b] = q`. -/
def paste (p : Plane α) (b : Box) (q : Plane α) : Plane α :=
  ⟨p.H, p.W, fun y x => if b.Has y x then q.cell (y - b.y0) (x - b.x0) else p.cell y x⟩

/-- A plane of `d` with `p` at the given corner. -/
def embed (d : α) (H W oy ox : ℕ) (p : Plane α) : Plane α :=
  paste ⟨H, W, fun _ _ => d⟩ ⟨oy, oy + p.H, ox, ox + p.W⟩ p

structure Same (p q : Plane α) : Prop where
  height : p.H = q.H
  width : p.W = q.W
  cells : ∀ y < p.H, ∀ x < p.W, p.cell y x = q.cell y x

lemma Same.refl (p : Plane α) : Same p p := ⟨rfl, rfl, fun _ _ _ _ => rfl⟩

variable {p q : Plane α}

lemma Same.trans {r : Plane α} (h : Same p q) (h' : Same q r) : Same p r :=
  ⟨h.height.trans h'.height, h.width.trans h'.width, fun y hy x hx =>
    (h.cells y hy x hx).trans (h'.cells y (h.height ▸ hy) x (h.width ▸ hx))⟩

variable {x y : ℤ}

lemma get_of_has {d : α} (h : p.box.Has y x) : p.get d y x = p.cell y.toNat x.toNat :=
  if_pos h

lemma get_outside {d : α} (h : ¬ p.box.Has y x) : p.get d y x = d := if_neg h

lemma get_nat (d : α) {y x : ℕ} (hy : y < p.H) (hx : x < p.W) : p.get d y x = p.cell y x := by
  refine get_of_has ?_
  simp only [box, Box.Has]
  omega

lemma has_nat {y x : ℕ} : p.box.Has y x ↔ y < p.H ∧ x < p.W := by
  simp only [box, Box.Has]
  omega

lemma exists_nat (h : p.box.Has y x) :
    ∃ y' x' : ℕ, y = y' ∧ x = x' ∧ y' < p.H ∧ x' < p.W := by
  simp only [box, Box.Has] at h
  exact ⟨y.toNat, x.toNat, by omega, by omega, by omega, by omega⟩

lemma same_iff (d : α) (hh : p.H = q.H) (hw : p.W = q.W) :
    Same p q ↔ ∀ y x : ℤ, p.get d y x = q.get d y x := by
  have hbox : p.box = q.box := by unfold box; rw [hh, hw]
  constructor
  · intro h y x
    by_cases hb : p.box.Has y x
    · obtain ⟨y', x', rfl, rfl, hy, hx⟩ := exists_nat hb
      rw [get_nat d hy hx, get_nat d (hh ▸ hy) (hw ▸ hx), h.cells y' hy x' hx]
    · rw [get_outside hb, get_outside (hbox ▸ hb)]
  · intro h
    refine ⟨hh, hw, fun y hy x hx => ?_⟩
    rw [← get_nat d hy hx, ← get_nat d (hh ▸ hy) (hw ▸ hx), h]

lemma Same.get (h : Same p q) (d : α) (y x : ℤ) : p.get d y x = q.get d y x :=
  (same_iff d h.height h.width).mp h y x

lemma get_crop (p : Plane α) (b : Box) (d : α) (y x : ℤ) :
    (p.crop b).get d (y - b.y0) (x - b.x0) = if b.Has y x then p.get d y x else d := by
  by_cases hb : b.Has y x
  · rw [if_pos hb]
    by_cases hp : p.box.Has y x
    · obtain ⟨y', x', rfl, rfl, hy, hx⟩ := exists_nat hp
      simp only [Box.Has] at hb
      rw [get_nat d hy hx, get_of_has]
      · simp only [crop]
        congr 1 <;> omega
      · simp only [box, crop, Box.Has]
        omega
    · rw [get_outside hp, get_outside]
      simp only [box, crop, Box.Has] at hp hb ⊢
      omega
  · rw [if_neg hb, get_outside]
    simp only [box, crop, Box.Has] at hb ⊢
    omega

lemma get_paste (p : Plane α) (b : Box) (q : Plane α) (d : α) (y x : ℤ) (hb : b.y1 - b.y0 ≤ q.H)
    (hb' : b.x1 - b.x0 ≤ q.W) : (p.paste b q).get d y x =
      if p.box.Has y x ∧ b.Has y x then q.get d (y - b.y0) (x - b.x0) else p.get d y x := by
  by_cases hp : p.box.Has y x
  · obtain ⟨y', x', rfl, rfl, hy, hx⟩ := exists_nat hp
    rw [get_nat (p := p.paste b q) d hy hx]
    by_cases hbox : b.Has y' x'
    · rw [if_pos ⟨hp, hbox⟩, get_of_has]
      · have hcell : (p.paste b q).cell y' x' = q.cell (y' - b.y0) (x' - b.x0) := if_pos hbox
        rw [hcell]
        simp only [Box.Has] at hbox
        congr 1 <;> omega
      · simp only [box, Box.Has] at hbox ⊢
        omega
    · rw [if_neg fun h => hbox h.2, get_nat d hy hx]
      simp only [paste, if_neg hbox]
  · have hp' : ¬ (p.paste b q).box.Has y x := hp
    rw [get_outside hp', if_neg fun h => hp h.1, get_outside hp]

lemma get_embed (p : Plane α) (d : α) {H W oy ox : ℕ} (hH : oy + p.H ≤ H) (hW : ox + p.W ≤ W) (y x : ℤ) :
    (embed d H W oy ox p).get d y x = p.get d (y - oy) (x - ox) := by
  unfold embed
  rw [get_paste _ _ _ _ _ _ (by simp) (by simp)]
  by_cases hp : p.box.Has (y - oy) (x - ox)
  · rw [if_pos]
    simp only [box, Box.Has] at hp ⊢
    omega
  · rw [get_outside hp]
    simp only [get, ite_self]

end Plane

/-- The numbers of `a:b` that satisfy `p`, ascending. -/
def hits (p : ℕ → Bool) (a b : ℕ) : List ℕ := (List.range' a (b - a)).filter p

variable {a b i r : ℕ}

lemma mem_hits {p : ℕ → Bool} : i ∈ hits p a b ↔ (a ≤ i ∧ i < b) ∧ p i := by
  unfold hits
  rw [mem_filter, mem_range'_1]
  refine and_congr_left fun _ => ?_
  omega

lemma hits_lt (p : ℕ → Bool) (a b : ℕ) : (hits p a b).Pairwise (· < ·) :=
  (pairwise_lt_range').filter _

lemma le_of_head {l : List ℕ} (h : l.Pairwise (· < ·)) (hr : l.head? = some r) (hi : i ∈ l) :
    r ≤ i := by
  cases l with
  | nil => cases hr
  | cons x xs =>
    cases hr
    rcases mem_cons.mp hi with rfl | hi
    · exact le_rfl
    · exact ((pairwise_cons.mp h).1 i hi).le

lemma le_of_last {l : List ℕ} (h : l.Pairwise (· < ·)) (hr : l.getLast? = some r) (hi : i ∈ l) :
    i ≤ r := by
  obtain ⟨rest, rfl⟩ := List.getLast?_eq_some_iff.mp hr
  rcases mem_append.mp hi with hi | hi
  · exact ((pairwise_append.mp h).2.2 i hi r mem_cons_self).le
  · rw [mem_singleton.mp hi]

/-- The smallest box around the marked cells of `b`. -/
def bounding (mark : ℕ → ℕ → Bool) (b : Box) : Option Box :=
  let rows := hits (fun y => (hits (fun x => mark y x) b.x0 b.x1).any fun _ => true) b.y0 b.y1
  let cols := hits (fun x => (hits (fun y => mark y x) b.y0 b.y1).any fun _ => true) b.x0 b.x1
  match rows.head?, rows.getLast?, cols.head?, cols.getLast? with
  | some r, some r', some c, some c' => some ⟨r, r' + 1, c, c' + 1⟩
  | _, _, _, _ => none

lemma any_hits {p : ℕ → Bool} :
    ((hits p a b).any fun _ => true) = true ↔ ∃ i, (a ≤ i ∧ i < b) ∧ p i := by
  rw [any_eq_true]
  constructor
  · rintro ⟨i, hi, -⟩
    exact ⟨i, mem_hits.mp hi⟩
  · rintro ⟨i, hi⟩
    exact ⟨i, mem_hits.mpr hi, rfl⟩

lemma bounding_spec (mark : ℕ → ℕ → Bool) (b : Box) :
    (bounding mark b = none ∧ ∀ y x : ℕ, b.Has y x → mark y x = false) ∨
      ∃ c, bounding mark b = some c ∧ (∀ y x : ℕ, b.Has y x → mark y x → c.Has y x) ∧
        b.y0 ≤ c.y0 ∧ c.y0 < c.y1 ∧ c.y1 ≤ b.y1 ∧ b.x0 ≤ c.x0 ∧ c.x0 < c.x1 ∧ c.x1 ≤ b.x1 ∧
        (∃ x : ℕ, b.Has c.y0 x ∧ mark c.y0 x) ∧ (∃ x : ℕ, b.Has (c.y1 - 1 : ℕ) x ∧ mark (c.y1 - 1) x) ∧
        (∃ y : ℕ, b.Has y c.x0 ∧ mark y c.x0) ∧ ∃ y : ℕ, b.Has y (c.x1 - 1 : ℕ) ∧ mark y (c.x1 - 1) := by
  set rows := hits (fun y => (hits (fun x => mark y x) b.x0 b.x1).any fun _ => true) b.y0 b.y1 with hrows
  set cols := hits (fun x => (hits (fun y => mark y x) b.y0 b.y1).any fun _ => true) b.x0 b.x1 with hcols
  have hmem : ∀ y x : ℕ, b.Has y x → mark y x → y ∈ rows ∧ x ∈ cols := by
    intro y x hb hm
    simp only [Box.Has] at hb
    rw [hrows, hcols, mem_hits, mem_hits, any_hits, any_hits]
    exact ⟨⟨by omega, x, by omega, hm⟩, ⟨by omega, y, by omega, hm⟩⟩
  cases hr : rows.head? with
  | none =>
    refine .inl ⟨?_, fun y x hb => Bool.eq_false_iff.mpr fun hm => ?_⟩
    · unfold bounding
      simp only [← hrows, hr]
    · rw [List.head?_eq_none_iff.mp hr] at hmem
      exact not_mem_nil (hmem y x hb hm).1
  | some r =>
    have hrin := mem_of_head? hr
    obtain ⟨hrb, hrx⟩ := mem_hits.mp hrin
    obtain ⟨x, hx, hm⟩ := any_hits.mp hrx
    have hb : b.Has r x := by simp only [Box.Has]; omega
    have hxin := (hmem r x hb hm).2
    obtain ⟨r', hr'⟩ := Option.isSome_iff_exists.mp (List.getLast?_isSome.mpr (ne_nil_of_mem hrin))
    obtain ⟨c, hc⟩ := Option.isSome_iff_exists.mp (isSome_head?.mpr (ne_nil_of_mem hxin))
    obtain ⟨c', hc'⟩ := Option.isSome_iff_exists.mp (List.getLast?_isSome.mpr (ne_nil_of_mem hxin))
    refine .inr ⟨⟨r, r' + 1, c, c' + 1⟩, ?_, fun y x hb hm => ?_, ?_⟩
    · unfold bounding
      simp only [← hrows, ← hcols, hr, hr', hc, hc']
    · obtain ⟨hy, hx⟩ := hmem y x hb hm
      have h₁ := le_of_head (hits_lt _ _ _) hr hy
      have h₂ := le_of_last (hits_lt _ _ _) hr' hy
      have h₃ := le_of_head (hits_lt _ _ _) hc hx
      have h₄ := le_of_last (hits_lt _ _ _) hc' hx
      simp only [Box.Has]
      omega
    · have h₁ := (mem_hits.mp (mem_of_getLast? hr')).1
      have h₂ := (mem_hits.mp (mem_of_head? hc)).1
      have h₃ := (mem_hits.mp (mem_of_getLast? hc')).1
      have h₄ := le_of_last (hits_lt _ _ _) hr' hrin
      have h₅ := le_of_last (hits_lt _ _ _) hc' (mem_of_head? hc)
      have hrow : ∀ y : ℕ, y ∈ rows → ∃ x : ℕ, b.Has y x ∧ mark y x := fun y hy => by
        obtain ⟨hy, hx⟩ := mem_hits.mp hy
        obtain ⟨x, hx, hm⟩ := any_hits.mp hx
        exact ⟨x, by simp only [Box.Has]; omega, hm⟩
      have hcol : ∀ x : ℕ, x ∈ cols → ∃ y : ℕ, b.Has y x ∧ mark y x := fun x hx => by
        obtain ⟨hx, hy⟩ := mem_hits.mp hx
        obtain ⟨y, hy, hm⟩ := any_hits.mp hy
        exact ⟨y, by simp only [Box.Has]; omega, hm⟩
      exact ⟨hrb.1, Nat.lt_succ_of_le h₄, h₁.2, h₂.1, Nat.lt_succ_of_le h₅, h₃.2, hrow r hrin,
        hrow r' (mem_of_getLast? hr'), hcol c (mem_of_head? hc), hcol c' (mem_of_getLast? hc')⟩

lemma bounding_marked {mark : ℕ → ℕ → Bool} {b c : Box} (h : bounding mark b = some c) :
    ∃ i < c.y1 - c.y0, ∃ j < c.x1 - c.x0, mark (c.y0 + i) (c.x0 + j) = true := by
  rcases bounding_spec mark b with ⟨hn, -⟩ | ⟨c', hc, hin, -, h₁, -, -, -, -, ⟨x, hb, hm⟩, -⟩
  · rw [h] at hn
    cases hn
  · cases h.symm.trans hc
    have hx := hin c.y0 x hb hm
    simp only [Box.Has] at hx
    exact ⟨0, by omega, x - c.x0, by omega, by rwa [Nat.add_zero, Nat.add_sub_cancel' (by omega)]⟩

end CloudServer.Planes
