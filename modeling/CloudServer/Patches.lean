import CloudServer.Planes

/-! Patches of marked cells that touch by sides or corners, and those that stay clear of other cells. -/
namespace CloudServer.Planes

abbrev Cell := ℤ × ℤ

def Near (a b : Cell) : Prop := |a.1 - b.1| ≤ 1 ∧ |a.2 - b.2| ≤ 1

/-- At most `g` rows and columns apart. -/
def Within (g : ℕ) (a b : Cell) : Prop := |a.1 - b.1| ≤ g ∧ |a.2 - b.2| ≤ g

def sqDist (a b : Cell) : ℤ := (a.1 - b.1) ^ 2 + (a.2 - b.2) ^ 2

def Linked (P : Cell → Prop) : Cell → Cell → Prop :=
  Relation.ReflTransGen fun a b => P a ∧ P b ∧ Near a b

/-- A marked cell with a cell in its patch that is far from all of `B`. -/
def Away (far : Cell → Cell → Prop) (P B : Cell → Prop) (a : Cell) : Prop :=
  P a ∧ ∃ b, Linked P a b ∧ ∀ c, B c → far b c

/-- No patch has cells in `R` and others outside. -/
def Closed (P R : Cell → Prop) : Prop := ∀ a b, R a → P a → P b → Near a b → R b

variable {P Q R B C : Cell → Prop} {a b t : Cell} {far : Cell → Cell → Prop}

lemma Linked.mem (ha : P a) (h : Linked P a b) : P b := by
  induction h with
  | refl => exact ha
  | tail _ hbc _ => exact hbc.2.1

lemma Linked.symm (h : Linked P a b) : Linked P b a := by
  induction h with
  | refl => exact Relation.ReflTransGen.refl
  | tail _ hbc ih =>
    refine Relation.ReflTransGen.head ⟨hbc.2.1, hbc.1, ?_⟩ ih
    have hn := hbc.2.2
    simp only [Near, abs_le] at hn ⊢
    omega

lemma Linked.stays (hR : Closed P R) (ha : R a) (h : Linked P a b) : R b := by
  induction h with
  | refl => exact ha
  | tail _ hbc ih => exact hR _ _ ih hbc.1 hbc.2.1 hbc.2.2

lemma Linked.congr (hR : Closed P R) (hPQ : ∀ a, R a → (P a ↔ Q a)) (ha : R a) (h : Linked P a b) :
    Linked Q a b := by
  induction h with
  | refl => exact Relation.ReflTransGen.refl
  | tail hab hbc ih =>
    have hb := Linked.stays hR ha hab
    have hc := hR _ _ hb hbc.1 hbc.2.1 hbc.2.2
    exact ih.tail ⟨(hPQ _ hb).mp hbc.1, (hPQ _ hc).mp hbc.2.1, hbc.2.2⟩

lemma Away.congr {g : ℕ} (hfar : ∀ a b, ¬ Within g a b → far a b) (hP : Closed P R) (hQ : Closed Q R)
    (hPQ : ∀ a, R a → (P a ↔ Q a)) (hBC : ∀ a c, R a → Within g a c → (B c ↔ C c)) (ha : R a) :
    Away far P B a ↔ Away far Q C a := by
  have hclear : ∀ {B C : Cell → Prop} b, R b → (∀ a c, R a → Within g a c → (B c ↔ C c)) →
      (∀ c, B c → far b c) → ∀ c, C c → far b c := by
    intro B C b hb hBC hall c hc
    by_cases hw : Within g b c
    · exact hall c ((hBC b c hb hw).mpr hc)
    · exact hfar b c hw
  refine and_congr (hPQ a ha) ⟨?_, ?_⟩
  · rintro ⟨b, hab, hall⟩
    exact ⟨b, hab.congr hP hPQ ha, hclear b (hab.stays hP ha) hBC hall⟩
  · rintro ⟨b, hab, hall⟩
    exact ⟨b, hab.congr hQ (fun a ha => (hPQ a ha).symm) ha,
      hclear b (hab.stays hQ ha) (fun a c ha hw => (hBC a c ha hw).symm) hall⟩

lemma Near.shift : Near (a + t) (b + t) ↔ Near a b := by
  unfold Near
  simp only [Prod.fst_add, Prod.snd_add, add_sub_add_right_eq_sub]

lemma sqDist_shift : sqDist (a + t) (b + t) = sqDist a b := by
  unfold sqDist
  simp only [Prod.fst_add, Prod.snd_add, add_sub_add_right_eq_sub]

lemma Linked.shift : Linked (fun c => P (c + t)) a b ↔ Linked P (a + t) (b + t) := by
  constructor
  · exact fun h => h.lift (· + t) fun a b hab => ⟨hab.1, hab.2.1, Near.shift.mpr hab.2.2⟩
  · intro h
    have hback : ∀ {c d}, Linked P c d → Linked (fun c => P (c + t)) (c - t) (d - t) := by
      intro c d hcd
      refine hcd.lift (· - t) fun c d ⟨hc, hd, hn⟩ => ⟨?_, ?_, Near.shift (t := t).mp ?_⟩
      · exact (congrArg P (sub_add_cancel c t)).mpr hc
      · exact (congrArg P (sub_add_cancel d t)).mpr hd
      · rwa [sub_add_cancel, sub_add_cancel]
    have hab := hback h
    rwa [add_sub_cancel_right, add_sub_cancel_right] at hab

lemma Away.shift (hfar : ∀ a b, far (a + t) (b + t) ↔ far a b) :
    Away far (fun c => P (c + t)) (fun c => B (c + t)) a ↔ Away far P B (a + t) := by
  refine and_congr_right fun _ => ⟨?_, ?_⟩
  · rintro ⟨b, hab, hall⟩
    refine ⟨b + t, Linked.shift.mp hab, fun c hc => ?_⟩
    have hfc := (hfar b (c - t)).mpr (hall (c - t) (show B (c - t + t) by rwa [sub_add_cancel]))
    rwa [sub_add_cancel] at hfc
  · rintro ⟨b, hab, hall⟩
    refine ⟨b - t, Linked.shift.mpr (by rwa [sub_add_cancel]), fun c hc => ?_⟩
    have hfc := hall (c + t) hc
    rw [← hfar, sub_add_cancel]
    exact hfc

def Plane.Marked (p : Plane Bool) (a : Cell) : Prop := p.get false a.1 a.2 = true

def Box.corner (b : Box) : Cell := (b.y0, b.x0)

namespace Plane

variable {p : Plane Bool}

lemma marked_nat {y x : ℕ} (hy : y < p.H) (hx : x < p.W) : p.Marked ((y : ℤ), (x : ℤ)) ↔ p.cell y x = true := by
  unfold Marked
  rw [get_nat false hy hx]

lemma Marked.has (h : p.Marked a) : p.box.Has a.1 a.2 := by
  by_contra hn
  rw [Marked, get_outside hn] at h
  cases h

lemma Marked.exists (h : p.Marked a) :
    ∃ y x : ℕ, a = ((y : ℤ), (x : ℤ)) ∧ y < p.H ∧ x < p.W ∧ p.cell y x = true := by
  obtain ⟨y, x, hy, hx, hyH, hxW⟩ := exists_nat h.has
  have ha : a = (↑y, ↑x) := Prod.ext hy hx
  subst ha
  exact ⟨y, x, rfl, hyH, hxW, (marked_nat hyH hxW).mp h⟩

lemma marked_crop {b : Box} : (p.crop b).Marked a ↔
    b.Has (a + b.corner).1 (a + b.corner).2 ∧ p.Marked (a + b.corner) := by
  have hget := get_crop p b false (a + b.corner).1 (a + b.corner).2
  simp only [Box.corner, Prod.fst_add, Prod.snd_add, add_sub_cancel_right] at hget
  unfold Marked
  rw [hget]
  simp only [Box.corner, Prod.fst_add, Prod.snd_add]
  by_cases hb : b.Has (a.1 + b.y0) (a.2 + b.x0)
  · simp [hb]
  · simp [hb]

lemma marked_paste {b : Box} {q : Plane Bool} (hb : b.y1 - b.y0 ≤ q.H) (hb' : b.x1 - b.x0 ≤ q.W) :
    (p.paste b q).Marked a ↔
      if p.box.Has a.1 a.2 ∧ b.Has a.1 a.2 then q.Marked (a - b.corner) else p.Marked a := by
  unfold Marked
  rw [get_paste p b q false a.1 a.2 hb hb']
  simp only [Box.corner, Prod.fst_sub, Prod.snd_sub]
  split_ifs <;> rfl

end Plane

lemma Away.local {P' B' : Cell → Prop} (hfar : ∀ a b, far (a + t) (b + t) ↔ far a b)
    (hP : ∀ c, P' c ↔ P (c + t)) (hB : ∀ c, B' c ↔ B (c + t)) :
    Away far P' B' (a - t) ↔ Away far P B a := by
  have hshift := Away.shift (P := P) (B := B) (a := a - t) hfar
  rw [sub_add_cancel] at hshift
  rw [show P' = fun c => P (c + t) from funext fun c => propext (hP c),
    show B' = fun c => B (c + t) from funext fun c => propext (hB c)]
  exact hshift

def falses (H W : ℕ) : Plane Bool := ⟨H, W, fun _ _ => false⟩

def complement (p : Plane Bool) : Plane Bool := ⟨p.H, p.W, fun y x => !p.cell y x⟩

/-- The squared distance from `a` to the nearest cell of `S`. -/
def NearestIn (S : Cell → Prop) (a : Cell) (n : ℕ) : Prop :=
  IsLeast {n : ℕ | ∃ c, S c ∧ (n : ℤ) = sqDist a c} n

def Plane.Unset (p : Plane Bool) (c : Cell) : Prop := p.box.Has c.1 c.2 ∧ ¬ p.Marked c

/-- A distance transform, in squares, on every plane that has a cell to measure to. -/
def Exact (edt : Plane Bool → ℕ → ℕ → ℕ) : Prop :=
  ∀ p : Plane Bool, (∃ y < p.H, ∃ x < p.W, p.cell y x = false) →
    ∀ y < p.H, ∀ x < p.W, NearestIn p.Unset ((y : ℤ), (x : ℤ)) (edt p y x)

/-- `label` numbers the connected sets of marked cells. -/
def Labels (label : Plane Bool → ℕ → ℕ → ℕ) : Prop :=
  ∀ p : Plane Bool, ∀ y < p.H, ∀ x < p.W, p.cell y x = true → label p y x ≠ 0 ∧
    ∀ y' < p.H, ∀ x' < p.W, p.cell y' x' = true →
      (label p y x = label p y' x' ↔ Linked p.Marked ((y : ℤ), (x : ℤ)) ((y' : ℤ), (x' : ℤ)))

noncomputable def leastSquare (p : Plane Bool) (y x : ℕ) : ℕ :=
  sInf {n : ℕ | ∃ c, p.Unset c ∧ (n : ℤ) = sqDist ((y : ℤ), (x : ℤ)) c}

lemma sqDist_nonneg (a b : Cell) : 0 ≤ sqDist a b := by
  unfold sqDist
  positivity

lemma Plane.unset_nat {p : Plane Bool} {y x : ℕ} (hy : y < p.H) (hx : x < p.W) :
    p.Unset ((y : ℤ), (x : ℤ)) ↔ p.cell y x = false := by
  unfold Unset
  rw [marked_nat hy hx, and_iff_right (has_nat.mpr ⟨hy, hx⟩), Bool.not_eq_true]

lemma Plane.Unset.exists {p : Plane Bool} {c : Cell} (h : p.Unset c) :
    ∃ y x : ℕ, c = ((y : ℤ), (x : ℤ)) ∧ y < p.H ∧ x < p.W ∧ p.cell y x = false := by
  obtain ⟨y, x, hy, hx, hyH, hxW⟩ := exists_nat h.1
  have hc : c = (↑y, ↑x) := Prod.ext hy hx
  subst hc
  exact ⟨y, x, rfl, hyH, hxW, (unset_nat hyH hxW).mp h⟩

lemma leastSquare_exact : Exact leastSquare := by
  rintro p ⟨y₀, hy₀, x₀, hx₀, hm⟩ y _ x _
  have hne : {n : ℕ | ∃ c, p.Unset c ∧ (n : ℤ) = sqDist ((y : ℤ), (x : ℤ)) c}.Nonempty :=
    ⟨_, _, (Plane.unset_nat hy₀ hx₀).mpr hm, Int.toNat_of_nonneg (sqDist_nonneg _ _)⟩
  exact ⟨Nat.sInf_mem hne, fun n hn => Nat.sInf_le hn⟩

noncomputable def firstCell (p : Plane Bool) (y x : ℕ) : ℕ :=
  sInf {i | ∃ y' < p.H, ∃ x' < p.W, Linked p.Marked ((y : ℤ), (x : ℤ)) ((y' : ℤ), (x' : ℤ)) ∧
    i = y' * p.W + x'} + 1

lemma firstCell_labels : Labels firstCell := by
  have hmem : ∀ (p : Plane Bool), ∀ y < p.H, ∀ x < p.W, ∃ y' < p.H, ∃ x' < p.W,
      Linked p.Marked ((y : ℤ), (x : ℤ)) ((y' : ℤ), (x' : ℤ)) ∧ firstCell p y x = y' * p.W + x' + 1 := by
    intro p y hy x hx
    obtain ⟨y', hy', x', hx', hl, he⟩ := Nat.sInf_mem (s := {i | ∃ y' < p.H, ∃ x' < p.W,
      Linked p.Marked ((y : ℤ), (x : ℤ)) ((y' : ℤ), (x' : ℤ)) ∧ i = y' * p.W + x'})
      ⟨_, y, hy, x, hx, Relation.ReflTransGen.refl, rfl⟩
    exact ⟨y', hy', x', hx', hl, congrArg (· + 1) he⟩
  intro p y hy x hx _
  refine ⟨Nat.succ_ne_zero _, fun y' hy' x' hx' _ => ⟨fun he => ?_, fun hl => ?_⟩⟩
  · obtain ⟨v, -, u, hu, hl, hf⟩ := hmem p y hy x hx
    obtain ⟨v', -, u', hu', hl', hf'⟩ := hmem p y' hy' x' hx'
    rw [hf, hf'] at he
    have hcell : v = v' ∧ u = u' := by
      have heq := Nat.succ_injective he
      have hmod := congrArg (· % p.W) heq
      simp only [Nat.mul_add_mod_self_right, Nat.mod_eq_of_lt hu, Nat.mod_eq_of_lt hu'] at hmod
      rw [hmod] at heq
      exact ⟨Nat.eq_of_mul_eq_mul_right (by omega) (Nat.add_right_cancel heq), hmod⟩
    obtain ⟨rfl, rfl⟩ := hcell
    exact hl.trans hl'.symm
  · unfold firstCell
    congr 2
    ext i
    constructor
    · rintro ⟨v, hv, u, hu, h, he⟩
      exact ⟨v, hv, u, hu, hl.symm.trans h, he⟩
    · rintro ⟨v, hv, u, hu, h, he⟩
      exact ⟨v, hv, u, hu, hl.trans h, he⟩

end CloudServer.Planes
