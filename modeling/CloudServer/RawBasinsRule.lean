import CloudServer.RawBasins

/-! The pointers of the three rules are the same: to the earliest neighbour that precedes a cell. -/
namespace CloudServer.RawBasins
open Planes PointerDoubling KeySort List

/-! ### Cells and their places -/

section
variable {α : Type*} [DecidableEq α] {l : List α} {a : α} {i j k : ℕ}

lemma idxOf?_iff (hn : l.Nodup) : l.idxOf? a = some i ↔ l[i]? = some a := by
  rw [List.idxOf?_eq_some_iff]
  constructor
  · rintro ⟨hi, rfl, -⟩
    exact List.getElem?_eq_getElem hi
  · intro ha
    obtain ⟨hi, rfl⟩ := List.getElem?_eq_some_iff.mp ha
    exact ⟨hi, rfl, fun j hj he => hj.ne ((hn.getElem_inj_iff).mp he)⟩

lemma place_eq (hn : l.Nodup) (ha : l[i]? = some a) : place l a = i := by
  rw [place, (idxOf?_iff hn).mpr ha]

lemma place_cases (hn : l.Nodup) (a : α) : place l a = -1 ∨ ∃ i : ℕ, l[i]? = some a := by
  unfold place
  cases h : l.idxOf? a with
  | none => exact .inl rfl
  | some i => exact .inr ⟨i, (idxOf?_iff hn).mp h⟩

end

variable {F : Plane Bool} {i j k y x : ℕ} {c e : ℕ × ℕ} {d : Dir}

def RowMajor (c e : ℕ × ℕ) : Prop := c.1 < e.1 ∨ c.1 = e.1 ∧ c.2 < e.2

lemma cells_ordered (F : Plane Bool) : (cellsOf F).Pairwise RowMajor := by
  refine pairwise_flatMap.mpr ⟨fun y _ => ?_, ?_⟩
  · refine pairwise_map.mpr ((pairwise_lt_range.filter _).imp fun hlt => .inr ⟨rfl, hlt⟩)
  · refine pairwise_lt_range.imp fun {y z} hlt c hc e he => ?_
    obtain ⟨x, -, rfl⟩ := mem_map.mp hc
    obtain ⟨w, -, rfl⟩ := mem_map.mp he
    exact .inl hlt

lemma mem_cells : c ∈ cellsOf F ↔ c.1 < F.H ∧ c.2 < F.W ∧ F.cell c.1 c.2 = true := by
  simp only [cellsOf, mem_flatMap, mem_map, mem_filter, mem_range]
  constructor
  · rintro ⟨y, hy, x, ⟨hx, hc⟩, rfl⟩
    exact ⟨hy, hx, hc⟩
  · rintro ⟨hy, hx, hc⟩
    exact ⟨c.1, hy, c.2, ⟨hx, hc⟩, rfl⟩

lemma cells_nodup (F : Plane Bool) : (cellsOf F).Nodup :=
  (cells_ordered F).imp fun h he => by
    subst he
    rcases h with h | h
    · exact h.false
    · exact h.2.false

def cellAt (F : Plane Bool) (i : ℕ) : ℕ × ℕ := (cellsOf F).getD i (0, 0)

lemma cellAt_eq (hi : i < (Space.of F).N) : (cellsOf F)[i]? = some (cellAt F i) := by
  have hi' : i < (cellsOf F).length := hi
  rw [cellAt, getD_eq_getElem?_getD, List.getElem?_eq_getElem hi', Option.getD_some]

lemma cellAt_lt (hi : i < (Space.of F).N) : (cellAt F i).1 < F.H ∧ (cellAt F i).2 < F.W := by
  obtain ⟨hy, hx, -⟩ := mem_cells.mp (mem_of_getElem? (cellAt_eq hi))
  exact ⟨hy, hx⟩

lemma lt_iff (hi : i < (Space.of F).N) (hj : j < (Space.of F).N) :
    i < j ↔ RowMajor (cellAt F i) (cellAt F j) := by
  have hord := pairwise_iff_getElem.mp (cells_ordered F)
  have hforth : ∀ {i j : ℕ}, i < (Space.of F).N → j < (Space.of F).N → i < j →
      RowMajor (cellAt F i) (cellAt F j) := by
    intro i j hi hj hij
    have hget := fun k hk =>
      Option.some.inj ((List.getElem?_eq_getElem (l := cellsOf F) (i := k) hk).symm.trans (cellAt_eq hk))
    have := hord i j hi hj hij
    rwa [hget i hi, hget j hj] at this
  refine ⟨hforth hi hj, fun hr => ?_⟩
  rcases lt_trichotomy i j with hlt | rfl | hgt
  · exact hlt
  · rcases hr with hr | hr
    · exact absurd hr (lt_irrefl _)
    · exact absurd hr.2 (lt_irrefl _)
  · rcases hforth hj hi hgt with hg | hg <;> rcases hr with hr | hr <;> omega

/-! ### The image with a ring -/

lemma flat_inj {w a b : ℕ} (hb : b < w) (hx : x < w) : a * w + b = y * w + x ↔ a = y ∧ b = x := by
  constructor
  · intro h
    have hdiv := congrArg (· / w) h
    have hmod := congrArg (· % w) h
    simp only [Nat.mul_comm _ w, Nat.mul_add_div (Nat.zero_lt_of_lt hb), Nat.mul_add_mod, Nat.div_eq_of_lt hb,
      Nat.div_eq_of_lt hx, Nat.mod_eq_of_lt hb, Nat.mod_eq_of_lt hx, Nat.add_zero] at hdiv hmod
    exact ⟨hdiv, hmod⟩
  · rintro ⟨rfl, rfl⟩
    rfl

lemma pos_eq (hi : i < (Space.of F).N) :
    (Space.of F).pos[i]? = some (((cellAt F i).1 + 1) * (F.W + 2) + (cellAt F i).2 + 1) := by
  rw [Space.pos, List.getElem?_map, Space.of_cells, cellAt_eq hi]
  rfl

lemma pos_nodup (F : Plane Bool) : (Space.of F).pos.Nodup := by
  refine (nodup_map_iff_inj_on (cells_nodup F)).mpr fun c hc e he h => ?_
  have hcx := (mem_cells.mp hc).2.1
  have hex := (mem_cells.mp he).2.1
  have hflat : c.1 + 1 = e.1 + 1 ∧ c.2 + 1 = e.2 + 1 :=
    (flat_inj (w := F.W + 2) (by omega) (by omega)).mp h
  exact Prod.ext (by omega) (by omega)

def look (F : Plane Bool) (k : ℕ) : Option ℕ := (Space.of F).pos.idxOf? k

lemma look_iff : look F k = some i ↔
    i < (Space.of F).N ∧ k = ((cellAt F i).1 + 1) * (F.W + 2) + (cellAt F i).2 + 1 := by
  rw [look, idxOf?_iff (pos_nodup F)]
  constructor
  · intro h
    have hi : i < (Space.of F).N := by
      have := (List.getElem?_eq_some_iff.mp h).1
      rwa [Space.pos, length_map] at this
    rw [pos_eq hi] at h
    exact ⟨hi, (Option.some.inj h).symm⟩
  · rintro ⟨hi, rfl⟩
    exact pos_eq hi

lemma scatter_eq {β : Type*} (z : β) (g : ℕ → β) : (Space.of F).scatter z g k = ((look F k).map g).getD z := by
  unfold Space.scatter look
  cases (Space.of F).pos.idxOf? k <;> rfl

lemma P_eq (k : ℕ) : (Space.of F).P k = ((look F k).map fun i : ℕ => (i : ℤ)).getD (-1) := by
  have hw : (Space.of F).Wp = F.W + 2 := rfl
  have hin : ∀ i, i < (Space.of F).N → k = ((cellAt F i).1 + 1) * (F.W + 2) + (cellAt F i).2 + 1 →
      k / (F.W + 2) = (cellAt F i).1 + 1 ∧ k % (F.W + 2) = (cellAt F i).2 + 1 := by
    rintro i hi rfl
    have hx := (cellAt_lt hi).2
    have hlt : (cellAt F i).2 + 1 < F.W + 2 := by omega
    rw [Nat.add_assoc, Nat.mul_comm, Nat.mul_add_div (by omega), Nat.mul_add_mod,
      Nat.div_eq_of_lt hlt, Nat.mod_eq_of_lt hlt]
    exact ⟨rfl, rfl⟩
  unfold Space.P
  simp only [hw, Space.of_H, Space.of_W]
  cases hl : look F k with
  | some i =>
    obtain ⟨hi, hk⟩ := look_iff.mp hl
    obtain ⟨hdiv, hmod⟩ := hin i hi hk
    obtain ⟨hy, hx⟩ := cellAt_lt hi
    rw [hdiv, hmod, if_pos (by omega)]
    change place (cellsOf F) ((cellAt F i).1 + 1 - 1, (cellAt F i).2 + 1 - 1) = _
    exact place_eq (cells_nodup F) (cellAt_eq hi)
  | none =>
    split_ifs with hbox
    · change place (cellsOf F) (k / (F.W + 2) - 1, k % (F.W + 2) - 1) = -1
      rcases place_cases (cells_nodup F) (k / (F.W + 2) - 1, k % (F.W + 2) - 1) with hp | ⟨i, hget⟩
      · exact hp
      · exfalso
        have hi : i < (Space.of F).N := (List.getElem?_eq_some_iff.mp hget).1
        have hcell : cellAt F i = (k / (F.W + 2) - 1, k % (F.W + 2) - 1) :=
          Option.some.inj ((cellAt_eq hi).symm.trans hget)
        have hk : k = ((cellAt F i).1 + 1) * (F.W + 2) + (cellAt F i).2 + 1 := by
          rw [hcell]
          have := Nat.div_add_mod k (F.W + 2)
          simp only
          rw [Nat.sub_add_cancel hbox.1, Nat.add_assoc, Nat.sub_add_cancel hbox.2.2.1, Nat.mul_comm]
          exact this.symm
        rw [look_iff.mpr ⟨hi, hk⟩] at hl
        cases hl
    · rfl

/-- The cell next to `c` in a direction. -/
def Beside : Dir → ℕ × ℕ → ℕ × ℕ → Prop
  | .N, c, e => e.1 + 1 = c.1 ∧ e.2 = c.2
  | .E, c, e => e.1 = c.1 ∧ e.2 = c.2 + 1
  | .S, c, e => e.1 = c.1 + 1 ∧ e.2 = c.2
  | .W, c, e => e.1 = c.1 ∧ e.2 + 1 = c.2

lemma next_iff (hi : i < (Space.of F).N) : look F ((Space.of F).next i d) = some j ↔
    j < (Space.of F).N ∧ Beside d (cellAt F i) (cellAt F j) := by
  have hpos : (Space.of F).pos.getD i 0 = ((cellAt F i).1 + 1) * (F.W + 2) + ((cellAt F i).2 + 1) := by
    rw [getD_eq_getElem?_getD, pos_eq hi]
    rfl
  rw [look_iff]
  refine and_congr_right fun hj => ?_
  obtain ⟨-, hxi⟩ := cellAt_lt hi
  obtain ⟨-, hxj⟩ := cellAt_lt hj
  rw [Nat.add_assoc ((_ + 1) * _)]
  have key : ∀ {y x : ℕ}, x < F.W + 2 →
      (y * (F.W + 2) + x = ((cellAt F j).1 + 1) * (F.W + 2) + ((cellAt F j).2 + 1) ↔
      y = (cellAt F j).1 + 1 ∧ x = (cellAt F j).2 + 1) := fun hx => flat_inj hx (by omega)
  cases d with
  | N =>
    have hflat : (Space.of F).next i .N = (cellAt F i).1 * (F.W + 2) + ((cellAt F i).2 + 1) := by
      change _ - (F.W + 2) = _
      rw [hpos, Nat.succ_mul]
      omega
    rw [hflat, key (by omega)]
    simp only [Beside]
    omega
  | E =>
    have hflat : (Space.of F).next i .E = ((cellAt F i).1 + 1) * (F.W + 2) + ((cellAt F i).2 + 2) := by
      change _ + 1 = _
      rw [hpos]
      rfl
    rw [hflat, key (by omega)]
    simp only [Beside]
    omega
  | S =>
    have hflat : (Space.of F).next i .S = ((cellAt F i).1 + 2) * (F.W + 2) + ((cellAt F i).2 + 1) := by
      change _ + (F.W + 2) = _
      rw [hpos, Nat.succ_mul ((cellAt F i).1 + 1)]
      omega
    rw [hflat, key (by omega)]
    simp only [Beside]
    omega
  | W =>
    have hflat : (Space.of F).next i .W = ((cellAt F i).1 + 1) * (F.W + 2) + (cellAt F i).2 := by
      change _ - 1 = _
      rw [hpos]
      rfl
    rw [hflat, key (by omega)]
    simp only [Beside]
    omega

def Adjacent (c e : ℕ × ℕ) : Prop :=
  (c.1 = e.1 ∧ (c.2 + 1 = e.2 ∨ e.2 + 1 = c.2)) ∨ (c.2 = e.2 ∧ (c.1 + 1 = e.1 ∨ e.1 + 1 = c.1))

lemma adjacent_iff : Adjacent c e ↔ ∃ d, Beside d c e := by
  constructor
  · rintro (⟨h, hx | hx⟩ | ⟨h, hy | hy⟩)
    · exact ⟨.E, h.symm, hx.symm⟩
    · exact ⟨.W, h.symm, hx⟩
    · exact ⟨.S, hy.symm, h.symm⟩
    · exact ⟨.N, hy, h.symm⟩
  · rintro ⟨d, h⟩
    cases d <;> simp only [Beside] at h <;> unfold Adjacent <;> omega

/-- The place of a direction in the order N, W, E, S, in which the neighbours of a cell follow each other. -/
def Dir.turn : Dir → ℕ
  | .N => 0
  | .W => 1
  | .E => 2
  | .S => 3

lemma turn_lt {d' : Dir} (h : d.turn < d'.turn) (hd : Beside d c e) {e' : ℕ × ℕ} (hd' : Beside d' c e') :
    RowMajor e e' := by
  cases d <;> cases d' <;> simp only [Dir.turn] at h <;> simp only [Beside] at hd hd' <;>
    unfold RowMajor <;> omega

lemma before_iff (h : Beside d c e) : RowMajor e c ↔ d = .N ∨ d = .W := by
  cases d <;> simp only [Beside] at h <;>
    simp only [RowMajor, reduceCtorEq, or_false, false_or, iff_true, iff_false] <;> omega

/-! ### The earliest neighbour -/

section
variable {𝕜 : Type*} [LinearOrder 𝕜] {f : ℕ → 𝕜} {p q : ℕ}

/-- The order of the ranks: a larger value, or an equal one at a smaller place. -/
def Before (f : ℕ → 𝕜) (a b : ℕ) : Prop := f b < f a ∨ f a = f b ∧ a < b

lemma Before.asymm (h : Before f i j) (h' : Before f j i) : False := by
  rcases h with h | ⟨he, h⟩ <;> rcases h' with h' | ⟨he', h'⟩
  · exact lt_asymm h h'
  · exact h.ne he'
  · exact h'.ne he
  · exact lt_asymm h h'

lemma Before.trans (h : Before f i j) (h' : Before f j k) : Before f i k := by
  rcases h with h | ⟨he, h⟩ <;> rcases h' with h' | ⟨he', h'⟩
  · exact .inl (h'.trans h)
  · exact .inl (he' ▸ h)
  · exact .inl (he ▸ h')
  · exact .inr ⟨he.trans he', h.trans h'⟩

/-- The neighbours of cell `i`. -/
def Near (F : Plane Bool) (i j : ℕ) : Prop := j < (Space.of F).N ∧ Adjacent (cellAt F i) (cellAt F j)

lemma near_iff (hi : i < (Space.of F).N) : Near F i j ↔ ∃ d, look F ((Space.of F).next i d) = some j := by
  simp only [next_iff hi, Near, adjacent_iff, exists_and_left]

structure Parent (F : Plane Bool) (f : ℕ → 𝕜) (i p : ℕ) : Prop where
  self : p = i → ∀ j, Near F i j → ¬ Before f j i
  near : p ≠ i → Near F i p ∧ Before f p i
  earliest : p ≠ i → ∀ j, Near F i j → j ≠ p → Before f p j

lemma Parent.unique (h : Parent F f i p) (h' : Parent F f i q) : p = q := by
  by_cases hp : p = i
  · by_contra hne
    obtain ⟨hn, hb⟩ := h'.near fun hq => hne (hp.trans hq.symm)
    exact h.self hp q hn hb
  · by_cases hq : q = i
    · obtain ⟨hn, hb⟩ := h.near hp
      exact absurd hb (h'.self hq p hn)
    · by_contra hne
      exact (h.earliest hp q (h'.near hq).1 fun he => hne he.symm).asymm (h'.earliest hq p (h.near hp).1 hne)

lemma Before.ne (h : Before f i j) : i ≠ j := fun he => by
  subst he
  exact h.asymm h

lemma Parent.of_best (best : Option ℕ)
    (hbest : ∀ p, best = some p → Near F i p ∧ ∀ j, Near F i j → j ≠ p → Before f p j)
    (hnone : best = none → ∀ j, ¬ Near F i j) (hp : ∀ p, best = some p → Before f p i → q = p)
    (hi : (∀ p, best = some p → ¬ Before f p i) → q = i) : Parent F f i q := by
  by_cases h : ∃ p, best = some p ∧ Before f p i
  · obtain ⟨p, hb, hbefore⟩ := h
    obtain rfl := hp p hb hbefore
    exact ⟨fun he => absurd he hbefore.ne, fun _ => ⟨(hbest q hb).1, hbefore⟩, fun _ => (hbest q hb).2⟩
  · have hq : q = i := hi fun p hb hbefore => h ⟨p, hb, hbefore⟩
    refine ⟨fun _ j hj hbefore => ?_, fun hne => absurd hq hne, fun hne => absurd hq hne⟩
    cases hb : best with
    | none => exact hnone hb j hj
    | some p =>
      obtain ⟨-, hall⟩ := hbest p hb
      rcases eq_or_ne j p with rfl | hne
      · exact h ⟨j, hb, hbefore⟩
      · exact h ⟨p, hb, (hall j hj hne).trans hbefore⟩

/-! ### The three rules -/

lemma look_next_some (hi : i < (Space.of F).N) (h : look F ((Space.of F).next i d) = some j) :
    j < (Space.of F).N ∧ Near F i j :=
  ⟨((next_iff hi).mp h).1, (near_iff hi).mpr ⟨d, h⟩⟩

lemma parOfValues_parent (f : ℕ → 𝕜) (hi : i < (Space.of F).N) :
    Parent F f i (parOfValues (Space.of F) f i) := by
  set FP : ℕ → WithBot 𝕜 := (Space.of F).scatter ⊥ fun j => (f j : WithBot 𝕜) with hFP
  set value := fun d => FP ((Space.of F).next i d) with hvalue
  obtain ⟨arg, harg⟩ : ∃ arg, arg ∈ [Dir.N, .W, .E, .S].argmax value := by
    cases h : [Dir.N, .W, .E, .S].argmax value with
    | none => exact absurd (argmax_eq_none.mp h) (by simp)
    | some arg => exact ⟨arg, rfl⟩
  have hall : ∀ d : Dir, d ∈ [Dir.N, .W, .E, .S] := fun d => by cases d <;> simp
  have hmax : ∀ d, value d ≤ value arg := fun d => le_of_mem_argmax (hall d) harg
  have hturn : ∀ d, List.idxOf d [Dir.N, .W, .E, .S] = d.turn := fun d => by cases d <;> rfl
  have hfirst : ∀ d, value arg ≤ value d → arg.turn ≤ d.turn := fun d hd => by
    rw [← hturn, ← hturn]
    exact index_of_argmax harg (hall d) hd
  have hval : ∀ d j, look F ((Space.of F).next i d) = some j → value d = f j := fun d j hj => by
    rw [hvalue, hFP]
    simp only [scatter_eq, hj, Option.map_some, Option.getD_some]
  have hbot : ∀ d, look F ((Space.of F).next i d) = none → value d = ⊥ := fun d hd => by
    rw [hvalue, hFP]
    simp only [scatter_eq, hd, Option.map_none, Option.getD_none]
  have hpar : parOfValues (Space.of F) f i = if f i < value arg ∨ value arg = f i ∧ (arg = .N ∨ arg = .W) then
      ((Space.of F).P ((Space.of F).next i arg)).toNat else i := by
    unfold parOfValues
    simp only [← hFP, ← hvalue, Option.mem_def.mp harg, Option.getD_some]
    rfl
  have hprec : ∀ p, look F ((Space.of F).next i arg) = some p →
      (Before f p i ↔ f i < value arg ∨ value arg = f i ∧ (arg = .N ∨ arg = .W)) := by
    intro p hp
    obtain ⟨hpN, hbeside⟩ := (next_iff hi).mp hp
    rw [hval arg p hp, ← before_iff hbeside, ← lt_iff hpN hi]
    simp only [Before, WithBot.coe_lt_coe, WithBot.coe_inj]
  refine Parent.of_best (look F ((Space.of F).next i arg))
    (fun p hp => ⟨(look_next_some hi hp).2, fun j hj hne => ?_⟩)
    (fun hnone j hj => ?_) (fun p hp hbefore => ?_) fun hno => ?_
  · obtain ⟨d, hd⟩ := (near_iff hi).mp hj
    have hle := hmax d
    rw [hval d j hd, hval arg p hp, WithBot.coe_le_coe] at hle
    rcases hle.lt_or_eq with hlt | he
    · exact .inl hlt
    · refine .inr ⟨he.symm, ?_⟩
      have hle' := hfirst d (by rw [hval d j hd, hval arg p hp, he])
      have hlt' : arg.turn < d.turn := lt_of_le_of_ne hle' fun heq => hne (by
        have hsame : arg = d := by cases arg <;> cases d <;> first | rfl | cases heq
        rw [hsame, hd] at hp
        exact Option.some.inj hp)
      obtain ⟨hpN, hpb⟩ := (next_iff hi).mp hp
      obtain ⟨hjN, hjb⟩ := (next_iff hi).mp hd
      exact (lt_iff hpN hjN).mpr (turn_lt hlt' hpb hjb)
  · obtain ⟨d, hd⟩ := (near_iff hi).mp hj
    have hle := hmax d
    rw [hbot arg hnone, hval d j hd, le_bot_iff] at hle
    exact WithBot.coe_ne_bot hle
  · rw [hpar, if_pos ((hprec p hp).mp hbefore), P_eq, hp]
    rfl
  · rw [hpar, if_neg]
    intro hcond
    cases hp : look F ((Space.of F).next i arg) with
    | none =>
      rw [hbot arg hp] at hcond
      rcases hcond with hlt | ⟨he, -⟩
      · exact not_lt_bot hlt
      · exact WithBot.bot_ne_coe he
    | some p => exact hno p hp ((hprec p hp).mpr hcond)

/-- Ranks that order the cells as `Before` does. -/
structure Ranked (N : ℕ) (f : ℕ → 𝕜) (rank : ℕ → ℕ) : Prop where
  bound : ∀ i < N, rank i < N
  lt_iff : ∀ i < N, ∀ j < N, (rank i < rank j ↔ Before f i j)

variable {rank : ℕ → ℕ} {N : ℕ}

lemma Ranked.inj (h : Ranked N f rank) (hi : i < N) (hj : j < N) (he : rank i = rank j) : i = j := by
  by_contra hne
  have hij : ¬ Before f i j := fun hb => ((h.lt_iff i hi j hj).mpr hb).ne he
  have hji : ¬ Before f j i := fun hb => ((h.lt_iff j hj i hi).mpr hb).ne he.symm
  unfold Before at hij hji
  push Not at hij hji
  have heq : f i = f j := le_antisymm hij.1 hji.1
  exact hne (le_antisymm (hji.2 heq.symm) (hij.2 heq))

lemma ranks_ranked (N : ℕ) (f : ℕ → 𝕜) : Ranked N f (ranks N f) := by
  set order := (List.range N).insertionSort
    fun a b => OrderDual.toDual (f a) ≤ OrderDual.toDual (f b) with horder
  have hperm : order.Perm (List.range N) := perm_insertionSort _ _
  have hmem : ∀ i, i ∈ order ↔ i < N := fun i => hperm.mem_iff.trans mem_range
  have hpair : order.Pairwise (Before f) :=
    (stable_sort (fun i => OrderDual.toDual (f i)) pairwise_lt_range).imp fun h => h
  have hforth : ∀ i j, i < N → j < N → order.idxOf i < order.idxOf j → Before f i j := by
    intro i j hi hj hlt
    have hli := idxOf_lt_length_iff.mpr ((hmem i).mpr hi)
    have hlj := idxOf_lt_length_iff.mpr ((hmem j).mpr hj)
    have := pairwise_iff_getElem.mp hpair _ _ hli hlj hlt
    rwa [getElem_idxOf, getElem_idxOf] at this
  refine ⟨fun i hi => ?_, fun i hi j hj => ⟨hforth i j hi hj, fun hb => ?_⟩⟩
  · have := idxOf_lt_length_iff.mpr ((hmem i).mpr hi)
    rwa [hperm.length_eq, length_range] at this
  · rcases lt_trichotomy (order.idxOf i) (order.idxOf j) with hlt | he | hlt
    · exact hlt
    · exact absurd ((idxOf_inj ((hmem i).mpr hi)).mp he) hb.ne
    · exact absurd (hforth j i hj hi hlt) fun hb' => hb.asymm hb'

lemma parent_of_least (h : Ranked (Space.of F).N f rank) (hi : i < (Space.of F).N) (arg : Dir)
    (hmin : ∀ d, ((look F ((Space.of F).next i arg)).map fun j => WithTop.some (rank j)).getD ⊤ ≤
      ((look F ((Space.of F).next i d)).map fun j => WithTop.some (rank j)).getD ⊤)
    (hq : ∀ p, look F ((Space.of F).next i arg) = some p → rank p < rank i → q = p)
    (hself : (∀ p, look F ((Space.of F).next i arg) = some p → ¬ rank p < rank i) → q = i) :
    Parent F f i q := by
  refine Parent.of_best (look F ((Space.of F).next i arg))
    (fun p hp => ⟨(look_next_some hi hp).2, fun j hj hne => ?_⟩)
    (fun hnone j hj => ?_) (fun p hp hbefore => ?_) fun hno => ?_
  · obtain ⟨d, hd⟩ := (near_iff hi).mp hj
    have hle := hmin d
    rw [hp, hd, Option.map_some, Option.map_some, Option.getD_some, Option.getD_some, WithTop.coe_le_coe] at hle
    have hpN := (look_next_some hi hp).1
    exact (h.lt_iff p hpN j hj.1).mp (lt_of_le_of_ne hle fun he => hne (h.inj hpN hj.1 he).symm)
  · obtain ⟨d, hd⟩ := (near_iff hi).mp hj
    have hle := hmin d
    rw [hnone, hd, Option.map_none, Option.map_some, Option.getD_none, Option.getD_some, top_le_iff] at hle
    exact WithTop.coe_ne_top hle
  · exact hq p hp ((h.lt_iff p (look_next_some hi hp).1 i hi).mpr hbefore)
  · exact hself fun p hp hlt => hno p hp ((h.lt_iff p (look_next_some hi hp).1 i hi).mp hlt)

lemma parOfNeighbours_parent (h : Ranked (Space.of F).N f rank) (hi : i < (Space.of F).N) :
    Parent F f i (parOfNeighbours (Space.of F) rank i) := by
  set rn : Dir → WithTop ℕ := fun d => if 0 ≤ (Space.of F).P ((Space.of F).next i d) then
    WithTop.some (rank ((Space.of F).P ((Space.of F).next i d)).toNat) else ⊤ with hrn
  obtain ⟨arg, harg⟩ : ∃ arg, arg ∈ [Dir.N, .E, .S, .W].argmin rn := by
    cases h : [Dir.N, .E, .S, .W].argmin rn with
    | none => exact absurd (argmin_eq_none.mp h) (by simp)
    | some arg => exact ⟨arg, rfl⟩
  have hval : ∀ d, rn d =
      ((look F ((Space.of F).next i d)).map fun j => WithTop.some (rank j)).getD ⊤ := fun d => by
    rw [hrn]
    simp only [P_eq]
    cases look F ((Space.of F).next i d) with
    | none => rfl
    | some j => simp
  have hpar : parOfNeighbours (Space.of F) rank i = if rn arg < WithTop.some (rank i) then
      ((Space.of F).P ((Space.of F).next i arg)).toNat else i := by
    unfold parOfNeighbours
    simp only [← hrn, Option.mem_def.mp harg, Option.getD_some]
    rfl
  refine parent_of_least h hi arg (fun d => ?_) (fun p hp hlt => ?_) fun hno => ?_
  · rw [← hval, ← hval]
    exact le_of_mem_argmin (by cases d <;> simp) harg
  · rw [hpar, hval, hp, Option.map_some, Option.getD_some, if_pos (WithTop.coe_lt_coe.mpr hlt), P_eq, hp]
    rfl
  · rw [hpar, if_neg]
    intro hlt
    rw [hval] at hlt
    cases hp : look F ((Space.of F).next i arg) with
    | none =>
      rw [hp] at hlt
      exact not_top_lt hlt
    | some p =>
      rw [hp, Option.map_some, Option.getD_some, WithTop.coe_lt_coe] at hlt
      exact hno p hp hlt

lemma parOfPermutation_parent (h : Ranked (Space.of F).N f rank) (hi : i < (Space.of F).N) :
    Parent F f i (parOfPermutation (Space.of F) rank i) := by
  set RP : ℕ → WithTop ℕ := (Space.of F).scatter ⊤ fun j => WithTop.some (rank j) with hRP
  have hval : ∀ d, RP ((Space.of F).next i d) =
      ((look F ((Space.of F).next i d)).map fun j => WithTop.some (rank j)).getD ⊤ := fun d => scatter_eq _ _
  set m := min (min (RP ((Space.of F).next i .N)) (RP ((Space.of F).next i .E)))
    (min (RP ((Space.of F).next i .S)) (RP ((Space.of F).next i .W))) with hm
  have hle : ∀ d, m ≤ RP ((Space.of F).next i d) := fun d => by cases d <;> simp [hm]
  obtain ⟨arg, harg⟩ : ∃ arg, m = RP ((Space.of F).next i arg) := by
    rw [hm]
    rcases min_choice (min (RP ((Space.of F).next i .N)) (RP ((Space.of F).next i .E)))
      (min (RP ((Space.of F).next i .S)) (RP ((Space.of F).next i .W))) with he | he <;> rw [he]
    · rcases min_choice (RP ((Space.of F).next i .N)) (RP ((Space.of F).next i .E)) with he | he
      · exact ⟨.N, he⟩
      · exact ⟨.E, he⟩
    · rcases min_choice (RP ((Space.of F).next i .S)) (RP ((Space.of F).next i .W)) with he | he
      · exact ⟨.S, he⟩
      · exact ⟨.W, he⟩
  have hpar : parOfPermutation (Space.of F) rank i = if m < WithTop.some (rank i) then
      ((List.range (Space.of F).N).map rank).idxOf (min (m.untopD ((Space.of F).N - 1)) ((Space.of F).N - 1))
      else i := rfl
  refine parent_of_least h hi arg (fun d => ?_) (fun p hp hlt => ?_) fun hno => ?_
  · rw [← hval, ← hval, ← harg]
    exact hle d
  · obtain ⟨hpN, -⟩ := look_next_some hi hp
    have hmp : m = WithTop.some (rank p) := by rw [harg, hval, hp]; rfl
    have hmin : min (rank p) ((Space.of F).N - 1) = rank p := min_eq_left (Nat.le_sub_one_of_lt (h.bound p hpN))
    rw [hpar, hmp, if_pos (WithTop.coe_lt_coe.mpr hlt), WithTop.untopD_coe, hmin]
    have hin : rank p ∈ (List.range (Space.of F).N).map rank := mem_map_of_mem (mem_range.mpr hpN)
    have hlen := idxOf_lt_length_iff.mpr hin
    have hget := getElem_idxOf hlen
    rw [getElem_map, getElem_range] at hget
    rw [length_map, length_range] at hlen
    exact h.inj hlen hpN hget
  · rw [hpar, if_neg]
    intro hlt
    rw [harg, hval] at hlt
    cases hp : look F ((Space.of F).next i arg) with
    | none =>
      rw [hp] at hlt
      exact not_top_lt hlt
    | some p =>
      rw [hp, Option.map_some, Option.getD_some, WithTop.coe_lt_coe] at hlt
      exact hno p hp hlt

/-! ### The basins -/

variable {par : ℕ → ℕ}

lemma Parent.falls (h : Ranked (Space.of F).N f rank)
    (hpar : ∀ i < (Space.of F).N, Parent F f i (par i)) : Falls par rank (Space.of F).N := by
  refine ⟨fun i hi => ?_, fun i hi => ?_, h.bound⟩
  · by_cases hself : par i = i
    · rwa [hself]
    · exact ((hpar i hi).near hself).1.1
  · by_cases hself : par i = i
    · exact .inl hself
    · obtain ⟨hnear, hbefore⟩ := (hpar i hi).near hself
      exact .inr ((h.lt_iff _ hnear.1 i hi).mpr hbefore)

def rootsOf (N : ℕ) (par : ℕ → ℕ) (r : ℕ → ℕ → Prop) [DecidableRel r] : List ℕ :=
  ((List.range N).filter fun i => par^[N] i = i).insertionSort r

lemma finish_eq (h : Falls par rank N) (r : ℕ → ℕ → Prop) [DecidableRel r] {fuel : ℕ} (hfuel : N < fuel) :
    finish fuel N par r =
      some ⟨(List.range N).map fun i => (rootsOf N par r).idxOf (par^[N] i), rootsOf N par r⟩ := by
  obtain ⟨fuel, rfl⟩ : ∃ m, fuel = m + 1 := ⟨fuel - 1, by omega⟩
  have hpow : N ≤ 2 ^ (0 + fuel) := by
    rw [Nat.zero_add]
    exact (Nat.le_of_lt_succ hfuel).trans fuel.lt_two_pow_self.le
  have hdoubled := h.doubling_eq fuel 0 hpow
  rw [pow_zero, Function.iterate_one] at hdoubled
  have hroots : ((List.range N).filter fun i => (table N par^[N]).getD i 0 = i).insertionSort r =
      rootsOf N par r := by
    refine congrArg (List.insertionSort r) (filter_congr fun i hi => ?_)
    rw [table_getD (mem_range.mp hi)]
  simp only [finish, hdoubled, Option.bind_eq_bind, Option.bind_some, hroots]
  rw [table, map_map]
  rfl

lemma mem_rootsOf {r : ℕ → ℕ → Prop} [DecidableRel r] : i ∈ rootsOf N par r ↔ i < N ∧ par^[N] i = i := by
  rw [rootsOf, mem_insertionSort, mem_filter, mem_range, decide_eq_true_eq]

lemma roots_by_rank (h : Ranked N f rank) (par : ℕ → ℕ) :
    (rootsOf N par fun a b => rank a ≤ rank b).Pairwise fun a b => rank a < rank b := by
  have hnodup : (rootsOf N par fun a b => rank a ≤ rank b).Nodup :=
    (perm_insertionSort _ _).nodup_iff.mpr (nodup_range.filter _)
  refine ((sort_pairwise rank _).and hnodup).imp_of_mem fun {a b} ha hb hab => ?_
  exact lt_of_le_of_ne hab.1 fun he => hab.2 (h.inj (mem_rootsOf.mp ha).1 (mem_rootsOf.mp hb).1 he)

lemma roots_by_value (h : Ranked N f rank) (par : ℕ → ℕ) :
    (rootsOf N par fun a b => OrderDual.toDual (f a) ≤ OrderDual.toDual (f b)).Pairwise fun a b =>
      rank a < rank b := by
  have hstable := stable_sort (fun i => OrderDual.toDual (f i))
    (pairwise_lt_range.filter fun i => decide (par^[N] i = i) : ((List.range N).filter _).Pairwise (· < ·))
  refine List.Pairwise.imp_of_mem (fun {a b} ha hb hab => ?_) hstable
  exact (h.lt_iff a (mem_rootsOf.mp ha).1 b (mem_rootsOf.mp hb).1).mpr hab

end

section
variable {𝕜 : Type*} [LinearOrder 𝕜]

/-- Without ranks and with them, by either rule, the basins are the same, and no neighbour precedes a root. -/
theorem basins_without_ranks (F : Plane Bool) (f : ℕ → 𝕜) : ∃ B : Basins,
    (∀ fuel > (Space.of F).N, raw_basins_f (Space.of F) f fuel = some B ∧
      raw_basins (Space.of F) (ranks (Space.of F).N f) fuel = some B ∧
      ∀ par ∈ [parOfPermutation (Space.of F) (ranks (Space.of F).N f),
          parOfNeighbours (Space.of F) (ranks (Space.of F).N f)],
        finish fuel (Space.of F).N par
          (fun a b => ranks (Space.of F).N f a ≤ ranks (Space.of F).N f b) = some B) ∧
    B.bid.length = (Space.of F).N ∧
    ∀ i < (Space.of F).N, ∃ k r, B.bid[i]? = some k ∧ B.roots[k]? = some r ∧ r < (Space.of F).N ∧
      ∀ j, Near F r j → ¬ Before f j r := by
  have hranked := ranks_ranked (Space.of F).N f
  set N := (Space.of F).N with hN
  set rank := ranks N f
  set par := parOfValues (Space.of F) f with hpar
  have hparent : ∀ i < N, Parent F f i (par i) := fun i hi => parOfValues_parent f hi
  have hfalls : Falls par rank N := Parent.falls hranked hparent
  have hroots : (rootsOf N par fun a b => OrderDual.toDual (f a) ≤ OrderDual.toDual (f b)) =
      rootsOf N par fun a b => rank a ≤ rank b :=
    ordered_unique (roots_by_value hranked par)
      (roots_by_rank hranked par) fun a => by rw [mem_rootsOf, mem_rootsOf]
  set roots := rootsOf N par fun a b => rank a ≤ rank b with hrootsdef
  have hrule : ∀ par', (∀ i < N, Parent F f i (par' i)) →
      ∀ fuel > N, finish fuel N par' (fun a b => rank a ≤ rank b) =
      some ⟨(List.range N).map fun i => roots.idxOf (par^[N] i), roots⟩ := by
    intro par' hpar' fuel hfuel
    have hsame : table N par' = table N par := table_ext fun i hi => (hpar' i hi).unique (hparent i hi)
    have hfinish : finish fuel N par' (fun a b => rank a ≤ rank b) =
        finish fuel N par fun a b => rank a ≤ rank b := by
      unfold finish
      rw [hsame]
    rw [hfinish, finish_eq hfalls _ hfuel]
  refine ⟨⟨(List.range N).map fun i => roots.idxOf (par^[N] i), roots⟩, fun fuel hfuel => ⟨?_, ?_, ?_⟩, ?_,
    fun i hi => ?_⟩
  · rw [raw_basins_f, finish_eq hfalls _ hfuel, hroots]
  · refine hrule _ (fun i hi => ?_) fuel hfuel
    split_ifs
    · exact parOfPermutation_parent hranked hi
    · exact parOfNeighbours_parent hranked hi
  · intro par' hmem
    rcases mem_pair.mp hmem with rfl | rfl
    · exact hrule _ (fun i hi => parOfPermutation_parent hranked hi) fuel hfuel
    · exact hrule _ (fun i hi => parOfNeighbours_parent hranked hi) fuel hfuel
  · rw [length_map, length_range]
  · have hlt := hfalls.iterate_lt hi N
    have hfixed := hfalls.fixed hi
    have hin : par^[N] i ∈ roots := mem_rootsOf.mpr ⟨hlt, Function.iterate_fixed hfixed N⟩
    refine ⟨roots.idxOf (par^[N] i), par^[N] i, ?_, ?_, hlt, ?_⟩
    · rw [List.getElem?_map, List.getElem?_range hi]
      rfl
    · rw [List.getElem?_eq_getElem (idxOf_lt_length_iff.mpr hin), getElem_idxOf]
    · exact (hparent _ hlt).self hfixed

end
end CloudServer.RawBasins
