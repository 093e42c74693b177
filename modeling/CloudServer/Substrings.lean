import Mathlib

/-! The first place of a pattern in a list, also in one that is cut short, and lists of lines: the first
line that ends in a marker. -/
namespace CloudServer.Substrings

open List Option

variable {α : Type}

section Find
variable [DecidableEq α]

def find (pat : List α) : List α → Option ℕ
  | [] => if pat = [] then some 0 else none
  | c :: t => if pat <+: c :: t then some 0 else (find pat t).map (· + 1)

def upto (pat l : List α) : List α :=
  match find pat l with
  | none => l
  | some e => l.take e

variable {pat l : List α} {e : ℕ}

lemma find_nil : find pat ([] : List α) = if pat = [] then some 0 else none := rfl

lemma find_cons (c : α) (t : List α) : find pat (c :: t) = if pat <+: c :: t then some 0 else (find pat t).map (· + 1) := rfl

lemma find_at_start (h : pat <+: l) : find pat l = some 0 := by
  cases l with
  | nil => rw [find_nil, if_pos (prefix_nil.mp h)]
  | cons c t => rw [find_cons, if_pos h]

lemma find_cons_of_not {c : α} (h : ¬ pat <+: c :: l) :
    find pat (c :: l) = (find pat l).map (· + 1) := by
  rw [find_cons, if_neg h]

lemma find_eq_some_iff : find pat l = some e ↔
    e ≤ l.length ∧ pat <+: l.drop e ∧ ∀ i < e, ¬ pat <+: l.drop i := by
  induction l generalizing e with
  | nil =>
    rw [find_nil]
    by_cases hp : pat = []
    · simp only [hp, if_true, Option.some.injEq, length_nil, Nat.le_zero, nil_prefix, true_and]
      constructor
      · rintro rfl
        exact ⟨rfl, fun i hi => absurd hi (Nat.not_lt_zero i)⟩
      · exact fun h => h.1.symm
    · simp [hp]
  | cons c t ih =>
    by_cases hp : pat <+: c :: t
    · rw [find_at_start hp]
      constructor
      · intro h
        cases h
        exact ⟨Nat.zero_le _, hp, fun i hi => absurd hi (Nat.not_lt_zero i)⟩
      · rintro ⟨-, -, hfirst⟩
        cases e with
        | zero => rfl
        | succ e => exact absurd hp (hfirst 0 (Nat.succ_pos e))
    · rw [find_cons_of_not hp, map_eq_some_iff]
      constructor
      · rintro ⟨e, he, rfl⟩
        obtain ⟨hle, hat, hfirst⟩ := ih.mp he
        refine ⟨Nat.succ_le_succ hle, hat, fun i hi => ?_⟩
        cases i with
        | zero => exact hp
        | succ i => exact hfirst i (Nat.lt_of_succ_lt_succ hi)
      · rintro ⟨hle, hat, hfirst⟩
        cases e with
        | zero => exact absurd hat hp
        | succ e =>
          have he := ih.mpr ⟨Nat.le_of_succ_le_succ hle, hat, fun i hi => hfirst (i + 1) (by omega)⟩
          exact ⟨e, he, rfl⟩

lemma find_eq_none_iff : find pat l = none ↔ ∀ i ≤ l.length, ¬ pat <+: l.drop i := by
  constructor
  · intro h i hi hat
    obtain ⟨j, hj, hmin⟩ : ∃ j, (j ≤ l.length ∧ pat <+: l.drop j) ∧
        ∀ k < j, ¬ (k ≤ l.length ∧ pat <+: l.drop k) := by
      classical
      have hex : ∃ j, j ≤ l.length ∧ pat <+: l.drop j := ⟨i, hi, hat⟩
      exact ⟨Nat.find hex, Nat.find_spec hex, fun k hk => Nat.find_min hex hk⟩
    have hsome := find_eq_some_iff.mpr ⟨hj.1, hj.2, fun k hk hk' => hmin k hk ⟨by omega, hk'⟩⟩
    rw [h] at hsome
    cases hsome
  · intro h
    cases hf : find pat l with
    | none => rfl
    | some e =>
      obtain ⟨hle, hat, -⟩ := find_eq_some_iff.mp hf
      exact absurd hat (h e hle)

lemma find_le (h : find pat l = some e) : e + pat.length ≤ l.length := by
  obtain ⟨hle, hat, -⟩ := find_eq_some_iff.mp h
  have hlen := hat.length_le
  rw [length_drop] at hlen
  omega

lemma find_take (h : find pat l = some e) (n : ℕ) :
    find pat (l.take n) = if e + pat.length ≤ n then some e else none := by
  obtain ⟨hle, hat, hfirst⟩ := find_eq_some_iff.mp h
  have hlen := find_le h
  by_cases hn : e + pat.length ≤ n
  · rw [if_pos hn, find_eq_some_iff]
    refine ⟨by rw [length_take]; omega, ?_, fun i hi hpat => hfirst i hi ?_⟩
    · rw [drop_take]
      exact prefix_take_iff.mpr ⟨hat, by omega⟩
    · rw [drop_take] at hpat
      exact hpat.trans (List.take_prefix _ _)
  · rw [if_neg hn, find_eq_none_iff]
    intro i hi hpat
    rw [drop_take] at hpat
    have hilen := hpat.length_le
    rw [length_take, length_drop] at hilen
    rw [length_take] at hi
    by_cases hie : i < e
    · exact hfirst i hie (hpat.trans (List.take_prefix _ _))
    · omega

lemma find_append (h : find pat l = some e) (t : List α) : find pat (l ++ t) = some e := by
  obtain ⟨hle, hat, hfirst⟩ := find_eq_some_iff.mp h
  rw [find_eq_some_iff]
  refine ⟨by rw [length_append]; omega, ?_, fun i hi hpat => hfirst i hi ?_⟩
  · rw [drop_append_of_le_length hle]
    exact hat.trans (prefix_append _ _)
  · rw [drop_append_of_le_length (by omega)] at hpat
    have hlen := find_le h
    have htake : (l.drop i ++ t).take (l.drop i).length = l.drop i := take_left
    rw [← htake]
    exact prefix_take_iff.mpr ⟨hpat, by rw [length_drop]; omega⟩

lemma find_shift {sep : α} {l t : List α} (hbefore : ∀ i ≤ l.length, ¬ pat <+: (l ++ sep :: t).drop i) :
    find pat (l ++ sep :: t) = (find pat t).map fun e => e + (l.length + 1) := by
  have hafter : ∀ i, (l ++ sep :: t).drop (l.length + 1 + i) = t.drop i := by
    intro i
    rw [Nat.add_assoc, drop_length_add_append, Nat.add_comm 1 i]
    rfl
  cases hf : find pat t with
  | none =>
    rw [find_eq_none_iff] at hf
    rw [map_none, find_eq_none_iff]
    intro i hi
    by_cases hil : i ≤ l.length
    · exact hbefore i hil
    · obtain ⟨j, rfl⟩ := Nat.exists_eq_add_of_le (Nat.lt_of_not_le hil)
      rw [hafter]
      exact hf j (by simp at hi; omega)
  | some e =>
    obtain ⟨hle, hat, hfirst⟩ := find_eq_some_iff.mp hf
    rw [map_some, find_eq_some_iff, Nat.add_comm e, hafter]
    refine ⟨by simp; omega, hat, fun i hi => ?_⟩
    by_cases hil : i ≤ l.length
    · exact hbefore i hil
    · obtain ⟨j, rfl⟩ := Nat.exists_eq_add_of_le (Nat.lt_of_not_le hil)
      rw [hafter]
      exact hfirst j (by omega)

end Find

/-! ### Lines -/

variable (sep : α)

def unlines (ls : List (List α)) : List α := ls.flatMap fun l => l ++ [sep]

variable {sep}

@[simp] lemma unlines_nil : unlines sep [] = [] := rfl

lemma unlines_cons (l : List α) (ls : List (List α)) :
    unlines sep (l :: ls) = l ++ sep :: unlines sep ls := by
  simp [unlines]

lemma unlines_append (ls ls' : List (List α)) :
    unlines sep (ls ++ ls') = unlines sep ls ++ unlines sep ls' := flatMap_append

lemma splitOn_unlines_append [DecidableEq α] {ls : List (List α)} (h : ∀ l ∈ ls, sep ∉ l) (last : List α) :
    (unlines sep ls ++ last).splitOn sep = ls ++ last.splitOn sep := by
  induction ls with
  | nil => rfl
  | cons l ls ih =>
    rw [unlines_cons, append_assoc, cons_append, splitOn_append_cons_self_of_not_mem (h l mem_cons_self),
      ih fun m hm => h m (mem_cons_of_mem _ hm)]
    rfl

lemma exists_unlines (sep : α) (l : List α) : ∃ ls last, l = unlines sep ls ++ last ∧
    (∀ m ∈ ls, sep ∉ m) ∧ sep ∉ last := by
  induction l with
  | nil => exact ⟨[], [], rfl, by simp, by simp⟩
  | cons c t ih =>
    obtain ⟨ls, last, rfl, hls, hlast⟩ := ih
    by_cases hc : c = sep
    · refine ⟨[] :: ls, last, ?_, ?_, hlast⟩
      · rw [hc, unlines_cons]
        rfl
      · intro m hm
        rcases mem_cons.mp hm with rfl | hm
        · exact not_mem_nil
        · exact hls m hm
    · have hcs : sep ≠ c := fun heq => hc heq.symm
      cases ls with
      | nil => exact ⟨[], c :: last, rfl, hls, by simp [hlast, hcs]⟩
      | cons m ls =>
        refine ⟨(c :: m) :: ls, last, ?_, ?_, hlast⟩
        · rw [unlines_cons, unlines_cons]
          rfl
        · intro k hk
          rcases mem_cons.mp hk with rfl | hk
          · have hm := hls m mem_cons_self
            simp [hm, hcs]
          · exact hls k (mem_cons_of_mem _ hk)

section Marker
variable [DecidableEq α] {e : ℕ} {w : List α} (hw : sep ∉ w)
include hw

lemma prefix_drop_iff {l : List α} (hl : sep ∉ l) (t : List α) {i : ℕ} (hi : i ≤ l.length) :
    w ++ [sep] <+: (l ++ sep :: t).drop i ↔ w = l.drop i := by
  rw [drop_append_of_le_length hi]
  constructor
  · rintro ⟨s, hs⟩
    rw [append_assoc] at hs
    have hdrop : sep ∉ l.drop i := fun hmem => hl (mem_of_mem_drop hmem)
    have h1 := splitOn_append_cons_self_of_not_mem hw s
    have h2 := splitOn_append_cons_self_of_not_mem hdrop t
    have heq : w ++ sep :: s = l.drop i ++ sep :: t := hs
    rw [heq, h2] at h1
    exact (List.cons.inj h1).1.symm
  · intro h
    exact ⟨t, by rw [← h]; simp⟩

lemma find_marker_skip {l : List α} (hl : sep ∉ l) (hnot : ¬ w <:+ l) (t : List α) :
    find (w ++ [sep]) (l ++ sep :: t) = (find (w ++ [sep]) t).map fun e => e + (l.length + 1) := by
  apply find_shift
  intro i hi hpat
  rw [prefix_drop_iff hw hl t hi] at hpat
  exact hnot (hpat ▸ drop_suffix i l)

lemma find_marker {ls : List (List α)} (hls : ∀ l ∈ ls, sep ∉ l ∧ ¬ w <:+ l) {last : List α}
    (hlast : sep ∉ last) (t : List α) :
    find (w ++ [sep]) (unlines sep ls ++ (last ++ (w ++ sep :: t))) = some ((unlines sep ls ++ last).length) := by
  induction ls with
  | nil =>
    have hline : sep ∉ last ++ w := by simp [hlast, hw]
    rw [unlines_nil, nil_append, nil_append, ← append_assoc, find_eq_some_iff]
    refine ⟨by simp, ?_, fun i hi hpat => ?_⟩
    · rw [prefix_drop_iff hw hline t (by simp)]
      simp
    · rw [prefix_drop_iff hw hline t (by simp; omega)] at hpat
      have hlen := congrArg List.length hpat
      simp only [length_drop, length_append] at hlen
      omega
  | cons l ls ih =>
    obtain ⟨hl, hnot⟩ := hls l mem_cons_self
    rw [unlines_cons, append_assoc, cons_append, find_marker_skip hw hl hnot,
      ih fun m hm => hls m (mem_cons_of_mem _ hm), map_some]
    simp only [length_append, length_cons, Option.some.injEq]
    omega

lemma find_marker_inv {l : List α} (h : find (w ++ [sep]) l = some e) :
    ∃ ls last t, l = unlines sep ls ++ (last ++ (w ++ sep :: t)) ∧
      l.take e = unlines sep ls ++ last ∧ (∀ m ∈ ls, sep ∉ m ∧ ¬ w <:+ m) ∧ sep ∉ last := by
  obtain ⟨ls, last, hl, hls, hlast⟩ := exists_unlines sep l
  induction ls generalizing l e with
  | nil =>
    exfalso
    rw [unlines_nil, nil_append] at hl
    subst hl
    obtain ⟨-, hat, -⟩ := find_eq_some_iff.mp h
    have hmem : sep ∈ l.drop e := hat.subset (by simp)
    exact hlast (mem_of_mem_drop hmem)
  | cons m ls ih =>
    obtain hm := hls m mem_cons_self
    rw [unlines_cons, append_assoc, cons_append] at hl
    by_cases hsuf : w <:+ m
    · obtain ⟨last', rfl⟩ := hsuf
      have hlast' : sep ∉ last' := fun hmem => hm (mem_append_left _ hmem)
      have hl' : l = unlines sep [] ++ (last' ++ (w ++ sep :: (unlines sep ls ++ last))) := by
        rw [hl, append_assoc]
        rfl
      have hfind : find (w ++ [sep]) (unlines sep [] ++ (last' ++ (w ++ sep :: (unlines sep ls ++
          last)))) = _ := find_marker hw (by simp) hlast' _
      rw [← hl', h] at hfind
      cases hfind
      refine ⟨[], last', _, hl', ?_, by simp, hlast'⟩
      rw [hl']
      simp
    · rw [hl, find_marker_skip hw hm hsuf, map_eq_some_iff] at h
      obtain ⟨e', he', rfl⟩ := h
      obtain ⟨ls', last', t, heq, htake, hls', hlast'⟩ :=
        ih he' rfl (fun k hk => hls k (mem_cons_of_mem _ hk))
      refine ⟨m :: ls', last', t, ?_, ?_, ?_, hlast'⟩
      · rw [hl, heq, unlines_cons]
        simp
      · rw [hl, unlines_cons, show e' + (m.length + 1) = m.length + (e' + 1) by omega,
          take_length_add_append, take_succ_cons, htake]
        simp
      · intro k hk
        rcases mem_cons.mp hk with rfl | hk
        · exact ⟨hm, hsuf⟩
        · exact hls' k hk

end Marker

/-! ### A pattern within lines -/

section Within
variable [DecidableEq α] {e : ℕ} {w : List α}

lemma find_of_notMem {c : α} (hc : c ∈ w) {l : List α} (hl : c ∉ l) : find w l = none := by
  rw [find_eq_none_iff]
  intro i _ hpat
  exact hl (mem_of_mem_drop (hpat.subset hc))

lemma upto_append {l : List α} (h : find w l = some e) (t : List α) : upto w (l ++ t) = upto w l := by
  have hle := find_le h
  unfold upto
  rw [h, find_append h t]
  exact take_append_of_le_length (by omega)

lemma find_skip (hw : sep ∉ w) {l : List α} (hl : find w l = none) (t : List α) :
    find w (l ++ sep :: t) = (find w t).map fun e => e + (l.length + 1) := by
  rw [find_eq_none_iff] at hl
  apply find_shift
  intro i hi hpat
  rw [drop_append_of_le_length hi] at hpat
  rcases Nat.lt_or_ge (l.drop i).length w.length with hlt | hge
  · -- the pattern would hold the separator
    apply hw
    have hmem : (l.drop i ++ sep :: t)[(l.drop i).length]? = some sep := by
      rw [List.getElem?_append_right (Nat.le_refl _), Nat.sub_self]
      rfl
    obtain ⟨s, hs⟩ := hpat
    rw [← hs, List.getElem?_append_left hlt] at hmem
    exact mem_of_getElem? hmem
  · apply hl i hi
    have htake : (l.drop i ++ sep :: t).take (l.drop i).length = l.drop i := take_left
    rw [← htake]
    exact prefix_take_iff.mpr ⟨hpat, hge⟩

lemma upto_skip (hw : sep ∉ w) {l : List α} (hl : find w l = none) (t : List α) :
    upto w (l ++ sep :: t) = l ++ sep :: upto w t := by
  unfold upto
  rw [find_skip hw hl]
  cases find w t with
  | none => rfl
  | some e =>
    change (l ++ sep :: t).take (e + (l.length + 1)) = _
    rw [Nat.add_comm, Nat.add_assoc, take_length_add_append, Nat.add_comm 1 e, take_succ_cons]

lemma upto_unlines (hw : sep ∉ w) {ls : List (List α)} (h : find w (unlines sep ls) = none) (t : List α) :
    upto w (unlines sep ls ++ t) = unlines sep ls ++ upto w t := by
  induction ls with
  | nil => rfl
  | cons l ls ih =>
    rw [unlines_cons] at h
    have hl : find w l = none := by
      cases hf : find w l with
      | none => rfl
      | some e =>
        rw [find_append hf] at h
        cases h
    rw [find_skip hw hl, map_eq_none_iff] at h
    rw [unlines_cons, append_assoc, cons_append, upto_skip hw hl, ih h, append_assoc]
    rfl

end Within

end CloudServer.Substrings
