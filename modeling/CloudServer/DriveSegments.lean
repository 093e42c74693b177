import CloudServer.DriveStats

/-! The movements of the tracks, whatever the order of their rows, and those of the SQL. -/
namespace CloudServer.DriveStats
open KeySort List

section
variable {α κ : Type*} [LinearOrder κ] {f : α → κ} {l : List α} {a b : α}

lemma mem_pairs_iff (h : l.Pairwise fun a b => f a < f b) :
    (a, b) ∈ pairs l ↔ a ∈ l ∧ b ∈ l ∧ f a < f b ∧ ∀ c ∈ l, f a < f c → ¬ f c < f b := by
  induction l with
  | nil => simp [pairs]
  | cons x l ih =>
    obtain ⟨hx, hl⟩ := pairwise_cons.mp h
    cases l with
    | nil =>
      refine iff_of_false (by simp [pairs]) ?_
      rintro ⟨ha, hb, hlt, -⟩
      rw [mem_singleton.mp ha, mem_singleton.mp hb] at hlt
      exact lt_irrefl _ hlt
    | cons y l =>
      have hxy := hx y mem_cons_self
      have hy : ∀ c ∈ y :: l, f y ≤ f c := fun c hc => by
        rcases mem_cons.mp hc with rfl | hc
        · exact le_rfl
        · exact ((pairwise_cons.mp hl).1 c hc).le
      rw [show pairs (x :: y :: l) = (x, y) :: pairs (y :: l) from rfl, mem_cons, ih hl, Prod.mk.injEq]
      constructor
      · rintro (⟨rfl, rfl⟩ | ⟨ha, hb, hlt, hnone⟩)
        · refine ⟨mem_cons_self, mem_cons_of_mem _ mem_cons_self, hxy, fun c hc hac hcb => ?_⟩
          rcases mem_cons.mp hc with rfl | hc
          · exact lt_irrefl _ hac
          · exact hcb.not_ge (hy c hc)
        · refine ⟨mem_cons_of_mem _ ha, mem_cons_of_mem _ hb, hlt, fun c hc hac hcb => ?_⟩
          rcases mem_cons.mp hc with rfl | hc
          · exact lt_asymm hac (hx a ha)
          · exact hnone c hc hac hcb
      · rintro ⟨ha, hb, hlt, hnone⟩
        have hb' : b ∈ y :: l := (mem_cons.mp hb).resolve_left fun he => by
          rcases mem_cons.mp ha with rfl | ha
          · exact (he ▸ hlt).false
          · exact lt_asymm hlt (he ▸ hx a ha)
        rcases mem_cons.mp ha with rfl | ha
        · refine .inl ⟨rfl, ?_⟩
          rcases mem_cons.mp hb' with rfl | hb''
          · rfl
          · exact absurd ((pairwise_cons.mp hl).1 b hb'')
              (hnone y (mem_cons_of_mem _ mem_cons_self) hxy)
        · exact .inr ⟨ha, hb', hlt, fun c hc => hnone c (mem_cons_of_mem _ hc)⟩

lemma pairs_ordered (h : l.Pairwise fun a b => f a < f b) : (pairs l).Pairwise fun s t => f s.2 ≤ f t.1 := by
  induction l with
  | nil => exact .nil
  | cons x l ih =>
    obtain ⟨-, hl⟩ := pairwise_cons.mp h
    cases l with
    | nil => exact .nil
    | cons y l =>
      refine pairwise_cons.mpr ⟨fun t ht => ?_, ih hl⟩
      rcases mem_cons.mp (of_mem_zip ht).1 with he | hmem
      · exact (congrArg f he).ge
      · exact ((pairwise_cons.mp hl).1 _ hmem).le

lemma pairs_nodup (h : l.Nodup) : (pairs l).Nodup := by
  refine .of_map Prod.snd ?_
  rw [pairs, map_snd_zip (by simp)]
  exact h.tail

end

section
variable {α : Type*} [DecidableEq α] {l : List α} {v w : α}

lemma codesOf_spec (l : List α) : (codesOf l).Nodup ∧ ∀ v, v ∈ codesOf l ↔ v ∈ l := by
  have hfold : ∀ (l codes : List α), codes.Nodup →
      (l.foldl (fun codes v => if v ∈ codes then codes else codes ++ [v]) codes).Nodup ∧
      ∀ v, v ∈ l.foldl (fun codes v => if v ∈ codes then codes else codes ++ [v]) codes ↔ v ∈ codes ∨ v ∈ l := by
    intro l
    induction l with
    | nil => exact fun codes h => ⟨h, fun v => by simp⟩
    | cons w l ih =>
      intro codes h
      rw [foldl_cons]
      by_cases hw : w ∈ codes
      · rw [if_pos hw]
        refine ⟨(ih codes h).1, fun v => ?_⟩
        rw [(ih codes h).2 v, mem_cons]
        constructor
        · exact Or.imp_right Or.inr
        · rintro (hv | rfl | hv)
          exacts [.inl hv, .inl hw, .inr hv]
      · rw [if_neg hw]
        have h' : (codes ++ [w]).Nodup := nodup_append.mpr ⟨h, nodup_singleton w, by
          rintro a ha _ hb rfl
          exact hw (mem_singleton.mp hb ▸ ha)⟩
        refine ⟨(ih _ h').1, fun v => ?_⟩
        rw [(ih _ h').2 v, mem_append, mem_singleton, mem_cons, or_assoc]
  refine ⟨(hfold l [] nodup_nil).1, fun v => ?_⟩
  rw [codesOf, (hfold l [] nodup_nil).2 v]
  simp

lemma code_inj (hv : v ∈ l) : (codesOf l).idxOf v = (codesOf l).idxOf w ↔ v = w :=
  idxOf_inj ((codesOf_spec l).2 v |>.mpr hv)

end

section
variable {ρ γ 𝕜 : Type*} [DecidableEq ρ] [DecidableEq γ] [Field 𝕜] [LinearOrder 𝕜]
    {hypot : 𝕜 → 𝕜 → 𝕜} {p : Params 𝕜}
variable {rows rows' : List (Row ρ γ 𝕜)} {a b : Row ρ γ 𝕜}

def Distinct (rows : List (Row ρ γ 𝕜)) : Prop := rows.Pairwise fun a b => a.run = b.run → a.ts ≠ b.ts

def Consecutive (rows : List (Row ρ γ 𝕜)) (a b : Row ρ γ 𝕜) : Prop :=
  ∀ c ∈ rows, c.run = a.run → a.ts < c.ts → ¬ c.ts < b.ts

structure Follows (rows : List (Row ρ γ 𝕜)) (a b : Row ρ γ 𝕜) : Prop where
  first : a ∈ rows
  last : b ∈ rows
  run : a.run = b.run
  group : a.group = b.group
  later : a.ts < b.ts
  consecutive : Consecutive rows a b

def sorted (rows : List (Row ρ γ 𝕜)) : List (Row ρ γ 𝕜) :=
  rows.insertionSort fun a b => toLex (code rows a.run, a.ts) ≤ toLex (code rows b.run, b.ts)

omit [DecidableEq γ] [Field 𝕜] in
lemma mem_sorted {r : Row ρ γ 𝕜} : r ∈ sorted rows ↔ r ∈ rows := (perm_insertionSort _ rows).mem_iff

omit [DecidableEq ρ] [DecidableEq γ] [Field 𝕜] [LinearOrder 𝕜] in
lemma Distinct.perm (h : Distinct rows) (hperm : rows.Perm rows') : Distinct rows' :=
  (hperm.pairwise_iff fun hab hrun hts => hab hrun.symm hts.symm).mp h

omit [DecidableEq γ] [Field 𝕜] in
lemma sorted_strict (h : Distinct rows) :
    (sorted rows).Pairwise fun a b => toLex (code rows a.run, a.ts) < toLex (code rows b.run, b.ts) := by
  have hle := sort_pairwise (fun r : Row ρ γ 𝕜 => toLex (code rows r.run, r.ts)) rows
  have hne := h.perm (perm_insertionSort (fun a b : Row ρ γ 𝕜 =>
    toLex (code rows a.run, a.ts) ≤ toLex (code rows b.run, b.ts)) rows).symm
  refine (hle.and hne).imp_of_mem fun {a b} ha _ hab => lt_of_le_of_ne hab.1 fun he => ?_
  have hpair := Prod.mk.inj (toLex.injective he)
  have hrun : a.run ∈ rows.map Row.run := mem_map_of_mem (mem_sorted.mp ha)
  exact hab.2 ((code_inj hrun).mp hpair.1) hpair.2

omit [Field 𝕜] in
lemma mem_same_iff (h : Distinct rows) : (a, b) ∈ ((pairs (sorted rows)).filter fun s =>
    code rows s.1.run = code rows s.2.run ∧ grp rows s.1 = grp rows s.2) ↔ Follows rows a b := by
  rw [mem_filter, decide_eq_true_eq, mem_pairs_iff (sorted_strict h), mem_sorted, mem_sorted]
  have hrun : ∀ {a b : Row ρ γ 𝕜}, a ∈ rows → (code rows a.run = code rows b.run ↔ a.run = b.run) := fun ha =>
    code_inj (mem_map_of_mem ha)
  have hgroup : ∀ {a b : Row ρ γ 𝕜}, a ∈ rows → (grp rows a = grp rows b ↔ a.group = b.group) := fun ha =>
    code_inj (mem_map_of_mem ha)
  have hlt : ∀ {a b : Row ρ γ 𝕜}, a ∈ rows → a.run = b.run →
      (toLex (code rows a.run, a.ts) < toLex (code rows b.run, b.ts) ↔ a.ts < b.ts) := fun ha he => by
    rw [Prod.Lex.toLex_lt_toLex, he]
    simp
  constructor
  · rintro ⟨⟨ha, hb, hab, hnone⟩, hr, hg⟩
    have hr := (hrun ha).mp hr
    refine ⟨ha, hb, hr, (hgroup ha).mp hg, (hlt ha hr).mp hab, fun c hc hcr hac hcb => ?_⟩
    exact hnone c (mem_sorted.mpr hc) ((hlt ha hcr.symm).mpr hac) ((hlt hc (hcr.trans hr)).mpr hcb)
  · rintro ⟨ha, hb, hr, hg, hab, hnone⟩
    refine ⟨⟨ha, hb, (hlt ha hr).mpr hab, fun c hc hac hcb => ?_⟩, (hrun ha).mpr hr, (hgroup ha).mpr hg⟩
    have hc := mem_sorted.mp hc
    have hcr : c.run = a.run := by
      rw [← hrun hc]
      rw [Prod.Lex.toLex_lt_toLex] at hac hcb
      have hr' := (hrun ha).mpr hr
      simp only at hac hcb
      omega
    exact hnone c hc hcr ((hlt ha hcr.symm).mp hac) ((hlt hc (hcr.trans hr)).mp hcb)

def Good (hypot : 𝕜 → 𝕜 → 𝕜) (p : Params 𝕜) (s : Seg ρ γ 𝕜) : Prop :=
  dt s ≤ p.max_gap_s ∧ dist hypot s ≤ p.max_speed * dt s

lemma mem_driven_iff [IsStrictOrderedRing 𝕜] (h : Distinct rows) :
    (a, b) ∈ (driven hypot p rows).1 ↔ Follows rows a b ∧ Good hypot p (a, b) := by
  change (a, b) ∈ List.filter _ (List.filter _ (pairs (sorted rows))) ↔ _
  rw [mem_filter, mem_same_iff h, decide_eq_true_eq]
  refine and_congr_right fun hf => ?_
  have hpos : dt (a, b) > 0 := sub_pos.mpr hf.later
  rw [and_iff_right hpos, not_lt, div_le_iff₀ hpos, Good]

lemma driven_ordered (h : Distinct rows) :
    (driven hypot p rows).1.Pairwise fun s t => s.1.run = t.1.run → s.2.ts ≤ t.1.ts := by
  have hsame : ∀ s ∈ ((pairs (sorted rows)).filter fun s =>
      code rows s.1.run = code rows s.2.run ∧ grp rows s.1 = grp rows s.2), Follows rows s.1 s.2 := fun s hs =>
    (mem_same_iff h).mp hs
  refine ((((pairs_ordered (sorted_strict h)).filter _).imp_of_mem fun {s t} hs ht hst hrun => ?_).filter _)
  rw [Prod.Lex.toLex_le_toLex, ← (hsame s hs).run, hrun] at hst
  exact (hst.resolve_left (lt_irrefl _)).2

lemma driven_nodup (h : Distinct rows) : (driven hypot p rows).1.Nodup :=
  ((pairs_nodup (ordered_nodup (sorted_strict h))).filter _).filter _

omit [DecidableEq ρ] [DecidableEq γ] [Field 𝕜] in
lemma Follows.perm (h : Follows rows a b) (hperm : rows.Perm rows') : Follows rows' a b :=
  ⟨hperm.mem_iff.mp h.first, hperm.mem_iff.mp h.last, h.run, h.group, h.later, fun c hc =>
    h.consecutive c (hperm.mem_iff.mpr hc)⟩

lemma driven_perm [IsStrictOrderedRing 𝕜] (h : Distinct rows) (hperm : rows.Perm rows') :
    (driven hypot p rows).1.Perm (driven hypot p rows').1 ∧ (driven hypot p rows).2 = (driven hypot p rows').2 := by
  have h' := h.perm hperm
  have hfollows : ∀ a b, Follows rows a b ↔ Follows rows' a b := fun a b =>
    ⟨fun hf => hf.perm hperm, fun hf => hf.perm hperm.symm⟩
  have hok : (driven hypot p rows).1.Perm (driven hypot p rows').1 :=
    (perm_ext_iff_of_nodup (driven_nodup h) (driven_nodup h')).mpr fun ⟨a, b⟩ => by
      rw [mem_driven_iff h, mem_driven_iff h', hfollows]
  have hsame : ((pairs (sorted rows)).filter fun s => code rows s.1.run = code rows s.2.run ∧
    grp rows s.1 = grp rows s.2).Perm
      ((pairs (sorted rows')).filter fun s => code rows' s.1.run = code rows' s.2.run ∧ grp rows' s.1 = grp rows' s.2) :=
    (perm_ext_iff_of_nodup ((pairs_nodup (ordered_nodup (sorted_strict h))).filter _)
      ((pairs_nodup (ordered_nodup (sorted_strict h'))).filter _)).mpr fun ⟨a, b⟩ => by
      rw [mem_same_iff h, mem_same_iff h', hfollows]
  exact ⟨hok, congrArg₂ (· - ·) hsame.length_eq hok.length_eq⟩

lemma mem_sql_iff [IsStrictOrderedRing 𝕜] (h : Distinct rows) : (a, b) ∈ TRACK_SQL_good hypot p rows ↔
    a ∈ rows ∧ b ∈ rows ∧ a.run = b.run ∧ a.group = b.group ∧ a.ts < b.ts ∧
      (∀ c ∈ rows, c.run = a.run → c.group = a.group → a.ts < c.ts → ¬ c.ts < b.ts) ∧
      (seq (a, b)).isSome ∧ Good hypot p (a, b) := by
  have hstrict : ∀ k, ((rows.filter fun r => (r.run, r.group) = k).insertionSort fun a b => a.ts ≤ b.ts).Pairwise
      fun a b => a.ts < b.ts := by
    intro k
    have hle := sort_pairwise (fun r : Row ρ γ 𝕜 => r.ts) (rows.filter fun r => (r.run, r.group) = k)
    have hne : Distinct ((rows.filter fun r => (r.run, r.group) = k).insertionSort fun a b => a.ts ≤ b.ts) :=
      Distinct.perm (h.sublist filter_sublist) (perm_insertionSort _ _).symm
    refine (hle.and hne).imp_of_mem fun {a b} ha hb hab => lt_of_le_of_ne hab.1 ?_
    rw [mem_insertionSort, mem_filter, decide_eq_true_eq] at ha hb
    exact hab.2 (congrArg Prod.fst (ha.2.trans hb.2.symm))
  have hmem : ∀ k r, r ∈ ((rows.filter fun r => (r.run, r.group) = k).insertionSort fun a b => a.ts ≤ b.ts) ↔
      r ∈ rows ∧ (r.run, r.group) = k := fun k r => by
    rw [mem_insertionSort, mem_filter, decide_eq_true_eq]
  rw [TRACK_SQL_good, mem_filter, mem_filter, mem_flatMap, decide_eq_true_eq]
  simp only [mem_pairs_iff (hstrict _), hmem, (codesOf_spec _).2, mem_map]
  constructor
  · rintro ⟨⟨⟨k, -, ⟨ha, rfl⟩, ⟨hb, hkb⟩, hlt, hnone⟩, hseq⟩, hpos, hgap, hspeed⟩
    obtain ⟨hr, hg⟩ := Prod.mk.inj hkb
    exact ⟨ha, hb, hr.symm, hg.symm, hlt, fun c hc hcr hcg => hnone c ⟨hc, Prod.ext hcr hcg⟩, hseq, hgap, hspeed⟩
  · rintro ⟨ha, hb, hr, hg, hlt, hnone, hseq, hgap, hspeed⟩
    refine ⟨⟨⟨_, ⟨a, ha, rfl⟩, ⟨ha, rfl⟩, ⟨hb, Prod.ext hr.symm hg.symm⟩, hlt, fun c hc => ?_⟩, hseq⟩,
      sub_pos.mpr hlt, hgap, hspeed⟩
    obtain ⟨hcr, hcg⟩ := Prod.mk.inj hc.2
    exact hnone c hc.1 hcr hcg

lemma driven_iff_sql [IsStrictOrderedRing 𝕜] (h : Distinct rows) : (a, b) ∈ (driven hypot p rows).1 ∧ (seq (a, b)).isSome ↔
    (a, b) ∈ TRACK_SQL_good hypot p rows ∧ Consecutive rows a b := by
  rw [mem_driven_iff h, mem_sql_iff h]
  constructor
  · rintro ⟨⟨hf, hgood⟩, hseq⟩
    exact ⟨⟨hf.first, hf.last, hf.run, hf.group, hf.later, fun c hc hr _ => hf.consecutive c hc hr,
      hseq, hgood⟩, hf.consecutive⟩
  · rintro ⟨⟨ha, hb, hr, hg, hlt, -, hseq, hgood⟩, hnone⟩
    exact ⟨⟨⟨ha, hb, hr, hg, hlt, hnone⟩, hgood⟩, hseq⟩

end
end CloudServer.DriveStats
