import CloudServer.MorseTreeRuns
import CloudServer.Lists

/-! Persistence merging is monotone, complete and nested, on both paths of `merge_tree`. -/
namespace CloudServer.Morse
open Merging List Dict

variable {𝕜 : Type}

/-- The pairs name different regions with a ranked peak, and no two regions twice. -/
structure Regions (peakv : PerRegion 𝕜) (peakr : PerRegion ℕ) (pairs : List (ℕ × ℕ × 𝕜)) :
    Prop where
  ranked : ∀ r v, peakv.get r = some v → ∃ k, peakr.get r = some k
  known : ∀ e ∈ pairs, (∃ v, peakv.get e.1 = some v) ∧ ∃ v, peakv.get e.2.1 = some v
  ne : ∀ e ∈ pairs, e.1 ≠ e.2.1
  once : pairs.Pairwise fun e e' => s(e.1, e.2.1) ≠ s(e'.1, e'.2.1)

def Adjacent (pairs : List (ℕ × ℕ × 𝕜)) (u w : ℕ) (s : 𝕜) : Prop :=
  (u, w, s) ∈ pairs ∨ (w, u, s) ∈ pairs

def given (pairs : List (ℕ × ℕ × 𝕜)) (u w : ℕ) : Option 𝕜 :=
  (pairs.find? fun e => s(e.1, e.2.1) = s(u, w)).map fun e => e.2.2

def saddleOf (pairs : List (ℕ × ℕ × 𝕜)) : Saddles ℕ 𝕜 := fun u w => asSaddle (given pairs u w)

lemma given_eq {pairs : List (ℕ × ℕ × 𝕜)} (h : pairs.Pairwise fun e e' => s(e.1, e.2.1) ≠ s(e'.1, e'.2.1)) {u w : ℕ} {s : 𝕜} :
    given pairs u w = some s ↔ Adjacent pairs u w s := by
  unfold given Adjacent
  induction pairs with
  | nil => simp
  | cons e rest ih =>
    obtain ⟨hne, hrest⟩ := pairwise_cons.mp h
    obtain ⟨a, b, v⟩ := e
    rw [List.find?_cons]
    by_cases he : s(a, b) = s(u, w)
    · have hno : ∀ s', (u, w, s') ∉ rest ∧ (w, u, s') ∉ rest := fun s' =>
        ⟨fun hm => hne _ hm he, fun hm => hne _ hm (he.trans Sym2.eq_swap)⟩
      simp only [he, decide_true, Option.map_some, Option.some.injEq, mem_cons,
        Prod.mk.injEq, (hno s).1, (hno s).2, or_false]
      rcases Sym2.eq_iff.mp he with ⟨rfl, rfl⟩ | ⟨rfl, rfl⟩
      · simp only [true_and]
        tauto
      · simp only [true_and]
        tauto
    · have hx : ¬ (u = a ∧ w = b) ∧ ¬ (w = a ∧ u = b) := by
        rw [Sym2.eq_iff] at he
        tauto
      simp only [he, decide_false, ih hrest, mem_cons, Prod.mk.injEq]
      tauto

lemma saddleOf_eq {peakv : PerRegion 𝕜} {peakr : PerRegion ℕ} {pairs : List (ℕ × ℕ × 𝕜)}
    (h : Regions peakv peakr pairs) {u w : ℕ} {s : 𝕜} :
    saddleOf pairs u w = s ↔ Adjacent pairs u w s := by
  unfold saddleOf
  rw [asSaddle_eq, given_eq h.once]

lemma saddleOf_symmetric {peakv : PerRegion 𝕜} {peakr : PerRegion ℕ}
    {pairs : List (ℕ × ℕ × 𝕜)} (h : Regions peakv peakr pairs) : Merging.Symmetric (saddleOf pairs) := by
  constructor
  · intro x y
    unfold saddleOf given
    simp only [Sym2.eq_swap (a := x)]
  · intro x
    unfold saddleOf
    rw [asSaddle_bot, Option.eq_none_iff_forall_ne_some]
    intro s hs
    rcases (given_eq h.once).mp hs with hm | hm <;> exact h.ne _ hm rfl

def peaksOf (d : 𝕜) (peakv : PerRegion 𝕜) (peakr : PerRegion ℕ) : Peaks ℕ 𝕜 :=
  ⟨fun r => (peakv.get r).getD d, fun r => (peakr.get r).getD 0⟩

def started (peakv : PerRegion 𝕜) (r : ℕ) : ℤ := if (peakv.get r).isSome then 0 else -1

namespace Layout
variable {P R V S : Type} {L : Layout 𝕜 P R V S}

lemma rows_cell (ok : S → Prop) (ids : ℕ → Prop)
    (hset : ∀ sad k row r, ok sad → ids k → L.sad.get (L.sad.set sad k row) r =
      if r = k then some row else L.sad.get sad r)
    (hok : ∀ sad k row, ok sad → ok (L.sad.set sad k row)) (pairs : List (ℕ × ℕ × 𝕜)) (sad : S)
    (hs : ok sad) (hids : ∀ e ∈ pairs, ids e.1 ∧ ids e.2.1)
    (hone : pairs.Pairwise fun e e' => s(e.1, e.2.1) ≠ s(e'.1, e'.2.1)) (u w : ℕ) :
    L.cell (L.rows sad pairs) u w = (given pairs u w).or (L.cell sad u w) := by
  have hput : ∀ sad a b v u w, ok sad → ids a → L.cell (L.put sad a b v) u w =
      if u = a ∧ w = b then some v else L.cell sad u w := by
    intro sad a b v u w hs ha
    unfold put cell
    rw [hset _ _ _ _ hs ha]
    by_cases hu : u = a
    · subst hu
      rw [if_pos rfl, Option.bind_some, get_set]
      cases hg : L.sad.get sad u <;> simp
    · rw [if_neg hu, if_neg (by tauto)]
  induction pairs generalizing sad with
  | nil => simp [rows, given]
  | cons e rest ih =>
    obtain ⟨a, b, v⟩ := e
    obtain ⟨ha, hb⟩ := hids (a, b, v) mem_cons_self
    obtain ⟨hno, hrest⟩ := pairwise_cons.mp hone
    have hs₁ : ok (L.put sad a b v) := hok _ _ _ hs
    have hs₂ : ok (L.put (L.put sad a b v) b a v) := hok _ _ _ hs₁
    have hrec : L.rows sad ((a, b, v) :: rest) = L.rows (L.put (L.put sad a b v) b a v) rest := rfl
    rw [hrec, ih _ hs₂ (fun e he => hids e (.tail _ he)) hrest, hput _ _ _ _ _ _ hs₁ hb, hput _ _ _ _ _ _ hs ha]
    unfold given
    rw [List.find?_cons]
    by_cases he : s(a, b) = s(u, w)
    · have hnone : rest.find? (fun e => s(e.1, e.2.1) = s(u, w)) = none :=
        List.find?_eq_none.mpr fun e hm h => hno e hm (he.trans (of_decide_eq_true h).symm)
      simp only [hnone, he, decide_true]
      rcases Sym2.eq_iff.mp he with ⟨rfl, rfl⟩ | ⟨rfl, rfl⟩ <;> simp
    · have hx : ¬ (u = a ∧ w = b) ∧ ¬ (u = b ∧ w = a) := by
        rw [Sym2.eq_iff] at he
        tauto
      simp only [he, decide_false, if_neg hx.1, if_neg hx.2]

end Layout

section
variable {peakv : PerRegion 𝕜} {peakr : PerRegion ℕ} {pairs : List (ℕ × ℕ × 𝕜)}

lemma Regions.ends (h : Regions peakv peakr pairs) {a b : ℕ} (hab : saddleOf pairs a b ≠ ⊥) :
    started peakv a = 0 := by
  obtain ⟨s, hs⟩ := WithBot.ne_bot_iff_exists.mp hab
  have hv : ∃ v, peakv.get a = some v := by
    rcases (saddleOf_eq h).mp hs.symm with hm | hm
    · exact (h.known _ hm).1
    · exact (h.known _ hm).2
  obtain ⟨v, hv⟩ := hv
  simp [started, hv]

lemma Regions.peaks (h : Regions peakv peakr pairs) (d : 𝕜) {r : ℕ} (hr : 0 ≤ started peakv r) :
    peakv.get r = some ((peaksOf d peakv peakr).value r) ∧ peakr.get r = some ((peaksOf d peakv peakr).rank r) := by
  unfold started at hr
  split_ifs at hr with hv
  · obtain ⟨v, hv⟩ := Option.isSome_iff_exists.mp hv
    obtain ⟨k, hk⟩ := h.ranked r v hv
    simp [peaksOf, hv, hk]
  · omega

lemma adjacent_of_lt (hlt : ∀ e ∈ pairs, e.1 < e.2.1) (a b : ℕ) (s : 𝕜) :
    (a, b, s) ∈ pairs ↔ a < b ∧ Adjacent pairs a b s := by
  constructor
  · exact fun hm => ⟨hlt _ hm, .inl hm⟩
  · rintro ⟨hab, hm | hm⟩
    · exact hm
    · have := hlt _ hm
      dsimp only at this
      omega

lemma started_of_pair (h : Regions peakv peakr pairs) {e : ℕ × ℕ × 𝕜} {r : ℕ}
    (hadj : Adjacent pairs e.1 e.2.1 e.2.2) (hr : r = e.1 ∨ r = e.2.1) : started peakv r = 0 := by
  have hs := (saddleOf_eq h).mpr hadj
  rcases hr with rfl | rfl
  · exact h.ends (b := e.2.1) (by rw [hs]; simp)
  · exact h.ends (b := e.1) (by rw [(saddleOf_symmetric h).symm, hs]; simp)

lemma mem_scanned (sad : Dict ℕ (Dict ℕ 𝕜)) (a b : ℕ) (s : 𝕜) :
    (a, b, s) ∈ scanned sad ↔ a < b ∧ (dictLayout 𝕜).cell sad a b = some s := by
  unfold scanned
  rw [mem_flatMap]
  constructor
  · rintro ⟨⟨r, row⟩, hr, hm⟩
    obtain ⟨⟨x, v⟩, hx, he⟩ := mem_map.mp hm
    obtain ⟨hx, hlt⟩ := mem_filter.mp hx
    cases he
    refine ⟨of_decide_eq_true hlt, ?_⟩
    rw [Layout.cell_eq (L := dictLayout 𝕜) (mem_items.mp hr)]
    exact mem_items.mp hx
  · rintro ⟨hlt, hc⟩
    obtain ⟨row, hrow, hb⟩ := Layout.row_of_cell hc
    refine ⟨(a, row), mem_items.mpr hrow, mem_map.mpr ⟨(b, s), ?_, rfl⟩⟩
    exact mem_filter.mpr ⟨mem_items.mpr hb, decide_eq_true hlt⟩

end

lemma dictTable_lawful (α : Type) : (dictTable α).Lawful where
  get_set t k v w r _ := get_set t k r w
  get_del t k r h := by
    change (t.erase k).get r = t.get r
    rw [get_erase, if_neg h]

lemma dictLayout_lawful : (dictLayout 𝕜).Lawful where
  value := dictTable_lawful 𝕜
  rank := dictTable_lawful ℕ
  ver := dictTable_lawful ℤ
  sad := dictTable_lawful (Dict ℕ 𝕜)
  ver_del t k v _ := by
    change ((t.erase k).get k).getD (-1) = -1
    rw [get_erase, if_pos rfl]
    rfl
  sad_del t k d _ := by
    change (t.erase k).get k = none
    rw [get_erase, if_pos rfl]
  pop d k v _ := rfl

variable {k n : ℕ} {α : Type} {limit : WithTop 𝕜}

lemma getElem?_set_of_lt {t : List α} (w : α) (r : ℕ) (h : k < t.length) :
    (t.set k w)[r]? = if r = k then some w else t[r]? := by
  rw [List.getElem?_set]
  by_cases hr : r = k
  · subst hr
    simp [h]
  · simp [hr, Ne.symm hr]

lemma lt_of_getElem? {t : List α} {v : α} (h : t[k]? = some v) : k < t.length :=
  (List.getElem?_eq_some_iff.mp h).1

lemma keptTable_lawful (α : Type) : (keptTable α).Lawful where
  get_set _ _ _ w r h := getElem?_set_of_lt w r (lt_of_getElem? h)
  get_del _ _ _ _ := rfl

lemma versionTable_lawful : versionTable.Lawful where
  get_set _ _ _ w r h := getElem?_set_of_lt w r (lt_of_getElem? h)
  get_del _ _ _ h := List.getElem?_set_ne (Ne.symm h)

lemma lt_of_row {t : List (Option (Dict ℕ 𝕜))} {d : Dict ℕ 𝕜}
    (h : (rowTable 𝕜).get t k = some d) : k < t.length :=
  lt_of_getElem? (Option.join_eq_some_iff.mp h)

lemma get_set_row {t : List (Option (Dict ℕ 𝕜))} (d : Dict ℕ 𝕜) (r : ℕ) (h : k < t.length) :
    (rowTable 𝕜).get ((rowTable 𝕜).set t k d) r = if r = k then some d else (rowTable 𝕜).get t r := by
  change ((t.set k (some d))[r]?).join = if r = k then some d else (t[r]?).join
  rw [getElem?_set_of_lt (some d) r h]
  split_ifs <;> rfl

lemma listLayout_lawful : (listLayout 𝕜).Lawful where
  value := keptTable_lawful 𝕜
  rank := keptTable_lawful ℕ
  ver := versionTable_lawful
  sad :=
    { get_set := fun _ _ _ w r h => get_set_row w r (lt_of_row h)
      get_del := fun t k r h => by
        change ((t.set k none)[r]?).join = (t[r]?).join
        rw [List.getElem?_set_ne (Ne.symm h)] }
  ver_del t k v h := by
    change ((t.set k (-1))[k]?).getD (-1) = -1
    rw [getElem?_set_of_lt (-1) k (lt_of_getElem? h), if_pos rfl]
    rfl
  sad_del t k d h := by
    change ((t.set k none)[k]?).join = none
    rw [getElem?_set_of_lt none k (lt_of_row h), if_pos rfl]
    rfl
  pop d k v h := if_pos (mem_keys.mpr ⟨v, h⟩)

lemma PerRegion.get_toDict (t : PerRegion α) (r : ℕ) : t.toDict.get r = t.get r := by
  cases t with
  | dict d => rfl
  | array l =>
    change (Dict.ofList (l.zipIdx.map fun e => (e.2, e.1))).get r = l[r]?
    have hmem : ∀ e ∈ l.zipIdx.map (fun e => (e.2, e.1)), l[e.1]? = some e.2 := by
      intro e he
      obtain ⟨⟨v, i⟩, hm, rfl⟩ := mem_map.mp he
      exact mem_zipIdx_iff_getElem?.mp hm
    cases hr : l[r]? with
    | none =>
      refine get_ofList_none fun hk => ?_
      obtain ⟨e, he, rfl⟩ := mem_map.mp hk
      rw [hmem e he] at hr
      cases hr
    | some v =>
      refine get_ofList (fun e he her => ?_) ?_
      · have := hmem e he
        rw [her, hr] at this
        exact (Option.some.inj this).symm
      · refine mem_map.mpr ⟨(r, v), mem_map.mpr ⟨(v, r), ?_, rfl⟩, rfl⟩
        exact mem_zipIdx_iff_getElem?.mpr hr

section
variable {tree : List (Merge ℕ 𝕜)}

def parent : List (Merge ℕ 𝕜) → ℕ → ℕ
  | [], r => r
  | m :: rest, r => if r = m.2.2 then m.2.1 else parent rest r

lemma parent_cases (tree : List (Merge ℕ 𝕜)) (r : ℕ) :
    parent tree r = r ∨ ∃ m ∈ tree, parent tree r = m.2.1 := by
  induction tree with
  | nil => exact .inl rfl
  | cons m rest ih =>
    unfold parent
    split_ifs
    · exact .inr ⟨m, mem_cons_self, rfl⟩
    · exact ih.imp_right fun ⟨m', hm, h⟩ => ⟨m', .tail _ hm, h⟩

lemma iterate_parent (h : Once tree) (hk : tree.length ≤ k) (r : ℕ) :
    (parent tree)^[k] r = survivor tree r := by
  induction tree generalizing k r with
  | nil => exact Function.iterate_fixed rfl k
  | cons m rest ih =>
    have havoid : ∀ r, r ≠ m.2.2 → parent rest r ≠ m.2.2 := by
      intro r hr hp
      rcases parent_cases rest r with h' | ⟨m', hm, h'⟩
      · exact hr (h' ▸ hp)
      · exact ((pairwise_cons.mp h.2).1 m' hm).1 (h' ▸ hp)
    have horbit : ∀ j r, r ≠ m.2.2 → (parent (m :: rest))^[j] r = (parent rest)^[j] r := by
      intro j
      induction j with
      | zero => exact fun _ _ => rfl
      | succ j ihj =>
        intro r hr
        have hstep : parent (m :: rest) r = parent rest r := if_neg hr
        rw [Function.iterate_succ_apply, Function.iterate_succ_apply, hstep, ihj _ (havoid r hr)]
    rw [length_cons] at hk
    rw [survivor_cons]
    by_cases hr : r = m.2.2
    · subst hr
      obtain ⟨j, rfl⟩ : ∃ j, k = j + 1 := ⟨k - 1, by omega⟩
      have hstep : parent (m :: rest) m.2.2 = m.2.1 := if_pos rfl
      rw [Function.iterate_succ_apply, hstep, horbit j _ (h.1 m mem_cons_self), if_pos rfl, ih h.tail (by omega)]
    · rw [horbit k r hr, if_neg hr, ih h.tail (by omega)]

lemma survivor_idem (h : Once tree) (r : ℕ) : survivor tree (survivor tree r) = survivor tree r := by
  rw [← iterate_parent h le_rfl r, ← iterate_parent h le_rfl, ← Function.iterate_add_apply,
    iterate_parent h (by omega), iterate_parent h le_rfl]

lemma parents_eq (n : ℕ) (h : Once tree) : parents n tree = (List.range n).map (parent tree) := by
  have hfold : ∀ (tree : List (Merge ℕ 𝕜)) (g : ℕ → ℕ), Once tree →
      tree.foldl (fun parent m => parent.set m.2.2 m.2.1) ((List.range n).map g) =
        (List.range n).map fun r => if ∃ m ∈ tree, m.2.2 = r then parent tree r else g r := by
    intro tree
    induction tree with
    | nil =>
      intro g _
      simp
    | cons m rest ih =>
      intro g h
      have hset : ((List.range n).map g).set m.2.2 m.2.1 =
          (List.range n).map fun r => if r = m.2.2 then m.2.1 else g r := by
        refine ext_getElem (by simp) fun i h₁ h₂ => ?_
        simp only [getElem_set, getElem_map, getElem_range]
        simp only [eq_comm]
      rw [foldl_cons, hset, ih _ h.tail]
      refine map_congr_left fun r _ => ?_
      have hlater : ∀ m' ∈ rest, m'.2.2 ≠ m.2.2 :=
        fun m' hm => ((pairwise_cons.mp h.2).1 m' hm).2
      by_cases hr : r = m.2.2
      · subst hr
        rw [if_neg (by rintro ⟨m', hm, he⟩; exact hlater m' hm he), if_pos rfl, if_pos ⟨m, mem_cons_self, rfl⟩]
        exact (if_pos rfl).symm
      · have hiff : (∃ m' ∈ m :: rest, m'.2.2 = r) ↔ ∃ m' ∈ rest, m'.2.2 = r := by
          simp [Ne.symm hr]
        have hstep : parent (m :: rest) r = parent rest r := if_neg hr
        simp only [hiff, hstep, if_neg hr]
  have hself : ∀ (tree : List (Merge ℕ 𝕜)) r, ¬ (∃ m ∈ tree, m.2.2 = r) → parent tree r = r := by
    intro tree r hno
    induction tree with
    | nil => rfl
    | cons m rest ih =>
      unfold parent
      rw [if_neg fun hr => hno ⟨m, mem_cons_self, hr.symm⟩]
      exact ih fun ⟨m', hm, he⟩ => hno ⟨m', .tail _ hm, he⟩
  have hid := hfold tree id h
  rw [map_id] at hid
  unfold parents
  rw [hid]
  refine map_congr_left fun r _ => ?_
  split_ifs with hex
  · rfl
  · exact (hself tree r hex).symm

lemma settle_eq (h : Once tree) (hn : ∀ m ∈ tree, m.2.1 < n) (k j : ℕ) (hlen : tree.length ≤ 2 ^ (j + k)) :
    settle (k + 1) ((List.range n).map (parent tree)^[2 ^ j]) = some ((List.range n).map (survivor tree)) := by
  have hlt : ∀ i r, r < n → (parent tree)^[i] r < n := by
    intro i
    induction i with
    | zero => exact fun _ hr => hr
    | succ i ih =>
      intro r hr
      rw [Function.iterate_succ_apply]
      refine ih _ ?_
      rcases parent_cases tree r with hp | ⟨m, hm, hp⟩ <;> rw [hp]
      · exact hr
      · exact hn m hm
  have hdouble : ∀ g : ℕ → ℕ, (∀ r, r < n → g r < n) →
      ((List.range n).map g).mapM (fun r => ((List.range n).map g)[r]?) =
        some ((List.range n).map fun r => g (g r)) := by
    intro g hg
    rw [mapM_some (g := g) (fun x hx => ?_), map_map]
    · rfl
    · obtain ⟨r, hr, rfl⟩ := mem_map.mp hx
      simp [hg r (mem_range.mp hr)]
  induction k generalizing j with
  | zero =>
    have hs : (parent tree)^[2 ^ j] = survivor tree := funext fun r => iterate_parent h hlen r
    have hnext := hdouble (survivor tree) (hs ▸ hlt _)
    simp only [survivor_idem h] at hnext
    rw [hs]
    unfold settle
    rw [hnext]
    exact if_pos rfl
  | succ k ih =>
    have hnext := hdouble _ (hlt (2 ^ j))
    have hpow : ∀ r, (parent tree)^[2 ^ j] ((parent tree)^[2 ^ j] r) =
        (parent tree)^[2 ^ (j + 1)] r := by
      intro r
      rw [← Function.iterate_add_apply, pow_succ, mul_two]
    simp only [hpow] at hnext
    unfold settle
    rw [hnext]
    simp only [Option.bind_eq_bind, Option.bind_some]
    split_ifs with heq
    · -- the parents of the parents are the parents, so all longer chains end here
      have hfix : ∀ r, r < n → (parent tree)^[2 ^ (j + 1)] r = (parent tree)^[2 ^ j] r :=
        fun r hr => map_inj_left.mp heq r (mem_range.mpr hr)
      have hall : ∀ i r, r < n → (parent tree)^[2 ^ (j + i)] r = (parent tree)^[2 ^ j] r := by
        intro i
        induction i with
        | zero => exact fun _ _ => rfl
        | succ i ihi =>
          intro r hr
          rw [← Nat.add_assoc, pow_succ, mul_two, Function.iterate_add_apply, ihi r hr, ihi _ (hlt _ r hr), hpow, hfix r hr]
      refine congrArg some (map_congr_left fun r hr => ?_)
      have hr := mem_range.mp hr
      rw [← hall (k + 1) r hr, iterate_parent h hlen]
    · exact ih (j + 1) (by rwa [Nat.add_right_comm])

end

variable [LinearOrder 𝕜] [Sub 𝕜]

namespace Layout
variable {P R V S : Type}

lemma fill_spec (L : Layout 𝕜 P R V S) (P' : Peaks ℕ 𝕜) (limit : WithTop 𝕜) (vr : ℕ → ℤ)
    (peakv : P) (peakr : R) (ver : ℕ → Option ℤ) (triples : List (ℕ × ℕ × 𝕜))
    (h : ∀ e ∈ triples, ∀ r, r = e.1 ∨ r = e.2.1 → L.value.get peakv r = some (P'.value r) ∧
      L.rank.get peakr r = some (P'.rank r) ∧ ver r = some (vr r)) :
    ∃ es, L.fill limit peakv peakr ver triples = some es ∧
      ∀ e, e ∈ es ↔ ∃ a b s, (a, b, s) ∈ triples ∧ Below limit (persistence P' a b s) ∧ e = entry P' vr a b s := by
  induction triples with
  | nil => exact ⟨[], rfl, by simp⟩
  | cons t rest ih =>
    obtain ⟨a, b, s⟩ := t
    obtain ⟨ha₁, ha₂, ha₃⟩ := h (a, b, s) mem_cons_self a (.inl rfl)
    obtain ⟨hb₁, hb₂, hb₃⟩ := h (a, b, s) mem_cons_self b (.inr rfl)
    obtain ⟨es, hes, hmem⟩ := ih fun e he => h e (.tail _ he)
    simp only [fill, ha₁, ha₂, ha₃, hb₁, hb₂, hb₃, hes, Option.bind_eq_bind, Option.bind_some]
    have hcons : ∀ e, (∃ a' b' s', (a', b', s') ∈ (a, b, s) :: rest ∧
        Below limit (persistence P' a' b' s') ∧ e = entry P' vr a' b' s') ↔
        Below limit (persistence P' a b s) ∧ e = entry P' vr a b s ∨ e ∈ es := by
      intro e
      rw [hmem]
      constructor
      · rintro ⟨a', b', s', hm, hq⟩
        rcases mem_cons.mp hm with hm | hm
        · cases hm
          exact .inl hq
        · exact .inr ⟨a', b', s', hm, hq⟩
      · rintro (hq | ⟨a', b', s', hm, hq⟩)
        · exact ⟨a, b, s, mem_cons_self, hq⟩
        · exact ⟨a', b', s', .tail _ hm, hq⟩
    split_ifs with hb
    · refine ⟨_, rfl, fun e => ?_⟩
      rw [hcons, mem_cons]
      exact or_congr (Iff.symm (and_iff_right hb)) Iff.rfl
    · refine ⟨_, rfl, fun e => ?_⟩
      rw [hcons]
      exact (or_iff_right fun hq => hb hq.1).symm

end Layout

omit [Sub 𝕜] in
lemma sorted_heapify (es : List (Entry 𝕜)) :
    (heapify es).Pairwise (· ≤ ·) ∧ ∀ e, e ∈ heapify es ↔ e ∈ es :=
  ⟨pairwise_insertionSort _ es, fun _ => mem_insertionSort _⟩

omit [Sub 𝕜] in
lemma sorted_pushes (es : List (Entry 𝕜)) (heap : List (Entry 𝕜)) (h : heap.Pairwise (· ≤ ·)) :
    (es.foldl heappush heap).Pairwise (· ≤ ·) ∧ ∀ e, e ∈ es.foldl heappush heap ↔ e ∈ es ∨ e ∈ heap := by
  induction es generalizing heap with
  | nil => exact ⟨h, by simp⟩
  | cons x rest ih =>
    obtain ⟨hs, hm⟩ := ih (heappush heap x) (Layout.sorted_heappush h x)
    refine ⟨hs, fun e => ?_⟩
    rw [foldl_cons, hm, Layout.mem_heappush, mem_cons]
    tauto

section
variable {P R V S : Type} {L : Layout 𝕜 P R V S} {peakv : PerRegion 𝕜} {peakr : PerRegion ℕ}
  {pairs : List (ℕ × ℕ × 𝕜)}

lemma greedy_of_filled (hL : L.Lawful) (h : Regions peakv peakr pairs) (d : 𝕜)
    (n : ℕ) (st : State 𝕜 P R V S) {es : List (Entry 𝕜)} (alive : Finset ℕ)
    (halive : ∀ r, r ∈ alive ↔ 0 ≤ started peakv r) (hn : alive.card ≤ n)
    (hvalue : ∀ r, L.value.get st.peakv r = peakv.get r)
    (hrank : ∀ r, L.rank.get st.peakr r = peakr.get r)
    (hver : ∀ r, (L.ver.get st.ver r).getD (-1) = started peakv r)
    (hcell : ∀ u w, L.cell st.sad u w = given pairs u w)
    (hsort : st.heap.Pairwise (· ≤ ·)) (hout : st.out = []) (hes : ∀ e, e ∈ st.heap ↔ e ∈ es)
    {triples : List (ℕ × ℕ × 𝕜)}
    (htriples : ∀ a b s, (a, b, s) ∈ triples ↔ a < b ∧ Adjacent pairs a b s)
    (hfill : ∀ e, e ∈ es ↔ ∃ a b s, (a, b, s) ∈ triples ∧ Below limit (persistence (peaksOf d peakv peakr) a b s) ∧
      e = entry (peaksOf d peakv peakr) (started peakv) a b s) :
    ∃ out T, L.run limit n st = some out ∧ Greedy (peaksOf d peakv peakr) limit (saddleOf pairs) out T := by
  have hS := saddleOf_symmetric h
  have hq : Queue (peaksOf d peakv peakr) limit (saddleOf pairs) (started peakv) st.heap := by
    refine ⟨fun e he => ?_, fun e he _ _ s hs => ?_, fun a b s hab hs hb => ?_⟩
    · obtain ⟨a, b, s, hm, -, rfl⟩ := (hfill e).mp ((hes e).mp he)
      have hs := (saddleOf_eq h).mpr ((htriples a b s).mp hm).2
      have ha := h.ends (a := a) (b := b) (by rw [hs]; simp)
      have hb := h.ends (a := b) (b := a) (by rw [hS.symm, hs]; simp)
      exact ⟨ha.ge, hb.ge, fun _ => le_rfl, fun _ => le_rfl⟩
    · obtain ⟨a, b, s', hm, hb, rfl⟩ := (hfill e).mp ((hes e).mp he)
      obtain ⟨hab, hadj⟩ := (htriples a b s').mp hm
      have hs' : saddleOf pairs a b = s' := (saddleOf_eq h).mpr hadj
      have heq : s' = s := WithBot.coe_inj.mp (hs'.symm.trans hs)
      subst heq
      exact ⟨hab, hb, rfl⟩
    · exact (hes _).mpr ((hfill _).mpr ⟨a, b, s, (htriples a b s).mpr ⟨hab, (saddleOf_eq h).mp hs⟩, hb, rfl⟩)
  have hinv : Inv L (peaksOf d peakv peakr) limit (saddleOf pairs) (started peakv) alive st := by
    refine ⟨hS, fun a b hab => (h.ends hab).ge, halive, fun r hr => ?_, fun r hr => ?_, hver, fun a b => ?_, hsort, hq⟩
    · rw [hvalue, (h.peaks d hr).1]
    · rw [hrank, (h.peaks d hr).2]
    · rw [hcell]
      rfl
  obtain ⟨st', out, T, hl, hout', hg⟩ := hinv.loop hL (st.heap.length + n ^ 2)
    (Nat.add_le_add_left (Nat.pow_le_pow_left hn 2) _)
  refine ⟨out, T, ?_, hg⟩
  rw [Layout.run, hl, Option.map_some, hout', hout, nil_append]

end

section
variable {peakv : PerRegion 𝕜} {peakr : PerRegion ℕ} {pairs : List (ℕ × ℕ × 𝕜)}

theorem mergeLists_greedy (d : 𝕜) {pv : List 𝕜} {pr : List ℕ} (limit : WithTop 𝕜)
    (h : Regions (.array pv) (.array pr) pairs) (hlt : ∀ e ∈ pairs, e.1 < e.2.1) :
    ∃ out T, mergeLists pv pr pairs limit = some out ∧
      Greedy (peaksOf d (.array pv) (.array pr)) limit (saddleOf pairs) out T := by
  have htriples := adjacent_of_lt hlt
  obtain ⟨es, hes, hmem⟩ := Layout.fill_spec (listLayout 𝕜)
    (peaksOf d (.array pv) (.array pr)) limit (started (.array pv)) pv pr (fun _ => some 0) pairs (fun e he r hr => by
      have h0 := started_of_pair h ((htriples _ _ _).mp he).2 hr
      have hp := h.peaks d h0.ge
      exact ⟨hp.1, hp.2, by rw [h0]⟩)
  have hlen : ∀ r, (∃ v, (PerRegion.array pv).get r = some v) → r < pv.length :=
    fun r ⟨v, hv⟩ => lt_of_getElem? hv
  have hcell : ∀ u w, (listLayout 𝕜).cell
      ((listLayout 𝕜).rows (List.replicate pv.length none) pairs) u w = given pairs u w := by
    intro u w
    rw [Layout.rows_cell (L := listLayout 𝕜) (fun l => l.length = pv.length)
      (fun r => r < pv.length) (fun sad k row r hl hk => get_set_row row r (by omega))
      (fun sad k row hl => by
        change (sad.set k (some row)).length = pv.length
        rw [length_set, hl])
      pairs _ (by simp) (fun e he => ⟨hlen _ (h.known e he).1, hlen _ (h.known e he).2⟩) h.once]
    have hnone : (listLayout 𝕜).cell (List.replicate pv.length none) u w = none := by
      change (((List.replicate pv.length none)[u]?).join).bind _ = none
      rw [List.getElem?_replicate]
      split_ifs <;> rfl
    rw [hnone, Option.or_none]
  obtain ⟨out, T, hrun, hg⟩ := greedy_of_filled listLayout_lawful h d pv.length
    (⟨pv, pr, List.replicate pv.length 0, (listLayout 𝕜).rows (List.replicate pv.length none) pairs, heapify es, []⟩)
    (Finset.range pv.length)
    (fun r => by
      rw [Finset.mem_range]
      unfold started
      by_cases hr : r < pv.length <;> simp [PerRegion.get, hr])
    (by simp) (fun _ => rfl) (fun _ => rfl)
    (fun r => by
      change ((List.replicate pv.length (0 : ℤ))[r]?).getD (-1) = started (.array pv) r
      unfold started
      rw [List.getElem?_replicate]
      by_cases hr : r < pv.length <;> simp [PerRegion.get, hr])
    hcell (sorted_heapify es).1 rfl (sorted_heapify es).2 htriples hmem
  refine ⟨out, T, ?_, hg⟩
  unfold mergeLists
  simp only [hes, Option.bind_eq_bind, Option.bind_some, hrun]

theorem mergeDicts_greedy (d : 𝕜) (limit : WithTop 𝕜) (coded : Bool)
    (h : Regions peakv peakr pairs) (hlt : coded = true → ∀ e ∈ pairs, e.1 < e.2.1) :
    ∃ out T, mergeDicts coded peakv.toDict peakr.toDict pairs limit = some out ∧
      Greedy (peaksOf d peakv peakr) limit (saddleOf pairs) out T := by
  have hcell : ∀ u w, (dictLayout 𝕜).cell ((dictLayout 𝕜).rows Dict.empty pairs) u w =
      given pairs u w := by
    intro u w
    rw [Layout.rows_cell (L := dictLayout 𝕜) (fun _ => True) (fun _ => True)
      (fun sad k row r _ _ => get_set sad k r row) (fun _ _ _ _ => trivial) pairs _ trivial
      (fun _ _ => ⟨trivial, trivial⟩) h.once]
    exact Option.or_none
  have hver : ∀ r, (peakv.toDict.map fun _ _ => (0 : ℤ)).get r = (peakv.get r).map fun _ => 0 := by
    intro r
    rw [get_map, PerRegion.get_toDict]
  have hver' : ∀ r, (((dictLayout 𝕜).ver.get (peakv.toDict.map fun _ _ => (0 : ℤ)) r).getD (-1)) =
      started peakv r := by
    intro r
    change ((peakv.toDict.map fun _ _ => (0 : ℤ)).get r).getD (-1) = _
    rw [hver]
    unfold started
    cases peakv.get r <;> rfl
  have hzero : ∀ r, started peakv r = 0 → (peakv.toDict.map fun _ _ => (0 : ℤ)).get r = some 0 := by
    intro r hr
    rw [hver]
    obtain ⟨hv, -⟩ := h.peaks d hr.ge
    rw [hv]
    rfl
  have halive : ∀ r, r ∈ peakv.toDict.keys.toFinset ↔ 0 ≤ started peakv r := by
    intro r
    rw [mem_toFinset, Dict.mem_keys]
    simp only [PerRegion.get_toDict]
    unfold started
    cases peakv.get r <;> simp
  have hfill : ∀ (ver : ℕ → Option ℤ) (triples : List (ℕ × ℕ × 𝕜)),
      (∀ r, started peakv r = 0 → ver r = some 0) →
      (∀ a b s, (a, b, s) ∈ triples ↔ a < b ∧ Adjacent pairs a b s) →
      ∃ es, (dictLayout 𝕜).fill limit peakv.toDict peakr.toDict ver triples = some es ∧
        ∀ e, e ∈ es ↔ ∃ a b s, (a, b, s) ∈ triples ∧
          Below limit (persistence (peaksOf d peakv peakr) a b s) ∧
          e = entry (peaksOf d peakv peakr) (started peakv) a b s := by
    intro ver triples hv ht
    refine Layout.fill_spec (dictLayout 𝕜) _ _ _ _ _ _ triples fun e he r hr => ?_
    have h0 := started_of_pair h ((ht _ _ _).mp he).2 hr
    have hp := h.peaks d h0.ge
    refine ⟨?_, ?_, by rw [hv r h0, h0]⟩
    · exact (peakv.get_toDict r).trans hp.1
    · exact (peakr.get_toDict r).trans hp.2
  have hrun : ∀ (es heap : List (Entry 𝕜)) (triples : List (ℕ × ℕ × 𝕜)), heap.Pairwise (· ≤ ·) → (∀ e, e ∈ heap ↔ e ∈ es) →
      (∀ a b s, (a, b, s) ∈ triples ↔ a < b ∧ Adjacent pairs a b s) →
      (∀ e, e ∈ es ↔ ∃ a b s, (a, b, s) ∈ triples ∧ Below limit (persistence (peaksOf d peakv peakr) a b s) ∧
          e = entry (peaksOf d peakv peakr) (started peakv) a b s) →
      ∃ out T, (dictLayout 𝕜).run limit peakv.toDict.keys.length
          ⟨peakv.toDict, peakr.toDict, peakv.toDict.map fun _ _ => (0 : ℤ),
            (dictLayout 𝕜).rows Dict.empty pairs, heap, []⟩ = some out ∧
        Greedy (peaksOf d peakv peakr) limit (saddleOf pairs) out T := by
    intro es heap triples hs hm ht he
    exact greedy_of_filled dictLayout_lawful h d _ _ peakv.toDict.keys.toFinset halive
      (toFinset_card_le _) (fun r => peakv.get_toDict r) (fun r => peakr.get_toDict r) hver'
      hcell hs rfl hm ht he
  cases coded with
  | true =>
    have ht := adjacent_of_lt (hlt rfl)
    obtain ⟨es, hes, hmem⟩ := hfill (fun _ => some 0) pairs (fun _ _ => rfl) ht
    obtain ⟨out, T, hr, hg⟩ := hrun es (heapify es) pairs (sorted_heapify es).1
      (sorted_heapify es).2 ht hmem
    refine ⟨out, T, ?_, hg⟩
    simp only [mergeDicts, if_true, hes, Option.bind_eq_bind, Option.bind_some, hr]
  | false =>
    have ht : ∀ a b s, (a, b, s) ∈ scanned ((dictLayout 𝕜).rows Dict.empty pairs) ↔
        a < b ∧ Adjacent pairs a b s := by
      intro a b s
      rw [mem_scanned, hcell, given_eq h.once]
    obtain ⟨es, hes, hmem⟩ := hfill _ _ hzero ht
    have hs := sorted_pushes es [] .nil
    obtain ⟨out, T, hr, hg⟩ := hrun es (es.foldl heappush []) _ hs.1
      (fun e => by rw [hs.2]; simp) ht hmem
    refine ⟨out, T, ?_, hg⟩
    simp only [mergeDicts, Bool.false_eq_true, if_false, hes, Option.bind_eq_bind, Option.bind_some, hr]

theorem mergeTree_greedy (TOL d : 𝕜) (h : Regions peakv peakr pairs) (tau : WithTop 𝕜) :
    ∃ out T, mergeTree TOL peakv peakr pairs tau = some out ∧
      Greedy (peaksOf d peakv peakr) (threshold TOL tau) (saddleOf pairs) out T := by
  have hdicts := mergeDicts_greedy d (threshold TOL tau) false h (by simp)
  unfold mergeTree
  split
  · split_ifs with hc
    · exact mergeLists_greedy d _ h fun e he => (hc.2.1 e he).2
    · exact hdicts
  · exact hdicts

lemma lt_of_merge (d : 𝕜) {out : List (Merge ℕ 𝕜)} {T : Saddles ℕ 𝕜}
    (h : Regions peakv peakr pairs) (hn : ∀ r v, peakv.get r = some v → r < n)
    (hg : Greedy (peaksOf d peakv peakr) limit (saddleOf pairs) out T) : ∀ m ∈ out, m.2.1 < n := by
  intro m hm
  by_contra hlt
  have hiso : ∀ y, saddleOf pairs m.2.1 y = ⊥ := by
    intro y
    by_contra hy
    obtain ⟨hv, -⟩ := h.peaks d (h.ends hy).ge
    exact hlt (hn _ _ hv)
  exact (hg.isolated (saddleOf_symmetric h) hiso m hm).1 rfl

lemma survivors_eq (TOL : 𝕜) {t : List (Merge ℕ 𝕜)} (tree : List (Merge ℕ 𝕜)) (tau : Option (WithTop 𝕜))
    (ht : applied TOL tree tau = t) (hle : t.length ≤ tree.length) (hone : Once t)
    (hn : ∀ m ∈ t, m.2.1 < n) :
    survivors TOL n tree tau = some ((List.range n).map (survivor t)) := by
  unfold survivors
  rw [ht, parents_eq n hone]
  refine settle_eq hone hn tree.length 0 (hle.trans ?_)
  rw [Nat.zero_add]
  exact Nat.lt_two_pow_self.le

/-- `merge_tree` succeeds; the persistences never decrease; between the surviving regions the
largest saddle gives at least `tau` up to `TOL`; a smaller scale is a prefix of a larger one, so one
tree serves all scales; and the list path agrees with the path on dictionaries. -/
theorem merge_tree_nested [MonoSub 𝕜] (TOL : 𝕜) (h : Regions peakv peakr pairs) :
    ∃ tree : WithTop 𝕜 → List (Merge ℕ 𝕜),
      (∀ tau, mergeTree TOL peakv peakr pairs tau = some (tree tau)) ∧
      (∀ tau, ((tree tau).map Prod.fst).Pairwise (· ≤ ·)) ∧
      (∀ tau a b s pa pb, a ≠ b →
        IsGreatest {v | ∃ x y, Adjacent pairs x y v ∧ survivor (tree tau) x = a ∧
          survivor (tree tau) y = b} s →
        peakv.get a = some pa → peakv.get b = some pb →
        threshold TOL tau ≤ ((min pa pb - s : 𝕜) : WithTop 𝕜)) ∧
      (∀ tau₁ tau₂, tau₁ ≤ tau₂ → tree tau₁ <+: tree tau₂) ∧
      (∀ n tau, (∀ r v, peakv.get r = some v → r < n) →
        survivors TOL n (tree ⊤) (some tau) = survivors TOL n (tree tau) none ∧
        survivors TOL n (tree tau) none = some ((List.range n).map (survivor (tree tau)))) ∧
      ∀ pv pr, peakv = .array pv → peakr = .array pr → Coded pv.length pairs → ∀ coded tau,
        mergeLists pv pr pairs (threshold TOL tau) =
          mergeDicts coded peakv.toDict peakr.toDict pairs (threshold TOL tau) := by
  choose tree T htree hg using mergeTree_greedy TOL TOL h
  have hS := saddleOf_symmetric h
  have hmono : Monotone (threshold TOL) :=
    Monotone.withTop_map fun a b hab => MonoSub.sub_le_sub a b TOL TOL hab le_rfl
  have hcut : ∀ tau₁ tau₂, tau₁ ≤ tau₂ →
      (tree tau₂).takeWhile (fun m => decide (Below (threshold TOL tau₁) m.1)) = tree tau₁ :=
    fun tau₁ tau₂ hle => (hg tau₁).takeWhile (hg tau₂) (hmono hle) hS
  refine ⟨tree, htree, fun tau => (hg tau).sorted hS, ?_, ?_, ?_, ?_⟩
  · rintro tau a b s pa pb hab ⟨⟨x, y, hadj, rfl, rfl⟩, -⟩ hpa hpb
    have hno := (hg tau).complete hS ((saddleOf_eq h).mpr hadj) hab
    simp only [Below, persistence, peaksOf, hpa, hpb, Option.getD_some, not_lt] at hno
    exact hno
  · intro tau₁ tau₂ hle
    rw [← hcut tau₁ tau₂ hle]
    exact List.takeWhile_prefix _
  · intro n tau hn
    have hone := (hg tau).once hS
    have hlt := lt_of_merge TOL h hn (hg tau)
    have hlen : (tree tau).length ≤ (tree ⊤).length := by
      rw [← hcut tau ⊤ le_top]
      exact (List.takeWhile_prefix _).length_le
    have hall := survivors_eq TOL (tree tau) none rfl le_rfl hone hlt
    exact ⟨(survivors_eq TOL (tree ⊤) (some tau) (hcut tau ⊤ le_top) hlen hone hlt).trans hall.symm, hall⟩
  · rintro pv pr rfl rfl hc coded tau
    have hlt : ∀ e ∈ pairs, e.1 < e.2.1 := fun e he => (hc.2.1 e he).2
    obtain ⟨out, T, hout, hgl⟩ := mergeLists_greedy TOL (threshold TOL tau) h hlt
    obtain ⟨out', T', hout', hgd⟩ := mergeDicts_greedy TOL (threshold TOL tau) coded h
      fun _ => hlt
    rw [hout, hout', (hgl.deterministic hgd).1]

/-- Three regions in a row, the middle one as high as the first. -/
theorem merge_tree_nested_three :
    ∃ tree : WithTop ℤ → List (Merge ℕ ℤ),
      mergeTree 0 (.array [5, 5, 3]) (.array [0, 2, 1]) [(0, 1, 1), (1, 2, 2)] ⊤ = some (tree ⊤) ∧
        tree 3 <+: tree ⊤ := by
  have h : Regions (.array [5, 5, 3] : PerRegion ℤ) (.array [0, 2, 1]) [(0, 1, 1), (1, 2, 2)] := by
    refine ⟨fun r v hv => ?_, ?_, by decide, by decide⟩
    · have hr : r < [(5 : ℤ), 5, 3].length := lt_of_getElem? hv
      have hr' : r < [0, 2, 1].length := hr
      change ∃ k, [0, 2, 1][r]? = some k
      exact ⟨_, List.getElem?_eq_getElem hr'⟩
    intro e he
    simp only [mem_cons, not_mem_nil, or_false] at he
    rcases he with rfl | rfl <;> exact ⟨⟨_, rfl⟩, ⟨_, rfl⟩⟩
  obtain ⟨tree, hrun, -, -, hnest, -⟩ := merge_tree_nested (0 : ℤ) h
  exact ⟨tree, hrun ⊤, hnest 3 ⊤ le_top⟩

end

end CloudServer.Morse
