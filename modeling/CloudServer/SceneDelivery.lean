import CloudServer.SceneJoin

/-! Whole deliveries: the canvas plan keeps every raster on the canvas, a batch joins its
leaves into planes and records, and a run of accepted batches joins the delivered set. -/
namespace CloudServer.SceneDelivery
open SceneLeaf SceneFold SceneJoin List

def Covers (c : Canvas) (b : Box) : Prop :=
  (c.cx0 ≤ b.x0 ∧ b.x1 ≤ c.cx0 + c.W) ∧ (c.cy0 ≤ b.y0 ∧ b.y1 ≤ c.cy0 + c.H)

lemma evenFloor_le (z : ℤ) : evenFloor z ≤ z := by
  unfold evenFloor
  omega

lemma le_evenFloor_succ (z : ℤ) : z ≤ evenFloor (z + 1) := by
  unfold evenFloor
  omega

lemma span_reaches (o hi : ℤ) : hi ≤ o + ((evenFloor (hi - o + 1)).toNat : ℤ) := by
  have h1 := le_evenFloor_succ (hi - o)
  have h2 := Int.self_le_toNat (evenFloor (hi - o + 1))
  omega

variable {S : Finset Leaf} {fs fs' : FoldState} {pl : Planes} {ps : List Prepared} {maxCells : ℕ}
variable {plan : Option Plan} {prm : SceneParams}
variable {b : Box} {d s : ℤ} {leaves : List Leaf} {st : EngineState} {tep : Option ℤ}
variable {stamps xs : List ℤ} {planes : Option Planes} {a : ℤ ×ₗ String} {near : Option ℚ}

lemma planCanvas_fresh (h : planCanvas maxCells none b tep = .ok plan) :
    ∃ p, plan = some p ∧ Covers p.canvas b ∧ p.tep = tep := by
  simp only [planCanvas] at h
  split_ifs at h
  cases h
  refine ⟨_, rfl, ?_, rfl⟩
  have hx := evenFloor_le (b.x0 - MARGIN)
  have hy := evenFloor_le (b.y0 - MARGIN)
  have hx1 := span_reaches (evenFloor (b.x0 - MARGIN)) (b.x1 + MARGIN)
  have hy1 := span_reaches (evenFloor (b.y0 - MARGIN)) (b.y1 + MARGIN)
  unfold Covers
  dsimp only
  unfold MARGIN at *
  omega

lemma planCanvas_grow (h : planCanvas maxCells (some pl) b tep = .ok plan)
    (ht : tep = pl.tep ∨ tep = none) :
    (plan = none ∧ Covers pl.canvas b ∧ tep = pl.tep) ∨
      ∃ p, plan = some p ∧ Lays p pl.canvas pl.tep ∧ Covers p.canvas b ∧ p.tep = tep := by
  simp only [planCanvas] at h
  split_ifs at h with hin hsame hbig
  · cases h
    exact .inl ⟨rfl, ⟨⟨hin.1, hin.2.2.1⟩, hin.2.1, hin.2.2.2⟩, hsame⟩
  · cases h
    refine .inr ⟨_, rfl, ⟨rfl, rfl, ?_, ?_, le_rfl, le_rfl, ?_, ?_, ht⟩,
      ⟨⟨hin.1, hin.2.2.1⟩, hin.2.1, hin.2.2.2⟩, rfl⟩ <;> simp
  · cases h
    have hx := evenFloor_le (b.x0 - MARGIN)
    have hy := evenFloor_le (b.y0 - MARGIN)
    set nx0 := min pl.canvas.cx0 (evenFloor (b.x0 - MARGIN)) with hnx0
    set ny0 := min pl.canvas.cy0 (evenFloor (b.y0 - MARGIN)) with hny0
    set nx1 := max (pl.canvas.cx0 + pl.canvas.W) (b.x1 + MARGIN) with hnx1
    set ny1 := max (pl.canvas.cy0 + pl.canvas.H) (b.y1 + MARGIN) with hny1
    have hx1 := span_reaches nx0 nx1
    have hy1 := span_reaches ny0 ny1
    unfold MARGIN at *
    refine .inr ⟨_, rfl, ⟨rfl, rfl, rfl, rfl, ?_, ?_, ?_, ?_, ht⟩, ⟨⟨?_, ?_⟩, ?_, ?_⟩, rfl⟩ <;>
      dsimp only <;> omega

lemma foldr_min_le (h : s ∈ xs) : xs.foldr min d ≤ s := by
  induction xs with
  | nil => simp at h
  | cons x xs ih =>
    rcases mem_cons.mp h with rfl | h
    · exact min_le_left _ _
    · exact (min_le_right _ _).trans (ih h)

lemma le_foldr_max (h : s ∈ xs) : s ≤ xs.foldr max d := by
  induction xs with
  | nil => simp at h
  | cons x xs ih =>
    rcases mem_cons.mp h with rfl | h
    · exact le_max_left _ _
    · exact (ih h).trans (le_max_right _ _)

lemma timeEpoch_stampOk (hs : s ∈ stamps) (h0 : 0 ≤ s) : StampOk (timeEpoch planes stamps) s := by
  cases he : timeEpoch planes stamps with
  | none => exact ⟨h0, by simpa using h0, by simp [Fits]⟩
  | some ep =>
    have hoff : 0 ≤ s - ep ∧ s - ep ≤ T_MAX := by
      cases planes with
      | some pl =>
        simp only [timeEpoch, Option.filter_eq_some_iff, all_eq_true] at he
        simpa using he.2 s hs
      | none =>
        simp only [timeEpoch, epochFor] at he
        split_ifs at he with hc
        have h1 := foldr_min_le (d := stamps.headD 0) hs
        have h2 := le_foldr_max (d := stamps.headD 0) hs
        simp only [Option.some.injEq] at he
        unfold T_HALF T_MAX at *
        omega
    exact ⟨h0, by simpa using hoff.1, fun _ => by simpa using hoff.2⟩

lemma timeEpoch_keeps :
    timeEpoch (some pl) stamps = pl.tep ∨ timeEpoch (some pl) stamps = none := by
  cases he : timeEpoch (some pl) stamps with
  | none => exact .inr rfl
  | some ep =>
    simp only [timeEpoch, Option.filter_eq_some_iff] at he
    exact .inl he.1.symm

lemma boundsOf_ne_none (hne : ps ≠ []) : boundsOf ps ≠ none := by
  have hsome : ∀ (ps : List Prepared) (a : Box), ps.foldl (fun acc p =>
      joinBox acc (some ⟨p.gx, p.gy, p.gx + p.wl.cols, p.gy + p.wl.rows⟩)) (some a) ≠ none := by
    intro ps
    induction ps with
    | nil => simp
    | cons q ps ih => exact fun a => ih _
  obtain ⟨p, ps, rfl⟩ := exists_cons_of_ne_nil hne
  exact hsome ps _

lemma boundsOf_covers {c : Canvas} (hb : boundsOf ps = some b)
    (hc : Covers c b) : ∀ p ∈ ps, Inside c p.wl p.gx p.gy := by
  have key : ∀ (ps : List Prepared) (acc : Option Box), (∃ b, ps.foldl (fun acc p =>
      joinBox acc (some ⟨p.gx, p.gy, p.gx + p.wl.cols, p.gy + p.wl.rows⟩)) acc = some b ∧
        Covers c b) → (∀ a ∈ acc, Covers c a) ∧ ∀ p ∈ ps, Inside c p.wl p.gx p.gy := by
    intro ps
    induction ps with
    | nil =>
      rintro acc ⟨b, rfl, hb⟩
      simpa using hb
    | cons p ps ih =>
      intro acc h
      obtain ⟨h1, h2⟩ := ih _ h
      cases acc with
      | none =>
        have := h1 _ rfl
        refine ⟨by simp, fun q hq => ?_⟩
        rcases mem_cons.mp hq with rfl | hq
        · unfold Covers at this
          unfold Inside
          dsimp only at this
          omega
        · exact h2 q hq
      | some a =>
        have := h1 _ rfl
        simp only [Covers, Box.join] at this
        refine ⟨fun a' ha => ?_, fun q hq => ?_⟩
        · cases ha
          unfold Covers
          omega
        · rcases mem_cons.mp hq with rfl | hq
          · unfold Inside
            omega
          · exact h2 q hq
  exact (key ps none ⟨b, hb, hc⟩).2

def KeyedOnce (S : Finset Leaf) : Prop := ∀ l ∈ S, ∀ l' ∈ S, l.key = l'.key → l = l'

structure Recorded (S : Finset Leaf) (fs : FoldState) : Prop where
  found : ∀ key r, fs.leaves.lookup key = some r ↔ ∃ l ∈ S, l.key = key ∧ leafRec l = r
  order : fs.leafOrder = (S.image stampKey).sort (· ≤ ·)
  watermark : IsGreatest (insert (toLex (-1, "")) (stampKey '' S)) fs.watermark

lemma recorded_fresh : Recorded ∅ FoldState.fresh where
  found := by simp [FoldState.fresh]
  order := by simp [FoldState.fresh]
  watermark := by simp [FoldState.fresh]

lemma sort_insert_eq {A : Finset (ℤ ×ₗ String)} (h : a ∉ A) :
    (A.sort (· ≤ ·)).orderedInsert (· ≤ ·) a = (insert a A).sort (· ≤ ·) := by
  refine List.Perm.eq_of_pairwise (fun x y _ _ h1 h2 => le_antisymm h1 h2) ?_ ?_ ?_
  · exact (Finset.pairwise_sort A (· ≤ ·)).orderedInsert a _
  · exact Finset.pairwise_sort _ _
  · refine (perm_orderedInsert _ _ _).trans ?_
    rw [perm_ext_iff_of_nodup]
    · simp
    · exact nodup_cons.mpr ⟨by simpa using h, Finset.sort_nodup _ _⟩
    · exact Finset.sort_nodup _ _

lemma orderedInsert_erase_sorted {order : List (ℤ ×ₗ String)} (h : a ∈ order)
    (hs : order.Pairwise (· ≤ ·)) : (order.erase a).orderedInsert (· ≤ ·) a = order := by
  convert orderedInsert_erase a order h hs

lemma stampKey_image_insert (S : Finset Leaf) (l : Leaf) :
    (insert l S).image stampKey = insert (stampKey l) (S.image stampKey) := Finset.image_insert _ _ _

lemma Recorded.put (h : Recorded S fs) {l : Leaf} (hk : KeyedOnce (insert l S)) :
    Recorded (insert l S) { leafPut fs l.key (leafRec l) with
      watermark := max fs.watermark (toLex (l.stamp_ms, l.key)) } where
  found := by
    intro key r
    simp only [leafPut]
    by_cases hkey : key = l.key
    · subst hkey
      rw [AList.lookup_insert]
      constructor
      · rintro ⟨⟩
        exact ⟨l, Finset.mem_insert_self _ _, rfl, rfl⟩
      · rintro ⟨l', hl', hkk, rfl⟩
        rw [hk l' hl' l (Finset.mem_insert_self _ _) hkk]
    · rw [AList.lookup_insert_ne hkey, h.found]
      constructor
      · rintro ⟨l', hl', hr⟩
        exact ⟨l', Finset.mem_insert_of_mem hl', hr⟩
      · rintro ⟨l', hl', hkk, hr⟩
        rcases Finset.mem_insert.mp hl' with rfl | hl'
        · exact absurd hkk.symm hkey
        · exact ⟨l', hl', hkk, hr⟩
  order := by
    rw [stampKey_image_insert]
    simp only [leafPut]
    cases hold : fs.leaves.lookup l.key with
    | none =>
      have hn : stampKey l ∉ S.image stampKey := by
        intro hm
        obtain ⟨l', hl', he⟩ := Finset.mem_image.mp hm
        have hkk : l'.key = l.key := congrArg (fun e => (ofLex e).2) he
        have := (h.found l.key (leafRec l')).mpr ⟨l', hl', hkk, rfl⟩
        simp [hold] at this
      rw [h.order]
      exact sort_insert_eq hn
    | some old =>
      obtain ⟨l', hl', hkk, rfl⟩ := (h.found l.key old).mp hold
      obtain rfl : l' = l :=
        hk l' (Finset.mem_insert_of_mem hl') l (Finset.mem_insert_self _ _) hkk
      have hm : stampKey l' ∈ S.image stampKey := Finset.mem_image_of_mem _ hl'
      rw [Finset.insert_eq_of_mem hm, h.order]
      have hmem : stampKey l' ∈ (S.image stampKey).sort (· ≤ ·) := (Finset.mem_sort _).mpr hm
      exact orderedInsert_erase_sorted hmem (Finset.pairwise_sort _ _)
  watermark := by
    have hs : (stampKey '' ((insert l S : Finset Leaf) : Set Leaf)) =
        insert (stampKey l) (stampKey '' (S : Set Leaf)) := by
      rw [Finset.coe_insert, Set.image_insert_eq]
    rw [hs, Set.insert_comm]
    simpa [max_comm, stampKey] using h.watermark.insert (stampKey l)

structure Joined (near : Option ℚ) (S : Finset Leaf) (fs : FoldState) : Prop where
  records : Recorded S fs
  planes : ∀ pl, fs.planes = some pl → JoinedPlanes near S pl
  empty : fs.planes = none → S = ∅

lemma foldOne_run (rep : Report) (hr : Recorded S fs) (hj : JoinedPlanes near S pl)
    (hk : KeyedOnce (S ∪ (ps.map Prepared.lf).toFinset))
    (hp : ∀ p ∈ ps, p.Valid ∧ Inside pl.canvas p.wl p.gx p.gy ∧ StampOk pl.tep p.lf.stamp_ms) :
    let out := ps.foldl (foldOne near) (fs, pl, rep)
    Recorded (S ∪ (ps.map Prepared.lf).toFinset) out.1 ∧
      JoinedPlanes near (S ∪ (ps.map Prepared.lf).toFinset) out.2.1 := by
  induction ps generalizing S fs pl rep with
  | nil => simpa using ⟨hr, hj⟩
  | cons p ps ih =>
    have hset : S ∪ ((p :: ps).map Prepared.lf).toFinset =
        insert p.lf S ∪ (ps.map Prepared.lf).toFinset := by
      ext l
      simp only [map_cons, toFinset_cons, Finset.mem_union, Finset.mem_insert]
      tauto
    rw [hset] at hk ⊢
    obtain ⟨hv, hi, hs⟩ := hp p (by simp)
    obtain ⟨hj', hc, ht⟩ := hj.fold hv hi hs
    have hr' := hr.put (l := p.lf) fun a ha b hb =>
      hk a (Finset.mem_union_left _ ha) b (Finset.mem_union_left _ hb)
    refine ih _ hr' hj' hk fun q hq => ?_
    rw [hc, ht]
    exact hp q (mem_cons_of_mem _ hq)

lemma mutate_fold {r : Applied} (h : mutate prm fs leaves none ps none plan = .ok (fs', r)) :
    match plan.elim fs.planes fun p => some (growCanvas prm.near_range_m.isSome fs.planes p) with
    | none => fs' = fs
    | some pl =>
      let out := ps.foldl (foldOne prm.near_range_m) (fs, pl, ⟨none, [], false⟩)
      fs' = { out.1 with planes := some out.2.1 } := by
  unfold mutate at h
  cases plan with
  | none =>
    cases hpl : fs.planes with
    | none => simp_all
    | some pl =>
      simp only [hpl] at h ⊢
      split_ifs at h
      cases h
      rfl
  | some p =>
    simp only at h ⊢
    split_ifs at h
    cases h
    rfl

lemma planBatch_planes (hne : ps ≠ []) (h : planBatch maxCells planes ps = .ok plan)
    (hj : ∀ pl, planes = some pl → JoinedPlanes near S pl) (he : planes = none → S = ∅)
    (h0 : ∀ p ∈ ps, 0 ≤ p.lf.stamp_ms) :
    ∃ pl, plan.elim planes (fun p => some (growCanvas near.isSome planes p)) = some pl ∧ JoinedPlanes near S pl ∧
      ∀ p ∈ ps, Inside pl.canvas p.wl p.gx p.gy ∧ StampOk pl.tep p.lf.stamp_ms := by
  unfold planBatch at h
  cases hb : boundsOf ps with
  | none =>
    exact absurd hb (boundsOf_ne_none hne)
  | some b =>
    rw [hb] at h
    dsimp only at h
    have hst : ∀ p ∈ ps, StampOk (timeEpoch planes (ps.map fun p => p.lf.stamp_ms))
        p.lf.stamp_ms := fun p hp =>
      timeEpoch_stampOk (mem_map.mpr ⟨p, hp, rfl⟩) (h0 p hp)
    cases planes with
    | none =>
      obtain ⟨p, rfl, hc, ht⟩ := planCanvas_fresh h
      refine ⟨_, rfl, ?_, fun q hq => ⟨boundsOf_covers hb hc q hq, ?_⟩⟩
      · rw [he rfl]
        exact joinedPlanes_fresh near p
      · simpa [growCanvas, ht] using hst q hq
    | some pl =>
      rcases planCanvas_grow h timeEpoch_keeps with ⟨rfl, hc, ht⟩ | ⟨p, rfl, hl, hc, ht⟩
      · exact ⟨pl, rfl, hj pl rfl, fun q hq => ⟨boundsOf_covers hb hc q hq, ht ▸ hst q hq⟩⟩
      · refine ⟨_, rfl, (hj pl rfl).grow hl _, fun q hq => ⟨boundsOf_covers hb hc q hq, ?_⟩⟩
        simpa [growCanvas, ht] using hst q hq

lemma prepare_toFinset (h : prepare leaves = .ok ps)
    (hk : KeyedOnce leaves.toFinset) : (ps.map Prepared.lf).toFinset = leaves.toFinset := by
  obtain ⟨h1, h2⟩ := prepare_mem h
  ext l
  simp only [mem_toFinset, mem_map]
  constructor
  · rintro ⟨p, hp, rfl⟩
    exact (h1 p hp).1
  · intro hl
    obtain ⟨p, hp, hkey⟩ := h2 l hl
    exact ⟨p, hp, hk _ (by simpa using (h1 p hp).1) _ (by simpa using hl) hkey⟩

lemma foldMany_joined (h : foldMany prm maxCells fs leaves = .ok fs')
    (hj : Joined prm.near_range_m S fs) (hk : KeyedOnce (S ∪ leaves.toFinset))
    (h0 : ∀ l ∈ leaves, 0 ≤ l.stamp_ms) :
    Joined prm.near_range_m (S ∪ leaves.toFinset) fs' := by
  unfold foldMany apply at h
  cases hp : prepare leaves with
  | error e => simp [hp, Except.map] at h
  | ok ps =>
    have hset := prepare_toFinset hp fun a ha b hb =>
      hk a (Finset.mem_union_right _ ha) b (Finset.mem_union_right _ hb)
    obtain ⟨h1, -⟩ := prepare_mem hp
    rw [← hset] at hk ⊢
    simp only [hp, and_true] at h
    by_cases hne : ps = []
    · simp only [hne, if_true, Except.map, Except.ok.injEq] at h
      subst h hne
      simpa using hj
    · rw [if_neg hne] at h
      cases hb : planBatch maxCells fs.planes ps with
      | error e => simp [hb, Except.map] at h
      | ok plan =>
        obtain ⟨pl, hpl, hjp, hps⟩ := planBatch_planes hne hb hj.planes hj.empty
          fun p hp => h0 _ (h1 p hp).1
        cases hm : mutate prm fs leaves none ps none plan with
        | error e => simp [hb, hm, Except.map] at h
        | ok out =>
          simp only [hb, hm, Except.map, Except.ok.injEq] at h
          subst h
          have hmf := mutate_fold hm
          rw [hpl] at hmf
          obtain ⟨hr, hp'⟩ := foldOne_run ⟨none, [], false⟩ hj.records hjp hk
            fun p hp => ⟨(h1 p hp).2, hps p hp⟩
          dsimp only at hmf hr hp'
          rw [hmf]
          exact ⟨⟨hr.found, hr.order, hr.watermark⟩, by rintro _ ⟨⟩; exact hp', by simp⟩

lemma foldAll_joined {batches : List (List Leaf)} (h : foldAll prm maxCells fs batches = .ok fs')
    (hj : Joined prm.near_range_m S fs) (hk : KeyedOnce (S ∪ batches.flatten.toFinset))
    (h0 : ∀ l ∈ batches.flatten, 0 ≤ l.stamp_ms) :
    Joined prm.near_range_m (S ∪ batches.flatten.toFinset) fs' := by
  induction batches generalizing S fs with
  | nil =>
    simp only [foldAll, Except.ok.injEq] at h
    subst h
    simpa using hj
  | cons b rest ih =>
    unfold foldAll at h
    cases hb : foldMany prm maxCells fs b with
    | error e => simp [hb, bind, Except.bind] at h
    | ok fs1 =>
      simp only [hb, bind, Except.bind] at h
      have hset : S ∪ (b :: rest).flatten.toFinset =
          S ∪ b.toFinset ∪ rest.flatten.toFinset := by
        rw [flatten_cons, toFinset_append, Finset.union_assoc]
      rw [hset] at hk ⊢
      have hj1 := foldMany_joined hb hj
        (fun x hx y hy => hk x (Finset.mem_union_left _ hx) y (Finset.mem_union_left _ hy))
        fun l hl => h0 l (by simp [hl])
      exact ih h hj1 hk fun l hl => h0 l (by
        rw [flatten_cons]
        exact mem_append_right _ hl)

lemma joined_fresh (near : Option ℚ) : Joined near ∅ FoldState.fresh :=
  ⟨recorded_fresh, by simp [FoldState.fresh], fun _ => rfl⟩

lemma exported_pair {T wide : Cells ℤ} {V : Cells U8}
    {r : ℤ → ℤ → WithBot (ℤ ×ₗ U8)} (hc : st.canvas = pl.canvas)
    (hw : wide = fun y x => widen pl.tep (T y x)) (h : PairPlane pl.canvas pl.tep T V r)
    (y x : ℤ) :
    (st.global (-1) wide y x, st.global UNKNOWN V y x) = Register.showPair UNKNOWN (r y x) := by
  have hp := h y x
  unfold OnCanvas at hp
  unfold EngineState.global
  rw [hc, hw]
  split_ifs at hp ⊢
  · exact hp.widen.showPair_eq
  · rw [hp]
    rfl

lemma exported_time {T : Cells ℤ} {r : ℤ → ℤ → WithBot ℤ} (hc : st.canvas = pl.canvas)
    (h : TimePlane pl.canvas pl.tep T r) (y x : ℤ) :
    st.global (-1) (fun y x => widen pl.tep (T y x)) y x = Register.showTime (r y x) := by
  have hp := h y x
  unfold OnCanvas at hp
  unfold EngineState.global
  rw [hc]
  split_ifs at hp ⊢
  · exact hp.widen.showTime_eq
  · rw [hp]
    rfl

lemma Recorded.lookup (h : Recorded S fs) {e : ℤ ×ₗ String} (he : e ∈ fs.leafOrder) :
    ∃ l ∈ S, stampKey l = e ∧ fs.leaves.lookup (ofLex e).2 = some (leafRec l) := by
  rw [h.order, Finset.mem_sort, Finset.mem_image] at he
  obtain ⟨l, hl, rfl⟩ := he
  exact ⟨l, hl, rfl, (h.found _ _).mpr ⟨l, hl, rfl, rfl⟩⟩

lemma exportLeaves_order (h : Recorded S fs) :
    (exportLeaves fs).map (fun r => toLex (r.t, r.key)) = (S.image stampKey).sort (· ≤ ·) := by
  unfold exportLeaves
  rw [← h.order, map_filterMap]
  have hid : ∀ e ∈ fs.leafOrder, Option.map (fun r : LeafRecord => toLex (r.t, r.key))
      ((fs.leaves.lookup (ofLex e).2).map (leafRecord (ofLex e).2)) = some e := by
    intro e he
    obtain ⟨l, -, rfl, hl⟩ := h.lookup he
    rw [hl]
    rfl
  rw [filterMap_congr hid]
  exact filterMap_some

lemma exportLeaves_records (h : Recorded S fs) :
    ∀ r ∈ exportLeaves fs, ∃ l ∈ S, r = leafRecord l.key (leafRec l) := by
  intro r hr
  obtain ⟨e, he, hr⟩ := mem_filterMap.mp hr
  obtain ⟨l, hl, rfl, hlook⟩ := h.lookup he
  rw [hlook] at hr
  cases hr
  exact ⟨l, hl, rfl⟩

lemma Joined.export (hj : Joined prm.near_range_m S fs) (hpl : fs.planes = some pl)
    (hst : exportFold prm fs = some st) : IsJoin prm S st := by
  have h := hj.planes pl hpl
  unfold exportFold at hst
  rw [hpl] at hst
  cases hst
  refine ⟨exported_pair rfl rfl h.latest, exported_time rfl h.blocked, ?_, ?_, fun name => ?_, fun name => ?_,
    exportLeaves_order hj.records, exportLeaves_records hj.records, hj.records.watermark⟩
  · intro rng hr
    obtain ⟨F, N, hF, hN, h1, h2⟩ := h.near rng hr
    exact ⟨_, _, by simp only [hF]; rfl, by simp only [hN]; rfl,
      fun y x => ⟨exported_time rfl h1 y x, exported_time rfl h2 y x⟩⟩
  · intro hn
    obtain ⟨h1, h2⟩ := h.noNear hn
    simp [h1, h2]
  · have hc := h.channel name
    unfold chanOf at hc
    unfold chanPair
    dsimp only
    rw [Dict.get_map]
    cases hl : pl.chan.get name with
    | some v =>
      rw [hl] at hc
      exact exported_pair rfl rfl hc
    | none =>
      rw [hl] at hc
      refine exported_pair rfl ?_ hc
      cases pl.tep <;> rfl
  · rw [Dict.keys_map]
    exact h.channels name

/-- Fold is a join: a delivery of accepted batches to a fresh engine, in any order, split
and repetition, exports the order-free maximum over the delivered set. -/
theorem fold_is_join (prm : SceneParams) (maxCells : ℕ) (batches : List (List Leaf))
    (fs : FoldState) (h : foldAll prm maxCells FoldState.fresh batches = .ok fs)
    (hkeys : ∀ l ∈ batches.flatten, ∀ l' ∈ batches.flatten, l.key = l'.key → l = l')
    (hstamps : ∀ l ∈ batches.flatten, 0 ≤ l.stamp_ms) :
    match exportFold prm fs with
    | none => batches.flatten = []
    | some st => IsJoin prm batches.flatten.toFinset st := by
  have hk : KeyedOnce (∅ ∪ batches.flatten.toFinset) := by
    intro l hl l' hl'
    rw [Finset.empty_union, mem_toFinset] at hl hl'
    exact hkeys l hl l' hl'
  have hj := foldAll_joined h (joined_fresh _) hk hstamps
  rw [Finset.empty_union] at hj
  cases hpl : fs.planes with
  | none =>
    have he := hj.empty hpl
    simpa [exportFold, hpl] using he
  | some pl =>
    cases hst : exportFold prm fs with
    | none => simp [exportFold, hpl] at hst
    | some st => exact hj.export hpl hst

/-- A small robot with a near range, and two leaves whose one-cell windows touch. -/
def sampleParams : SceneParams where
  robot_half_side := 3 / 10
  lattice := 1 / 10
  chart_radius := 3
  near_range_m := some 2
  near_min_clearance_m := none
  place_peak_m := none
  place_path_m := none
  clearance_needs_range := by simp
  clearance_pos := by simp
  place_both := rfl
  place_pos := by simp

def sampleLeaf (key : String) (stamp_ms : ℤ) (x : ℚ) (value : U8) : Leaf :=
  ⟨key, none, stamp_ms, x, 0, 0, RES, (x, 0), ⟨1, 1, fun _ _ => value⟩, 1 / 2, ⟨1, 0⟩,
    ⟨[("soft_cost", some ⟨1, 1, fun _ _ => value⟩)], by simp⟩, none⟩

def sampleBatches : List (List Leaf) :=
  [[sampleLeaf "a" 5 0 7], [sampleLeaf "b" 9 (1 / 20) 100, sampleLeaf "a" 5 0 7]]

theorem fold_is_join_sample : ∃ fs,
    foldAll sampleParams 16000000 FoldState.fresh sampleBatches = .ok fs ∧
    match exportFold sampleParams fs with
    | none => sampleBatches.flatten = []
    | some st => IsJoin sampleParams sampleBatches.flatten.toFinset st := by
  have hok : (foldAll sampleParams 16000000 FoldState.fresh sampleBatches).isOk = true := by
    decide +kernel
  cases h : foldAll sampleParams 16000000 FoldState.fresh sampleBatches with
  | error e => simp [h, Except.isOk, Except.toBool] at hok
  | ok fs =>
    exact ⟨fs, rfl, fold_is_join sampleParams 16000000 sampleBatches fs h
      (by decide +kernel) (by decide +kernel)⟩

end CloudServer.SceneDelivery
