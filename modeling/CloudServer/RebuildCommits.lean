import CloudServer.RebuildStep

/-! Every rebuild comes to its commit, unless its buffer can be full for the feed before it is full for the fold. -/
namespace CloudServer.RebuildCommits
open RebuildStep List

/-! ### Runs that come to their end -/

section Progress

lemma eventually_of_rank {goal : ℕ → Prop} {r : ℕ → ℕ} (h : ∀ n, ¬goal n → ∃ m, goal m ∨ r m < r n) :
    ∃ n, goal n := by
  by_contra hno
  push Not at hno
  have hall : ∀ k n, r n ≤ k → False := by
    intro k
    induction k with
    | zero =>
      intro n hn
      obtain ⟨m, hm | hm⟩ := h n (hno n)
      · exact hno m hm
      · omega
    | succ k ih =>
      intro n hn
      obtain ⟨m, hm | hm⟩ := h n (hno n)
      · exact hno m hm
      · exact ih m (by omega)
  exact hall (r 0) 0 le_rfl

end Progress

/-! ### Lists of records -/

section Lists
variable {α : Type}

lemma sublist_sorted {r : α → α → Prop} [DecidableRel r] [Std.Total r] [IsTrans α r] {l l' : List α}
    (h : l.Sublist l') : (l.insertionSort r).Sublist (l'.insertionSort r) := by
  induction h with
  | slnil => exact .slnil
  | cons a h ih => exact ih.trans (sublist_orderedInsert a _)
  | cons_cons a h ih => exact ih.orderedInsert_sublist a (pairwise_insertionSort r _)

lemma sublist_dropLast {l l' : List α} (h : l.Sublist l') : l.dropLast.Sublist l'.dropLast := by
  have := h.reverse.tail
  simpa [← dropLast_reverse] using this.reverse

end Lists

/-! ### The plan -/

section Plan
variable {κ : Type} [LinearOrder κ] {C : Config} {S : Source κ} {o : Cursor κ} {s t : Worker κ} {e : Env}

instance : Std.Total (canonical (κ := κ)) :=
  ⟨fun a b => le_total (toLex (a.stamp, a.key)) (toLex (b.stamp, b.key))⟩

instance : IsTrans (Node κ) canonical :=
  ⟨fun a b _ (hab : toLex (a.stamp, a.key) ≤ toLex (b.stamp, b.key)) hbc => hab.trans hbc⟩

structure Scanned (S : Source κ) (o : Cursor κ) (s : Worker κ) : Prop where
  buf : s.buf = []
  recs : ∃ past, s.plan_recs.items = past.map (fun n => (n.key, n)) ∧
    unscanned S o none = past ++ unscanned S o s.scan

lemma keep_new {recs : Dict κ (Node κ)} {past nodes : List (Node κ)}
    (hr : recs.items = past.map fun n => (n.key, n)) (hk : ((past ++ nodes).map Node.key).Nodup) :
    (nodes.foldl keep recs).items = (past ++ nodes).map fun n => (n.key, n) := by
  induction nodes generalizing recs past with
  | nil => simpa using hr
  | cons n nodes ih =>
    have hnew : n.key ∉ recs.items.map Prod.fst := by
      rw [hr, map_map]
      rw [map_append, map_cons] at hk
      intro hmem
      exact (nodup_append.mp hk).2.2 n.key hmem n.key (by simp) rfl
    have hset : (keep recs n).items = (past ++ [n]).map fun n => (n.key, n) := by
      have hget : recs.get n.key = none := Dict.get_eq_none.mpr hnew
      unfold keep
      rw [hget]
      change Dict.setItem n.key n recs.items = _
      rw [Dict.setItem_of_notMem hnew, hr]
      simp
    have := ih hset (by rwa [append_assoc, singleton_append])
    rwa [append_assoc, singleton_append] at this

lemma past_nodup {past r : List (Node κ)} (h : unscanned S o none = past ++ r) :
    ((past ++ r).map Node.key).Nodup := by
  rw [← h]
  exact S.keys.sublist (List.Sublist.map Node.key filter_sublist)

lemma Scanned.scan (h : Scanned S o s) (hs : s.plan = none) :
    Scanned S o (plan_scan C S o s) ∧ (plan_scan C S o s).plan = none ∨
    (plan_scan C S o s).plan = some (fullPlan S o) := by
  obtain ⟨past, hrecs, hrest⟩ := h.recs
  have hpage : S.costmap_nodes_since (s.scan.getD o) C.batch_size ++
      (unscanned S o s.scan).drop C.batch_size = unscanned S o s.scan := take_append_drop _ _
  have hkept : (List.foldl keep s.plan_recs (S.costmap_nodes_since (s.scan.getD o) C.batch_size)).items =
      (past ++ S.costmap_nodes_since (s.scan.getD o) C.batch_size).map fun n => (n.key, n) := by
    refine keep_new hrecs ((past_nodup (r := unscanned S o s.scan) hrest).sublist (List.Sublist.map _ ?_))
    exact (List.Sublist.refl past).append ((List.take_prefix _ _).sublist)
  by_cases hfull : (S.costmap_nodes_since (s.scan.getD o) C.batch_size).length < C.batch_size
  · right
    have hall : S.costmap_nodes_since (s.scan.getD o) C.batch_size = unscanned S o s.scan := by
      have hlen : (S.costmap_nodes_since (s.scan.getD o) C.batch_size).length =
          min C.batch_size (unscanned S o s.scan).length := length_take
      have hdrop : (unscanned S o s.scan).drop C.batch_size = [] := drop_eq_nil_of_le (by omega)
      rwa [hdrop, append_nil] at hpage
    unfold plan_scan
    simp only
    rw [if_pos hfull]
    unfold plan_seal fullPlan
    simp only
    rw [hkept, hall, ← hrest, map_map]
    simp [unscanned, Function.comp_def]
  · left
    unfold plan_scan
    simp only
    rw [if_neg hfull]
    refine ⟨⟨h.buf, _, hkept, ?_⟩, hs⟩
    simp only
    rw [unscanned_page hfull, append_assoc, hpage]
    exact hrest

lemma Scanned.seal (h : Scanned S o s) :
    ∃ unfed, (plan_seal s).plan = some unfed ∧ unfed.Sublist (fullPlan S o) := by
  obtain ⟨past, hrecs, hrest⟩ := h.recs
  refine ⟨_, rfl, sublist_sorted ?_⟩
  have hpast : s.plan_recs.items.map Prod.snd = past := by
    rw [hrecs, map_map]
    simp [Function.comp_def]
  have hfull : (S.nodes.filter fun n => o < order n) = past ++ unscanned S o s.scan := hrest
  rw [hpast, hfull]
  exact sublist_append_left _ _

inductive Timed (C : Config) (S : Source κ) (o : Cursor κ) (e : Env) (s t : Worker κ) (more : Bool) : Prop
  | still : t = s → (more = true → batch_max C ≤ leaf_count s.buf) → (more = false → e.paused = true) →
      Timed C S o e s t more
  | page : s.plan = none → more = true → t.plan = none → Scanned S o t → Timed C S o e s t more
  | feed (unfed : List (Node κ)) : e.paused = false → leaf_count s.buf < batch_max C →
      (s.plan = some unfed ∨ s.plan = none ∧ unfed = fullPlan S o) →
      t.plan = some (plan_feed C e.late unfed 0 0 0 s.buf).unfed →
        t.buf = (plan_feed C e.late unfed 0 0 0 s.buf).buf →
      more = decide ((plan_feed C e.late unfed 0 0 0 s.buf).unfed ≠ []) → Timed C S o e s t more

lemma pull_timed {more : Bool} {skipped : ℕ} (hcut : e.cut = false) (hscan : s.plan = none → Scanned S o s)
    (h : pull C S o e s = (t, more, skipped)) : Timed C S o e s t more := by
  have hsame : plan_cut_overdue e.cut s = s := by
    unfold plan_cut_overdue
    rw [hcut]
    rfl
  have hpull := pull_cases C S o e s
  rw [h] at hpull
  generalize hr : (t, more, skipped) = r at hpull
  cases hpull with
  | paused hp =>
    obtain ⟨rfl, rfl, rfl⟩ := by simpa using hr
    exact .still rfl (by simp) fun _ => hp
  | full hp hfull =>
    rw [hsame] at hr
    obtain ⟨rfl, rfl, rfl⟩ := by simpa using hr
    exact .still rfl (fun _ => hfull) (by simp)
  | page t' hp hroom hnone ht hplan =>
    obtain ⟨rfl, rfl, rfl⟩ := by simpa using hr
    rw [hsame] at hnone ht
    rcases (hscan hnone).scan (C := C) hnone with ⟨hs, -⟩ | hs
    · exact .page hnone rfl hplan (ht ▸ hs)
    · rw [ht, hs] at hplan
      cases hplan
  | feed t' unfed hp hroom ht hplan =>
    rw [hsame] at ht
    simp only [Prod.mk.injEq] at hr
    obtain ⟨rfl, rfl, rfl⟩ := hr
    rcases ht with rfl | ⟨hnone, rfl⟩
    · exact .feed unfed hp hroom (.inl hplan) rfl rfl rfl
    · have hbuf := (plan_scan_beside (C := C) (S := S) (o := o) s).2
      rcases (hscan hnone).scan (C := C) hnone with ⟨-, hs⟩ | hs
      · rw [hs] at hplan
        cases hplan
      · obtain rfl : fullPlan S o = unfed := by simpa [hs] using hplan
        rw [hbuf]
        exact .feed _ hp hroom (.inr ⟨hnone, rfl⟩) rfl rfl rfl

structure Records (s t : Worker κ) : Prop where
  plan : t.plan = s.plan
  scan : t.scan = s.scan
  recs : t.plan_recs = s.plan_recs

lemma Scanned.of_records (h : Scanned S o s) (hr : Records s t) (hb : t.buf = []) : Scanned S o t where
  buf := hb
  recs := by
    rw [hr.recs, hr.scan]
    exact h.recs

omit [LinearOrder κ] in
lemma commit_records (s : Worker κ) :
    Records s (commit_rebuild C s) ∧ (commit_rebuild C s).buf = s.buf := by
  unfold commit_rebuild
  split_ifs
  · exact ⟨⟨rfl, rfl, rfl⟩, rfl⟩
  · exact ⟨⟨rfl, rfl, rfl⟩, rfl⟩
  · exact ⟨⟨rfl, rfl, rfl⟩, rfl⟩

def afterSave (C : Config) (e : Env) (idle at_head : Bool) (s : Worker κ) : Worker κ :=
  if s.dirty then
    if due C s e.due_ms idle false ∨
      ((at_head ∨ e.force) ∧ due C s e.force_ms false true) then save e s else s
  else persist_cursor e s

section
omit [LinearOrder κ]

lemma publish_eq (idle at_head folded : Bool) (s : Worker κ) : publish C e idle at_head folded s =
    if (afterSave C e idle at_head s).dirty = false ∧
      ((at_head ∧ ((afterSave C e idle at_head s).rebuild_saved ∨
      folded = false)) ∨ (e.force ∧ (afterSave C e idle at_head s).rebuild_saved)) then
      commit_rebuild C (afterSave C e idle at_head s) else afterSave C e idle at_head s := rfl

lemma afterSave_cases (C : Config) (e : Env) (idle at_head : Bool) (s : Worker κ) :
    (s.dirty = true ∧ afterSave C e idle at_head s = save e s) ∨ afterSave C e idle at_head s = s ∨
    (s.dirty = false ∧ afterSave C e idle at_head s = persist_cursor e s) := by
  unfold afterSave
  by_cases hd : s.dirty
  · rw [if_pos hd]
    split_ifs
    · exact .inl ⟨hd, rfl⟩
    · exact .inr (.inl rfl)
  · rw [if_neg hd]
    exact .inr (.inr ⟨by simpa using hd, rfl⟩)

lemma persist_records (s : Worker κ) : Records s (persist_cursor e s) ∧ (persist_cursor e s).buf = s.buf ∧
    (persist_cursor e s).dirty = s.dirty ∧ (persist_cursor e s).rebuild_saved = s.rebuild_saved ∧
    (persist_cursor e s).ended = s.ended := by
  unfold persist_cursor
  split_ifs
  · exact ⟨⟨rfl, rfl, rfl⟩, rfl, rfl, rfl, rfl⟩
  · exact ⟨⟨rfl, rfl, rfl⟩, rfl, rfl, rfl, rfl⟩

lemma afterSave_records (idle at_head : Bool) (s : Worker κ) : Records s (afterSave C e idle at_head s) ∧
    (afterSave C e idle at_head s).buf = s.buf ∧ (afterSave C e idle at_head s).ended = s.ended := by
  rcases afterSave_cases C e idle at_head s with ⟨-, h⟩ | h | ⟨-, h⟩
  · rw [h]
    exact ⟨⟨rfl, rfl, rfl⟩, rfl, rfl⟩
  · rw [h]
    exact ⟨⟨rfl, rfl, rfl⟩, rfl, rfl⟩
  · rw [h]
    exact ⟨(persist_records s).1, (persist_records s).2.1, (persist_records s).2.2.2.2⟩

lemma publish_records (idle at_head folded : Bool) (s : Worker κ) :
    Records s (publish C e idle at_head folded s) ∧
    (publish C e idle at_head folded s).buf = s.buf := by
  obtain ⟨h1, h2, -⟩ := afterSave_records (C := C) (e := e) idle at_head s
  rw [publish_eq]
  split_ifs
  · obtain ⟨h3, h4⟩ := commit_records (C := C) (afterSave C e idle at_head s)
    exact ⟨⟨h3.plan.trans h1.plan, h3.scan.trans h1.scan, h3.recs.trans h1.recs⟩, h4.trans h2⟩
  · exact ⟨h1, h2⟩

end

variable {u : Worker κ} {more : Bool} {skipped : ℕ} {batch : List (Node κ)}

lemma parts_fold (h : Parts C S o e s t u more skipped batch) : Records t u ∧
    (batch = [] ∧ u.dirty = t.dirty ∧ u.buf = release_leading_skips t.buf ∨
      batch ≠ [] ∧ u.dirty = true ∧
      u.buf = release_leading_skips ((release_leading_skips t.buf).drop batch.length)) := by
  rw [h.folded]
  unfold fold_batch
  by_cases hb : batch = []
  · rw [if_pos hb]
    exact ⟨⟨rfl, rfl, rfl⟩, .inl ⟨hb, rfl, rfl⟩⟩
  · rw [if_neg hb]
    exact ⟨⟨rfl, rfl, rfl⟩, .inr ⟨hb, rfl, rfl⟩⟩

omit [LinearOrder κ] in
lemma leaf_count_drop (n : ℕ) (buf : List (Node κ)) : leaf_count (buf.drop n) ≤ leaf_count buf :=
  (drop_sublist n buf).countP_le

lemma parts_leaf_le (h : Parts C S o e s t u more skipped batch) : leaf_count u.buf ≤ leaf_count t.buf := by
  rcases (parts_fold h).2 with ⟨-, -, hbuf⟩ | ⟨-, -, hbuf⟩
  · rw [hbuf, leaf_count_release]
  · rw [hbuf, leaf_count_release]
    exact (leaf_count_drop _ _).trans (leaf_count_release _).le

lemma parts_nil (h : Parts C S o e s t u more skipped batch) (hb : t.buf = []) :
    batch = [] ∧ u.buf = [] := by
  have hbatch : batch = [] := by
    rw [h.taken]
    unfold drop_skips release_leading_skips
    rw [hb]
    rfl
  refine ⟨hbatch, ?_⟩
  rcases (parts_fold h).2 with ⟨-, -, hbuf⟩ | ⟨hne, -⟩
  · rw [hbuf, hb]
    rfl
  · exact absurd hbatch hne

lemma parts_all (h : Parts C S o e s t u more skipped batch) (hp : e.paused = false) (hm : more = false)
    (hle : leaf_count t.buf ≤ C.rebuild_batch) : leaf_count u.buf = 0 := by
  have hhead : (!more && !e.paused) = true := by simp [hm, hp]
  have hcount : leaf_count (drop_skips t).buf = leaf_count t.buf := leaf_count_release _
  by_cases hzero : leaf_count t.buf = 0
  · exact Nat.le_zero.mp (hzero ▸ parts_leaf_le h)
  · have htake : batch = upTo (max 1 C.rebuild_batch) (drop_skips t).buf := by
      rw [h.taken, hhead]
      unfold take_batch
      rw [if_neg (by omega), if_neg (by simp)]
    rcases (parts_fold h).2 with ⟨hnil, -⟩ | ⟨-, -, hbuf⟩
    · exact absurd hnil (h.taken ▸ take_batch_ne_nil (by omega) (.inr hhead))
    · rw [hbuf, leaf_count_release, htake]
      exact upTo_all (by rw [hcount]; omega)

end Plan

/-! ### A buffer that is never blocked -/

section Free
variable {κ : Type} [LinearOrder κ] {C : Config} {S : Source κ} {o : Cursor κ} {s t : Worker κ} {e : Env}

lemma step_after (C : Config) (S : Source κ) (o : Cursor κ) (e : Env) (s : Worker κ) :
    ∃ t u more skipped batch, Parts C S o e s t u more skipped batch ∧
      Records t (step C S o e s).1 ∧ (step C S o e s).1.buf = u.buf := by
  obtain ⟨t, u, more, skipped, batch, h, hstep⟩ := step_parts C S o e s
  obtain ⟨h1, h2⟩ := publish_records (C := C) (e := e) (idles more skipped batch)
    ((!more && !e.paused) && decide (leaf_count u.buf = 0)) (decide (batch ≠ [])) u
  have h3 := (parts_fold h).1
  refine ⟨t, u, more, skipped, batch, h, ?_, ?_⟩
  · rw [hstep]
    exact ⟨h1.plan.trans h3.plan, h1.scan.trans h3.scan, h1.recs.trans h3.recs⟩
  · rw [hstep]
    exact h2

structure Free (C : Config) (S : Source κ) (o : Cursor κ) (s : Worker κ) : Prop where
  scanned : s.plan = none → Scanned S o s
  room : ∀ unfed, s.plan = some unfed → leaf_count s.buf + leaf_count unfed.dropLast < C.batch_max_leaves

omit [LinearOrder κ] in
lemma leaf_count_append (l l' : List (Node κ)) : leaf_count (l ++ l') = leaf_count l + leaf_count l' :=
  countP_append

omit [LinearOrder κ] in
lemma leaf_count_dropLast (l : List (Node κ)) : leaf_count l ≤ leaf_count l.dropLast + 1 := by
  rcases eq_nil_or_concat l with rfl | ⟨l', a, rfl⟩
  · simp [leaf_count]
  · rw [concat_eq_append, dropLast_concat, leaf_count_append]
    have := countP_le_length (p := Node.leaf) (l := [a])
    unfold leaf_count
    simp only [length_singleton] at this
    omega

lemma Free.cut (h : Free C S o s) (hfull : leaf_count (fullPlan S o).dropLast < C.batch_max_leaves)
    (overdue : Bool) : Free C S o (plan_cut_overdue overdue s) := by
  rcases plan_cut_cases overdue s with hc | ⟨-, hs, hc⟩ | ⟨-, hs, hc⟩
  · rwa [hc]
  · obtain ⟨unfed, hu, hsub⟩ := (h.scanned hs).seal
    rw [hc]
    refine ⟨fun hnone => absurd (hu.symm.trans hnone) (by simp), fun unfed' hu' => ?_⟩
    obtain rfl : unfed = unfed' := Option.some.inj (hu.symm.trans hu')
    have hbuf : (plan_seal s).buf = [] := (h.scanned hs).buf
    have hle : leaf_count unfed.dropLast ≤ leaf_count (fullPlan S o).dropLast :=
      (sublist_dropLast hsub).countP_le
    rw [hbuf]
    simp only [leaf_count, countP_nil] at hle hfull ⊢
    omega
  · obtain ⟨unfed, hu⟩ := Option.isSome_iff_exists.mp hs
    have hroom := h.room unfed hu
    rw [hc]
    refine ⟨by simp, fun unfed' hu' => ?_⟩
    obtain rfl : [] = unfed' := Option.some.inj hu'
    simp only [leaf_count, dropLast_nil, countP_nil] at hroom ⊢
    omega

lemma batch_max_small (hlt : C.batch_max_leaves < C.rebuild_batch) : batch_max C = C.batch_max_leaves :=
  Nat.min_eq_left hlt.le

lemma Free.not_blocked (h : Free C S o s) (hlt : C.batch_max_leaves < C.rebuild_batch) : ¬Blocked C s := by
  rintro ⟨hfull, -⟩
  rw [batch_max_small hlt] at hfull
  have hpos := C.positive.2.1
  cases hs : s.plan with
  | none =>
    rw [(h.scanned hs).buf] at hfull
    simp only [leaf_count, countP_nil] at hfull
    omega
  | some unfed =>
    have := h.room unfed hs
    omega

lemma pull_uncut (hp : e.paused = false) :
    pull C S o e s = pull C S o { e with cut := false } (plan_cut_overdue e.cut s) := by
  unfold pull
  simp only [hp, Bool.false_eq_true, if_false]
  rfl

omit [LinearOrder κ] in
lemma feed_room {unfed buf : List (Node κ)} (hne : (plan_feed C e.late unfed 0 0 0 buf).unfed ≠ []) :
    leaf_count (plan_feed C e.late unfed 0 0 0 buf).buf +
      leaf_count (plan_feed C e.late unfed 0 0 0 buf).unfed.dropLast =
      leaf_count buf + leaf_count unfed.dropLast := by
  obtain ⟨fed, h1, h2, -⟩ := plan_feed_spec (C := C) (l := e.late) unfed 0 0 0 buf
  have hdrop : unfed.dropLast = fed ++ (plan_feed C e.late unfed 0 0 0 buf).unfed.dropLast := by
    rw [← dropLast_append_of_ne_nil hne, ← h1]
  rw [h2, hdrop, leaf_count_append, leaf_count_append, Nat.add_assoc]

lemma Free.step (h : Free C S o s) (hlt : C.batch_max_leaves < C.rebuild_batch)
    (hfull : leaf_count (fullPlan S o).dropLast < C.batch_max_leaves) :
    Free C S o (step C S o e s).1 := by
  obtain ⟨t, u, more, skipped, batch, hparts, hrec, hbuf⟩ := step_after C S o e s
  have hle := parts_leaf_le hparts
  have hkeep : Free C S o t → (t.plan = none → t.buf = []) → Free C S o (RebuildStep.step C S o e s).1 := by
    intro ht hnil
    refine ⟨fun hnone => ?_, fun unfed hu => ?_⟩
    · rw [hrec.plan] at hnone
      exact (ht.scanned hnone).of_records hrec (hbuf.trans (parts_nil hparts (hnil hnone)).2)
    · rw [hrec.plan] at hu
      have := ht.room unfed hu
      rw [hbuf]
      omega
  by_cases hp : e.paused
  · have hpull := hparts.pulled
    unfold pull at hpull
    rw [if_pos hp] at hpull
    obtain rfl : s = t := congrArg Prod.fst hpull
    exact hkeep h fun hnone => (h.scanned hnone).buf
  · rw [Bool.not_eq_true] at hp
    have hc := h.cut hfull e.cut
    have hpull := hparts.pulled
    rw [pull_uncut hp] at hpull
    cases pull_timed rfl hc.scanned hpull with
    | still ht h1 h2 =>
      rw [ht] at hkeep
      exact hkeep hc fun hnone => (hc.scanned hnone).buf
    | page hs hm hnone hscan =>
      exact hkeep ⟨fun _ => hscan, fun unfed hu => absurd (hnone.symm.trans hu) (by simp)⟩
        fun _ => hscan.buf
    | feed unfed hp' hroom hs hplan htbuf hmore =>
      dsimp only at hplan htbuf hmore
      have hsum : leaf_count (plan_cut_overdue e.cut s).buf + leaf_count unfed.dropLast <
          C.batch_max_leaves := by
        rcases hs with hs | ⟨hs, rfl⟩
        · exact hc.room unfed hs
        · rw [(hc.scanned hs).buf]
          simp only [leaf_count, countP_nil] at hfull ⊢
          omega
      have hsome : (RebuildStep.step C S o e s).1.plan =
          some (plan_feed C e.late unfed 0 0 0 (plan_cut_overdue e.cut s).buf).unfed :=
            hrec.plan.trans hplan
      refine ⟨fun hnone => absurd (hsome.symm.trans hnone) (by simp), fun unfed' hu' => ?_⟩
      cases hsome.symm.trans hu'
      rw [hbuf]
      by_cases hne : (plan_feed C e.late unfed 0 0 0 (plan_cut_overdue e.cut s).buf).unfed = []
      · -- the last record is fed: all leaves are folded in this step
        obtain ⟨fed, h1, h2, -⟩ :=
          plan_feed_spec (C := C) (l := e.late) unfed 0 0 0 (plan_cut_overdue e.cut s).buf
        rw [hne, append_nil] at h1
        have hall : leaf_count u.buf = 0 := by
          refine parts_all hparts hp (by simp [hmore, hne]) ?_
          have := leaf_count_dropLast unfed
          rw [htbuf, h2, leaf_count_append, ← h1]
          omega
        have hpos := C.positive.2.1
        rw [hall, hne]
        simpa [leaf_count] using hpos
      · have hroom' := feed_room (C := C) (e := e) hne
        rw [htbuf] at hle
        omega

end Free

/-! ### Runs -/

section Runs
variable {κ : Type} [LinearOrder κ] {C : Config} {S : Source κ} {o : Cursor κ} {s t u : Worker κ} {e : Env}

def Fair (env : ℕ → Env) : Prop :=
  ∀ (n : ℕ) (now : ℤ), ∃ m ≥ n, (env m).paused = false ∧ now ≤ (env m).force_ms

def Timely (env : ℕ → Env) : Prop :=
  ∀ n, (env n).cut = false ∧ (env n).flush = false ∧ (env n).force = false

omit [LinearOrder κ] in
lemma commit_spec (s : Worker κ) : (commit_rebuild C s).dirty = s.dirty ∧
    (commit_rebuild C s).rebuild_saved = s.rebuild_saved ∧
    ((commit_rebuild C s).ended = s.ended ∨ s.rebuild_saved = true ∧
      (commit_rebuild C s).ended = some .committed ∨
      s.rebuild_saved = false ∧ (commit_rebuild C s).ended = some .emptied) := by
  unfold commit_rebuild
  split_ifs with h1 h2
  · exact ⟨rfl, rfl, .inr (.inl ⟨h1, rfl⟩)⟩
  · exact ⟨rfl, rfl, .inl rfl⟩
  · exact ⟨rfl, rfl, .inr (.inr ⟨by simpa using h1, rfl⟩)⟩

lemma step_still (hs : s.ended = none) (hrank : rank C S o s ≤ rank C S o (step C S o e s).1)
    (hd : (step C S o e s).1.dirty = true) :
    s.dirty = true ∧ (step C S o e s).1.last_save_ms = s.last_save_ms := by
  obtain ⟨t, u, more, skipped, batch, h, hstep⟩ := step_parts C S o e s
  obtain ⟨hend, hconf, hlast⟩ := h.kept
  obtain ⟨hload, -⟩ := h.load_le
  have hside := h.beside
  have hu := rank_le_of_load (C := C) hload hend hconf
  rw [hstep] at hrank hd ⊢
  dsimp only at hrank hd ⊢
  generalize idles more skipped batch = idle at hrank hd ⊢
  generalize hat : ((!more && !e.paused) && decide (leaf_count u.buf = 0)) = at_head at hrank hd ⊢
  have hp1 := (publish_rank (C := C) (S := S) (o := o) (e := e) idle at_head (decide (batch ≠ []))
      (hend.trans hs)).1
  have hb : batch = [] := by
    by_contra hne
    have hfolded := fold_batch_lt (S := S) (o := o) (e := e) h.front hne
    rw [← h.folded] at hfolded
    have hpulled := (pull_load (C := C) (S := S) (o := o) e s).1
    rw [h.pulled] at hpulled
    have := rank_lt_of_load (C := C) (hfolded.trans_le ((drop_skips_load t).trans hpulled)) hend hconf
    omega
  have hud : u.dirty = s.dirty := by
    rcases (parts_fold h).2 with ⟨-, hd', -⟩ | ⟨hne, -⟩
    · exact hd'.trans hside.dirty
    · exact absurd hb hne
  have hafter : publish C e idle at_head (decide (batch ≠ [])) u = afterSave C e idle at_head u ∧
      (afterSave C e idle at_head u).dirty = true := by
    rw [publish_eq] at hd ⊢
    by_cases hcommit : (afterSave C e idle at_head u).dirty = false ∧
        ((at_head ∧ ((afterSave C e idle at_head u).rebuild_saved ∨ decide (batch ≠ []) = false)) ∨
          (e.force ∧ (afterSave C e idle at_head u).rebuild_saved))
    · rw [if_pos hcommit, (commit_spec _).1, hcommit.1] at hd
      cases hd
    · rw [if_neg hcommit] at hd ⊢
      exact ⟨rfl, hd⟩
  rw [hafter.1] at hrank ⊢
  rcases afterSave_cases C e idle at_head u with ⟨hdu, h'⟩ | h' | ⟨hdu, h'⟩
  · rw [h'] at hafter
    cases hafter.2
  · rw [h'] at hafter ⊢
    exact ⟨hud ▸ hafter.2, hlast⟩
  · rw [h', (persist_records u).2.2.1, hdu] at hafter
    cases hafter.2

variable {env : ℕ → Env} {s₀ : Worker κ}

lemma run_succ {n : ℕ} (h : (run C S o env s₀ n).ended = none) :
    run C S o env s₀ (n + 1) = (step C S o (env n) (run C S o env s₀ n)).1 := if_pos h

lemma run_invariant {P : Worker κ → Prop} (h0 : P s₀)
    (hstep : ∀ n s, P s → s.ended = none → P (step C S o (env n) s).1)
    (n : ℕ) : P (run C S o env s₀ n) := by
  induction n with
  | zero => exact h0
  | succ n ih =>
    by_cases h : (run C S o env s₀ n).ended = none
    · rw [run_succ h]
      exact hstep n _ ih h
    · have : run C S o env s₀ (n + 1) = run C S o env s₀ n := if_neg h
      rwa [this]

lemma run_still {n m : ℕ} (hnm : n ≤ m) (hend : ∀ k, (run C S o env s₀ k).ended = none)
    (hrank : ∀ k, rank C S o (run C S o env s₀ n) ≤ rank C S o (run C S o env s₀ k))
    (hd : (run C S o env s₀ m).dirty = true) : (run C S o env s₀ n).dirty = true ∧
      (run C S o env s₀ m).last_save_ms = (run C S o env s₀ n).last_save_ms := by
  have hle : ∀ k, n ≤ k → rank C S o (run C S o env s₀ k) ≤ rank C S o (run C S o env s₀ n) := by
    intro k hk
    induction k, hk using Nat.le_induction with
    | base => exact le_rfl
    | succ k hk ih =>
      rw [run_succ (hend k)]
      exact (step_rank (hend k)).1.trans ih
  induction m, hnm using Nat.le_induction with
  | base => exact ⟨hd, rfl⟩
  | succ m hm ih =>
    have hsame : rank C S o (run C S o env s₀ m) ≤
        rank C S o (step C S o (env m) (run C S o env s₀ m)).1 := by
      have := hrank (m + 1)
      rw [run_succ (hend m)] at this
      exact (hle m hm).trans this
    rw [run_succ (hend m)] at hd
    obtain ⟨h1, h2⟩ := step_still (hend m) hsame hd
    obtain ⟨h3, h4⟩ := ih h1
    rw [run_succ (hend m)]
    exact ⟨h3, h2.trans h4⟩

theorem run_ends (hfair : Fair env) (hfree : ∀ n, ¬Blocked C (run C S o env s₀ n)) :
    ∃ n, (run C S o env s₀ n).ended ≠ none := by
  refine eventually_of_rank (r := fun n => rank C S o (run C S o env s₀ n)) fun n _ => ?_
  by_contra hno
  push Not at hno
  have hend := fun k => (hno k).1
  obtain ⟨m, hm, hp, hnow⟩ := hfair n
    (((run C S o env s₀ n).last_save_ms.getD 0) + ⌈C.min_save_interval_s * 1000⌉)
  have hready : (run C S o env s₀ m).dirty = true → Ready C (run C S o env s₀ m) (env m).force_ms := by
    intro hd last hlast
    rw [(run_still hm hend (fun k => (hno k).2) hd).2] at hlast
    rw [Option.mem_def.mp hlast, Option.getD_some] at hnow
    have hceil := Int.le_ceil (C.min_save_interval_s * 1000)
    have hcast : (⌈C.min_save_interval_s * 1000⌉ : ℚ) ≤ (((env m).force_ms - last : ℤ) : ℚ) := by
      exact_mod_cast (by omega)
    exact hceil.trans hcast
  have hstep := (step_rank (S := S) (o := o) (hend m)).2 (hfree m) (.inr ⟨hp, hready⟩)
  have hle : rank C S o (run C S o env s₀ m) ≤ rank C S o (run C S o env s₀ n) := by
    clear hready hstep hnow hp
    induction m, hm using Nat.le_induction with
    | base => exact le_rfl
    | succ k hk ih =>
      rw [run_succ (hend k)]
      exact (step_rank (hend k)).1.trans ih
  have := (hno (m + 1)).2
  rw [run_succ (hend m)] at this
  omega

end Runs

/-! ### Runs that do not become overdue -/

section Timely
variable {κ : Type} [LinearOrder κ] {C : Config} {S : Source κ} {o : Cursor κ} {s t u : Worker κ} {e : Env}
  {more : Bool} {skipped : ℕ} {batch : List (Node κ)}

lemma saved_of_parts (h : Parts C S o e s t u more skipped batch) : u.rebuild_saved = s.rebuild_saved := by
  rw [h.folded]
  unfold fold_batch
  by_cases hb : batch = []
  · rw [if_pos hb]
    exact h.beside.saved
  · rw [if_neg hb]
    exact h.beside.saved

structure Fruitful (S : Source κ) (o : Cursor κ) (s : Worker κ) : Prop where
  scanned : s.plan = none → Scanned S o s
  fruit : s.rebuild_saved = true ∨ s.dirty = true ∨ (s.plan = none ∧ 0 < leaf_count (fullPlan S o)) ∨
    ∃ unfed, s.plan = some unfed ∧ 0 < leaf_count s.buf + leaf_count unfed
  ended : s.ended ≠ some .emptied

omit [LinearOrder κ] in
lemma feed_leaves (unfed buf : List (Node κ)) : leaf_count (plan_feed C e.late unfed 0 0 0 buf).buf +
    leaf_count (plan_feed C e.late unfed 0 0 0 buf).unfed = leaf_count buf + leaf_count unfed := by
  obtain ⟨fed, h1, h2, -⟩ := plan_feed_spec (C := C) (l := e.late) unfed 0 0 0 buf
  have hsum : leaf_count unfed =
      leaf_count fed + leaf_count (plan_feed C e.late unfed 0 0 0 buf).unfed := by
    rw [← leaf_count_append, ← h1]
  rw [h2, leaf_count_append, hsum, Nat.add_assoc]

lemma Fruitful.folded (h : Fruitful S o s) (hpull : Timed C S o e s t more)
    (hparts : Parts C S o e s t u more skipped batch) : u.rebuild_saved = true ∨ u.dirty = true ∨
      (u.plan = none ∧ 0 < leaf_count (fullPlan S o)) ∨ ∃ unfed, u.plan = some unfed ∧
      0 < leaf_count u.buf + leaf_count unfed := by
  have hsaved := saved_of_parts hparts
  obtain ⟨hrec, hfold⟩ := parts_fold hparts
  rcases hfold with ⟨-, hd, hbuf⟩ | ⟨-, hd, -⟩
  · have hcount : leaf_count u.buf = leaf_count t.buf := by rw [hbuf, leaf_count_release]
    rw [hsaved, hd, hrec.plan, hcount, hparts.beside.dirty]
    rcases h.fruit with hf | hf | hf
    · exact .inl hf
    · exact .inr (.inl hf)
    · refine .inr (.inr ?_)
      cases hpull with
      | still ht h1 h2 =>
        rw [ht]
        exact hf
      | page hs hm hnone hscan =>
        rcases hf with ⟨-, hf⟩ | ⟨unfed, hu, -⟩
        · exact .inl ⟨hnone, hf⟩
        · rw [hs] at hu
          cases hu
      | feed unfed hp hroom hs hplan htbuf hmore =>
        refine .inr ⟨_, hplan, ?_⟩
        rw [htbuf, feed_leaves]
        rcases hf with ⟨hnone, hf⟩ | ⟨unfed', hu, hf⟩
        · rcases hs with hs | ⟨-, rfl⟩
          · rw [hnone] at hs
            cases hs
          · omega
        · rcases hs with hs | ⟨hs, -⟩
          · cases hu.symm.trans hs
            exact hf
          · rw [hs] at hu
            cases hu
  · exact .inr (.inl hd)

lemma scanned_step (hpull : Timed C S o e s t more) (hscan : s.plan = none → Scanned S o s)
    (hparts : Parts C S o e s t u more skipped batch) (hrec : Records t s') (hbuf : s'.buf = u.buf) :
    s'.plan = none → Scanned S o s' := by
  intro hnone
  rw [hrec.plan] at hnone
  have ht : Scanned S o t := by
    cases hpull with
    | still ht => exact ht ▸ hscan (ht ▸ hnone)
    | page hs hm hnone' hscan' => exact hscan'
    | feed unfed hp hroom hs hplan =>
      rw [hplan] at hnone
      cases hnone
  exact ht.of_records hrec (hbuf.trans (parts_nil hparts ht.buf).2)

lemma Fruitful.step (h : Fruitful S o s) (hcut : e.cut = false) (hforce : e.force = false)
    (hs : s.ended = none) :
    Fruitful S o (step C S o e s).1 := by
  obtain ⟨t, u, more, skipped, batch, hparts, hstep⟩ := step_parts C S o e s
  have hpull := pull_timed hcut h.scanned hparts.pulled
  have hfruit := h.folded hpull hparts
  have hfolded := (parts_fold hparts).1
  rw [hstep]
  dsimp only
  generalize idles more skipped batch = idle
  generalize hat : ((!more && !e.paused) && decide (leaf_count u.buf = 0)) = at_head
  obtain ⟨hrec, hbuf⟩ := publish_records (C := C) (e := e) idle at_head (decide (batch ≠ [])) u
  obtain ⟨harec, habuf, haend⟩ := afterSave_records (C := C) (e := e) idle at_head u
  have hafter : (afterSave C e idle at_head u).rebuild_saved = true ∨
      (afterSave C e idle at_head u).dirty = true ∨
      (u.plan = none ∧ 0 < leaf_count (fullPlan S o)) ∨
      ∃ unfed, u.plan = some unfed ∧ 0 < leaf_count u.buf + leaf_count unfed := by
    rcases afterSave_cases C e idle at_head u with ⟨-, ha⟩ | ha | ⟨-, ha⟩
    · rw [ha]
      exact .inl rfl
    · rwa [ha]
    · rw [ha, (persist_records u).2.2.1, (persist_records u).2.2.2.1]
      exact hfruit
  have hend : u.ended = none := hparts.kept.1.trans hs
  refine ⟨?_, ?_, ?_⟩
  · refine scanned_step hpull h.scanned hparts ⟨hrec.plan.trans hfolded.plan, hrec.scan.trans hfolded.scan,
      hrec.recs.trans hfolded.recs⟩ hbuf
  · rw [hrec.plan, hbuf, publish_eq]
    split_ifs
    · rw [(commit_spec _).1, (commit_spec _).2.1]
      exact hafter
    · exact hafter
  · rw [publish_eq]
    split_ifs with hcommit
    · rcases (commit_spec (C := C) (afterSave C e idle at_head u)).2.2 with h1 | ⟨-, h1⟩ | ⟨hns, h1⟩
      · rw [h1, haend, hend]
        decide
      · rw [h1]
        decide
      · -- nothing saved or unsaved: at the head everything is fed and folded
        exfalso
        obtain ⟨hd, ⟨hhead, -⟩ | ⟨hf, -⟩⟩ := hcommit
        · rw [hhead] at hat
          simp only [Bool.and_eq_true, Bool.not_eq_true', decide_eq_true_eq] at hat
          obtain ⟨⟨hm, hp⟩, hzero⟩ := hat
          rw [hns, hd, hzero] at hafter
          cases hpull with
          | still ht h1 h2 =>
            rw [h2 hm] at hp
            cases hp
          | page hs' hm' =>
            rw [hm] at hm'
            cases hm'
          | feed unfed hp' hroom hs' hplan htbuf hmore =>
            have hnil : (plan_feed C e.late unfed 0 0 0 s.buf).unfed = [] := by simpa [hm] using hmore
            have hup : u.plan = some [] := by rw [hfolded.plan, hplan, hnil]
            rw [hup] at hafter
            simp [leaf_count] at hafter
        · rw [hforce] at hf
          cases hf
    · rw [haend, hend]
      decide

lemma parts_wait (h : Parts C S o e s t u more skipped batch) (hflush : e.flush = false)
    (hhead : (!more && !e.paused) = false) (hlt : leaf_count t.buf < C.rebuild_batch) :
    u.buf = release_leading_skips t.buf ∧ u.dirty = s.dirty := by
  have hcount : leaf_count (drop_skips t).buf = leaf_count t.buf := leaf_count_release _
  have hb : batch = [] := by
    rw [h.taken, hhead, hflush]
    unfold take_batch
    rw [hcount]
    split_ifs with h1 h2
    · rfl
    · rfl
    · exact absurd ⟨hlt, rfl, rfl⟩ h2
  rcases (parts_fold h).2 with ⟨-, hd, hbuf⟩ | ⟨hne, -⟩
  · exact ⟨hbuf, hd.trans h.beside.dirty⟩
  · exact absurd hb hne

omit [LinearOrder κ] in
lemma publish_clean (idle at_head folded : Bool) (hd : u.dirty = false) :
    (publish C e idle at_head folded u).dirty = false ∧
    (publish C e idle at_head folded u).rebuild_saved = u.rebuild_saved ∧
    (at_head = false → e.force = false → (publish C e idle at_head folded u).ended = u.ended) ∧
    (u.rebuild_saved = false → u.ended ≠ some .committed →
      (publish C e idle at_head folded u).ended ≠ some .committed) := by
  obtain ⟨-, -, h1, h2, h3⟩ := persist_records (e := e) u
  have hafter : afterSave C e idle at_head u = persist_cursor e u := by
    unfold afterSave
    rw [if_neg (by simp [hd])]
  rw [publish_eq, hafter]
  split_ifs with hcommit
  · obtain ⟨h4, h5, h6⟩ := commit_spec (C := C) (persist_cursor e u)
    refine ⟨h4.trans (h1.trans hd), h5.trans h2, fun hat hforce => ?_, fun hns hend => ?_⟩
    · simp [hat, hforce] at hcommit
    · rcases h6 with h6 | ⟨h6, -⟩ | ⟨-, h6⟩
      · rwa [h6, h3]
      · rw [h2, hns] at h6
        cases h6
      · rw [h6]
        decide
  · exact ⟨h1.trans hd, h2, fun _ _ => h3, fun _ hend => by rwa [h3]⟩

structure Stuck (C : Config) (S : Source κ) (o : Cursor κ) (s : Worker κ) : Prop where
  scanned : s.plan = none → Scanned S o s
  unsaved : s.dirty = false
  ended : s.ended = none
  unfed : ∀ unfed, s.plan = some unfed → unfed ≠ [] ∧ leaf_count s.buf ≤ C.batch_max_leaves ∧
    C.batch_max_leaves ≤ leaf_count s.buf + leaf_count unfed.dropLast

omit [LinearOrder κ] in
lemma feed_full (late : ℕ → Bool) (unfed : List (Node κ)) (need handled skipped : ℕ)
    (buf : List (Node κ)) (hne : unfed ≠ []) (hneed : need + leaf_count buf ≤ batch_max C)
    (hfull : batch_max C ≤ leaf_count buf + leaf_count unfed.dropLast) :
    (plan_feed C late unfed need handled skipped buf).unfed ≠ [] ∧
    leaf_count (plan_feed C late unfed need handled skipped buf).buf ≤ batch_max C := by
  induction unfed generalizing need handled skipped buf with
  | nil => exact absurd rfl hne
  | cons rec rest ih =>
    unfold plan_feed
    simp only
    have hneed' : (if need = 0 then batch_max C - leaf_count buf else need) + leaf_count buf ≤
        batch_max C := by
      split_ifs <;> omega
    generalize (if need = 0 then batch_max C - leaf_count buf else need) = k at hneed'
    generalize (if rec.leaf then skipped else skipped + 1) = skipped'
    by_cases hstop : k = 0 ∨ (0 < handled ∧ late handled)
    · rw [if_pos hstop]
      exact ⟨by simp, show leaf_count buf ≤ batch_max C by omega⟩
    · rw [if_neg hstop]
      rw [not_or] at hstop
      by_cases hrest : rest = []
      · rw [hrest] at hfull
        simp only [dropLast_singleton, leaf_count, countP_nil] at hfull hneed'
        omega
      · have hone : leaf_count (buf ++ [rec]) ≤ leaf_count buf + 1 := by
          rw [leaf_count_append]
          have := countP_le_length (p := Node.leaf) (l := [rec])
          simp only [length_singleton] at this
          unfold leaf_count
          omega
        refine ih _ _ _ _ hrest (by omega) ?_
        rw [dropLast_cons_of_ne_nil hrest, ← singleton_append, leaf_count_append] at hfull
        rw [leaf_count_append]
        omega

lemma Stuck.step (h : Stuck C S o s) (hcut : e.cut = false) (hflush : e.flush = false)
    (hforce : e.force = false) (hlt : C.batch_max_leaves < C.rebuild_batch)
    (hfull : C.batch_max_leaves ≤ leaf_count (fullPlan S o).dropLast) :
    Stuck C S o (step C S o e s).1 := by
  obtain ⟨t, u, more, skipped, batch, hparts, hstep⟩ := step_parts C S o e s
  have hpull := pull_timed hcut h.scanned hparts.pulled
  have hmax := batch_max_small hlt
  have hpos := C.positive.2.1
  have hfacts : (!more && !e.paused) = false ∧ leaf_count t.buf ≤ C.batch_max_leaves ∧
      ∀ unfed, t.plan = some unfed → unfed ≠ [] ∧
        C.batch_max_leaves ≤ leaf_count t.buf + leaf_count unfed.dropLast := by
    cases hpull with
    | still ht h1 h2 =>
      rw [ht]
      refine ⟨?_, ?_, fun unfed hu => ⟨(h.unfed unfed hu).1, (h.unfed unfed hu).2.2⟩⟩
      · cases hm : more with
        | true => rfl
        | false => simp [h2 hm]
      · cases hplan : s.plan with
        | none => simp [(h.scanned hplan).buf, leaf_count]
        | some unfed => exact (h.unfed unfed hplan).2.1
    | page hs hm hnone hscan =>
      refine ⟨by simp [hm], by simp [hscan.buf, leaf_count], fun unfed hu => ?_⟩
      rw [hnone] at hu
      cases hu
    | feed unfed hp hroom hs hplan htbuf hmore =>
      obtain ⟨hne, hle, hge⟩ : unfed ≠ [] ∧ leaf_count s.buf ≤ C.batch_max_leaves ∧
          C.batch_max_leaves ≤ leaf_count s.buf + leaf_count unfed.dropLast := by
        rcases hs with hs | ⟨hs, rfl⟩
        · exact h.unfed unfed hs
        · rw [(h.scanned hs).buf]
          refine ⟨?_, by simp [leaf_count], by simpa [leaf_count] using hfull⟩
          rintro hnil
          rw [hnil] at hfull
          simp only [dropLast_nil, leaf_count, countP_nil] at hfull
          omega
      obtain ⟨hf1, hf2⟩ := feed_full (C := C) e.late unfed 0 0 0 s.buf hne (by omega) (by omega)
      refine ⟨by simp [hmore, hf1], by rw [htbuf]; omega, fun unfed' hu => ?_⟩
      cases hplan.symm.trans hu
      refine ⟨hf1, ?_⟩
      rw [htbuf, feed_room hf1]
      exact hge
  obtain ⟨hhead, hle, hunfed⟩ := hfacts
  obtain ⟨hubuf, hud⟩ := parts_wait hparts hflush hhead (by omega)
  have hfolded := (parts_fold hparts).1
  rw [hstep, hhead]
  dsimp only
  generalize idles more skipped batch = idle
  obtain ⟨hrec, hbuf⟩ :=
    publish_records (C := C) (e := e) idle (false && decide (leaf_count u.buf = 0)) (decide (batch ≠ [])) u
  obtain ⟨h1, -, h3, -⟩ :=
    publish_clean (C := C) (e := e) idle (false && decide (leaf_count u.buf = 0))
      (decide (batch ≠ [])) (hud.trans h.unsaved)
  refine ⟨?_, h1, (h3 rfl hforce).trans (hparts.kept.1.trans h.ended), fun unfed hu => ?_⟩
  · exact scanned_step hpull h.scanned hparts ⟨hrec.plan.trans hfolded.plan, hrec.scan.trans hfolded.scan,
      hrec.recs.trans hfolded.recs⟩ hbuf
  · rw [hrec.plan, hfolded.plan] at hu
    rw [hbuf, hubuf, leaf_count_release]
    exact ⟨(hunfed unfed hu).1, hle, (hunfed unfed hu).2⟩

structure Barren (S : Source κ) (o : Cursor κ) (s : Worker κ) : Prop where
  scanned : s.plan = none → Scanned S o s
  unsaved : s.dirty = false
  saved : s.rebuild_saved = false
  leaves : ∀ unfed, s.plan = some unfed → leaf_count s.buf + leaf_count unfed = 0
  ended : s.ended ≠ some .committed

lemma Barren.step (h : Barren S o s) (hcut : e.cut = false) (hno : leaf_count (fullPlan S o) = 0) :
    Barren S o (step C S o e s).1 := by
  obtain ⟨t, u, more, skipped, batch, hparts, hstep⟩ := step_parts C S o e s
  have hpull := pull_timed hcut h.scanned hparts.pulled
  have hfacts : leaf_count t.buf = 0 ∧ ∀ unfed, t.plan = some unfed → leaf_count unfed = 0 := by
    cases hpull with
    | still ht h1 h2 =>
      rw [ht]
      cases hplan : s.plan with
      | none => exact ⟨by simp [(h.scanned hplan).buf, leaf_count], by simp⟩
      | some unfed =>
        have := h.leaves unfed hplan
        refine ⟨by omega, fun unfed' hu => ?_⟩
        cases hu
        omega
    | page hs hm hnone hscan => exact ⟨by simp [hscan.buf, leaf_count], by simp [hnone]⟩
    | feed unfed hp hroom hs hplan htbuf hmore =>
      have hsum : leaf_count s.buf + leaf_count unfed = 0 := by
        rcases hs with hs | ⟨hs, rfl⟩
        · exact h.leaves unfed hs
        · rw [(h.scanned hs).buf, hno]
          rfl
      have := feed_leaves (C := C) (e := e) unfed s.buf
      refine ⟨by rw [htbuf]; omega, fun unfed' hu => ?_⟩
      cases hplan.symm.trans hu
      omega
  obtain ⟨hzero, hunfed⟩ := hfacts
  have hcount : leaf_count (drop_skips t).buf = leaf_count t.buf := leaf_count_release _
  have hfolded := (parts_fold hparts).1
  obtain ⟨hubuf, hud⟩ : u.buf = release_leading_skips t.buf ∧ u.dirty = s.dirty := by
    have hb : batch = [] := by
      rw [hparts.taken]
      unfold take_batch
      rw [if_pos (by omega)]
    rcases (parts_fold hparts).2 with ⟨-, hd, hbuf⟩ | ⟨hne, -⟩
    · exact ⟨hbuf, hd.trans hparts.beside.dirty⟩
    · exact absurd hb hne
  rw [hstep]
  dsimp only
  generalize idles more skipped batch = idle
  generalize ((!more && !e.paused) && decide (leaf_count u.buf = 0)) = at_head
  obtain ⟨hrec, hbuf⟩ := publish_records (C := C) (e := e) idle at_head (decide (batch ≠ [])) u
  have hus := saved_of_parts hparts
  obtain ⟨h1, h2, -, h4⟩ :=
    publish_clean (C := C) (e := e) idle at_head (decide (batch ≠ [])) (hud.trans h.unsaved)
  refine ⟨?_, h1, h2.trans (hus.trans h.saved), fun unfed hu => ?_, h4 (hus.trans h.saved) ?_⟩
  · exact scanned_step hpull h.scanned hparts ⟨hrec.plan.trans hfolded.plan, hrec.scan.trans hfolded.scan,
      hrec.recs.trans hfolded.recs⟩ hbuf
  · rw [hrec.plan, hfolded.plan] at hu
    rw [hbuf, hubuf, leaf_count_release, hunfed unfed hu, hzero]
  · rw [hparts.kept.1]
    exact h.ended

end Timely

/-! ### When a rebuild comes to its commit -/

section Commit
variable {κ : Type} [LinearOrder κ] {C : Config} {S : Source κ} {o : Cursor κ}

/-- A number that every step that works lessens, the end of the rebuild in every run, and `commit_generation` in
every run that does not become overdue. -/
structure Commits (C : Config) (S : Source κ) (o : Cursor κ) (last_save_ms : Option ℤ)
    (resumed : Bool) : Prop where
  measure : ∃ μ : Worker κ → ℕ, ∀ env n, (run C S o env (begun last_save_ms resumed) n).ended = none →
    (step C S o (env n) (run C S o env (begun last_save_ms resumed) n)).2 = .worked →
    μ (run C S o env (begun last_save_ms resumed) (n + 1)) <
      μ (run C S o env (begun last_save_ms resumed) n)
  ends : ∀ env, Fair env → ∃ n, (run C S o env (begun last_save_ms resumed) n).ended ≠ none
  commits : ∀ env, Fair env → Timely env →
    ∃ n, (run C S o env (begun last_save_ms resumed) n).ended = some .committed

lemma begun_scanned (last_save_ms : Option ℤ) (resumed : Bool) :
    Scanned S o (begun last_save_ms resumed) where
  buf := rfl
  recs := ⟨[], rfl, rfl⟩

/-- Steps that are neither paused nor overdue, one millisecond after the other. -/
def plainEnv (n : ℕ) : Env := ⟨false, false, false, false, fun _ => false, n, n, n, n, none⟩

lemma plainEnv_fair : Fair plainEnv := by
  intro n now
  refine ⟨max n now.toNat, le_max_left _ _, rfl, ?_⟩
  change now ≤ ((max n now.toNat : ℕ) : ℤ)
  omega

lemma plainEnv_timely : Timely plainEnv := fun _ => ⟨rfl, rfl, rfl⟩

lemma not_commits_of_blocked (last_save_ms : Option ℤ) (resumed : Bool)
    (hlt : C.batch_max_leaves < C.rebuild_batch)
    (hfull : C.batch_max_leaves ≤ leaf_count (fullPlan S o).dropLast) :
    ¬Commits C S o last_save_ms resumed := by
  intro h
  obtain ⟨n, hn⟩ := h.ends plainEnv plainEnv_fair
  have hbegun : Stuck C S o (begun last_save_ms resumed) :=
    ⟨fun _ => begun_scanned _ _, rfl, rfl, fun unfed hu => (nomatch hu)⟩
  exact hn (run_invariant hbegun (fun k s hs _ => hs.step rfl rfl rfl hlt hfull) n).ended

lemma not_commits_of_barren (last_save_ms : Option ℤ) (hno : leaf_count (fullPlan S o) = 0) :
    ¬Commits C S o last_save_ms false := by
  intro h
  obtain ⟨n, hn⟩ := h.commits plainEnv plainEnv_fair plainEnv_timely
  have hbegun : Barren S o (begun last_save_ms false) :=
    ⟨fun _ => begun_scanned _ _, rfl, rfl, fun unfed hu => (nomatch hu), by simp [begun]⟩
  exact (run_invariant hbegun (fun k s hs _ => hs.step rfl hno) n).ended hn

lemma run_free (last_save_ms : Option ℤ) (resumed : Bool)
    (h : C.rebuild_batch ≤ C.batch_max_leaves ∨
      leaf_count (fullPlan S o).dropLast < C.batch_max_leaves) (env : ℕ → Env)
    (n : ℕ) : ¬Blocked C (run C S o env (begun last_save_ms resumed) n) := by
  by_cases hle : C.rebuild_batch ≤ C.batch_max_leaves
  · rintro ⟨h1, h2⟩
    have hmax : batch_max C = C.rebuild_batch := Nat.min_eq_right hle
    omega
  · have hfull := h.resolve_left hle
    rw [not_le] at hle
    have hbegun : Free C S o (begun last_save_ms resumed) :=
      ⟨fun _ => begun_scanned _ _, fun unfed hu => (nomatch hu)⟩
    exact (run_invariant hbegun (fun k s hs _ => hs.step hle hfull) n).not_blocked hle

/-- A rebuild always comes to its commit exactly when there is something to commit and the buffer cannot be full
for the feed before it is full for the fold. -/
theorem commits_iff (C : Config) (S : Source κ) (o : Cursor κ) (last_save_ms : Option ℤ) (resumed : Bool) :
    Commits C S o last_save_ms resumed ↔ (resumed = true ∨ ∃ n ∈ fullPlan S o, n.leaf = true) ∧
      (C.rebuild_batch ≤ C.batch_max_leaves ∨ leaf_count (fullPlan S o).dropLast < C.batch_max_leaves) := by
  constructor
  · intro h
    constructor
    · by_contra hno
      rw [not_or, Bool.not_eq_true] at hno
      obtain ⟨rfl, hno⟩ := hno
      refine not_commits_of_barren last_save_ms (countP_eq_zero.mpr fun n hn hleaf => ?_) h
      exact hno ⟨n, hn, hleaf⟩
    · by_contra hno
      rw [not_or, not_le, not_lt] at hno
      exact not_commits_of_blocked last_save_ms resumed hno.1 hno.2 h
  · rintro ⟨hsome, hroom⟩
    have hfree := run_free (C := C) (S := S) (o := o) last_save_ms resumed hroom
    have hends : ∀ env, Fair env → ∃ n, (run C S o env (begun last_save_ms resumed) n).ended ≠ none :=
      fun env hfair => run_ends hfair (hfree env)
    refine ⟨⟨rank C S o, fun env n hend hworked => ?_⟩, hends, fun env hfair htimely => ?_⟩
    · rw [run_succ hend]
      exact (step_rank hend).2 (hfree env n) (.inl hworked)
    · obtain ⟨n, hn⟩ := hends env hfair
      have hbegun : Fruitful S o (begun last_save_ms resumed) := by
        refine ⟨fun _ => begun_scanned _ _, ?_, by simp [begun]⟩
        rcases hsome with hr | ⟨x, hx, hleaf⟩
        · exact .inl hr
        · exact .inr (.inr (.inl ⟨rfl, countP_pos_iff.mpr ⟨x, hx, hleaf⟩⟩))
      have hnot := (run_invariant (C := C) hbegun
          (fun k s hs hend => hs.step (htimely k).1 (htimely k).2.2 hend) n).ended
      refine ⟨n, ?_⟩
      cases he : (run C S o env (begun last_save_ms resumed) n).ended with
      | none => exact absurd he hn
      | some ending =>
        cases ending with
        | committed => rfl
        | emptied => exact absurd he hnot

def twoLeaves : Source ℕ where
  nodes := [⟨0, 1, 1, true⟩, ⟨1, 2, 2, true⟩]
  sorted := by decide
  keys := by decide

def smallBatches : Config where
  batch_size := 200
  batch_max_leaves := 1
  rebuild_batch := 2
  positive := by decide
  min_save_interval_s := 5
  save_every_leaves := 50
  save_every_s := 30
  save_when_idle := true
  empty_rebuild_confirmations := 2

/-- Such a rebuild works on for ever. -/
theorem small_batches_stuck : ¬Commits smallBatches twoLeaves (toLex (0, 0)) none false :=
  not_commits_of_blocked none false (by decide) (by decide)

end Commit

end CloudServer.RebuildCommits
