import CloudServer.Dict

/-! One rebuild of a scene worker: the plan is scanned, sorted and fed into the buffer, the buffer is folded in
fixed batches, what is folded is saved, and the pending generation is committed. No call fails here, every PNG is
there and no node arrives. -/
namespace CloudServer.RebuildStep

open List

section Model
variable {κ : Type} [LinearOrder κ]

/-- A node: the stamp `_plan_stamp` gives it and whether `_adapt` makes a leaf of it or skips it for good. -/
structure Node (κ : Type) where
  key : κ
  stored_ms : ℤ
  stamp : ℤ
  leaf : Bool

abbrev Cursor (κ : Type) := ℤ ×ₗ κ

def order (n : Node κ) : Cursor κ := toLex (n.stored_ms, n.key)

structure Source (κ : Type) [LinearOrder κ] where
  nodes : List (Node κ)
  sorted : nodes.Pairwise fun a b => order a < order b
  keys : (nodes.map Node.key).Nodup

def Source.costmap_nodes_since (src : Source κ) (since : Cursor κ) (limit : ℕ) : List (Node κ) :=
  (src.nodes.filter fun n => since < order n).take limit

structure Config where
  batch_size : ℕ
  batch_max_leaves : ℕ
  rebuild_batch : ℕ
  positive : 0 < batch_size ∧ 0 < batch_max_leaves ∧ 0 < rebuild_batch
  min_save_interval_s : ℚ
  save_every_leaves : ℕ
  save_every_s : ℚ
  save_when_idle : Bool
  empty_rebuild_confirmations : ℕ

/-- How a rebuild ends: by `commit_generation`, or as an empty one. -/
inductive Ending where
  | committed | emptied
  deriving DecidableEq

/-- The worker during a rebuild; `plan` holds the sorted records that are not fed yet. -/
structure Worker (κ : Type) where
  scan : Option (Cursor κ)
  plan_recs : Dict κ (Node κ)
  plan : Option (List (Node κ))
  buf : List (Node κ)
  dirty : Bool
  unsaved_leaves : ℕ
  last_save_ms : Option ℤ
  oldest_unsaved_ms : Option ℤ
  rebuild_saved : Bool
  empty_confirms : ℕ
  ended : Option Ending

/-- What a step meets: the memory guard, the answers of `_rebuild_overdue` and of the step budget (before the
record of that number), the times it reads, and the time of a save that only moves the cursor, if one is made. -/
structure Env where
  paused : Bool
  cut : Bool
  flush : Bool
  force : Bool
  late : ℕ → Bool
  fold_ms : ℤ
  due_ms : ℤ
  force_ms : ℤ
  save_ms : ℤ
  persist_ms : Option ℤ

inductive StepState where
  | worked | idle
  deriving DecidableEq

variable (cfg : Config) (src : Source κ) (start : Cursor κ)

def batch_max : ℕ := min cfg.batch_max_leaves cfg.rebuild_batch

def leaf_count (buf : List (Node κ)) : ℕ := buf.countP Node.leaf

/-- A record of the scan, unless the key is there with this layer or a newer one. -/
def keep (recs : Dict κ (Node κ)) (node : Node κ) : Dict κ (Node κ) :=
  match recs.get node.key with
  | some r => if r.stored_ms ≥ node.stored_ms then recs else recs.set node.key node
  | none => recs.set node.key node

def canonical (a b : Node κ) : Prop := toLex (a.stamp, a.key) ≤ toLex (b.stamp, b.key)

instance (a b : Node κ) : Decidable (canonical a b) :=
  inferInstanceAs (Decidable (toLex (a.stamp, a.key) ≤ toLex (b.stamp, b.key)))

def plan_seal (s : Worker κ) : Worker κ :=
  { s with plan := some ((s.plan_recs.items.map Prod.snd).insertionSort canonical), plan_recs := Dict.empty, scan := none }

def plan_scan (s : Worker κ) : Worker κ :=
  let nodes := src.costmap_nodes_since (s.scan.getD start) cfg.batch_size
  let recs := nodes.foldl keep s.plan_recs
  if nodes.length < cfg.batch_size then plan_seal { s with plan_recs := recs }
  else { s with plan_recs := recs, scan := nodes.getLast?.map order }

def plan_cut_overdue (overdue : Bool) (s : Worker κ) : Worker κ :=
  if overdue then
    match s.plan with
    | none => if s.scan.isSome then plan_seal s else s
    | some unfed => if s.rebuild_saved ∧ unfed ≠ [] then { s with plan := some [] } else s
  else s

structure Fed (κ : Type) where
  unfed : List (Node κ)
  buf : List (Node κ)
  skipped : ℕ

/-- The records in plan order into the buffer; `need` more are read before the buffer is looked at again, and
`handled` have been fed in this step. -/
def plan_feed (late : ℕ → Bool) : List (Node κ) → ℕ → ℕ → ℕ → List (Node κ) → Fed κ
  | [], _, _, skipped, buf => ⟨[], buf, skipped⟩
  | rec :: rest, need, handled, skipped, buf =>
    let need := if need = 0 then batch_max cfg - leaf_count buf else need
    if need = 0 ∨ (0 < handled ∧ late handled) then ⟨rec :: rest, buf, skipped⟩
    else plan_feed late rest (need - 1) (handled + 1) (if rec.leaf then skipped else skipped + 1) (buf ++ [rec])

/-- The worker after the pull, whether more is to come, and the number of new skips. -/
def pull (e : Env) (s : Worker κ) : Worker κ × Bool × ℕ :=
  if e.paused then (s, false, 0)
  else
    let s := plan_cut_overdue e.cut s
    if batch_max cfg ≤ leaf_count s.buf then (s, true, 0)
    else
      let s := if s.plan.isNone then plan_scan cfg src start s else s
      match s.plan with
      | none => (s, true, 0)
      | some unfed =>
        let fed := plan_feed cfg e.late unfed 0 0 0 s.buf
        ({ s with plan := some fed.unfed, buf := fed.buf }, decide (fed.unfed ≠ []), fed.skipped)

def release_leading_skips (buf : List (Node κ)) : List (Node κ) := buf.dropWhile fun n => !n.leaf

def drop_skips (s : Worker κ) : Worker κ := { s with buf := release_leading_skips s.buf }

/-- The first entries up to the `take`-th leaf. -/
def upTo : ℕ → List (Node κ) → List (Node κ)
  | _, [] => []
  | take, n :: buf => n :: if n.leaf then if take ≤ 1 then [] else upTo (take - 1) buf else upTo take buf

def take_batch (buf : List (Node κ)) (head overdue : Bool) : List (Node κ) :=
  if leaf_count buf = 0 then []
  else if leaf_count buf < cfg.rebuild_batch ∧ head = false ∧ overdue = false then []
  else upTo (max 1 cfg.rebuild_batch) buf

def fold_batch (e : Env) (batch : List (Node κ)) (s : Worker κ) : Worker κ :=
  if batch = [] then s
  else { s with
    buf := release_leading_skips (s.buf.drop batch.length)
    dirty := true
    unsaved_leaves := s.unsaved_leaves + leaf_count batch
    oldest_unsaved_ms := if s.oldest_unsaved_ms = none ∧ 0 < leaf_count batch then some e.fold_ms
      else s.oldest_unsaved_ms }

def due (s : Worker κ) (now : ℤ) (idle force : Bool) : Bool :=
  if s.last_save_ms.any fun last => ((now - last : ℤ) : ℚ) < cfg.min_save_interval_s * 1000 then false
  else force ∨ cfg.save_every_leaves ≤ s.unsaved_leaves ∨
    (s.oldest_unsaved_ms.any fun oldest => cfg.save_every_s * 1000 ≤ ((now - oldest : ℤ) : ℚ)) ∨
    (idle ∧ cfg.save_when_idle ∧ 0 < s.unsaved_leaves)

def save (e : Env) (s : Worker κ) : Worker κ :=
  { s with dirty := false, last_save_ms := some e.save_ms, oldest_unsaved_ms := none, unsaved_leaves := 0, rebuild_saved := true }

/-- A save that only moves the cursor of a pending generation that holds something. -/
def persist_cursor (e : Env) (s : Worker κ) : Worker κ :=
  if s.rebuild_saved then { s with last_save_ms := e.persist_ms.or s.last_save_ms } else s

def commit_rebuild (s : Worker κ) : Worker κ :=
  if s.rebuild_saved then { s with empty_confirms := 0, ended := some .committed }
  else if s.empty_confirms + 1 < max 1 cfg.empty_rebuild_confirmations then
    { s with empty_confirms := s.empty_confirms + 1 }
  else { s with empty_confirms := 0, ended := some .emptied }

def publish (e : Env) (idle at_head folded : Bool) (s : Worker κ) : Worker κ :=
  let s := if s.dirty then
      if due cfg s e.due_ms idle false ∨
        ((at_head ∨ e.force) ∧ due cfg s e.force_ms false true) then save e s else s
    else persist_cursor e s
  if s.dirty = false ∧ ((at_head ∧ (s.rebuild_saved ∨ folded = false)) ∨ (e.force ∧ s.rebuild_saved)) then
    commit_rebuild cfg s
  else s

def step (e : Env) (s : Worker κ) : Worker κ × StepState :=
  let (s, more, skipped) := pull cfg src start e s
  let s := drop_skips s
  let head := !more && !e.paused
  let batch := take_batch cfg s.buf head e.flush
  let s := fold_batch e batch s
  let idle := decide (more = false ∧ batch = [] ∧ skipped = 0)
  let at_head := head && decide (leaf_count s.buf = 0)
  (publish cfg e idle at_head (decide (batch ≠ [])) s, if idle then .idle else .worked)

def run (env : ℕ → Env) (s : Worker κ) : ℕ → Worker κ
  | 0 => s
  | n + 1 => if (run env s n).ended = none then (step cfg src start (env n) (run env s n)).1 else run env s n

/-- A rebuild that was begun, or resumed on a generation that holds something. -/
def begun (last_save_ms : Option ℤ) (resumed : Bool) : Worker κ :=
  ⟨none, Dict.empty, none, [], false, 0, last_save_ms, none, resumed, 0, none⟩

def fullPlan : List (Node κ) := (src.nodes.filter fun n => start < order n).insertionSort canonical

def unscanned (scan : Option (Cursor κ)) : List (Node κ) := src.nodes.filter fun n => scan.getD start < order n

/-- Twice the nodes to be scanned, with the records and the seal; then the records to be fed. -/
def ahead (s : Worker κ) : ℕ :=
  match s.plan with
  | some unfed => unfed.length
  | none => 2 * (unscanned src start s.scan).length + s.plan_recs.items.length + 1

def load (s : Worker κ) : ℕ := 3 * ahead src start s + 2 * s.buf.length + s.dirty.toNat

def confirmations : ℕ := max 1 cfg.empty_rebuild_confirmations

/-- The measure: what is left to do, the generation to be committed, and the confirmations of an empty rebuild. -/
def rank (s : Worker κ) : ℕ :=
  (confirmations cfg + 1) * (load src start s + s.ended.isNone.toNat) + (confirmations cfg - s.empty_confirms)

def Blocked (s : Worker κ) : Prop := batch_max cfg ≤ leaf_count s.buf ∧ leaf_count s.buf < cfg.rebuild_batch

end Model

/-! ### The scan -/

section Scan
variable {κ : Type} [LinearOrder κ] {C : Config} {S : Source κ} {o : Cursor κ} {s : Worker κ}

lemma set_length (d : Dict κ (Node κ)) (k : κ) (n : Node κ) :
    (d.set k n).items.length ≤ d.items.length + 1 := by
  have hset : ∀ xs : List (κ × Node κ), (Dict.setItem k n xs).length ≤ xs.length + 1 := by
    intro xs
    induction xs with
    | nil => simp [Dict.setItem]
    | cons x xs ih =>
      unfold Dict.setItem
      split_ifs
      · simp
      · simpa using ih
  exact hset d.items

lemma keep_length (recs : Dict κ (Node κ)) (n : Node κ) :
    (keep recs n).items.length ≤ recs.items.length + 1 := by
  unfold keep
  split
  · split_ifs
    · omega
    · exact set_length _ _ _
  · exact set_length _ _ _

lemma keep_all_length (nodes : List (Node κ)) (recs : Dict κ (Node κ)) :
    (nodes.foldl keep recs).items.length ≤ recs.items.length + nodes.length := by
  induction nodes generalizing recs with
  | nil => simp
  | cons n nodes ih =>
    have h1 := ih (keep recs n)
    have h2 := keep_length recs n
    rw [foldl_cons, length_cons]
    omega

lemma filter_past {l page rest : List (Node κ)} {c : Cursor κ} {x : Node κ}
    (hl : l.Pairwise fun a b => order a < order b)
    (hcut : (l.filter fun n => c < order n) = page ++ rest) (hx : x ∈ page.getLast?) :
    (l.filter fun n => order x < order n) = rest := by
  have hsorted : (page ++ rest).Pairwise fun a b => order a < order b := hcut ▸ hl.filter _
  obtain ⟨hp, hr, hpr⟩ := pairwise_append.mp hsorted
  have hxmem : x ∈ page := mem_of_getLast? hx
  have hcx : c < order x := by
    have : x ∈ l.filter fun n => c < order n := hcut ▸ mem_append_left _ hxmem
    simpa using (mem_filter.mp this).2
  have hcollapse : (l.filter fun n => order x < order n) =
      (l.filter fun n => c < order n).filter fun n => order x < order n := by
    rw [filter_filter]
    refine filter_congr fun n _ => ?_
    by_cases h : order x < order n
    · simp [h, hcx.trans h]
    · simp [h]
  have hpage : (page.filter fun n => order x < order n) = [] := by
    rw [filter_eq_nil_iff]
    intro n hn
    have hle : order n ≤ order x := by
      obtain ⟨ys, hys⟩ := List.getLast?_eq_some_iff.mp hx
      rw [hys] at hn hp
      rcases mem_append.mp hn with h | h
      · exact ((pairwise_append.mp hp).2.2 n h x (by simp)).le
      · rw [mem_singleton.mp h]
    simpa using hle
  have hrest : (rest.filter fun n => order x < order n) = rest := by
    rw [filter_eq_self]
    intro n hn
    simpa using hpr x hxmem n hn
  rw [hcollapse, hcut, filter_append, hpage, hrest, nil_append]

lemma plan_seal_ahead (hs : s.plan = none) : ahead S o (plan_seal s) < ahead S o s := by
  unfold ahead plan_seal
  rw [hs]
  simp only [length_insertionSort, length_map]
  omega

lemma unscanned_page {scan : Option (Cursor κ)}
    (hfull : ¬(S.costmap_nodes_since (scan.getD o) C.batch_size).length < C.batch_size) :
    unscanned S o ((S.costmap_nodes_since (scan.getD o) C.batch_size).getLast?.map order) =
      (unscanned S o scan).drop C.batch_size := by
  have hpos := C.positive.1
  have hne : S.costmap_nodes_since (scan.getD o) C.batch_size ≠ [] := ne_nil_of_length_pos (by omega)
  have hx := List.getLast?_eq_some_getLast hne
  unfold unscanned
  rw [hx]
  exact filter_past S.sorted (take_append_drop C.batch_size _).symm hx

lemma plan_scan_ahead (hs : s.plan = none) : ahead S o (plan_scan C S o s) < ahead S o s := by
  have hpage : (S.costmap_nodes_since (s.scan.getD o) C.batch_size).length ≤ (unscanned S o s.scan).length :=
    (List.take_prefix _ _).length_le
  have hsize : (S.costmap_nodes_since (s.scan.getD o) C.batch_size).length ≤ C.batch_size :=
    length_take_le _ _
  have hrecs := keep_all_length (S.costmap_nodes_since (s.scan.getD o) C.batch_size) s.plan_recs
  have hpos := C.positive.1
  unfold plan_scan
  simp only
  split_ifs with hfull
  · unfold ahead plan_seal
    rw [hs]
    simp only [length_insertionSort, length_map]
    omega
  · unfold ahead
    simp only [hs, unscanned_page hfull, length_drop]
    omega

lemma plan_cut_cases (overdue : Bool) (s : Worker κ) : plan_cut_overdue overdue s = s ∨
    (overdue = true ∧ s.plan = none ∧ plan_cut_overdue overdue s = plan_seal s) ∨
    (overdue = true ∧ s.plan.isSome ∧ plan_cut_overdue overdue s = { s with plan := some [] }) := by
  unfold plan_cut_overdue
  by_cases ho : overdue
  · rw [if_pos ho]
    cases hs : s.plan with
    | none =>
      by_cases hscan : s.scan.isSome
      · exact .inr (.inl ⟨ho, rfl, by simp [hscan]⟩)
      · exact .inl (by simp [hscan])
    | some unfed =>
      by_cases hu : s.rebuild_saved ∧ unfed ≠ []
      · exact .inr (.inr ⟨ho, rfl, by simp [hu]⟩)
      · exact .inl (by simp only [if_neg hu])
  · exact .inl (if_neg ho)

lemma plan_cut_ahead (overdue : Bool) (s : Worker κ) :
    ahead S o (plan_cut_overdue overdue s) ≤ ahead S o s := by
  rcases plan_cut_cases overdue s with h | ⟨-, hs, h⟩ | ⟨-, hs, h⟩
  · rw [h]
  · rw [h]
    exact (plan_seal_ahead hs).le
  · rw [h]
    simp [ahead]

end Scan

/-! ### The feed -/

section Feed
variable {κ : Type} {C : Config} {l : ℕ → Bool}

lemma plan_feed_spec (unfed : List (Node κ)) (need handled skipped : ℕ) (buf : List (Node κ)) :
    ∃ fed, unfed = fed ++ (plan_feed C l unfed need handled skipped buf).unfed ∧
      (plan_feed C l unfed need handled skipped buf).buf = buf ++ fed ∧
      (plan_feed C l unfed need handled skipped buf).skipped = skipped + fed.countP fun n => !n.leaf := by
  induction unfed generalizing need handled skipped buf with
  | nil => exact ⟨[], by simp [plan_feed]⟩
  | cons rec rest ih =>
    unfold plan_feed
    simp only
    generalize (if need = 0 then batch_max C - leaf_count buf else need) = need'
    split_ifs with hstop hleaf
    · exact ⟨[], by simp⟩
    · obtain ⟨fed, h1, h2, h3⟩ := ih (need' - 1) (handled + 1) skipped (buf ++ [rec])
      refine ⟨rec :: fed, by rw [cons_append, ← h1], by simp [h2], ?_⟩
      rw [h3, countP_cons]
      simp [hleaf]
    · obtain ⟨fed, h1, h2, h3⟩ := ih (need' - 1) (handled + 1) (skipped + 1) (buf ++ [rec])
      refine ⟨rec :: fed, by rw [cons_append, ← h1], by simp [h2], ?_⟩
      rw [h3, countP_cons]
      simp [hleaf]
      omega

lemma plan_feed_moves {unfed b : List (Node κ)} (hne : unfed ≠ []) (hroom : leaf_count b < batch_max C) :
    (plan_feed C l unfed 0 0 0 b).unfed.length < unfed.length := by
  obtain ⟨rec, rest, rfl⟩ := exists_cons_of_ne_nil hne
  have hfed : ∃ skipped, plan_feed C l (rec :: rest) 0 0 0 b =
      plan_feed C l rest (batch_max C - leaf_count b - 1) 1 skipped (b ++ [rec]) := by
    refine ⟨if rec.leaf then 0 else 0 + 1, ?_⟩
    rw [plan_feed]
    simp only [if_true]
    rw [if_neg (by omega)]
  obtain ⟨skipped, hfed⟩ := hfed
  obtain ⟨fed, h1, -⟩ := plan_feed_spec (C := C) (l := l) rest (batch_max C - leaf_count b - 1) 1 skipped
    (b ++ [rec])
  rw [hfed]
  have := congrArg List.length h1
  rw [length_append] at this
  rw [length_cons]
  omega

end Feed

/-! ### The batch -/

section Batch
variable {κ : Type} {C : Config}

@[simp]
lemma leaf_count_release (buf : List (Node κ)) : leaf_count (release_leading_skips buf) = leaf_count buf := by
  unfold leaf_count release_leading_skips
  induction buf with
  | nil => rfl
  | cons n buf ih =>
    cases hn : n.leaf with
    | true => simp [hn]
    | false => simp [hn, ih]

lemma release_length (buf : List (Node κ)) : (release_leading_skips buf).length ≤ buf.length :=
  (dropWhile_suffix _).length_le

lemma upTo_prefix (take : ℕ) (buf : List (Node κ)) : upTo take buf <+: buf := by
  induction buf generalizing take with
  | nil => simp [upTo]
  | cons n buf ih =>
    unfold upTo
    split_ifs
    · simp
    · exact cons_prefix_cons.mpr ⟨rfl, ih _⟩
    · exact cons_prefix_cons.mpr ⟨rfl, ih _⟩

lemma upTo_all {k : ℕ} {buf : List (Node κ)} (ht : leaf_count buf ≤ k) :
    leaf_count (buf.drop (upTo k buf).length) = 0 := by
  induction buf generalizing k with
  | nil => simp [upTo, leaf_count]
  | cons n buf ih =>
    unfold upTo
    unfold leaf_count at ht ih ⊢
    rw [countP_cons] at ht
    split_ifs at ht ⊢ with h1 h2
    · simp only [length_cons, length_nil, drop_succ_cons, drop_zero]
      omega
    · simpa using ih (k := k - 1) (by omega)
    · simpa using ih (k := k) (by simpa using ht)

lemma take_batch_prefix (buf : List (Node κ)) (head overdue : Bool) :
    take_batch C buf head overdue <+: buf := by
  unfold take_batch
  split_ifs
  · exact nil_prefix
  · exact nil_prefix
  · exact upTo_prefix _ _

lemma take_batch_ne_nil {buf : List (Node κ)} {head overdue : Bool} (hpos : 0 < leaf_count buf)
    (hready : C.rebuild_batch ≤ leaf_count buf ∨ head = true) : take_batch C buf head overdue ≠ [] := by
  unfold take_batch
  rw [if_neg (by omega), if_neg]
  · obtain ⟨n, rest, rfl⟩ := exists_cons_of_ne_nil (l := buf) (by rintro rfl; simp [leaf_count] at hpos)
    simp [upTo]
  · rintro ⟨h1, h2, -⟩
    rcases hready with h | h
    · omega
    · rw [h] at h2
      cases h2

end Batch

/-! ### What a step does to the measure -/

section Step
variable {κ : Type} [LinearOrder κ] {C : Config} {S : Source κ} {o : Cursor κ} {s : Worker κ} {e : Env}

structure Beside (s t : Worker κ) : Prop where
  dirty : t.dirty = s.dirty
  unsaved : t.unsaved_leaves = s.unsaved_leaves
  last_save : t.last_save_ms = s.last_save_ms
  oldest : t.oldest_unsaved_ms = s.oldest_unsaved_ms
  saved : t.rebuild_saved = s.rebuild_saved
  confirms : t.empty_confirms = s.empty_confirms
  ended : t.ended = s.ended

lemma plan_cut_beside (overdue : Bool) (s : Worker κ) :
    Beside s (plan_cut_overdue overdue s) ∧ (plan_cut_overdue overdue s).buf = s.buf := by
  rcases plan_cut_cases overdue s with h | ⟨-, -, h⟩ | ⟨-, -, h⟩ <;>
    rw [h] <;> exact ⟨⟨rfl, rfl, rfl, rfl, rfl, rfl, rfl⟩, rfl⟩

lemma plan_scan_beside (s : Worker κ) :
    Beside s (plan_scan C S o s) ∧ (plan_scan C S o s).buf = s.buf := by
  unfold plan_scan
  simp only
  split_ifs
  · exact ⟨⟨rfl, rfl, rfl, rfl, rfl, rfl, rfl⟩, rfl⟩
  · exact ⟨⟨rfl, rfl, rfl, rfl, rfl, rfl, rfl⟩, rfl⟩

omit [LinearOrder κ] in
lemma Beside.trans {s t u : Worker κ} (h : Beside s t) (h' : Beside t u) : Beside s u where
  dirty := h'.dirty.trans h.dirty
  unsaved := h'.unsaved.trans h.unsaved
  last_save := h'.last_save.trans h.last_save
  oldest := h'.oldest.trans h.oldest
  saved := h'.saved.trans h.saved
  confirms := h'.confirms.trans h.confirms
  ended := h'.ended.trans h.ended

/-- The ways of a pull: none, a full buffer, a page that leaves the scan open, and a feed, maybe after the last page. -/
inductive Pulled (C : Config) (S : Source κ) (o : Cursor κ) (e : Env) (s : Worker κ) :
  Worker κ × Bool × ℕ → Prop
  | paused : e.paused = true → Pulled C S o e s (s, false, 0)
  | full : e.paused = false → batch_max C ≤ leaf_count s.buf →
      Pulled C S o e s (plan_cut_overdue e.cut s, true, 0)
  | page (t : Worker κ) : e.paused = false → leaf_count s.buf < batch_max C →
    (plan_cut_overdue e.cut s).plan = none →
      t = plan_scan C S o (plan_cut_overdue e.cut s) → t.plan = none → Pulled C S o e s (t, true, 0)
  | feed (t : Worker κ) (unfed : List (Node κ)) : e.paused = false → leaf_count s.buf < batch_max C →
      (t = plan_cut_overdue e.cut s ∨ (plan_cut_overdue e.cut s).plan = none ∧
        t = plan_scan C S o (plan_cut_overdue e.cut s)) → t.plan = some unfed →
      Pulled C S o e s ({ t with
        plan := some (plan_feed C e.late unfed 0 0 0 t.buf).unfed
        buf := (plan_feed C e.late unfed 0 0 0 t.buf).buf },
        decide ((plan_feed C e.late unfed 0 0 0 t.buf).unfed ≠ []),
          (plan_feed C e.late unfed 0 0 0 t.buf).skipped)

lemma pull_cases (C : Config) (S : Source κ) (o : Cursor κ) (e : Env) (s : Worker κ) :
    Pulled C S o e s (pull C S o e s) := by
  unfold pull
  by_cases hp : e.paused
  · rw [if_pos hp]
    exact .paused hp
  · rw [if_neg hp]
    rw [Bool.not_eq_true] at hp
    simp only [(plan_cut_beside e.cut s).2]
    by_cases hfull : batch_max C ≤ leaf_count s.buf
    · rw [if_pos hfull]
      exact .full hp hfull
    · rw [if_neg hfull]
      rw [not_le] at hfull
      cases hplan : (plan_cut_overdue e.cut s).plan with
      | none =>
        simp only [Option.isNone_none, if_true]
        split
        · rename_i ht
          exact .page _ hp hfull hplan rfl ht
        · rename_i unfed ht
          exact .feed _ unfed hp hfull (.inr ⟨hplan, rfl⟩) ht
      | some unfed =>
        simp only [Option.isNone_some, Bool.false_eq_true, if_false, hplan]
        exact .feed _ unfed hp hfull (.inl rfl) hplan

lemma pull_beside (e : Env) (s : Worker κ) : Beside s (pull C S o e s).1 := by
  have hcut := (plan_cut_beside e.cut s).1
  have hpull := pull_cases C S o e s
  generalize pull C S o e s = r at hpull ⊢
  cases hpull with
  | paused h => exact ⟨rfl, rfl, rfl, rfl, rfl, rfl, rfl⟩
  | full h1 h2 => exact hcut
  | page t h1 h2 h3 h4 h5 => exact h4 ▸ hcut.trans (plan_scan_beside _).1
  | feed t unfed h1 h2 h3 h4 =>
    have ht : Beside s t := by
      rcases h3 with rfl | ⟨-, rfl⟩
      · exact hcut
      · exact hcut.trans (plan_scan_beside _).1
    exact { ht with }

lemma pull_load (e : Env) (s : Worker κ) : load S o (pull C S o e s).1 ≤ load S o s ∧
    ((pull C S o e s).2.2 ≠ 0 ∨ ((pull C S o e s).2.1 = true ∧ leaf_count s.buf < batch_max C) →
      load S o (pull C S o e s).1 < load S o s) := by
  have hcut := plan_cut_ahead (S := S) (o := o) e.cut s
  obtain ⟨hcutside, hcutbuf⟩ := plan_cut_beside e.cut s
  have hscan := plan_scan_beside (C := C) (S := S) (o := o) (plan_cut_overdue e.cut s)
  have hpull := pull_cases C S o e s
  generalize pull C S o e s = r at hpull ⊢
  cases hpull with
  | paused h => simp
  | full h1 h2 =>
    refine ⟨?_, by simp only [ne_eq, not_true_eq_false, true_and, false_or]; omega⟩
    show load S o (plan_cut_overdue e.cut s) ≤ load S o s
    unfold load
    rw [hcutbuf, hcutside.dirty]
    omega
  | page t h1 h2 h3 h4 h5 =>
    have hpage := plan_scan_ahead (C := C) (S := S) (o := o) h3
    have hlt : load S o t < load S o s := by
      unfold load
      rw [h4, hscan.2, hscan.1.dirty, hcutbuf, hcutside.dirty]
      omega
    exact ⟨hlt.le, fun _ => hlt⟩
  | feed t unfed h1 h2 h3 h4 =>
    obtain ⟨hbuf, hdirty, hahead⟩ : t.buf = s.buf ∧ t.dirty = s.dirty ∧ ahead S o t ≤ ahead S o s := by
      rcases h3 with rfl | ⟨hnone, rfl⟩
      · exact ⟨hcutbuf, hcutside.dirty, hcut⟩
      · exact ⟨hscan.2.trans hcutbuf, hscan.1.dirty.trans hcutside.dirty,
          ((plan_scan_ahead hnone).le).trans hcut⟩
    have hlen : ahead S o t = unfed.length := by
      unfold ahead
      rw [h4]
    obtain ⟨fed, hf1, hf2, hf3⟩ := plan_feed_spec (C := C) (l := e.late) unfed 0 0 0 t.buf
    have hsum := congrArg List.length hf1
    have hload : load S o { t with
        plan := some (plan_feed C e.late unfed 0 0 0 t.buf).unfed
        buf := (plan_feed C e.late unfed 0 0 0 t.buf).buf } +
        fed.length ≤ load S o s := by
      have hunf : ahead S o { t with
          plan := some (plan_feed C e.late unfed 0 0 0 t.buf).unfed
          buf := (plan_feed C e.late unfed 0 0 0 t.buf).buf } =
          (plan_feed C e.late unfed 0 0 0 t.buf).unfed.length := rfl
      unfold load
      rw [hunf, hf2, hdirty, ← hbuf]
      rw [length_append] at hsum ⊢
      omega
    refine ⟨(Nat.le_add_right _ _).trans hload, fun hmoved => ?_⟩
    have hpos : 0 < fed.length := by
      rcases hmoved with hskip | ⟨hmore, -⟩
      · have := countP_le_length (p := fun n : Node κ => !n.leaf) (l := fed)
        replace hskip : (plan_feed C e.late unfed 0 0 0 t.buf).skipped ≠ 0 := hskip
        omega
      · have hne : unfed ≠ [] := by
          rintro rfl
          simp [plan_feed] at hmore
        have := plan_feed_moves (C := C) (l := e.late) (b := t.buf) hne (by rwa [hbuf])
        rw [length_append] at hsum
        omega
    exact (Nat.lt_add_of_pos_right hpos).trans_le hload

lemma fold_batch_lt {batch : List (Node κ)} (hb : batch <+: s.buf) (hne : batch ≠ []) :
    load S o (fold_batch e batch s) < load S o s := by
  have hpos := length_pos_of_ne_nil hne
  have hle := hb.length_le
  have hrel := release_length (s.buf.drop batch.length)
  rw [length_drop] at hrel
  have hahead : ahead S o (fold_batch e batch s) = ahead S o s := by
    unfold fold_batch
    rw [if_neg hne]
    rfl
  unfold load
  rw [hahead]
  unfold fold_batch
  rw [if_neg hne]
  simp only [Bool.toNat_true]
  omega

lemma fold_batch_load {batch : List (Node κ)} (hb : batch <+: s.buf) :
    load S o (fold_batch e batch s) ≤ load S o s := by
  by_cases hne : batch = []
  · unfold fold_batch
    rw [if_pos hne]
  · exact (fold_batch_lt hb hne).le

def Ready (C : Config) (s : Worker κ) (now : ℤ) : Prop :=
  ∀ last ∈ s.last_save_ms, C.min_save_interval_s * 1000 ≤ ((now - last : ℤ) : ℚ)

omit [LinearOrder κ] in
lemma due_of_ready {now : ℤ} (h : Ready C s now) : due C s now false true = true := by
  unfold due
  rw [if_neg]
  · simp
  · intro hany
    obtain ⟨last, hlast, hlt⟩ := (Option.any_eq_true _ _).mp hany
    exact absurd (of_decide_eq_true hlt) (not_lt.mpr (h last hlast))

lemma save_rank (hd : s.dirty = true) : rank C S o (save e s) < rank C S o s := by
  have hload : load S o (save e s) + 1 = load S o s := by
    have hahead : ahead S o (save e s) = ahead S o s := rfl
    unfold load
    rw [hahead, hd]
    rfl
  have hend : (save e s).ended = s.ended := rfl
  have hconf : (save e s).empty_confirms = s.empty_confirms := rfl
  unfold rank
  rw [hend, hconf, ← hload]
  have := Nat.mul_lt_mul_of_pos_left (show load S o (save e s) + s.ended.isNone.toNat <
    load S o (save e s) + 1 + s.ended.isNone.toNat by omega) (show 0 < confirmations C + 1 by omega)
  omega

lemma persist_rank : rank C S o (persist_cursor e s) = rank C S o s := by
  unfold persist_cursor
  split_ifs
  · rfl
  · rfl

lemma commit_rank (hs : s.ended = none) : rank C S o (commit_rebuild C s) < rank C S o s := by
  have hover : ∀ t : Worker κ, load S o t = load S o s → t.ended.isNone = false →
      rank C S o t < rank C S o s := by
    intro t hload hend
    unfold rank
    rw [hload, hend, hs, Nat.mul_add, Nat.mul_add]
    simp only [Bool.toNat_false, Option.isNone_none, Bool.toNat_true]
    omega
  unfold commit_rebuild
  split_ifs with hsaved hconf
  · exact hover _ rfl rfl
  · have hload : load S o { s with empty_confirms := s.empty_confirms + 1 } = load S o s := rfl
    unfold rank
    rw [hload]
    simp only
    unfold confirmations
    omega
  · exact hover _ rfl rfl

lemma publish_rank (idle at_head folded : Bool) (hs : s.ended = none) :
    rank C S o (publish C e idle at_head folded s) ≤ rank C S o s ∧
    (at_head = true → folded = false → (s.dirty = true → Ready C s e.force_ms) →
      rank C S o (publish C e idle at_head folded s) < rank C S o s) := by
  unfold publish
  by_cases hd : s.dirty
  · simp only [hd, if_true]
    split_ifs with hdue hcommit hcommit
    · have := (commit_rank (C := C) (S := S) (o := o) (s := save e s) hs).trans (save_rank hd)
      exact ⟨this.le, fun _ _ _ => this⟩
    · have := save_rank (C := C) (S := S) (o := o) (e := e) hd
      exact ⟨this.le, fun _ _ _ => this⟩
    · exact absurd hcommit.1 (by simp [hd])
    · refine ⟨le_rfl, fun hat _ hready => absurd ?_ hdue⟩
      exact .inr ⟨.inl hat, due_of_ready (hready trivial)⟩
  · rw [Bool.not_eq_true] at hd
    have hend : (persist_cursor e s).ended = none := by
      unfold persist_cursor
      split_ifs <;> exact hs
    have hdirty : (persist_cursor e s).dirty = false := by
      unfold persist_cursor
      split_ifs <;> exact hd
    simp only [hd, Bool.false_eq_true, if_false]
    split_ifs with hcommit
    · have := commit_rank (C := C) (S := S) (o := o) hend
      rw [persist_rank] at this
      exact ⟨this.le, fun _ _ _ => this⟩
    · rw [persist_rank]
      exact ⟨le_rfl, fun hat hf _ => absurd ⟨hdirty, .inl ⟨hat, .inr hf⟩⟩ hcommit⟩

structure Parts (C : Config) (S : Source κ) (o : Cursor κ) (e : Env) (s t u : Worker κ)
    (more : Bool) (skipped : ℕ) (batch : List (Node κ)) : Prop where
  pulled : pull C S o e s = (t, more, skipped)
  taken : batch = take_batch C (drop_skips t).buf (!more && !e.paused) e.flush
  folded : u = fold_batch e batch (drop_skips t)

abbrev idles (more : Bool) (skipped : ℕ) (batch : List (Node κ)) : Bool :=
  decide (more = false ∧ batch = [] ∧ skipped = 0)

lemma step_parts (C : Config) (S : Source κ) (o : Cursor κ) (e : Env) (s : Worker κ) :
    ∃ t u more skipped batch, Parts C S o e s t u more skipped batch ∧
      step C S o e s = (publish C e (idles more skipped batch)
          ((!more && !e.paused) && decide (leaf_count u.buf = 0)) (decide (batch ≠ [])) u,
        if idles more skipped batch then .idle else .worked) :=
  ⟨_, _, _, _, _, ⟨rfl, rfl, rfl⟩, rfl⟩

lemma rank_le_of_load {t : Worker κ} (hload : load S o t ≤ load S o s) (hend : t.ended = s.ended)
    (hconf : t.empty_confirms = s.empty_confirms) : rank C S o t ≤ rank C S o s := by
  unfold rank
  rw [hend, hconf]
  have := Nat.mul_le_mul_left (confirmations C + 1) (Nat.add_le_add_right hload s.ended.isNone.toNat)
  omega

lemma rank_lt_of_load {t : Worker κ} (hload : load S o t < load S o s) (hend : t.ended = s.ended)
    (hconf : t.empty_confirms = s.empty_confirms) : rank C S o t < rank C S o s := by
  unfold rank
  rw [hend, hconf]
  have := Nat.mul_lt_mul_of_pos_left (Nat.add_lt_add_right hload s.ended.isNone.toNat)
    (show 0 < confirmations C + 1 by omega)
  omega

lemma pull_full_buf (h : batch_max C ≤ leaf_count s.buf) : (pull C S o e s).1.buf = s.buf := by
  have hcut := (plan_cut_beside e.cut s).2
  have hpull := pull_cases C S o e s
  generalize pull C S o e s = r at hpull ⊢
  cases hpull with
  | paused => rfl
  | full h1 h2 => exact hcut
  | page t h1 h2 => omega
  | feed t unfed h1 h2 => omega

omit [LinearOrder κ] in
lemma fold_batch_beside (batch : List (Node κ)) (s : Worker κ) : (fold_batch e batch s).ended = s.ended ∧
    (fold_batch e batch s).empty_confirms = s.empty_confirms ∧
      (fold_batch e batch s).last_save_ms = s.last_save_ms := by
  unfold fold_batch
  by_cases h : batch = []
  · rw [if_pos h]
    exact ⟨rfl, rfl, rfl⟩
  · rw [if_neg h]
    exact ⟨rfl, rfl, rfl⟩

lemma drop_skips_load (t : Worker κ) : load S o (drop_skips t) ≤ load S o t := by
  have hbuf : (drop_skips t).buf.length ≤ t.buf.length := release_length t.buf
  have hahead : ahead S o (drop_skips t) = ahead S o t := rfl
  have hdirty : (drop_skips t).dirty = t.dirty := rfl
  unfold load
  rw [hahead, hdirty]
  omega

variable {t u : Worker κ} {more : Bool} {skipped : ℕ} {batch : List (Node κ)}

lemma Parts.front (h : Parts C S o e s t u more skipped batch) : batch <+: (drop_skips t).buf :=
  h.taken ▸ take_batch_prefix _ _ _

lemma Parts.beside (h : Parts C S o e s t u more skipped batch) : Beside s t := by
  have := pull_beside (C := C) (S := S) (o := o) e s
  rwa [h.pulled] at this

lemma Parts.kept (h : Parts C S o e s t u more skipped batch) :
    u.ended = s.ended ∧ u.empty_confirms = s.empty_confirms ∧ u.last_save_ms = s.last_save_ms := by
  obtain ⟨h1, h2, h3⟩ := fold_batch_beside (e := e) batch (drop_skips t)
  rw [h.folded]
  exact ⟨h1.trans h.beside.ended, h2.trans h.beside.confirms, h3.trans h.beside.last_save⟩

lemma Parts.load_le (h : Parts C S o e s t u more skipped batch) : load S o u ≤ load S o s ∧
    (¬Blocked C s → idles more skipped batch = false → load S o u < load S o s) := by
  obtain ⟨hle, hlt⟩ := pull_load (C := C) (S := S) (o := o) e s
  have hfull := pull_full_buf (C := C) (S := S) (o := o) (e := e) (s := s)
  rw [h.pulled] at hle hlt hfull
  have hdrop := drop_skips_load (S := S) (o := o) t
  have hfold := fold_batch_load (S := S) (o := o) (e := e) h.front
  rw [← h.folded] at hfold
  refine ⟨hfold.trans (hdrop.trans hle), fun hfree hidle => ?_⟩
  by_cases hb : batch = []
  · by_cases hmoved : skipped ≠ 0 ∨ (more = true ∧ leaf_count s.buf < batch_max C)
    · exact hfold.trans_lt (hdrop.trans_lt (hlt hmoved))
    · -- the pull has found a full buffer: the fold finds a full batch in it
      rw [not_or, not_not] at hmoved
      have hmore : more = true := by
        by_contra hno
        simp [idles, hb, hmoved.1, hno] at hidle
      have hroom : batch_max C ≤ leaf_count s.buf := not_lt.mp fun hroom => hmoved.2 ⟨hmore, hroom⟩
      have hready : C.rebuild_batch ≤ leaf_count s.buf := by
        by_contra hno
        exact hfree ⟨hroom, by omega⟩
      have hcount : leaf_count (drop_skips t).buf = leaf_count s.buf := by
        unfold drop_skips
        rw [leaf_count_release, hfull hroom]
      have hpos := C.positive.2.2
      exact absurd hb (h.taken ▸ take_batch_ne_nil (by omega) (.inl (by omega)))
  · have hfolded := fold_batch_lt (S := S) (o := o) (e := e) h.front hb
    rw [← h.folded] at hfolded
    exact hfolded.trans_le (hdrop.trans hle)

lemma Parts.head (h : Parts C S o e s t u more skipped batch) (hp : e.paused = false) (hm : more = false)
    (hb : batch = []) : leaf_count u.buf = 0 ∧ u.dirty = s.dirty := by
  have hhead : (!more && !e.paused) = true := by simp [hm, hp]
  have hu : u = drop_skips t := by
    rw [h.folded, hb]
    unfold fold_batch
    rw [if_pos rfl]
  constructor
  · by_contra hno
    rw [hu] at hno
    exact absurd hb (h.taken ▸ take_batch_ne_nil (by omega) (.inr hhead))
  · rw [hu]
    exact h.beside.dirty

/-- No step adds to the measure. A step that works lessens it unless the buffer is full for the feed only, and so
does every step that is not paused when the time for a save has come. -/
theorem step_rank (hs : s.ended = none) : rank C S o (step C S o e s).1 ≤ rank C S o s ∧
    (¬Blocked C s → ((step C S o e s).2 = .worked ∨
        (e.paused = false ∧ (s.dirty = true → Ready C s e.force_ms))) →
      rank C S o (step C S o e s).1 < rank C S o s) := by
  obtain ⟨t, u, more, skipped, batch, h, hstep⟩ := step_parts C S o e s
  obtain ⟨hend, hconf, hlast⟩ := h.kept
  obtain ⟨hle, hlt⟩ := h.load_le
  obtain ⟨hp1, hp2⟩ := publish_rank (C := C) (S := S) (o := o) (e := e) (idles more skipped batch)
    ((!more && !e.paused) && decide (leaf_count u.buf = 0)) (decide (batch ≠ [])) (hend.trans hs)
  have hu := rank_le_of_load (C := C) hle hend hconf
  rw [hstep]
  refine ⟨hp1.trans hu, fun hfree hcase => ?_⟩
  cases hidle : idles more skipped batch with
  | false => exact (hidle ▸ hp1).trans_lt (rank_lt_of_load (hlt hfree hidle) hend hconf)
  | true =>
    obtain ⟨hm, hb, -⟩ := of_decide_eq_true hidle
    rcases hcase with hw | ⟨hp, hready⟩
    · rw [hidle] at hw
      cases hw
    · obtain ⟨hzero, hdirty⟩ := h.head hp hm hb
      refine (hidle ▸ hp2 (by simp [hm, hp, hzero]) (by simp [hb]) fun hd => ?_).trans_le hu
      unfold Ready
      rw [hlast]
      exact hready (hdirty ▸ hd)

end Step

end CloudServer.RebuildStep
