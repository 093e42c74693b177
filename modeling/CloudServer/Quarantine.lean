import CloudServer.SceneMerge

/-! One fold step of the ingest worker: leaves the engine rejects are taken out of the batch by name or by
bisecting it, and the rest is folded. -/
namespace CloudServer.Quarantine
open SceneApi SceneMerge List

/-- What a call of `fold_many` does. -/
inductive Outcome (τ : Type)
  | dirty (d : Dirty)
  | missingTiles (tiles : τ)
  | leafError (key : Option String)
  | memoryError
  | fault

/-- An engine with states `ε`, and the loading of tiles into it (`none` where it raises). -/
structure Engine (ε α τ : Type) where
  fold_many : ε → List α → Outcome τ × ε
  load_tiles : Option (ε → τ → Option ε)

/-- What a fold step reads and writes. `folds` lists the batches the engine took, and `quarantined` the leaves
taken out, of which the worker keeps the keys. -/
structure Worker (ε α : Type) where
  engine : ε
  dirty : Option Dirty
  watermark : ℤ ×ₗ String
  folds : List (List α)
  quarantined : List α
  missing_tiles : ℕ
  fault_streak : ℕ
  memory_head : Option String
  memory_streak : ℕ
  memory_isolations : ℕ

inductive Failure
  | tiles
  | leaf (key : Option String)
  | memory
  | fault
  deriving DecidableEq

inductive StepResult
  | folded (n : ℕ)
  | backoff (stage : Failure)
  | engineFault
  deriving DecidableEq

section Model
variable {ε α τ : Type} [DecidableEq α] (key : α → String) (E : Engine ε α τ)

/-- `fold_many`, tiles being loaded at most `retries` times. -/
def attempt (leaves : List α) (retries : ℕ) (w : Worker ε α) : Option Failure × Worker ε α :=
  let r := E.fold_many w.engine leaves
  let w := { w with engine := r.2 }
  match r.1 with
  | .dirty d =>
    (none, { w with dirty := some (merge_dirty w.dirty d), watermark := d.watermark, folds := w.folds ++ [leaves] })
  | .leafError k => (some (.leaf k), w)
  | .memoryError => (some .memory, w)
  | .fault => (some .fault, w)
  | .missingTiles tiles =>
    let w := { w with missing_tiles := w.missing_tiles + 1 }
    match retries, E.load_tiles with
    | n + 1, some load => match load w.engine tiles with
      | some e => attempt leaves n { w with engine := e }
      | none => (some .tiles, w)
    | _, _ => (some .tiles, w)

def try_fold (leaves : List α) (w : Worker ε α) : Option Failure × Worker ε α := attempt E leaves 1 w

def quarantine (w : Worker ε α) (leaf : α) : Worker ε α := { w with quarantined := w.quarantined ++ [leaf] }

def folded (w : Worker ε α) (n : ℕ) : StepResult × Worker ε α :=
  (.folded n, { w with fault_streak := 0, memory_head := none, memory_streak := 0 })

def without (leaves : List α) (bad : α) : List α := leaves.filter fun l => l ≠ bad

structure Bisection (ε α : Type) where
  worker : Worker ε α
  bad : List α
  fault : Bool

def walk (bisect_memory : Bool) (chunk : List α) (s : Bisection ε α) : Option Failure × Bisection ε α :=
  if s.fault then (none, s) else
  match try_fold E chunk s.worker with
  | (none, w) => (none, { s with worker := w })
  | (some f, w) =>
    let s := { s with worker := w }
    if f = .tiles then (some .tiles, s)
    else if f = .memory ∧ ¬bisect_memory then (some .memory, s)
    else if f = .fault then (none, { s with fault := true })
    -- no chunk is empty: a batch is not, and halves of two leaves or more are not
    else if chunk.length < 2 then (none, { s with bad := s.bad ++ chunk })
    else
      let mid := chunk.length / 2
      match walk bisect_memory (chunk.take mid) s with
      | (some stop, s) => (some stop, s)
      | (none, s) => walk bisect_memory (chunk.drop mid) s
termination_by chunk.length
decreasing_by
  · simp only [length_take]
    omega
  · simp only [length_drop]
    omega

def isolate (leaves : List α) (bisect_memory : Bool) (w : Worker ε α) : StepResult × Worker ε α :=
  let r := walk E bisect_memory leaves ⟨w, [], false⟩
  let w := r.2.bad.foldl quarantine r.2.worker
  if r.2.fault then (.engineFault, w)
  else match r.1 with
    | some stop => (.backoff stop, w)
    | none => folded w (leaves.length - r.2.bad.length)

/-- `memory_retry_limit` failures of a batch with the same first leaf in a row bisect it. -/
def out_of_memory (memory_retry_limit : ℕ) (leaves : List α) (w : Worker ε α) : StepResult × Worker ε α :=
  let head := leaves.head?.elim "" key
  let w := { w with
    memory_streak := if w.memory_head = some head then w.memory_streak + 1 else 1, memory_head := some head }
  if max 1 memory_retry_limit ≤ w.memory_streak ∧ leaves ≠ [] then
    isolate E leaves true
      { w with memory_head := none, memory_streak := 0, memory_isolations := w.memory_isolations + 1 }
  else (.backoff .memory, w)

lemma length_without_lt {leaves : List α} {bad : α} (h : bad ∈ leaves) :
    (without leaves bad).length < leaves.length :=
  length_filter_lt_length_iff_exists.mpr ⟨bad, h, by simp⟩

def quarantine_leaves (memory_retry_limit : ℕ) (remaining : List α) (exc : Option String) (w : Worker ε α) :
    StepResult × Worker ε α :=
  match _hbad : exc.bind fun k => remaining.find? fun l => key l = k with
  | none => isolate E remaining false w
  | some bad =>
    let rest := without remaining bad
    let w := quarantine w bad
    if rest = [] then folded w 0
    else match try_fold E rest w with
      | (none, w) => folded w rest.length
      | (some .tiles, w) => (.backoff .tiles, w)
      | (some .memory, w) => out_of_memory key E memory_retry_limit rest w
      | (some .fault, w) => (.engineFault, w)
      | (some (.leaf exc), w) => quarantine_leaves memory_retry_limit rest exc w
termination_by remaining.length
decreasing_by
  obtain ⟨k, -, hk⟩ := Option.bind_eq_some_iff.mp _hbad
  exact length_without_lt (mem_of_find?_eq_some hk)

def fold (memory_retry_limit : ℕ) (leaves : List α) (w : Worker ε α) : StepResult × Worker ε α :=
  match try_fold E leaves w with
  | (none, w) => folded w leaves.length
  | (some .tiles, w) => (.backoff .tiles, w)
  | (some (.leaf exc), w) => quarantine_leaves key E memory_retry_limit leaves exc w
  | (some .memory, w) => out_of_memory key E memory_retry_limit leaves w
  | (some .fault, w) => (.engineFault, w)

end Model

section Exact
variable {ε α τ : Type} {key : α → String} {E : Engine ε α τ} {bad : α → Bool}

def Names (key : α → String) (bad : α → Bool) (leaves : List α) (exc : Option String) : Prop :=
  ∀ k ∈ exc, (∃ l ∈ leaves, key l = k) → ∃ l ∈ leaves, bad l ∧ key l = k

/-- The engine takes a batch without bad leaves, and names a bad leaf of any other. -/
structure Rejects (key : α → String) (E : Engine ε α τ) (bad : α → Bool) : Prop where
  takes : ∀ e leaves, (∀ l ∈ leaves, bad l = false) → ∃ d e', E.fold_many e leaves = (.dirty d, e')
  rejects : ∀ e leaves, (∃ l ∈ leaves, bad l) →
    ∃ exc, E.fold_many e leaves = (.leafError exc, e) ∧ Names key bad leaves exc

/-- The bad leaves of a batch are quarantined, each once, and every other leaf of it is in one of the batches
the engine took, once. -/
def Exact (bad : α → Bool) (batch : List α) (w w' : Worker ε α) : Prop :=
  ∃ q calls, w'.quarantined = w.quarantined ++ q ∧ w'.folds = w.folds ++ calls ∧
    q.Perm (batch.filter bad) ∧ calls.flatten.Perm (batch.filter fun l => !bad l)

/-- No later bad leaf has the key of a good one. -/
def Clear (key : α → String) (bad : α → Bool) (batch : List α) : Prop :=
  batch.Pairwise fun l l' => bad l = false → bad l' → key l ≠ key l'

lemma try_fold_takes (h : Rejects key E bad) {leaves : List α} (hgood : ∀ l ∈ leaves, bad l = false)
    (w : Worker ε α) : ∃ w', try_fold E leaves w = (none, w') ∧ w'.quarantined = w.quarantined ∧
      w'.folds = w.folds ++ [leaves] := by
  obtain ⟨d, e', he⟩ := h.takes w.engine leaves hgood
  refine ⟨{ w with
    engine := e', dirty := some (merge_dirty w.dirty d), watermark := d.watermark
    folds := w.folds ++ [leaves] }, ?_, rfl, rfl⟩
  unfold try_fold attempt
  simp only [he]

lemma try_fold_rejects (h : Rejects key E bad) {leaves : List α} (hbad : ∃ l ∈ leaves, bad l) (w : Worker ε α) :
    ∃ exc, try_fold E leaves w = (some (.leaf exc), w) ∧ Names key bad leaves exc := by
  obtain ⟨exc, he, hexc⟩ := h.rejects w.engine leaves hbad
  refine ⟨exc, ?_, hexc⟩
  unfold try_fold attempt
  simp only [he]

lemma filter_none {leaves : List α} (hgood : ∀ l ∈ leaves, bad l = false) :
    leaves.filter bad = [] ∧ (leaves.filter fun l => !bad l) = leaves := by
  refine ⟨filter_eq_nil_iff.mpr fun l hl => by simp [hgood l hl], filter_eq_self.mpr fun l hl => ?_⟩
  simp [hgood l hl]

lemma good_or_bad (leaves : List α) : (∀ l ∈ leaves, bad l = false) ∨ ∃ l ∈ leaves, bad l := by
  by_cases h : ∃ l ∈ leaves, bad l
  · exact .inr h
  · refine .inl fun l hl => ?_
    by_contra hb
    exact h ⟨l, hl, by simpa using hb⟩

lemma walk_exact (h : Rejects key E bad) (b : Bool) (chunk : List α) (w : Worker ε α) (found : List α) :
    ∃ q calls w', walk E b chunk ⟨w, found, false⟩ = (none, ⟨w', found ++ q, false⟩) ∧
      w'.quarantined = w.quarantined ∧ w'.folds = w.folds ++ calls ∧
      q.Perm (chunk.filter bad) ∧ calls.flatten.Perm (chunk.filter fun l => !bad l) := by
  induction hn : chunk.length using Nat.strongRecOn generalizing chunk w found with
  | ind n ih =>
    rw [walk, if_neg Bool.false_ne_true]
    rcases @good_or_bad _ bad chunk with hgood | hbad
    · obtain ⟨w', htry, hq, hf⟩ := try_fold_takes h hgood w
      obtain ⟨h1, h2⟩ := filter_none hgood
      rw [htry]
      exact ⟨[], [chunk], w', by simp, hq, hf, by simp [h1], by simp [h2]⟩
    · obtain ⟨exc, htry, -⟩ := try_fold_rejects h hbad w
      rw [htry]
      simp only [reduceCtorEq, if_false, false_and]
      split_ifs with hlen
      · obtain ⟨l, hl, hb⟩ := hbad
        obtain ⟨x, rfl⟩ : ∃ x, chunk = [x] := length_eq_one_iff.mp (by
          have := length_pos_of_mem hl
          omega)
        obtain rfl := mem_singleton.mp hl
        exact ⟨[l], [], w, rfl, rfl, by simp, by simp [hb], by simp [hb]⟩
      · obtain ⟨q1, c1, w1, h1, hq1, hf1, hp1, hc1⟩ := ih (chunk.take (chunk.length / 2)).length (by
          rw [length_take]
          omega) (chunk.take (chunk.length / 2)) w found rfl
        obtain ⟨q2, c2, w2, h2, hq2, hf2, hp2, hc2⟩ := ih (chunk.drop (chunk.length / 2)).length (by
          rw [length_drop]
          omega) (chunk.drop (chunk.length / 2)) w1 (found ++ q1) rfl
        rw [h1]
        refine ⟨q1 ++ q2, c1 ++ c2, w2, by rw [← append_assoc]; exact h2, hq2.trans hq1, ?_, ?_, ?_⟩
        · rw [hf2, hf1, append_assoc]
        · rw [← take_append_drop (chunk.length / 2) chunk, filter_append]
          exact hp1.append hp2
        · rw [← take_append_drop (chunk.length / 2) chunk, filter_append, flatten_append]
          exact hc1.append hc2

lemma quarantine_all (found : List α) (w : Worker ε α) :
    (found.foldl quarantine w).quarantined = w.quarantined ++ found ∧ (found.foldl quarantine w).folds = w.folds := by
  induction found generalizing w with
  | nil => simp
  | cons l found ih =>
    obtain ⟨h1, h2⟩ := ih (quarantine w l)
    rw [foldl_cons, h1, h2]
    simp [quarantine]

lemma isolate_exact (h : Rejects key E bad) (leaves : List α) (b : Bool) (w : Worker ε α) :
    ∃ n w', isolate E leaves b w = (.folded n, w') ∧ Exact bad leaves w w' := by
  obtain ⟨q, calls, w', hw, hq, hf, hp, hc⟩ := walk_exact h b leaves w []
  obtain ⟨h1, h2⟩ := quarantine_all q w'
  unfold isolate
  rw [hw]
  refine ⟨_, _, rfl, q, calls, ?_, ?_, hp, hc⟩
  · exact h1.trans (by rw [hq])
  · exact h2.trans hf

variable [DecidableEq α]
variable {l x y : α} {exc : Option String} {w w' : Worker ε α}

lemma mem_without {leaves : List α} : l ∈ without leaves x ↔ l ∈ leaves ∧ l ≠ x := by
  simp [without]

variable {batch : List α}

lemma filter_without (hnd : batch.Nodup) (hx : x ∈ batch) (hb : bad x) :
    (batch.filter bad).Perm (x :: (without batch x).filter bad) ∧
      (batch.filter fun l => !bad l) = (without batch x).filter fun l => !bad l := by
  constructor
  · refine (perm_ext_iff_of_nodup (hnd.filter _) ?_).mpr fun l => ?_
    · refine nodup_cons.mpr ⟨fun hm => ?_, (hnd.filter _).filter _⟩
      exact (mem_without.mp (mem_filter.mp hm).1).2 rfl
    · simp only [mem_filter, mem_cons, mem_without]
      constructor
      · rintro ⟨hl, hbl⟩
        by_cases he : l = x
        · exact .inl he
        · exact .inr ⟨⟨hl, he⟩, hbl⟩
      · rintro (rfl | ⟨⟨hl, -⟩, hbl⟩)
        · exact ⟨hx, hb⟩
        · exact ⟨hl, hbl⟩
  · unfold without
    rw [filter_filter]
    refine filter_congr fun l _ => ?_
    by_cases he : l = x
    · simp [he, hb]
    · simp [he]

lemma Exact.quarantine (hnd : batch.Nodup) (hx : x ∈ batch) (hb : bad x)
    (h : Exact bad (without batch x) (quarantine w x) w') : Exact bad batch w w' := by
  obtain ⟨q, calls, hq, hf, hp, hc⟩ := h
  obtain ⟨h1, h2⟩ := filter_without hnd hx hb
  refine ⟨x :: q, calls, ?_, hf, (hp.cons x).trans h1.symm, h2 ▸ hc⟩
  rw [hq]
  simp [Quarantine.quarantine]

omit [DecidableEq α] in
lemma Clear.find (hclear : Clear key bad batch)
    (hexc : Names key bad batch exc) (hx : (exc.bind fun k => batch.find? fun l => key l = k) = some x) :
    x ∈ batch ∧ bad x := by
  obtain ⟨k, hk, hfind⟩ := Option.bind_eq_some_iff.mp hx
  have hmem := mem_of_find?_eq_some hfind
  have hkey : key x = k := by simpa using List.find?_some hfind
  refine ⟨hmem, ?_⟩
  by_contra hgood
  obtain ⟨y, hy, hb, hyk⟩ := hexc k hk ⟨x, hmem, hkey⟩
  obtain ⟨-, l, r, rfl, hl⟩ := List.find?_eq_some_iff_append.mp hfind
  rcases mem_append.mp hy with hy | hy
  · exact absurd hyk (by simpa using hl y hy)
  · rcases mem_cons.mp hy with rfl | hy
    · exact hgood hb
    · exact rel_of_pairwise_cons (pairwise_append.mp hclear).2.1 hy (by simpa using hgood) hb
        (hkey.trans hyk.symm)

lemma quarantine_leaves_found {limit : ℕ}
    (hx : (exc.bind fun k => batch.find? fun l => key l = k) = some x) :
    quarantine_leaves key E limit batch exc w =
      if without batch x = [] then folded (quarantine w x) 0
      else match try_fold E (without batch x) (quarantine w x) with
        | (none, w) => folded w (without batch x).length
        | (some .tiles, w) => (.backoff .tiles, w)
        | (some .memory, w) => out_of_memory key E limit (without batch x) w
        | (some .fault, w) => (.engineFault, w)
        | (some (.leaf exc), w) => quarantine_leaves key E limit (without batch x) exc w := by
  rw [quarantine_leaves]
  split
  · rename_i hnone
    rw [hx] at hnone
    cases hnone
  · rename_i z hz
    rw [hx] at hz
    cases hz
    rfl

lemma quarantine_leaves_exact (h : Rejects key E bad) (limit : ℕ) (hnd : batch.Nodup)
    (hclear : Clear key bad batch) (hexc : Names key bad batch exc) (w : Worker ε α) :
    ∃ n w', quarantine_leaves key E limit batch exc w = (.folded n, w') ∧ Exact bad batch w w' := by
  induction hn : batch.length using Nat.strongRecOn generalizing batch exc w with
  | ind n ih =>
    rw [quarantine_leaves]
    split
    · exact isolate_exact h batch false w
    · rename_i x hx
      obtain ⟨hmem, hb⟩ := hclear.find hexc hx
      have hlen := length_without_lt hmem
      have hnd' : (without batch x).Nodup := hnd.filter _
      have hclear' : Clear key bad (without batch x) := hclear.filter _
      dsimp only
      split_ifs with hnil
      · exact ⟨0, _, rfl, Exact.quarantine hnd hmem hb ⟨[], [], by simp, by simp, by simp [hnil], by simp [hnil]⟩⟩
      · rcases @good_or_bad _ bad (without batch x) with hgood | hbad
        · obtain ⟨w', htry, hq, hf⟩ := try_fold_takes h hgood (quarantine w x)
          obtain ⟨h1, h2⟩ := filter_none hgood
          rw [htry]
          refine ⟨_, _, rfl, Exact.quarantine hnd hmem hb ⟨[], [without batch x], ?_, hf, by simp [h1], by simp [h2]⟩⟩
          simpa using hq
        · obtain ⟨exc', htry, hexc'⟩ := try_fold_rejects h hbad (quarantine w x)
          rw [htry]
          obtain ⟨n', w', hrun, hex⟩ := ih _ (hn ▸ hlen) hnd' hclear' hexc' (quarantine w x) rfl
          exact ⟨n', w', hrun, hex.quarantine hnd hmem hb⟩

lemma fold_exact (h : Rejects key E bad) (limit : ℕ) (hnd : batch.Nodup)
    (hclear : Clear key bad batch) (w : Worker ε α) :
    ∃ n w', fold key E limit batch w = (.folded n, w') ∧ Exact bad batch w w' := by
  unfold fold
  rcases @good_or_bad _ bad batch with hgood | hbad
  · obtain ⟨w', htry, hq, hf⟩ := try_fold_takes h hgood w
    obtain ⟨h1, h2⟩ := filter_none hgood
    rw [htry]
    refine ⟨_, _, rfl, [], [batch], ?_, hf, by simp [h1], by simp [h2]⟩
    simpa using hq
  · obtain ⟨exc, htry, hexc⟩ := try_fold_rejects h hbad w
    rw [htry]
    exact quarantine_leaves_exact h limit hnd hclear hexc w

/-! ### An engine that names a leaf behind a good one -/

/-- It rejects the batches with a bad leaf and names `y` where `y` is in the batch. -/
def naming (key : α → String) (bad : α → Bool) (y : α) (ε τ : Type) : Engine ε α τ where
  fold_many e leaves :=
    if leaves.any bad then (.leafError (if y ∈ leaves then some (key y) else none), e)
    else (.dirty ⟨none, [], .empty, [], toLex (0, "")⟩, e)
  load_tiles := none

lemma naming_rejects (hy : bad y) : Rejects key (naming key bad y ε τ) bad where
  takes := by
    intro e leaves hgood
    refine ⟨_, _, if_neg ?_⟩
    simpa using hgood
  rejects := by
    intro e leaves hbad
    refine ⟨_, if_pos (by simpa using hbad), fun k hk _ => ?_⟩
    split_ifs at hk with hmem
    · cases hk
      exact ⟨y, hmem, hy, rfl⟩
    · cases hk

lemma naming_try (hy : bad y) {leaves : List α} (hmem : y ∈ leaves) (w : Worker ε α) :
    try_fold (naming key bad y ε τ) leaves w = (some (.leaf (some (key y))), w) := by
  unfold try_fold attempt naming
  dsimp only
  rw [if_pos (any_eq_true.mpr ⟨y, hmem, hy⟩), if_pos hmem]

lemma quarantine_leaves_keeps (h : Rejects key E bad) (limit : ℕ) (batch : List α) (exc : Option String)
    (w : Worker ε α) : w.quarantined <+: (quarantine_leaves key E limit batch exc w).2.quarantined := by
  induction hn : batch.length using Nat.strongRecOn generalizing batch exc w with
  | ind n ih =>
    rw [quarantine_leaves]
    split
    · obtain ⟨n, w', hw, q, calls, hq, -⟩ := isolate_exact h batch false w
      rw [hw, hq]
      exact prefix_append _ _
    · rename_i x hx
      obtain ⟨k, -, hfind⟩ := Option.bind_eq_some_iff.mp hx
      have hlen := length_without_lt (mem_of_find?_eq_some hfind)
      have hstep : w.quarantined <+: (quarantine w x).quarantined := prefix_append _ _
      dsimp only
      split_ifs with hnil
      · exact hstep
      · rcases @good_or_bad _ bad (without batch x) with hgood | hbad
        · obtain ⟨w', htry, hq, -⟩ := try_fold_takes h hgood (quarantine w x)
          rw [htry]
          exact hstep.trans (by rw [← hq]; exact prefix_rfl)
        · obtain ⟨exc', htry, -⟩ := try_fold_rejects h hbad (quarantine w x)
          rw [htry]
          exact hstep.trans (ih _ (hn ▸ hlen) _ exc' (quarantine w x) rfl)

/-- A good leaf that has the key of a bad one behind it is lost to an engine that names the bad one: the bad
leaves of this key before it go first, then it does. -/
lemma naming_loses (hx : bad x = false) (hy : bad y) (hkey : key x = key y) (limit : ℕ) {l r : List α}
    (hnd : (l ++ x :: r).Nodup) (hyr : y ∈ r) (w : Worker ε α) :
    ∃ z, bad z = false ∧
      z ∈ (quarantine_leaves key (naming key bad y ε τ) limit (l ++ x :: r) (some (key y)) w).2.quarantined := by
  induction hn : (l ++ x :: r).length using Nat.strongRecOn generalizing l r w with
  | ind n ih =>
    have hfirst : ∃ z, ((l ++ x :: r).find? fun z => key z = key y) = some z ∧ (z ∈ l ∨ z = x) := by
      rw [List.find?_append, List.find?_cons_of_pos (by simpa using hkey)]
      cases hl : l.find? fun z => decide (key z = key y) with
      | none => exact ⟨x, rfl, .inr rfl⟩
      | some z => exact ⟨z, rfl, .inl (mem_of_find?_eq_some hl)⟩
    obtain ⟨z, hfind, hz⟩ := hfirst
    have hmem := mem_of_find?_eq_some hfind
    have hfound : ((some (key y)).bind fun k => (l ++ x :: r).find? fun l => key l = k) = some z := hfind
    have hkeeps : z ∈ (quarantine w z).quarantined := by simp [quarantine]
    by_cases hb : bad z
    · have hzx : z ≠ x := fun he => by simp [he, hx] at hb
      have hzl : z ∈ l := hz.resolve_right hzx
      obtain ⟨-, hr, hdis⟩ := nodup_append.mp hnd
      have hzy : y ≠ z := fun he => hdis z hzl y (mem_cons_of_mem _ hyr) he.symm
      have hsplit : without (l ++ x :: r) z = without l z ++ x :: without r z := by
        simp [without, hzx.symm]
      have hlen := length_without_lt hmem
      have hrest : without (l ++ x :: r) z ≠ [] := by simp [hsplit]
      have hyz : y ∈ without (l ++ x :: r) z := mem_without.mpr ⟨by simp [hyr], hzy⟩
      obtain ⟨v, hv, hvq⟩ := ih _ (hn ▸ hlen) (by rw [← hsplit]; exact hnd.filter _)
        (mem_without.mpr ⟨hyr, hzy⟩) (quarantine w z) (by rw [hsplit])
      refine ⟨v, hv, ?_⟩
      rw [quarantine_leaves_found hfound, if_neg hrest, naming_try hy hyz]
      dsimp only
      rwa [hsplit]
    · refine ⟨z, by simpa using hb, ?_⟩
      rw [quarantine_leaves_found hfound]
      split_ifs with hnil
      · exact hkeeps
      · rcases @good_or_bad _ bad (without (l ++ x :: r) z) with hgood | hbad
        · obtain ⟨w', htry, hq, -⟩ := try_fold_takes (naming_rejects hy) hgood (quarantine w z)
          rw [htry]
          exact hq ▸ hkeeps
        · obtain ⟨exc', htry, -⟩ := try_fold_rejects (naming_rejects hy) hbad (quarantine w z)
          rw [htry]
          exact (quarantine_leaves_keeps (naming_rejects hy) limit _ exc' (quarantine w z)).subset hkeeps

omit [DecidableEq α] in
lemma exists_hidden (h : ¬Clear key bad batch) : ∃ l x r y, batch = l ++ x :: r ∧ bad x = false ∧
    y ∈ r ∧ bad y ∧ key x = key y := by
  induction batch with
  | nil => exact absurd List.Pairwise.nil h
  | cons a batch ih =>
    by_cases ht : Clear key bad batch
    · by_contra hno
      refine h (pairwise_cons.mpr ⟨fun y hy ha hb hkey => ?_, ht⟩)
      exact hno ⟨[], a, batch, y, rfl, ha, hy, hb, hkey⟩
    · obtain ⟨l, x, r, y, rfl, hrest⟩ := ih ht
      exact ⟨a :: l, x, r, y, rfl, hrest⟩

/-- Whatever the engine names, a fold step quarantines exactly the bad leaves of the batch and has every other
one folded exactly once, exactly when no good leaf has the key of a bad leaf behind it. -/
theorem quarantine_exact_iff (key : α → String) (bad : α → Bool) (limit : ℕ) {batch : List α} (hnd : batch.Nodup) :
    (∀ (ε τ : Type) (E : Engine ε α τ), Rejects key E bad → ∀ w : Worker ε α,
      ∃ n w', fold key E limit batch w = (.folded n, w') ∧ Exact bad batch w w') ↔ Clear key bad batch := by
  constructor
  · intro hall
    by_contra hclear
    obtain ⟨l, x, r, y, rfl, hx, hyr, hy, hkey⟩ := exists_hidden hclear
    obtain ⟨n, w', hw, q, calls, hq, -, hp, -⟩ := hall Unit Unit (naming key bad y Unit Unit) (naming_rejects hy)
      ⟨(), none, toLex (0, ""), [], [], 0, 0, none, 0, 0⟩
    unfold fold at hw
    rw [naming_try hy (by simp [hyr])] at hw
    obtain ⟨z, hz, hzq⟩ := naming_loses hx hy hkey limit hnd hyr
      (⟨(), none, toLex (0, ""), [], [], 0, 0, none, 0, 0⟩ : Worker Unit α)
    dsimp only at hw
    rw [hw, hq, nil_append] at hzq
    have := (mem_filter.mp (hp.subset hzq)).2
    rw [hz] at this
    cases this
  · intro hclear ε τ E h w
    exact fold_exact h limit hnd hclear w

end Exact

/-- Of three leaves the second is bad and the engine names it. -/
theorem quarantine_exact_iff_three : ∃ n w',
    fold Prod.fst (naming Prod.fst (fun l : String × ℕ => l.2 = 2) ("b", 2) Unit Unit) 3
      [("a", 1), ("b", 2), ("c", 3)] ⟨(), none, toLex (0, ""), [], [], 0, 0, none, 0, 0⟩ = (.folded n, w') ∧
    Exact (fun l => l.2 = 2) [("a", 1), ("b", 2), ("c", 3)]
      ⟨(), none, toLex (0, ""), [], [], 0, 0, none, 0, 0⟩ w' :=
  (quarantine_exact_iff Prod.fst (fun l => l.2 = 2) 3 (by decide)).mpr (by unfold Clear; decide) Unit Unit _
    (naming_rejects (by decide)) _

/-- A node is stored again while its first layer waits for the batch: the engine rejects the second leaf by its
key, and both are quarantined. -/
theorem good_leaf_quarantined :
    Rejects Prod.fst (naming Prod.fst (fun l : String × ℕ => l.2 = 2) ("n", 2) Unit Unit) (fun l => l.2 = 2) ∧
    fold Prod.fst (naming Prod.fst (fun l : String × ℕ => l.2 = 2) ("n", 2) Unit Unit) 3 [("n", 1), ("n", 2)]
      ⟨(), none, toLex (0, ""), [], [], 0, 0, none, 0, 0⟩ =
        (.folded 0, ⟨(), none, toLex (0, ""), [], [("n", 1), ("n", 2)], 0, 0, none, 0, 0⟩) := by
  refine ⟨naming_rejects (by decide), ?_⟩
  unfold fold
  rw [naming_try (by decide) (by decide)]
  dsimp only
  rw [quarantine_leaves_found (show _ = some ("n", 1) by decide), if_neg (by decide),
    show without [("n", 1), ("n", 2)] ("n", 1) = [("n", 2)] by decide, naming_try (by decide) (by decide)]
  dsimp only
  rw [quarantine_leaves_found (show _ = some ("n", 2) by decide), if_pos (by decide)]
  rfl

end CloudServer.Quarantine
