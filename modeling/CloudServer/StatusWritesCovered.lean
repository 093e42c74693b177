import CloudServer.StatusWritesKept

/-! What one step of the status writes does to a request: whoever waits comes nearer to the lock,
and a queued request is not forgotten. -/
namespace CloudServer.StatusWrites

open List

variable {V : Type}

/-! ### What a step does to an entry -/

def StatusRow.view (row : StatusRow V) :
    Option (Waiter × Write V) × List Waiter × Option Request × Option Loop :=
  (row.holder, row.waiters, row.pending, row.task)

section
variable {statusAt : ℕ → ℕ → V} {time : ℕ} {T T' : Store V} {o : ℕ} {row row' : StatusRow V}

lemma view_eq_iff {y : Option (Waiter × Write V)} {ws : List Waiter} {p : Option Request}
    {t : Option Loop} : row.view = (y, ws, p, t) ↔ row.holder = y ∧ row.waiters = ws ∧ row.pending = p ∧ row.task = t := by
  unfold StatusRow.view
  simp only [Prod.mk.injEq]

lemma view_iff : row'.view = row.view ↔ row'.holder = row.holder ∧ row'.waiters = row.waiters ∧
    row'.pending = row.pending ∧ row'.task = row.task := by
  exact view_eq_iff

lemma release_view (T : Store V) (o o' : ℕ) :
    ((release T o).heap o').view = (T.heap o').view := by
  have hput : ((T.put o { T.heap o with users := (T.heap o).users - 1 }).heap o').view =
      (T.heap o').view := by
    by_cases ho : o' = o
    · subst ho
      rw [put_heap]
      rfl
    · rw [put_heap_ne ho]
  unfold release
  simp only
  split
  · exact hput
  · exact hput

lemma release_commits (T : Store V) (o : ℕ) : (release T o).commits = T.commits := by
  unfold release
  simp only
  split <;> rfl

lemma loop_end_view (T : Store V) (o : ℕ) : ((loop_end T o).heap o).view =
    ((T.heap o).holder, (T.heap o).waiters, (T.heap o).pending, none) := by
  unfold loop_end
  rw [release_view, put_heap]
  rfl

lemma loop_end_commits (T : Store V) (o : ℕ) : (loop_end T o).commits = T.commits :=
  release_commits ..

lemma loop_top_commits (T : Store V) (o : ℕ) : (loop_top T o).commits = T.commits := by
  rcases loop_top_cases T o with ⟨-, heq⟩ | ⟨r, -, ⟨-, -, heq⟩ | ⟨-, heq⟩⟩
  · rw [heq, loop_end_commits]
  · rw [heq, loop_end_commits]
    rfl
  · rw [heq]
    rfl

variable {w : Waiter} {act : Act}

lemma join_locked (h : row.unlocked = false) :
    row.join w = { row with waiters := row.waiters ++ [w] } := by
  unfold StatusRow.join
  rw [if_neg (by rw [h]; simp)]

lemma join_unlocked (h : row.unlocked = true) :
    row.join w = { row with holder := some (w, .connecting) } := by
  unfold StatusRow.join
  rw [if_pos h]

lemma status_row_view (T : Store V) : ((status_row T).2.heap (status_row T).1).view =
    if T.table = some (status_row T).1 then (T.heap (status_row T).1).view
      else (StatusRow.new V).view := by
  unfold status_row
  cases ho : T.table with
  | some o =>
    simp only
    rw [put_heap, if_pos trivial]
    rfl
  | none =>
    simp only
    rw [if_neg nofun]
    rw [put_heap]
    rfl

lemma status_row_some (ho : T.table = some o) : (status_row T).1 = o := by
  unfold status_row
  rw [ho]

lemma status_row_made (T : Store V) : (status_row T).2.made = T.made := by
  unfold status_row
  split <;> rfl

lemma queue_view (T : Store V) (status time : ℕ) : ∃ r : Request, r.number = T.made + 1 ∧
    ((queue_status_write T status time).heap (status_row T).1).view =
      (((status_row T).2.heap (status_row T).1).holder, ((status_row T).2.heap (status_row T).1).waiters, some r,
        some (((status_row T).2.heap (status_row T).1).task.getD .starting)) := by
  have hmade := status_row_made T
  unfold queue_status_write
  generalize status_row T = S at hmade ⊢
  obtain ⟨o, T⟩ := S
  refine ⟨(number T o status time).1, by rw [← hmade]; rfl, ?_⟩
  have hheap : (number T o status time).2.heap o = { T.heap o with seq := (T.heap o).seq + 1 } :=
    put_heap
  simp only
  rw [hheap]
  cases htask : (T.heap o).task with
  | none =>
    simp only [Option.isSome_none, Bool.false_eq_true, if_false]
    rw [put_heap]
    rfl
  | some t =>
    simp only [Option.isSome_some, if_true]
    rw [release_view, put_heap]
    unfold StatusRow.view
    rfl

lemma await_view (h : Kept statusAt time T) (status : ℕ) : ∃ r : Request,
    r.number = T.made + 1 ∧ ((write_status T status time).heap (status_row T).1).view =
      (StatusRow.join ((status_row T).2.heap (status_row T).1) ⟨false, r⟩).view := by
  have hmade := status_row_made T
  have hopen := status_row_open h
  unfold write_status
  generalize status_row T = S at hmade hopen ⊢
  obtain ⟨o, T⟩ := S
  refine ⟨(number T o status time).1, by rw [← hmade]; rfl, ?_⟩
  have hheap : (number T o status time).2.heap o = { T.heap o with seq := (T.heap o).seq + 1 } :=
    put_heap
  have hfresh : ((number T o status time).2.heap o).stale (number T o status time).1 = false := by
    have hw := hopen.row.written
    unfold StatusRow.stale
    rw [hheap]
    refine decide_eq_false ?_
    change ¬(T.heap o).seq + 1 < (T.heap o).written_seq
    simp only at hw
    omega
  simp only
  have hfree : ((number T o status time).2.heap o).unlocked = (T.heap o).unlocked := by
    rw [hheap]
    rfl
  cases hu : (T.heap o).unlocked with
  | true =>
    rw [if_pos (hfree.trans hu), if_neg (by rw [hfresh]; simp), put_heap, join_unlocked hu, hheap]
    rfl
  | false =>
    rw [if_neg (by rw [hfree, hu]; simp), put_heap, join_locked hu, hheap]
    rfl

/-- The `i`-th request, or a newer one, is committed. -/
def Covered (T : Store V) (i : ℕ) : Prop := ∃ c ∈ T.commits, i ≤ c.request.number

/-- The loop carries the request: it waits for the lock, or its write is on its way. -/
def Carries (T : Store V) (o : ℕ) (w : Waiter) : Prop :=
  w ∈ (T.heap o).waiters ∨ (T.heap o).holder = some (w, .connecting) ∨
    ∃ v t, (T.heap o).holder = some (w, .sent v t)

def Carried (T : Store V) (o i : ℕ) : Prop :=
  ∃ w : Waiter, w.queued = true ∧ i ≤ w.request.number ∧ Carries T o w

def Due (T : Store V) (o i : ℕ) : Prop := ∃ r, (T.heap o).pending = some r ∧ i ≤ r.number

lemma stale_covered {running : Bool} {extra : ℕ} {r : Request}
    (h : RowKept statusAt time T running extra row) (hr : Fits T.made time row r)
    (hs : row.stale r = true) : Covered T r.number := by
  unfold StatusRow.stale at hs
  have hlt : r.seq < row.written_seq := of_decide_eq_true hs
  obtain ⟨c, hc, hn⟩ := h.landed (by omega)
  have := hr.number
  exact ⟨c, hc, by omega⟩

variable {i j : ℕ} {y : Waiter × Write V}

lemma Covered.mono (h : Covered T j) (hij : i ≤ j) (hc : T.commits ⊆ T'.commits) :
    Covered T' i := by
  obtain ⟨c, hmem, hle⟩ := h
  exact ⟨c, hc hmem, hij.trans hle⟩

lemma parties_view (h : row'.view = row.view) : row'.holder = row.holder ∧
    row'.waiters = row.waiters ∧ row'.pending = row.pending ∧ row'.task = row.task := view_iff.mp h

lemma loop_top_carries {r : Request} (h : Open statusAt time T o true 0) (hp : (T.heap o).pending = some r) :
    Covered (loop_top T o) r.number ∨ Carries (loop_top T o) o ⟨true, r⟩ := by
  rcases loop_top_cases T o with ⟨hnone, -⟩ | ⟨x, hx, ⟨-, hs, heq⟩ | ⟨-, heq⟩⟩
  · rw [hnone] at hp
    cases hp
  · obtain rfl := Option.some.inj (hx.symm.trans hp)
    refine .inl ((stale_covered h.row (h.row.fits x (mem_requests_pending hp)) hs).mono le_rfl ?_)
    rw [loop_top_commits]
    exact List.Subset.refl _
  · cases hx.symm.trans hp
    right
    rw [heq]
    unfold Carries
    rw [put_heap]
    cases hu : StatusRow.unlocked { T.heap o with pending := none, task := some Loop.writing } with
    | true =>
      rw [join_unlocked hu]
      exact .inr (.inl rfl)
    | false =>
      rw [join_locked hu]
      exact .inl (mem_append_right _ (mem_singleton_self _))

lemma loop_top_grows (h : (T.heap o).unlocked = false) :
    ((loop_top T o).heap o).holder = (T.heap o).holder ∧
      ∃ ws, ((loop_top T o).heap o).waiters = (T.heap o).waiters ++ ws := by
  have hend : ∀ S : Store V, ((loop_end S o).heap o).holder = (S.heap o).holder ∧
      ((loop_end S o).heap o).waiters = (S.heap o).waiters := by
    intro S
    obtain ⟨hh, hw, -⟩ := view_eq_iff.mp (loop_end_view S o)
    exact ⟨hh, hw⟩
  rcases loop_top_cases T o with ⟨-, heq⟩ | ⟨r, -, ⟨hfree, -, -⟩ | ⟨-, heq⟩⟩
  · rw [heq]
    exact ⟨(hend T).1, [], by rw [(hend T).2, append_nil]⟩
  · rw [h] at hfree
    cases hfree
  · have hu : StatusRow.unlocked { T.heap o with pending := none, task := some Loop.writing } =
        false := h
    rw [heq, put_heap, join_locked hu]
    exact ⟨rfl, _, rfl⟩

lemma Kept.table_of (h : Kept statusAt time T) (hne : ¬Inert (T.heap o)) : T.table = some o :=
  (h.open_of hne).table

lemma locked_of_mem (h : w ∈ row.waiters) : row.unlocked = false := by
  refine Bool.eq_false_iff.mpr fun hfree => ?_
  rw [(unlocked_iff.mp hfree).2] at h
  cases h

lemma locked_of_holder (h : row.holder = some y) :
    row.unlocked = false := by
  refine Bool.eq_false_iff.mpr fun hfree => ?_
  rw [(unlocked_iff.mp hfree).1] at h
  cases h

/-! ### Who waits for the lock gets it -/

def phase : Option (Waiter × Write V) → ℕ
  | none => 0
  | some (_, .connecting) => 3
  | some (_, .sent ..) => 2
  | some (_, .answered _) => 1

def Serves (T : Store V) (o : ℕ) (act : Act) : Prop :=
  (T.heap o).holder = none ∧ act = .take o ∨
    (T.heap o).holder ≠ none ∧ (act = .send o ∨ (∃ a, act = .reply o a) ∨ act = .finish o)

def distance (T : Store V) (o : ℕ) (w : Waiter) : ℕ :=
  4 * ((T.heap o).waiters.idxOf w + 1) + phase (T.heap o).holder

/-- A waiter stays in the queue and comes no further from the lock, and nearer by each step that
serves it. -/
def Nearer (T T' : Store V) (o : ℕ) (w : Waiter) (act : Act) : Prop :=
  w ∈ (T'.heap o).waiters ∧ distance T' o w ≤ distance T o w ∧
    (Serves T o act → distance T' o w < distance T o w)

lemma nearer_of_grows (hw : w ∈ (T.heap o).waiters) (hh : (T'.heap o).holder = (T.heap o).holder)
    (hws : ∃ ws, (T'.heap o).waiters = (T.heap o).waiters ++ ws) (hact : ¬Serves T o act) :
    Nearer T T' o w act := by
  obtain ⟨ws, hws⟩ := hws
  have hd : distance T' o w = distance T o w := by
    unfold distance
    rw [hh, hws, idxOf_append_of_mem hw]
  refine ⟨?_, hd.le, fun h => absurd h hact⟩
  rw [hws]
  exact mem_append_left _ hw

lemma nearer_of_phase (hw : w ∈ (T.heap o).waiters)
    (hh : phase (T'.heap o).holder < phase (T.heap o).holder)
    (hws : ∃ ws, (T'.heap o).waiters = (T.heap o).waiters ++ ws) : Nearer T T' o w act := by
  obtain ⟨ws, hws⟩ := hws
  have hd : distance T' o w < distance T o w := by
    unfold distance
    rw [hws, idxOf_append_of_mem hw]
    omega
  refine ⟨?_, hd.le, fun _ => hd⟩
  rw [hws]
  exact mem_append_left _ hw

lemma nearer_of_take {p : Waiter} {rest : List Waiter} (hw : w ∈ rest) (hp : p ≠ w)
    (hholder : (T.heap o).holder = none) (hwaiters : (T.heap o).waiters = p :: rest)
    (hh : phase (T'.heap o).holder ≤ 3)
    (hws : ∃ ws, (T'.heap o).waiters = rest ++ ws) : Nearer T T' o w act := by
  obtain ⟨ws, hws⟩ := hws
  have hd : distance T' o w < distance T o w := by
    unfold distance
    rw [hws, hholder, hwaiters, idxOf_append_of_mem hw, idxOf_cons_ne _ hp]
    change _ < 4 * (rest.idxOf w + 1 + 1) + 0
    omega
  refine ⟨?_, hd.le, fun _ => hd⟩
  rw [hws]
  exact mem_append_left _ hw

/-- The steps of the entry's lock. -/
def Act.locks : Act → Bool
  | .take _ | .send _ | .reply _ _ | .finish _ => true
  | _ => false

lemma not_serves (hl : act.locks = false) : ¬Serves T o act := by
  rintro (⟨-, rfl⟩ | ⟨-, rfl | ⟨a, rfl⟩ | rfl⟩) <;> cases hl

lemma resume_table {task : Loop} (h : Kept statusAt time T) (hT : resume T o task = some T') :
    T.table = some o ∧ (T.heap o).task = some task ∧ T' = loop_top T o := by
  unfold resume at hT
  split at hT
  · rename_i ht
    exact ⟨h.table_of (fun hi => by rw [hi.task] at ht; cases ht), ht, (Option.some.inj hT).symm⟩
  · cases hT

lemma take_table (h : Kept statusAt time T) (hT : take_lock T o = some T') : T.table = some o := by
  obtain ⟨-, w, rest, hwaiters, -⟩ := take_lock_cases hT
  exact h.table_of fun hi => by rw [hi.waiters] at hwaiters; exact nomatch hwaiters

lemma holder_table (h : Kept statusAt time T)
    (hy : (T.heap o).holder = some y) : T.table = some o :=
  h.table_of fun hi => by rw [hi.holder] at hy; exact nomatch hy

lemma send_cases (hT : send statusAt time T o = some T') : ∃ w,
    (T.heap o).holder = some (w, .connecting) ∧ T' = T.put o { T.heap o with
      holder := some (w, .sent (statusAt time w.request.status) time) } := by
  unfold send at hT
  split at hT
  · rename_i w hholder
    exact ⟨w, hholder, (Option.some.inj hT).symm⟩
  · cases hT

lemma reply_cases {answer : Answer} (hT : reply T o answer = some T') : ∃ w x,
    (T.heap o).holder = some (w, x) ∧ (x = .connecting ∨ ∃ v t, x = .sent v t) ∧
      (T'.heap = (T.put o { T.heap o with holder := some (w, .answered answer) }).heap) ∧
        (answer = .gone → T.present = false) ∧ T.commits ⊆ T'.commits ∧
          T'.present = T.present := by
  unfold reply at hT
  split at hT
  · rename_i w hholder
    split at hT
    · rename_i ha
      cases hT
      subst ha
      exact ⟨w, _, hholder, .inl rfl, rfl, nofun, List.Subset.refl _, rfl⟩
    · cases hT
  · rename_i w value read hholder
    cases answer with
    | stored =>
      simp only at hT
      split at hT
      · cases hT
        exact ⟨w, _, hholder, .inr ⟨_, _, rfl⟩, rfl, nofun, subset_append_left _ _, rfl⟩
      · cases hT
    | transient =>
      cases hT
      exact ⟨w, _, hholder, .inr ⟨_, _, rfl⟩, rfl, nofun, List.Subset.refl _, rfl⟩
    | gone =>
      simp only at hT
      split at hT
      · cases hT
      · rename_i hp
        cases hT
        exact ⟨w, _, hholder, .inr ⟨_, _, rfl⟩, rfl, fun _ => Bool.eq_false_iff.mpr hp, List.Subset.refl _, rfl⟩
  · cases hT

lemma request_grows (h : Kept statusAt time T) (hlocked : (T.heap o).unlocked = false)
    (hact : (∃ s, act = .queue s) ∨ ∃ s, act = .await s)
    (hT : step statusAt time T act = some T') :
    (T'.heap o).holder = (T.heap o).holder ∧ ∃ ws, (T'.heap o).waiters = (T.heap o).waiters ++ ws := by
  have htable : T.table = some o := h.table_of fun hi => by
    rw [unlocked_iff.mpr ⟨hi.holder, hi.waiters⟩] at hlocked
    cases hlocked
  have ho := status_row_some htable
  have hview := status_row_view T
  rw [ho, if_pos htable] at hview
  obtain ⟨hh, hw, -, -⟩ := parties_view hview
  rcases hact with ⟨status, rfl⟩ | ⟨status, rfl⟩
  · cases hT
    obtain ⟨r, -, hr⟩ := queue_view T status time
    rw [ho] at hr
    unfold StatusRow.view at hr
    obtain ⟨hh', hrest⟩ := Prod.mk.inj hr
    exact ⟨hh'.trans hh, [], by rw [(Prod.mk.inj hrest).1, hw, append_nil]⟩
  · cases hT
    obtain ⟨r, -, hr⟩ := await_view h status
    rw [ho] at hr
    have hu : ((status_row T).2.heap o).unlocked = false := by
      unfold StatusRow.unlocked at hlocked ⊢
      rw [hh, hw]
      exact hlocked
    rw [join_locked hu] at hr
    obtain ⟨hh', hw', -, -⟩ := parties_view hr
    exact ⟨hh'.trans hh, [⟨false, r⟩], by rw [hw']; exact congrArg (· ++ _) hw⟩

/-- Any other step leaves the holder of a locked entry, and its waiters in their order. -/
lemma other_grows (h : Kept statusAt time T) (hlocked : (T.heap o).unlocked = false)
    (hl : act.locks = false) (hT : step statusAt time T act = some T') :
    (T'.heap o).holder = (T.heap o).holder ∧ ∃ ws, (T'.heap o).waiters = (T.heap o).waiters ++ ws := by
  have htable : T.table = some o := h.table_of fun hi => by
    rw [unlocked_iff.mpr ⟨hi.holder, hi.waiters⟩] at hlocked
    cases hlocked
  cases act with
  | queue status => exact request_grows h hlocked (.inl ⟨status, rfl⟩) hT
  | await status => exact request_grows h hlocked (.inr ⟨status, rfl⟩) hT
  | start p | wake p =>
    obtain ⟨hp, -, rfl⟩ := resume_table h hT
    obtain rfl := Option.some.inj (hp.symm.trans htable)
    exact loop_top_grows hlocked
  | create | delete | other =>
    cases hT
    exact ⟨rfl, [], (append_nil _).symm⟩
  | take | send | reply | finish => cases hl

lemma wait_step (h : Kept statusAt time T)
    (hT : step statusAt time T act = some T') (hw : w ∈ (T.heap o).waiters) :
    (act = .take o ∧ (T.heap o).holder = none ∧ ∃ rest, (T.heap o).waiters = w :: rest) ∨ Nearer T T' o w act := by
  have hlocked := locked_of_mem hw
  have htable : T.table = some o := h.table_of fun hi => by
    rw [hi.waiters] at hw
    cases hw
  have hsame : ∀ {p : ℕ}, T.table = some p → p = o := fun hp =>
    Option.some.inj (hp.symm.trans htable)
  by_cases hl : act.locks = false
  · obtain ⟨hh, hws⟩ := other_grows h hlocked hl hT
    exact .inr (nearer_of_grows hw hh hws (not_serves hl))
  cases act with
  | queue | await | start | wake | create | delete | other => exact absurd rfl hl
  | take p =>
    obtain rfl := hsame (take_table h hT)
    obtain ⟨hholder, q, rest, hwaiters, hcases⟩ := take_lock_cases hT
    by_cases hq : q = w
    · subst hq
      exact .inl ⟨rfl, hholder, rest, hwaiters⟩
    · rw [hwaiters] at hw
      have hw' : w ∈ rest := (mem_cons.mp hw).resolve_left fun heq => hq heq.symm
      right
      rcases hcases with ⟨-, rfl⟩ | ⟨-, rfl⟩
      · split
        · have hl : ((T.put p { T.heap p with waiters := rest }).heap p).unlocked = false := by
            rw [put_heap]
            exact locked_of_mem hw'
          obtain ⟨hh, ws, hws⟩ := loop_top_grows hl
          rw [put_heap] at hh hws
          refine nearer_of_take hw' hq hholder hwaiters ?_ ⟨ws, hws⟩
          rw [hh]
          change phase (T.heap p).holder ≤ 3
          rw [hholder]
          exact Nat.zero_le _
        · have hview := release_view (T.put p { T.heap p with waiters := rest }) p p
          obtain ⟨hh, hws, -, -⟩ := parties_view hview
          rw [put_heap] at hh hws
          refine nearer_of_take hw' hq hholder hwaiters ?_ ⟨[], by rw [hws, append_nil]⟩
          rw [hh]
          change phase (T.heap p).holder ≤ 3
          rw [hholder]
          exact Nat.zero_le _
      · refine nearer_of_take hw' hq hholder hwaiters ?_ ⟨[], by rw [put_heap, append_nil]⟩
        rw [put_heap]
        exact le_rfl
  | send p =>
    obtain ⟨q, hholder, rfl⟩ := send_cases hT
    obtain rfl := hsame (holder_table h hholder)
    refine .inr (nearer_of_phase hw ?_ ⟨[], by rw [put_heap, append_nil]⟩)
    rw [put_heap, hholder]
    exact Nat.lt_succ_self _
  | reply p answer =>
    obtain ⟨q, x, hholder, hx, hheap, -⟩ := reply_cases hT
    obtain rfl := hsame (holder_table h hholder)
    refine .inr (nearer_of_phase hw ?_ ⟨[], by rw [hheap, put_heap, append_nil]⟩)
    rw [hheap, put_heap, hholder]
    rcases hx with rfl | ⟨v, t, rfl⟩
    · exact Nat.one_lt_succ_succ 1
    · exact Nat.lt_succ_self _
  | finish p =>
    obtain ⟨q, answer, hholder, rfl⟩ := finish_cases hT
    obtain rfl := hsame (holder_table h hholder)
    right
    have hphase : ∀ {T' : Store V}, (T'.heap p).holder = none →
        phase (T'.heap p).holder < phase (T.heap p).holder := by
      intro T' hnone
      rw [hnone, hholder]
      exact Nat.lt_succ_self _
    have hloop : ∀ row : StatusRow V, row.holder = none → row.waiters = (T.heap p).waiters →
        Nearer T (loop_top (T.put p row) p) p w (.finish p) := by
      intro row hh hws
      have hl : ((T.put p row).heap p).unlocked = false := by
        rw [put_heap]
        exact locked_of_mem (hws ▸ hw)
      obtain ⟨hh', hws'⟩ := loop_top_grows hl
      rw [put_heap] at hh' hws'
      rw [hws] at hws'
      exact nearer_of_phase hw (hphase (hh'.trans hh)) hws'
    have hleave : ∀ {row : StatusRow V} {T' : Store V}, row.holder = none →
        row.waiters = (T.heap p).waiters → (T'.heap p).holder = row.holder →
          (T'.heap p).waiters = row.waiters → Nearer T T' p w (.finish p) := by
      intro row T' hh hws hh' hws'
      exact nearer_of_phase hw (hphase (hh'.trans hh)) ⟨[], by rw [hws', hws, append_nil]⟩
    have hrelease : ∀ row : StatusRow V, row.holder = none → row.waiters = (T.heap p).waiters →
        Nearer T (release (T.put p row) p) p w (.finish p) := by
      intro row hh hws
      obtain ⟨hh', hws', -, -⟩ := parties_view (release_view (T.put p row) p p)
      rw [put_heap] at hh' hws'
      exact hleave hh hws hh' hws'
    cases answer with
    | stored =>
      simp only
      split
      · exact hloop _ rfl rfl
      · exact hrelease _ rfl rfl
    | transient =>
      simp only
      split
      · exact nearer_of_phase hw (hphase (by rw [put_heap])) ⟨[], by rw [put_heap, append_nil]⟩
      · exact hrelease _ rfl rfl
    | gone =>
      simp only
      split
      · unfold loop_end
        rw [put_put, put_heap]
        exact hrelease _ rfl rfl
      · exact hrelease _ rfl rfl

lemma hold_step {x : Write V} (h : Kept statusAt time T)
    (hT : step statusAt time T act = some T') (hh : (T.heap o).holder = some (w, x)) :
    (act = .finish o ∧ ∃ a, x = .answered a) ∨ ∃ x', (T'.heap o).holder = some (w, x') ∧
      ((x' = x ∧ ¬Serves T o act) ∨ (x = .connecting ∧ ∃ v t, x' = .sent v t) ∨
        ∃ a, act = .reply o a ∧ x' = .answered a ∧ phase (some (w, x')) < phase (some (w, x)) ∧
          (a = .gone → T.present = false)) := by
  have hlocked := locked_of_holder hh
  have htable := holder_table h hh
  have hsame : ∀ {p : ℕ}, T.table = some p → p = o := fun hp =>
    Option.some.inj (hp.symm.trans htable)
  by_cases hl : act.locks = false
  · exact .inr ⟨x, (other_grows h hlocked hl hT).1.trans hh, .inl ⟨rfl, not_serves hl⟩⟩
  cases act with
  | queue | await | start | wake | create | delete | other => exact absurd rfl hl
  | take p =>
    obtain rfl := hsame (take_table h hT)
    obtain ⟨hnone, -⟩ := take_lock_cases hT
    rw [hnone] at hh
    cases hh
  | send p =>
    obtain ⟨q, hholder, rfl⟩ := send_cases hT
    obtain rfl := hsame (holder_table h hholder)
    obtain ⟨rfl, rfl⟩ := Prod.mk.inj (Option.some.inj (hholder.symm.trans hh))
    exact .inr ⟨_, by rw [put_heap], .inr (.inl ⟨rfl, _, _, rfl⟩)⟩
  | reply p answer =>
    obtain ⟨q, y, hholder, hy, hheap, hgone, -⟩ := reply_cases hT
    obtain rfl := hsame (holder_table h hholder)
    obtain ⟨rfl, rfl⟩ := Prod.mk.inj (Option.some.inj (hholder.symm.trans hh))
    refine .inr ⟨.answered answer, by rw [hheap, put_heap], .inr (.inr ⟨answer, rfl, rfl, ?_, hgone⟩)⟩
    rcases hy with rfl | ⟨v, t, rfl⟩
    · exact Nat.one_lt_succ_succ 1
    · exact Nat.lt_succ_self _
  | finish p =>
    obtain ⟨q, answer, hholder, -⟩ := finish_cases hT
    obtain rfl := hsame (holder_table h hholder)
    obtain ⟨-, rfl⟩ := Prod.mk.inj (Option.some.inj (hholder.symm.trans hh))
    exact .inl ⟨rfl, answer, rfl⟩

/-! ### What is asked for is not forgotten -/

/-- A request of the row or a later one is pending or in the hands of the loop. -/
def Owed (T : Store V) (o i : ℕ) : Prop :=
  Due T o i ∨ ∃ w ∈ (T.heap o).parties, w.queued = true ∧ i ≤ w.request.number

def Clear (T : Store V) (o : ℕ) : Prop :=
  ∀ w : Waiter, w.queued = true → (T.heap o).holder ≠ some (w, .answered .gone)

lemma step_commits (hT : step statusAt time T act = some T') :
    T.commits ⊆ T'.commits := by
  have hrow : (status_row T).2.commits = T.commits := by
    unfold status_row
    split <;> rfl
  have hsub : ∀ {S : Store V}, S.commits = T.commits → T.commits ⊆ S.commits := fun heq =>
    heq ▸ List.Subset.refl _
  cases act with
  | queue status =>
    cases hT
    unfold queue_status_write
    simp only
    split
    · exact hsub ((release_commits ..).trans hrow)
    · exact hsub hrow
  | await status =>
    cases hT
    unfold write_status
    simp only
    split
    · split
      · exact hsub ((release_commits ..).trans hrow)
      · exact hsub hrow
    · exact hsub hrow
  | start p =>
    change resume T p .starting = some T' at hT
    unfold resume at hT
    split at hT
    · cases hT
      exact hsub (loop_top_commits T p)
    · cases hT
  | wake p =>
    change resume T p .sleeping = some T' at hT
    unfold resume at hT
    split at hT
    · cases hT
      exact hsub (loop_top_commits T p)
    · cases hT
  | take p =>
    obtain ⟨-, w, rest, -, ⟨-, rfl⟩ | ⟨-, rfl⟩⟩ := take_lock_cases hT
    · split
      · exact hsub (loop_top_commits _ p)
      · exact hsub (release_commits _ p)
    · exact List.Subset.refl _
  | send p =>
    obtain ⟨w, -, rfl⟩ := send_cases hT
    exact List.Subset.refl _
  | reply p answer =>
    obtain ⟨w, x, -, -, -, -, hc, -⟩ := reply_cases hT
    exact hc
  | finish p =>
    obtain ⟨w, answer, -, rfl⟩ := finish_cases hT
    cases answer with
    | stored =>
      simp only
      split
      · exact hsub (loop_top_commits _ p)
      · exact hsub (release_commits _ p)
    | transient =>
      simp only
      split
      · exact List.Subset.refl _
      · exact hsub (release_commits _ p)
    | gone =>
      simp only
      split
      · exact hsub (loop_end_commits _ p)
      · exact hsub (release_commits _ p)
  | create | delete | other =>
    cases hT
    exact List.Subset.refl _

lemma loop_top_holder (T : Store V) (o : ℕ) :
    ((loop_top T o).heap o).holder = (T.heap o).holder ∨ ∃ w, ((loop_top T o).heap o).holder = some (w, .connecting) := by
  have hend : ∀ S : Store V, ((loop_end S o).heap o).holder = (S.heap o).holder := fun S =>
    (Prod.mk.inj (loop_end_view S o)).1
  rcases loop_top_cases T o with ⟨-, heq⟩ | ⟨r, -, ⟨-, -, heq⟩ | ⟨-, heq⟩⟩
  · rw [heq]
    exact .inl (hend T)
  · rw [heq, hend, put_heap]
    exact .inl rfl
  · rw [heq, put_heap]
    cases hu : StatusRow.unlocked { T.heap o with pending := none, task := some Loop.writing } with
    | true =>
      rw [join_unlocked hu]
      exact .inr ⟨_, rfl⟩
    | false =>
      rw [join_locked hu]
      exact .inl rfl

lemma answered_step {a : Answer} (h : Kept statusAt time T)
    (hT : step statusAt time T act = some T') (htable : T.table = some o)
    (hh : (T'.heap o).holder = some (w, .answered a)) :
    (T.heap o).holder = some (w, .answered a) ∨ act = .reply o a ∧ (a = .gone → T.present = false) := by
  have hsame : ∀ {p : ℕ}, T.table = some p → p = o := fun hp =>
    Option.some.inj (hp.symm.trans htable)
  have hfrom : ∀ {y : Option (Waiter × Write V)}, (T'.heap o).holder = y ∨
      (∃ q, (T'.heap o).holder = some (q, .connecting)) → y = some (w, .answered a) := by
    rintro y (hy | ⟨q, hq⟩)
    · exact hy.symm.trans hh
    · rw [hq] at hh
      cases (Prod.mk.inj (Option.some.inj hh)).2
  have ho := status_row_some htable
  have hview := status_row_view T
  rw [ho, if_pos htable] at hview
  obtain ⟨hh0, -, -, -⟩ := parties_view hview
  cases act with
  | queue status =>
    cases hT
    obtain ⟨r, -, hr⟩ := queue_view T status time
    rw [ho] at hr
    exact .inl (hfrom (.inl ((Prod.mk.inj hr).1.trans hh0)))
  | await status =>
    cases hT
    obtain ⟨r, -, hr⟩ := await_view h status
    rw [ho] at hr
    obtain ⟨hr', -, -, -⟩ := parties_view hr
    left
    cases hu : ((status_row T).2.heap o).unlocked with
    | true =>
      rw [join_unlocked hu] at hr'
      exact hfrom (.inr ⟨_, hr'⟩)
    | false =>
      rw [join_locked hu] at hr'
      exact hfrom (.inl (hr'.trans hh0))
  | start p | wake p =>
    obtain ⟨hp, -, rfl⟩ := resume_table h hT
    obtain rfl := hsame hp
    exact .inl (hfrom (loop_top_holder T p))
  | take p =>
    obtain rfl := hsame (take_table h hT)
    obtain ⟨hnone, q, rest, -, ⟨-, heq⟩ | ⟨-, heq⟩⟩ := take_lock_cases hT
    · split at heq
      · have hl := loop_top_holder (T.put p { T.heap p with waiters := rest }) p
        rw [← heq, put_heap] at hl
        exact .inl (hfrom hl)
      · obtain ⟨hr, -⟩ := parties_view (release_view (T.put p { T.heap p with waiters := rest }) p p)
        rw [← heq, put_heap] at hr
        exact .inl (hfrom (.inl hr))
    · exact .inl (hfrom (.inr ⟨q, by rw [heq, put_heap]⟩))
  | send p =>
    obtain ⟨q, hholder, rfl⟩ := send_cases hT
    obtain rfl := hsame (holder_table h hholder)
    rw [put_heap] at hh
    cases (Prod.mk.inj (Option.some.inj hh)).2
  | reply p answer =>
    obtain ⟨q, y, hholder, -, hheap, hgone, -⟩ := reply_cases hT
    obtain rfl := hsame (holder_table h hholder)
    rw [hheap, put_heap] at hh
    obtain ⟨-, ha⟩ := Prod.mk.inj (Option.some.inj hh)
    obtain rfl := Write.answered.inj ha
    exact .inr ⟨rfl, hgone⟩
  | finish p =>
    obtain ⟨q, answer, hholder, heq⟩ := finish_cases hT
    obtain rfl := hsame (holder_table h hholder)
    have hloop : ∀ row : StatusRow V, row.holder = none → T' = loop_top (T.put p row) p → False := by
      intro row hrow heq
      have hl := loop_top_holder (T.put p row) p
      rw [← heq, put_heap, hrow] at hl
      cases hfrom hl
    have hrelease : ∀ row : StatusRow V, row.holder = none →
        T'.heap = (release (T.put p row) p).heap → False := by
      intro row hrow heq
      obtain ⟨hr, -⟩ := parties_view (release_view (T.put p row) p p)
      rw [put_heap, ← heq, hrow] at hr
      cases hfrom (.inl hr)
    exfalso
    cases answer with
    | stored =>
      simp only at heq
      split at heq
      · exact hloop _ rfl heq
      · exact hrelease _ rfl (congrArg Store.heap heq)
    | transient =>
      simp only at heq
      split at heq
      · cases hfrom (.inl (by rw [heq, put_heap]))
      · exact hrelease { T.heap p with holder := none } rfl (by rw [heq])
    | gone =>
      simp only at heq
      split at heq
      · unfold loop_end at heq
        rw [put_put, put_heap] at heq
        exact hrelease _ rfl (congrArg Store.heap heq)
      · exact hrelease { T.heap p with holder := none } rfl (by rw [heq])
  | create | delete | other =>
    cases hT
    exact .inl hh

lemma mem_parties_of_carries (h : Carries T o w) : w ∈ (T.heap o).parties := by
  rcases h with h | h | ⟨v, t, h⟩
  · exact mem_append_right _ h
  · rw [parties_of_holder h]
    exact mem_cons_self
  · rw [parties_of_holder h]
    exact mem_cons_self

lemma loop_top_due (h : Open statusAt time T o true 0) (hdue : Due T o i) :
    Covered (loop_top T o) i ∨ Carried (loop_top T o) o i := by
  obtain ⟨r, hr, hir⟩ := hdue
  rcases loop_top_carries h hr with hc | hc
  · exact .inl (hc.mono hir (List.Subset.refl _))
  · exact .inr ⟨⟨true, r⟩, rfl, hir, hc⟩

lemma Carried.owed (h : Carried T o i) : Owed T o i := by
  obtain ⟨w, hq, hi, hc⟩ := h
  exact .inr ⟨w, mem_parties_of_carries hc, hq, hi⟩

lemma due_step (h : Kept statusAt time T)
    (hT : step statusAt time T act = some T') (hclear : Clear T o) (hi : i ≤ T.made)
    (hdue : Due T o i) : Covered T' i ∨ Carried T' o i ∨ Due T' o i := by
  obtain ⟨r, hr, hir⟩ := hdue
  have htable : T.table = some o := h.table_of fun hin => by
    rw [hin.pending] at hr
    cases hr
  have hsame : ∀ {p : ℕ}, T.table = some p → p = o := fun hp =>
    Option.some.inj (hp.symm.trans htable)
  have hkeep : (T'.heap o).pending = (T.heap o).pending →
      Covered T' i ∨ Carried T' o i ∨ Due T' o i := fun heq =>
    .inr (.inr ⟨r, heq.trans hr, hir⟩)
  have hloop : ∀ {S : Store V}, Open statusAt time S o true 0 → (S.heap o).pending = some r →
      T' = loop_top S o → Covered T' i ∨ Carried T' o i ∨ Due T' o i := by
    rintro S hopen hp rfl
    exact (loop_top_due hopen ⟨r, hp, hir⟩).imp_right .inl
  have hrelease : ∀ row : StatusRow V, row.pending = some r →
      T'.heap = (release (T.put o row) o).heap → Covered T' i ∨ Carried T' o i ∨ Due T' o i := by
    intro row hrow heq
    obtain ⟨-, -, hp, -⟩ := parties_view (release_view (T.put o row) o o)
    rw [put_heap, ← heq, hrow] at hp
    exact .inr (.inr ⟨r, hp, hir⟩)
  have ho := status_row_some htable
  have hview := status_row_view T
  rw [ho, if_pos htable] at hview
  obtain ⟨-, -, hp0, -⟩ := parties_view hview
  cases act with
  | queue status =>
    cases hT
    obtain ⟨x, hx, hv⟩ := queue_view T status time
    rw [ho] at hv
    obtain ⟨-, hv⟩ := Prod.mk.inj hv
    obtain ⟨-, hv⟩ := Prod.mk.inj hv
    exact .inr (.inr ⟨x, (Prod.mk.inj hv).1, by omega⟩)
  | await status =>
    cases hT
    obtain ⟨x, -, hv⟩ := await_view h status
    rw [ho] at hv
    obtain ⟨-, -, hv, -⟩ := parties_view hv
    exact hkeep (hv.trans ((join_fields _ _).1.trans hp0))
  | start p =>
    obtain ⟨hp, ht, heq⟩ := resume_table h hT
    obtain rfl := hsame hp
    have hne : Loop.starting ≠ .writing := nofun
    exact hloop (resume_open h hne ht) hr heq
  | wake p =>
    obtain ⟨hp, ht, heq⟩ := resume_table h hT
    obtain rfl := hsame hp
    have hne : Loop.sleeping ≠ .writing := nofun
    exact hloop (resume_open h hne ht) hr heq
  | take p =>
    obtain rfl := hsame (take_table h hT)
    obtain ⟨hnone, q, rest, hwaiters, ⟨-, heq⟩ | ⟨-, heq⟩⟩ := take_lock_cases hT
    · have hopen := take_stale_open h hnone hwaiters
      split at heq
      · rename_i hq
        rw [hq] at hopen
        exact hloop hopen (by rw [put_heap]; exact hr) heq
      · refine hrelease _ ?_ (congrArg Store.heap heq)
        exact hr
    · exact hkeep (by rw [heq, put_heap])
  | send p =>
    obtain ⟨q, hholder, heq⟩ := send_cases hT
    obtain rfl := hsame (holder_table h hholder)
    exact hkeep (by rw [heq, put_heap])
  | reply p answer =>
    obtain ⟨q, y, hholder, -, hheap, -⟩ := reply_cases hT
    obtain rfl := hsame (holder_table h hholder)
    exact hkeep (by rw [hheap, put_heap])
  | finish p =>
    obtain ⟨q, answer, hholder, heq⟩ := finish_cases hT
    obtain rfl := hsame (holder_table h hholder)
    cases answer with
    | stored =>
      simp only at heq
      split at heq
      · rename_i hq
        have hopen := finish_stored_open h hholder
        rw [hq] at hopen
        exact hloop hopen (by rw [put_heap]; exact hr) heq
      · refine hrelease _ ?_ (congrArg Store.heap heq)
        exact hr
    | transient =>
      simp only at heq
      split at heq
      · refine hkeep ?_
        rw [heq, put_heap, hr]
        rfl
      · exact hrelease { T.heap p with holder := none } hr (by rw [heq])
    | gone =>
      simp only at heq
      split at heq
      · rename_i hq
        exact absurd hholder (hclear q hq)
      · exact hrelease { T.heap p with holder := none } hr (by rw [heq])
  | create | delete | other =>
    cases hT
    exact hkeep rfl

lemma finish_transient (h : Kept statusAt time T) (hq : w.queued = true)
    (hholder : (T.heap o).holder = some (w, .answered .transient))
    (hT : finish T o = some T') : Due T' o w.request.number ∧ (T'.heap o).task = some .sleeping := by
  obtain ⟨q, answer, hh, heq⟩ := finish_cases hT
  obtain ⟨rfl, ha⟩ := Prod.mk.inj (Option.some.inj (hh.symm.trans hholder))
  obtain rfl := Write.answered.inj ha
  simp only [hq, if_true] at heq
  have hopen := h.open_of (o := o) fun hi => by rw [hi.holder] at hholder; exact nomatch hholder
  have hmem : q ∈ (T.heap o).parties := by
    rw [parties_of_holder hholder]
    exact mem_cons_self
  rw [heq]
  unfold Due
  rw [put_heap]
  refine ⟨?_, rfl⟩
  cases hp : (T.heap o).pending with
  | none => exact ⟨q.request, rfl, le_rfl⟩
  | some r =>
    have hseq := hopen.row.newer r hp q hmem hq
    have h1 := (hopen.row.fits r (mem_requests_pending hp)).number
    have h2 := (hopen.row.fits _ (mem_requests_parties hmem)).number
    exact ⟨r, rfl, by omega⟩

lemma holder_of_parties (hw : w ∈ row.parties)
    (hne : w ∉ row.waiters) : ∃ x, row.holder = some (w, x) := by
  rcases mem_append.mp hw with hh | hh
  · cases hholder : row.holder with
    | none =>
      rw [hholder] at hh
      cases hh
    | some y =>
      rw [hholder] at hh
      obtain rfl := mem_singleton.mp hh
      exact ⟨y.2, rfl⟩
  · exact absurd hh hne

lemma carried_step (h : Kept statusAt time T)
    (hT : step statusAt time T act = some T') (hclear : Clear T o)
    (hw : w ∈ (T.heap o).parties) (hq : w.queued = true) :
    Covered T' w.request.number ∨ w ∈ (T'.heap o).parties ∨ Due T' o w.request.number := by
  have hcommits := step_commits hT
  have hopen := h.open_of (o := o) fun hi => by
    unfold StatusRow.parties at hw
    rw [hi.holder, hi.waiters] at hw
    cases hw
  by_cases hw' : w ∉ (T.heap o).waiters
  · obtain ⟨x, hx⟩ := holder_of_parties hw hw'
    rcases hold_step h hT hx with ⟨rfl, a, rfl⟩ | ⟨x', hx', -⟩
    · cases a with
      | stored =>
        obtain ⟨c, hc, hcr⟩ := hopen.row.stored w hx
        exact .inl ⟨c, hcommits hc, by rw [hcr]⟩
      | transient => exact .inr (.inr (finish_transient h hq hx hT).1)
      | gone => exact absurd hx (hclear w hq)
    · exact .inr (.inl (by rw [parties_of_holder hx']; exact mem_cons_self))
  · rcases wait_step h hT (not_not.mp hw') with ⟨rfl, hnone, rest, hwaiters⟩ | ⟨hmem, -⟩
    · obtain ⟨-, q, rest', hwaiters', hcases⟩ := take_lock_cases hT
      obtain ⟨rfl, rfl⟩ := List.cons.inj (hwaiters'.symm.trans hwaiters)
      rcases hcases with ⟨hs, -⟩ | ⟨-, rfl⟩
      · have hfit := hopen.row.fits _ (mem_requests_parties hw)
        exact .inl ((stale_covered hopen.row hfit hs).mono le_rfl hcommits)
      · refine .inr (.inl ?_)
        rw [put_heap]
        exact mem_cons_self
    · exact .inr (.inl (mem_append_right _ hmem))

lemma owed_step (h : Kept statusAt time T)
    (hT : step statusAt time T act = some T') (hpresent : T.present = true) (hi : i ≤ T.made)
    (hclear : Clear T o) (howed : Owed T o i) : Covered T' i ∨ Owed T' o i ∧ Clear T' o := by
  have htable : T.table = some o := by
    refine h.table_of fun hin => ?_
    rcases howed with ⟨r, hr, -⟩ | ⟨w, hw, -⟩
    · rw [hin.pending] at hr
      cases hr
    · unfold StatusRow.parties at hw
      rw [hin.holder, hin.waiters] at hw
      cases hw
  have hclear' : Clear T' o := by
    intro w hq hh
    rcases answered_step h hT htable hh with hh | ⟨-, hgone⟩
    · exact hclear w hq hh
    · rw [hgone rfl] at hpresent
      cases hpresent
  rcases howed with hdue | ⟨w, hw, hq, hiw⟩
  · rcases due_step h hT hclear hi hdue with hc | hc | hc
    · exact .inl hc
    · exact .inr ⟨hc.owed, hclear'⟩
    · exact .inr ⟨.inl hc, hclear'⟩
  · rcases carried_step h hT hclear hw hq with hc | hc | ⟨r, hr, hle⟩
    · exact .inl (hc.mono hiw (List.Subset.refl _))
    · exact .inr ⟨.inr ⟨w, hc, hq, hiw⟩, hclear'⟩
    · exact .inr ⟨.inl ⟨r, hr, hiw.trans hle⟩, hclear'⟩

end

end CloudServer.StatusWrites
