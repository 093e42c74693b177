import CloudServer.StatusWrites

/-! What every step of the status writes keeps: one entry is in use, its users are counted, the
requests are numbered as they are made and committed in that order. -/
namespace CloudServer.StatusWrites

open List

variable {V : Type}

def StatusRow.parties (row : StatusRow V) : List Waiter :=
  (row.holder.map Prod.fst).toList ++ row.waiters

def StatusRow.awaited (row : StatusRow V) : ℕ := row.parties.countP fun w => !w.queued

def StatusRow.loops (row : StatusRow V) : ℕ := row.parties.countP fun w => w.queued

def StatusRow.requests (row : StatusRow V) : List Request :=
  row.parties.map (·.request) ++ row.pending.toList

structure Inert (row : StatusRow V) : Prop where
  holder : row.holder = none
  waiters : row.waiters = []
  pending : row.pending = none
  task : row.task = none

structure Fits (made time : ℕ) (row : StatusRow V) (r : Request) : Prop where
  seq : r.seq ≤ row.seq
  number : r.number + row.seq = made + r.seq
  made : r.made ≤ time

/-- The entry of the table. While the loop runs it is at no place of the lock; `extra` users are
between the table and the lock. -/
structure RowKept (statusAt : ℕ → ℕ → V) (time : ℕ) (T : Store V) (running : Bool) (extra : ℕ)
    (row : StatusRow V) : Prop where
  users : row.users = row.awaited + (if row.task = none then 0 else 1) + extra
  idle : row.task = none → row.pending = none
  loop : row.loops = if row.task = some .writing ∧ running = false then 1 else 0
  run : running = true → row.task ≠ none
  fits : ∀ r ∈ row.requests, Fits T.made time row r
  written : row.written_seq ≤ row.seq
  count : row.seq ≤ T.made
  fresh : ∀ w x, row.holder = some (w, x) → row.written_seq ≤ w.request.seq
  sent : ∀ w v t, row.holder = some (w, .sent v t) →
    v = statusAt t w.request.status ∧ w.request.made ≤ t
  stored : ∀ w, row.holder = some (w, .answered .stored) → ∃ c ∈ T.commits, c.request = w.request
  bound : ∀ c ∈ T.commits, c.request.number + row.seq ≤ T.made + row.written_seq ∨
    ∃ w, row.holder = some (w, .answered .stored) ∧ c.request.number ≤ w.request.number
  landed : 0 < row.written_seq →
    ∃ c ∈ T.commits, c.request.number + row.seq = T.made + row.written_seq
  newer : ∀ r, row.pending = some r → ∀ w ∈ row.parties, w.queued = true → w.request.seq ≤ r.seq

structure CommitsKept (statusAt : ℕ → ℕ → V) (T : Store V) : Prop where
  order : T.commits.Pairwise fun c d => c.request.number ≤ d.request.number
  value : ∀ c ∈ T.commits, c.value = statusAt c.read c.request.status ∧ c.request.made ≤ c.read
  made : ∀ c ∈ T.commits, c.request.number ≤ T.made

structure Kept (statusAt : ℕ → ℕ → V) (time : ℕ) (T : Store V) : Prop where
  commits : CommitsKept statusAt T
  inert : ∀ o, T.table ≠ some o → Inert (T.heap o)
  row : ∀ o, T.table = some o → RowKept statusAt time T false 0 (T.heap o)

structure Open (statusAt : ℕ → ℕ → V) (time : ℕ) (T : Store V) (o : ℕ) (running : Bool)
    (extra : ℕ) : Prop where
  commits : CommitsKept statusAt T
  table : T.table = some o
  inert : ∀ o', o' ≠ o → Inert (T.heap o')
  row : RowKept statusAt time T running extra (T.heap o)

section
variable {statusAt : ℕ → ℕ → V} {time : ℕ} {T T' : Store V} {o extra : ℕ} {running : Bool}
  {row row' : StatusRow V} {r : Request}

@[simp]
lemma put_heap : (T.put o row).heap o = row := Function.update_self ..

lemma put_heap_ne {o' : ℕ} (h : o' ≠ o) : (T.put o row).heap o' = T.heap o' :=
  Function.update_of_ne h ..

@[simp]
lemma put_put : (T.put o row).put o row' = T.put o row' := by
  unfold Store.put
  simp only [Function.update_idem]

lemma Fits.congr {made : ℕ} (h : Fits made time row r) (hs : row'.seq = row.seq) :
    Fits made time row' r :=
  ⟨hs ▸ h.seq, hs ▸ h.number, h.made⟩

lemma RowKept.congr (h : RowKept statusAt time T running extra row) (hm : T'.made = T.made)
    (hc : T'.commits = T.commits) : RowKept statusAt time T' running extra row := by
  refine { h with fits := ?_, count := ?_, stored := ?_, bound := ?_, landed := ?_ }
  · rw [hm]
    exact h.fits
  · rw [hm]
    exact h.count
  · rw [hc]
    exact h.stored
  · rw [hm, hc]
    exact h.bound
  · rw [hm, hc]
    exact h.landed

lemma CommitsKept.congr (h : CommitsKept statusAt T) (hm : T'.made = T.made)
    (hc : T'.commits = T.commits) : CommitsKept statusAt T' := by
  obtain ⟨h1, h2, h3⟩ := h
  refine ⟨?_, ?_, ?_⟩
  · rw [hc]
    exact h1
  · rw [hc]
    exact h2
  · rw [hc, hm]
    exact h3

variable {running' : Bool} {extra' status : ℕ} {rest ws : List Waiter} {task : Loop}
variable {answer : Answer}

lemma Open.put (h : Open statusAt time T o running extra)
    (hrow : RowKept statusAt time T running' extra' row) :
    Open statusAt time (T.put o row) o running' extra' := by
  refine ⟨h.commits.congr rfl rfl, h.table, fun o' ho => ?_, ?_⟩
  · rw [put_heap_ne ho]
    exact h.inert o' ho
  · rw [put_heap]
    exact hrow.congr rfl rfl

lemma Kept.of_open (h : Open statusAt time T o false 0) : Kept statusAt time T := by
  refine ⟨h.commits, fun o' ho => h.inert o' fun heq => ho (heq ▸ h.table), fun o' ho => ?_⟩
  rw [h.table] at ho
  cases ho
  exact h.row

lemma Kept.open (h : Kept statusAt time T) (ho : T.table = some o) :
    Open statusAt time T o false 0 := by
  refine ⟨h.commits, ho, fun o' hne => h.inert o' fun heq => hne ?_, h.row o ho⟩
  rw [ho] at heq
  exact (Option.some.inj heq).symm

variable {p w : Waiter} {x : Write V}

lemma mem_requests_parties (h : w ∈ row.parties) : w.request ∈ row.requests :=
  mem_append_left _ (mem_map.mpr ⟨w, h, rfl⟩)

lemma mem_requests_pending (h : row.pending = some r) : r ∈ row.requests := by
  unfold StatusRow.requests
  simp [h]

lemma RowKept.inert (h : RowKept statusAt time T false 0 row) (hu : row.users ≤ 0) :
    Inert row := by
  have husers := h.users
  have htask : row.task = none := by
    by_contra hne
    rw [if_neg hne] at husers
    omega
  have hloops := h.loop
  rw [if_neg fun hc => by rw [htask] at hc; exact nomatch hc.1] at hloops
  rw [if_pos htask] at husers
  have hnone : row.parties = [] := by
    have hlen := length_eq_countP_add_countP (fun w : Waiter => w.queued) (l := row.parties)
    have hawaited : row.awaited = 0 := by omega
    unfold StatusRow.awaited at hawaited
    unfold StatusRow.loops at hloops
    refine length_eq_zero_iff.mp ?_
    rw [hlen, hloops, Nat.zero_add, ← hawaited]
    exact countP_congr fun w _ => by simp
  unfold StatusRow.parties at hnone
  obtain ⟨hh, hw⟩ := append_eq_nil_iff.mp hnone
  refine ⟨?_, hw, h.idle htask, htask⟩
  cases hholder : row.holder with
  | none => rfl
  | some x =>
    rw [hholder] at hh
    cases hh

lemma release_kept (h : Open statusAt time T o false 1) : Kept statusAt time (release T o) := by
  have hrow : RowKept statusAt time T false 0
      { T.heap o with users := (T.heap o).users - 1 } := by
    refine { h.row with users := ?_, fits := fun r hr => (h.row.fits r hr).congr rfl }
    change (T.heap o).users - 1 = (T.heap o).awaited + _ + _
    rw [h.row.users]
    push_cast
    ring
  have hopen := h.put hrow
  unfold release
  simp only
  split
  · rename_i hlast
    refine ⟨hopen.commits.congr rfl rfl, fun o' _ => ?_, fun o' ho => nomatch ho⟩
    by_cases ho : o' = o
    · subst ho
      exact put_heap (T := T) ▸ hrow.inert hlast.1
    · exact hopen.inert o' ho
  · exact .of_open hopen

lemma status_row_open (h : Kept statusAt time T) :
    Open statusAt time (status_row T).2 (status_row T).1 false 1 := by
  unfold status_row
  split
  · rename_i o ho
    refine (h.open ho).put ?_
    have hrow := h.row o ho
    refine { hrow with users := ?_, fits := fun r hr => (hrow.fits r hr).congr rfl }
    change (T.heap o).users + 1 = (T.heap o).awaited + _ + _
    rw [hrow.users]
    push_cast
    ring
  · rename_i hnone
    refine ⟨h.commits.congr rfl rfl, rfl, fun o' ho => ?_, ?_⟩
    · change Inert ((T.put T.next _).heap o')
      rw [put_heap_ne ho]
      exact h.inert o' (by rw [hnone]; simp)
    · change RowKept statusAt time _ false 1 ((T.put T.next _).heap T.next)
      rw [put_heap]
      refine ⟨rfl, fun _ => rfl, rfl, nofun, nofun, le_rfl, Nat.zero_le _, nofun, nofun, nofun,
        fun c hc => .inl ?_, nofun, nofun⟩
      exact h.commits.made c hc

lemma number_open (status : ℕ) (h : Open statusAt time T o running extra) :
    Open statusAt time (number T o status time).2 o running extra ∧
      Fits (number T o status time).2.made time ((number T o status time).2.heap o) (number T o status time).1 ∧
      ((number T o status time).2.heap o).seq = (number T o status time).1.seq := by
  have hheap : (number T o status time).2.heap o = { T.heap o with seq := (T.heap o).seq + 1 } :=
    put_heap
  refine ⟨⟨⟨h.commits.order, h.commits.value, fun c hc => ?_⟩, h.table, fun o' ho => ?_, ?_⟩, ?_, ?_⟩
  · exact (h.commits.made c hc).trans (Nat.le_succ _)
  · change Inert ((T.put o _).heap o')
    rw [put_heap_ne ho]
    exact h.inert o' ho
  · rw [hheap]
    refine { h.row with
      fits := fun r hr => ?_
      written := h.row.written.trans (Nat.le_succ _)
      count := Nat.succ_le_succ h.row.count
      bound := fun c hc => ?_
      landed := fun hw => ?_ }
    · obtain ⟨hs, hn, hm⟩ := h.row.fits r hr
      refine ⟨hs.trans (Nat.le_succ _), ?_, hm⟩
      change r.number + ((T.heap o).seq + 1) = T.made + 1 + r.seq
      omega
    · refine (h.row.bound c hc).imp_left fun hle => ?_
      change c.request.number + ((T.heap o).seq + 1) ≤ T.made + 1 + (T.heap o).written_seq
      omega
    · obtain ⟨c, hc, heq⟩ := h.row.landed hw
      refine ⟨c, hc, ?_⟩
      change c.request.number + ((T.heap o).seq + 1) = T.made + 1 + (T.heap o).written_seq
      omega
  · rw [hheap]
    exact ⟨le_rfl, rfl, le_rfl⟩
  · rw [hheap]
    rfl

def StatusRow.join (row : StatusRow V) (w : Waiter) : StatusRow V :=
  if row.unlocked then { row with holder := some (w, .connecting) }
  else { row with waiters := row.waiters ++ [w] }

lemma unlocked_iff : row.unlocked = true ↔ row.holder = none ∧ row.waiters = [] := by
  unfold StatusRow.unlocked
  rw [Bool.and_eq_true, Option.isNone_iff_eq_none, List.isEmpty_iff]

lemma join_parties (row : StatusRow V) (w : Waiter) :
    (row.join w).parties = row.parties ++ [w] := by
  unfold StatusRow.join StatusRow.parties
  split
  · rename_i hfree
    obtain ⟨hh, hw⟩ := unlocked_iff.mp hfree
    simp [hh, hw]
  · simp

lemma join_fields (row : StatusRow V) (w : Waiter) :
    (row.join w).pending = row.pending ∧ (row.join w).seq = row.seq ∧
      (row.join w).written_seq = row.written_seq ∧ (row.join w).task = row.task ∧ (row.join w).users = row.users := by
  unfold StatusRow.join
  split <;> exact ⟨rfl, rfl, rfl, rfl, rfl⟩

lemma join_holder (h : (row.join w).holder = some (p, x)) :
    row.holder = some (p, x) ∨ row.unlocked = true ∧ p = w ∧ x = .connecting := by
  unfold StatusRow.join at h
  split at h
  · rename_i hfree
    cases h
    exact .inr ⟨hfree, rfl, rfl⟩
  · exact .inl h

lemma RowKept.join
    (h : RowKept statusAt time T running extra row) (hfits : Fits T.made time row w.request)
    (hfresh : row.unlocked = true → row.written_seq ≤ w.request.seq)
    (husers : row.users = row.awaited + (if w.queued then 0 else 1) + (if row.task = none then 0 else 1) + extra')
    (hloop : row.loops + (if w.queued then 1 else 0) =
      if row.task = some .writing ∧ running' = false then 1 else 0)
    (hrun : running' = true → row.task ≠ none) (hnew : w.queued = true → row.pending = none) :
    RowKept statusAt time T running' extra' (row.join w) := by
  obtain ⟨h1, h2, h3, h4, h5, h6, h7, h8, h9, h10, h11, h12, h13⟩ := h
  obtain ⟨hp, hs, hw, ht, hu⟩ := join_fields row w
  have hawaited : (row.join w).awaited = row.awaited + if w.queued then 0 else 1 := by
    unfold StatusRow.awaited
    rw [join_parties, countP_append, countP_singleton]
    cases w.queued <;> rfl
  have hloops : (row.join w).loops = row.loops + if w.queued then 1 else 0 := by
    unfold StatusRow.loops
    rw [join_parties, countP_append, countP_singleton]
  refine ⟨?_, ?_, ?_, ?_, ?_, ?_, ?_, fun p x hx => ?_, fun p v t hx => ?_, fun p hx => ?_, ?_, ?_, fun r hr p hp' hq => ?_⟩
  · rw [hu, ht, hawaited, husers]
    push_cast
    rfl
  · rw [ht, hp]
    exact h2
  · rw [ht, hloops, hloop]
  · rw [ht]
    exact hrun
  · intro r hr
    unfold StatusRow.requests at hr
    rw [join_parties, hp, map_append] at hr
    have hfit : Fits T.made time row r := by
      rcases mem_append.mp hr with hr | hr
      · rcases mem_append.mp hr with hr | hr
        · exact h5 r (mem_append_left _ hr)
        · rw [mem_singleton.mp hr]
          exact hfits
      · exact h5 r (mem_append_right _ hr)
    exact ⟨by rw [hs]; exact hfit.seq, by rw [hs]; exact hfit.number, hfit.made⟩
  · rw [hw, hs]
    exact h6
  · rw [hs]
    exact h7
  · rw [hw]
    rcases join_holder hx with hx | ⟨hfree, rfl, -⟩
    · exact h8 p x hx
    · exact hfresh hfree
  · rcases join_holder hx with hx | ⟨-, -, hx⟩
    · exact h9 p v t hx
    · cases hx
  · rcases join_holder hx with hx | ⟨-, -, hx⟩
    · exact h10 p hx
    · cases hx
  · rw [hs, hw]
    intro c hc
    refine (h11 c hc).imp_right ?_
    rintro ⟨p, hx, hle⟩
    refine ⟨p, ?_, hle⟩
    unfold StatusRow.join
    rw [if_neg fun hfree => by rw [(unlocked_iff.mp hfree).1] at hx; exact nomatch hx]
    exact hx
  · rw [hs, hw]
    exact h12
  · rw [hp] at hr
    rw [join_parties] at hp'
    rcases mem_append.mp hp' with hp' | hp'
    · exact h13 r hr p hp' hq
    · rw [mem_singleton.mp hp'] at hq
      rw [hnew hq] at hr
      cases hr

lemma RowKept.leave {n : ℕ} (h : RowKept statusAt time T false 0 row) (hp : row.parties = w :: ws)
    (hn : n ≤ row.seq)
    (hbound : ∀ c ∈ T.commits, c.request.number + row.seq ≤ T.made + n)
    (hlanded : 0 < n → ∃ c ∈ T.commits, c.request.number + row.seq = T.made + n) :
    RowKept statusAt time T w.queued (if w.queued then 0 else 1)
      { row with holder := none, waiters := ws, written_seq := n } := by
  obtain ⟨h1, h2, h3, h4, h5, h6, h7, h8, h9, h10, h11, h12, h13⟩ := h
  unfold StatusRow.awaited at h1
  unfold StatusRow.loops at h3
  rw [hp, countP_cons] at h1 h3
  refine ⟨?_, h2, ?_, fun hq => ?_, fun r hr => ?_, hn, h7, nofun, nofun, nofun,
    fun c hc => .inl (hbound c hc), hlanded, fun r hr p hp' hq => ?_⟩
  · change row.users = ((ws.countP fun w => !w.queued : ℕ) : ℤ) + (if row.task = none then 0 else 1) + _
    rw [h1]
    cases w.queued
    · simp only [Bool.not_false, if_true, Bool.false_eq_true, if_false]
      push_cast
      ring
    · simp
  · change (ws.countP fun w => w.queued) = if row.task = some .writing ∧ w.queued = false then 1 else 0
    cases hq : w.queued
    · rw [hq] at h3
      simpa using h3
    · rw [hq] at h3
      simp only [if_true] at h3
      rw [if_neg fun hc => nomatch hc.2]
      split at h3
      · omega
      · omega
  · rw [hq] at h3
    intro hnone
    change row.task = none at hnone
    rw [hnone] at h3
    simp at h3
  · have hr' : r ∈ row.requests := by
      change r ∈ ws.map (·.request) ++ row.pending.toList at hr
      unfold StatusRow.requests
      rw [hp]
      rcases mem_append.mp hr with hr | hr
      · exact mem_append_left _ (mem_cons_of_mem _ hr)
      · exact mem_append_right _ hr
    exact (h5 r hr').congr rfl
  · exact h13 r hr p (hp ▸ mem_cons_of_mem _ hp') hq

lemma loop_end_kept (h : Open statusAt time T o true 0) (hpending : (T.heap o).pending = none) :
    Kept statusAt time (loop_end T o) := by
  refine release_kept (h.put { h.row with
    users := ?_
    idle := fun _ => hpending
    loop := ?_
    run := nofun
    fits := fun r hr => (h.row.fits r hr).congr rfl })
  · change (T.heap o).users = (T.heap o).awaited + 0 + 1
    rw [h.row.users, if_neg (h.row.run rfl)]
    rfl
  · change (T.heap o).loops = 0
    rw [h.row.loop, if_neg fun hc => nomatch hc.2]

lemma RowKept.clear (h : RowKept statusAt time T running extra row) :
    RowKept statusAt time T running extra { row with pending := none } := by
  refine { h with idle := fun _ => rfl, fits := fun r hr => ?_, newer := nofun }
  unfold StatusRow.requests at hr
  simp only [Option.toList_none, append_nil] at hr
  exact (h.fits r (mem_append_left _ hr)).congr rfl

lemma loop_top_cases (T : Store V) (o : ℕ) : (T.heap o).pending = none ∧ loop_top T o = loop_end T o ∨
    ∃ r, (T.heap o).pending = some r ∧
      (((T.heap o).unlocked = true ∧ (T.heap o).stale r = true ∧
        loop_top T o = loop_end (T.put o { T.heap o with pending := none }) o) ∨
      (((T.heap o).unlocked = true → (T.heap o).stale r = false) ∧
        loop_top T o = T.put o (StatusRow.join
          { T.heap o with pending := none, task := some .writing } ⟨true, r⟩))) := by
  unfold loop_top
  simp only
  split
  · rename_i hp
    exact .inl ⟨hp, rfl⟩
  · rename_i r hp
    refine .inr ⟨r, hp, ?_⟩
    split
    · rename_i hfree
      split
      · rename_i hs
        exact .inl ⟨hfree, hs, rfl⟩
      · rename_i hs
        refine .inr ⟨fun _ => Bool.eq_false_iff.mpr hs, ?_⟩
        unfold StatusRow.join
        exact congrArg (T.put o) (if_pos hfree).symm
    · rename_i hfree
      refine .inr ⟨fun h => absurd h hfree, ?_⟩
      unfold StatusRow.join
      exact congrArg (T.put o) (if_neg hfree).symm

lemma not_stale (h : row.stale r = false) : row.written_seq ≤ r.seq := by
  unfold StatusRow.stale at h
  simpa using h

lemma loop_top_kept (h : Open statusAt time T o true 0) : Kept statusAt time (loop_top T o) := by
  rcases loop_top_cases T o with ⟨hp, heq⟩ | ⟨r, hp, ⟨-, -, heq⟩ | ⟨hfresh, heq⟩⟩
  · rw [heq]
    exact loop_end_kept h hp
  · rw [heq]
    exact loop_end_kept (h.put h.row.clear) (by rw [put_heap])
  · rw [heq]
    have hfit := h.row.fits r (mem_requests_pending hp)
    have hkept : RowKept statusAt time T true 0
        { T.heap o with pending := none, task := some .writing } := by
      have hclear := h.row.clear
      have husers := hclear.users
      have hloop := hclear.loop
      rw [if_neg (hclear.run rfl)] at husers
      rw [if_neg fun hc => nomatch hc.2] at hloop
      exact { hclear with
        users := husers
        idle := nofun
        loop := hloop
        run := nofun
        fits := fun x hx => (hclear.fits x hx).congr rfl }
    refine .of_open (h.put (hkept.join (hfit.congr rfl) ?_ ?_ ?_ nofun fun _ => rfl))
    · exact fun hfree => not_stale (hfresh hfree)
    · rw [hkept.users]
      rfl
    · rw [hkept.loop]
      rfl

lemma RowKept.pend (h : RowKept statusAt time T running extra row)
    (hr : Fits T.made time row r) (hseq : row.seq ≤ r.seq) (htask : row.task ≠ none) :
    RowKept statusAt time T running extra { row with pending := some r } := by
  refine { h with
    idle := fun hnone => absurd hnone htask
    fits := fun x hx => ?_
    newer := fun x hx p hp _ => ?_ }
  · refine Fits.congr (show Fits T.made time row x from ?_) rfl
    rcases mem_append.mp hx with hx | hx
    · exact h.fits x (mem_append_left _ hx)
    · rw [mem_singleton.mp hx]
      exact hr
  · cases hx
    exact (h.fits _ (mem_requests_parties hp)).seq.trans hseq

lemma queue_kept (h : Kept statusAt time T) :
    Kept statusAt time (queue_status_write T status time) := by
  have hopen := status_row_open h
  unfold queue_status_write
  generalize status_row T = S at hopen ⊢
  obtain ⟨o, T⟩ := S
  obtain ⟨hopen, hfit, hseq⟩ := number_open status hopen
  simp only at hopen hfit hseq ⊢
  generalize number T o status time = N at hopen hfit hseq ⊢
  obtain ⟨r, T⟩ := N
  simp only at hopen hfit hseq ⊢
  split
  · rename_i htask
    refine release_kept (hopen.put (hopen.row.pend hfit hseq.le ?_))
    intro hnone
    rw [hnone] at htask
    cases htask
  · rename_i htask
    have hnone : (T.heap o).task = none := by simpa using htask
    refine .of_open (hopen.put ?_)
    have hrow := hopen.row
    have hstart : RowKept statusAt time T false 0 { T.heap o with task := some .starting } := by
      have hloop := hrow.loop
      rw [if_neg fun hc => by rw [hnone] at hc; exact nomatch hc.1] at hloop
      refine { hrow with
        users := ?_
        idle := nofun
        loop := hloop
        run := nofun
        fits := fun x hx => (hrow.fits x hx).congr rfl }
      rw [hrow.users, if_pos hnone]
      change ((T.heap o).awaited : ℤ) + 0 + 1 = (T.heap o).awaited + 1 + 0
      ring
    exact hstart.pend (hfit.congr rfl) hseq.le nofun

lemma await_kept (h : Kept statusAt time T) :
    Kept statusAt time (write_status T status time) := by
  have hopen := status_row_open h
  unfold write_status
  generalize status_row T = S at hopen ⊢
  obtain ⟨o, T⟩ := S
  obtain ⟨hopen, hfit, -⟩ := number_open status hopen
  simp only at hopen hfit ⊢
  generalize number T o status time = N at hopen hfit ⊢
  obtain ⟨r, T⟩ := N
  simp only at hopen hfit ⊢
  have hjoin : ((T.heap o).unlocked = true → (T.heap o).stale r = false) →
      Kept statusAt time (T.put o ((T.heap o).join ⟨false, r⟩)) := by
    intro hfresh
    refine .of_open (hopen.put (hopen.row.join hfit (fun hfree => not_stale (hfresh hfree)) ?_ ?_ nofun nofun))
    · rw [hopen.row.users]
      simp only [Bool.false_eq_true, if_false]
      push_cast
      ring
    · rw [hopen.row.loop]
      rfl
  unfold StatusRow.join at hjoin
  split
  · rename_i hfree
    rw [if_pos hfree] at hjoin
    split
    · exact release_kept hopen
    · rename_i hs
      exact hjoin fun _ => Bool.eq_false_iff.mpr hs
  · rename_i hfree
    rw [if_neg hfree] at hjoin
    exact hjoin fun h => absurd h hfree

lemma Kept.open_of (h : Kept statusAt time T) (hne : ¬Inert (T.heap o)) :
    Open statusAt time T o false 0 := by
  refine h.open ?_
  by_contra hno
  exact hne (h.inert o hno)

lemma Kept.bound_of_free (h : RowKept statusAt time T running extra row)
    (hfree : ∀ w, row.holder ≠ some (w, .answered .stored)) : ∀ c ∈ T.commits,
      c.request.number + row.seq ≤ T.made + row.written_seq := by
  intro c hc
  rcases h.bound c hc with hle | ⟨w, hw, -⟩
  · exact hle
  · exact absurd hw (hfree w)

lemma resume_open (h : Kept statusAt time T) (htask : task ≠ .writing)
    (ht : (T.heap o).task = some task) : Open statusAt time T o true 0 := by
  have hopen := h.open_of (o := o) fun hi => by rw [hi.task] at ht; exact nomatch ht
  refine ⟨hopen.commits, hopen.table, hopen.inert,
    { hopen.row with loop := ?_, run := fun _ => by rw [ht]; simp }⟩
  rw [hopen.row.loop, if_neg fun hc => by rw [ht] at hc; exact htask (Option.some.inj hc.1),
    if_neg fun hc => nomatch hc.2]

lemma resume_kept (h : Kept statusAt time T) (htask : task ≠ .writing)
    (hT : resume T o task = some T') : Kept statusAt time T' := by
  unfold resume at hT
  split at hT
  · rename_i ht
    cases hT
    exact loop_top_kept (resume_open h htask ht)
  · cases hT

lemma RowKept.hold (h : RowKept statusAt time T false 0 row) (hp : row.parties = w :: ws)
    (hw : row.written_seq ≤ w.request.seq)
    (hsent : ∀ v t, x = .sent v t → v = statusAt t w.request.status ∧ w.request.made ≤ t)
    (hmade : T'.made = T.made) (hcommits : T.commits ⊆ T'.commits)
    (hstored : x = .answered .stored → ∃ c ∈ T'.commits, c.request = w.request)
    (hbound : ∀ c ∈ T'.commits, c.request.number + row.seq ≤ T.made + row.written_seq ∨
      x = .answered .stored ∧ c.request.number ≤ w.request.number) :
    RowKept statusAt time T' false 0 { row with holder := some (w, x), waiters := ws } := by
  obtain ⟨h1, h2, h3, h4, h5, h6, h7, h8, h9, h10, h11, h12, h13⟩ := h
  have hp' : StatusRow.parties { row with holder := some (w, x), waiters := ws } = row.parties :=
    hp.symm
  refine ⟨?_, h2, ?_, nofun, fun r hr => ?_, h6, ?_, fun p y hy => ?_, fun p v t hy => ?_,
    fun p hy => ?_, fun c hc => ?_, fun hn => ?_, fun r hr p hp'' hq => ?_⟩
  · unfold StatusRow.awaited at h1 ⊢
    rw [hp']
    exact h1
  · unfold StatusRow.loops at h3 ⊢
    rw [hp']
    exact h3
  · unfold StatusRow.requests at hr
    rw [hp'] at hr
    exact ⟨(h5 r hr).seq, hmade ▸ (h5 r hr).number, (h5 r hr).made⟩
  · rw [hmade]
    exact h7
  · obtain ⟨rfl, -⟩ := Prod.mk.inj (Option.some.inj hy)
    exact hw
  · obtain ⟨rfl, hx⟩ := Prod.mk.inj (Option.some.inj hy)
    exact hsent v t hx
  · obtain ⟨rfl, hx⟩ := Prod.mk.inj (Option.some.inj hy)
    exact hstored hx
  · rw [hmade]
    refine (hbound c hc).imp_right ?_
    rintro ⟨rfl, hle⟩
    exact ⟨w, rfl, hle⟩
  · obtain ⟨c, hc, heq⟩ := h12 hn
    exact ⟨c, hcommits hc, by rw [hmade]; exact heq⟩
  · rw [hp'] at hp''
    exact h13 r hr p hp'' hq

lemma parties_of_holder (h : row.holder = some (w, x)) :
    row.parties = w :: row.waiters := by
  unfold StatusRow.parties
  rw [h]
  rfl

lemma take_stale_open (h : Kept statusAt time T)
    (hholder : (T.heap o).holder = none) (hwaiters : (T.heap o).waiters = w :: rest) :
    Open statusAt time (T.put o { T.heap o with waiters := rest }) o w.queued (if w.queued then 0 else 1) := by
  have hopen := h.open_of (o := o) fun hi => by rw [hi.waiters] at hwaiters; exact nomatch hwaiters
  have hparties : (T.heap o).parties = w :: rest := by
    unfold StatusRow.parties
    rw [hholder, hwaiters]
    rfl
  have hbound := Kept.bound_of_free hopen.row fun p hp => by rw [hholder] at hp; exact nomatch hp
  have hleft := hopen.row.leave hparties hopen.row.written hbound hopen.row.landed
  have hsame : { T.heap o with waiters := rest } = { T.heap o with
      holder := none, waiters := rest, written_seq := (T.heap o).written_seq } := by
    rw [← hholder]
  rw [← hsame] at hleft
  exact hopen.put hleft

lemma take_fresh_open (h : Kept statusAt time T)
    (hholder : (T.heap o).holder = none) (hwaiters : (T.heap o).waiters = w :: rest)
    (hfresh : (T.heap o).stale w.request = false) :
    Open statusAt time (T.put o { T.heap o with
      waiters := rest, holder := some (w, .connecting) }) o false 0 := by
  have hopen := h.open_of (o := o) fun hi => by rw [hi.waiters] at hwaiters; exact nomatch hwaiters
  have hparties : (T.heap o).parties = w :: rest := by
    unfold StatusRow.parties
    rw [hholder, hwaiters]
    rfl
  have hbound := Kept.bound_of_free hopen.row fun p hp => by rw [hholder] at hp; exact nomatch hp
  exact hopen.put (hopen.row.hold hparties (not_stale hfresh) nofun rfl (List.Subset.refl _)
    nofun fun c hc => .inl (hbound c hc))

lemma take_lock_cases (hT : take_lock T o = some T') : (T.heap o).holder = none ∧
    ∃ w rest, (T.heap o).waiters = w :: rest ∧
      (((T.heap o).stale w.request = true ∧ T' =
        (if w.queued then loop_top (T.put o { T.heap o with waiters := rest }) o
          else release (T.put o { T.heap o with waiters := rest }) o)) ∨
      ((T.heap o).stale w.request = false ∧ T' =
        T.put o { T.heap o with waiters := rest, holder := some (w, .connecting) })) := by
  unfold take_lock at hT
  simp only at hT
  split at hT
  · rename_i w rest hholder hwaiters
    refine ⟨hholder, w, rest, hwaiters, ?_⟩
    split at hT
    · rename_i hs
      exact .inl ⟨hs, (Option.some.inj hT).symm⟩
    · rename_i hs
      exact .inr ⟨Bool.eq_false_iff.mpr hs, (Option.some.inj hT).symm⟩
  · cases hT

lemma take_lock_kept (h : Kept statusAt time T) (hT : take_lock T o = some T') :
    Kept statusAt time T' := by
  obtain ⟨hholder, w, rest, hwaiters, ⟨-, rfl⟩ | ⟨hs, rfl⟩⟩ := take_lock_cases hT
  · have hopen := take_stale_open h hholder hwaiters
    cases hq : w.queued with
    | true =>
      rw [hq] at hopen
      exact loop_top_kept hopen
    | false =>
      rw [hq] at hopen
      exact release_kept hopen
  · exact .of_open (take_fresh_open h hholder hwaiters hs)

lemma send_kept (h : Kept statusAt time T) (hT : send statusAt time T o = some T') :
    Kept statusAt time T' := by
  unfold send at hT
  split at hT
  · rename_i w hholder
    cases hT
    have hopen := h.open_of (o := o) fun hi => by rw [hi.holder] at hholder; exact nomatch hholder
    have hparties := parties_of_holder hholder
    have hfit := hopen.row.fits w.request (mem_requests_parties (by rw [hparties]; simp))
    have hbound := Kept.bound_of_free hopen.row fun p hp => by
      rw [hholder] at hp
      exact nomatch (Prod.mk.inj (Option.some.inj hp)).2
    refine .of_open (hopen.put (hopen.row.hold hparties (hopen.row.fresh _ _ hholder) ?_ rfl
      (List.Subset.refl _) nofun fun c hc => .inl (hbound c hc)))
    rintro v t hx
    obtain ⟨rfl, rfl⟩ := Write.sent.inj hx
    exact ⟨rfl, hfit.made⟩
  · cases hT

lemma fail_kept (h : Kept statusAt time T)
    (hholder : (T.heap o).holder = some (w, x)) (hx : x ≠ .answered .stored)
    (ha : answer ≠ .stored) :
    Kept statusAt time (T.put o { T.heap o with holder := some (w, .answered answer) }) := by
  have hopen := h.open_of (o := o) fun hi => by rw [hi.holder] at hholder; exact nomatch hholder
  have hbound := Kept.bound_of_free hopen.row fun p hp => by
    rw [hholder] at hp
    exact hx (Prod.mk.inj (Option.some.inj hp)).2
  exact .of_open (hopen.put (hopen.row.hold (parties_of_holder hholder)
    (hopen.row.fresh _ _ hholder) nofun rfl (List.Subset.refl _)
    (fun hs => absurd (Write.answered.inj hs) ha) fun c hc => .inl (hbound c hc)))

lemma commit_kept {value : V} {read : ℕ} (h : Kept statusAt time T)
    (hholder : (T.heap o).holder = some (w, .sent value read)) :
    Kept statusAt time { T.put o { T.heap o with holder := some (w, .answered .stored) } with
      commits := T.commits ++ [⟨w.request, value, read⟩] } := by
  have hopen := h.open_of (o := o) fun hi => by rw [hi.holder] at hholder; exact nomatch hholder
  have hparties := parties_of_holder hholder
  have hfit := hopen.row.fits w.request (mem_requests_parties (by rw [hparties]; simp))
  have hfresh := hopen.row.fresh _ _ hholder
  have hbound := Kept.bound_of_free hopen.row fun p hp => by
    rw [hholder] at hp
    exact nomatch (Prod.mk.inj (Option.some.inj hp)).2
  have hnumber := hfit.number
  have hseq := hfit.seq
  have hrow : RowKept statusAt time { T.put o { T.heap o with
      holder := some (w, .answered .stored) } with
        commits := T.commits ++ [⟨w.request, value, read⟩] } false 0
      { T.heap o with holder := some (w, .answered .stored) } := by
    refine hopen.row.hold hparties hfresh nofun rfl (subset_append_left _ _)
      (fun _ => ⟨⟨w.request, value, read⟩, by simp, rfl⟩) fun c hc => ?_
    rcases mem_append.mp hc with hc | hc
    · exact .inl (hbound c hc)
    · rw [mem_singleton.mp hc]
      exact .inr ⟨rfl, le_rfl⟩
  refine .of_open ⟨⟨?_, fun c hc => ?_, fun c hc => ?_⟩, hopen.table, fun o' ho => ?_, ?_⟩
  · refine pairwise_append.mpr ⟨hopen.commits.order, pairwise_singleton _ _, ?_⟩
    intro c hc d hd
    rw [mem_singleton.mp hd]
    have := hbound c hc
    change c.request.number ≤ w.request.number
    omega
  · rcases mem_append.mp hc with hc | hc
    · exact hopen.commits.value c hc
    · rw [mem_singleton.mp hc]
      exact hopen.row.sent w value read hholder
  · rcases mem_append.mp hc with hc | hc
    · exact hopen.commits.made c hc
    · rw [mem_singleton.mp hc]
      change w.request.number ≤ T.made
      omega
  · change Inert ((T.put o _).heap o')
    rw [put_heap_ne ho]
    exact hopen.inert o' ho
  · change RowKept statusAt time _ false 0 ((T.put o _).heap o)
    rw [put_heap]
    exact hrow

lemma reply_kept (h : Kept statusAt time T)
    (hT : reply T o answer = some T') : Kept statusAt time T' := by
  unfold reply at hT
  split at hT
  · rename_i w hholder
    split at hT
    · cases hT
      exact fail_kept h hholder nofun nofun
    · cases hT
  · rename_i w value read hholder
    cases answer with
    | stored =>
      simp only at hT
      split at hT
      · cases hT
        exact commit_kept h hholder
      · cases hT
    | transient =>
      cases hT
      exact fail_kept h hholder nofun nofun
    | gone =>
      simp only at hT
      split at hT
      · cases hT
      · cases hT
        exact fail_kept h hholder nofun nofun
  · cases hT

lemma RowKept.sleep (h : RowKept statusAt time T true 0 row)
    (hr : Fits T.made time row r) : RowKept statusAt time T false 0
      { row with pending := row.pending.or (some r), task := some .sleeping } := by
  have husers := h.users
  have hloop := h.loop
  rw [if_neg (h.run rfl)] at husers
  rw [if_neg fun hc => nomatch hc.2] at hloop
  refine { h with
    users := husers
    idle := nofun
    loop := hloop
    run := nofun
    fits := fun x hx => ?_
    newer := fun x _ p hp hq => absurd hq (countP_eq_zero.mp hloop p hp) }
  refine Fits.congr (show Fits T.made time row x from ?_) rfl
  rcases mem_append.mp hx with hx | hx
  · exact h.fits x (mem_append_left _ hx)
  · cases hp : row.pending with
    | none =>
      rw [hp] at hx
      rw [mem_singleton.mp hx]
      exact hr
    | some y =>
      rw [hp] at hx
      exact h.fits x (mem_append_right _ (by rw [hp]; exact hx))

lemma finish_open (h : Kept statusAt time T)
    (hholder : (T.heap o).holder = some (w, x)) (hx : x ≠ .answered .stored) :
    Open statusAt time (T.put o { T.heap o with holder := none }) o w.queued (if w.queued then 0 else 1) := by
  have hopen := h.open_of (o := o) fun hi => by rw [hi.holder] at hholder; exact nomatch hholder
  exact hopen.put (hopen.row.leave (parties_of_holder hholder) hopen.row.written
    (Kept.bound_of_free hopen.row fun p hp => by
      rw [hholder] at hp
      exact hx (Prod.mk.inj (Option.some.inj hp)).2) hopen.row.landed)

lemma finish_stored_open (h : Kept statusAt time T) (hholder : (T.heap o).holder = some (w, .answered .stored)) :
    Open statusAt time (T.put o { T.heap o with
      holder := none, written_seq := max (T.heap o).written_seq w.request.seq }) o w.queued
      (if w.queued then 0 else 1) := by
  have hopen := h.open_of (o := o) fun hi => by rw [hi.holder] at hholder; exact nomatch hholder
  have hparties := parties_of_holder hholder
  have hfit := hopen.row.fits w.request (mem_requests_parties (by rw [hparties]; simp))
  have hfresh := hopen.row.fresh _ _ hholder
  have hnumber := hfit.number
  obtain ⟨c, hc, hcr⟩ := hopen.row.stored w hholder
  refine hopen.put (hopen.row.leave hparties (max_le hopen.row.written hfit.seq) (fun c hc => ?_) fun _ => ⟨c, hc, ?_⟩)
  · rcases hopen.row.bound c hc with hle | ⟨p, hp, hle⟩
    · omega
    · rw [hholder] at hp
      obtain ⟨rfl, -⟩ := Prod.mk.inj (Option.some.inj hp)
      omega
  · rw [hcr]
    omega

lemma holder_fits (h : Kept statusAt time T)
    (hholder : (T.heap o).holder = some (w, x)) : Fits T.made time (T.heap o) w.request := by
  have hopen := h.open_of (o := o) fun hi => by rw [hi.holder] at hholder; exact nomatch hholder
  exact hopen.row.fits _ (mem_requests_parties (by rw [parties_of_holder hholder]; simp))

lemma finish_cases (hT : finish T o = some T') : ∃ w answer,
    (T.heap o).holder = some (w, .answered answer) ∧ T' =
      match answer with
      | .stored =>
        if w.queued then loop_top (T.put o { T.heap o with
          holder := none, written_seq := max (T.heap o).written_seq w.request.seq }) o
        else release (T.put o { T.heap o with
          holder := none, written_seq := max (T.heap o).written_seq w.request.seq }) o
      | .transient =>
        if w.queued then T.put o { T.heap o with
          holder := none, pending := (T.heap o).pending.or (some w.request),
          task := some .sleeping }
        else { release (T.put o { T.heap o with holder := none }) o with
          raised := T.raised ++ [w.request] }
      | .gone =>
        if w.queued then loop_end (T.put o { T.heap o with holder := none, pending := none }) o
        else { release (T.put o { T.heap o with holder := none }) o with
          raised := T.raised ++ [w.request] } := by
  unfold finish at hT
  simp only at hT
  split at hT
  · rename_i w hholder
    exact ⟨w, .stored, hholder, (Option.some.inj hT).symm⟩
  · rename_i w hholder
    refine ⟨w, .transient, hholder, ?_⟩
    simp only
    split at hT
    · rename_i hq
      rw [if_pos hq]
      exact (Option.some.inj hT).symm
    · rename_i hq
      rw [if_neg hq]
      exact (Option.some.inj hT).symm
  · rename_i w hholder
    refine ⟨w, .gone, hholder, ?_⟩
    simp only
    split at hT
    · rename_i hq
      rw [if_pos hq]
      exact (Option.some.inj hT).symm
    · rename_i hq
      rw [if_neg hq]
      exact (Option.some.inj hT).symm
  · cases hT

lemma finish_kept (h : Kept statusAt time T) (hT : finish T o = some T') :
    Kept statusAt time T' := by
  obtain ⟨w, answer, hholder, rfl⟩ := finish_cases hT
  have hfit := holder_fits h hholder
  have hraised : ∀ {w' : Waiter} {answer : Answer}, (T.heap o).holder = some (w', .answered answer) →
      answer ≠ .stored → w'.queued = false → Kept statusAt time
        { release (T.put o { T.heap o with holder := none }) o with
          raised := T.raised ++ [w'.request] } := by
    intro w' answer hw' hne hq
    have hopen := finish_open h hw' fun hs => hne (Write.answered.inj hs)
    rw [hq] at hopen
    have hkept := release_kept hopen
    exact ⟨hkept.commits.congr rfl rfl, hkept.inert, fun o' ho => (hkept.row o' ho).congr rfl rfl⟩
  cases answer with
  | stored =>
    have hopen := finish_stored_open h hholder
    simp only
    split
    · rename_i hq
      rw [hq] at hopen
      exact loop_top_kept hopen
    · rename_i hq
      rw [Bool.eq_false_iff.mpr hq] at hopen
      exact release_kept hopen
  | transient =>
    simp only
    split
    · rename_i hq
      have hopen := finish_open h hholder nofun
      rw [hq] at hopen
      have hrow := hopen.row
      rw [put_heap] at hrow
      have hsleep := hrow.sleep (r := w.request) (hfit.congr rfl)
      have hput := hopen.put hsleep
      rw [put_put] at hput
      exact .of_open hput
    · rename_i hq
      exact hraised hholder nofun (Bool.eq_false_iff.mpr hq)
  | gone =>
    simp only
    split
    · rename_i hq
      have hopen := finish_open h hholder nofun
      rw [hq] at hopen
      have hrow := hopen.row
      rw [put_heap] at hrow
      have hput := hopen.put hrow.clear
      rw [put_put] at hput
      exact loop_end_kept hput (by rw [put_heap])
    · rename_i hq
      exact hraised hholder nofun (Bool.eq_false_iff.mpr hq)

theorem step_kept {act : Act} (h : Kept statusAt time T)
    (hT : step statusAt time T act = some T') : Kept statusAt time T' := by
  cases act with
  | queue status =>
    cases hT
    exact queue_kept h
  | await status =>
    cases hT
    exact await_kept h
  | start o =>
    have htask : Loop.starting ≠ .writing := nofun
    exact resume_kept h htask hT
  | wake o =>
    have htask : Loop.sleeping ≠ .writing := nofun
    exact resume_kept h htask hT
  | take o => exact take_lock_kept h hT
  | send o => exact send_kept h hT
  | reply o answer => exact reply_kept h hT
  | finish o => exact finish_kept h hT
  | create | delete =>
    cases hT
    exact ⟨h.commits.congr rfl rfl, h.inert, fun o ho => (h.row o ho).congr rfl rfl⟩
  | other =>
    cases hT
    exact h

end
end CloudServer.StatusWrites
