import CloudServer.Steps
import CloudServer.StatusWritesCovered

/-! Status writes that are asked for are committed, or a later one of the row is. -/
namespace CloudServer.StatusWrites

open Progress List

variable {V : Type}

/-! ### Runs -/

structure Run (statusAt : ℕ → ℕ → V) (σ : ℕ → Store V) (act : ℕ → Act) : Prop where
  init : σ 0 = .init V
  step : ∀ n, step statusAt n (σ n) (act n) = some (σ (n + 1))

/-- Tasks wake, the lock is taken and handed on. -/
structure Fair (σ : ℕ → Store V) (act : ℕ → Act) : Prop where
  start : ∀ o n, ((σ n).heap o).task = some .starting → ∃ m, n ≤ m ∧ act m = .start o
  wake : ∀ o n, ((σ n).heap o).task = some .sleeping → ∃ m, n ≤ m ∧ act m = .wake o
  take : ∀ o n, ((σ n).heap o).holder = none → ((σ n).heap o).waiters ≠ [] →
    ∃ m, n ≤ m ∧ act m = .take o
  work : ∀ o n, ((σ n).heap o).holder ≠ none →
    ∃ m, n ≤ m ∧ (act m = .send o ∨ (∃ a, act m = .reply o a) ∨ act m = .finish o)

section
variable {statusAt : ℕ → ℕ → V} {σ : ℕ → Store V} {act : ℕ → Act} {o : ℕ}

lemma Kept.later {time time' : ℕ} {T : Store V} (h : Kept statusAt time T) (hle : time ≤ time') :
    Kept statusAt time' T := by
  refine ⟨h.commits, h.inert, fun o ho => { h.row o ho with fits := fun r hr => ?_ }⟩
  have hfit := (h.row o ho).fits r hr
  exact { hfit with made := hfit.made.trans hle }

lemma init_kept (statusAt : ℕ → ℕ → V) : Kept statusAt 0 (.init V) :=
  ⟨⟨.nil, nofun, nofun⟩, fun _ _ => ⟨rfl, rfl, rfl, rfl⟩, nofun⟩

lemma Run.kept (h : Run statusAt σ act) (n : ℕ) : Kept statusAt n (σ n) := by
  induction n with
  | zero =>
    rw [h.init]
    exact init_kept statusAt
  | succ n ih => exact (step_kept ih (h.step n)).later (Nat.le_succ n)

lemma Fair.serves (hrun : Run statusAt σ act) (hfair : Fair σ act) {n : ℕ}
    (hlocked : ((σ n).heap o).unlocked = false) : ∃ m, n ≤ m ∧ Serves (σ m) o (act m) := by
  cases hh : ((σ n).heap o).holder with
  | none =>
    have hne : ((σ n).heap o).waiters ≠ [] := fun hnil => by
      rw [unlocked_iff.mpr ⟨hh, hnil⟩] at hlocked
      cases hlocked
    obtain ⟨m, hm, hact⟩ := hfair.take o n hh hne
    have hstep := hrun.step m
    rw [hact] at hstep
    exact ⟨m, hm, .inl ⟨(take_lock_cases hstep).1, hact⟩⟩
  | some y =>
    obtain ⟨m, hm, hact⟩ := hfair.work o n (by rw [hh]; simp)
    refine ⟨m, hm, .inr ⟨?_, hact⟩⟩
    have hstep := hrun.step m
    rcases hact with hact | ⟨a, hact⟩ | hact
    · rw [hact] at hstep
      obtain ⟨w, hw, -⟩ := send_cases hstep
      rw [hw]
      simp
    · rw [hact] at hstep
      obtain ⟨w, x, hw, -⟩ := reply_cases hstep
      rw [hw]
      simp
    · rw [hact] at hstep
      obtain ⟨w, a, hw, -⟩ := finish_cases hstep
      rw [hw]
      simp

lemma wait_leads (hrun : Run statusAt σ act) (hfair : Fair σ act) (w : Waiter) :
    LeadsTo (fun n => w ∈ ((σ n).heap o).waiters) fun n => act n = .take o ∧
      ((σ n).heap o).holder = none ∧ ∃ rest, ((σ n).heap o).waiters = w :: rest := by
  refine LeadsTo.of_rank (fun n => distance (σ n) o w) fun k => ?_
  refine LeadsTo.ensures (fun n => Serves (σ n) o (act n)) ?_ ?_ ?_
  · rintro n ⟨hw, hk⟩
    rcases wait_step (hrun.kept n) (hrun.step n) hw with hgoal | ⟨hw', hle, -⟩
    · exact .inl (.inl hgoal)
    · right
      by_cases hlt : distance (σ (n + 1)) o w < k
      · exact .inr (.inr ⟨hw', hlt⟩)
      · exact .inl ⟨hw', by omega⟩
  · rintro n ⟨hw, -⟩
    exact Fair.serves hrun hfair (locked_of_mem hw)
  · rintro n ⟨hw, hk⟩ hserves
    rcases wait_step (hrun.kept n) (hrun.step n) hw with hgoal | ⟨hw', -, hlt⟩
    · exact .inl (.inl hgoal)
    · have := hlt hserves
      exact .inr (.inr ⟨hw', by omega⟩)

lemma hold_leads (hrun : Run statusAt σ act) (hfair : Fair σ act) (w : Waiter) {N : ℕ}
    (ok : Answer → Prop) (hok : ∀ n, N ≤ n → ∀ a, act n = .reply o a → (a = .gone → (σ n).present = false) → ok a) :
    LeadsTo (fun n => N ≤ n ∧ ∃ x, ((σ n).heap o).holder = some (w, x) ∧
        ∀ a, x = .answered a → ok a)
      fun n => N ≤ n ∧ act n = .finish o ∧ ∃ a, ((σ n).heap o).holder = some (w, .answered a) ∧ ok a := by
  refine LeadsTo.of_rank (fun n => phase ((σ n).heap o).holder) fun k => ?_
  have hmove : ∀ n, (N ≤ n ∧ ∃ x, ((σ n).heap o).holder = some (w, x) ∧
      ∀ a, x = .answered a → ok a) → (N ≤ n ∧ act n = .finish o ∧
        ∃ a, ((σ n).heap o).holder = some (w, .answered a) ∧ ok a) ∨
      ((N ≤ n + 1 ∧ ∃ x, ((σ (n + 1)).heap o).holder = some (w, x) ∧
        ∀ a, x = .answered a → ok a) ∧
          phase ((σ (n + 1)).heap o).holder ≤ phase ((σ n).heap o).holder ∧
          (Serves (σ n) o (act n) → phase ((σ (n + 1)).heap o).holder < phase ((σ n).heap o).holder)) := by
    rintro n ⟨hn, x, hh, hx⟩
    rcases hold_step (hrun.kept n) (hrun.step n) hh with ⟨hact, a, rfl⟩ | ⟨x', hh', hcases⟩
    · exact .inl ⟨hn, hact, a, hh, hx a rfl⟩
    · right
      rw [hh, hh']
      rcases hcases with ⟨rfl, hs⟩ | ⟨rfl, v, t, rfl⟩ | ⟨a, hact, rfl, hlt, hgone⟩
      · exact ⟨⟨by omega, x', rfl, hx⟩, le_rfl, fun h => absurd h hs⟩
      · exact ⟨⟨by omega, _, rfl, nofun⟩, Nat.le_succ _, fun _ => Nat.lt_succ_self _⟩
      · refine ⟨⟨by omega, _, rfl, ?_⟩, hlt.le, fun _ => hlt⟩
        rintro b hb
        obtain rfl := Write.answered.inj hb
        exact hok n hn _ hact hgone
  refine LeadsTo.ensures (fun n => Serves (σ n) o (act n)) ?_ ?_ ?_
  · rintro n ⟨hP, hk⟩
    rcases hmove n hP with hgoal | ⟨hP', hle, -⟩
    · exact .inl (.inl hgoal)
    · right
      by_cases hlt : phase ((σ (n + 1)).heap o).holder < k
      · exact .inr (.inr ⟨hP', hlt⟩)
      · exact .inl ⟨hP', by omega⟩
  · rintro n ⟨⟨-, x, hh, -⟩, -⟩
    exact Fair.serves hrun hfair (locked_of_holder hh)
  · rintro n ⟨hP, hk⟩ hserves
    rcases hmove n hP with hgoal | ⟨hP', -, hlt⟩
    · exact .inl (.inl hgoal)
    · have := hlt hserves
      exact .inr (.inr ⟨hP', by omega⟩)

lemma Kept.covered {w : Waiter} {time : ℕ} {T : Store V} (h : Kept statusAt time T)
    (hh : (T.heap o).holder = some (w, .answered .stored)) : Covered T w.request.number := by
  have hopen := h.open (holder_table h hh)
  obtain ⟨c, hc, hcr⟩ := hopen.row.stored w hh
  exact ⟨c, hc, by rw [hcr]⟩

lemma waiter_fits {w : Waiter} {time : ℕ} {T : Store V} (h : Kept statusAt time T)
    (hw : w ∈ (T.heap o).waiters) : T.table = some o ∧ Fits T.made time (T.heap o) w.request := by
  have htable : T.table = some o := h.table_of fun hi => by
    rw [hi.waiters] at hw
    cases hw
  exact ⟨htable, (h.row o htable).fits _ (mem_requests_parties (mem_append_right _ hw))⟩

lemma carries_leads (hrun : Run statusAt σ act) (hfair : Fair σ act) (w : Waiter) {N : ℕ}
    (ok : Answer → Prop) (hok : ∀ n, N ≤ n → ∀ a, act n = .reply o a → (a = .gone → (σ n).present = false) → ok a) :
    LeadsTo (fun n => N ≤ n ∧ Carries (σ n) o w) fun n => Covered (σ n) w.request.number ∨
      N ≤ n ∧ act n = .finish o ∧ ∃ a, ((σ n).heap o).holder = some (w, .answered a) ∧ ok a := by
  have hheld := hold_leads hrun hfair w ok hok
  rintro n ⟨hn, hw | hh | ⟨v, t, hh⟩⟩
  · obtain ⟨m, hm, hact, hnone, rest, hwaiters⟩ := wait_leads hrun hfair w n hw
    have hstep := hrun.step m
    rw [hact] at hstep
    obtain ⟨-, q, rest', hwaiters', hcases⟩ := take_lock_cases hstep
    obtain ⟨rfl, rfl⟩ := List.cons.inj (hwaiters'.symm.trans hwaiters)
    rcases hcases with ⟨hs, -⟩ | ⟨-, heq⟩
    · obtain ⟨htable, hfit⟩ := waiter_fits (hrun.kept m) (by rw [hwaiters]; exact mem_cons_self)
      exact ⟨m, hm, .inl (stale_covered ((hrun.kept m).row o htable) hfit hs)⟩
    · obtain ⟨k, hk, hgoal⟩ := hheld (m + 1) ⟨by omega, .connecting, by rw [heq, put_heap], nofun⟩
      exact ⟨k, by omega, .inr hgoal⟩
  · obtain ⟨k, hk, hgoal⟩ := hheld n ⟨hn, _, hh, nofun⟩
    exact ⟨k, hk, .inr hgoal⟩
  · obtain ⟨k, hk, hgoal⟩ := hheld n ⟨hn, _, hh, nofun⟩
    exact ⟨k, hk, .inr hgoal⟩

lemma awaited_covered (hrun : Run statusAt σ act) (hfair : Fair σ act) {w : Waiter} {n : ℕ}
    (hpresent : ∀ m, n ≤ m → (σ m).present = true) (hq : w.queued = false)
    (hw : Carries (σ n) o w) :
    ∃ m, Covered (σ m) w.request.number ∨ w.request ∈ (σ m).raised := by
  obtain ⟨m, -, hc | ⟨-, hact, a, hh, ha⟩⟩ := carries_leads hrun hfair w
    (fun a => a ≠ .gone) (fun m hm a _ hgone heq => by
      rw [hpresent m hm] at hgone
      cases hgone heq) n ⟨le_rfl, hw⟩
  · exact ⟨m, .inl hc⟩
  · cases a with
    | stored => exact ⟨m, .inl ((hrun.kept m).covered hh)⟩
    | transient =>
      have hstep := hrun.step m
      rw [hact] at hstep
      obtain ⟨q, answer, hholder, heq⟩ := finish_cases hstep
      obtain ⟨rfl, hx⟩ := Prod.mk.inj (Option.some.inj (hholder.symm.trans hh))
      obtain rfl := Write.answered.inj hx
      simp only [hq, Bool.false_eq_true, if_false] at heq
      refine ⟨m + 1, .inr ?_⟩
      rw [heq]
      exact mem_append_right _ (mem_singleton_self _)
    | gone => exact absurd rfl ha

lemma carried_covered (hrun : Run statusAt σ act) (hfair : Fair σ act) {i n : ℕ}
    (hpresent : ∀ m, n ≤ m → (σ m).present = true)
    (hcalm : ∀ m, n ≤ m → act m ≠ .reply o .transient) (hc : Carried (σ n) o i) :
    ∃ m, n ≤ m ∧ Covered (σ m) i := by
  obtain ⟨w, -, hi, hw⟩ := hc
  obtain ⟨m, hm, hc | ⟨-, -, a, hh, ha⟩⟩ := carries_leads hrun hfair w
    (fun a => a = .stored) (fun m hm a hact hgone => by
      cases a with
      | stored => rfl
      | transient => exact absurd hact (hcalm m hm)
      | gone =>
        rw [hpresent m hm] at hgone
        cases hgone rfl) n ⟨le_rfl, hw⟩
  · exact ⟨m, hm, hc.mono hi (List.Subset.refl _)⟩
  · subst ha
    exact ⟨m, hm, ((hrun.kept m).covered hh).mono hi (List.Subset.refl _)⟩

lemma due_carried (hrun : Run statusAt σ act) (hfair : Fair σ act) {i n : ℕ}
    (hdue : ∀ m, n ≤ m → Due (σ m) o i) (hclear : ∀ m, n ≤ m → Clear (σ m) o) :
    ∃ m, n ≤ m ∧ (Covered (σ m) i ∨ Carried (σ m) o i) := by
  have hwake : ∀ m, n ≤ m → ((σ m).heap o).task = some .sleeping →
      ∃ k, n ≤ k ∧ (Covered (σ k) i ∨ Carried (σ k) o i) := by
    intro m hm ht
    obtain ⟨k, hk, hact⟩ := hfair.wake o m ht
    have hstep := hrun.step k
    rw [hact] at hstep
    obtain ⟨-, ht', heq⟩ := resume_table (hrun.kept k) hstep
    have hne : Loop.sleeping ≠ .writing := nofun
    refine ⟨k + 1, by omega, ?_⟩
    rw [heq]
    exact loop_top_due (resume_open (hrun.kept k) hne ht') (hdue k (by omega))
  have hfinish : ∀ m, n ≤ m → ∀ w : Waiter, w.queued = true →
      (∃ x, ((σ m).heap o).holder = some (w, x)) →
        ∃ k, n ≤ k ∧ (Covered (σ k) i ∨ Carried (σ k) o i) := by
    rintro m hm w hq ⟨x, hx⟩
    obtain ⟨k, hk, -, hact, a, hh, -⟩ := hold_leads hrun hfair w (N := m) (fun _ => True)
      (fun _ _ _ _ _ => trivial) m ⟨le_rfl, x, hx, fun _ _ => trivial⟩
    have hstep := hrun.step k
    rw [hact] at hstep
    cases a with
    | stored =>
      obtain ⟨q, answer, hholder, heq⟩ := finish_cases hstep
      obtain ⟨rfl, hy⟩ := Prod.mk.inj (Option.some.inj (hholder.symm.trans hh))
      obtain rfl := Write.answered.inj hy
      simp only [hq, if_true] at heq
      have hopen := finish_stored_open (hrun.kept k) hh
      rw [hq] at hopen
      refine ⟨k + 1, by omega, ?_⟩
      rw [heq]
      refine loop_top_due hopen ?_
      unfold Due
      rw [put_heap]
      exact hdue k (by omega)
    | transient =>
      exact hwake (k + 1) (by omega) (finish_transient (hrun.kept k) hq hh hstep).2
    | gone => exact absurd hh (hclear k (by omega) w hq)
  obtain ⟨r, hr, -⟩ := hdue n le_rfl
  have htable : (σ n).table = some o := (hrun.kept n).table_of fun hin => by
    rw [hin.pending] at hr
    cases hr
  have hrow := (hrun.kept n).row o htable
  cases ht : ((σ n).heap o).task with
  | none =>
    rw [hrow.idle ht] at hr
    cases hr
  | some t =>
    cases t with
    | starting =>
      obtain ⟨k, hk, hact⟩ := hfair.start o n ht
      have hstep := hrun.step k
      rw [hact] at hstep
      obtain ⟨-, ht', heq⟩ := resume_table (hrun.kept k) hstep
      have hne : Loop.starting ≠ .writing := nofun
      refine ⟨k + 1, by omega, ?_⟩
      rw [heq]
      exact loop_top_due (resume_open (hrun.kept k) hne ht') (hdue k hk)
    | sleeping => exact hwake n le_rfl ht
    | writing =>
      have hloop := hrow.loop
      rw [ht, if_pos ⟨rfl, rfl⟩] at hloop
      obtain ⟨w, hw, hq⟩ := countP_pos_iff.mp (by
        unfold StatusRow.loops at hloop
        rw [hloop]
        exact Nat.one_pos)
      rcases mem_append.mp hw with hh | hw
      · cases hholder : ((σ n).heap o).holder with
        | none =>
          rw [hholder] at hh
          cases hh
        | some y =>
          rw [hholder] at hh
          obtain rfl := mem_singleton.mp hh
          exact hfinish n le_rfl _ hq ⟨y.2, hholder⟩
      · obtain ⟨m, hm, hact, hnone, rest, hwaiters⟩ := wait_leads hrun hfair w n hw
        have hstep := hrun.step m
        rw [hact] at hstep
        obtain ⟨-, q, rest', hwaiters', hcases⟩ := take_lock_cases hstep
        obtain ⟨rfl, rfl⟩ := List.cons.inj (hwaiters'.symm.trans hwaiters)
        rcases hcases with ⟨-, heq⟩ | ⟨-, heq⟩
        · rw [if_pos hq] at heq
          have hopen := take_stale_open (hrun.kept m) hnone hwaiters
          rw [hq] at hopen
          refine ⟨m + 1, by omega, ?_⟩
          rw [heq]
          refine loop_top_due hopen ?_
          unfold Due
          rw [put_heap]
          exact hdue m hm
        · exact hfinish (m + 1) (by omega) q hq ⟨.connecting, by rw [heq, put_heap]⟩

lemma Fits.made_le {made time : ℕ} {row : StatusRow V} {r : Request} (h : Fits made time row r) :
    r.number ≤ made := by
  have := h.seq
  have := h.number
  omega

lemma Due.made {time i : ℕ} {T : Store V} (h : Kept statusAt time T) (hdue : Due T o i) :
    i ≤ T.made := by
  obtain ⟨r, hr, hir⟩ := hdue
  have hopen := h.open_of (o := o) fun hin => by
    rw [hin.pending] at hr
    cases hr
  exact hir.trans (hopen.row.fits r (mem_requests_pending hr)).made_le

lemma Owed.made {time i : ℕ} {T : Store V} (h : Kept statusAt time T) (howed : Owed T o i) :
    i ≤ T.made := by
  rcases howed with hdue | ⟨w, hw, -, hiw⟩
  · exact hdue.made h
  · have hopen := h.open_of (o := o) fun hin => by
      unfold StatusRow.parties at hw
      rw [hin.holder, hin.waiters] at hw
      cases hw
    exact hiw.trans (hopen.row.fits _ (mem_requests_parties hw)).made_le

lemma due_covered (hrun : Run statusAt σ act) (hfair : Fair σ act) {i n : ℕ} (hpresent : ∀ m, n ≤ m → (σ m).present = true)
    (hcalm : ∀ m, n ≤ m → act m ≠ .reply o .transient) (hclear : ∀ m, n ≤ m → Clear (σ m) o)
    (hdue : Due (σ n) o i) : ∃ m, n ≤ m ∧ Covered (σ m) i := by
  have hcarried : ∀ m, n ≤ m → Covered (σ m) i ∨ Carried (σ m) o i →
      ∃ k, n ≤ k ∧ Covered (σ k) i := by
    rintro m hm (hc | hc)
    · exact ⟨m, hm, hc⟩
    · obtain ⟨k, hk, hc⟩ := carried_covered hrun hfair (fun k hk => hpresent k (hm.trans hk))
        (fun k hk => hcalm k (hm.trans hk)) hc
      exact ⟨k, hm.trans hk, hc⟩
  by_contra hno
  have hall : ∀ m, n ≤ m → Due (σ m) o i := by
    intro m hm
    induction m, hm using Nat.le_induction with
    | base => exact hdue
    | succ m hm ih =>
      have hkept := hrun.kept m
      have hi : i ≤ (σ m).made := Due.made hkept ih
      rcases due_step hkept (hrun.step m) (hclear m hm) hi ih with hc | hc | hc
      · exact absurd (hcarried (m + 1) (by omega) (.inl hc)) hno
      · exact absurd (hcarried (m + 1) (by omega) (.inr hc)) hno
      · exact hc
  obtain ⟨m, hm, hc⟩ := due_carried hrun hfair hall hclear
  exact hno (hcarried m hm hc)

lemma owed_covered (hrun : Run statusAt σ act) (hfair : Fair σ act) {i n N : ℕ} (hpresent : ∀ m, n ≤ m → (σ m).present = true)
    (hcalm : ∀ m, N ≤ m → act m ≠ .reply o .transient) (hclear : Clear (σ n) o)
    (howed : Owed (σ n) o i) : ∃ m, n ≤ m ∧ Covered (σ m) i := by
  by_contra hno
  have hall : ∀ m, n ≤ m → Owed (σ m) o i ∧ Clear (σ m) o := by
    intro m hm
    induction m, hm using Nat.le_induction with
    | base => exact ⟨howed, hclear⟩
    | succ m hm ih =>
      have hkept := hrun.kept m
      refine (owed_step hkept (hrun.step m) (hpresent m hm) (Owed.made hkept ih.1) ih.2
        ih.1).resolve_left fun hc => hno ⟨m + 1, by omega, hc⟩
  have hdue : ∀ m, n ≤ m → N ≤ m → ¬Due (σ m) o i := by
    intro m hm hN hd
    obtain ⟨k, hk, hc⟩ := due_covered hrun hfair (fun k hk => hpresent k (hm.trans hk))
      (fun k hk => hcalm k (hN.trans hk)) (fun k hk => (hall k (hm.trans hk)).2) hd
    exact hno ⟨k, hm.trans hk, hc⟩
  have hnm : n ≤ max n N := le_max_left ..
  have hNm : N ≤ max n N := le_max_right ..
  obtain hd | ⟨w, hw, hq, hiw⟩ := (hall _ hnm).1
  · exact hdue _ hnm hNm hd
  have hcarries : ¬Carries (σ (max n N)) o w := fun hc => by
    obtain ⟨k, hk, hc⟩ := carried_covered hrun hfair (fun k hk => hpresent k (hnm.trans hk))
      (fun k hk => hcalm k (hNm.trans hk)) ⟨w, hq, hiw, hc⟩
    exact hno ⟨k, hnm.trans hk, hc⟩
  obtain ⟨x, hx⟩ := holder_of_parties hw fun hmem => hcarries (.inl hmem)
  obtain ⟨k, hk, -, hact, a, hh, -⟩ := hold_leads hrun hfair w (N := max n N) (fun _ => True)
    (fun _ _ _ _ _ => trivial) _ ⟨le_rfl, x, hx, fun _ _ => trivial⟩
  cases a with
  | stored =>
    exact hno ⟨k, hnm.trans hk, ((hrun.kept k).covered hh).mono hiw (List.Subset.refl _)⟩
  | transient =>
    have hstep := hrun.step k
    rw [hact] at hstep
    obtain ⟨⟨r, hr, hle⟩, -⟩ := finish_transient (hrun.kept k) hq hh hstep
    exact hdue (k + 1) (by omega) (by omega) ⟨r, hr, hiw.trans hle⟩
  | gone => exact (hall k (hnm.trans hk)).2 w hq hh

/-! ### Requests -/

lemma Owed.of_queue (hrun : Run statusAt σ act) {n s : ℕ} (hact : act n = .queue s) :
    Owed (σ (n + 1)) (status_row (σ n)).1 ((σ n).made + 1) := by
  have hstep := hrun.step n
  rw [hact] at hstep
  obtain ⟨r, hr, hview⟩ := queue_view (σ n) s n
  obtain ⟨-, -, hp, -⟩ := view_eq_iff.mp hview
  rw [← Option.some.inj hstep]
  exact .inl ⟨r, hp, hr.ge⟩

lemma status_row_holder (T : Store V) {y : Waiter × Write V} (h : ((status_row T).2.heap (status_row T).1).holder = some y) :
    (T.heap (status_row T).1).holder = some y := by
  have hview := status_row_view T
  split at hview
  · rw [← (parties_view hview).1]
    exact h
  · rw [(parties_view hview).1] at h
    cases h

lemma Clear.of_queue (hrun : Run statusAt σ act) {n s : ℕ} (hact : act n = .queue s)
    (hclear : ∀ o, Clear (σ n) o) : Clear (σ (n + 1)) (status_row (σ n)).1 := by
  have hstep := hrun.step n
  rw [hact] at hstep
  obtain ⟨r, -, hview⟩ := queue_view (σ n) s n
  obtain ⟨hh, -⟩ := view_eq_iff.mp hview
  rw [← Option.some.inj hstep]
  intro w hq hgone
  rw [hh] at hgone
  exact hclear _ w hq (status_row_holder _ hgone)

lemma Carries.of_await (hrun : Run statusAt σ act) {n s : ℕ} (hact : act n = .await s) :
    ∃ r : Request, r.number = (σ n).made + 1 ∧ Carries (σ (n + 1)) (status_row (σ n)).1 ⟨false, r⟩ := by
  have hstep := hrun.step n
  rw [hact] at hstep
  obtain ⟨r, hr, hview⟩ := await_view (hrun.kept n) s
  obtain ⟨hh, hw, -, -⟩ := parties_view hview
  rw [← Option.some.inj hstep]
  refine ⟨r, hr, ?_⟩
  unfold Carries
  rw [hh, hw]
  cases hu : ((status_row (σ n)).2.heap (status_row (σ n)).1).unlocked with
  | true =>
    rw [join_unlocked hu]
    exact .inr (.inl rfl)
  | false =>
    rw [join_locked hu]
    exact .inl (mem_append_right _ (mem_singleton_self _))

end
/-! ### All rows -/

structure Runs {κ : Type} [DecidableEq κ] (statusAt : ℕ → ℕ → V) (S : ℕ → κ → Store V)
    (label : ℕ → κ × Act) : Prop where
  init : S 0 = fun _ => .init V
  step : ∀ n, exec statusAt n (S n) (label n) = some (S (n + 1))

section
variable {κ : Type} [DecidableEq κ] {statusAt : ℕ → ℕ → V} {S : ℕ → κ → Store V}
  {label : ℕ → κ × Act}

def rowAct (key : κ) (label : κ × Act) : Act := if label.1 = key then label.2 else .other

lemma rowAct_same (key : κ) (act : Act) : rowAct key (key, act) = act := if_pos rfl

lemma label_of_reply {key : κ} {l : κ × Act} {o : ℕ} {a : Answer}
    (h : rowAct key l = .reply o a) : l = (key, .reply o a) := by
  unfold rowAct at h
  split at h
  · rename_i hkey
    exact Prod.ext hkey h
  · cases h

lemma Runs.row (h : Runs statusAt S label) (key : κ) :
    Run statusAt (fun n => S n key) fun n => rowAct key (label n) := by
  refine ⟨by rw [h.init], fun n => ?_⟩
  obtain ⟨T, hT, heq⟩ := Option.map_eq_some_iff.mp (h.step n)
  unfold rowAct
  rw [← heq]
  split
  · rename_i hkey
    subst hkey
    rw [Function.update_self]
    exact hT
  · rename_i hkey
    rw [Function.update_of_ne (Ne.symm hkey)]
    rfl

/-! ### Finite runs -/

def play (statusAt : ℕ → ℕ → V) (acts : List Act) : ℕ → Unit → Store V
  | 0 => fun _ => .init V
  | n + 1 =>
    let S := play statusAt acts n
    (exec statusAt n S ((), acts.getD n .other)).getD S

lemma play_runs {acts : List Act} (h : ∀ n < acts.length,
    (step statusAt n (play statusAt acts n ()) (acts.getD n .other)).isSome = true) :
    Runs statusAt (play statusAt acts) fun n => ((), acts.getD n .other) := by
  refine ⟨rfl, fun n => ?_⟩
  have hsome : (exec statusAt n (play statusAt acts n) ((), acts.getD n .other)).isSome = true := by
    unfold exec
    rw [Option.isSome_map]
    by_cases hn : n < acts.length
    · exact h n hn
    · rw [getD_eq_default _ _ (by omega)]
      rfl
  obtain ⟨T, hT⟩ := Option.isSome_iff_exists.mp hsome
  change _ = some ((exec statusAt n (play statusAt acts n) ((), acts.getD n .other)).getD _)
  rw [hT]
  rfl

lemma play_after {acts : List Act} {n : ℕ} (hn : acts.length ≤ n) :
    play statusAt acts n = play statusAt acts acts.length := by
  induction n, hn using Nat.le_induction with
  | base => rfl
  | succ n hn ih =>
    rw [← ih]
    change (exec statusAt n (play statusAt acts n) ((), acts.getD n .other)).getD _ = _
    rw [getD_eq_default _ _ hn]
    exact Function.update_eq_self _ _

lemma fair_of_play {acts : List Act} (hrun : Run statusAt (fun n => play statusAt acts n ()) fun n => acts.getD n .other)
    (hend : (play statusAt acts acts.length ()).table = none)
    (htable : ∀ n < acts.length, (play statusAt acts n ()).table ∈ [none, some 0])
    (hserved : ∀ n < acts.length, (((play statusAt acts n ()).heap 0).task = some .starting → .start 0 ∈ acts.drop n) ∧
      (((play statusAt acts n ()).heap 0).task = some .sleeping → .wake 0 ∈ acts.drop n) ∧
      ((play statusAt acts n ()).heap 0).waiters = [] ∧
      (((play statusAt acts n ()).heap 0).holder.isSome = true → .finish 0 ∈ acts.drop n)) :
    Fair (fun n => play statusAt acts n ()) fun n => acts.getD n .other := by
  have hlater : ∀ {act : Act} {n : ℕ}, act ∈ acts.drop n → ∃ m, n ≤ m ∧ acts.getD m .other = act := by
    intro act n hmem
    obtain ⟨i, hi, heq⟩ := mem_iff_getElem.mp hmem
    rw [getElem_drop] at heq
    exact ⟨n + i, by omega, by rw [getD_eq_getElem _ _ (by simp at hi; omega), heq]⟩
  have hentry : ∀ o n, ¬Inert ((play statusAt acts n ()).heap o) → n < acts.length ∧ o = 0 := by
    intro o n hne
    have ho := (hrun.kept n).table_of hne
    have hn : n < acts.length := by
      by_contra hle
      simp only [play_after (by omega : acts.length ≤ n), hend] at ho
      cases ho
    refine ⟨hn, ?_⟩
    have hmem := htable n hn
    simp only [ho, mem_cons, Option.some.injEq, not_mem_nil, or_false, reduceCtorEq, false_or] at hmem
    exact hmem
  refine ⟨fun o n ht => ?_, fun o n ht => ?_, fun o n hh hw => ?_, fun o n hh => ?_⟩
  · obtain ⟨hn, rfl⟩ := hentry o n fun hin => by rw [hin.task] at ht; cases ht
    exact hlater ((hserved n hn).1 ht)
  · obtain ⟨hn, rfl⟩ := hentry o n fun hin => by rw [hin.task] at ht; cases ht
    exact hlater ((hserved n hn).2.1 ht)
  · obtain ⟨hn, rfl⟩ := hentry o n fun hin => hw hin.waiters
    exact absurd (hserved n hn).2.2.1 hw
  · obtain ⟨hn, rfl⟩ := hentry o n fun hin => hh hin.holder
    obtain ⟨m, hm, hact⟩ := hlater ((hserved n hn).2.2.2 (Option.isSome_iff_ne_none.mpr hh))
    exact ⟨m, hm, .inr (.inr hact)⟩

def retried : List Act :=
  [.create, .queue 0, .start 0, .send 0, .reply 0 .transient, .finish 0, .wake 0, .send 0,
    .reply 0 .stored, .finish 0]

def failed : List Act := [.create, .await 0, .send 0, .reply 0 .transient, .finish 0]

/-! ### Neither lost nor reordered -/

/-- Status writes keep their order and are not lost. -/
theorem status_writes (h : Runs statusAt S label) (key : κ) :
    (∀ n, ((S n key).commits.Pairwise fun c d => c.request.number ≤ d.request.number) ∧
      (∀ c ∈ (S n key).commits,
        c.value = statusAt c.read c.request.status ∧ c.request.made ≤ c.read) ∧
      ∀ o o', ((S n key).heap o).holder ≠ none → ((S n key).heap o').holder ≠ none → o = o') ∧
    (Fair (fun n => S n key) (fun n => rowAct key (label n)) →
      (∃ N, ∀ m, N ≤ m → ∀ o, label m ≠ (key, .reply o .transient)) →
      ∀ n s, (∀ m, n < m → (S m key).present = true) →
        (label n = (key, .queue s) → (∀ o, Clear (S n key) o) →
          ∃ m, Covered (S m key) ((S n key).made + 1)) ∧
        (label n = (key, .await s) →
          ∃ m, Covered (S m key) ((S n key).made + 1) ∨
            ∃ r ∈ (S m key).raised, r.number = (S n key).made + 1)) := by
  have hrun := h.row key
  refine ⟨fun n => ?_, fun hfair hcalm n s hpresent => ⟨fun hlabel hclear => ?_, fun hlabel => ?_⟩⟩
  · have hkept := hrun.kept n
    refine ⟨hkept.commits.order, hkept.commits.value, fun o o' ho ho' => ?_⟩
    have htable := hkept.table_of fun hin => ho hin.holder
    have htable' := hkept.table_of fun hin => ho' hin.holder
    exact Option.some.inj (htable.symm.trans htable')
  · have hact : rowAct key (label n) = .queue s := by rw [hlabel, rowAct_same]
    obtain ⟨N, hN⟩ := hcalm
    obtain ⟨m, -, hm⟩ := owed_covered hrun hfair (fun m hm => hpresent m hm)
      (fun m hm hreply => hN m hm _ (label_of_reply hreply)) (Clear.of_queue hrun hact hclear)
      (Owed.of_queue hrun hact)
    exact ⟨m, hm⟩
  · have hact : rowAct key (label n) = .await s := by rw [hlabel, rowAct_same]
    obtain ⟨r, hr, hcarries⟩ := Carries.of_await hrun hact
    obtain ⟨m, hm⟩ := awaited_covered hrun hfair (fun m hm => hpresent m hm) rfl hcarries
    rw [← hr]
    exact ⟨m, hm.imp_right fun hraised => ⟨r, hraised, rfl⟩⟩

def clock (time _status : ℕ) : ℕ := time

lemma retried_runs : Runs clock (play clock retried) fun n => ((), retried.getD n .other) :=
  play_runs (by decide)

lemma failed_runs : Runs clock (play clock failed) fun n => ((), failed.getD n .other) :=
  play_runs (by decide)

lemma retried_fair : Fair (fun n => play clock retried n ()) fun n => retried.getD n .other :=
  fair_of_play (retried_runs.row ()) rfl (by decide) (by decide)

lemma failed_fair : Fair (fun n => play clock failed n ()) fun n => failed.getD n .other :=
  fair_of_play (failed_runs.row ()) rfl (by decide) (by decide)

lemma play_all {acts : List Act} {P : Store V → Prop} {k : ℕ}
    (h : ∀ n < acts.length + 1, k ≤ n → P (play statusAt acts n ())) (hk : k ≤ acts.length)
    (n : ℕ) (hn : k ≤ n) : P (play statusAt acts n ()) := by
  by_cases hlt : n < acts.length + 1
  · exact h n hlt hn
  · rw [play_after (by omega : acts.length ≤ n)]
    exact h _ (Nat.lt_succ_self _) hk

theorem status_writes_retried :
    (∀ n, (play clock retried n ()).commits.Pairwise
      fun c d => c.request.number ≤ d.request.number) ∧
      ∃ m, Covered (play clock retried m ()) 1 := by
  obtain ⟨hsafe, hlive⟩ := status_writes retried_runs ()
  refine ⟨fun n => (hsafe n).1, ?_⟩
  have hcalm : ∀ m, retried.length ≤ m → ∀ o : ℕ,
      ((), retried.getD m .other) ≠ ((), Act.reply o .transient) := by
    intro m hm o
    rw [getD_eq_default _ _ hm]
    nofun
  have hthere : ∀ n < retried.length + 1, 2 ≤ n → (play clock retried n ()).present = true := by
    decide
  have hpresent : ∀ m, 1 < m → (play clock retried m ()).present = true :=
    play_all (P := fun T => T.present = true) hthere (by decide)
  refine (hlive retried_fair ⟨_, hcalm⟩ 1 0 hpresent).1 rfl fun o w _ hh => ?_
  have hnone : (play clock retried 1 ()).table = none := rfl
  rw [(((retried_runs.row ()).kept 1).inert o (by rw [hnone]; nofun)).holder] at hh
  cases hh

/-- An awaited write that fails is not retried, although the row is there. -/
theorem failed_not_covered :
    Runs clock (play clock failed) (fun n => ((), failed.getD n .other)) ∧
      Fair (fun n => play clock failed n ()) (fun n => rowAct () ((), failed.getD n .other)) ∧
      (∀ m, failed.length ≤ m → ∀ o : ℕ,
        ((), failed.getD m .other) ≠ ((), Act.reply o .transient)) ∧
      ((), failed.getD 1 .other) = ((), Act.await 0) ∧
      (∀ m, 1 < m → (play clock failed m ()).present = true) ∧
      ∀ m, ¬Covered (play clock failed m ()) ((play clock failed 1 ()).made + 1) := by
  have hthere : ∀ n < failed.length + 1, 2 ≤ n → (play clock failed n ()).present = true := by
    decide
  have hnone : ∀ n < failed.length + 1, 0 ≤ n →
      (play clock failed n ()).commits.length = 0 := by decide
  refine ⟨failed_runs, failed_fair, fun m hm o => ?_, rfl,
    play_all (P := fun T => T.present = true) hthere (by decide), ?_⟩
  · rw [getD_eq_default _ _ hm]
    nofun
  · rintro m ⟨c, hc, -⟩
    have hempty := play_all (P := fun T => T.commits.length = 0) hnone (Nat.zero_le _) m
      (Nat.zero_le _)
    rw [length_eq_zero_iff.mp hempty] at hc
    cases hc

end
end CloudServer.StatusWrites
