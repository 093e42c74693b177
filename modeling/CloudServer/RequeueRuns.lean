import CloudServer.Requeue

/-! When no mission is dispatched twice and no new one is swallowed. -/
namespace CloudServer.Requeue
open Steps Function List

variable {ν : Type}

def Mission.stamp (m : Mission) : ℕ × Bool := (m.inc, m.alive)

def Older (a b : ℕ × Bool) : Prop := a.1 < b.1 ∨ a.1 = b.1 ∧ (b.2 = true → a.2 = true)

lemma Older.refl (a : ℕ × Bool) : Older a a := .inr ⟨rfl, id⟩

lemma Older.le {a b : ℕ × Bool} (h : Older a b) : a.1 ≤ b.1 := by
  rcases h with h | ⟨h, -⟩ <;> omega

section
variable [DecidableEq ν]

def arriving (n : ν) (inbox : List (ν × Mission)) : List (ℕ × Bool) :=
  inbox.filterMap fun e => if e.1 = n then some e.2.stamp else none

def World.stamps (w : World ν) (n : ν) : List (ℕ × Bool) :=
  arriving n w.inbox ++ ((w.rows n).map Mission.stamp).toList

def World.keys (w : World ν) : List (ν × ℕ) := w.missions.map fun e => (e.1, e.2.inc)

structure Inv (w : World ν) : Prop where
  born : ∀ n, ∀ s ∈ w.stamps n, s.1 < w.born
  ordered : ∀ n, (w.stamps n).Pairwise Older
  names : (w.keys.map Prod.fst).Nodup
  bornKeys : ∀ e ∈ w.keys, e.2 < w.born
  seen : ∀ e ∈ w.keys, ∀ s ∈ w.stamps e.1, e.2 ≤ s.1
  bornStarts : ∀ e ∈ w.starts, e.2 < w.born
  behind : ∀ e ∈ w.starts, ∀ s ∈ w.stamps e.1, e.2 ≤ s.1
  running : ∀ e ∈ w.keys, e ∈ w.starts → w.current = some e.1 ∧ w.tree = true
  closed : ∀ e ∈ w.starts, e ∈ w.keys ∨ e.1 ∈ w.finished ∨
    ∀ s ∈ w.stamps e.1, s.1 = e.2 → s.2 = false
  once : w.starts.Nodup

variable {w w' : World ν}

lemma Inv.empty : Inv (World.empty : World ν) := by
  refine ⟨?_, ?_, ?_, ?_, ?_, ?_, ?_, ?_, ?_, ?_⟩ <;>
    simp [World.empty, World.fresh, World.stamps, World.keys, arriving]

lemma Inv.reads (h : Inv w) (hord : ∀ n, (w'.stamps n).Pairwise Older)
    (hstamps : ∀ n, w'.stamps n ⊆ w.stamps n) (hborn : w'.born = w.born) (hkeys : w'.keys = w.keys)
    (hcur : w'.current = w.current) (htree : w'.tree = w.tree) (hfin : w'.finished = w.finished)
    (hst : w'.starts = w.starts) : Inv w' := by
  refine ⟨fun n s hs => ?_, hord, ?_, ?_, fun e he s hs => ?_, ?_, fun e he s hs => ?_, ?_, fun e he => ?_, ?_⟩
  · rw [hborn]
    exact h.born n s (hstamps n hs)
  · rw [hkeys]
    exact h.names
  · rw [hkeys, hborn]
    exact h.bornKeys
  · rw [hkeys] at he
    exact h.seen e he s (hstamps e.1 hs)
  · rw [hst, hborn]
    exact h.bornStarts
  · rw [hst] at he
    exact h.behind e he s (hstamps e.1 hs)
  · rw [hkeys, hst, hcur, htree]
    exact h.running
  · rw [hst] at he
    rw [hkeys, hfin]
    rcases h.closed e he with hk | hf | hd
    · exact .inl hk
    · exact .inr (.inl hf)
    · exact .inr (.inr fun s hs => hd s (hstamps e.1 hs))
  · rw [hst]
    exact h.once

lemma Inv.shrinks (h : Inv w) (hstamps : ∀ n, (w'.stamps n).Sublist (w.stamps n))
    (hborn : w'.born = w.born) (hkeys : w'.keys = w.keys) (hcur : w'.current = w.current)
    (htree : w'.tree = w.tree) (hfin : w'.finished = w.finished) (hst : w'.starts = w.starts) :
    Inv w' :=
  h.reads (fun n => (h.ordered n).sublist (hstamps n)) (fun n => (hstamps n).subset) hborn hkeys hcur
    htree hfin hst

lemma stamps_update (w : World ν) (n k : ν) (r : Option Mission) :
    ({ w with rows := update w.rows n r } : World ν).stamps k =
      if k = n then arriving n w.inbox ++ (r.map Mission.stamp).toList else w.stamps k := by
  unfold World.stamps
  by_cases hk : k = n
  · subst hk
    simp
  · simp [hk]

variable {message : Mission} {a : Act ν} {f : Mission → Mission}

lemma keys_alter (w : World ν) (n : ν) (hf : ∀ e ∈ w.missions, e.1 = n →
    (f e.2).inc = e.2.inc) : (w.alter n f).keys = w.keys := by
  unfold World.keys World.alter
  rw [map_map]
  refine map_congr_left fun e he => ?_
  by_cases hn : e.1 = n
  · simp [hn, hf e he hn]
  · simp [hn]

variable {n : ν} {m : Mission} {limit : ℕ}

lemma mission_mem (h : w.mission n = some m) : (n, m) ∈ w.missions := by
  obtain ⟨e, he, rfl⟩ := Option.map_eq_some_iff.mp h
  have hn : e.1 = n := by simpa using List.find?_some he
  have hmem := mem_of_find?_eq_some he
  rw [← hn]
  exact hmem

lemma key_mem (h : w.mission n = some m) : (n, m.inc) ∈ w.keys :=
  mem_map.mpr ⟨(n, m), mission_mem h, rfl⟩

lemma mission_none : w.mission n = none ↔ ∀ e ∈ w.keys, e.1 ≠ n := by
  unfold World.mission World.keys
  rw [Option.map_eq_none_iff, List.find?_eq_none, forall_mem_map]
  simp

lemma Inv.key_unique (h : Inv w) {i j : ℕ} (hi : (n, i) ∈ w.keys) (hj : (n, j) ∈ w.keys) :
    i = j :=
  congrArg Prod.snd (inj_on_of_nodup_map h.names hi hj rfl)

lemma Inv.mission_inc (h : Inv w) (hm : w.mission n = some m) :
    ∀ e ∈ w.missions, e.1 = n → m.inc = e.2.inc := by
  intro e he hn
  refine h.key_unique (key_mem hm) (mem_map.mpr ⟨e, he, ?_⟩)
  rw [← hn]

lemma stamps_store (w : World ν) (n k : ν) (s : Status) : (w.store n s).stamps k = w.stamps k := by
  unfold World.store
  rw [stamps_update]
  split
  · rename_i hk
    subst hk
    unfold World.stamps
    cases w.rows k <;> rfl
  · rfl

lemma stamps_eraseRow (w : World ν) (n k : ν) : ((w.eraseRow n).stamps k).Sublist (w.stamps k) := by
  unfold World.eraseRow
  rw [stamps_update]
  split
  · rename_i hk
    subst hk
    exact sublist_append_of_sublist_left (by simp)
  · exact .refl _

lemma Inv.store (h : Inv w) (n : ν) (s : Status) : Inv (w.store n s) :=
  h.shrinks (fun k => by rw [stamps_store]) rfl rfl rfl rfl rfl rfl

lemma Inv.eraseRow (h : Inv w) (n : ν) : Inv (w.eraseRow n) :=
  h.shrinks (stamps_eraseRow w n) rfl rfl rfl rfl rfl rfl

lemma Inv.alter (h : Inv w) (hm : w.mission n = some m)
    (hf : ∀ m', m'.inc = m.inc → (f m').inc = m.inc) : Inv (w.alter n f) := by
  refine h.shrinks (fun k => .refl _) rfl (keys_alter w n fun e he hn => ?_) rfl rfl rfl rfl
  have hinc := h.mission_inc hm e he hn
  rw [hf e.2 hinc.symm, hinc]

lemma Inv.setStatus (h : Inv w) (hm : w.mission n = some m) (s : Status) :
    Inv (w.setStatus n s) :=
  (h.alter hm (f := fun m => { m with status := s }) fun _ hm' => hm').shrinks (fun _ => .refl _)
    rfl rfl rfl rfl rfl rfl

lemma Inv.created (h : Inv w) (hn : w.rows n = none) :
    Inv { w with rows := update w.rows n (some (.created w.born)), born := w.born + 1 } := by
  have hstamps (k : ν) : ∀ s ∈ ({ w with rows := update w.rows n (some (.created w.born)) } :
      World ν).stamps k, s ∈ w.stamps k ∨ s = (w.born, true) := by
    intro s hs
    rw [stamps_update] at hs
    split at hs
    · rename_i hk
      subst hk
      rcases mem_append.mp hs with hs | hs
      · exact .inl (mem_append_left _ hs)
      · exact .inr (by simpa [Mission.created, Mission.stamp] using hs)
    · exact .inl hs
  refine ⟨fun k s hs => ?_, fun k => ?_, h.names, fun e he => (h.bornKeys e he).trans (Nat.lt_succ_self _),
    fun e he s hs => ?_, fun e he => (h.bornStarts e he).trans (Nat.lt_succ_self _),
    fun e he s hs => ?_, h.running, fun e he => ?_, h.once⟩
  · rcases hstamps k s hs with hs | rfl
    · exact (h.born k s hs).trans (Nat.lt_succ_self _)
    · exact Nat.lt_succ_self _
  · change (({ w with rows := update w.rows n (some (.created w.born)) } : World ν).stamps k).Pairwise _
    rw [stamps_update]
    split
    · rename_i hk
      subst hk
      have hord := h.ordered k
      unfold World.stamps at hord
      rw [hn] at hord
      refine pairwise_append.mpr ⟨by simpa using hord, pairwise_singleton _ _, ?_⟩
      intro a ha b hb
      obtain rfl : b = (w.born, true) := by simpa [Mission.created, Mission.stamp] using hb
      exact .inl (h.born k a (mem_append_left _ ha))
    · exact h.ordered k
  · rcases hstamps e.1 s hs with hs | rfl
    · exact h.seen e he s hs
    · exact (h.bornKeys e he).le
  · rcases hstamps e.1 s hs with hs | rfl
    · exact h.behind e he s hs
    · exact (h.bornStarts e he).le
  · rcases h.closed e he with hk | hf | hd
    · exact .inl hk
    · exact .inr (.inl hf)
    · refine .inr (.inr fun s hs hinc => ?_)
      rcases hstamps e.1 s hs with hs | rfl
      · exact hd s hs hinc
      · exact absurd hinc (h.bornStarts e he).ne'

lemma Inv.marked (h : Inv w) {r : Mission} (hn : w.rows n = some r) :
    Inv { w with rows := update w.rows n (some { r with alive := false }) } := by
  have hr : r.stamp ∈ w.stamps n := by
    unfold World.stamps
    rw [hn]
    exact mem_append_right _ (.head _)
  have hstamps (k : ν) : ∀ s ∈ ({ w with rows := update w.rows n (some { r with alive := false }) } :
      World ν).stamps k, s ∈ w.stamps k ∨ k = n ∧ s = (r.inc, false) := by
    intro s hs
    rw [stamps_update] at hs
    split at hs
    · rename_i hk
      subst hk
      rcases mem_append.mp hs with hs | hs
      · exact .inl (mem_append_left _ hs)
      · exact .inr ⟨rfl, by simpa [Mission.stamp] using hs⟩
    · exact .inl hs
  refine ⟨fun k s hs => ?_, fun k => ?_, h.names, h.bornKeys, fun e he s hs => ?_, h.bornStarts,
    fun e he s hs => ?_, h.running, fun e he => ?_, h.once⟩
  · rcases hstamps k s hs with hs | ⟨rfl, rfl⟩
    · exact h.born k s hs
    · exact h.born _ r.stamp hr
  · rw [stamps_update]
    split
    · rename_i hk
      subst hk
      have hord := h.ordered k
      unfold World.stamps at hord
      rw [hn] at hord
      obtain ⟨hin, -, hlast⟩ := pairwise_append.mp hord
      refine pairwise_append.mpr ⟨hin, pairwise_singleton _ _, fun a ha b hb => ?_⟩
      obtain rfl : b = (r.inc, false) := by simpa [Mission.stamp] using hb
      rcases hlast a ha r.stamp (.head _) with hlt | ⟨heq, -⟩
      · exact .inl hlt
      · exact .inr ⟨heq, fun hf => (nomatch hf)⟩
    · exact h.ordered k
  · rcases hstamps e.1 s hs with hs | ⟨he', rfl⟩
    · exact h.seen e he s hs
    · exact h.seen e he r.stamp (he' ▸ hr)
  · rcases hstamps e.1 s hs with hs | ⟨he', rfl⟩
    · exact h.behind e he s hs
    · exact h.behind e he r.stamp (he' ▸ hr)
  · rcases h.closed e he with hk | hf | hd
    · exact .inl hk
    · exact .inr (.inl hf)
    · refine .inr (.inr fun s hs hinc => ?_)
      rcases hstamps e.1 s hs with hs | ⟨-, rfl⟩
      · exact hd s hs hinc
      · rfl

lemma Inv.delivered (h : Inv w) {r : Mission} (hn : w.rows n = some r) :
    Inv { w with inbox := w.inbox ++ [(n, r)] } := by
  have hstamps (k : ν) : ({ w with inbox := w.inbox ++ [(n, r)] } : World ν).stamps k =
      if k = n then arriving n w.inbox ++ [r.stamp, r.stamp] else w.stamps k := by
    unfold World.stamps arriving
    split
    · rename_i hk
      subst hk
      rw [hn]
      simp
    · rename_i hk
      simp [Ne.symm hk]
  refine h.reads (fun k => ?_) (fun k => ?_) rfl rfl rfl rfl rfl rfl <;> rw [hstamps k] <;> split
  · have hord := h.ordered n
    unfold World.stamps at hord
    rw [hn] at hord
    obtain ⟨hin, -, hlast⟩ := pairwise_append.mp hord
    refine pairwise_append.mpr ⟨hin, by simp [Older.refl], fun a ha b hb => ?_⟩
    obtain rfl : b = r.stamp := by simpa using hb
    exact hlast a ha _ (.head _)
  · exact h.ordered k
  · rename_i hk
    subst hk
    unfold World.stamps
    rw [hn]
    intro s hs
    rcases mem_append.mp hs with hs | hs
    · exact mem_append_left _ hs
    · exact mem_append_right _ (by simpa using hs)
  · exact List.Subset.refl _

lemma Inv.restarted (h : Inv w) : Inv (World.fresh w.rows w.born) := by
  have hsub (n : ν) : ((World.fresh w.rows w.born).stamps n).Sublist (w.stamps n) :=
    sublist_append_right _ _
  refine ⟨fun n s hs => h.born n s ((hsub n).subset hs), fun n => (h.ordered n).sublist (hsub n),
    .nil, fun _ he => ?_, fun _ he => ?_, fun _ he => ?_, fun _ he => ?_, fun _ he => ?_,
    fun _ he => ?_, .nil⟩ <;> cases he

lemma Inv.slot (h : Inv w) (hno : ∀ e ∈ w.keys, e ∉ w.starts) (cur : Option ν) (tree : Bool) :
    Inv { w with current := cur, tree := tree } :=
  { h with running := fun e he hs => absurd hs (hno e he) }

lemma Inv.dispatches (h : Inv w) (hcur : w.current = some n)
    (htree : w.tree = false) (hm : w.mission n = some m) :
    Inv { w with tree := true, starts := (n, m.inc) :: w.starts } := by
  have hkey := key_mem hm
  have hno : ∀ e ∈ w.keys, e ∉ w.starts := by
    intro e he hs
    rw [(h.running e he hs).2] at htree
    cases htree
  refine ⟨h.born, h.ordered, h.names, h.bornKeys, h.seen, fun e he => ?_, fun e he => ?_,
    fun e he hs => ⟨?_, rfl⟩, fun e he => ?_, nodup_cons.mpr ⟨hno _ hkey, h.once⟩⟩
  · rcases mem_cons.mp he with rfl | he
    · exact h.bornKeys _ hkey
    · exact h.bornStarts e he
  · rcases mem_cons.mp he with rfl | he
    · exact h.seen _ hkey
    · exact h.behind e he
  · rcases mem_cons.mp hs with rfl | hs
    · exact hcur
    · exact absurd hs (hno e he)
  · rcases mem_cons.mp he with rfl | he
    · exact .inl hkey
    · exact h.closed e he

lemma mem_keys_drop {e : ν × ℕ} : e ∈ (w.drop n).keys ↔ e ∈ w.keys ∧ e.1 ≠ n := by
  unfold World.keys World.drop
  simp only [mem_map, mem_filter, decide_eq_true_eq]
  constructor
  · rintro ⟨f, ⟨hf, hn⟩, rfl⟩
    exact ⟨⟨f, hf, rfl⟩, hn⟩
  · rintro ⟨⟨f, hf, rfl⟩, hn⟩
    exact ⟨f, ⟨hf, hn⟩, rfl⟩

lemma Inv.dropped (h : Inv w)
    (hn : ∀ i, (n, i) ∈ w.keys → (n, i) ∈ w.starts → n ∈ w.finished) : Inv (w.drop n) := by
  refine { h with
    names := h.names.sublist (List.Sublist.map _ (List.Sublist.map _ filter_sublist))
    bornKeys := fun e he => h.bornKeys e (mem_keys_drop.mp he).1
    seen := fun e he => h.seen e (mem_keys_drop.mp he).1
    running := fun e he hs => h.running e (mem_keys_drop.mp he).1 hs
    closed := fun e he => ?_ }
  rcases h.closed e he with hk | hrest
  · by_cases hen : e.1 = n
    · subst hen
      exact .inr (.inl (hn e.2 hk he))
    · exact .inl (mem_keys_drop.mpr ⟨hk, hen⟩)
  · exact .inr hrest

lemma Inv.remembers (h : Inv w) (n : ν) (hfew : w.finished.length < limit) :
    Inv (w.remember limit n) ∧ n ∈ (w.remember limit n).finished := by
  have hlen : (w.finished.filter (fun k => k ≠ n) ++ [n]).length - limit = 0 := by
    have := length_filter_le (fun k => k ≠ n) w.finished
    rw [length_append, length_singleton]
    omega
  have hfin : (w.remember limit n).finished = w.finished.filter (fun k => k ≠ n) ++ [n] := by
    unfold World.remember
    dsimp only
    rw [hlen]
    rfl
  refine ⟨{ h with closed := fun e he => ?_ }, ?_⟩
  · rcases h.closed e he with hk | hf | hd
    · exact .inl hk
    · refine .inr (.inl ?_)
      rw [hfin]
      by_cases hen : e.1 = n
      · rw [hen]
        exact mem_append_right _ (.head _)
      · exact mem_append_left _ (mem_filter.mpr ⟨hf, decide_eq_true hen⟩)
    · exact .inr (.inr hd)
  · rw [hfin]
    exact mem_append_right _ (.head _)

lemma Inv.forgets (h : Inv w) (hd : ∀ i, (n, i) ∈ w.starts → (n, i) ∉ w.keys →
    ∀ s ∈ w.stamps n, s.1 = i → s.2 = false) : Inv (w.forget n) := by
  refine { h with closed := fun e he => ?_ }
  by_cases hk : e ∈ w.keys
  · exact .inl hk
  by_cases hen : e.1 = n
  · subst hen
    exact .inr (.inr (hd e.2 he hk))
  · rcases h.closed e he with hk | hf | hd
    · exact .inl hk
    · exact .inr (.inl (mem_filter.mpr ⟨hf, decide_eq_true hen⟩))
    · exact .inr (.inr hd)

lemma Inv.enqueues (h : Inv w) (hnone : w.mission n = none)
    (hborn : m.inc < w.born) (hseen : ∀ s ∈ w.stamps n, m.inc ≤ s.1) (hnot : (n, m.inc) ∉ w.starts)
    {missions : List (ν × Mission)} (hperm : missions.Perm ((n, m) :: w.missions)) :
    Inv { w with missions := missions } := by
  have hkeys : ({ w with missions := missions } : World ν).keys.Perm ((n, m.inc) :: w.keys) :=
    hperm.map _
  refine ⟨h.born, h.ordered, ?_, fun e he => ?_, fun e he => ?_, h.bornStarts, h.behind,
    fun e he hs => ?_, fun e he => ?_, h.once⟩
  · refine (hkeys.map Prod.fst).nodup_iff.mpr (nodup_cons.mpr ⟨fun hmem => ?_, h.names⟩)
    obtain ⟨e, he, hen⟩ := mem_map.mp hmem
    exact mission_none.mp hnone e he hen
  · rcases mem_cons.mp (hkeys.subset he) with rfl | he
    · exact hborn
    · exact h.bornKeys e he
  · rcases mem_cons.mp (hkeys.subset he) with rfl | he
    · exact hseen
    · exact h.seen e he
  · rcases mem_cons.mp (hkeys.subset he) with rfl | he
    · exact absurd hs hnot
    · exact h.running e he hs
  · rcases h.closed e he with hk | hrest
    · exact .inl (hkeys.symm.subset (.tail _ hk))
    · exact .inr hrest

structure Handled (w : World ν) (n : ν) (message : Mission) : Prop where
  inv : Inv w
  born : message.inc < w.born
  older : ∀ s ∈ w.stamps n, Older message.stamp s
  behind : ∀ i, (n, i) ∈ w.starts → i ≤ message.inc
  closed : ∀ i, (n, i) ∈ w.starts → (n, i) ∈ w.keys ∨ n ∈ w.finished ∨
    (message.inc = i → message.alive = false)

lemma Inv.handled (h : Inv w) {rest : List (ν × Mission)}
    (hin : w.inbox = (n, message) :: rest) : Handled { w with inbox := rest } n message := by
  have hstamps (k : ν) : w.stamps k = (if n = k then [message.stamp] else []) ++
      ({ w with inbox := rest } : World ν).stamps k := by
    unfold World.stamps arriving
    rw [hin]
    split
    · rename_i hk
      simp [hk]
    · rename_i hk
      simp [hk]
  have hhead : w.stamps n = message.stamp :: ({ w with inbox := rest } : World ν).stamps n := by
    rw [hstamps n, if_pos rfl]
    rfl
  have hmem : message.stamp ∈ w.stamps n := by
    rw [hhead]
    exact .head _
  have hord := h.ordered n
  rw [hhead] at hord
  refine ⟨h.shrinks (fun k => ?_) rfl rfl rfl rfl rfl rfl, h.born n _ hmem,
    (pairwise_cons.mp hord).1, fun i hi => h.behind _ hi _ hmem, fun i hi => ?_⟩
  · rw [hstamps k]
    exact sublist_append_right _ _
  · rcases h.closed _ hi with hk | hf | hd
    · exact .inl hk
    · exact .inr (.inl hf)
    · exact .inr (.inr fun hinc => hd _ hmem hinc)

lemma Handled.onUnknown (h : Handled w n message)
    (hnone : w.mission n = none) (ht : message.looksFreshlyCreated = true → (n, message.inc) ∉ w.starts) :
    Inv (w.onUnknown n message) := by
  have hkeys (i : ℕ) : (n, i) ∉ w.keys := fun hk => mission_none.mp hnone _ hk rfl
  have henq {v : World ν} (hv : Inv v) (hvnone : v.mission n = none) (hb : v.born = w.born)
      (hs : v.stamps n = w.stamps n) (hnot : (n, message.inc) ∉ v.starts) :
      Inv (if message.status.started then { v with missions := (n, message) :: v.missions }
        else { v with missions := v.missions ++ [(n, message)] }) := by
    have hborn : message.inc < v.born := hb ▸ h.born
    have hseen : ∀ s ∈ v.stamps n, message.inc ≤ s.1 := fun s hs' => (h.older s (hs ▸ hs')).le
    split
    · exact hv.enqueues hvnone hborn hseen hnot (.refl _)
    · exact hv.enqueues hvnone hborn hseen hnot (perm_append_singleton _ _)
  unfold World.onUnknown
  split
  · rename_i halive
    have hdead : message.alive = false := by simpa using halive
    refine h.inv.forgets fun i hi _ s hs hinc => ?_
    rcases h.older s hs with hlt | ⟨heq, hal⟩
    · exact absurd (h.behind i hi) (by rw [← hinc]; exact not_le.mpr hlt)
    · by_contra hs'
      rw [Bool.not_eq_false] at hs'
      have := hal hs'
      rw [Mission.stamp, hdead] at this
      cases this
  · rename_i halive
    have hlive : message.alive = true := by simpa using halive
    by_cases hfresh : message.looksFreshlyCreated = true
    · -- a new creation: every dispatched one of the name is older than what can still be read
      have hforget : Inv (w.forget n) := by
        refine h.inv.forgets fun i hi _ s hs hinc => ?_
        have hle := h.behind i hi
        have hle' := (h.older s hs).le
        have heq : i = message.inc := Nat.le_antisymm hle (hinc ▸ hle')
        exact absurd (heq ▸ hi) (ht hfresh)
      rw [if_pos hfresh]
      dsimp only
      split
      · exact hforget
      split
      · exact hforget
      · exact henq hforget hnone rfl rfl (ht hfresh)
    · rw [if_neg hfresh]
      dsimp only
      split
      · exact h.inv
      rename_i hfin
      split
      · exact h.inv
      · refine henq h.inv hnone rfl rfl fun hi => ?_
        rcases h.closed _ hi with hk | hf | hd
        · exact hkeys _ hk
        · exact hfin hf
        · have := hd rfl
          rw [hlive] at this
          cases this

omit [DecidableEq ν] in
@[simp] lemma updateMissionFromApi_inc (m message : Mission) :
    (updateMissionFromApi m message).inc = m.inc := by
  unfold updateMissionFromApi
  split
  · rfl
  · split <;> rfl

lemma Inv.onKnown (h : Inv w) (hm : w.mission n = some m) (message : Mission)
    (ok : Bool) : Inv (w.onKnown n message ok m) := by
  have halter (m' : Mission) (hm' : m'.inc = m.inc) : Inv (w.alter n fun _ => m') :=
    h.alter hm fun _ _ => hm'
  unfold World.onKnown
  dsimp only
  split
  · refine h.alter hm fun _ _ => ?_
    split <;> simp
  rename_i hcur
  have hdrop {v : World ν} (hv : Inv v) (hst : v.starts = w.starts) (hc : v.current = w.current) :
      Inv (v.drop n) :=
    hv.dropped fun i hk hs => absurd ((hv.running _ hk hs).1.symm.trans hc).symm hcur
  split
  · split
    · exact hdrop ((halter _ (updateMissionFromApi_inc m message)).eraseRow n) rfl rfl
    · exact halter _ (updateMissionFromApi_inc m message)
  split
  · have hcanceled := halter { updateMissionFromApi m message with
      status := { (updateMissionFromApi m message).status with state := .canceled } }
      (updateMissionFromApi_inc m message)
    split
    · exact hdrop (hcanceled.store n _) rfl rfl
    · exact hcanceled
  · exact halter _ (updateMissionFromApi_inc m message)

lemma Handled.process (h : Handled w n message)
    (ht : message.looksFreshlyCreated = true → w.mission n = none → (n, message.inc) ∉ w.starts)
    (ok : Bool) : Inv (w.process n message ok) := by
  unfold World.process
  split
  · split
    · exact h.inv.eraseRow n
    · exact h.inv
  · unfold World.onMissionChange
    split
    · rename_i hnone
      exact h.onUnknown hnone fun hfresh => ht hfresh hnone
    · rename_i m hm
      exact h.inv.onKnown hm message ok

lemma Inv.step (h : Inv w) (hc : Timely limit w a) (hw : step limit w a = some w') : Inv w' := by
  cases a with
  | create n =>
    dsimp only [Requeue.step] at hw
    split at hw
    · rename_i hn
      cases hw
      exact h.created hn
    · cases hw
  | cancel n =>
    obtain ⟨r, hr, rfl⟩ := Option.map_eq_some_iff.mp hw
    refine h.shrinks (fun k => ?_) rfl rfl rfl rfl rfl rfl
    rw [stamps_update]
    split
    · rename_i hk
      subst hk
      unfold World.stamps
      rw [hr]
      exact .refl _
    · exact .refl _
  | markDelete n =>
    obtain ⟨r, hr, rfl⟩ := Option.map_eq_some_iff.mp hw
    exact h.marked hr
  | delete n =>
    cases hw
    exact h.eraseRow n
  | deliver n =>
    obtain ⟨r, hr, rfl⟩ := Option.map_eq_some_iff.mp hw
    exact h.delivered hr
  | restart =>
    cases hw
    exact h.restarted
  | handle ok =>
    dsimp only [Requeue.step] at hw
    split at hw
    · cases hw
    · rename_i n message rest hin
      cases hw
      exact (h.handled hin).process (hc n message (by rw [hin]; rfl)) ok
  | pick =>
    dsimp only [Requeue.step] at hw
    split at hw
    · rename_i hcur
      obtain ⟨n, -, rfl⟩ := Option.map_eq_some_iff.mp hw
      refine h.slot (fun e he hs => ?_) (some n) false
      have := (h.running e he hs).1
      rw [hcur] at this
      cases this
    · cases hw
  | assignRunId id ok =>
    obtain ⟨n, -, hw⟩ := Option.bind_eq_some_iff.mp hw
    obtain ⟨m, hm, hw⟩ := Option.bind_eq_some_iff.mp hw
    split at hw
    · split at hw
      · cases hw
        refine Inv.store (Inv.alter (m := m) ?_ ?_ ?_) n _
        · exact h.shrinks (fun _ => .refl _) rfl rfl rfl rfl rfl rfl
        · exact hm
        · exact fun _ hm' => hm'
      · cases hw
        exact h
    · cases hw
  | dispatch =>
    obtain ⟨n, hn, hw⟩ := Option.bind_eq_some_iff.mp hw
    obtain ⟨m, hm, hw⟩ := Option.bind_eq_some_iff.mp hw
    split at hw
    · rename_i hguard
      cases hw
      exact h.dispatches hn (by simpa using hguard.1) hm
    · cases hw
  | run =>
    obtain ⟨n, -, hw⟩ := Option.bind_eq_some_iff.mp hw
    obtain ⟨m, hm, hw⟩ := Option.bind_eq_some_iff.mp hw
    split at hw
    · cases hw
      exact h.setStatus hm _
    · cases hw
  | finish s =>
    obtain ⟨n, -, hw⟩ := Option.bind_eq_some_iff.mp hw
    obtain ⟨m, hm, hw⟩ := Option.bind_eq_some_iff.mp hw
    split at hw
    · cases hw
      exact h.setStatus hm _
    · cases hw
  | getNext =>
    obtain ⟨n, hn, hw⟩ := Option.bind_eq_some_iff.mp hw
    obtain ⟨m, -, hw⟩ := Option.bind_eq_some_iff.mp hw
    split at hw
    · cases hw
      obtain ⟨hinv, hfin⟩ := h.remembers n hc
      have hdrop := hinv.dropped fun _ _ _ => hfin
      refine hdrop.slot (fun e he hs => ?_) none w.tree
      obtain ⟨hcur, -⟩ := hdrop.running e he hs
      exact (mem_keys_drop.mp he).2 (Option.some.inj (hcur.symm.trans hn))
    · cases hw
  | writeStarts n =>
    dsimp only [Requeue.step] at hw
    split at hw
    · cases hw
      exact h.shrinks (fun _ => .refl _) rfl rfl rfl rfl rfl rfl
    · cases hw
  | writeLands n =>
    obtain ⟨s, -, rfl⟩ := Option.map_eq_some_iff.mp hw
    exact (h.store n s).shrinks (fun _ => .refl _) rfl rfl rfl rfl rfl rfl
  | writeFails n =>
    obtain ⟨s, -, rfl⟩ := Option.map_eq_some_iff.mp hw
    exact h.shrinks (fun _ => .refl _) rfl rfl rfl rfl rfl rfl

lemma queued_of_fresh (halive : m.alive = true)
    (hfresh : m.looksFreshlyCreated = true) (hnone : w.mission n = none) (ok : Bool) :
    (w.process n m ok).mission n = some m := by
  obtain ⟨hstate, hstarted⟩ := Bool.and_eq_true_iff.mp hfresh
  have hdone : m.status.state.done = false := by
    rw [of_decide_eq_true hstate]
    rfl
  have hstart : m.status.started = false := by simpa using hstarted
  have hforgot : n ∉ (w.forget n).finished := by
    simp [World.forget]
  have hq : w.process n m ok = { w.forget n with missions := w.missions ++ [(n, m)] } := by
    unfold World.process World.onMissionChange World.onUnknown
    rw [hdone, hnone]
    simp [halive, hfresh, hforgot, hstart]
    rfl
  have hnot : w.missions.find? (fun e => e.1 = n) = none := Option.map_eq_none_iff.mp hnone
  rw [hq]
  unfold World.mission
  dsimp only
  rw [List.find?_append, hnot]
  simp

lemma Inv.of_runs (h : Runs (Requeue.step limit) (Timely limit) World.empty w) : Inv w :=
  h.invariant .empty fun _ _ _ hc hi hw => hi.step hc hw

/-- No creation of a name is dispatched twice, and a new one that is delivered while its name is
not in the queue is queued. -/
theorem dispatched_once {limit : ℕ} (h : Runs (step limit) (Timely limit) World.empty w) :
    w.starts.Nodup ∧
      ∀ n m rest ok w', w.inbox = (n, m) :: rest → m.alive = true →
        m.looksFreshlyCreated = true → w.mission n = none →
        step limit w (.handle ok) = some w' → w'.mission n = some m := by
  refine ⟨(Inv.of_runs h).once, fun n m rest ok w' hin halive hfresh hnone hw => ?_⟩
  dsimp only [step] at hw
  rw [hin] at hw
  cases hw
  exact queued_of_fresh (w := { w with inbox := rest }) halive hfresh hnone ok

def few (limit : ℕ) (w : World ν) : Act ν → Bool
  | .getNext => w.finished.length < limit
  | _ => true

omit [DecidableEq ν] in
lemma few_sound (h : few limit w a = true) : Few limit w a := by
  cases a with
  | getNext => exact (of_decide_eq_true h : w.finished.length < limit)
  | _ => trivial

def timely (limit : ℕ) (w : World ν) : Act ν → Bool
  | .handle _ => w.inbox.head?.all fun e =>
    !(e.2.looksFreshlyCreated && (w.mission e.1).isNone) || (e.1, e.2.inc) ∉ w.starts
  | a => few limit w a

lemma timely_sound (h : timely limit w a = true) : Timely limit w a := by
  cases a with
  | handle ok =>
    intro n m hin hfresh hnone
    unfold timely at h
    rw [hin] at h
    simpa [hfresh, hnone] using h
  | getNext => exact (of_decide_eq_true h : w.finished.length < limit)
  | _ => trivial

end

/-- A mission that is created, delivered, dispatched and finished before its running status is
stored. -/
def sampleRun (n : Bool) : List (Act Bool) :=
  [.create n, .deliver n, .handle true, .pick, .assignRunId 7 true, .dispatch, .run, .finish .failed,
    .getNext]

/-- A name is used again before the last status of its first mission is stored. -/
theorem dispatched_once_recreated : ∃ w, Runs (step 3) (Timely 3) (World.empty : World Bool) w ∧
    (w.starts = [(true, 1), (true, 0)] ∧ w.finished = [true]) ∧
      w.starts.Nodup ∧
      ∀ n m rest ok w', w.inbox = (n, m) :: rest → m.alive = true →
        m.looksFreshlyCreated = true → w.mission n = none →
        step 3 w (.handle ok) = some w' → w'.mission n = some m := by
  obtain ⟨w, hruns, hend⟩ := Runs.of_play_any (fun _ _ => timely_sound)
    (show (play (step 3) (timely 3) (World.empty : World Bool)
      (sampleRun true ++ [.delete true] ++ sampleRun true ++
        [.writeStarts true, .writeFails true, .writeStarts true, .writeLands true, .deliver true])).any
      (fun w => w.starts = [(true, 1), (true, 0)] ∧ w.finished = [true]) = true by decide)
  exact ⟨w, hruns, of_decide_eq_true hend, dispatched_once hruns⟩

/-- The row of a finished mission still reads pending without a start timestamp. -/
theorem dispatched_twice : ∃ w, Runs (step 3) (Few 3) (World.empty : World Bool) w ∧
    ¬ w.starts.Nodup := by
  obtain ⟨w, hruns, hend⟩ := Runs.of_play_any (fun _ _ => few_sound)
    (show (play (step 3) (few 3) (World.empty : World Bool)
      (sampleRun true ++ [.deliver true, .handle true, .pick, .dispatch])).any
      (fun w => ¬ w.starts.Nodup) = true by decide)
  exact ⟨w, hruns, of_decide_eq_true hend⟩

/-- A name is queued once, and a mission that was dispatched is in the queue only as the current one,
with its tree. -/
theorem queue_sound {ν : Type} [DecidableEq ν] {w : World ν} {limit : ℕ}
    (h : Runs (step limit) (Timely limit) World.empty w) :
    (w.missions.map Prod.fst).Nodup ∧ ∀ e ∈ w.missions, (e.1, e.2.inc) ∈ w.starts →
      w.current = some e.1 ∧ w.tree = true := by
  have hi := Inv.of_runs h
  have hnames := hi.names
  rw [World.keys, map_map] at hnames
  refine ⟨hnames, fun e he hs => ?_⟩
  exact hi.running _ (mem_map_of_mem he) hs

theorem queue_sound_dispatched : ∃ w, Runs (step 3) (Timely 3) (World.empty : World Bool) w ∧
    w.starts = [(true, 0)] ∧ (w.missions.map Prod.fst).Nodup := by
  obtain ⟨w, hruns, hend⟩ := Runs.of_play_any (fun _ _ => timely_sound)
    (show (play (step 3) (timely 3) (World.empty : World Bool) (sampleRun true)).any
      (fun w => w.starts = [(true, 0)]) = true by decide)
  exact ⟨w, hruns, of_decide_eq_true hend, (queue_sound hruns).1⟩

end CloudServer.Requeue
