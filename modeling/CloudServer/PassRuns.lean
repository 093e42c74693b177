import CloudServer.MissionPasses

/-! A repeating mission over any number of crashes and restarts of the dispatcher: as long as none
strikes between the end of a pass and what follows it, the mission ends after exactly its passes. -/
namespace CloudServer.MissionPasses

open List
open Steps (Runs)

/-- The states of the leaves, when only what was completed under a run id counts. -/
def credited (completions : List (RunId × Node)) (id : RunId) (node : Node) : MissionState :=
  if (id, node) ∈ completions then .completed else .pending

def PassedUnder (m : Mission) (w : World) (id : RunId) : Prop :=
  m.tree.status (credited w.completions id) = .success

structure Blank (x : Status) : Prop where
  state : x.state = .pending
  nodes : ∀ n, x.nodes n = .pending
  progress : ∀ n, x.progress n = none
  orderRev : x.orderRev = 0
  sentOrder : x.sentOrder = none

def NoFailedNode (m : Mission) : World → Act → Prop
  | _, .setNode _ state => state = .running ∨ state = .completed
  | w, .tick => ∀ l, w.live = some l → m.tree.status l.status.nodes ≠ .failure
  | _, _ => True

/-- No crash while a pass is stored as COMPLETED that is not the last one, counted. -/
def Resumable (m : Mission) : World → Act → Prop
  | w, .crash => w.stored.state = .completed → w.stored.passesCompleted = m.repeats
  | _, _ => True

def Sane (m : Mission) (w : World) (a : Act) : Prop := NoFailedNode m w a ∧ Resumable m w a

structure Further (nodes nodes' : Node → MissionState) : Prop where
  completed : ∀ n, nodes n = .completed → nodes' n = .completed
  sound : ∀ n, leafStatus (nodes n) ≠ .failure

mutual

variable {nodes nodes' : Node → MissionState}

lemma Tree.status_further (h : Further nodes nodes') :
    ∀ t : Tree, t.status nodes ≠ .running → t.status nodes' = t.status nodes
  | .leaf node => by
    intro hdecided
    have hsound := h.sound node
    have hcompleted := h.completed node
    simp only [Tree.status] at *
    cases hn : nodes node <;> simp_all [leafStatus]
  | .constant success => fun _ => rfl
  | .sequence children => sequence_further h children
  | .selector children => selector_further h children

lemma sequence_further (h : Further nodes nodes') :
    ∀ children : List Tree, sequenceStatus nodes children ≠ .running →
      sequenceStatus nodes' children = sequenceStatus nodes children
  | [] => fun _ => rfl
  | child :: rest => by
    intro hdecided
    have hchild := child.status_further h
    have hrest := sequence_further h rest
    simp only [sequenceStatus] at *
    cases hs : child.status nodes with
    | success | failure | running => simp_all

lemma selector_further (h : Further nodes nodes') :
    ∀ children : List Tree, selectorStatus nodes children ≠ .running →
      selectorStatus nodes' children = selectorStatus nodes children
  | [] => fun _ => rfl
  | child :: rest => by
    intro hdecided
    have hchild := child.status_further h
    have hrest := selector_further h rest
    simp only [selectorStatus] at *
    cases hs : child.status nodes with
    | success | failure | running => simp_all

end

section
variable {m : Mission} {w w' : World} {x y : Status} {l : Live}

structure Newest (w : World) (p : Pass) (before : ℕ) (x : Status) : Prop where
  runId : x.runId = some p.runId
  passesCompleted : x.passesCompleted = before
  ended : x.state = .completed → p.runId ∈ w.passed
  credit : x.state ≠ .completed → ∀ n, x.nodes n = .completed → (p.runId, n) ∈ w.completions
  sound : ∀ n, leafStatus (x.nodes n) ≠ .failure
  state : x.state = .pending ∨ x.state = .running ∨ x.state = .completed

/-- A status of the pass that is being run, or of a mission that has begun none. -/
def Current (w : World) (x : Status) : Prop :=
  match w.began with
  | [] => x.runId = none ∧ Blank x ∧ x.started = false ∧ x.passesCompleted = 0
  | p :: before => Newest w p before.length x

structure Counted (m : Mission) (w : World) (x : Status) : Prop where
  state : x.state = .completed
  passesCompleted : x.passesCompleted = m.repeats
  began : w.began.length = m.repeats
  passed : ∀ p ∈ w.began, p.runId ∈ w.passed
  runId : x.runId = w.began.head?.map (·.runId)

def InMemory (m : Mission) (w : World) : Live → Prop
  | ⟨x, .held, _⟩ => Current w x ∧ x.state ≠ .completed ∧ w.stored.state ≠ .completed
  | ⟨x, .assigning, _⟩ => ((w.began = [] ∧ Blank x ∧ x.passesCompleted = 0 ∧
      ∃ id < w.ids, x.runId = some id) ∨ w.began ≠ [] ∧ Current w x ∧ x.state ≠ .completed) ∧
      w.stored.state ≠ .completed
  | ⟨x, .running, _⟩ => w.began ≠ [] ∧ Current w x ∧ x.state ≠ .completed ∧
      w.stored.state ≠ .completed
  | ⟨x, .ending, _⟩ => w.began ≠ [] ∧ Current w x ∧ x.state = .completed
  | ⟨x, .next y, _⟩ => w.began ≠ [] ∧ Current w x ∧ x.state = .completed ∧
      x.passesCompleted + 1 < m.repeats ∧
      ∃ id < w.ids, y = x.nextPass id ∧ ∀ p ∈ w.began, p.runId ≠ id
  | ⟨x, .counting, _⟩ => Counted m w x

structure Inv (m : Mission) (w : World) : Prop where
  fresh : ∀ p ∈ w.began, p.runId < w.ids
  distinct : (w.began.map (·.runId)).Nodup
  blank : ∀ p ∈ w.began, Blank p.status
  passed : ∀ id ∈ w.passed, PassedUnder m w id
  older : ∀ p ∈ w.began.tail, p.runId ∈ w.passed
  atMost : w.began.length ≤ m.repeats
  stored : Current w w.stored ∨ Counted m w w.stored
  idle : w.live = none → w.stored.state ≠ .completed ∨ Counted m w w.stored
  live : ∀ l, w.live = some l → InMemory m w l

/-- The account of `w'` goes on from that of `w` within the same pass. -/
structure Extends (w w' : World) : Prop where
  began : w'.began = w.began
  completions : w.completions ⊆ w'.completions
  passed : w.passed ⊆ w'.passed

variable {p : Pass} {a : Act} {k : ℕ} {queued : Bool} {before : List Pass} {f : Status → Status}
variable {state : MissionState}

lemma Newest.mono (h : Newest w p k x) (he : Extends w w') :
    Newest w' p k x where
  runId := h.runId
  passesCompleted := h.passesCompleted
  ended hc := he.passed (h.ended hc)
  credit hc n hn := he.completions (h.credit hc n hn)
  sound := h.sound
  state := h.state

lemma Current.mono (h : Current w x) (he : Extends w w') : Current w' x := by
  unfold Current at *
  rw [he.began]
  cases hb : w.began with
  | nil => simpa [hb] using h
  | cons p before =>
    rw [hb] at h
    exact Newest.mono h he

lemma Counted.mono (h : Counted m w x) (he : Extends w w') : Counted m w' x where
  state := h.state
  passesCompleted := h.passesCompleted
  began := he.began ▸ h.began
  passed := by
    rw [he.began]
    exact fun p hp => he.passed (h.passed p hp)
  runId := he.began ▸ h.runId

lemma PassedUnder.mono {id : RunId} (h : PassedUnder m w id) (he : Extends w w') :
    PassedUnder m w' id := by
  have hfurther : Further (credited w.completions id) (credited w'.completions id) := by
    constructor
    · intro n hn
      simp only [credited] at *
      split at hn
      · rename_i hmem
        rw [if_pos (he.completions hmem)]
      · cases hn
    · intro n
      unfold credited
      split <;> simp [leafStatus]
  unfold PassedUnder at *
  rw [m.tree.status_further hfurther (by rw [h]; decide), h]

lemma Inv.extend (h : Inv m w) (he : Extends w w') (hids : w.ids ≤ w'.ids)
    (hpassed : ∀ id ∈ w'.passed, PassedUnder m w' id) (hstored : w'.stored = w.stored)
    (hidle : w'.live = none → w'.stored.state ≠ .completed ∨ Counted m w' w'.stored)
    (hlive : ∀ l, w'.live = some l → InMemory m w' l) : Inv m w' where
  fresh := by
    rw [he.began]
    exact fun p hp => (h.fresh p hp).trans_le hids
  distinct := he.began ▸ h.distinct
  blank := he.began ▸ h.blank
  passed := hpassed
  older := by
    rw [he.began]
    exact fun p hp => he.passed (h.older p hp)
  atMost := he.began ▸ h.atMost
  stored := by
    rw [hstored]
    exact h.stored.imp (·.mono he) (·.mono he)
  idle := hidle
  live := hlive

lemma InMemory.mono (h : InMemory m w l) (he : Extends w w') (hids : w.ids ≤ w'.ids)
    (hstored : w'.stored = w.stored) : InMemory m w' l := by
  obtain ⟨x, phase, queued⟩ := l
  cases phase with
  | held => exact ⟨h.1.mono he, h.2.1, hstored ▸ h.2.2⟩
  | assigning =>
    refine ⟨?_, hstored ▸ h.2⟩
    rcases h.1 with ⟨hb, hblank, hpasses, id, hid, hrun⟩ | ⟨hb, hcur, hstate⟩
    · exact .inl ⟨he.began ▸ hb, hblank, hpasses, id, hid.trans_le hids, hrun⟩
    · exact .inr ⟨he.began ▸ hb, hcur.mono he, hstate⟩
  | running => exact ⟨he.began ▸ h.1, h.2.1.mono he, h.2.2.1, hstored ▸ h.2.2.2⟩
  | ending => exact ⟨he.began ▸ h.1, h.2.1.mono he, h.2.2⟩
  | next y =>
    obtain ⟨hb, hcur, hstate, hmore, id, hid, hy, hne⟩ := h
    exact ⟨he.began ▸ hb, hcur.mono he, hstate, hmore, id, hid.trans_le hids, hy, he.began ▸ hne⟩
  | counting => exact Counted.mono h he

lemma Inv.memory (h : Inv m w) (he : w'.began = w.began ∧ w'.completions = w.completions ∧
      w'.passed = w.passed) (hids : w.ids ≤ w'.ids) (hstored : w'.stored = w.stored)
    (hidle : w'.live = none → w.stored.state ≠ .completed ∨ Counted m w w.stored)
    (hlive : ∀ l, w'.live = some l → InMemory m w' l) : Inv m w' := by
  have hext : Extends w w' := ⟨he.1, by simp [he.2.1], by simp [he.2.2]⟩
  refine h.extend hext hids ?_ hstored ?_ hlive
  · intro id hid
    exact PassedUnder.mono (h.passed id (he.2.2 ▸ hid)) hext
  · intro hnone
    rw [hstored]
    exact (hidle hnone).imp_right (·.mono hext)

lemma Inv.onLive (h : Inv m w) {l : Live} {finished : Bool}
    (hl : InMemory m { w with live := some l, finished } l) :
    Inv m { w with live := some l, finished } := by
  refine h.memory ⟨rfl, rfl, rfl⟩ le_rfl rfl (fun hnone => by cases hnone) ?_
  rintro l hlive
  cases hlive
  exact hl

lemma Current.newest (h : Current w x) (hb : w.began ≠ []) :
    ∃ p before, w.began = p :: before ∧ Newest w p before.length x := by
  unfold Current at h
  cases hb' : w.began with
  | nil => exact absurd hb' hb
  | cons p before => exact ⟨p, before, rfl, by rwa [hb'] at h⟩

lemma Newest.current (hb : w.began = p :: before)
    (h : Newest w p before.length x) : Current w x := by
  unfold Current
  rw [hb]
  exact h

lemma Current.runId (h : Current w x) : x.runId = w.began.head?.map (·.runId) := by
  unfold Current at h
  cases hb : w.began with
  | nil =>
    rw [hb] at h
    exact h.1
  | cons p before =>
    rw [hb] at h
    exact h.runId

lemma Inv.stored_runId (h : Inv m w) : w.stored.runId = w.began.head?.map (·.runId) :=
  h.stored.elim (·.runId) (·.runId)

lemma Inv.land (h : Inv m w) (hx : Current w x ∨ Counted m w x) :
    w.land x = { w with stored := x } := by
  have hrun : x.runId = w.stored.runId := by
    rw [h.stored_runId]
    exact hx.elim (·.runId) (·.runId)
  unfold World.land
  cases hid : x.runId with
  | none => rfl
  | some id => simp only [← hrun, hid, if_true]

lemma Inv.store (h : Inv m w) (hx : Current w x ∨ Counted m w x)
    (hw : w' = { w.land x with live := w'.live, finished := w'.finished })
    (hidle : w'.live = none → x.state ≠ .completed ∨ Counted m w x)
    (hlive : ∀ l, w'.live = some l → InMemory m { w with stored := x } l) : Inv m w' := by
  rw [h.land hx] at hw
  obtain ⟨stored, live, finished, ids, began, completions, passed⟩ := w'
  simp only [World.mk.injEq, true_and] at hw
  obtain ⟨rfl, rfl, rfl, rfl, rfl⟩ := hw
  have he : Extends w ⟨stored, live, finished, w.ids, w.began, w.completions, w.passed⟩ :=
    ⟨rfl, List.Subset.refl _, List.Subset.refl _⟩
  exact {
    fresh := h.fresh
    distinct := h.distinct
    blank := h.blank
    passed := fun id hid => PassedUnder.mono (h.passed id hid) he
    older := h.older
    atMost := h.atMost
    stored := hx.imp (·.mono he) (·.mono he)
    idle := fun hnone => (hidle hnone).imp_right (·.mono he)
    live := fun l hl =>
      (hlive l hl).mono ⟨rfl, List.Subset.refl _, List.Subset.refl _⟩ le_rfl rfl }

lemma Inv.begin (h : Inv m w) {id : RunId} {phase : Phase}
    (hx : x.runId = some id) (hfresh : ∀ p ∈ w.began, p.runId ≠ id) (hid : id < w.ids)
    (hblank : Blank x) (hpasses : x.passesCompleted = w.began.length)
    (hmore : w.began.length < m.repeats) (hpassed : ∀ p ∈ w.began, p.runId ∈ w.passed)
    (hphase : phase = .running ∨ phase = .assigning) :
    Inv m { w.land x with live := some ⟨x, phase, queued⟩ } := by
  have hne : w.stored.runId ≠ some id := by
    rw [h.stored_runId]
    cases hb : w.began with
    | nil => simp
    | cons p before => simpa using hfresh p (by simp [hb])
  have hland : w.land x = { w with stored := x, began := ⟨id, x⟩ :: w.began } := by
    simp only [World.land, hx, if_neg hne]
  rw [hland]
  have hnotdone : x.state ≠ .completed := by
    rw [hblank.state]
    decide
  have hcur : Newest { w with
      stored := x, began := ⟨id, x⟩ :: w.began, live := some ⟨x, phase, queued⟩ }
      ⟨id, x⟩ w.began.length x := by
    refine ⟨hx, hpasses, fun hc => absurd hc hnotdone, ?_, ?_, .inl hblank.state⟩
    · intro _ n hn
      rw [hblank.nodes n] at hn
      cases hn
    · intro n
      rw [hblank.nodes n]
      decide
  have hcurrent := Newest.current rfl hcur
  exact {
    fresh := forall_mem_cons.mpr ⟨hid, h.fresh⟩
    distinct := by
      rw [map_cons, nodup_cons]
      refine ⟨fun hmem => ?_, h.distinct⟩
      obtain ⟨p, hp, hpid⟩ := mem_map.mp hmem
      exact hfresh p hp hpid
    blank := forall_mem_cons.mpr ⟨hblank, h.blank⟩
    passed := h.passed
    older := hpassed
    atMost := hmore
    stored := .inl hcurrent
    idle := fun hnone => by cases hnone
    live := by
      rintro l hl
      cases hl
      rcases hphase with rfl | rfl
      · exact ⟨cons_ne_nil _ _, hcurrent, hnotdone, hnotdone⟩
      · exact ⟨.inr ⟨cons_ne_nil _ _, hcurrent, hnotdone⟩, hnotdone⟩ }

lemma Extends.memory (w : World) (live : Option Live) (finished : Bool) (ids : ℕ) :
    Extends w { w with live := live, finished := finished, ids := ids } :=
  ⟨rfl, List.Subset.refl _, List.Subset.refl _⟩

lemma receive_inv (h : Inv m w) (hstep : w.receive = some w') : Inv m w' := by
  unfold World.receive at hstep
  split at hstep
  · cases hstep
  · split at hstep
    · exact Option.some.inj hstep ▸ h
    · rename_i hdone
      split at hstep
      · exact Option.some.inj hstep ▸ h
      · cases hstep
        have hstate : w.stored.state ≠ .completed := fun hc => hdone (by rw [hc]; rfl)
        have hcur : Current w w.stored := h.stored.resolve_right fun hc => hstate hc.state
        exact h.onLive ⟨hcur.mono (.memory ..), hstate, hstate⟩

lemma start_inv (h : Inv m w) (hstep : w.start = some w') : Inv m w' := by
  unfold World.start at hstep
  split at hstep
  · rename_i x queued hlive
    have hin := h.live _ hlive
    obtain ⟨hcur, hstate, hstored⟩ : Current w x ∧ x.state ≠ .completed ∧
      w.stored.state ≠ .completed := hin
    split at hstep
    · rename_i hfirst
      cases hstep
      refine h.memory ⟨rfl, rfl, rfl⟩ (Nat.le_succ _) rfl (fun hnone => by cases hnone) ?_
      rintro l hl
      cases hl
      refine ⟨.inl ?_, hstored⟩
      have hb : w.began = [] := by
        by_contra hb
        obtain ⟨p, before, -, hnew⟩ := hcur.newest hb
        cases hnew.runId.symm.trans hfirst.1
      unfold Current at hcur
      rw [hb] at hcur
      obtain ⟨-, hblank, -, hpasses⟩ := hcur
      refine ⟨hb, ?_, hpasses, w.ids, Nat.lt_succ_self _, rfl⟩
      exact { hblank with }
    · rename_i hagain
      cases hstep
      refine h.onLive ?_
      refine ⟨fun hb => hagain ?_, hcur.mono (.memory ..), hstate, hstored⟩
      change w.began = [] at hb
      unfold Current at hcur
      rw [hb] at hcur
      exact ⟨hcur.1, hcur.2.2.1⟩
  · cases hstep

lemma change_eq (hstep : w.change f = some w') :
    ∃ x queued, w.live = some ⟨x, .running, queued⟩ ∧ w' = { w with live := some ⟨f x, .running, true⟩ } := by
  unfold World.change at hstep
  split at hstep
  · rename_i x queued hlive
    exact ⟨x, queued, hlive, (Option.some.inj hstep).symm⟩
  · cases hstep

lemma Inv.running (h : Inv m w) (hlive : w.live = some ⟨x, .running, queued⟩) :
    ∃ p before, w.began = p :: before ∧ Newest w p before.length x ∧ x.state ≠ .completed ∧ w.stored.state ≠ .completed := by
  obtain ⟨hb, hcur, hrunning, hstored⟩ := h.live _ hlive
  obtain ⟨p, before, hbegan, hnew⟩ := hcur.newest hb
  exact ⟨p, before, hbegan, hnew, hrunning, hstored⟩

lemma Newest.inMemory
    (h : Newest w p before.length x) (hb : w.began = p :: before) (hstate : x.state ≠ .completed)
    (hstored : w.stored.state ≠ .completed) : InMemory m w ⟨x, .running, queued⟩ :=
  ⟨hb ▸ cons_ne_nil _ _, h.current hb, hstate, hstored⟩

lemma change_inv (h : Inv m w)
    (hf : ∀ x, (f x).runId = x.runId ∧ (f x).passesCompleted = x.passesCompleted ∧
      (f x).nodes = x.nodes ∧ (f x).state = x.state)
    (hstep : w.change f = some w') : Inv m w' := by
  obtain ⟨x, queued, hlive, rfl⟩ := change_eq hstep
  obtain ⟨p, before, hbegan, hnew, hrunning, hstored⟩ := h.running hlive
  obtain ⟨hrun, hpasses, hnodes, hstate⟩ := hf x
  have hnew' : Newest w p before.length (f x) := by
    constructor
    · rw [hrun, hnew.runId]
    · rw [hpasses, hnew.passesCompleted]
    · rw [hstate]
      exact hnew.ended
    · rw [hstate, hnodes]
      exact hnew.credit
    · rw [hnodes]
      exact hnew.sound
    · rw [hstate]
      exact hnew.state
  exact h.onLive ((hnew'.mono (.memory ..)).inMemory hbegan (by rwa [hstate]) hstored)

lemma setNode_inv {node : Node} (h : Inv m w)
    (hok : state = .running ∨ state = .completed) (hstep : step m w (.setNode node state) = some w') :
    Inv m w' := by
  obtain ⟨w₁, hchange, hw'⟩ := Option.map_eq_some_iff.mp hstep
  obtain ⟨x, queued, hlive, rfl⟩ := change_eq hchange
  obtain ⟨p, before, hbegan, hnew, hrunning, hstored⟩ := h.running hlive
  have hcompletions : x.runId.toList.map (·, node) ++ w.completions =
      (p.runId, node) :: w.completions := by
    rw [hnew.runId]
    rfl
  simp only [hlive, hcompletions] at hw'
  have hext : Extends w w' := by
    rw [← hw']
    split
    · exact ⟨rfl, subset_cons_self _ _, List.Subset.refl _⟩
    · exact .memory ..
  have hw : w'.live = some ⟨{ x with nodes := Function.update x.nodes node state }, .running,
      true⟩ ∧ w'.stored = w.stored ∧ w'.ids = w.ids ∧ w'.passed = w.passed := by
    rw [← hw']
    split <;> exact ⟨rfl, rfl, rfl, rfl⟩
  have hcredit : state = .completed → (p.runId, node) ∈ w'.completions := by
    rintro rfl
    rw [← hw']
    exact mem_cons_self ..
  obtain ⟨hlive', hstored', hids, hpassed⟩ := hw
  refine h.extend hext hids.ge ?_ hstored' (fun hnone => by rw [hlive'] at hnone; cases hnone) ?_
  · intro id hid
    exact PassedUnder.mono (h.passed id (hpassed ▸ hid)) hext
  · rintro l hl
    rw [hlive'] at hl
    cases hl
    have hnew' := hnew.mono hext
    refine Newest.inMemory ?_ (hext.began.trans hbegan) hrunning (hstored' ▸ hstored)
    refine ⟨hnew'.runId, hnew'.passesCompleted, hnew'.ended, ?_, ?_, hnew'.state⟩
    · intro hc n hn
      by_cases hnode : n = node
      · subst hnode
        simp only [Function.update_self] at hn
        exact hcredit hn
      · simp only [Function.update_of_ne hnode] at hn
        exact hnew'.credit hc n hn
    · intro n
      by_cases hnode : n = node
      · subst hnode
        simp only [Function.update_self]
        rcases hok with rfl | rfl <;> decide
      · simp only [Function.update_of_ne hnode]
        exact hnew'.sound n

lemma Status.setState_state (x : Status) (state : MissionState) :
    (x.setState state).state = state := by
  unfold Status.setState
  split
  · rename_i h
    exact h.symm
  · rfl

lemma Newest.setState (h : Newest w p k x)
    (hx : x.state ≠ .completed) (hs : state = .running ∨ state = .completed)
    (hpassed : state = .completed → p.runId ∈ w.passed) : Newest w p k (x.setState state) := by
  unfold Status.setState
  split
  · exact h
  · refine ⟨h.runId, h.passesCompleted, hpassed, ?_, ?_, .inr hs⟩
    · intro hc n hn
      obtain rfl := hs.resolve_right hc
      exact h.credit hx n hn
    · intro n
      dsimp only
      split
      · rcases hs with rfl | rfl <;> decide
      · exact h.sound n

lemma Newest.whole (h : Newest w p k x) (hx : x.state ≠ .completed)
    (htree : m.tree.status x.nodes = .success) : PassedUnder m w p.runId := by
  have hfurther : Further x.nodes (credited w.completions p.runId) := by
    refine ⟨fun n hn => ?_, h.sound⟩
    simp only [credited]
    rw [if_pos (h.credit hx n hn)]
  unfold PassedUnder
  rw [m.tree.status_further hfurther (by rw [htree]; decide), htree]

lemma tick_inv (h : Inv m w) (hok : NoFailedNode m w .tick) (hstep : w.tick m = some w') :
    Inv m w' := by
  unfold World.tick at hstep
  split at hstep
  · rename_i x queued hlive
    obtain ⟨p, before, hbegan, hnew, hrunning, hstored⟩ := h.running hlive
    have hstatus : m.tree.status x.nodes ≠ .failure := hok _ hlive
    cases hstep
    cases htree : m.tree.status x.nodes with
    | failure => exact absurd htree hstatus
    | running =>
      refine h.onLive ?_
      have hnext := hnew.setState hrunning (.inl rfl) (fun hc => by cases hc)
      refine (hnext.mono (.memory ..)).inMemory hbegan ?_ hstored
      rw [Status.setState_state]
      decide
    | success =>
      simp only [TreeStatus.toState, if_true, hnew.runId, Option.toList_some, singleton_append]
      have hext : ∀ live, Extends w { w with live := live, passed := p.runId :: w.passed } :=
        fun live => ⟨rfl, List.Subset.refl _, subset_cons_self _ _⟩
      refine h.extend (hext _) le_rfl ?_ rfl (fun hnone => by cases hnone) ?_
      · rintro id hid
        rcases mem_cons.mp hid with rfl | hid
        · exact PassedUnder.mono (hnew.whole hrunning htree) (hext _)
        · exact PassedUnder.mono (h.passed id hid) (hext _)
      · rintro l hl
        cases hl
        refine ⟨hbegan ▸ cons_ne_nil _ _, ?_, Status.setState_state ..⟩
        refine Newest.current ?_ ((hnew.mono (hext _)).setState hrunning (.inr rfl) fun _ =>
          mem_cons_self ..)
        exact hbegan
  · cases hstep

lemma complete_inv (hm : 0 < m.repeats) (h : Inv m w) (hstep : w.complete m = some w') :
    Inv m w' := by
  unfold World.complete at hstep
  split at hstep
  · rename_i x queued hlive
    have hin := h.live _ hlive
    obtain ⟨hb, hcur, hstate⟩ : w.began ≠ [] ∧ Current w x ∧ x.state = .completed := hin
    obtain ⟨p, before, hbegan, hnew⟩ := hcur.newest hb
    split at hstep
    · rename_i hmore
      cases hstep
      refine h.memory ⟨rfl, rfl, rfl⟩ (Nat.le_succ _) rfl (fun hnone => by cases hnone) ?_
      rintro l hl
      cases hl
      have hless : x.passesCompleted + 1 < m.repeats := by
        simp [Mission.willRunAnotherPass] at hmore
        omega
      refine ⟨hb, hcur.mono (.memory ..), hstate, hless, w.ids, Nat.lt_succ_self _, rfl, ?_⟩
      exact fun q hq => (h.fresh q hq).ne
    · rename_i hlast
      cases hstep
      refine h.onLive ?_
      have hpasses : x.passesCompleted = before.length := hnew.passesCompleted
      have hlength : w.began.length = before.length + 1 := by
        rw [hbegan, length_cons]
      have hall : x.passesCompleted + 1 = m.repeats := by
        have hatMost := h.atMost
        simp [Mission.willRunAnotherPass, hstate] at hlast
        omega
      refine ⟨hstate, hall, ?_, ?_, ?_⟩
      · change w.began.length = _
        omega
      · change ∀ q ∈ w.began, q.runId ∈ w.passed
        have holder := h.older
        rw [hbegan] at holder ⊢
        exact forall_mem_cons.mpr ⟨hnew.ended hstate, holder⟩
      · exact hcur.runId
  · cases hstep

lemma assigned_inv (hm : 0 < m.repeats) (h : Inv m w) (hstep : step m w .assigned = some w') :
    Inv m w' := by
  simp only [step] at hstep
  split at hstep
  · rename_i x queued hlive
    have hin := h.live _ hlive
    cases hstep
    rcases hin.1 with ⟨hb, hblank, hpasses, id, hid, hrun⟩ | ⟨hb, hcur, hstate⟩
    · refine h.begin hrun ?_ hid hblank (by simpa [hb] using hpasses) (by simpa [hb] using hm) ?_
        (.inl rfl)
      · simp [hb]
      · simp [hb]
    · refine h.store (.inl hcur) rfl (fun hnone => by cases hnone) ?_
      rintro l hl
      cases hl
      exact ⟨hb, hcur.mono ⟨rfl, List.Subset.refl _, List.Subset.refl _⟩, hstate, hstate⟩
  · cases hstep

lemma nextPass_inv (h : Inv m w) (hstep : step m w .nextPass = some w') : Inv m w' := by
  simp only [step] at hstep
  split at hstep
  · rename_i x y queued hlive
    have hin := h.live _ hlive
    obtain ⟨hb, hcur, hstate, hmore, id, hid, rfl, hfresh⟩ : w.began ≠ [] ∧ Current w x ∧
      x.state = .completed ∧ x.passesCompleted + 1 < m.repeats ∧
      ∃ id < w.ids, y = x.nextPass id ∧ ∀ p ∈ w.began, p.runId ≠ id := hin
    obtain ⟨p, before, hbegan, hnew⟩ := hcur.newest hb
    cases hstep
    have hlength : x.passesCompleted + 1 = w.began.length := by
      rw [hbegan, length_cons, hnew.passesCompleted]
    refine h.begin rfl hfresh hid ⟨rfl, fun _ => rfl, fun _ => rfl, rfl, rfl⟩ hlength
      (hlength ▸ hmore) ?_ (.inl rfl)
    have holder := h.older
    rw [hbegan] at holder ⊢
    exact forall_mem_cons.mpr ⟨hnew.ended hstate, holder⟩
  · cases hstep

lemma counted_inv (h : Inv m w) (hstep : step m w .counted = some w') : Inv m w' := by
  simp only [step] at hstep
  split at hstep
  · rename_i x queued hlive
    have hcounted : Counted m w x := h.live _ hlive
    cases hstep
    exact h.store (.inr hcounted) rfl (fun _ => .inr hcounted) (fun l hl => by cases hl)
  · cases hstep

lemma write_inv (hm : 0 < m.repeats) (h : Inv m w) (hstep : step m w .write = some w') :
    Inv m w' := by
  simp only [step] at hstep
  split at hstep
  · rename_i x phase hlive
    have hin := h.live _ hlive
    cases hstep
    have hsame : Extends w { w with stored := x } :=
      ⟨rfl, List.Subset.refl _, List.Subset.refl _⟩
    have hstore : ∀ (hx : Current w x ∨ Counted m w x), InMemory m { w with stored := x }
        ⟨x, phase, false⟩ → Inv m { w.land x with live := some ⟨x, phase, false⟩ } := by
      intro hx hmem
      refine h.store hx rfl (fun hnone => by cases hnone) ?_
      rintro l hl
      cases hl
      exact hmem
    cases phase with
    | held => exact hstore (.inl hin.1) ⟨hin.1.mono hsame, hin.2.1, hin.2.1⟩
    | assigning =>
      rcases hin.1 with ⟨hb, hblank, hpasses, id, hid, hrun⟩ | ⟨hb, hcur, hstate⟩
      · refine h.begin hrun ?_ hid hblank (by simpa [hb] using hpasses) (by simpa [hb] using hm) ?_
          (.inr rfl)
        · simp [hb]
        · simp [hb]
      · exact hstore (.inl hcur) ⟨.inr ⟨hb, hcur.mono hsame, hstate⟩, hstate⟩
    | running =>
      exact hstore (.inl hin.2.1) ⟨hin.1, hin.2.1.mono hsame, hin.2.2.1, hin.2.2.1⟩
    | ending => exact hstore (.inl hin.2.1) ⟨hin.1, hin.2.1.mono hsame, hin.2.2⟩
    | next y => exact hstore (.inl hin.2.1) ⟨hin.1, hin.2.1.mono hsame, hin.2.2⟩
    | counting => exact hstore (.inr hin) (Counted.mono hin hsame)
  · cases hstep

lemma Inv.counted (h : Inv m w) (hstate : w.stored.state = .completed)
    (hpasses : w.stored.passesCompleted = m.repeats) : Counted m w w.stored := by
  rcases h.stored with hcur | hcounted
  · by_cases hb : w.began = []
    · unfold Current at hcur
      rw [hb] at hcur
      cases hcur.2.1.state.symm.trans hstate
    · obtain ⟨p, before, hbegan, hnew⟩ := hcur.newest hb
      have hatMost := h.atMost
      rw [hbegan, length_cons] at hatMost
      have hbefore := hnew.passesCompleted
      omega
  · exact hcounted

lemma crash_inv (h : Inv m w) (hok : Resumable m w .crash) (hstep : step m w .crash = some w') :
    Inv m w' := by
  cases hstep
  refine h.memory ⟨rfl, rfl, rfl⟩ le_rfl rfl (fun _ => ?_) (fun l hl => by cases hl)
  by_cases hstate : w.stored.state = .completed
  · exact .inr (h.counted hstate (hok hstate))
  · exact .inl hstate

lemma step_inv (hm : 0 < m.repeats) (hok : Sane m w a) (h : Inv m w)
    (hstep : step m w a = some w') : Inv m w' := by
  cases a with
  | receive => exact receive_inv h hstep
  | hold =>
    simp only [step] at hstep
    split at hstep
    · rename_i x queued hlive
      have hin := h.live _ hlive
      cases hstep
      exact h.onLive ⟨hin.1.mono (.memory ..), hin.2⟩
    · cases hstep
  | start => exact start_inv h hstep
  | assigned => exact assigned_inv hm h hstep
  | setNode node state => exact setNode_inv h hok.1 hstep
  | reach node waypoint =>
    refine change_inv h ?_ hstep
    exact fun _ => ⟨rfl, rfl, rfl, rfl⟩
  | bumpOrderRev =>
    refine change_inv h ?_ hstep
    exact fun _ => ⟨rfl, rfl, rfl, rfl⟩
  | sendOrder record =>
    refine change_inv h ?_ hstep
    exact fun _ => ⟨rfl, rfl, rfl, rfl⟩
  | tick => exact tick_inv h hok.1 hstep
  | complete => exact complete_inv hm h hstep
  | nextPass => exact nextPass_inv h hstep
  | counted => exact counted_inv h hstep
  | write => exact write_inv hm h hstep
  | crash => exact crash_inv h hok.2 hstep

lemma inv_new (m : Mission) : Inv m .new where
  fresh := by simp [World.new]
  distinct := nodup_nil
  blank := by simp [World.new]
  passed := by simp [World.new]
  older := by simp [World.new]
  atMost := Nat.zero_le _
  stored := .inl ⟨rfl, ⟨rfl, fun _ => rfl, fun _ => rfl, rfl, rfl⟩, rfl, rfl⟩
  idle := fun _ => .inl (by decide)
  live := fun _ hl => by cases hl

/-- A mission that has ended as `S` says. -/
def Ended (S w : World) : Prop :=
  w.live = none ∧ w.stored.state = .completed ∧ w.stored = S.stored ∧ w.began = S.began

lemma step_ended {S : World} (h : Ended S w) (hstep : step m w a = some w') :
    Ended S w' := by
  obtain ⟨hlive, hstate, hstored, hbegan⟩ := h
  cases a with
  | receive =>
    have hsame : w = w' := by
      simpa [step, World.receive, hlive, hstate, MissionState.done] using hstep
    subst hsame
    exact ⟨hlive, hstate, hstored, hbegan⟩
  | crash =>
    cases hstep
    exact ⟨rfl, hstate, hstored, hbegan⟩
  | _ => simp [step, World.start, World.change, World.tick, World.complete, hlive] at hstep

/-- No more passes than the mission has, each under its own run id and from zero, a further one only
after the one before was passed; a completed mission had them all. -/
structure ExactPasses (m : Mission) (w : World) : Prop where
  atMost : w.began.length ≤ m.repeats
  runIds : (w.began.map (·.runId)).Nodup
  fromZero : ∀ p ∈ w.began, Blank p.status
  whole : ∀ p ∈ w.began.tail, PassedUnder m w p.runId
  ended : w.live = none → w.stored.state = .completed →
    w.stored.passesCompleted = m.repeats ∧ w.began.length = m.repeats ∧
    ∀ p ∈ w.began, PassedUnder m w p.runId
  last : w.live = none → w.stored.state = .completed →
    ∀ w', Runs (step m) (fun _ _ => True) w w' → w'.stored = w.stored ∧ w'.began = w.began

lemma Inv.exact (h : Inv m w) : ExactPasses m w where
  atMost := h.atMost
  runIds := h.distinct
  fromZero := h.blank
  whole p hp := h.passed _ (h.older p hp)
  ended hlive hstate := by
    have hcounted := (h.idle hlive).resolve_left (not_not_intro hstate)
    exact ⟨hcounted.passesCompleted, hcounted.began, fun p hp => h.passed _ (hcounted.passed p hp)⟩
  last hlive hstate w' hruns := by
    have hended : Ended w w' := by
      refine hruns.invariant (I := Ended w) ⟨hlive, hstate, rfl, rfl⟩ ?_
      exact fun S a T _ hS hstep => step_ended hS hstep
    exact hended.2.2

/-- As long as no crash strikes between the end of a pass and what follows it, a mission runs exactly
its passes. -/
theorem exactly_its_passes (hm : 0 < m.repeats) (h : Runs (step m) (Sane m) .new w) :
    ExactPasses m w := by
  have hinv : Inv m w :=
    h.invariant (inv_new m) fun S a T hok hS hstep => step_inv hm hok hS hstep
  exact hinv.exact

def noFailedNode (m : Mission) (w : World) : Act → Bool
  | .setNode _ state => state = .running || state = .completed
  | .tick => w.live.all fun l => m.tree.status l.status.nodes ≠ .failure
  | _ => true

def sane (m : Mission) (w : World) (a : Act) : Bool :=
  noFailedNode m w a && match a with
    | .crash => w.stored.state ≠ .completed || w.stored.passesCompleted = m.repeats
    | _ => true

lemma noFailedNode_sound (h : noFailedNode m w a = true) : NoFailedNode m w a := by
  cases a with
  | setNode node state => simpa [noFailedNode, NoFailedNode] using h
  | tick =>
    intro l hl
    simpa [noFailedNode, hl] using h
  | _ => trivial

lemma sane_sound (h : sane m w a = true) : Sane m w a := by
  obtain ⟨hnode, hcrash⟩ := Bool.and_eq_true_iff.mp h
  refine ⟨noFailedNode_sound hnode, ?_⟩
  cases a with
  | crash =>
    intro hstate
    simpa [hstate] using hcrash
  | _ => trivial

def twoPasses : Mission := ⟨2, .leaf 0⟩

/-- The dispatcher restarts in the first pass. -/
theorem exactly_its_passes_restarted : ∃ w, Runs (step twoPasses) (Sane twoPasses) .new w ∧
    (w.live = none ∧ w.stored.state = .completed) ∧ ExactPasses twoPasses w := by
  obtain ⟨w, hruns, hend⟩ := Runs.of_play_any
    (fun _ _ => sane_sound)
    (show (Steps.play (step twoPasses) (sane twoPasses) .new
      [.receive, .start, .assigned, .crash, .receive, .start, .setNode 0 .completed, .tick, .complete,
        .nextPass, .setNode 0 .completed, .tick, .write, .complete, .counted]).any
      (fun w => w.live.isNone && w.stored.state = .completed) = true by decide +kernel)
  exact ⟨w, hruns, by simpa using hend, exactly_its_passes (by decide) hruns⟩

/-- The dispatcher stops between the end of the first pass and the start of the second. -/
theorem pass_lost : ∃ w, Runs (step twoPasses) (NoFailedNode twoPasses) .new w ∧
    ¬ ExactPasses twoPasses w := by
  obtain ⟨w, hruns, hend⟩ := Runs.of_play_any
    (fun _ _ => noFailedNode_sound)
    (show (Steps.play (step twoPasses) (noFailedNode twoPasses) .new
      [.receive, .start, .assigned, .setNode 0 .completed, .tick, .write, .crash]).any
      (fun w => w.live.isNone && w.stored.state = .completed && w.stored.passesCompleted = 0) = true
      by decide)
  refine ⟨w, hruns, fun h => ?_⟩
  obtain ⟨⟨hlive, hstate⟩, hpasses⟩ : (w.live = none ∧ w.stored.state = .completed) ∧
      w.stored.passesCompleted = 0 := by simpa using hend
  have hall := (h.ended hlive hstate).1
  rw [hpasses] at hall
  cases hall

end
end CloudServer.MissionPasses
