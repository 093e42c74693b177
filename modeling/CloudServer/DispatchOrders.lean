import CloudServer.DispatchPlace

/-! One order id, one content: over every run with restarts, an order that goes out under an id that
was used before is the order that was sent under it. -/
namespace CloudServer.Dispatch

open Scan OrderIds Steps List

section
variable {w w' : World} {m m' : Mission} {leaf : Leaf} {a : Answers}

lemma place_cancelOrder (purpose : Purpose) (why : Text) (ours : Ours) (currentRunOnly : Bool) :
    (w.cancelOrder purpose why ours currentRunOnly).place = w.place := by
  unfold World.cancelOrder
  split <;> rfl

lemma place_waitForPreviousOrder (now : ℚ) : (w.waitForPreviousOrder now).place = w.place := by
  unfold World.waitForPreviousOrder
  dsimp only
  split
  · rfl
  · split
    · rfl
    · split
      · rfl
      · split <;> rfl

lemma place_resolve (id : Text) (type : ActionType) (abandoned : Bool) :
    (w.resolve id type abandoned).place = w.place := by
  unfold World.resolve
  dsimp only
  split <;> rfl

lemma place_noteAction (msg : RobotState) (p : World × List Text) (t : ActionState) :
    (World.noteAction msg p t).1.place = p.1.place := by
  unfold World.noteAction
  split
  · rfl
  · split
    · rfl
    · cases t.status with
      | finished => exact place_resolve ..
      | failed =>
        dsimp only
        split
        · rfl
        · exact place_resolve ..
      | busy => rfl

lemma place_resendAction (maxResends : ℕ) (now : ℚ) (p : World × List (Text × ActionType))
    (t : Text × ActionType) : (World.resendAction maxResends now p t).1.place = p.1.place := by
  unfold World.resendAction
  dsimp only
  split
  · rfl
  · split <;> rfl

lemma place_handleInstantAction (maxResends : ℕ) (msg : RobotState) (now : ℚ) :
    (w.handleInstantAction maxResends msg now).place = w.place := by
  have hnote : ∀ (l : List ActionState) (p : World × List Text),
      (l.foldl (World.noteAction msg) p).1.place = p.1.place := by
    intro l
    induction l with
    | nil => exact fun p => rfl
    | cons t l ih => exact fun p => (ih _).trans (place_noteAction ..)
  have hresend : ∀ (l : List (Text × ActionType)) (p : World × List (Text × ActionType)),
      (l.foldl (World.resendAction maxResends now) p).1.place = p.1.place := by
    intro l
    induction l with
    | nil => exact fun p => rfl
    | cons t l ih => exact fun p => (ih _).trans (place_resendAction ..)
  have hgive : ∀ (l : List (Text × ActionType)) (w : World),
      (l.foldl (fun w t => w.resolve t.1 t.2 true) w).place = w.place := by
    intro l
    induction l with
    | nil => exact fun w => rfl
    | cons t l ih => exact fun w => (ih _).trans (place_resolve ..)
  unfold World.handleInstantAction
  dsimp only
  rw [hgive, hresend, hnote]

lemma endMission_sound (h : w.place.Sound) : w.endMission.place.Sound := by
  cases hm : w.mission with
  | none =>
    have hsame : w.endMission.place = w.place := by
      unfold World.endMission World.place
      rw [hm]
      rfl
    exact hsame ▸ h
  | some m =>
    have hdone : w.endMission.place =
        { w.place with mission := some { m with done := true } } := by
      unfold World.endMission World.place
      rw [hm]
      rfl
    rw [hdone]
    exact h.flags hm rfl rfl rfl rfl

lemma actOnResolved_sound (msg : RobotState) (l : List Resolved) (h : w.place.Sound) :
    (World.actOnResolved msg w l).place.Sound := by
  induction l generalizing w with
  | nil => exact h
  | cons r l ih =>
    unfold World.actOnResolved
    split
    · exact ih h
    · split
      · exact ih h
      · have hacted : { w with acted := (r.actionId, w.runKey) :: w.acted }.place.Sound := h
        dsimp only
        split
        · exact endMission_sound hacted
        · split
          · exact ih hacted
          · split
            · exact endMission_sound hacted
            · split
              · exact endMission_sound hacted
              · exact ih hacted

lemma putStatus_sound (h : w.place.Sound) (hm : w.mission = some m) (write : Write) :
    (w.putStatus m write).1.place.Sound ∧ (w.putStatus m write).1.mission = some m := by
  have hpersist := h.persist (h.memory m hm).1
  cases write with
  | stored =>
    refine ⟨?_, rfl⟩
    have hsame : (w.putStatus m .stored).1.place =
        { w.place with rows := Function.update w.rows m.name (some m) } := by
      unfold World.putStatus World.persist World.place
      dsimp only
      rw [hm]
    exact hsame ▸ hpersist
  | lost => exact ⟨h, hm⟩
  | raised => exact ⟨hpersist, hm⟩

lemma place_publish (w : World) (m : Mission) (order : Order) (again : Bool) :
    ∃ p : Publish, p.order.orderId = order.orderId ∧ p.order.content = order.content ∧
      (w.publish m order again).place =
        { w.place with sent := some p.order, published := p :: w.published } :=
  ⟨⟨{ order with manufacturer := w.manufacturer }, again, w.hasOutstandingCancel false, m.done,
    m.needsCanceled, w.dispatcherOrder, w.deadOrders, w.releasedOrders⟩, rfl, rfl, rfl⟩

lemma publish_sound (h : w.place.Sound) (hm : w.mission = some m)
    (ht : w.tree = some (some leaf)) (hrow : w.rows m.name = some m)
    (hnew : ¬ w.place.Out (w.orderPrefix m) leaf.idx) (content : Text) :
    ({ w with records := (orderId (w.orderPrefix m) leaf.idx, leaf.digest) :: w.records }.publish m
      ⟨orderId (w.orderPrefix m) leaf.idx, [], content⟩ false).place.Sound := by
  obtain ⟨p, hid, -, hplace⟩ := place_publish
    { w with records := (orderId (w.orderPrefix m) leaf.idx, leaf.digest) :: w.records } m
    ⟨orderId (w.orderPrefix m) leaf.idx, [], content⟩ false
  have hfirst := h.first hm ht hrow hnew p hid leaf.digest
  rw [hid] at hfirst
  rw [hplace]
  exact hfirst

lemma sendLeaf_sound (h : w.place.Sound) (hm : w.mission = some m)
    (ht : w.tree = some (some leaf)) (hknown : w.place.Out (w.orderPrefix m) leaf.idx →
      ∃ o, w.sentOrder = some o ∧ o.orderId = orderId (w.orderPrefix m) leaf.idx) :
    (w.sendLeaf m leaf a).place.Sound := by
  unfold World.sendLeaf
  dsimp only
  split
  · rename_i o ho
    obtain ⟨hsent, -⟩ := Option.filter_eq_some_iff.mp ho
    split
    · exact h
    · obtain ⟨p, hid, hcontent, hplace⟩ := place_publish w m o true
      rw [hplace]
      exact h.again hsent p hid hcontent
  · rename_i hnone
    have hnew : ¬ w.place.Out (w.orderPrefix m) leaf.idx := by
      intro hout
      obtain ⟨o, ho, hid⟩ := hknown hout
      rw [ho] at hnone
      simp [Option.filter, hid] at hnone
    split
    · rw [place_waitForPreviousOrder]
      exact h
    · have hgated : { w with gateSince := none }.place.Sound := h
      obtain ⟨hput, hmission⟩ := putStatus_sound hgated hm a.recorded
      split
      · exact h
      · rename_i content _
        cases hrec : a.recorded with
        | stored =>
          rw [hrec] at hput
          exact publish_sound hput rfl ht (Function.update_self ..) hnew content
        | lost => exact h
        | raised =>
          rw [hrec] at hput
          exact hput

def World.NewRun (w : World) (id : RunId) : Prop :=
  ∀ m, w.mission = some m → ∀ rev idx,
    ¬ w.place.Out (runPrefix m.name (some id.text) rev) idx

/-- A controller without an order in memory sends none that went out, unless it knows it. -/
def World.Remembers (w : World) : Prop :=
  w.sentOrder = none → ∀ id, w.currentOrderId = some id → w.unknownContent ≠ some id →
    ∀ p ∈ w.published, p.order.orderId ≠ id

def Mission.revise (m : Mission) (id : RunId) : Mission :=
  if m.runId = none then { m with runId := some id } else { m with orderRev := m.orderRev + 1 }

variable {id : RunId} {write : Write} {act : Act}

lemma revise_ahead (h : w.place.Sound) (hm : w.mission = some m) (hfresh : w.NewRun id) :
    w.place.Ahead (m.revise id) ∧ (m.revise id).started = m.started ∧
      (m.revise id).runId ≠ none ∧ ∀ idx, ¬ w.place.Out (m.revise id).revision idx := by
  have hahead := (h.memory m hm).1
  unfold Mission.revise
  split
  · have hnone : ∀ rev idx, ¬ w.place.Out (runPrefix m.name (some id.text) rev) idx :=
      hfresh m hm
    refine ⟨fun id' hid' rev idx hout => ?_, rfl, by simp, fun idx => hnone m.orderRev idx⟩
    cases hid'
    exact absurd hout (hnone rev idx)
  · rename_i hrun
    obtain ⟨id', hid'⟩ := Option.ne_none_iff_exists'.mp hrun
    refine ⟨hahead.congr rfl rfl rfl (fun hs => hs) (Nat.le_succ _), rfl, hrun, fun idx hout => ?_⟩
    have hnext : Mission.revision { m with orderRev := m.orderRev + 1 } =
        runPrefix m.name (some id'.text) (m.orderRev + 1) := Mission.revision_some hid'
    rw [hnext] at hout
    have hle := (hahead id' hid' _ _ hout).2
    omega

structure World.Revised (w : World) (tree : Option (Option Leaf)) (m : Mission) : Prop where
  mission : w.mission = some m
  tree : w.tree = tree
  unknown : w.unknownContent = none
  adopted : w.adoptedPrefix = none
  none : ∀ idx, ¬ w.place.Out m.revision idx

lemma bumpOrderRev_sound (h : w.place.Sound) (hm : w.mission = some m) (hfresh : w.NewRun a.runId) :
    (w.bumpOrderRev m a).1.place.Sound ∧
      ((w.bumpOrderRev m a).2 = true → (w.bumpOrderRev m a).1.Revised w.tree (m.revise a.runId)) := by
  obtain ⟨hahead, hstarted, hrun, hnone⟩ := revise_ahead h hm hfresh
  have hunadopt := h.unadopt
  unfold World.bumpOrderRev
  dsimp only
  split
  · refine ⟨?_, fun hfalse => by cases hfalse⟩
    rw [place_cancelOrder]
    exact endMission_sound (w := { w with revisions := _, pendingSend := none }) h
  · cases hrevised : a.revised with
    | stored =>
      have hrevise := (h.revise hm hahead hstarted hrun hnone).persist hahead
      exact ⟨hrevise, fun _ => ⟨rfl, rfl, rfl, rfl, hnone⟩⟩
    | lost => exact ⟨hunadopt, fun hfalse => by cases hfalse⟩
    | raised => exact ⟨hunadopt.persist hahead, fun hfalse => by cases hfalse⟩

lemma currentOrderId_leaf (hm : w.mission = some m) (ht : w.tree = some (some leaf)) :
    w.currentOrderId = some (orderId (w.orderPrefix m) leaf.idx) := by
  unfold World.currentOrderId
  rw [hm, ht]

lemma known_of_out (h : w.place.Sound) (hm : w.mission = some m) (ht : w.tree = some (some leaf))
    (hunknown : w.unknownContent ≠ some (orderId (w.orderPrefix m) leaf.idx))
    (hremembers : w.Remembers) (hout : w.place.Out (w.orderPrefix m) leaf.idx) :
    ∃ o, w.sentOrder = some o ∧ o.orderId = orderId (w.orderPrefix m) leaf.idx := by
  have hat := h.leaf m leaf hm ht
  have hknows : w.sentOrder = none ∨ w.place.Knows (orderId (w.orderPrefix m) leaf.idx) := by
    unfold World.orderPrefix at hout ⊢
    cases ha : w.adoptedPrefix with
    | none =>
      rw [ha] at hout
      exact hat.current hout
    | some t =>
      rw [ha] at hout
      exact hat.adopted t ha hout
  rcases hknows with hsent | hsent | hsame
  · obtain ⟨p, hp, hid⟩ := hout
    exact absurd hid (hremembers hsent _ (currentOrderId_leaf hm ht) hunknown p hp)
  · exact hsent
  · exact absurd hsame hunknown

lemma sendOrder_sound (h : w.place.Sound) (hremembers : w.Remembers)
    (hfresh : w.unknownContent ≠ none → w.NewRun a.runId) : (w.sendOrder a).place.Sound := by
  unfold World.sendOrder
  split
  · rename_i m node hm ht
    split
    · exact h
    · split
      · exact h
      · split
        · rename_i leaf
          split
          · exact h
          · split
            · rename_i hunknown
              have hne : w.unknownContent ≠ none := by
                rw [hunknown]
                exact Option.some_ne_none _
              obtain ⟨hbump, hrevised⟩ := bumpOrderRev_sound h hm (hfresh hne)
              dsimp only
              split
              · rename_i m' hm'
                split
                · rename_i hok
                  have hrev := hrevised hok
                  cases hrev.mission.symm.trans hm'
                  refine sendLeaf_sound hbump hm' (hrev.tree.trans ht) fun hout => ?_
                  unfold World.orderPrefix at hout
                  rw [hrev.adopted] at hout
                  exact absurd hout (hrev.none _)
                · split
                  · exact hbump
                  · exact hbump
              · exact hbump
            · rename_i hunknown
              exact sendLeaf_sound h hm ht (known_of_out h hm ht hunknown hremembers)
        · exact h
  · exact h

lemma flushPendingSend_sound (h : w.place.Sound) (hfresh : w.NewRun a.runId)
    (hremembers : w.pendingSend = some .node → w.Remembers) :
    (w.flushPendingSend a).place.Sound := by
  unfold World.flushPendingSend
  split
  · rename_i m hm _
    have hunsent : { w with pendingSend := none }.place.Sound := h
    obtain ⟨hbump, hrevised⟩ := bumpOrderRev_sound hunsent hm hfresh
    dsimp only
    split
    · rename_i hok
      have hrev := hrevised hok
      refine sendOrder_sound hbump (fun _ id hid _ p hp hpid => ?_) fun hne =>
        absurd hrev.unknown hne
      -- The order of the leaf is one of the revision that has just begun.
      unfold World.currentOrderId World.orderPrefix at hid
      rw [hrev.mission, hrev.adopted] at hid
      split at hid
      · rename_i m' leaf hm' _
        cases hm'
        cases hid
        exact hrev.none leaf.idx ⟨p, hp, hpid⟩
      · cases hid
    · split
      · exact hbump
      · exact hbump
  · rename_i hpending
    have hunsent : { w with pendingSend := none }.place.Sound := h
    exact sendOrder_sound hunsent (hremembers hpending) fun _ => hfresh
  · exact h

/-- A new run id is not one of an earlier run of the mission, and a mission that was started before
there were run ids is not named like a run. -/
def FreshIds (w : World) : Act → Prop
  | .take name => ∀ m, w.rows name = some m → m.runId = none → m.started = true → NoRun name
  | .assignRunId id _ => w.NewRun id
  | .startNextPass id _ _ => w.NewRun id
  | .sendOrder a => w.NewRun a.runId
  | .flushPendingSend a => w.NewRun a.runId
  | _ => True

/-- The behavior tree does not come to a node whose order is out, and after an adoption no order
is sent for one. -/
def Onward (w : World) : Act → Prop
  | .moveTree (some leaf) => ∀ m, w.mission = some m →
    (∃ old, w.tree = some (some old) ∧ old.idx = leaf.idx) ∨
      ¬ w.place.Out m.revision leaf.idx ∧
        ∀ t, w.adoptedPrefix = some t → ¬ w.place.Out t leaf.idx
  | .startNextPass _ (some leaf) _ => ∀ t, w.adoptedPrefix = some t → ¬ w.place.Out t leaf.idx
  | .sendOrder _ => w.Remembers
  | .flushPendingSend _ => w.pendingSend = some .node → w.Remembers
  | _ => True

lemma take_sound (h : w.place.Sound) {name : Text} (hfresh : FreshIds w (.take name))
    (hstep : w.take name = some w') : w'.place.Sound := by
  unfold World.take at hstep
  split at hstep
  · rename_i m _ hrow
    split at hstep
    · cases hstep
      obtain ⟨hname, hahead⟩ := h.rows name m hrow
      refine h.forget (some m) fun m' hm' => ?_
      cases hm'
      refine ⟨hahead, fun hnone hs => ?_⟩
      rw [hname]
      exact hfresh m hrow hnone hs
    · cases hstep
  · cases hstep

lemma Place.Ahead.of_new {s : Place} (hid : m'.runId = some id)
    (hnew : ∀ rev idx, ¬ s.Out (runPrefix m'.name (some id.text) rev) idx) : s.Ahead m' := by
  intro id' hid' rev idx hout
  cases hid.symm.trans hid'
  exact absurd hout (hnew rev idx)

lemma assignRunId_sound (h : w.place.Sound) (hfresh : w.NewRun id)
    (hstep : w.assignRunId id write = some w') : w'.place.Sound := by
  unfold World.assignRunId at hstep
  split at hstep
  · rename_i m hm ht
    split at hstep
    · cases hstep
      have hahead : w.place.Ahead { m with runId := some id } :=
        .of_new rfl fun rev idx => hfresh m hm rev idx
      cases write with
      | stored =>
        exact (h.select hahead (fun hnone => by cases hnone) ht).persist hahead
      | lost => exact h
      | raised => exact h.persist hahead
    · cases hstep
  · cases hstep

lemma buildTree_sound (h : w.place.Sound) {leaf : Option Leaf}
    (hstep : w.buildTree leaf = some w') : w'.place.Sound := by
  unfold World.buildTree at hstep
  split at hstep
  · rename_i m hm ht
    split at hstep
    · rename_i hready
      cases hstep
      simp only [Bool.and_eq_true, Bool.or_eq_true] at hready
      have hrun : m.runId ≠ none ∨ m.started = true :=
        hready.1.imp_left Option.isSome_iff_ne_none.mp
      refine h.build hm ht hrun fun l hl hs => ?_
      subst hl
      have hadopted : w.adoptedPrefix = none := h.unbuilt ht
      rw [if_pos hs, currentOrderId_leaf rfl rfl]
      unfold World.orderPrefix
      rw [hadopted]
      rfl
    · cases hstep
  · cases hstep

lemma startNextPass_sound (h : w.place.Sound) {leaf : Option Leaf}
    (hfresh : w.NewRun id) (honward : Onward w (.startNextPass id leaf write))
    (hstep : w.startNextPass id leaf write = some w') : w'.place.Sound := by
  unfold World.startNextPass at hstep
  split at hstep
  · rename_i m _ hm ht
    split at hstep
    · cases hstep
      have hnew : ∀ rev idx, ¬ w.place.Out (runPrefix m.name (some id.text) rev) idx :=
        hfresh m hm
      have hahead : w.place.Ahead { m with runId := some id, orderRev := 0, done := false } :=
        .of_new rfl hnew
      have hbuilt : w.place.tree ≠ none := by
        rw [show w.place.tree = w.tree from rfl, ht]
        exact Option.some_ne_none _
      cases write with
      | stored =>
        refine (h.nextPass hm hbuilt hahead rfl (by simp) (fun idx => hnew 0 idx) ?_).persist hahead
        rintro t l hadopted rfl
        exact honward t hadopted
      | lost => exact h
      | raised => exact h.persist hahead
    · cases hstep
  · cases hstep

lemma out_of_record (h : w.place.Sound) {id : Text} {digest : Option Text}
    (hrecord : w.records.lookup id = some digest) {idx : ℕ}
    (hidx : orderNodeIndex id = some idx) :
    ∃ t, OrderIds.orderPrefix id = some t ∧ w.place.Out t idx := by
  obtain ⟨_, _, hsplit, -⟩ := lookup_eq_some_iff.mp hrecord
  have hmem : (id, digest) ∈ w.records := by
    rw [hsplit]
    simp
  obtain ⟨p, hp, hid⟩ := h.records (id, digest) hmem
  obtain ⟨t, i, hnamed⟩ := h.named p hp
  dsimp only at hid
  rw [← hid, hnamed] at hidx ⊢
  have hi : i = idx := by simpa [orderNodeIndex, search_order, int_str] using hidx
  exact ⟨t, by simp [OrderIds.orderPrefix, search_order], p, hp, hi ▸ hnamed⟩

lemma adopt_sound (h : w.place.Sound) {msg : RobotState}
    (hstep : w.adopt msg write = some w') : w'.place.Sound := by
  unfold World.adopt at hstep
  split at hstep
  · rename_i m leaf current hm ht hcurrent
    split at hstep
    · cases hstep
    · split at hstep
      · cases hstep
      · rename_i hother
        split at hstep
        · rename_i hrecord
          cases hstep
          simp only [Bool.and_eq_true, decide_eq_true_eq] at hrecord
          simp only [not_or, not_not] at hother
          rw [currentOrderId_leaf hm ht] at hcurrent
          cases hcurrent
          have hidx : orderNodeIndex msg.orderId = some leaf.idx := by
            rw [hother.2.2.2]
            simp [orderNodeIndex, search_order, int_str]
          obtain ⟨t, hstem, hout⟩ := out_of_record h hrecord.2 hidx
          obtain ⟨hput, -⟩ := putStatus_sound h hm write
          have htree : (w.putStatus m write).1.tree = some (some leaf) := by
            cases write <;> exact ht
          have hkept : (w.putStatus m write).1.place.Out t leaf.idx := by
            cases write <;> exact hout
          rw [hstem]
          exact hput.adopt htree hkept
        · cases hstep
  · cases hstep

lemma step_sound {maxResends : ℕ} (hfresh : FreshIds w act) (honward : Onward w act)
    (h : w.place.Sound) (hstep : step maxResends w act = some w') : w'.place.Sound := by
  cases act with
  | create name =>
    simp only [step] at hstep
    split at hstep
    · cases hstep
      refine h.setRow fun m hm => ?_
      cases hm
      exact ⟨rfl, rfl⟩
    · cases hstep
  | delete name =>
    simp only [step] at hstep
    split at hstep
    · cases hstep
    · cases hstep
      exact h.setRow fun m hm => by cases hm
  | take name => exact take_sound h hfresh hstep
  | assignRunId id write => exact assignRunId_sound h hfresh hstep
  | buildTree leaf => exact buildTree_sound h hstep
  | moveTree leaf =>
    obtain ⟨old, hold, rfl⟩ := Option.map_eq_some_iff.mp hstep
    have hbuilt : w.place.tree ≠ none := by
      rw [show w.place.tree = w.tree from rfl, hold]
      exact Option.some_ne_none _
    refine h.move hbuilt fun m l hm hl => ?_
    subst hl
    exact honward m hm
  | needsCanceled flag =>
    obtain ⟨m, hm, rfl⟩ := Option.map_eq_some_iff.mp hstep
    exact h.flags hm rfl rfl rfl rfl
  | finish =>
    obtain ⟨m, hm, rfl⟩ := Option.map_eq_some_iff.mp hstep
    exact h.flags hm rfl rfl rfl rfl
  | startNextPass id leaf write => exact startNextPass_sound h hfresh honward hstep
  | leave =>
    cases hstep
    exact h.leave
  | writeStatus =>
    obtain ⟨m, hm, rfl⟩ := Option.map_eq_some_iff.mp hstep
    exact h.persist (h.memory m hm).1
  | instantActions msg now =>
    cases hstep
    rw [place_handleInstantAction]
    exact h
  | resolvedCancels msg =>
    cases hstep
    have hnone : { w with resolvedCancels := [] }.place.Sound := h
    exact actOnResolved_sound msg _ hnone
  | adopt msg write => exact adopt_sound h hstep
  | orderDropped msg =>
    simp only [step] at hstep
    split at hstep
    · cases hstep
      exact h
    · cases hstep
  | ask stem type =>
    simp only [step] at hstep
    split at hstep
    · cases hstep
    · cases hstep
      exact h
  | cancelOrder purpose why ours currentRunOnly =>
    cases hstep
    rw [place_cancelOrder]
    exact h
  | sendOrder a =>
    cases hstep
    exact sendOrder_sound h honward fun _ => hfresh
  | flushPendingSend a =>
    cases hstep
    exact flushPendingSend_sound h hfresh honward
  | restart tag header =>
    cases hstep
    exact h.forget none fun m hm => by cases hm
  | _ =>
    cases hstep
    exact h

lemma place_fresh_sound {rows : Text → Option Mission} (topic tag : Text) (header : ℕ)
    (hrows : ∀ name m, rows name = some m → m.name = name) :
    (World.fresh rows topic tag header).place.Sound := by
  have hnone : ∀ t idx, ¬ (World.fresh rows topic tag header).place.Out t idx := by
    rintro t idx ⟨p, hp, -⟩
    cases hp
  exact {
    same := fun p hp => by cases hp
    sent := fun o ho => by cases ho
    named := fun p hp => by cases hp
    records := fun e he => by cases he
    rows := fun name m hrow => ⟨hrows name m hrow, fun id _ rev idx hout =>
      absurd hout (hnone _ _)⟩
    memory := fun m hm => by cases hm
    adopted := fun t ht => by cases ht
    unbuilt := fun _ => rfl
    started := fun m hm => by cases hm
    leaf := fun m l hm => by cases hm }

def newRun (w : World) (id : RunId) : Bool :=
  w.mission.all fun m => w.published.all fun p =>
    !(m.name ++ '-' :: 'r' :: id.text).isPrefixOf p.order.orderId

def freshIds (w : World) : Act → Bool
  | .take name => (w.rows name).all fun m => m.runId.isSome || !m.started
  | .assignRunId id _ => newRun w id
  | .startNextPass id _ _ => newRun w id
  | .sendOrder a => newRun w a.runId
  | .flushPendingSend a => newRun w a.runId
  | _ => true

def onward (w : World) : Act → Bool
  | .moveTree _ => false
  | .startNextPass .. => false
  | .sendOrder _ => w.sentOrder.isSome || w.currentOrderId = w.unknownContent ||
    w.published.all fun p => w.currentOrderId ≠ some p.order.orderId
  | .flushPendingSend _ => false
  | _ => true

lemma newRun_sound (h : newRun w id = true) : w.NewRun id := by
  rintro m hm rev idx ⟨p, hp, hid⟩
  unfold newRun at h
  rw [hm] at h
  have hnot := all_eq_true.mp h p hp
  have hstem : runPrefix m.name (some id.text) rev =
      m.name ++ '-' :: 'r' :: runTail ⟨m.name, id, rev, idx, 0⟩ :=
    prefixText_eq ⟨m.name, id, rev, idx, 0⟩
  have hstart : m.name ++ '-' :: 'r' :: id.text <+: p.order.orderId := by
    rw [hid, orderId, hstem, runTail]
    simp [append_assoc]
  simp [List.isPrefixOf_iff_prefix.mpr hstart] at hnot

lemma freshIds_sound (h : freshIds w act = true) : FreshIds w act := by
  cases act with
  | take name =>
    intro m hm hnone hs
    simp [freshIds, hm, hnone, hs] at h
  | assignRunId id write => exact newRun_sound h
  | startNextPass id leaf write => exact newRun_sound h
  | sendOrder a | flushPendingSend a => exact newRun_sound h
  | _ => trivial

lemma onward_sound (h : onward w act = true) : Onward w act := by
  cases act with
  | moveTree leaf => cases h
  | startNextPass id leaf write => cases h
  | flushPendingSend a => cases h
  | sendOrder a =>
    intro hsent id hid hunknown p hp hpid
    simp only [onward, hsent, hid, Bool.or_eq_true, decide_eq_true_eq, all_eq_true] at h
    rcases h with (hfalse | hsame) | hall
    · cases hfalse
    · exact hunknown hsame.symm
    · exact hall p hp (congrArg some hpid.symm)
  | _ => trivial

/-- Over every such run, restarts included, what is out is on record: the row of a mission has it
started and no order of its run is of a later revision, and what the controller takes for its last
order, and the rows of the order record, are of orders that went out. -/
theorem orders_on_record {maxResends : ℕ} {rows : Text → Option Mission}
    {topic tag : Text} {header : ℕ} (hrows : ∀ name m, rows name = some m → m.name = name)
    (h : Runs (step maxResends) (fun w act => FreshIds w act ∧ Onward w act) (.fresh rows topic tag header) w) :
    (∀ name m, w.rows name = some m → w.place.Ahead m) ∧
      (∀ o, w.sentOrder = some o → ∃ p ∈ w.published, p.order.orderId = o.orderId ∧ p.order.content = o.content) ∧
      ∀ e ∈ w.records, ∃ p ∈ w.published, p.order.orderId = e.1 := by
  have hs := h.invariant (place_fresh_sound topic tag header hrows) fun _ _ _ hact hS hstep =>
    step_sound hact.1 hact.2 hS hstep
  exact ⟨fun name m hm => (hs.rows name m hm).2, hs.sent, hs.records⟩

theorem orders_on_record_sent : ∃ w,
    Runs (step 3) (fun w act => FreshIds w act ∧ Onward w act) (.fresh (fun _ => none) [] [] 0) w ∧
    w.published.length = 1 ∧ ∀ name m, w.rows name = some m → w.place.Ahead m := by
  obtain ⟨w, hruns, hend⟩ := Runs.of_play_any
    (fun w act hact => (Bool.and_eq_true_iff.mp hact).imp freshIds_sound onward_sound)
    (show (play (step 3) (fun w act => freshIds w act && onward w act)
      (.fresh (fun _ => none) [] [] 0) sampleStart).any (fun w => w.published.length = 1) = true by decide)
  exact ⟨w, hruns, of_decide_eq_true hend, (orders_on_record (fun _ _ hrow => by cases hrow) hruns).1⟩

end
end CloudServer.Dispatch
