import CloudServer.Dispatch

/-! The cancelOrders of a controller: one of a run at a time, each resolved once, and none in flight
when an order goes out. -/
namespace CloudServer.Dispatch

open Scan OrderIds Steps List Dict

structure Book where
  actions : Dict Text ActionType
  purposes : Dict Text (Purpose × RunKey)
  header : ℕ
  waiting : List Resolved
  cancels : List (Text × RunKey)
  resolutions : List Text
  acted : List (Text × RunKey)

def World.book (w : World) : Book where
  actions := w.actions
  purposes := w.purposes
  header := w.header
  waiting := w.resolvedCancels
  cancels := w.cancels
  resolutions := w.resolutions
  acted := w.acted

namespace Book
variable (b : Book)

def Outstanding (id : Text) : Prop := b.actions.get id = some .cancelOrder

def cancelRun (id : Text) : RunKey := (b.purposes.get id).bind (·.2)

def Numbered (id : Text) : Prop := ∃ stem, ∃ n < b.header, id = orderId stem n

structure Sound : Prop where
  actions : ∀ id ∈ b.actions.keys, b.Numbered id
  cancels : ∀ e ∈ b.cancels, b.Numbered e.1
  purposes : ∀ id, b.Outstanding id → ∃ p run, b.purposes.get id = some (p, run) ∧
    (id, run) ∈ b.cancels
  distinct : ∀ id id', b.Outstanding id → b.Outstanding id' →
    b.cancelRun id = b.cancelRun id' → id = id'
  sentOnce : (b.cancels.map Prod.fst).Nodup
  resolvedOnce : b.resolutions.Nodup
  accounted : ∀ id, id ∈ b.cancels.map Prod.fst ↔ b.Outstanding id ∨ id ∈ b.resolutions
  apart : ∀ id ∈ b.resolutions, ¬ b.Outstanding id
  waiting : ∀ r ∈ b.waiting, (r.actionId, r.run) ∈ b.cancels
  acted : ∀ e ∈ b.acted, e ∈ b.cancels

end Book

section
variable {w w' : World}

lemma outstanding_iff {currentRunOnly : Bool} : w.hasOutstandingCancel currentRunOnly = true ↔
    ∃ id, w.book.Outstanding id ∧ (currentRunOnly = true → w.book.cancelRun id = w.runKey) := by
  unfold World.hasOutstandingCancel
  rw [any_eq_true]
  constructor
  · rintro ⟨⟨id, type⟩, hmem, hcancel⟩
    simp only [Bool.and_eq_true, decide_eq_true_eq, Bool.or_eq_true, Bool.not_eq_true'] at hcancel
    obtain ⟨rfl, hrun⟩ := hcancel
    refine ⟨id, mem_items.mp hmem, fun honly => ?_⟩
    exact hrun.resolve_left (by simp [honly])
  · rintro ⟨id, hout, hrun⟩
    refine ⟨(id, .cancelOrder), mem_items.mpr hout, ?_⟩
    cases currentRunOnly with
    | false => simp
    | true =>
      have hsame : w.cancelRun id = w.runKey := hrun rfl
      simp [hsame]

lemma actionId_unused (h : w.book.Sound) (stem : Text) : w.actionId stem ∉ w.actions.keys ∧
    w.actionId stem ∉ w.cancels.map Prod.fst := by
  have hfresh : ¬ w.book.Numbered (w.actionId stem) := by
    rintro ⟨stem', n, hn, hid⟩
    exact absurd (orderId_injective hid).2 hn.ne'
  refine ⟨fun hmem => hfresh (h.actions _ hmem), fun hmem => hfresh ?_⟩
  obtain ⟨e, he, heid⟩ := mem_map.mp hmem
  exact heid ▸ h.cancels e he

variable {id id' : Text} {type : ActionType} {write : Write} {p : World × List Text}

lemma Book.Numbered.next {b b' : Book} (h : b.Numbered id)
    (hle : b.header ≤ b'.header) : b'.Numbered id := by
  obtain ⟨stem, n, hn, hid⟩ := h
  exact ⟨stem, n, hn.trans_le hle, hid⟩

lemma actionId_numbered (stem : Text) (type : ActionType) :
    (w.sendAction stem type).book.Numbered (w.actionId stem) :=
  ⟨_, w.header, Nat.lt_succ_self _, rfl⟩

lemma Book.Sound.ask (h : w.book.Sound) (htype : type ≠ .cancelOrder)
    (stem : Text) : (w.sendAction stem type).book.Sound := by
  obtain ⟨hkey, hcancel⟩ := actionId_unused h stem
  have hout : ∀ id, (w.sendAction stem type).book.Outstanding id ↔ w.book.Outstanding id := by
    intro id
    change (w.actions.set _ type).get id = _ ↔ w.actions.get id = _
    rw [get_set]
    split
    · rename_i hid
      rw [hid, get_eq_none.mpr hkey]
      simp [htype]
    · rfl
  exact {
    actions := by
      intro id hid
      rcases (mem_keys_set ..).mp hid with rfl | hid
      · exact actionId_numbered ..
      · exact (h.actions id hid).next (Nat.le_succ _)
    cancels := fun e he => (h.cancels e he).next (Nat.le_succ _)
    purposes := fun id hid => h.purposes id ((hout id).mp hid)
    distinct := fun id id' hid hid' => h.distinct id id' ((hout id).mp hid) ((hout id').mp hid')
    sentOnce := h.sentOnce
    resolvedOnce := h.resolvedOnce
    accounted := fun id => by
      rw [hout]
      exact h.accounted id
    apart := fun id hid hid' => h.apart id hid ((hout id).mp hid')
    waiting := h.waiting
    acted := h.acted }

lemma Book.Sound.send (h : w.book.Sound) (hfree : ∀ id, w.book.Outstanding id → w.book.cancelRun id ≠ w.runKey) (why : Text)
    (purpose : Purpose) : (w.sendCancelOrder why purpose).book.Sound := by
  obtain ⟨hkey, hcancel⟩ := actionId_unused h (w.cancelStem why)
  have hnumber := actionId_numbered (w := w) (w.cancelStem why) .cancelOrder
  set new := w.actionId (w.cancelStem why) with hnew
  set b := (w.sendCancelOrder why purpose).book with hb
  have hout : ∀ id, b.Outstanding id ↔ id = new ∨ w.book.Outstanding id := by
    intro id
    change (w.actions.set new .cancelOrder).get id = _ ↔ _
    rw [get_set]
    by_cases hid : id = new
    · simp [hid]
    · simp only [hid, if_false, false_or]
      rfl
  have hne : ∀ id, w.book.Outstanding id → id ≠ new := by
    rintro id hid rfl
    exact hkey (mem_keys.mpr ⟨_, hid⟩)
  have hrun : b.cancelRun new = w.runKey := by
    change ((w.purposes.set new (purpose, w.runKey)).get new).bind (·.2) = _
    simp
  have hold : ∀ id, id ≠ new → b.cancelRun id = w.book.cancelRun id := by
    intro id hid
    change ((w.purposes.set new (purpose, w.runKey)).get id).bind (·.2) = _
    rw [get_set, if_neg hid]
    rfl
  exact {
    actions := by
      intro id hid
      rcases (mem_keys_set ..).mp hid with rfl | hid
      · exact hnumber
      · exact (h.actions id hid).next (Nat.le_succ _)
    cancels := by
      rintro e he
      rcases mem_cons.mp he with rfl | he
      · exact hnumber
      · exact (h.cancels e he).next (Nat.le_succ _)
    purposes := by
      intro id hid
      change ∃ p run, (w.purposes.set new (purpose, w.runKey)).get id = _ ∧ _
      rw [get_set]
      by_cases hid' : id = new
      · rw [if_pos hid', hid']
        exact ⟨_, _, rfl, mem_cons_self ..⟩
      · obtain ⟨p, run, hget, hmem⟩ := h.purposes id (((hout id).mp hid).resolve_left hid')
        rw [if_neg hid']
        exact ⟨p, run, hget, mem_cons_of_mem _ hmem⟩
    distinct := by
      intro id id' hid hid' hsame
      rcases (hout id).mp hid with rfl | hid₁
      · rcases (hout id').mp hid' with rfl | hid₂
        · rfl
        · rw [hrun, hold id' (hne id' hid₂)] at hsame
          exact absurd hsame.symm (hfree id' hid₂)
      · rcases (hout id').mp hid' with rfl | hid₂
        · rw [hrun, hold id (hne id hid₁)] at hsame
          exact absurd hsame (hfree id hid₁)
        · rw [hold id (hne id hid₁), hold id' (hne id' hid₂)] at hsame
          exact h.distinct id id' hid₁ hid₂ hsame
    sentOnce := nodup_cons.mpr ⟨hcancel, h.sentOnce⟩
    resolvedOnce := h.resolvedOnce
    accounted := by
      intro id
      change id ∈ new :: w.cancels.map Prod.fst ↔ _
      rw [hout, mem_cons, or_assoc]
      exact or_congr_right (h.accounted id)
    apart := by
      intro id hid hid'
      rcases (hout id).mp hid' with rfl | hid'
      · exact hcancel ((h.accounted _).mpr (.inr hid))
      · exact h.apart id hid hid'
    waiting := fun r hr => mem_cons_of_mem _ (h.waiting r hr)
    acted := fun e he => mem_cons_of_mem _ (h.acted e he) }

lemma Book.Sound.cancelOrder (h : w.book.Sound) (purpose : Purpose) (why : Text) (ours : Ours)
    (currentRunOnly : Bool) : (w.cancelOrder purpose why ours currentRunOnly).book.Sound := by
  unfold World.cancelOrder
  split
  · exact h
  · rename_i hguard
    refine h.send (fun id hid hrun => hguard ?_) why purpose
    rw [outstanding_iff.mpr ⟨id, hid, fun _ => hrun⟩, Bool.true_or]

lemma Book.Sound.resolve (h : w.book.Sound)
    (hid : w.actions.get id = some type) (abandoned : Bool) :
    (w.resolve id type abandoned).book.Sound := by
  unfold World.resolve
  have hkeys : ∀ id' ∈ (w.actions.erase id).keys, w.book.Numbered id' := by
    intro id' hmem
    obtain ⟨v, hv⟩ := mem_keys.mp hmem
    rw [get_erase] at hv
    split at hv
    · cases hv
    · exact h.actions id' (mem_keys.mpr ⟨v, hv⟩)
  have herase : ∀ id', (w.actions.erase id).get id' = some .cancelOrder ↔
      id' ≠ id ∧ w.book.Outstanding id' := by
    intro id'
    rw [get_erase]
    split
    · rename_i he
      simp [he]
    · rename_i he
      simp only [ne_eq, he, not_false_eq_true, true_and]
      rfl
  dsimp only
  split
  · rename_i htype
    have hother : ∀ id', (w.actions.erase id).get id' = some .cancelOrder ↔
        w.book.Outstanding id' := by
      intro id'
      rw [herase]
      refine and_iff_right_of_imp ?_
      rintro hout rfl
      exact htype (Option.some.inj (hid.symm.trans hout))
    exact {
      actions := hkeys
      cancels := h.cancels
      purposes := fun id' hid' => h.purposes id' ((hother id').mp hid')
      distinct := fun a b ha hb => h.distinct a b ((hother a).mp ha) ((hother b).mp hb)
      sentOnce := h.sentOnce
      resolvedOnce := h.resolvedOnce
      accounted := fun id' => (h.accounted id').trans (or_congr_left (hother id').symm)
      apart := fun id' hr ho => h.apart id' hr ((hother id').mp ho)
      waiting := h.waiting
      acted := h.acted }
  · rename_i htype
    obtain rfl := not_not.mp htype
    have hout : w.book.Outstanding id := hid
    obtain ⟨p, run, hget, hmem⟩ := h.purposes id hout
    have hrun : ∀ id', id' ≠ id → ((w.purposes.erase id).get id').bind (·.2) =
        w.book.cancelRun id' := by
      intro id' hne
      rw [get_erase, if_neg hne]
      rfl
    exact {
      actions := hkeys
      cancels := h.cancels
      purposes := by
        intro id' hid'
        obtain ⟨hne, hout'⟩ := (herase id').mp hid'
        obtain ⟨p', run', hget', hmem'⟩ := h.purposes id' hout'
        refine ⟨p', run', ?_, hmem'⟩
        change (w.purposes.erase id).get id' = _
        rw [get_erase, if_neg hne]
        exact hget'
      distinct := by
        intro a b ha hb hsame
        obtain ⟨hna, hoa⟩ := (herase a).mp ha
        obtain ⟨hnb, hob⟩ := (herase b).mp hb
        refine h.distinct a b hoa hob ?_
        rw [← hrun a hna, ← hrun b hnb]
        exact hsame
      sentOnce := h.sentOnce
      resolvedOnce := nodup_cons.mpr ⟨fun hr => h.apart id hr hout, h.resolvedOnce⟩
      accounted := by
        intro id'
        refine (h.accounted id').trans ?_
        change _ ↔ (w.actions.erase id).get id' = _ ∨ id' ∈ id :: w.resolutions
        rw [herase, mem_cons]
        by_cases he : id' = id
        · simp [he, hout]
        · simp [he]
          rfl
      apart := by
        intro id' hr ho
        obtain ⟨hne, hout'⟩ := (herase id').mp ho
        rcases mem_cons.mp hr with rfl | hr
        · exact hne rfl
        · exact h.apart id' hr hout'
      waiting := by
        intro r hr
        rcases mem_append.mp hr with hr | hr
        · exact h.waiting r hr
        · obtain rfl := mem_singleton.mp hr
          change (id, ((w.purposes.get id).getD (.stop, none)).2) ∈ w.cancels
          rw [show w.purposes.get id = some (p, run) from hget]
          exact hmem
      acted := h.acted }

lemma resolve_published (id : Text) (type : ActionType) (abandoned : Bool) :
    (w.resolve id type abandoned).published = w.published := by
  unfold World.resolve
  dsimp only
  split <;> rfl

lemma resolve_get (hne : id' ≠ id) (type : ActionType) (abandoned : Bool) :
    (w.resolve id type abandoned).actions.get id' = w.actions.get id' := by
  unfold World.resolve
  dsimp only
  split <;> exact (get_erase ..).trans (if_neg hne)

/-- The robot's last state was executing no order of a dispatcher that holds this one back. -/
def Publish.Unhindered (p : Publish) : Prop :=
  ∀ o, p.robotOrder = some o → o = p.order.orderId ∨ o ∈ p.dead ∨ o ∈ p.released

/-- No cancelOrder in flight, the mission goes on, and a new order was not held back. -/
def Publish.Proper (p : Publish) : Prop :=
  p.cancelling = false ∧ p.done = false ∧ p.needsCanceled = false ∧
  (p.again = false → p.Unhindered)

structure Orderly (w : World) : Prop where
  book : w.book.Sound
  published : ∀ p ∈ w.published, p.Proper

lemma Orderly.congr (h : Orderly w) (hbook : w'.book = w.book)
    (hpublished : w'.published = w.published) : Orderly w' :=
  ⟨hbook ▸ h.book, hpublished ▸ h.published⟩

lemma Orderly.resolve (h : Orderly w) (hid : w.actions.get id = some type) (abandoned : Bool) :
    Orderly (w.resolve id type abandoned) :=
  ⟨h.book.resolve hid abandoned, by
    rw [resolve_published]
    exact h.published⟩

lemma Orderly.cancelOrder (h : Orderly w) (purpose : Purpose) (why : Text) (ours : Ours)
    (currentRunOnly : Bool) : Orderly (w.cancelOrder purpose why ours currentRunOnly) := by
  refine ⟨h.book.cancelOrder .., ?_⟩
  unfold World.cancelOrder
  split <;> exact h.published

lemma Orderly.noteAction (h : Orderly p.1) (msg : RobotState)
    (s : ActionState) : Orderly (World.noteAction msg p s).1 := by
  unfold World.noteAction
  split
  · exact h
  · split
    · exact h
    · rename_i type hget
      cases s.status with
      | finished => exact h.resolve hget false
      | failed =>
        dsimp only
        split
        · exact h
        · exact h.resolve hget false
      | busy => exact h

lemma Orderly.noteActions (h : Orderly p.1) (msg : RobotState)
    (states : List ActionState) : Orderly (states.foldl (World.noteAction msg) p).1 := by
  induction states generalizing p with
  | nil => exact h
  | cons s states ih => exact ih (h.noteAction msg s)

lemma Orderly.count (h : Orderly w) (hbook : w'.book = { w.book with header := w.header + 1 })
    (hpublished : w'.published = w.published) : Orderly w' := by
  refine ⟨?_, hpublished ▸ h.published⟩
  rw [hbook]
  have hle : w.book.header ≤ w.header + 1 := Nat.le_succ _
  exact {
    actions := fun id hid => (h.book.actions id hid).next hle
    cancels := fun e he => (h.book.cancels e he).next hle
    purposes := h.book.purposes
    distinct := h.book.distinct
    sentOnce := h.book.sentOnce
    resolvedOnce := h.book.resolvedOnce
    accounted := h.book.accounted
    apart := h.book.apart
    waiting := h.book.waiting
    acted := h.book.acted }

lemma resendAction_cases (maxResends : ℕ) (now : ℚ) (p : World × List (Text × ActionType))
    (a : Text × ActionType) : World.resendAction maxResends now p a = p ∨
    World.resendAction maxResends now p a = (p.1, p.2 ++ [a]) ∨
    ∃ w', World.resendAction maxResends now p a = (w', p.2) ∧
      w'.book = { p.1.book with header := p.1.header + 1 } ∧ w'.published = p.1.published := by
  unfold World.resendAction
  dsimp only
  split
  · exact .inl rfl
  · split
    · exact .inr (.inl rfl)
    · exact .inr (.inr ⟨_, rfl, rfl, rfl⟩)

lemma Orderly.resendActions (maxResends : ℕ) (now : ℚ) (l : List (Text × ActionType))
    {p : World × List (Text × ActionType)} (h : Orderly p.1) :
    ∃ given, List.Sublist given l ∧ Orderly (l.foldl (World.resendAction maxResends now) p).1 ∧
      (l.foldl (World.resendAction maxResends now) p).1.actions = p.1.actions ∧
      (l.foldl (World.resendAction maxResends now) p).2 = p.2 ++ given := by
  induction l generalizing p with
  | nil => exact ⟨[], List.Sublist.refl _, h, rfl, (append_nil _).symm⟩
  | cons a l ih =>
    rw [foldl_cons]
    rcases resendAction_cases maxResends now p a with he | he | ⟨w', he, hbook, hpublished⟩
    · rw [he]
      obtain ⟨given, hsub, hrest⟩ := ih h
      exact ⟨given, hsub.cons a, hrest⟩
    · rw [he]
      obtain ⟨given, hsub, hor, hact, hgiven⟩ := @ih (p.1, p.2 ++ [a]) h
      refine ⟨a :: given, hsub.cons_cons a, hor, hact, ?_⟩
      rw [hgiven, append_assoc]
      rfl
    · rw [he]
      obtain ⟨given, hsub, hor, hact, hgiven⟩ := @ih (w', p.2) (h.count hbook hpublished)
      exact ⟨given, hsub.cons a, hor, hact.trans (congrArg Book.actions hbook), hgiven⟩

lemma Orderly.giveUp (l : List (Text × ActionType)) (h : Orderly w)
    (hmem : ∀ a ∈ l, w.actions.get a.1 = some a.2) (hnodup : (l.map Prod.fst).Nodup) :
    Orderly (l.foldl (fun w a => w.resolve a.1 a.2 true) w) := by
  induction l generalizing w with
  | nil => exact h
  | cons a l ih =>
    obtain ⟨hnot, hnodup⟩ := nodup_cons.mp hnodup
    refine ih (h.resolve (hmem a (mem_cons_self ..)) true) ?_ hnodup
    intro b hb
    have hne : b.1 ≠ a.1 := fun he => hnot (he ▸ mem_map_of_mem hb)
    rw [resolve_get hne]
    exact hmem b (mem_cons_of_mem _ hb)

lemma Orderly.handleInstantAction (h : Orderly w) (maxResends : ℕ) (msg : RobotState) (now : ℚ) :
    Orderly (w.handleInstantAction maxResends msg now) := by
  unfold World.handleInstantAction
  have hnoted := Orderly.noteActions (p := (w, [])) h msg msg.actionStates.reverse
  generalize msg.actionStates.reverse.foldl (World.noteAction msg) (w, []) = noted at hnoted
  obtain ⟨given, hsub, hor, hact, hgiven⟩ := Orderly.resendActions maxResends now
    (noted.1.actions.items.filter fun a => a.1 ∉ noted.2) (p := (noted.1, [])) hnoted
  dsimp only
  rw [hgiven, nil_append]
  have hitems := hsub.trans filter_sublist
  refine hor.giveUp given ?_ ((hitems.map Prod.fst).nodup noted.1.actions.nodup)
  intro a ha
  rw [hact]
  exact mem_items.mp (hitems.subset ha)

lemma Orderly.endMission (h : Orderly w) : Orderly w.endMission := h.congr rfl rfl

lemma Orderly.actOnResolved (msg : RobotState) (l : List Resolved) (h : Orderly w)
    (hl : ∀ r ∈ l, (r.actionId, r.run) ∈ w.cancels) : Orderly (World.actOnResolved msg w l) := by
  induction l generalizing w with
  | nil => exact h
  | cons r l ih =>
    obtain ⟨hr, hrest⟩ := forall_mem_cons.mp hl
    unfold World.actOnResolved
    split
    · exact ih h hrest
    · split
      · exact ih h hrest
      · rename_i hrun
        have hsame : r.run = w.runKey := by
          by_contra hne
          exact hrun (by simp [hne])
        have hacted : Orderly { w with acted := (r.actionId, w.runKey) :: w.acted } := by
          refine ⟨{ h.book with acted := ?_ }, h.published⟩
          exact forall_mem_cons.mpr ⟨hsame ▸ hr, h.book.acted⟩
        dsimp only
        split
        · exact hacted.endMission
        · split
          · exact ih hacted hrest
          · split
            · exact hacted.endMission
            · split
              · exact hacted.endMission
              · exact ih (hacted.congr rfl rfl) hrest

variable {m : Mission} {leaf : Leaf} {a : Answers}

lemma Orderly.putStatus (h : Orderly w) (m : Mission) (write : Write) :
    Orderly (w.putStatus m write).1 := by
  cases write <;> exact h.congr rfl rfl

lemma outstanding_congr (hbook : w'.book = w.book) :
    w'.hasOutstandingCancel false = w.hasOutstandingCancel false := by
  rw [Bool.eq_iff_iff, outstanding_iff, outstanding_iff, hbook]
  simp

structure Clear (w : World) (m : Mission) : Prop where
  cancel : w.hasOutstandingCancel false = false
  done : m.done = false
  needsCanceled : m.needsCanceled = false

lemma Orderly.publish (h : Orderly w) (hclear : Clear w m) {order : Order} {again : Bool}
    (hgate : again = false → w.robotStillOnPreviousOrder order.orderId = false) :
    Orderly (w.publish m order again) := by
  refine ⟨h.book, forall_mem_cons.mpr ⟨?_, h.published⟩⟩
  refine ⟨hclear.cancel, hclear.done, hclear.needsCanceled, fun hnew o ho => ?_⟩
  have hgate := hgate hnew
  unfold World.robotStillOnPreviousOrder at hgate
  rw [show w.dispatcherOrder = some o from ho, Option.any_some] at hgate
  by_contra hnone
  simp only [not_or] at hnone
  simp [hnone.2.1, hnone.2.2] at hgate
  exact hnone.1 hgate

lemma Orderly.waitForPreviousOrder (h : Orderly w) (now : ℚ) :
    Orderly (w.waitForPreviousOrder now) := by
  unfold World.waitForPreviousOrder
  dsimp only
  have howe : Orderly (w.owe .node) := h.congr rfl rfl
  split
  · exact howe.congr rfl rfl
  · split
    · exact howe.congr rfl rfl
    · split
      · exact howe
      · split
        · exact howe
        · rename_i hguard
          have hsend := howe.cancelOrder .clear "clear".toList .dispatcher false
          rw [World.cancelOrder, if_neg hguard] at hsend
          exact hsend.congr rfl rfl

lemma Orderly.sendLeaf (h : Orderly w) (hclear : Clear w m) : Orderly (w.sendLeaf m leaf a) := by
  unfold World.sendLeaf
  dsimp only
  split
  · split
    · exact h.congr rfl rfl
    · exact h.publish hclear fun hnew => by cases hnew
  · split
    · exact h.waitForPreviousOrder _
    · rename_i hgate
      have hgated : Orderly { w with gateSince := none } := h.congr rfl rfl
      have hput := hgated.putStatus m a.recorded
      split
      · exact hgated
      · split
        · refine Orderly.publish ?_ ⟨?_, hclear.done, hclear.needsCanceled⟩ fun _ => ?_
          · exact hput.congr rfl rfl
          · cases a.recorded <;> exact hclear.cancel
          · rw [← Bool.not_eq_true]
            cases a.recorded <;> exact hgate
        · exact hput.congr rfl rfl

lemma Orderly.bumpOrderRev (h : Orderly w) :
    Orderly (w.bumpOrderRev m a).1 ∧ ((w.bumpOrderRev m a).2 = true →
      (w.bumpOrderRev m a).1.book = w.book ∧ ∃ m', (w.bumpOrderRev m a).1.mission = some m' ∧
        m'.done = m.done ∧ m'.needsCanceled = m.needsCanceled) := by
  unfold World.bumpOrderRev
  dsimp only
  split
  · refine ⟨Orderly.cancelOrder (Orderly.endMission ?_) .., fun hfalse => by cases hfalse⟩
    exact h.congr rfl rfl
  · cases hrev : a.revised with
    | stored =>
      refine ⟨h.congr rfl rfl, fun _ => ⟨rfl, _, rfl, ?_⟩⟩
      split <;> exact ⟨rfl, rfl⟩
    | lost | raised => exact ⟨h.congr rfl rfl, fun hfalse => by cases hfalse⟩

lemma Orderly.sendOrder (h : Orderly w) (a : Answers) : Orderly (w.sendOrder a) := by
  unfold World.sendOrder
  split
  · rename_i m node hm htree
    split
    · exact h
    · rename_i hopen
      simp only [Bool.or_eq_true, not_or, Bool.not_eq_true] at hopen
      split
      · exact h.congr rfl rfl
      · rename_i hcancel
        have hclear : Clear w m := ⟨by simpa using hcancel, hopen.1.2, hopen.2⟩
        split
        · split
          · exact h
          · split
            · dsimp only
              obtain ⟨hbump, hdone⟩ := h.bumpOrderRev (m := m) (a := a)
              split
              · rename_i m' hm'
                split
                · rename_i htrue
                  obtain ⟨hbook, m₁, hm₁, hd, hn⟩ := hdone htrue
                  cases hm'.symm.trans hm₁
                  refine hbump.sendLeaf ⟨?_, hd.trans hclear.done, hn.trans hclear.needsCanceled⟩
                  rw [outstanding_congr hbook, hclear.cancel]
                · split
                  · exact hbump
                  · exact hbump.congr rfl rfl
              · exact hbump
            · exact h.sendLeaf hclear
        · exact h
  · exact h

lemma Orderly.flushPendingSend (h : Orderly w) (a : Answers) : Orderly (w.flushPendingSend a) := by
  unfold World.flushPendingSend
  split
  · rename_i m hm _
    have hnone : Orderly { w with pendingSend := none } := h.congr rfl rfl
    have hbump := (hnone.bumpOrderRev (m := m) (a := a)).1
    dsimp only
    split
    · exact hbump.sendOrder a
    · split
      · exact hbump
      · exact hbump.congr rfl rfl
  · refine Orderly.sendOrder ?_ a
    exact h.congr rfl rfl
  · exact h

lemma Orderly.take (h : Orderly w) {name : Text} (hstep : w.take name = some w') :
    Orderly w' := by
  unfold World.take at hstep
  split at hstep
  · split at hstep
    · cases hstep
      exact h.congr rfl rfl
    · cases hstep
  · cases hstep

lemma Orderly.assignRunId (h : Orderly w) {id : RunId}
    (hstep : w.assignRunId id write = some w') : Orderly w' := by
  unfold World.assignRunId at hstep
  split at hstep
  · split at hstep
    · cases hstep
      exact h.putStatus _ _
    · cases hstep
  · cases hstep

lemma Orderly.buildTree (h : Orderly w) {leaf : Option Leaf}
    (hstep : w.buildTree leaf = some w') : Orderly w' := by
  unfold World.buildTree at hstep
  split at hstep
  · split at hstep
    · cases hstep
      exact h.congr rfl rfl
    · cases hstep
  · cases hstep

lemma Orderly.startNextPass (h : Orderly w) {id : RunId} {leaf : Option Leaf}
    (hstep : w.startNextPass id leaf write = some w') : Orderly w' := by
  unfold World.startNextPass at hstep
  split at hstep
  · rename_i m _ _ _
    have hput := h.putStatus { m with runId := some id, orderRev := 0, done := false } write
    split at hstep
    · cases hstep
      dsimp only
      split
      · exact hput.congr rfl rfl
      · exact hput
    · cases hstep
  · cases hstep

lemma Orderly.adopt (h : Orderly w) {msg : RobotState}
    (hstep : w.adopt msg write = some w') : Orderly w' := by
  unfold World.adopt at hstep
  split at hstep
  · rename_i m _ _ _ _ _
    have hput := h.putStatus m write
    split at hstep
    · cases hstep
    · split at hstep
      · cases hstep
      · split at hstep
        · cases hstep
          exact hput.congr rfl rfl
        · cases hstep
  · cases hstep

def SameProcess (_ : World) : Act → Prop
  | .restart .. => False
  | _ => True

lemma Orderly.step {maxResends : ℕ} {a : Act} (ha : SameProcess w a) (h : Orderly w)
    (hstep : Dispatch.step maxResends w a = some w') : Orderly w' := by
  cases a with
  | create name =>
    simp only [Dispatch.step] at hstep
    split at hstep
    · cases hstep
      exact h.congr rfl rfl
    · cases hstep
  | delete name =>
    simp only [Dispatch.step] at hstep
    split at hstep
    · cases hstep
    · cases hstep
      exact h.congr rfl rfl
  | take name => exact h.take hstep
  | assignRunId id write => exact h.assignRunId hstep
  | buildTree leaf => exact h.buildTree hstep
  | moveTree leaf =>
    obtain ⟨_, _, rfl⟩ := Option.map_eq_some_iff.mp hstep
    exact h.congr rfl rfl
  | needsCanceled flag =>
    obtain ⟨_, _, rfl⟩ := Option.map_eq_some_iff.mp hstep
    exact h.congr rfl rfl
  | finish =>
    obtain ⟨_, _, rfl⟩ := Option.map_eq_some_iff.mp hstep
    exact h.congr rfl rfl
  | startNextPass id leaf write => exact h.startNextPass hstep
  | writeStatus =>
    obtain ⟨_, _, rfl⟩ := Option.map_eq_some_iff.mp hstep
    exact h.congr rfl rfl
  | instantActions msg now =>
    cases hstep
    exact h.handleInstantAction ..
  | resolvedCancels msg =>
    cases hstep
    have hnone : Orderly { w with resolvedCancels := [] } :=
      ⟨{ h.book with waiting := fun r hr => by cases hr }, h.published⟩
    exact hnone.actOnResolved msg _ h.book.waiting
  | adopt msg write => exact h.adopt hstep
  | ask stem type =>
    simp only [Dispatch.step] at hstep
    split at hstep
    · cases hstep
    · rename_i htype
      cases hstep
      exact ⟨h.book.ask htype stem, h.published⟩
  | cancelOrder purpose why ours currentRunOnly =>
    cases hstep
    exact h.cancelOrder ..
  | sendOrder a =>
    cases hstep
    exact h.sendOrder a
  | flushPendingSend a =>
    cases hstep
    exact h.flushPendingSend a
  | orderDropped msg =>
    simp only [Dispatch.step] at hstep
    split at hstep
    · cases hstep
      exact h.congr rfl rfl
    · cases hstep
  | restart tag header => exact ha.elim
  | _ =>
    cases hstep
    exact h.congr rfl rfl

lemma orderly_fresh (rows : Text → Option Mission) (topic tag : Text) (header : ℕ) :
    Orderly (.fresh rows topic tag header) := by
  have hnone : ∀ id, ¬ (World.fresh rows topic tag header).book.Outstanding id :=
    fun id hid => by cases hid
  refine ⟨?_, fun p hp => by cases hp⟩
  exact {
    actions := fun id hid => by cases hid
    cancels := fun e he => by cases he
    purposes := fun id hid => (hnone id hid).elim
    distinct := fun id _ hid => (hnone id hid).elim
    sentOnce := nodup_nil
    resolvedOnce := nodup_nil
    accounted := fun id => by
      simp only [hnone, false_or]
      rfl
    apart := fun id hid => by cases hid
    waiting := fun r hr => by cases hr
    acted := fun e he => by cases he }

structure Apart (w : World) : Prop where
  published : ∀ p ∈ w.published, p.Proper
  single : ∀ id id', (id, w.runKey) ∈ w.cancels → (id', w.runKey) ∈ w.cancels →
    w.book.Outstanding id → w.book.Outstanding id' → id = id'
  sentOnce : (w.cancels.map Prod.fst).Nodup
  resolvedOnce : w.resolutions.Nodup
  resolved : ∀ e ∈ w.cancels, Xor (w.book.Outstanding e.1) (e.1 ∈ w.resolutions)
  acted : ∀ e ∈ w.acted, e ∈ w.cancels

lemma Orderly.apart (h : Orderly w) : Apart w := by
  have hrun : ∀ id run, (id, run) ∈ w.cancels → w.book.Outstanding id →
      w.book.cancelRun id = run := by
    intro id run hmem hout
    obtain ⟨p, run', hget, hmem'⟩ := h.book.purposes id hout
    have hsame := inj_on_of_nodup_map h.book.sentOnce hmem hmem' rfl
    unfold Book.cancelRun
    rw [hget]
    exact (congrArg Prod.snd hsame).symm
  exact {
    published := h.published
    single := fun id id' hid hid' hout hout' =>
      h.book.distinct id id' hout hout' ((hrun id _ hid hout).trans (hrun id' _ hid' hout').symm)
    sentOnce := h.book.sentOnce
    resolvedOnce := h.book.resolvedOnce
    resolved := by
      intro e he
      rcases (h.book.accounted e.1).mp (mem_map_of_mem he) with hout | hres
      · exact .inl ⟨hout, fun hres => h.book.apart e.1 hres hout⟩
      · exact .inr ⟨hres, h.book.apart e.1 hres⟩
    acted := h.book.acted }

/-- However the handlers call them, orders and cancelOrders of a process do not overlap. -/
theorem orders_and_cancels_apart {maxResends : ℕ} {rows : Text → Option Mission}
    {topic tag : Text} {header : ℕ}
    (h : Runs (step maxResends) SameProcess (.fresh rows topic tag header) w) : Apart w :=
  (h.invariant (orderly_fresh rows topic tag header) fun _ _ _ ha hS hstep =>
    hS.step ha hstep).apart

def sameProcess (_ : World) : Act → Bool
  | .restart .. => false
  | _ => true

lemma sameProcess_sound {a : Act} (h : sameProcess w a = true) : SameProcess w a := by
  cases a with
  | restart tag header => cases h
  | _ => trivial

def sampleRun : RunId := ⟨"12345678".toList, by decide, by simp⟩

def sampleAnswers : Answers := ⟨0, sampleRun, .stored, some "route".toList, .stored⟩

def sampleState (order : String) (executing : Bool) : RobotState :=
  ⟨order.toList, [], executing, false, false, [], false⟩

def sampleStart : List Act :=
  [.robot true, .create "m".toList, .take "m".toList, .assignRunId sampleRun .stored,
    .buildTree (some ⟨0, .order, none⟩), .state (sampleState "" false), .sendOrder sampleAnswers]

/-- The mission is cancelled, and the robot confirms the cancelOrder. -/
theorem orders_and_cancels_apart_cancelled : ∃ w,
    Runs (step 3) SameProcess (.fresh (fun _ => none) [] [] 0) w ∧
    (w.published.length = 1 ∧ w.acted.length = 1) ∧ Apart w := by
  obtain ⟨w, hruns, hend⟩ := Runs.of_play_any (fun _ _ => sameProcess_sound)
    (show (play (step 3) sameProcess (.fresh (fun _ => none) [] [] 0) (sampleStart ++
      [.needsCanceled true, .cancelOrder .mission "mission".toList .any true,
        .instantActions { sampleState "m-r12345678-n0" true with actionStates :=
          [⟨"m-r12345678-mission-cancel--n0".toList, .cancelOrder, .finished, false⟩] } 0,
        .resolvedCancels (sampleState "m-r12345678-n0" true)])).any
      (fun w => w.published.length = 1 && w.acted.length = 1) = true by decide)
  exact ⟨w, hruns, by simpa using hend, orders_and_cancels_apart hruns⟩

/-- An order is sent again while the robot executes the order of another mission. -/
theorem order_sent_again : ∃ w, Runs (step 3) SameProcess (.fresh (fun _ => none) [] [] 0) w ∧
    ∃ p ∈ w.published, ¬ p.Unhindered := by
  obtain ⟨w, hruns, hend⟩ := Runs.of_play_any (fun _ _ => sameProcess_sound)
    (show (play (step 3) sameProcess (.fresh (fun _ => none) [] [] 0) (sampleStart ++
      [.state (sampleState "other-r00000000-n0" true), .sendOrder sampleAnswers])).any
      (fun w => w.published.any fun p => p.robotOrder.any fun o =>
        o ≠ p.order.orderId && o ∉ p.dead && o ∉ p.released) = true by decide)
  obtain ⟨p, hp, hother⟩ := any_eq_true.mp hend
  obtain ⟨o, ho, hnot⟩ := (Option.any_eq_true _ _).mp hother
  refine ⟨w, hruns, p, hp, fun h => ?_⟩
  simp only [Bool.and_eq_true, decide_eq_true_eq] at hnot
  rcases h o ho with he | hd | hr
  · exact hnot.1.1 he
  · exact hnot.1.2 hd
  · exact hnot.2 hr

end
end CloudServer.Dispatch
