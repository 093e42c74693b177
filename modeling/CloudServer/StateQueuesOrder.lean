import CloudServer.StateQueues

/-! What a step of the server's and the robots' loops keeps of their queues. -/
namespace CloudServer.StateQueues

open Mailbox List Option Function

variable {κ R S O : Type} [DecidableEq κ]

def Message.readable (parse : R → Option S) (m : Message κ R S O) : Bool :=
  (m.parsed parse).isSome

structure Server.Kept (parse : R → Option S) (V : Server κ R S O) : Prop where
  sound : V.mqtt_messages.Sound Message.name Message.is_state
  handled : V.handled = V.mqtt_messages.taken.filter fun i => i.body.readable parse
  slots : ∀ k id, V.state_slots k = some id →
    V.mqtt_messages.Opens Message.name Message.is_state k id
  filled : V.mqtt_messages.Filled

structure Robot.Kept (A : Robot S O) : Prop where
  sound : A.messages.Sound (fun _ => ()) RobotMessage.is_state
  slot : ∀ id, A.state_slot = some id → ∃ s a c, A.messages.Holds id s a c ∧
    s.body.is_state = true
  tail : ∀ id, A.queue_tail = some id → A.state_slot = some id ∧
    ∃ a, A.messages.waiting = a ++ [.slot id]

section
variable {parse : R → Option S} {V V' : Server κ R S O} {A A' : Robot S O}

lemma enqueue_kept (h : V.Kept parse) (m : Message κ R S O) : (V.enqueue_now m).Kept parse := by
  unfold Server.enqueue_now
  split
  · rename_i hm
    split
    · rename_i id hid
      have hopens := h.slots _ id hid
      refine ⟨hopens.sound h.sound hm, h.handled, fun k id' hk => ?_, h.filled.replace id m⟩
      by_cases hkm : m.name = k
      · subst hkm
        cases hk.symm.trans hid
        exact hopens.replace hm
      · exact (h.slots k id' hk).replace_other hopens hkm
    · refine ⟨h.sound.put_slot m, h.handled, fun k id hk => ?_, h.filled.put_slot m⟩
      by_cases hkm : m.name = k
      · subst hkm
        simp only [update_self] at hk
        cases hk
        exact put_slot_opens h.sound hm
      · simp only [update_of_ne (Ne.symm hkm)] at hk
        exact (h.slots k id hk).put_slot h.sound hkm
  · refine ⟨h.sound.put m, h.handled, fun k id hk => ?_, h.filled.put m⟩
    by_cases hkm : m.name = k
    · subst hkm
      simp only [update_self] at hk
      cases hk
    · simp only [update_of_ne (Ne.symm hkm)] at hk
      exact (h.slots k id hk).put hkm

lemma server_get_kept (h : V.Kept parse) (hV : V.get = some V') : V'.Kept parse := by
  unfold Server.get at hV
  split at hV
  · obtain ⟨box, hbox, rfl⟩ := map_eq_some_iff.mp hV
    obtain ⟨hw, hs, -, -, ht, -⟩ := Box.get_cases hbox
    refine ⟨h.sound.get hbox, ?_, fun k id hk => (h.slots k id hk).congr hw hs, fun e he => ?_⟩
    · simp only [ht]
      exact h.handled
    · simp only [hw] at he
      simp only [content_congr hs]
      exact h.filled e he
  · cases hV

lemma take_cases (hV : V.take parse = some V') : ∃ entry box item,
    V.mqtt_messages.take = some (entry, box) ∧ V.mqtt_messages.content entry = some item ∧ V'.mqtt_messages = box ∧
      V'.handled = V.handled ++ (if item.body.readable parse then [item] else []) ∧
      (∀ k id, V'.state_slots k = some id → V.state_slots k = some id ∧ ¬(entry = .slot id ∧ item.body.name = k)) := by
  unfold Server.take at hV
  split at hV
  · cases hV
  · rename_i entry box hbox
    split at hV
    · cases hV
    · rename_i item hitem
      refine ⟨entry, box, item, hbox, hitem, ?_⟩
      have hslots : ∀ slots : κ → Option ℕ, (∀ x, entry = .plain x → slots = V.state_slots) →
          (∀ id, entry = .slot id → slots = if V.state_slots item.body.name = some id then
            update V.state_slots item.body.name none else V.state_slots) →
          ∀ k id, slots k = some id → V.state_slots k = some id ∧
            ¬(entry = .slot id ∧ item.body.name = k) := by
        intro slots hplain hslot k id hk
        cases entry with
        | plain x =>
          rw [hplain x rfl] at hk
          exact ⟨hk, fun he => by cases he.1⟩
        | slot id' =>
          rw [hslot id' rfl] at hk
          split at hk
          · rename_i hid
            by_cases hkn : k = item.body.name
            · subst hkn
              rw [update_self] at hk
              cases hk
            · rw [update_of_ne hkn] at hk
              exact ⟨hk, fun hc => hkn hc.2.symm⟩
          · rename_i hid
            refine ⟨hk, ?_⟩
            rintro ⟨heq, rfl⟩
            obtain rfl := Entry.slot.inj heq
            exact hid hk
      simp only at hV
      split at hV
      · rename_i hnone
        cases hV
        have hr : item.body.readable parse = false := by
          unfold Message.readable
          rw [hnone]
          rfl
        refine ⟨rfl, ?_, hslots _ (fun _ he => by rw [he]) fun _ he => by rw [he]⟩
        rw [hr]
        exact (append_nil _).symm
      · rename_i message hsome
        cases hV
        have hr : item.body.readable parse = true := by
          unfold Message.readable
          rw [hsome]
          rfl
        refine ⟨rfl, ?_, hslots _ (fun _ he => by rw [he]) fun _ he => by rw [he]⟩
        rw [hr]
        rfl

lemma server_take_kept (h : V.Kept parse) (hV : V.take parse = some V') : V'.Kept parse := by
  obtain ⟨entry, box, item, hbox, hitem, rfl, hhandled, hslots⟩ := take_cases hV
  obtain ⟨-, hw, heq⟩ := Box.take_cases hbox
  have hs : V'.mqtt_messages.slots = V.mqtt_messages.slots := by rw [heq]
  have ht : V'.mqtt_messages.taken = V.mqtt_messages.taken ++ [item] := by
    rw [heq, hitem]
    rfl
  refine ⟨h.sound.take hbox, ?_, fun k id hk => ?_, fun e he => ?_⟩
  · rw [hhandled, ht, h.handled, filter_append, filter_cons, filter_nil]
  · obtain ⟨hk', hnot⟩ := hslots k id hk
    refine ((h.slots k id hk').take hbox).resolve_left ?_
    rintro ⟨he, s, hs, hname⟩
    cases hs.symm.trans hitem
    exact hnot ⟨he, hname⟩
  · rw [content_congr hs]
    refine h.filled e ?_
    rw [hw]
    exact mem_cons_of_mem _ he

/-! ### A robot's queue -/

lemma slot_kept {box : Box (RobotMessage S O)} {m : RobotMessage S O} {busy : Bool}
    (hsound : (box.put_slot m).Sound (fun _ => ()) RobotMessage.is_state)
    (hfresh : ∀ id, .slot id ∈ box.waiting → id < box.next) (hm : m.is_state = true) :
    Robot.Kept ⟨box.put_slot m, some box.next, some box.next, busy⟩ := by
  refine ⟨hsound, fun id hid => ?_, fun id hid => ?_⟩
  · cases hid
    exact ⟨_, _, _, put_slot_holds hfresh m, hm⟩
  · cases hid
    exact ⟨rfl, _, put_slot_waiting⟩

lemma send_kept (h : A.Kept) (m : RobotMessage S O) : (A.send_message m).Kept := by
  unfold Robot.send_message
  split
  · rename_i hm
    split
    · rename_i id hid
      obtain ⟨s, a, c, hholds, hs⟩ := h.slot id hid
      split
      · rename_i htail
        obtain ⟨-, a', ha'⟩ := h.tail id htail
        have hc : c = [] := by
          -- the last entry is the slot, which is not in `c`
          have heq := ha'.symm.trans hholds.waiting
          rcases eq_nil_or_concat c with hc | ⟨c', e, rfl⟩
          · exact hc
          · rw [concat_eq_append, ← cons_append, ← append_assoc] at heq
            have hlast := (append_inj' heq rfl).2
            refine absurd ?_ hholds.behind
            rw [singleton_inj.mp hlast]
            simp
        subst hc
        refine ⟨h.sound.replace hholds hs hm rfl nofun, fun id' hid' => ?_, h.tail⟩
        cases hid.symm.trans hid'
        exact ⟨_, a, [], hholds.replace m, hm⟩
      · exact slot_kept (h.sound.supersede hholds hs hm rfl) h.sound.fresh hm
    · exact slot_kept (h.sound.put_slot m) h.sound.fresh hm
  · refine ⟨h.sound.put m, fun id hid => ?_, nofun⟩
    obtain ⟨s, a, c, hholds, hs⟩ := h.slot id hid
    exact ⟨s, a, _, hholds.put m, hs⟩

lemma robot_get_kept (h : A.Kept) (hA : A.get = some A') : A'.Kept := by
  unfold Robot.get at hA
  split at hA
  · cases hA
  · obtain ⟨box, hbox, rfl⟩ := map_eq_some_iff.mp hA
    obtain ⟨hw, -⟩ := Box.get_cases hbox
    refine ⟨h.sound.get hbox, fun id hid => ?_, fun id hid => ?_⟩
    · obtain ⟨s, a, c, hholds, hs⟩ := h.slot id hid
      exact ⟨s, a, c, hholds.get hbox, hs⟩
    · obtain ⟨hslot, a, ha⟩ := h.tail id hid
      exact ⟨hslot, a, hw.trans ha⟩

lemma robot_take_cases (hA : A.take = some A') : ∃ entry,
    A.messages.take = some (entry, A'.messages) ∧
      (∀ id, A'.state_slot = some id ↔ A.state_slot = some id ∧ entry ≠ .slot id) ∧
      ∀ id, A'.queue_tail = some id ↔ A.queue_tail = some id ∧ entry ≠ .slot id := by
  have hclear : ∀ (ref : Option ℕ) (id' id : ℕ),
      (if ref = some id' then none else ref) = some id ↔
        ref = some id ∧ (Entry.slot id' : Entry (RobotMessage S O)) ≠ .slot id := by
    intro ref id' id
    by_cases href : ref = some id'
    · rw [if_pos href, href]
      simp
    · rw [if_neg href]
      refine ⟨fun h => ⟨h, fun heq => href ?_⟩, And.left⟩
      rw [Entry.slot.inj heq]
      exact h
  unfold Robot.take at hA
  split at hA
  · cases hA
  · rename_i entry box hbox
    refine ⟨entry, ?_⟩
    cases entry with
    | plain item =>
      cases hA
      exact ⟨hbox, fun id => ⟨fun h => ⟨h, nofun⟩, And.left⟩, fun id => ⟨fun h => ⟨h, nofun⟩, And.left⟩⟩
    | slot id' =>
      cases hA
      exact ⟨hbox, hclear _ id', hclear _ id'⟩

lemma robot_take_kept (h : A.Kept) (hA : A.take = some A') : A'.Kept := by
  obtain ⟨entry, hbox, hslot, htail⟩ := robot_take_cases hA
  obtain ⟨-, hw, -⟩ := Box.take_cases hbox
  refine ⟨h.sound.take hbox, fun id hid => ?_, fun id hid => ?_⟩
  · obtain ⟨hid, hne⟩ := (hslot id).mp hid
    obtain ⟨s, a, c, hholds, hs⟩ := h.slot id hid
    rcases hholds.take hbox with ⟨-, heq, -⟩ | ⟨a', -, hholds'⟩
    · exact absurd heq hne
    · exact ⟨s, a', c, hholds', hs⟩
  · obtain ⟨hid, hne⟩ := (htail id).mp hid
    obtain ⟨hs, a, ha⟩ := h.tail id hid
    refine ⟨(hslot id).mpr ⟨hs, hne⟩, ?_⟩
    rw [hw] at ha
    cases a with
    | nil => exact absurd (List.cons.inj ha).1 hne
    | cons x a' => exact ⟨a', (List.cons.inj ha).2⟩

lemma finish_kept (h : A.Kept) (hA : A.finish = some A') : A'.Kept := by
  unfold Robot.finish at hA
  split at hA
  · cases hA
    exact ⟨h.sound, h.slot, h.tail⟩
  · cases hA

/-! ### One step -/

lemma enqueue_grows (h : V.Kept parse) (m : Message κ R S O) :
    Grows Message.name Message.is_state V.mqtt_messages (V.enqueue_now m).mqtt_messages := by
  unfold Server.enqueue_now
  split
  · rename_i hm
    split
    · rename_i id hid
      exact (h.slots _ id hid).grows h.sound hm
    · exact grows_put_slot h.sound.fresh m
  · exact grows_put _ m

lemma send_grows (h : A.Kept) (m : RobotMessage S O) :
    Grows (fun _ => ()) RobotMessage.is_state A.messages (A.send_message m).messages := by
  unfold Robot.send_message
  split
  · rename_i hm
    split
    · rename_i id hid
      obtain ⟨s, a, c, hholds, hs⟩ := h.slot id hid
      split
      · exact hholds.grows_replace h.sound hs hm rfl
      · exact hholds.grows_supersede h.sound hs hm rfl
    · exact grows_put_slot h.sound.fresh m
  · exact grows_put _ m

structure System.Kept (parse : R → Option S) (σ : System κ R S O) : Prop where
  server : σ.server.Kept parse
  robots : ∀ k, (σ.robots k).Kept

structure Changes (parse : R → Option S) (σ σ' : System κ R S O) : Prop where
  kept : σ'.Kept parse
  server : Moves Message.name Message.is_state σ.server.mqtt_messages σ'.server.mqtt_messages
  robots : ∀ k, Moves (fun _ => ()) RobotMessage.is_state (σ.robots k).messages
    (σ'.robots k).messages

variable {σ σ' : System κ R S O}

lemma moves_refl {M ι : Type} {key : M → ι} {state : M → Bool} (B : Box M) : Moves key state B B := .inl (.of_eq rfl rfl rfl)

lemma Server.Kept.work (h : V.Kept parse) (work : Work (Message κ R S O)) :
    Server.Kept parse { V with work } := { h with }

lemma server_changes (h : σ.Kept parse) (hV : V.Kept parse)
    (hmoves : Moves Message.name Message.is_state σ.server.mqtt_messages V.mqtt_messages) :
    Changes parse σ { σ with server := V } :=
  ⟨⟨hV, h.robots⟩, hmoves, fun _ => moves_refl _⟩

lemma robot_changes (h : σ.Kept parse) {k : κ} {known : κ → Bool} (hA : A.Kept)
    (hmoves : Moves (fun _ => ()) RobotMessage.is_state (σ.robots k).messages A.messages) :
    Changes parse σ { σ with known, robots := update σ.robots k A } := by
  refine ⟨⟨h.server, fun k' => ?_⟩, moves_refl _, fun k' => ?_⟩
  · by_cases hk : k' = k
    · subst hk
      simp only [update_self]
      exact hA
    · simp only [update_of_ne hk]
      exact h.robots k'
  · by_cases hk : k' = k
    · subst hk
      simp only [update_self]
      exact hmoves
    · simp only [update_of_ne hk]
      exact moves_refl _

structure Sends (σ σ' : System κ R S O) : Prop where
  server : σ'.server = σ.server
  kept : (∀ k, (σ.robots k).Kept) → ∀ k, (σ'.robots k).Kept
  grows : (∀ k, (σ.robots k).Kept) → ∀ k, Grows (fun _ => ()) RobotMessage.is_state
    (σ.robots k).messages (σ'.robots k).messages

lemma send_sends (σ : System κ R S O) (name : κ) (m : RobotMessage S O) :
    Sends σ (σ.send name m) := by
  refine ⟨rfl, fun h k => ?_, fun h k => ?_⟩
  · unfold System.send
    by_cases hk : k = name
    · subst hk
      simp only [update_self]
      exact send_kept (h k) m
    · simp only [update_of_ne hk]
      exact h k
  · unfold System.send
    by_cases hk : k = name
    · subst hk
      simp only [update_self]
      exact send_grows (h k) m
    · simp only [update_of_ne hk]
      exact .of_eq rfl rfl rfl

lemma deliver_sends (σ : System κ R S O) (m : Message κ R S O) : Sends σ (σ.deliver m) := by
  unfold System.deliver
  split
  · exact send_sends ..
  · exact ⟨rfl, fun h => h, fun _ _ => .of_eq rfl rfl rfl⟩

omit [DecidableEq κ] in
lemma Sends.trans {σ'' : System κ R S O} (h : Sends σ σ') (h' : Sends σ' σ'') : Sends σ σ'' :=
  ⟨h'.server.trans h.server, fun hk => h'.kept (h.kept hk), fun hk k => (h.grows hk k).trans (h'.grows (h.kept hk) k)⟩

lemma Sends.changes (hs : Sends σ σ') (h : σ.Kept parse) (work : Work (Message κ R S O)) :
    Changes parse σ { σ' with server := { σ.server with work } } :=
  ⟨⟨h.server.work work, hs.kept h.robots⟩, moves_refl _, fun k => .inl (hs.grows h.robots k)⟩

lemma process_changes (h : σ.Kept parse) (hσ : σ.process = some σ') : Changes parse σ σ' := by
  unfold System.process at hσ
  split at hσ
  · rename_i m hm
    split at hσ
    · cases hσ
      exact (deliver_sends σ m).changes h _
    · split at hσ <;>
      · cases hσ
        exact server_changes h (h.server.work _) (moves_refl _)
  · cases hσ

variable {found : Option O}

lemma answer_changes (h : σ.Kept parse) (hσ : σ.answer found = some σ') :
    Changes parse σ σ' := by
  unfold System.answer at hσ
  split at hσ
  · rename_i m hm
    cases found with
    | none =>
      cases hσ
      exact server_changes h (h.server.work _) (moves_refl _)
    | some robot =>
      cases hσ
      have hknown : Sends σ { σ with known := update σ.known m.name true } :=
        ⟨rfl, fun h => h, fun _ _ => .of_eq rfl rfl rfl⟩
      exact ((hknown.trans (send_sends _ m.name (.other robot))).trans (deliver_sends _ m)).changes h _
  · cases hσ

theorem step_changes {act : Act κ R S O} (h : σ.Kept parse) (hσ : step parse σ act = some σ') :
    Changes parse σ σ' := by
  cases act with
  | enqueue m =>
    cases hσ
    exact server_changes h (enqueue_kept h.server m) (.inl (enqueue_grows h.server m))
  | get =>
    obtain ⟨V, hV, rfl⟩ := map_eq_some_iff.mp hσ
    refine server_changes h (server_get_kept h.server hV) ?_
    unfold Server.get at hV
    split at hV
    · obtain ⟨box, hbox, rfl⟩ := map_eq_some_iff.mp hV
      exact .inl (Box.grows_get hbox)
    · cases hV
  | take =>
    obtain ⟨V, hV, rfl⟩ := map_eq_some_iff.mp hσ
    refine server_changes h (server_take_kept h.server hV) ?_
    obtain ⟨entry, box, item, hbox, -, rfl, -⟩ := take_cases hV
    exact .inr (Box.take_pops hbox)
  | process => exact process_changes h hσ
  | answer found => exact answer_changes h hσ
  | send name m =>
    cases hσ
    exact robot_changes h (send_kept (h.robots name) m) (.inl (send_grows (h.robots name) m))
  | robot_get name =>
    obtain ⟨A, hA, rfl⟩ := map_eq_some_iff.mp hσ
    refine robot_changes h (robot_get_kept (h.robots name) hA) ?_
    unfold Robot.get at hA
    split at hA
    · cases hA
    · obtain ⟨box, hbox, rfl⟩ := map_eq_some_iff.mp hA
      exact .inl (Box.grows_get hbox)
  | robot_take name =>
    obtain ⟨A, hA, rfl⟩ := map_eq_some_iff.mp hσ
    refine robot_changes h (robot_take_kept (h.robots name) hA) ?_
    obtain ⟨entry, hbox, -⟩ := robot_take_cases hA
    exact .inr (Box.take_pops hbox)
  | robot_finish name =>
    obtain ⟨A, hA, rfl⟩ := map_eq_some_iff.mp hσ
    refine robot_changes h (finish_kept (h.robots name) hA) ?_
    unfold Robot.finish at hA
    split at hA
    · cases hA
      exact moves_refl _
    · cases hA
  | other =>
    cases hσ
    exact ⟨h, moves_refl _, fun _ => moves_refl _⟩

/-! ### What the loops do next -/

omit [DecidableEq κ] in
lemma get_hand (hV : V.get = some V') : V'.mqtt_messages.hand ≠ none := by
  unfold Server.get at hV
  split at hV
  · obtain ⟨box, hbox, rfl⟩ := map_eq_some_iff.mp hV
    exact (Box.get_cases hbox).2.2.2.2.2
  · cases hV

lemma robot_get_hand (hA : A.get = some A') : A'.messages.hand ≠ none := by
  unfold Robot.get at hA
  split at hA
  · cases hA
  · obtain ⟨box, hbox, rfl⟩ := map_eq_some_iff.mp hA
    exact (Box.get_cases hbox).2.2.2.2.2

lemma answer_idle (hσ : σ.answer found = some σ') :
    σ'.server.work = .idle := by
  unfold System.answer at hσ
  split at hσ
  · cases found with
    | none =>
      cases hσ
      rfl
    | some robot =>
      cases hσ
      rfl
  · cases hσ

lemma process_idle (hσ : σ.process = some σ') :
    σ'.server.work = .idle ∨ ∃ m, σ'.server.work = .lookup m := by
  unfold System.process at hσ
  split at hσ
  · rename_i m hm
    split at hσ
    · cases hσ
      exact .inl rfl
    · split at hσ
      · cases hσ
        exact .inl rfl
      · cases hσ
        exact .inr ⟨m, rfl⟩
  · cases hσ

end
end CloudServer.StateQueues
