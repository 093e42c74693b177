import CloudServer.BehaviorTree

/-! What a behavior tree is after its first tick, and that a later tick leaves it so whatever the
leaves have come to in between. -/
namespace CloudServer.BehaviorTree

open Scan Behaviour List

/-! ### The first tick -/

namespace Behaviour

mutual

def settle (node_status : Text → MissionState) : Behaviour → Behaviour
  | mk name idx .leaf _ _ children =>
    mk name idx .leaf (leaf_update (node_status name)) none (stopAll children)
  | mk name idx (.constant success) _ _ children =>
    mk name idx (.constant success) (const_status success) none (stopAll children)
  | mk name idx .sequence _ _ children =>
    let settled := settleAll node_status .sequence children
    mk name idx .sequence settled.2.1 (if children = [] then none else some settled.2.2) settled.1
  | mk name idx .selector _ _ children =>
    let settled := settleAll node_status .selector children
    mk name idx .selector settled.2.1 (if children = [] then none else some settled.2.2) settled.1

def settleAll (node_status : Text → MissionState) (kind : Kind) :
    List Behaviour → List Behaviour × Status × ℕ
  | [] => ([], kind.exhausted, 0)
  | child :: rest =>
    let settled := settle node_status child
    if kind.decides settled.status then (settled :: stopAll rest, settled.status, 0)
    else if rest = [] then ([settled], kind.exhausted, 0)
    else
      let later := settleAll node_status kind rest
      (settled :: later.1, later.2.1, later.2.2 + 1)

end

end Behaviour

variable {σ τ : Text → MissionState}

lemma stopAll_eq_map (l : List Behaviour) : stopAll l = l.map stop := by
  induction l with
  | nil => rfl
  | cons b l ih => rw [stopAll, ih, map_cons]

@[simp] lemma stop_status (b : Behaviour) : (stop b).status = .INVALID := by
  cases b
  rfl

@[simp] lemma stopAll_eq_nil (l : List Behaviour) : stopAll l = [] ↔ l = [] := by
  rw [stopAll_eq_map, map_eq_nil_iff]

@[simp] lemma reset_stopAll (l : List Behaviour) : reset (stopAll l) = stopAll l := by
  rw [stopAll_eq_map, reset, map_map]
  apply map_congr_left
  intro b _
  simp

mutual

lemma stop_stop : ∀ b : Behaviour, stop (stop b) = stop b
  | mk name idx kind _ _ children => by rw [stop, stop, stopAll_stopAll children]

lemma stopAll_stopAll : ∀ l : List Behaviour, stopAll (stopAll l) = stopAll l
  | [] => rfl
  | b :: rest => by rw [stopAll, stopAll, stop_stop b, stopAll_stopAll rest]

end

variable {ticked : List Behaviour × Status × ℕ}

lemma tick_selector (name : Text) (idx : Option ℕ) (status : Status) (current_child : Option ℕ)
    (child : Behaviour) (rest : List Behaviour)
    (h : tickAll σ .selector 0 (child :: rest) = ticked)
    (hlater : reset (ticked.1.drop (ticked.2.2 + 1)) = ticked.1.drop (ticked.2.2 + 1)) :
    tick σ (mk name idx .selector status current_child (child :: rest)) =
      mk name idx .selector ticked.2.1 (some ticked.2.2) ticked.1 := by
  simp only [tick, h, hlater, take_append_drop, ite_self]

lemma reset_settleAll_drop (kind : Kind) (l : List Behaviour) :
    reset ((settleAll σ kind l).1.drop ((settleAll σ kind l).2.2 + 1)) =
      (settleAll σ kind l).1.drop ((settleAll σ kind l).2.2 + 1) := by
  induction l with
  | nil => rfl
  | cons b rest ih =>
    simp only [settleAll]
    split
    · exact reset_stopAll rest
    · split
      · rfl
      · exact ih

mutual

lemma tick_stop : ∀ b : Behaviour, tick σ (stop b) = settle σ b
  | mk name idx .leaf _ _ children => by simp only [stop, tick, settle]
  | mk name idx (.constant _) _ _ children => by simp only [stop, tick, settle]
  | mk name idx .sequence _ _ [] => by
    simp only [stop, stopAll, tick, settle, settleAll, Kind.exhausted, if_true]
  | mk name idx .selector _ _ [] => by
    simp only [stop, stopAll, tick, settle, settleAll, Kind.exhausted, if_true]
  | mk name idx .sequence _ _ (child :: rest) => by
    have hall := tickAll_stopAll .sequence (child :: rest)
    have hreset := reset_stopAll (child :: rest)
    rw [stopAll] at hall hreset
    rw [stop, stopAll, tick, hreset, hall]
    rfl
  | mk name idx .selector _ _ (child :: rest) => by
    have hall := tickAll_stopAll .selector (child :: rest)
    rw [stop]
    exact tick_selector name idx _ _ _ _ hall (reset_settleAll_drop .selector (child :: rest))

lemma tickAll_stopAll (kind : Kind) : ∀ l : List Behaviour,
    tickAll σ kind 0 (stopAll l) = settleAll σ kind l
  | [] => by simp only [stopAll, tickAll, settleAll]
  | child :: rest => by
    rw [stopAll, tickAll, settleAll, tick_stop child, tickAll_stopAll kind rest]
    simp only [stopAll_eq_nil]

end

/-! ### Later ticks -/

def Later (s t : MissionState) : Prop := s = t ∨ s = .PENDING ∨ s = .RUNNING ∧ t ≠ .PENDING

def LaterLeaves (σ τ : Text → MissionState) (nodes : List Behaviour) : Prop :=
  ∀ x ∈ nodes, x.kind = .leaf → Later (σ x.name) (τ x.name)

lemma LaterLeaves.child {child : Behaviour} {rest : List Behaviour}
    (h : LaterLeaves σ τ (iterateAll (child :: rest))) : LaterLeaves σ τ child.iterate := fun x hx =>
  h x (mem_append_left _ hx)

lemma LaterLeaves.rest {child : Behaviour} {rest : List Behaviour}
    (h : LaterLeaves σ τ (iterateAll (child :: rest))) : LaterLeaves σ τ (iterateAll rest) :=
  fun x hx => h x (mem_append_right _ hx)

lemma LaterLeaves.children {name : Text} {idx : Option ℕ} {kind : Kind} {status : Status}
    {current_child : Option ℕ} {children : List Behaviour}
    (h : LaterLeaves σ τ (mk name idx kind status current_child children).iterate) :
    LaterLeaves σ τ (iterateAll children) := fun x hx => h x (mem_append_left _ hx)

lemma LaterLeaves.leaf {name : Text} {idx : Option ℕ} {status : Status} {current_child : Option ℕ}
    {children : List Behaviour}
    (h : LaterLeaves σ τ (mk name idx .leaf status current_child children).iterate) :
    Later (σ name) (τ name) := h _ (mem_append_right _ mem_cons_self) rfl

lemma Later.eq_of_final {s t : MissionState} (h : Later s t) (hs : leaf_update s ≠ .RUNNING) :
    t = s := by
  rcases h with rfl | rfl | ⟨rfl, -⟩
  · rfl
  · exact absurd rfl hs
  · exact absurd rfl hs

lemma leaf_update_ne_invalid (s : MissionState) : leaf_update s ≠ .INVALID := by
  cases s <;> decide

@[simp] lemma decides_running (kind : Kind) : kind.decides .RUNNING = true := by
  cases kind <;> rfl

@[simp] lemma exhausted_ne_running (kind : Kind) : kind.exhausted ≠ .RUNNING := by
  cases kind <;> exact nofun

@[simp] lemma exhausted_ne_invalid (kind : Kind) : kind.exhausted ≠ .INVALID := by
  cases kind <;> exact nofun

mutual

lemma settle_ne_invalid : ∀ b : Behaviour, (settle σ b).status ≠ .INVALID
  | mk name idx .leaf _ _ children => leaf_update_ne_invalid (σ name)
  | mk name idx (.constant success) _ _ children => by cases success <;> exact nofun
  | mk name idx .sequence _ _ children => settleAll_ne_invalid .sequence children
  | mk name idx .selector _ _ children => settleAll_ne_invalid .selector children

lemma settleAll_ne_invalid (kind : Kind) : ∀ l : List Behaviour,
    (settleAll σ kind l).2.1 ≠ .INVALID
  | [] => exhausted_ne_invalid kind
  | child :: rest => by
    rw [settleAll]
    split
    · exact settle_ne_invalid child
    · split
      · exact exhausted_ne_invalid kind
      · exact settleAll_ne_invalid kind rest

end

mutual

lemma stop_settle : ∀ b : Behaviour, stop (settle σ b) = stop b
  | mk name idx .leaf _ _ children => by rw [settle, stop, stop, stopAll_stopAll]
  | mk name idx (.constant _) _ _ children => by rw [settle, stop, stop, stopAll_stopAll]
  | mk name idx .sequence _ _ children => by
    rw [settle, stop, stop, stopAll_settleAll .sequence children]
  | mk name idx .selector _ _ children => by
    rw [settle, stop, stop, stopAll_settleAll .selector children]

lemma stopAll_settleAll (kind : Kind) : ∀ l : List Behaviour,
    stopAll (settleAll σ kind l).1 = stopAll l
  | [] => rfl
  | child :: rest => by
    rw [settleAll]
    split
    · rw [stopAll, stopAll, stop_settle child, stopAll_stopAll]
    · split
      · rename_i hrest
        rw [stopAll, stopAll, stop_settle child, hrest]
        rfl
      · rw [stopAll, stopAll, stop_settle child, stopAll_settleAll kind rest]

end

lemma reset_settleAll (kind : Kind) (l : List Behaviour) :
    reset (settleAll σ kind l).1 = stopAll l := by
  induction l with
  | nil => rfl
  | cons child rest ih =>
    have hchild : (if (settle σ child).status ≠ .INVALID then stop (settle σ child)
        else settle σ child) = stop child := by
      rw [if_pos (settle_ne_invalid child), stop_settle child]
    rw [settleAll]
    split
    · have hrest := reset_stopAll rest
      unfold reset at hrest ⊢
      rw [map_cons, hchild, hrest]
      rfl
    · split
      · rename_i hnil
        subst hnil
        exact congrArg (· :: []) hchild
      · unfold reset at ih ⊢
        rw [map_cons, hchild, ih]
        rfl

mutual

lemma settle_final : ∀ b : Behaviour, LaterLeaves σ τ b.iterate → (settle σ b).status ≠ .RUNNING →
    settle τ b = settle σ b
  | mk name idx .leaf _ _ children, h, hs => by
    rw [settle, settle, h.leaf.eq_of_final hs]
  | mk name idx (.constant _) _ _ children, _, _ => by rw [settle, settle]
  | mk name idx .sequence _ _ children, h, hs => by
    have hall := settleAll_final .sequence children h.children hs
    rw [settle, settle, hall]
  | mk name idx .selector _ _ children, h, hs => by
    have hall := settleAll_final .selector children h.children hs
    rw [settle, settle, hall]

lemma settleAll_final (kind : Kind) : ∀ l : List Behaviour, LaterLeaves σ τ (iterateAll l) →
    (settleAll σ kind l).2.1 ≠ .RUNNING → settleAll τ kind l = settleAll σ kind l
  | [], _, _ => rfl
  | child :: rest, h, hs => by
    have hchild := settle_final child h.child
    have hrest := settleAll_final kind rest h.rest
    rw [settleAll] at hs
    by_cases hd : kind.decides (settle σ child).status = true
    · rw [if_pos hd] at hs
      rw [settleAll, settleAll, hchild hs, if_pos hd, if_pos hd]
    · have hrunning : (settle σ child).status ≠ .RUNNING := fun heq =>
        hd (heq ▸ decides_running kind)
      rw [if_neg hd] at hs
      rw [settleAll, settleAll, hchild hrunning, if_neg hd, if_neg hd]
      by_cases hnil : rest = []
      · rw [if_pos hnil, if_pos hnil]
      · rw [if_neg hnil] at hs
        rw [if_neg hnil, if_neg hnil, hrest hs]

end

/-! ### The tick of a settled tree -/

lemma settleAll_ne_nil (kind : Kind) {l : List Behaviour} (h : l ≠ []) :
    (settleAll σ kind l).1 ≠ [] := by
  cases l with
  | nil => exact absurd rfl h
  | cons child rest =>
    rw [settleAll]
    split
    · exact cons_ne_nil _ _
    · split
      · exact cons_ne_nil _ _
      · exact cons_ne_nil _ _

lemma tick_sequence (name : Text) (idx : Option ℕ) (status : Status) (index : ℕ)
    {children : List Behaviour} (h : children ≠ [])
    (hrunning : status = .RUNNING → tickAll σ .sequence index children = ticked)
    (hanew : status ≠ .RUNNING → tickAll σ .sequence 0 (reset children) = ticked) :
    tick σ (mk name idx .sequence status (some index) children) =
      mk name idx .sequence ticked.2.1 (some ticked.2.2) ticked.1 := by
  obtain ⟨child, rest, rfl⟩ := exists_cons_of_ne_nil h
  rw [tick]
  by_cases hs : status = .RUNNING
  · rw [if_pos hs, Option.getD_some, hrunning hs]
  · rw [if_neg hs, hanew hs]

mutual

lemma tick_settle : ∀ b : Behaviour, LaterLeaves σ τ b.iterate →
    tick τ (settle σ b) = settle τ b
  | mk name idx .leaf _ _ children, _ => by simp only [settle, tick]
  | mk name idx (.constant _) _ _ children, _ => by simp only [settle, tick]
  | mk name idx .sequence _ _ children, h => by
    by_cases hnil : children = []
    · subst hnil
      simp only [settle, settleAll, tick, Kind.exhausted, if_true]
    · rw [settle, settle, if_neg hnil, if_neg hnil]
      apply tick_sequence name idx _ _ (settleAll_ne_nil .sequence hnil)
      · exact fun hs => tickAll_resume .sequence children h.children hs
      · intro _
        rw [reset_settleAll]
        exact tickAll_stopAll .sequence children
  | mk name idx .selector _ _ children, h => by
    by_cases hnil : children = []
    · subst hnil
      simp only [settle, settleAll, tick, Kind.exhausted, if_true]
    · rw [settle, settle, if_neg hnil, if_neg hnil]
      have hagain := tickAll_again .selector children h.children
      obtain ⟨child, rest, hcons⟩ :=
        exists_cons_of_ne_nil (settleAll_ne_nil (σ := σ) .selector hnil)
      rw [hcons] at hagain ⊢
      exact tick_selector name idx _ _ child rest hagain (reset_settleAll_drop .selector children)

lemma tickAll_resume (kind : Kind) : ∀ l : List Behaviour, LaterLeaves σ τ (iterateAll l) →
    (settleAll σ kind l).2.1 = .RUNNING → tickAll τ kind (settleAll σ kind l).2.2 (settleAll σ kind l).1 = settleAll τ kind l
  | [], _, hs => absurd hs (exhausted_ne_running kind)
  | child :: rest, h, hs => by
    have hchild := tick_settle child h.child
    have hrest := tickAll_resume kind rest h.rest
    rw [settleAll] at hs
    by_cases hd : kind.decides (settle σ child).status = true
    · rw [settleAll, if_pos hd, tickAll, hchild, tickAll_stopAll kind rest, settleAll]
      simp only [stopAll_eq_nil]
    · rw [if_neg hd] at hs
      have hnil : rest ≠ [] := by
        intro heq
        rw [if_pos heq] at hs
        exact exhausted_ne_running kind hs
      rw [if_neg hnil] at hs
      have hfinal : settle τ child = settle σ child := settle_final child h.child
        fun heq => hd (heq ▸ decides_running kind)
      rw [settleAll, if_neg hd, if_neg hnil, tickAll, hrest hs, settleAll, hfinal, if_neg hd, if_neg hnil]

lemma tickAll_again (kind : Kind) : ∀ l : List Behaviour, LaterLeaves σ τ (iterateAll l) →
    tickAll τ kind 0 (settleAll σ kind l).1 = settleAll τ kind l
  | [], _ => by simp only [settleAll, tickAll]
  | child :: rest, h => by
    have hchild := tick_settle child h.child
    have hrest := tickAll_again kind rest h.rest
    by_cases hd : kind.decides (settle σ child).status = true
    · rw [settleAll, if_pos hd, tickAll, hchild, tickAll_stopAll kind rest, settleAll]
      simp only [stopAll_eq_nil]
    · have hfinal : settle τ child = settle σ child := settle_final child h.child
        fun heq => hd (heq ▸ decides_running kind)
      by_cases hnil : rest = []
      · rw [settleAll, if_neg hd, if_pos hnil, tickAll, hchild, settleAll, hfinal, if_neg hd,
          if_neg hd, if_pos rfl, if_pos hnil]
      · rw [settleAll, if_neg hd, if_neg hnil, tickAll, hchild, hrest, settleAll, hfinal, if_neg hd,
          if_neg hd, if_neg hnil, if_neg (settleAll_ne_nil kind hnil)]

end

end CloudServer.BehaviorTree
