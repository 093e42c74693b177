import CloudServer.BehaviorTreeBuilt
import CloudServer.BehaviorTreeTicks
import CloudServer.Steps

/-! A mission over its ticks and dispatcher restarts: the tree that is built anew from the stored
states goes on as the live one. -/
namespace CloudServer.BehaviorTree

open Scan Steps Behaviour

/-! ### Runs -/

inductive Act
  | set (name : Text) (state : MissionState)
  | update
  | restart

def built (mission_tree : List MissionNode) (node_status : Text → MissionState) : Created :=
  create_behavior_tree mission_tree fun name => some (node_status name)

def step (mission_tree : List MissionNode) (S : Mission) : Act → Option Mission
  | .set name state => some { S with node_status := Function.update S.node_status name state }
  | .update => some S.update
  | .restart =>
    match built mission_tree S.node_status with
    | .built root => some { S with root }
    | _ => none

/-- A leaf only moves from PENDING to RUNNING to a final state; other states may be set to anything. -/
def LeavesMove (mission_tree : List MissionNode) (S : Mission) : Act → Prop
  | .set name state => (∃ node ∈ mission_tree, node.name = some name ∧ node.type.kind = .leaf) →
      Later (S.node_status name) state
  | _ => True

/-! ### The tree as it is built -/

mutual

lemma stop_add_child (p : Option ℕ) (child : Behaviour) : ∀ b : Behaviour,
    stop (add_child p child b) = add_child p (stop child) (stop b)
  | mk name idx kind status current children => by
    rw [add_child, stop, stop, add_child, ← stopAll_add_childAll p child children]
    by_cases h : idx = p
    · rw [if_pos h, if_pos h, stopAll_eq_map, List.map_append, ← stopAll_eq_map]
      rfl
    · rw [if_neg h, if_neg h]

lemma stopAll_add_childAll (p : Option ℕ) (child : Behaviour) : ∀ l : List Behaviour,
    stopAll (add_childAll p child l) = add_childAll p (stop child) (stopAll l)
  | [] => rfl
  | b :: rest => by
    rw [add_childAll, stopAll, stopAll, add_childAll, stop_add_child p child b, stopAll_add_childAll p child rest]

end

lemma create_from_stop {node_status : Text → Option MissionState} {root t : Behaviour} {i : ℕ}
    {rest : List MissionNode} (h : create_from node_status root i rest = .built t)
    (hroot : stop root = root) : stop t = t := by
  induction rest generalizing root i with
  | nil =>
    obtain rfl := Created.built.inj h
    exact hroot
  | cons node rest ih =>
    simp only [create_from] at h
    split at h
    · cases h
    · split at h
      · cases h
      · split at h
        · refine ih h ?_
          rw [stop_add_child, hroot]
          rfl
        · cases h

lemma create_from_congr (f g : Text → MissionState) (root : Behaviour) (i : ℕ)
    (rest : List MissionNode) : create_from (fun name => some (f name)) root i rest =
      create_from (fun name => some (g name)) root i rest := by
  induction rest generalizing root i with
  | nil => rfl
  | cons node rest ih =>
    simp only [create_from]
    split
    · rfl
    · split
      · exact ih _ _
      · rfl

lemma built_congr (tree : List MissionNode) (f g : Text → MissionState) :
    built tree f = built tree g := create_from_congr f g _ _ _

section Built
variable {nodes tree : List MissionNode} {b : Behaviour} {σ τ : Text → MissionState}

lemma builtAs_of_built (h : validate nodes = .ok tree) (hb : built tree σ = .built b) :
    BuiltAs tree b := by
  have hchecked := validate_checked h
  set states : Text → Option MissionState := fun name => some (σ name) with hstates
  have hstatus : ∀ node ∈ tree, ∃ state, states node.str_name = some state := fun _ _ => ⟨_, rfl⟩
  rcases create_from_spec hchecked hstatus tree (List.nil_append tree).symm builtAs_nil with
    ⟨hraised, -⟩ | ⟨t, ht, hbuilt, -⟩
  · exact absurd (hb.symm.trans hraised) (by simp)
  · rwa [Created.built.inj (hb.symm.trans ht)]

lemma BuiltAs.leaf (h : BuiltAs tree b) (hchecked : Checked [ROOT] tree) {x : Behaviour}
    (hx : x ∈ b.iterate) (hleaf : x.kind = .leaf) :
    ∃ node ∈ tree, node.name = some x.name ∧ node.type.kind = .leaf := by
  have hkey : x.key ∈ declared tree := h.nodes.mem_iff.mp (List.mem_map_of_mem hx)
  rcases List.mem_cons.mp hkey with hkey | hkey
  · have hkind : x.kind = .sequence := congrArg (·.2.2) hkey
    exact absurd (hleaf.symm.trans hkind) (by simp)
  · obtain ⟨⟨node, i⟩, hmem, hnode⟩ := List.mem_map.mp hkey
    have hmem : node ∈ tree := List.fst_mem_of_mem_zipIdx hmem
    have hname : node.str_name = x.name := congrArg (·.1) hnode
    have hkind : node.type.kind = x.kind := congrArg (·.2.2) hnode
    exact ⟨node, hmem, hname ▸ hchecked.named node hmem, hkind.trans hleaf⟩

lemma BuiltAs.name_inj (h : BuiltAs tree b) (hchecked : Checked [ROOT] tree) {x y : Behaviour}
    (hx : x ∈ b.iterate) (hy : y ∈ b.iterate) (hname : x.name = y.name) : x = y := by
  obtain ⟨hnd, hroots⟩ := hchecked.names_nodup
  have hroot : ROOT ∉ tree.map MissionNode.str_name := fun hmem =>
    hroots ROOT hmem List.mem_cons_self
  exact List.inj_on_of_nodup_map (h.names_nodup (List.nodup_cons.mpr ⟨hroot, hnd⟩)) hx hy hname

end Built

mutual

lemma stop_keys : ∀ b : Behaviour, (stop b).iterate.map key = b.iterate.map key
  | mk name idx kind status current children => by
    rw [stop, iterate, iterate, List.map_append, List.map_append, stopAll_keys children]
    rfl

lemma stopAll_keys : ∀ l : List Behaviour, (iterateAll (stopAll l)).map key = (iterateAll l).map key
  | [] => rfl
  | b :: rest => by
    rw [stopAll, iterateAll, iterateAll, List.map_append, List.map_append, stop_keys b, stopAll_keys rest]

end

lemma settle_keys (σ : Text → MissionState) (b : Behaviour) :
    (settle σ b).iterate.map key = b.iterate.map key := by
  rw [← stop_keys (settle σ b), stop_settle, stop_keys]

lemma post_tick_of_leaf {root : Behaviour} {σ : Text → MissionState} {name : Text}
    (h : ∀ b ∈ root.iterate, b.name = name → b.kind = .leaf) : post_tick root σ name = σ name := by
  unfold post_tick
  generalize root.iterate = l at h
  induction l generalizing σ with
  | nil => rfl
  | cons b l ih =>
    rw [List.foldl_cons, ih fun c hc => h c (List.mem_cons_of_mem _ hc)]
    split
    · rename_i hb
      apply Function.update_of_ne
      intro hname
      have hleaf := h b List.mem_cons_self hname.symm
      simp [is_order, hleaf] at hb
    · rfl

/-! ### The invariant -/

lemma Later.trans {s t u : MissionState} (h : Later s t) (h' : Later t u) : Later s u := by
  rcases h with rfl | rfl | ⟨rfl, ht⟩
  · exact h'
  · exact .inr (.inl rfl)
  · rcases h' with rfl | rfl | ⟨rfl, hu⟩
    · exact .inr (.inr ⟨rfl, ht⟩)
    · exact absurd rfl ht
    · exact .inr (.inr ⟨rfl, hu⟩)

/-- The live tree is as it was built, or as a first tick left it with states that the leaves have
moved on from since. -/
def Live (fresh : Behaviour) (S : Mission) : Prop :=
  S.root = fresh ∨ ∃ σ, S.root = settle σ fresh ∧ LaterLeaves σ S.node_status fresh.iterate

lemma Live.tick {fresh : Behaviour} {S : Mission} (hfresh : stop fresh = fresh)
    (h : Live fresh S) : tick S.node_status S.root = settle S.node_status fresh := by
  rcases h with hroot | ⟨σ, hroot, hlater⟩
  · rw [hroot, ← tick_stop, hfresh]
  · rw [hroot]
    exact tick_settle fresh hlater

section Step
variable {nodes tree : List MissionNode} {fresh : Behaviour} {S T : Mission}

lemma Live.update (h : validate nodes = .ok tree) (hbuilt : BuiltAs tree fresh)
    (hfresh : stop fresh = fresh) (hS : Live fresh S) : Live fresh S.update := by
  refine .inr ⟨S.node_status, hS.tick hfresh, fun x hx hleaf => .inl ?_⟩
  have hchecked := validate_checked h
  symm
  apply post_tick_of_leaf
  rw [hS.tick hfresh]
  intro b hb hname
  have hkey : b.key ∈ fresh.iterate.map key := by
    rw [← settle_keys S.node_status fresh]
    exact List.mem_map_of_mem hb
  obtain ⟨c, hc, hckey⟩ := List.mem_map.mp hkey
  have hcname : c.name = x.name := (congrArg (·.1) hckey : c.name = b.name).trans hname
  have hkind : c.kind = b.kind := congrArg (·.2.2) hckey
  rw [← hkind, hbuilt.name_inj hchecked hc hx hcname, hleaf]

lemma Live.set (h : validate nodes = .ok tree) (hbuilt : BuiltAs tree fresh) {name : Text}
    {state : MissionState} (hmove : LeavesMove tree S (.set name state)) (hS : Live fresh S) :
    Live fresh { S with node_status := Function.update S.node_status name state } := by
  rcases hS with hroot | ⟨σ, hroot, hlater⟩
  · exact .inl hroot
  · refine .inr ⟨σ, hroot, fun x hx hleaf => (hlater x hx hleaf).trans ?_⟩
    by_cases hname : x.name = name
    · have hnode := hbuilt.leaf (validate_checked h) hx hleaf
      rw [hname] at hnode ⊢
      change Later _ (Function.update S.node_status name state name)
      rw [Function.update_self]
      exact hmove hnode
    · change Later _ (Function.update S.node_status name state x.name)
      rw [Function.update_of_ne hname]
      exact .inl rfl

lemma Live.step (h : validate nodes = .ok tree) (hbuilt : BuiltAs tree fresh)
    (hfresh : stop fresh = fresh) (hanew : ∀ σ, built tree σ = .built fresh) {a : Act}
    (hmove : LeavesMove tree S a) (hS : Live fresh S) (hT : step tree S a = some T) :
    Live fresh T := by
  cases a with
  | set name state =>
    cases hT
    exact hS.set h hbuilt hmove
  | update =>
    cases hT
    exact hS.update h hbuilt hfresh
  | restart =>
    simp only [BehaviorTree.step, hanew] at hT
    cases hT
    exact .inl rfl

end Step

/-- After any run of ticks, restarts and states that the leaves move through, the tree that is built
anew from the mission, ticked once, has the status and the current node of the live tree ticked on the
same states, and writes the same states. -/
theorem restart_resumes {nodes tree : List MissionNode} (h : validate nodes = .ok tree)
    {S T : Mission} (hS : built tree S.node_status = .built S.root)
    (hrun : Runs (step tree) (LeavesMove tree) S T) :
    ∃ fresh, built tree T.node_status = .built fresh ∧
      let resumed := Mission.update { root := fresh, node_status := T.node_status }
      resumed.root.status = T.update.root.status ∧ resumed.root.tip = T.update.root.tip ∧
        resumed.node_status = T.update.node_status := by
  have hfresh : stop S.root = S.root := create_from_stop hS rfl
  have hanew : ∀ σ, built tree σ = .built S.root := fun σ => (built_congr tree _ _).trans hS
  have hbuilt := builtAs_of_built h hS
  have hlive : Live S.root T := hrun.invariant (.inl rfl) fun _ _ _ hmove hlive hstep =>
    hlive.step h hbuilt hfresh hanew hmove hstep
  have htick : tick T.node_status S.root = tick T.node_status T.root := by
    rw [hlive.tick hfresh]
    exact Live.tick (S := ⟨S.root, T.node_status⟩) hfresh (.inl rfl)
  refine ⟨S.root, hanew _, ?_⟩
  simp only [Mission.update, htick, and_self]

section Delivery

instance (s t : MissionState) : Decidable (Later s t) :=
  inferInstanceAs (Decidable (s = t ∨ s = .PENDING ∨ s = .RUNNING ∧ t ≠ .PENDING))

instance (tree : List MissionNode) (S : Mission) (a : Act) : Decidable (LeavesMove tree S a) :=
  match a with
  | .set name state => inferInstanceAs (Decidable
      ((∃ node ∈ tree, node.name = some name ∧ node.type.kind = .leaf) →
        Later (S.node_status name) state))
  | .update => isTrue trivial
  | .restart => isTrue trivial

def delivery : List MissionNode :=
  [⟨some "fetch".toList, ROOT, .route⟩, ⟨some "bring".toList, ROOT, .selector⟩,
    ⟨some "hand".toList, "bring".toList, .route⟩, ⟨some "skip".toList, "bring".toList, .constant true⟩]

def delivery_root : Behaviour :=
  mk ROOT none .sequence .INVALID none
    [.new "fetch".toList (some 0) .leaf,
      mk "bring".toList (some 1) .selector .INVALID none
        [.new "hand".toList (some 2) .leaf, .new "skip".toList (some 3) (.constant true)]]

def delivery_start : Mission := { root := delivery_root, node_status := fun _ => .PENDING }

def delivery_acts : List Act :=
  [.update, .set "fetch".toList .RUNNING, .update, .set "fetch".toList .COMPLETED, .update, .restart,
    .update, .set "hand".toList .RUNNING, .update, .set "hand".toList .FAILED]

/-- The delivery is resumed after its second route has failed. -/
theorem restart_resumes_delivery : ∃ T : Mission, T.node_status "hand".toList = .FAILED ∧
    ∃ fresh, built delivery T.node_status = .built fresh ∧
      let resumed := Mission.update { root := fresh, node_status := T.node_status }
      resumed.root.status = T.update.root.status ∧ resumed.root.tip = T.update.root.tip ∧
        resumed.node_status = T.update.node_status := by
  have hvalid : validate delivery = .ok delivery := by decide
  have hplay : (play (step delivery) (fun S a => decide (LeavesMove delivery S a)) delivery_start
      delivery_acts).any (fun T => decide (T.node_status "hand".toList = .FAILED)) = true := by
    decide +kernel
  obtain ⟨T, hrun, hend⟩ := Runs.of_play_any (fun _ _ => of_decide_eq_true) hplay
  exact ⟨T, of_decide_eq_true hend, restart_resumes hvalid rfl hrun⟩

end Delivery

end CloudServer.BehaviorTree
