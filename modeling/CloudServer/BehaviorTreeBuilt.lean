import CloudServer.BehaviorTree

/-! A mission tree that the check accepts is built as it is declared if the parents it names are
sequences and selectors, and otherwise the build raises an exception. -/
namespace CloudServer.BehaviorTree

open Scan Behaviour

/-! ### Adding a child -/

abbrev Key := Text × Option ℕ × Kind

def Behaviour.key (b : Behaviour) : Key := (b.name, b.idx, b.kind)

def Behaviour.places (b : Behaviour) : List (Option ℕ) := b.children.map idx

lemma iterateAll_append (xs ys : List Behaviour) :
    iterateAll (xs ++ ys) = iterateAll xs ++ iterateAll ys := by
  induction xs with
  | nil => rfl
  | cons b xs ih => rw [List.cons_append, iterateAll, iterateAll, ih, List.append_assoc]

mutual

lemma add_child_key (p : Option ℕ) (child : Behaviour) : ∀ b : Behaviour,
    (add_child p child b).key = b.key
  | mk _ _ _ _ _ _ => rfl

lemma add_childAll_idx (p : Option ℕ) (child : Behaviour) : ∀ l : List Behaviour,
    (add_childAll p child l).map idx = l.map idx
  | [] => rfl
  | b :: rest => by
    have hkey := add_child_key p child b
    have hrest := add_childAll_idx p child rest
    rw [add_childAll, List.map_cons, List.map_cons, hrest]
    exact congrArg (· :: rest.map idx) (congrArg (fun k : Key => k.2.1) hkey)

end

mutual

lemma mem_add_child (p : Option ℕ) (child : Behaviour) : ∀ b : Behaviour,
    ∀ x ∈ (add_child p child b).iterate, x ∈ child.iterate ∨ ∃ y ∈ b.iterate, x.key = y.key ∧
      x.places = y.places ++ if y.idx = p then [child.idx] else []
  | mk name idx kind status current children, x, hx => by
    rw [add_child, iterate, List.mem_append, List.mem_singleton] at hx
    have hall : ∀ z ∈ iterateAll (add_childAll p child children), z ∈ child.iterate ∨
        ∃ y ∈ (mk name idx kind status current children).iterate, z.key = y.key ∧
          z.places = y.places ++ if y.idx = p then [child.idx] else [] := by
      intro z hz
      rcases mem_add_childAll p child children z hz with hz | ⟨y, hy, hxy⟩
      · exact .inl hz
      · exact .inr ⟨y, List.mem_append_left _ hy, hxy⟩
    rcases hx with hx | rfl
    · by_cases hp : idx = p
      · rw [if_pos hp] at hx
        rw [iterateAll_append] at hx
        rcases List.mem_append.mp hx with hx | hx
        · exact hall x hx
        · exact .inl (by simpa [iterateAll] using hx)
      · rw [if_neg hp] at hx
        exact hall x hx
    · refine .inr ⟨_, List.mem_append_right _ List.mem_cons_self, rfl, ?_⟩
      have hidx := add_childAll_idx p child children
      change (if idx = p then add_childAll p child children ++ [child]
        else add_childAll p child children).map Behaviour.idx =
          children.map Behaviour.idx ++ if idx = p then [child.idx] else []
      by_cases hp : idx = p
      · rw [if_pos hp, if_pos hp, List.map_append, hidx]
        rfl
      · rw [if_neg hp, if_neg hp, hidx, List.append_nil]

lemma mem_add_childAll (p : Option ℕ) (child : Behaviour) : ∀ l : List Behaviour,
    ∀ x ∈ iterateAll (add_childAll p child l), x ∈ child.iterate ∨ ∃ y ∈ iterateAll l,
      x.key = y.key ∧ x.places = y.places ++ if y.idx = p then [child.idx] else []
  | [], x, hx => by cases hx
  | b :: rest, x, hx => by
    rw [add_childAll, iterateAll] at hx
    rcases List.mem_append.mp hx with hx | hx
    · rcases mem_add_child p child b x hx with hx | ⟨y, hy, hxy⟩
      · exact .inl hx
      · exact .inr ⟨y, List.mem_append_left _ hy, hxy⟩
    · rcases mem_add_childAll p child rest x hx with hx | ⟨y, hy, hxy⟩
      · exact .inl hx
      · exact .inr ⟨y, List.mem_append_right _ hy, hxy⟩

end

variable {p : Option ℕ} {node : MissionNode}

mutual

lemma add_child_of_notMem (child : Behaviour) : ∀ b : Behaviour,
    p ∉ b.iterate.map idx → add_child p child b = b
  | mk name idx kind status current children, h => by
    simp only [iterate, List.map_append, List.map_cons, List.map_nil, List.mem_append, List.mem_singleton, not_or] at h
    rw [add_child, add_childAll_of_notMem child children h.1]
    exact congrArg (mk name idx kind status current) (if_neg fun heq => h.2 heq.symm)

lemma add_childAll_of_notMem (child : Behaviour) : ∀ l : List Behaviour,
    p ∉ (iterateAll l).map idx → add_childAll p child l = l
  | [], _ => rfl
  | b :: rest, h => by
    simp only [iterateAll, List.map_append, List.mem_append, not_or] at h
    rw [add_childAll, add_child_of_notMem child b h.1, add_childAll_of_notMem child rest h.2]

end

mutual

lemma add_child_perm (child : Behaviour) : ∀ b : Behaviour,
    (b.iterate.map idx).Nodup → p ∈ b.iterate.map idx →
      ((add_child p child b).iterate.map key).Perm (child.iterate.map key ++ b.iterate.map key)
  | mk name idx kind status current children, hnd, hp => by
    simp only [iterate, List.map_append, List.map_cons, List.map_nil] at hnd hp
    by_cases hidx : idx = p
    · have hnot : p ∉ (iterateAll children).map Behaviour.idx := by
        intro hmem
        rw [← hidx] at hmem
        exact List.disjoint_of_nodup_append hnd hmem List.mem_cons_self
      rw [add_child, add_childAll_of_notMem child children hnot]
      simp only [if_pos hidx, iterate, iterateAll_append, iterateAll, List.append_nil,
        List.map_append, List.map_cons, List.map_nil]
      rw [List.append_assoc]
      exact (List.perm_append_comm_assoc _ _ _)
    · have hmem : p ∈ (iterateAll children).map Behaviour.idx := by
        rcases List.mem_append.mp hp with hp | hp
        · exact hp
        · exact absurd (List.mem_singleton.mp hp).symm hidx
      have hperm := add_childAll_perm child children (List.Nodup.of_append_left hnd) hmem
      rw [add_child]
      simp only [if_neg hidx, iterate, List.map_append, List.map_cons, List.map_nil]
      rw [← List.append_assoc]
      exact hperm.append_right _

lemma add_childAll_perm (child : Behaviour) : ∀ l : List Behaviour,
    ((iterateAll l).map idx).Nodup → p ∈ (iterateAll l).map idx →
      ((iterateAll (add_childAll p child l)).map key).Perm (child.iterate.map key ++ (iterateAll l).map key)
  | [], _, hp => by cases hp
  | b :: rest, hnd, hp => by
    simp only [iterateAll, List.map_append] at hnd hp
    rw [add_childAll, iterateAll, iterateAll, List.map_append, List.map_append]
    by_cases hb : p ∈ b.iterate.map idx
    · have hrest : p ∉ (iterateAll rest).map idx := fun hmem =>
        List.disjoint_of_nodup_append hnd hb hmem
      rw [add_childAll_of_notMem child rest hrest, ← List.append_assoc]
      exact (add_child_perm child b (List.Nodup.of_append_left hnd) hb).append_right _
    · have hrest : p ∈ (iterateAll rest).map idx := (List.mem_append.mp hp).resolve_left hb
      rw [add_child_of_notMem child b hb]
      exact ((add_childAll_perm child rest (List.Nodup.of_append_right hnd) hrest).append_left _).trans
        (List.perm_append_comm_assoc _ _ _)

end

/-! ### The check -/

def Checked (name_set : List Text) : List MissionNode → Prop
  | [] => True
  | node :: rest => ∃ name, node.name = some name ∧ name ∉ name_set ∧ node.parent ∈ name_set ∧
      Checked (name :: name_set) rest

variable {tree value : List MissionNode} {name_set : List Text}

lemma validate_from_checked {i : ℕ}
    (h : validate_from i name_set value = .ok tree) : Checked name_set tree := by
  induction value generalizing i name_set tree with
  | nil =>
    cases h
    trivial
  | cons node rest ih =>
    simp only [validate_from] at h
    split at h
    · cases h
    · rename_i hname
      split at h
      · cases h
      · rename_i hparent
        cases hrest : validate_from (i + 1) (node.name.getD (str i) :: name_set) rest with
        | error e =>
          rw [hrest] at h
          cases h
        | ok checked =>
          rw [hrest] at h
          cases h
          exact ⟨_, rfl, hname, not_not.mp hparent, ih hrest⟩

lemma validate_checked (h : validate value = .ok tree) :
    Checked [ROOT] tree := by
  unfold validate at h
  split at h
  · cases h
  · exact validate_from_checked h

lemma Checked.named (h : Checked name_set tree) :
    ∀ node ∈ tree, node.name = some node.str_name := by
  induction tree generalizing name_set with
  | nil => exact fun _ hmem => absurd hmem List.not_mem_nil
  | cons node rest ih =>
    obtain ⟨name, hname, -, -, hrest⟩ := h
    intro m hm
    rcases List.mem_cons.mp hm with rfl | hm
    · unfold MissionNode.str_name
      rw [hname]
      rfl
    · exact ih hrest m hm

/-! ### The build -/

def MissionNodeType.control : MissionNodeType → Bool
  | .selector => true
  | .sequence => true
  | _ => false

def ControlName (mission_tree : List MissionNode) (name : Text) : Prop :=
  name = ROOT ∨ ∃ m ∈ mission_tree, m.name = some name ∧ m.type.control = true

/-- The parent of every node is the root or a control node. -/
def ControlParents (mission_tree : List MissionNode) : Prop :=
  ∀ node ∈ mission_tree, ControlName mission_tree node.parent

def declared (mission_tree : List MissionNode) : List Key :=
  (ROOT, none, .sequence) :: mission_tree.zipIdx.map fun n => (n.1.str_name, some n.2, n.1.type.kind)

def declared_children (mission_tree : List MissionNode) (name : Text) : List (Option ℕ) :=
  (mission_tree.zipIdx.filter fun n => n.1.parent = name).map fun n => some n.2

/-- The tree has the declared nodes, each below its parent in the declared order. -/
structure BuiltAs (mission_tree : List MissionNode) (root : Behaviour) : Prop where
  nodes : (root.iterate.map key).Perm (declared mission_tree)
  children : ∀ b ∈ root.iterate, b.places = declared_children mission_tree b.name

lemma find_parent_cases (root : Behaviour) (parent : Text) :
    (find_parent root parent = none ∧ ∀ b ∈ root.iterate, b.name ≠ parent) ∨
      ∃ b ∈ root.iterate, find_parent root parent = some b ∧ b.name = parent := by
  unfold find_parent
  generalize root.iterate = l
  induction l using List.reverseRecOn with
  | nil => exact .inl ⟨rfl, fun b hb => absurd hb List.not_mem_nil⟩
  | append_singleton l b ih =>
    rw [List.foldl_append, List.foldl_cons, List.foldl_nil]
    by_cases hb : b.name = parent
    · exact .inr ⟨b, by simp, if_pos hb, hb⟩
    · rw [if_neg hb]
      rcases ih with ⟨hnone, hall⟩ | ⟨c, hc, hsome, hname⟩
      · refine .inl ⟨hnone, fun c hc => ?_⟩
        rcases List.mem_append.mp hc with hc | hc
        · exact hall c hc
        · rw [List.mem_singleton.mp hc]
          exact hb
      · exact .inr ⟨c, List.mem_append_left _ hc, hsome, hname⟩

lemma declared_idx_nodup (tree : List MissionNode) :
    ((declared tree).map fun k => k.2.1).Nodup := by
  have hsnd : (tree.zipIdx.map fun n => some n.2) = (List.range' 0 tree.length).map some := by
    rw [← List.zipIdx_map_snd 0 tree, List.map_map]
    rfl
  unfold declared
  rw [List.map_cons, List.map_map]
  change (none :: tree.zipIdx.map fun n => some n.2).Nodup
  rw [hsnd, List.nodup_cons]
  constructor
  · intro hmem
    obtain ⟨_, _, heq⟩ := List.mem_map.mp hmem
    cases heq
  · exact List.Nodup.map (Option.some_injective _) List.nodup_range'

lemma declared_names (tree : List MissionNode) :
    (declared tree).map (·.1) = ROOT :: tree.map MissionNode.str_name := by
  unfold declared
  rw [List.map_cons, List.map_map]
  change ROOT :: (tree.zipIdx.map fun n => n.1.str_name) = _
  nth_rewrite 2 [← List.zipIdx_map_fst 0 tree]
  rw [List.map_map]
  rfl

lemma declared_append (tree : List MissionNode) (node : MissionNode) :
    declared (tree ++ [node]) = declared tree ++ [(node.str_name, some tree.length, node.type.kind)] := by
  unfold declared
  simp [List.zipIdx_append]

lemma declared_children_append (tree : List MissionNode) (node : MissionNode) (name : Text) :
    declared_children (tree ++ [node]) name = declared_children tree name ++
      if node.parent = name then [some tree.length] else [] := by
  unfold declared_children
  by_cases h : node.parent = name
  · simp [List.zipIdx_append, h]
  · simp [List.zipIdx_append, h]

lemma declared_children_of_unnamed {name : Text}
    (h : ∀ node ∈ tree, node.parent ≠ name) : declared_children tree name = [] := by
  unfold declared_children
  rw [List.filter_eq_nil_iff.mpr]
  · rfl
  · intro n hn
    have hne := h n.1 (List.fst_mem_of_mem_zipIdx hn)
    simpa using hne

lemma Checked.before {done rest : List MissionNode} (h : Checked name_set (done ++ node :: rest)) :
    node.str_name ∉ done.map MissionNode.str_name ++ name_set ∧
      node.parent ∈ done.map MissionNode.str_name ++ name_set ∧
        ∀ m ∈ done, m.parent ∈ done.map MissionNode.str_name ++ name_set := by
  induction done generalizing name_set with
  | nil =>
    obtain ⟨name, hname, hnew, hparent, -⟩ := h
    have hstr : node.str_name = name := by simp [MissionNode.str_name, hname]
    exact ⟨by simpa [hstr] using hnew, by simpa using hparent, fun m hm => absurd hm List.not_mem_nil⟩
  | cons first done ih =>
    obtain ⟨name, hname, -, hparent, hrest⟩ := h
    have hstr : first.str_name = name := by simp [MissionNode.str_name, hname]
    obtain ⟨hnew, hp, hall⟩ := ih hrest
    have hmem : ∀ x, x ∈ (first :: done).map MissionNode.str_name ++ name_set ↔
        x ∈ done.map MissionNode.str_name ++ name :: name_set := by
      intro x
      simp only [List.map_cons, hstr, List.cons_append, List.mem_cons, List.mem_append]
      tauto
    refine ⟨fun hx => hnew ((hmem _).mp hx), (hmem _).mpr hp, fun m hm => ?_⟩
    rcases List.mem_cons.mp hm with rfl | hm
    · exact List.mem_append_right _ hparent
    · exact (hmem _).mpr (hall m hm)

lemma Checked.names_nodup (h : Checked name_set tree) :
    (tree.map MissionNode.str_name).Nodup ∧ ∀ name ∈ tree.map MissionNode.str_name, name ∉ name_set := by
  induction tree generalizing name_set with
  | nil => simp
  | cons node rest ih =>
    obtain ⟨name, hname, hnew, -, hrest⟩ := h
    have hstr : node.str_name = name := by simp [MissionNode.str_name, hname]
    obtain ⟨hnd, hall⟩ := ih hrest
    rw [List.map_cons, hstr]
    constructor
    · exact List.nodup_cons.mpr ⟨fun hmem => hall name hmem List.mem_cons_self, hnd⟩
    · intro x hx
      rcases List.mem_cons.mp hx with rfl | hx
      · exact hnew
      · exact fun hmem => hall x hx (List.mem_cons_of_mem _ hmem)

section Tree
variable {done : List MissionNode} {root : Behaviour}

lemma BuiltAs.places_nodup (h : BuiltAs done root) : (root.iterate.map idx).Nodup := by
  have hperm := h.nodes.map fun k => k.2.1
  rw [List.map_map] at hperm
  exact hperm.symm.nodup (declared_idx_nodup done)

lemma BuiltAs.names_nodup (h : BuiltAs done root)
    (hnames : (ROOT :: done.map MissionNode.str_name).Nodup) : (root.iterate.map name).Nodup := by
  have hperm := h.nodes.map fun k => k.1
  rw [List.map_map, declared_names] at hperm
  exact hperm.symm.nodup hnames

lemma BuiltAs.add_child (h : BuiltAs done root) (hnames : (ROOT :: done.map MissionNode.str_name).Nodup)
    (hfresh : ∀ m ∈ done, m.parent ≠ node.str_name) (hself : node.parent ≠ node.str_name)
    {b : Behaviour} (hb : b ∈ root.iterate) (hparent : b.name = node.parent) :
    BuiltAs (done ++ [node]) (add_child b.idx (.new node.str_name (some done.length) node.type.kind) root) := by
  have hsame : ∀ y ∈ root.iterate, (y.idx = b.idx ↔ node.parent = y.name) := by
    intro y hy
    constructor
    · intro heq
      rw [List.inj_on_of_nodup_map h.places_nodup hy hb heq, hparent]
    · intro heq
      rw [List.inj_on_of_nodup_map (h.names_nodup hnames) hy hb (heq.symm.trans hparent.symm)]
  constructor
  · have hperm := add_child_perm (.new node.str_name (some done.length) node.type.kind) root
      h.places_nodup (List.mem_map_of_mem hb)
    rw [declared_append]
    exact hperm.trans (List.perm_append_comm.trans (h.nodes.append_right _))
  · intro x hx
    rw [declared_children_append]
    rcases mem_add_child _ _ root x hx with hx | ⟨y, hy, hkey, hplaces⟩
    · obtain rfl := List.mem_singleton.mp hx
      change [] = declared_children done node.str_name ++
        if node.parent = node.str_name then [some done.length] else []
      rw [declared_children_of_unnamed hfresh, if_neg hself]
      rfl
    · have hname : x.name = y.name := congrArg (·.1) hkey
      rw [hplaces, h.children y hy, hname]
      by_cases heq : y.idx = b.idx
      · rw [if_pos heq, if_pos ((hsame y hy).mp heq)]
        rfl
      · rw [if_neg heq, if_neg fun hp => heq ((hsame y hy).mpr hp)]

lemma control_iff (type : MissionNodeType) :
    type.control = true ↔ type.kind = .sequence ∨ type.kind = .selector := by
  cases type <;> simp [MissionNodeType.control, MissionNodeType.kind]

lemma BuiltAs.composite_iff (h : BuiltAs done root) (hroot : ∀ m ∈ done, m.str_name ≠ ROOT)
    (hnamed : ∀ m ∈ done, m.name = some m.str_name)
    (hnames : (done.map MissionNode.str_name).Nodup) {b : Behaviour} (hb : b ∈ root.iterate) :
    b.composite = true ↔ ControlName done b.name := by
  have hkind : b.composite = true ↔ b.kind = .sequence ∨ b.kind = .selector := by
    unfold composite
    simp
  have hkey : b.key ∈ declared done := h.nodes.mem_iff.mp (List.mem_map_of_mem hb)
  rw [hkind]
  rcases List.mem_cons.mp hkey with hkey | hkey
  · have hname : b.name = ROOT := congrArg (·.1) hkey
    have hk : b.kind = .sequence := congrArg (·.2.2) hkey
    simp [ControlName, hname, hk]
  · obtain ⟨⟨m, i⟩, hmem, hm⟩ := List.mem_map.mp hkey
    have hmem : m ∈ done := List.fst_mem_of_mem_zipIdx hmem
    have hname : m.str_name = b.name := congrArg (·.1) hm
    have hk : m.type.kind = b.kind := congrArg (·.2.2) hm
    rw [← hk, ← control_iff, ← hname]
    constructor
    · exact fun hcontrol => .inr ⟨m, hmem, hnamed m hmem, hcontrol⟩
    · rintro (heq | ⟨m', hmem', hname', hcontrol⟩)
      · exact absurd heq (hroot m hmem)
      · have hsame : m'.str_name = m.str_name :=
          Option.some_injective _ ((hnamed m' hmem').symm.trans hname')
        rwa [← List.inj_on_of_nodup_map hnames hmem' hmem hsame]

lemma BuiltAs.find_parent (h : BuiltAs done root) {parent : Text}
    (hbefore : parent ∈ done.map MissionNode.str_name ++ [ROOT]) :
    ∃ b ∈ root.iterate, find_parent root parent = some b ∧ b.name = parent := by
  rcases find_parent_cases root parent with ⟨-, hnone⟩ | hsome
  · exfalso
    have hmem : parent ∈ (root.iterate.map key).map (·.1) := by
      have hperm := h.nodes.map fun k : Key => k.1
      rw [hperm.mem_iff, declared_names]
      rcases List.mem_append.mp hbefore with hmem | hmem
      · exact List.mem_cons_of_mem _ hmem
      · rw [List.mem_singleton.mp hmem]
        exact List.mem_cons_self
    rw [List.map_map] at hmem
    obtain ⟨b, hb, heq⟩ := List.mem_map.mp hmem
    exact hnone b hb heq
  · exact hsome

lemma create_from_spec (hchecked : Checked [ROOT] tree) {node_status : Text → Option MissionState}
    (hstatus : ∀ node ∈ tree, ∃ state, node_status node.str_name = some state)
    (rest : List MissionNode) (htree : tree = done ++ rest) (h : BuiltAs done root) :
    (create_from node_status root done.length rest = .raised ∧
        ∃ node ∈ rest, ¬ ControlName tree node.parent) ∨
      ∃ t, create_from node_status root done.length rest = .built t ∧ BuiltAs tree t ∧
        ∀ node ∈ rest, ControlName tree node.parent := by
  induction rest generalizing done root with
  | nil =>
    rw [List.append_nil] at htree
    subst htree
    exact .inr ⟨root, rfl, h, fun node hmem => absurd hmem List.not_mem_nil⟩
  | cons node rest ih =>
    have hnode : node ∈ tree := htree ▸ List.mem_append_right done List.mem_cons_self
    have hdone : ∀ m ∈ done, m ∈ tree := fun m hm => htree ▸ List.mem_append_left _ hm
    obtain ⟨hnd, hroots⟩ := hchecked.names_nodup
    have hroot : ∀ m ∈ tree, m.str_name ≠ ROOT := fun m hm heq =>
      hroots _ (List.mem_map_of_mem hm) (List.mem_singleton.mpr heq)
    have hnd' : (done.map MissionNode.str_name).Nodup := by
      rw [htree, List.map_append] at hnd
      exact List.Nodup.of_append_left hnd
    have hnames : (ROOT :: done.map MissionNode.str_name).Nodup := by
      refine List.nodup_cons.mpr ⟨fun hmem => ?_, hnd'⟩
      obtain ⟨m, hm, heq⟩ := List.mem_map.mp hmem
      exact hroot m (hdone m hm) heq
    rw [htree] at hchecked
    obtain ⟨hnew, hbefore, hparents⟩ := hchecked.before
    have hfresh : ∀ m ∈ done, m.parent ≠ node.str_name := fun m hm heq => hnew (heq ▸ hparents m hm)
    have hself : node.parent ≠ node.str_name := fun heq => hnew (heq ▸ hbefore)
    obtain ⟨state, hstate⟩ := hstatus node hnode
    obtain ⟨b, hb, hfind, hname⟩ := h.find_parent hbefore
    have hcomposite := h.composite_iff (fun m hm => hroot m (hdone m hm))
      (fun m hm => hchecked.named m (List.mem_append_left _ hm)) hnd' hb
    have hcontrol : b.composite = true ↔ ControlName tree node.parent := by
      rw [hcomposite, hname]
      unfold ControlName
      refine or_congr_right ⟨fun ⟨m, hm, hrest⟩ => ⟨m, hdone m hm, hrest⟩, ?_⟩
      rintro ⟨m, hm, heq, hc⟩
      rcases List.mem_append.mp hbefore with hmem | hmem
      · obtain ⟨m', hm', heq'⟩ := List.mem_map.mp hmem
        have hstr : m.str_name = m'.str_name := by
          rw [heq']
          unfold MissionNode.str_name
          rw [heq]
          rfl
        rw [List.inj_on_of_nodup_map hnd hm (hdone m' hm') hstr] at heq hc
        exact ⟨m', hm', heq, hc⟩
      · exfalso
        apply hroot m hm
        unfold MissionNode.str_name
        rw [heq]
        exact List.mem_singleton.mp hmem
    simp only [create_from, hstate, hfind]
    by_cases hc : b.composite = true
    · rw [if_pos hc]
      have hlen : (done ++ [node]).length = done.length + 1 := by simp
      have hstep := ih (by rw [htree, List.append_assoc]; rfl)
        (h.add_child hnames hfresh hself hb hname)
      rw [hlen] at hstep
      rcases hstep with ⟨hraised, m, hm, hnot⟩ | ⟨t, hbuilt, ht, hall⟩
      · exact .inl ⟨hraised, m, List.mem_cons_of_mem _ hm, hnot⟩
      · refine .inr ⟨t, hbuilt, ht, fun m hm => ?_⟩
        rcases List.mem_cons.mp hm with rfl | hm
        · exact hcontrol.mp hc
        · exact hall m hm
    · rw [if_neg hc]
      exact .inl ⟨rfl, node, List.mem_cons_self, fun hp => hc (hcontrol.mpr hp)⟩

end Tree

lemma Checked.status (h : Checked [ROOT] tree)
    (node_status : Text → Option MissionState) : ∀ node ∈ tree,
      ∃ state, init_node_status tree node_status node.str_name = some state := fun node hmem =>
  ⟨_, if_pos (.inr (List.mem_filterMap.mpr ⟨node, hmem, h.named node hmem⟩))⟩

lemma builtAs_nil : BuiltAs [] (.new ROOT none .sequence) := by
  constructor
  · exact List.Perm.refl _
  · intro b hb
    obtain rfl := List.mem_singleton.mp hb
    rfl

/-- An accepted mission tree is built as it is declared, every node once under the parent it names and
the children in their order, exactly if every parent is the root, a sequence or a selector; the build
then returns True, and raises an exception otherwise. -/
theorem built_iff_control_parents {nodes tree : List MissionNode} (h : validate nodes = .ok tree)
    (node_status : Text → Option MissionState) :
    (∃ t, create_behavior_tree tree (init_node_status tree node_status) = .built t ∧
      BuiltAs tree t) ↔ ControlParents tree := by
  have hchecked := validate_checked h
  have hspec := create_from_spec hchecked (hchecked.status node_status) tree
    (List.nil_append tree).symm builtAs_nil
  constructor
  · rintro ⟨t, hbuilt, -⟩
    rcases hspec with ⟨hraised, -⟩ | ⟨-, -, -, hall⟩
    · exact absurd (hbuilt.symm.trans hraised) (by simp)
    · exact hall
  · intro hcontrol
    rcases hspec with ⟨-, m, hm, hnot⟩ | ⟨t, hbuilt, ht, -⟩
    · exact absurd (hcontrol m hm) hnot
    · exact ⟨t, hbuilt, ht⟩

theorem raised_of_leaf_parent {nodes tree : List MissionNode} (h : validate nodes = .ok tree)
    (hparents : ¬ ControlParents tree) (node_status : Text → Option MissionState) :
    create_behavior_tree tree (init_node_status tree node_status) = .raised := by
  have hchecked := validate_checked h
  rcases create_from_spec hchecked (hchecked.status node_status) tree
      (List.nil_append tree).symm builtAs_nil with
    ⟨hraised, -⟩ | ⟨-, -, -, hall⟩
  · exact hraised
  · exact absurd hall hparents

section Patrol

def patrol : List MissionNode :=
  [⟨some "loop".toList, ROOT, .sequence⟩, ⟨none, "loop".toList, .route⟩,
    ⟨some "back".toList, "loop".toList, .route⟩]

def patrol_checked : List MissionNode :=
  [⟨some "loop".toList, ROOT, .sequence⟩, ⟨some "1".toList, "loop".toList, .route⟩,
    ⟨some "back".toList, "loop".toList, .route⟩]

/-- The patrol is built. -/
theorem patrol_built : ∃ t, create_behavior_tree patrol_checked
    (init_node_status patrol_checked fun _ => none) = .built t ∧ BuiltAs patrol_checked t := by
  have hvalid : validate patrol = .ok patrol_checked := by decide
  apply (built_iff_control_parents hvalid fun _ => none).mpr
  unfold ControlParents ControlName
  decide

def routes : List MissionNode :=
  [⟨some "A".toList, ROOT, .route⟩, ⟨some "B".toList, "A".toList, .route⟩]

/-- The check accepts them, the build raises an exception. -/
theorem routes_raised : validate routes = .ok routes ∧
    create_behavior_tree routes (init_node_status routes fun _ => none) = .raised := by
  constructor
  · decide
  · rfl

theorem routes_raise : create_behavior_tree routes (init_node_status routes fun _ => some .COMPLETED) = .raised :=
  raised_of_leaf_parent (show validate routes = .ok routes by decide)
    (by unfold ControlParents ControlName; decide) _

end Patrol

end CloudServer.BehaviorTree
