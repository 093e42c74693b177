import CloudServer.Scan

/-! The behavior tree of a mission: the check of a mission's nodes, the tree built from them, and its
ticks, with the composites of `py_trees`. -/
namespace CloudServer.BehaviorTree

open Scan

section Model

/-! ### Missions -/

inductive MissionState
  | PENDING
  | RUNNING
  | COMPLETED
  | CANCELED
  | FAILED
  deriving DecidableEq

inductive MissionNodeType
  | selector
  | sequence
  | route
  | move
  | action
  | notify
  | constant (success : Bool)
  deriving DecidableEq

structure MissionNode where
  name : Option Text
  parent : Text
  type : MissionNodeType
  deriving DecidableEq

def ROOT : Text := "root".toList

/-- The loop of `_validate_at_least_one_node`, at node `i`. -/
def validate_from (i : ℕ) (name_set : List Text) :
    List MissionNode → Except Text (List MissionNode)
  | [] => .ok []
  | node :: rest =>
    let name := node.name.getD (str i)
    if name ∈ name_set then
      .error ("MissionNode name ".toList ++ name ++
        " is repeated. All MissionNode namesmust be unique.".toList)
    else if node.parent ∉ name_set then
      .error ("MissionNode \"".toList ++ name ++ "\" has parent \"".toList ++ node.parent ++
        "\" which does not appear before it in the mission_tree.".toList)
    else
      (validate_from (i + 1) (name :: name_set) rest).map
        fun checked => { node with name := some name } :: checked

/-- `_validate_at_least_one_node`. -/
def validate (value : List MissionNode) : Except Text (List MissionNode) :=
  if value.length < 1 then .error "Number of nodes must be >= 1".toList
  else validate_from 0 [ROOT] value

/-- `str(node.name)`. -/
def MissionNode.str_name (node : MissionNode) : Text := node.name.getD "None".toList

def init_node_status (mission_tree : List MissionNode) (node_status : Text → Option MissionState)
    (name : Text) : Option MissionState :=
  if name = ROOT ∨ name ∈ mission_tree.filterMap (·.name) then
    some ((node_status name).getD .PENDING)
  else node_status name

/-! ### Behaviours -/

inductive Status
  | INVALID
  | RUNNING
  | SUCCESS
  | FAILURE
  deriving DecidableEq

inductive Kind
  | sequence
  | selector
  | leaf
  | constant (success : Bool)
  deriving DecidableEq

/-- A behaviour; `idx` is its place in the mission tree, `current_child` the place of the child. -/
inductive Behaviour
  | mk (name : Text) (idx : Option ℕ) (kind : Kind) (status : Status) (current_child : Option ℕ)
    (children : List Behaviour)

namespace Behaviour

def name : Behaviour → Text
  | mk name _ _ _ _ _ => name

def idx : Behaviour → Option ℕ
  | mk _ idx _ _ _ _ => idx

def kind : Behaviour → Kind
  | mk _ _ kind _ _ _ => kind

def status : Behaviour → Status
  | mk _ _ _ status _ _ => status

def children : Behaviour → List Behaviour
  | mk _ _ _ _ _ children => children

/-- `add_child` exists for composites only. -/
def composite (b : Behaviour) : Bool := b.kind = .sequence || b.kind = .selector

mutual

def iterate : Behaviour → List Behaviour
  | mk name idx kind status current_child children =>
    iterateAll children ++ [mk name idx kind status current_child children]

def iterateAll : List Behaviour → List Behaviour
  | [] => []
  | child :: rest => iterate child ++ iterateAll rest

end

mutual

/-- `parent.add_child(child)`, the parent being the node of this place. -/
def add_child (parent : Option ℕ) (child : Behaviour) : Behaviour → Behaviour
  | mk name idx kind status current_child children =>
    let children' := add_childAll parent child children
    mk name idx kind status current_child (if idx = parent then children' ++ [child] else children')

def add_childAll (parent : Option ℕ) (child : Behaviour) : List Behaviour → List Behaviour
  | [] => []
  | node :: rest => add_child parent child node :: add_childAll parent child rest

end

/-- A behaviour as it is constructed: the constructor of `py_trees` sets its status anew. -/
def new (name : Text) (idx : Option ℕ) (kind : Kind) : Behaviour := mk name idx kind .INVALID none []

end Behaviour

open Behaviour

def MissionNodeType.kind : MissionNodeType → Kind
  | .selector => .selector
  | .sequence => .sequence
  | .constant success => .constant success
  | _ => .leaf

/-- How `create_behavior_tree` ends: True, False with a failure reason, or an exception (a missing
status, a parent that takes no children). -/
inductive Created
  | built (root : Behaviour)
  | refused (failure_reason : Text)
  | raised

def find_parent (root : Behaviour) (parent : Text) : Option Behaviour :=
  root.iterate.foldl (fun found node => if node.name = parent then some node else found) none

/-- The loop of `create_behavior_tree`, at node `i`. -/
def create_from (node_status : Text → Option MissionState) (root : Behaviour) (i : ℕ) :
    List MissionNode → Created
  | [] => .built root
  | mission_node :: rest =>
    match node_status mission_node.str_name with
    | none => .raised
    | some _ =>
      match find_parent root mission_node.parent with
      | none => .refused ("Given parent ".toList ++ mission_node.parent ++ " does not exist".toList)
      | some parent =>
        if parent.composite then
          create_from node_status (add_child parent.idx
            (.new mission_node.str_name (some i) mission_node.type.kind) root) (i + 1) rest
        else .raised

def create_behavior_tree (mission_tree : List MissionNode)
    (node_status : Text → Option MissionState) : Created :=
  create_from node_status (.new ROOT none .sequence) 0 mission_tree

/-! ### Ticks -/

def tree2mission_state : Status → MissionState
  | .SUCCESS => .COMPLETED
  | .FAILURE => .FAILED
  | .RUNNING => .RUNNING
  | .INVALID => .PENDING

def mission2tree_state : MissionState → Status
  | .COMPLETED => .SUCCESS
  | .RUNNING => .RUNNING
  | .PENDING => .INVALID
  | _ => .FAILURE

/-- What a constant node is built with and `update` of it returns. -/
def const_status (success : Bool) : Status := if success then .SUCCESS else .FAILURE

/-- `update` of a leaf: an order that is PENDING counts as RUNNING. -/
def leaf_update (state : MissionState) : Status :=
  if state = .PENDING then .RUNNING else mission2tree_state state

namespace Kind

def decides : Kind → Status → Bool
  | .selector, status => status = .RUNNING || status = .SUCCESS
  | _, status => status ≠ .SUCCESS

def exhausted : Kind → Status
  | .selector => .FAILURE
  | _ => .SUCCESS

end Kind

namespace Behaviour

mutual

/-- `stop(Status.INVALID)`. -/
def stop : Behaviour → Behaviour
  | mk name idx kind _ _ children => mk name idx kind .INVALID none (stopAll children)

def stopAll : List Behaviour → List Behaviour
  | [] => []
  | child :: rest => stop child :: stopAll rest

end

def reset (children : List Behaviour) : List Behaviour :=
  children.map fun child => if child.status ≠ .INVALID then stop child else child

mutual

def size : Behaviour → ℕ
  | mk _ _ _ _ _ children => sizeAll children + 1

def sizeAll : List Behaviour → ℕ
  | [] => 0
  | child :: rest => size child + sizeAll rest + 1

end

mutual

@[simp] lemma size_stop : ∀ b : Behaviour, (stop b).size = b.size
  | mk _ _ _ _ _ children => by
    rw [stop, size, size, sizeAll_stopAll children]

@[simp] lemma sizeAll_stopAll : ∀ l : List Behaviour, sizeAll (stopAll l) = sizeAll l
  | [] => rfl
  | child :: rest => by
    rw [stopAll, sizeAll, sizeAll, size_stop child, sizeAll_stopAll rest]

end

@[simp] lemma sizeAll_reset (l : List Behaviour) : sizeAll (reset l) = sizeAll l := by
  induction l with
  | nil => rfl
  | cons child rest ih =>
    have hchild : (if child.status ≠ .INVALID then stop child else child).size = child.size := by
      split
      · exact size_stop child
      · rfl
    change size (if child.status ≠ .INVALID then stop child else child) + sizeAll (reset rest) + 1 = _
    rw [hchild, ih]
    rfl

mutual

/-- `tick`. A sequence that is RUNNING goes on at its current child, another one starts anew; a
selector always begins with its first child, and stops the later ones when its current child changes. -/
def tick (node_status : Text → MissionState) : Behaviour → Behaviour
  | mk name idx .leaf _ current_child children =>
    mk name idx .leaf (leaf_update (node_status name)) current_child children
  | mk name idx (.constant success) _ current_child children =>
    mk name idx (.constant success) (const_status success) current_child children
  | mk name idx .sequence _ _ [] => mk name idx .sequence .SUCCESS none []
  | mk name idx .sequence status current_child (child :: rest) =>
    let ticked := if status = .RUNNING
      then tickAll node_status .sequence (current_child.getD 0) (child :: rest)
      else tickAll node_status .sequence 0 (reset (child :: rest))
    mk name idx .sequence ticked.2.1 (some ticked.2.2) ticked.1
  | mk name idx .selector _ _ [] => mk name idx .selector .FAILURE none []
  | mk name idx .selector status current_child (child :: rest) =>
    let previous := if status = .RUNNING then current_child else some 0
    let ticked := tickAll node_status .selector 0 (child :: rest)
    let children := if ticked.2.1 ≠ .FAILURE ∧ previous ≠ some ticked.2.2
      then ticked.1.take (ticked.2.2 + 1) ++ reset (ticked.1.drop (ticked.2.2 + 1)) else ticked.1
    mk name idx .selector ticked.2.1 (some ticked.2.2) children
termination_by b => b.size
decreasing_by all_goals simp [size, sizeAll]

/-- The loop over the children after the first `index`: the children, the status and the place of the
child that ended it, or of the last one. -/
def tickAll (node_status : Text → MissionState) (kind : Kind) :
    ℕ → List Behaviour → List Behaviour × Status × ℕ
  | _, [] => ([], kind.exhausted, 0)
  | index + 1, child :: rest =>
    let ticked := tickAll node_status kind index rest
    (child :: ticked.1, ticked.2.1, ticked.2.2 + 1)
  | 0, child :: rest =>
    let child := tick node_status child
    if kind.decides child.status then (child :: rest, child.status, 0)
    else if rest = [] then ([child], kind.exhausted, 0)
    else
      let ticked := tickAll node_status kind 0 rest
      (child :: ticked.1, ticked.2.1, ticked.2.2 + 1)
termination_by _ l => sizeAll l
decreasing_by all_goals simp [sizeAll]; try omega

end

mutual

/-- `tip`: the current node. -/
def tip : Behaviour → Option Behaviour
  | mk name idx kind status none children =>
    if status ≠ .INVALID then some (mk name idx kind status none children) else none
  | mk _ _ _ _ (some current_child) children => tipAt current_child children

def tipAt : ℕ → List Behaviour → Option Behaviour
  | _, [] => none
  | 0, child :: _ => tip child
  | index + 1, _ :: rest => tipAt index rest

end

def is_order (b : Behaviour) : Bool := b.kind ≠ .leaf

end Behaviour

/-- The states that `post_tick` writes into the mission's status. -/
def post_tick (root : Behaviour) (node_status : Text → MissionState) : Text → MissionState :=
  root.iterate.foldl (fun node_status node =>
    if node.name ≠ ROOT ∧ node.is_order then
      Function.update node_status node.name (tree2mission_state node.status)
    else node_status) node_status

structure Mission where
  root : Behaviour
  node_status : Text → MissionState

/-- `update`. -/
def Mission.update (S : Mission) : Mission :=
  let root := tick S.node_status S.root
  { root, node_status := post_tick root S.node_status }

end Model
end CloudServer.BehaviorTree
