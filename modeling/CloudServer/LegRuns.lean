import CloudServer.LegTracker

/-! When the recorded legs name the waypoints that were driven. -/
namespace CloudServer.LegTracker
open Scan OrderIds Steps List Option

lemma isNodeOf_nodeId (p p' : Text) (i q : ℕ) : isNodeOf p' (nodeId p i q) = decide (p = p') := by
  simp [isNodeOf, search_node]

lemma nodeIndex_nodeId (p : Text) (i q : ℕ) : nodeIndex (nodeId p i q) = some i := by
  have href : nodeOfReference (nodeId p i q) = nodeId p i q :=
    nodeOfReference_field (by decide) (by decide) _ _
  rw [nodeIndex, href]
  simp [search_node]

lemma nodeSequence_nodeId (p : Text) (i q : ℕ) : nodeSequence (nodeId p i q) = some q := by
  simp [nodeSequence, search_node]

lemma nodeSuffix_of_pairSuffix {t : Text} {m : Text × Text} (h : pairSuffix t = some m) :
    nodeSuffix t = some (m.1, some m.2) := by
  unfold pairSuffix at h
  obtain ⟨⟨ds, r⟩, hf, h⟩ := bind_eq_some_iff.mp h
  obtain ⟨s, hs, h⟩ := bind_eq_some_iff.mp h
  cases h
  unfold nodeSuffix
  rw [hf]
  dsimp only [bind_eq_bind, bind_some]
  rw [hs]

lemma parseNode_nodeId (p : Text) (i q : ℕ) : parseNode (nodeId p i q) = some (i, q) := by
  have hshape : nodeId p i q = p ++ ('-' :: 'n' :: (str i ++ '-' :: 's' :: str q)) := by
    simp [nodeId, orderId]
  have hmatch : pairSuffix ('-' :: 'n' :: (str i ++ '-' :: 's' :: str q)) = some (str i, str q) := by
    have hf := @field_str 'n' i ('-' :: 's' :: str q) (by simp; decide)
    simp [pairSuffix, hf, sequenceSuffix, lastField_str]
  have hsearch : search pairSuffix (nodeId p i q) = some (p, (str i, str q)) := by
    rw [hshape]
    refine search_append hmatch fun p1 p2 _ hne => ?_
    by_contra h
    obtain ⟨m, hm⟩ := ne_none_iff_exists'.mp h
    have hnone := nodeSuffix_before (i := i) (q := q) hne
    rw [nodeSuffix_of_pairSuffix hm] at hnone
    cases hnone
  simp [parseNode, hsearch]

variable {K : Type}
variable {first : ℕ}

lemma routeRows_lookup {tree : List (Node K)} {offset idx o : ℕ} {wps : List (Waypoint K)}
    (h : (routeRows first offset tree).lookup idx = some (o, wps)) :
    first ≤ idx ∧ (∃ r, tree[idx - first]? = some (.route r) ∧ r.waypoints = wps) ∧
      o = offset + ((tree.take (idx - first)).map Node.size).sum := by
  induction tree generalizing first offset with
  | nil => cases h
  | cons node tree ih =>
    have hlater {offset' : ℕ} (hsize : offset' = offset + node.size)
        (h : (routeRows (first + 1) offset' tree).lookup idx = some (o, wps)) :
        first ≤ idx ∧ (∃ r, (node :: tree)[idx - first]? = some (.route r) ∧ r.waypoints = wps) ∧
          o = offset + (((node :: tree).take (idx - first)).map Node.size).sum := by
      obtain ⟨hle, hr, ho⟩ := ih h
      have hsub : idx - first = idx - (first + 1) + 1 := by omega
      refine ⟨by omega, ?_, ?_⟩
      · rw [hsub, List.getElem?_cons_succ]
        exact hr
      · rw [hsub, take_succ_cons, map_cons, sum_cons, ho, hsize]
        omega
    cases node with
    | route r =>
      unfold routeRows at h
      rw [lookup_cons] at h
      by_cases hidx : idx = first
      · subst hidx
        simp only [beq_self_eq_true, Option.some.injEq, Prod.mk.injEq] at h
        obtain ⟨rfl, rfl⟩ := h
        simp
      · rw [beq_eq_false_iff_ne.mpr hidx] at h
        exact hlater rfl h
    | move | action | control =>
      unfold routeRows at h
      exact hlater rfl h

namespace Mission

variable {m : Mission K} {idx offset : ℕ} {wps : List (Waypoint K)}

lemma waypoints_of_lookup (h : m.routeTable.lookup idx = some (offset, wps)) :
    m.waypoints idx = some wps := by
  obtain ⟨-, ⟨r, hr, rfl⟩, -⟩ := routeRows_lookup h
  rw [Nat.sub_zero] at hr
  unfold waypoints
  rw [hr]

lemma topomap_of_lookup (h : m.routeTable.lookup idx = some (offset, wps)) (wp : ℕ) :
    (m.planned.bind fun path => path[offset + wp]?) = m.topomap idx wp := by
  obtain ⟨-, -, ho⟩ := routeRows_lookup h
  rw [Nat.sub_zero, Nat.zero_add] at ho
  rw [ho]
  rfl

end Mission

def Reach.place (a : Reach K) : Text × Option (Waypoint K) × Option Text :=
  (a.vdaNode, a.pose, a.topomap)

def Tracker.From (P : Text × Option (Waypoint K) × Option Text → Prop) (t : Tracker K) : Prop :=
  ∀ a, t.anchor = some a → P a.place

section
variable [Field K] [LinearOrder K] {math : Math K} {t : Tracker K} {msg : Message K} {m : Mission K}
  {P : Text × Option (Waypoint K) × Option Text → Prop}

namespace Tracker

omit [Field K] [LinearOrder K] in
lemma From.mono {Q : Text × Option (Waypoint K) × Option Text → Prop} (h : t.From P)
    (hPQ : ∀ place, P place → Q place) : t.From Q :=
  fun a ha => hPQ _ (h a ha)

omit [Field K] [LinearOrder K] in
lemma From.forPass (h : t.From P) (pass : ℕ) : (t.forPass pass).From P := by
  unfold Tracker.forPass
  split
  · exact h
  · rintro a ⟨⟩

lemma From.clock (h : t.From P) (msg : Message K) : (t.clock msg).From P := by
  intro a ha
  obtain ⟨a₀, h₀, rfl⟩ := map_eq_some_iff.mp ha
  have hplace := h a₀ h₀
  split
  · split
    · exact hplace
    · exact hplace
  · exact hplace

omit [LinearOrder K] in
lemma From.echo (h : t.From P) (hP : ∀ p idx, P (nodeId p idx 0, none, none)) :
    (t.echo msg m).From P := by
  unfold Tracker.echo
  split
  · split
    · split
      · intro a ha
        cases ha
        exact hP _ _
      · exact h
    · exact h
  · exact h

omit [LinearOrder K] in
lemma From.base (h : t.From P) (hP : P (msg.lastNodeId, none, none)) (idx : ℕ) :
    (t.base msg m idx).From P := by
  have hfresh : ∀ a, some (⟨msg.lastNodeId, 0, idx, msg.ts, msg.received, m.orderRev, none, none, none,
      0, false⟩ : Reach K) = some a → P a.place := by
    intro a ha
    cases ha
    exact hP
  unfold Tracker.base
  dsimp only
  split
  · exact hfresh
  · rename_i a ha
    split
    · exact hfresh
    split
    · intro b hb
      cases hb
      exact h a ha
    · exact h

structure Ends (P : Text × Option (Waypoint K) × Option Text → Prop) (math : Math K)
    (msg : Message K) (place : Text × Option (Waypoint K) × Option Text) (l : Leg K) : Prop where
  ends : ∃ (t : Tracker K) (start stop : Reach K) (mapId : Option Text), P start.place ∧
    stop.place = place ∧ l = math.leg t start stop msg.limits mapId

variable {j seq : ℕ} {p : Text} {place : Text × Option (Waypoint K) × Option Text}

lemma reach_none (t : Tracker K) {idx offset : ℕ} {wps : List (Waypoint K)} (h : wps[j]? = none) :
    t.reach math msg m idx (2 * (j + 1)) offset wps = (t, none) := by
  unfold Tracker.reach
  rw [show 2 * (j + 1) / 2 - 1 = j by omega, h]

lemma From.reach (math : Math K) (h : t.From P) (idx : ℕ) {offset : ℕ} {wps : List (Waypoint K)} {pose : Waypoint K}
    {topomap : Option Text} (hpose : wps[j]? = some pose)
    (htopo : (m.planned.bind fun path => path[offset + j]?) = topomap) :
    (t.reach math msg m idx (2 * (j + 1)) offset wps).1.From (· = (msg.lastNodeId, some pose, topomap)) ∧
      ∀ l, (t.reach math msg m idx (2 * (j + 1)) offset wps).2 = some l →
        Ends P math msg (msg.lastNodeId, some pose, topomap) l := by
  have hwp : 2 * (j + 1) / 2 - 1 = j := by omega
  have hseq : ¬ 2 * (j + 1) < 2 := by omega
  subst htopo
  unfold Tracker.reach
  rw [hwp, hpose]
  dsimp only
  rw [if_neg hseq]
  split
  · refine ⟨fun a ha => ?_, fun l hl => (nomatch hl)⟩
    cases ha
    rfl
  · rename_i start hstart
    refine ⟨fun a ha => ?_, fun l hl => ?_⟩
    · cases ha
      rfl
    · cases hl
      exact ⟨_, start, _, _, h start hstart, rfl, rfl⟩

structure Meets (m : Mission K) (p : Text) (idx j : ℕ) (place : Text × Option (Waypoint K) × Option Text) :
    Prop where
  node : place.1 = nodeId p idx (2 * j)
  start : j = 0 → place.2 = (none, none)
  waypoint : ∀ k, j = k + 1 → p = m.orderPrefix → ∀ wps, m.waypoints idx = some wps →
    wps[k]? = none ∨ ∃ pose, wps[k]? = some pose ∧ place.2 = (some pose, m.topomap idx k)

lemma progress_eq (t : Tracker K) {idx : ℕ} (hid : msg.lastNodeId = nodeId p idx seq) :
    t.progress math msg m =
      match m.routeTable.lookup idx with
      | none => ({ t with lastNode := some msg.lastNodeId, anchor := none }, none)
      | some row =>
        if seq = 0 then (({ t with lastNode := some msg.lastNodeId } : Tracker K).base msg m idx, none)
        else ({ t with lastNode := some msg.lastNodeId } : Tracker K).reach math msg m idx seq row.1 row.2 := by
  unfold Tracker.progress
  dsimp only
  rw [hid, nodeIndex_nodeId, nodeSequence_nodeId, bind_some]
  cases m.routeTable.lookup idx with
  | none => rfl
  | some row => cases seq <;> rfl

lemma From.progress (math : Math K) (h : t.From P) {idx : ℕ} (hmeets : Meets m p idx j place)
    (hhead : p = m.orderPrefix) (hmsg : msg.lastNodeId = place.1) :
    (t.progress math msg m).1.From (fun q => P q ∨ (m.waypoints idx).isSome ∧ q = place) ∧
      ∀ l, (t.progress math msg m).2 = some l → (m.waypoints idx).isSome ∧ Ends P math msg place l := by
  rw [progress_eq t (hmsg.trans hmeets.node)]
  have ht : Tracker.From P { t with lastNode := some msg.lastNodeId } := h
  cases hrow : m.routeTable.lookup idx with
  | none => exact ⟨fun a ha => (nomatch ha), fun l hl => (nomatch hl)⟩
  | some row =>
    obtain ⟨offset, wps⟩ := row
    have hwps := Mission.waypoints_of_lookup hrow
    have hsome : (m.waypoints idx).isSome := by
      rw [hwps]
      rfl
    cases j with
    | zero =>
      have hplace : place = (msg.lastNodeId, none, none) :=
        Prod.ext hmsg.symm (hmeets.start rfl)
      exact ⟨(ht.mono fun _ => .inl).base (.inr ⟨hsome, hplace.symm⟩) idx, fun l hl => (nomatch hl)⟩
    | succ k =>
      dsimp only
      rw [if_neg (by omega)]
      rcases hmeets.waypoint k rfl hhead wps hwps with hnone | ⟨pose, hpose, hplace⟩
      · rw [reach_none _ hnone]
        exact ⟨ht.mono fun _ => .inl, fun l hl => (nomatch hl)⟩
      · have hplace' : place = (msg.lastNodeId, some pose, m.topomap idx k) :=
          Prod.ext hmsg.symm hplace
        obtain ⟨hafter, hends⟩ := ht.reach math idx hpose
          (Mission.topomap_of_lookup hrow k)
        rw [hplace']
        exact ⟨hafter.mono fun _ hq => .inr ⟨hsome, hq⟩, fun l hl => ⟨hsome, hends l hl⟩⟩

lemma From.observe (math : Math K) (msg : Message K) (h : t.From P) {idx : ℕ}
    (hmeets : Meets m p idx j place)
    (hmsg : msg.lastNodeId = place.1) (hstart : ∀ p idx, P (nodeId p idx 0, none, none)) :
    (t.observe math msg m).1.From
        (fun q => P q ∨ (p = m.orderPrefix ∧ (m.waypoints idx).isSome) ∧ q = place) ∧
      ∀ l, (t.observe math msg m).2 = some l → (p = m.orderPrefix ∧ (m.waypoints idx).isSome) ∧ Ends P math msg place l := by
  have ht := (h.forPass m.passesCompleted).clock msg
  unfold Tracker.observe
  dsimp only
  split
  · exact ⟨(ht.echo hstart).mono fun _ => .inl, fun l hl => (nomatch hl)⟩
  rename_i hnode
  rw [hmsg, hmeets.node, isNodeOf_nodeId] at hnode
  have hhead : p = m.orderPrefix := by simpa using hnode
  split
  · exact ⟨ht.mono fun _ => .inl, fun l hl => (nomatch hl)⟩
  · obtain ⟨hafter, hends⟩ := ht.progress math hmeets hhead hmsg
    exact ⟨hafter.mono fun _ hq => hq.imp_right fun hq => ⟨⟨hhead, hq.1⟩, hq.2⟩,
      fun l hl => ⟨⟨hhead, (hends l hl).1⟩, (hends l hl).2⟩⟩

lemma From.silent (math : Math K) (msg : Message K) (m : Mission K) (h : t.From P) (hstart : ∀ p idx, P (nodeId p idx 0, none, none)) :
    (t.observe math { msg with lastNodeId := [] } m).1.From P ∧
      (t.observe math { msg with lastNodeId := [] } m).2 = none := by
  unfold Tracker.observe
  dsimp only
  rw [if_pos (show (!isNodeOf m.orderPrefix []) = true from rfl)]
  exact ⟨((h.forPass m.passesCompleted).clock _).echo hstart, rfl⟩

end Tracker

namespace Reached

variable (r : Reached K)

def pose : Option (Waypoint K) := r.source.map Source.pose

def place : Text × Option (Waypoint K) × Option Text := (r.nodeId, r.pose, r.topomap)

def Placed : Prop :=
  ∃ p idx j, r.nodeId = OrderIds.nodeId p idx (2 * j) ∧
    (j = 0 ∧ r.source = none ∨ ∃ s, r.source = some s ∧ s.idx = idx ∧ s.wp + 1 = j)

def IsStart : Prop := ∃ p idx, r = ⟨OrderIds.nodeId p idx 0, none, none⟩

end Reached

/-- The leg leads from `a` to `b`. -/
structure Leg.Joins (math : Math K) (limits : Limits K) (a b : Reached K) (l : Leg K) : Prop where
  fromNode : l.fromVdaNode = a.nodeId
  toNode : l.toVdaNode = b.nodeId
  fromTopomap : l.fromTopomapNode = a.topomap
  toTopomap : l.toTopomapNode = b.topomap
  straight : l.straight = (math.straight a.pose b.pose).map math.round3
  planned : l.planned = (math.straight a.pose b.pose).map math.round3
  expected : l.expected = (math.straight a.pose b.pose).bind fun d => math.expectedSeconds (some d)
    (a.pose.bind fun p => b.pose.map fun q => q.theta - p.theta) limits

lemma joins_of_places {start stop : Reach K} {a b : Reached K} (ha : a.place = start.place)
    (hb : stop.place = b.place) (t : Tracker K) (limits : Limits K) (mapId : Option Text) :
    (math.leg t start stop limits mapId).Joins math limits a b := by
  obtain ⟨ha1, ha2, ha3⟩ : a.nodeId = start.vdaNode ∧ a.pose = start.pose ∧ a.topomap = start.topomap := by
    simpa [Reached.place, Reach.place] using ha
  obtain ⟨hb1, hb2, hb3⟩ : stop.vdaNode = b.nodeId ∧ stop.pose = b.pose ∧ stop.topomap = b.topomap := by
    simpa [Reached.place, Reach.place] using hb
  refine ⟨ha1.symm, hb1, ha3.symm, hb3, ?_, ?_, ?_⟩ <;> rw [ha2, ← hb2] <;> rfl

lemma planLength_trajectory {limits : Limits K} {a b : Reached K} {l : Leg K}
    (hl : l.Joins math limits a b) (ha : a.Placed) (hb : b.Placed) {tolerance : K}
    {trajs : ℕ → Option (Trajectory K)} {len : Option K}
    (hlen : math.planLength tolerance l trajs = (len, some .trajectory)) :
    ∃ s s' points, a.source = some s ∧ b.source = some s' ∧ s'.idx = s.idx ∧ s'.wp = s.wp + 1 ∧
      ((trajs s.idx).bind fun traj => traj.leg s.wp s'.wp) = some points ∧
      len = some (math.polyline points) := by
  obtain ⟨p, i, j, hnode, hsrc⟩ := ha
  obtain ⟨p', i', j', hnode', hdst⟩ := hb
  unfold Math.planLength at hlen
  rw [hl.fromNode, hl.toNode, hnode, hnode', parseNode_nodeId, parseNode_nodeId] at hlen
  unfold Math.consecutive at hlen
  dsimp only at hlen
  split at hlen
  · have := congrArg Prod.snd hlen
    cases hst : l.straight <;> rw [hst] at this <;> cases this
  rename_i idx k hk
  split_ifs at hk with hcons
  cases hk
  obtain ⟨rfl, hfour, -, htwo⟩ := hcons
  have hj' : 2 * j' / 2 - 1 - 1 + 1 + 1 = j' := by omega
  have hj : j = 2 * j' / 2 - 1 - 1 + 1 := by omega
  split at hlen
  · have := congrArg Prod.snd hlen
    cases hst : l.straight <;> rw [hst] at this <;> cases this
  rename_i traj points htraj
  rcases hsrc with ⟨h0, -⟩ | ⟨s, hs, rfl, hsw⟩
  · omega
  rcases hdst with ⟨h0, -⟩ | ⟨s', hs', hsi, hsw'⟩
  · omega
  obtain ⟨traj', htraj', hpoints⟩ := bind_eq_some_iff.mp htraj
  obtain ⟨points', hpoints', heq⟩ := map_eq_some_iff.mp hpoints
  cases heq
  refine ⟨s, s', points, hs, hs', hsi, by omega, ?_, ?_⟩
  · rw [htraj', bind_some]
    have h1 : s.wp = 2 * j' / 2 - 1 - 1 := by omega
    have h2 : s'.wp = 2 * j' / 2 - 1 := by omega
    rw [h1, h2]
    exact hpoints'
  · split at hlen
    · split at hlen
      · exact (congrArg Prod.fst hlen).symm
      · cases hlen
    · have := congrArg Prod.snd hlen
      cases hst : l.straight <;> rw [hst] at this <;> cases this

structure Order.Built (o : Order K) : Prop where
  node : ∀ j n, o.nodes[j]? = some n → n.nodeId = nodeId o.head o.idx (2 * j)
  start : ∀ n, o.nodes[0]? = some n → n.source = none
  waypoint : ∀ stored, o.stored = some stored → ∀ k n, o.nodes[k + 1]? = some n →
    ∃ pose, stored[o.waypointOffset + k]? = some pose ∧
      n.source = some ⟨o.idx, o.waypointOffset + k, pose⟩

variable {skipped waypointOffset : ℕ}

omit [Field K] [LinearOrder K] in
lemma built_of_buildOrder {idx : ℕ} {o : Order K}
    (h : buildOrder m idx waypointOffset skipped = some o) :
    o.Built ∧ (o.stored = none → m.waypoints o.idx = none) := by
  unfold buildOrder at h
  dsimp only at h
  split at h
  · rename_i r hr
    cases h
    refine ⟨⟨fun j n hn => ?_, fun n hn => ?_, fun stored hs k n hn => ?_⟩, fun hs => (nomatch hs)⟩
    · unfold fromRoute at hn
      cases j with
      | zero =>
        cases hn
        rfl
      | succ j =>
        rw [List.getElem?_cons_succ, List.getElem?_map, List.getElem?_zipIdx] at hn
        obtain ⟨w, hw, rfl⟩ := map_eq_some_iff.mp hn
        obtain ⟨pose, -, rfl⟩ := map_eq_some_iff.mp hw
        dsimp only
        rw [show (0 + j) * 2 + 2 = 2 * (j + 1) by omega]
    · cases hn
      rfl
    · cases hs
      unfold fromRoute at hn
      rw [List.getElem?_cons_succ, List.getElem?_map, List.getElem?_zipIdx] at hn
      obtain ⟨w, hw, rfl⟩ := map_eq_some_iff.mp hn
      obtain ⟨pose, hpose, rfl⟩ := map_eq_some_iff.mp hw
      rw [List.getElem?_drop] at hpose
      refine ⟨pose, hpose, ?_⟩
      dsimp only
      rw [Nat.zero_add]
  · rename_i hr
    cases h
    refine ⟨⟨fun j n hn => ?_, fun n hn => ?_, fun stored hs => (nomatch hs)⟩, fun _ => ?_⟩
    · match j, hn with
      | 0, hn | 1, hn =>
        cases hn
        rfl
    · cases hn
      rfl
    · unfold Mission.waypoints
      rw [hr]
  · rename_i hr
    cases h
    refine ⟨⟨fun j n hn => ?_, fun n hn => ?_, fun stored hs => (nomatch hs)⟩, fun _ => ?_⟩
    · match j, hn with
      | 0, hn =>
        cases hn
        rfl
    · cases hn
      rfl
    · unfold Mission.waypoints
      rw [hr]
  · cases h

/-- A node that was reported, or the start node of an order that the robot echoed. -/
def World.Knows (w : World K) (r : Reached K) : Prop := (r ∈ w.reports ∨ r.IsStart) ∧ r.Placed

def World.KnowsPlace (w : World K) (place : Text × Option (Waypoint K) × Option Text) : Prop :=
  ∃ r, w.Knows r ∧ r.place = place

structure Inv (w : World K) : Prop where
  built : ∀ o ∈ w.orders, o.Built
  other : ∀ o ∈ w.orders, o.stored = none → w.mission.waypoints o.idx = none
  anchor : w.tracker.From w.KnowsPlace

omit [Field K] [LinearOrder K] in
lemma World.knowsPlace_start (w : World K) (p : Text) (idx : ℕ) :
    w.KnowsPlace (nodeId p idx 0, none, none) :=
  ⟨⟨nodeId p idx 0, none, none⟩, ⟨.inr ⟨p, idx, rfl⟩, p, idx, 0, rfl, .inl ⟨rfl, rfl⟩⟩, rfl⟩

omit [Field K] [LinearOrder K] in
lemma waypoints_set {r r' : Route K} {i : ℕ} (hr : m.missionTree[i]? = some (.route r)) {k : ℕ}
    (hk : m.waypoints k = none) (path : List Text) :
    ({ m with missionTree := m.missionTree.set i (.route r'), plannedPath := path } : Mission K).waypoints k = none := by
  unfold Mission.waypoints at hk ⊢
  by_cases hik : i = k
  · subst hik
    rw [hr] at hk
    cases hk
  · dsimp only
    rw [List.getElem?_set_ne hik]
    exact hk

section Report
variable {w : World K} {order node : ℕ} {o : Order K} {n : OrderNode K}

section
omit [Field K] [LinearOrder K]

lemma Inv.report_waypoint (h : Inv w) (hc : Uncut w (.report order node msg))
    (ho : w.orders[order]? = some o) (hn : o.nodes[node]? = some n)
    (hhead : o.head = w.mission.orderPrefix) {k : ℕ} (hk : node = k + 1)
    {wps : List (Waypoint K)} (hwps : w.mission.waypoints o.idx = some wps) :
    ∃ pose, wps[k]? = some pose ∧ n.source = some ⟨o.idx, k, pose⟩ := by
  have hmem := mem_of_getElem? ho
  cases hst : o.stored with
  | none =>
    rw [h.other o hmem hst] at hwps
    cases hwps
  | some stored =>
    obtain ⟨hoff, hnow⟩ := hc o ho hhead (by omega) stored hst
    obtain rfl := Option.some.inj (hnow.symm.trans hwps)
    subst hk
    have := (h.built o hmem).waypoint stored hst k n hn
    rwa [hoff, Nat.zero_add] at this

lemma Inv.meets (h : Inv w) (hc : Uncut w (.report order node msg)) (ho : w.orders[order]? = some o)
    (hn : o.nodes[node]? = some n) :
    Tracker.Meets w.mission o.head o.idx node (Reached.place ⟨n.nodeId, n.source,
      n.source.bind fun s => w.mission.topomap s.idx s.wp⟩) := by
  have hbuilt := h.built o (mem_of_getElem? ho)
  refine ⟨hbuilt.node node n hn, fun h0 => ?_, fun k hk hhead wps hwps => ?_⟩
  · subst h0
    unfold Reached.place Reached.pose
    dsimp only
    rw [hbuilt.start n hn]
    rfl
  · obtain ⟨pose, hpose, hsource⟩ := h.report_waypoint hc ho hn hhead hk hwps
    refine .inr ⟨pose, hpose, ?_⟩
    unfold Reached.place Reached.pose
    dsimp only
    rw [hsource]
    rfl

lemma Inv.placed (h : Inv w) (hc : Uncut w (.report order node msg)) (ho : w.orders[order]? = some o)
    (hn : o.nodes[node]? = some n) (hhead : o.head = w.mission.orderPrefix)
    (hwps : (w.mission.waypoints o.idx).isSome) (topomap : Option Text) :
    Reached.Placed ⟨n.nodeId, n.source, topomap⟩ := by
  have hbuilt := h.built o (mem_of_getElem? ho)
  refine ⟨o.head, o.idx, node, hbuilt.node node n hn, ?_⟩
  cases node with
  | zero => exact .inl ⟨rfl, hbuilt.start n hn⟩
  | succ k =>
    obtain ⟨wps, hwps⟩ := isSome_iff_exists.mp hwps
    obtain ⟨pose, -, hsource⟩ := h.report_waypoint hc ho hn hhead rfl hwps
    exact .inr ⟨_, hsource, rfl, rfl⟩

end

lemma Inv.report (math : Math K) (h : Inv w) (hc : Uncut w (.report order node msg)) (ho : w.orders[order]? = some o)
    (hn : o.nodes[node]? = some n) :
    let b : Reached K := ⟨n.nodeId, n.source, n.source.bind fun s => w.mission.topomap s.idx s.wp⟩
    let r := w.tracker.observe math { msg with lastNodeId := n.nodeId } w.mission
    Inv { w with tracker := r.1, reports := b :: w.reports } ∧
      ∀ l, r.2 = some l → b.Placed ∧ ∃ a, w.Knows a ∧ l.Joins math msg.limits a b := by
  intro b r
  obtain ⟨hafter, hends⟩ := h.anchor.observe math { msg with lastNodeId := n.nodeId }
    (h.meets hc ho hn) rfl w.knowsPlace_start
  refine ⟨⟨h.built, h.other, fun a ha => ?_⟩, fun l hl => ?_⟩
  · rcases hafter a ha with ⟨c, ⟨hcm, hplaced⟩, hplace⟩ | ⟨⟨hhead, hwps⟩, hplace⟩
    · exact ⟨c, ⟨hcm.imp_left (mem_cons_of_mem _), hplaced⟩, hplace⟩
    · exact ⟨b, ⟨.inl (.head _), h.placed hc ho hn hhead hwps _⟩, hplace.symm⟩
  · obtain ⟨⟨hhead, hwps⟩, ⟨t, start, stop, mapId, ⟨a, ha, hplace⟩, hstop, rfl⟩⟩ := hends l hl
    exact ⟨h.placed hc ho hn hhead hwps _, a, ha, joins_of_places hplace hstop t _ mapId⟩

end Report

omit [Field K] [LinearOrder K] in
lemma Inv.begin (m : Mission K) : Inv (World.begin m) :=
  ⟨fun _ ho => (nomatch ho), fun _ ho => (nomatch ho), fun _ ha => (nomatch ha)⟩

lemma Inv.stepLeg {w w' : World K} (h : Inv w) {a : Act K} (hc : Uncut w a) {l : Option (Leg K)}
    (hw : stepLeg math w a = some (w', l)) : Inv w' := by
  cases a with
  | build idx waypointOffset skipped =>
    obtain ⟨o, ho, hw⟩ := map_eq_some_iff.mp hw
    cases hw
    obtain ⟨hbuilt, hother⟩ := built_of_buildOrder ho
    exact ⟨forall_mem_cons.mpr ⟨hbuilt, h.built⟩, forall_mem_cons.mpr ⟨hother, h.other⟩, h.anchor⟩
  | revise =>
    cases hw
    exact ⟨h.built, h.other, h.anchor⟩
  | reroute idx r plannedPath =>
    dsimp only [LegTracker.stepLeg] at hw
    split at hw
    · rename_i r₀ hr
      cases hw
      exact ⟨h.built, fun o ho hst => waypoints_set hr (h.other o ho hst) plannedPath, h.anchor⟩
    · cases hw
  | pass runId =>
    cases hw
    exact ⟨h.built, h.other, h.anchor⟩
  | report order node msg =>
    obtain ⟨o, ho, hw⟩ := bind_eq_some_iff.mp hw
    obtain ⟨n, hn, hw⟩ := bind_eq_some_iff.mp hw
    cases hw
    exact (h.report math hc ho hn).1
  | silent msg =>
    cases hw
    obtain ⟨hafter, -⟩ := h.anchor.silent math msg w.mission w.knowsPlace_start
    exact ⟨h.built, h.other, hafter⟩

lemma Inv.of_runs {m₀ : Mission K} {w : World K} (h : Runs (step math) Uncut (World.begin m₀) w) :
    Inv w := by
  refine h.invariant (.begin m₀) fun _ _ _ hc hi hw => ?_
  obtain ⟨⟨v, l⟩, hv, rfl⟩ := map_eq_some_iff.mp hw
  exact hi.stepLeg hc hv

/-- A recorded leg has the poses and the topomap ids of the waypoints its two nodes were built from,
and a planned length taken from a trajectory is that of the trajectory between them. -/
theorem legs_name_waypoints {m₀ : Mission K} {w w' : World K}
    (h : Runs (step math) Uncut (World.begin m₀) w) {a : Act K} (hc : Uncut w a) {l : Leg K}
    (hw : stepLeg math w a = some (w', some l)) :
    ∃ limits start stop, w.Knows start ∧ w'.reports.head? = some stop ∧ stop.Placed ∧
      l.Joins math limits start stop ∧
      ∀ tolerance len, math.planLength tolerance l (trajectories w.mission.missionTree) =
          (len, some .trajectory) →
        ∃ s s' points, start.source = some s ∧ stop.source = some s' ∧ s'.idx = s.idx ∧
          s'.wp = s.wp + 1 ∧
          ((trajectories w.mission.missionTree s.idx).bind fun traj => traj.leg s.wp s'.wp) =
            some points ∧
          len = some (math.polyline points) := by
  have hi := Inv.of_runs h
  cases a with
  | report order node msg =>
    obtain ⟨o, ho, hw⟩ := bind_eq_some_iff.mp hw
    obtain ⟨n, hn, hw⟩ := bind_eq_some_iff.mp hw
    obtain ⟨rfl, hl⟩ := Prod.mk.inj (Option.some.inj hw)
    obtain ⟨-, hleg⟩ := hi.report math hc ho hn
    obtain ⟨hplaced, start, hstart, hjoins⟩ := hleg l hl
    exact ⟨msg.limits, start, _, hstart, rfl, hplaced, hjoins,
      fun tolerance len hlen => planLength_trajectory hjoins hstart.2 hplaced hlen⟩
  | silent msg =>
    obtain ⟨-, hl⟩ := Prod.mk.inj (Option.some.inj hw)
    have hnone := (hi.anchor.silent math msg w.mission w.knowsPlace_start).2
    have : (some l : Option (Leg K)) = none := hl.symm.trans hnone
    cases this
  | build idx waypointOffset skipped =>
    obtain ⟨o, -, hw⟩ := map_eq_some_iff.mp hw
    cases hw
  | reroute idx r plannedPath =>
    dsimp only [LegTracker.stepLeg] at hw
    split at hw <;> cases hw
  | revise | pass runId => cases hw

end

def uncut (w : World ℚ) : Act ℚ → Bool
  | .report order node _ => (w.orders[order]?).all fun o =>
    o.head ≠ w.mission.orderPrefix || node = 0 || o.stored.all fun stored =>
      o.waypointOffset = 0 && w.mission.waypoints o.idx = some stored
  | _ => true

lemma uncut_sound {w : World ℚ} {a : Act ℚ} (h : uncut w a = true) : Uncut w a := by
  cases a with
  | report order node msg =>
    intro o ho hhead hnode stored hst
    unfold uncut at h
    dsimp only at h
    rw [ho, all_some, hst, all_some] at h
    simpa [hhead, hnode.ne'] using h
  | _ => trivial

/-- A route along one axis, with a trajectory between its first three waypoints. -/
def sampleMission : Mission ℚ :=
  { name := "tour".toList
    runId := some "1234abcd".toList
    orderRev := 0
    passesCompleted := 0
    missionTree := [.route ⟨[⟨0, 0, 0, []⟩, ⟨1, 0, 0, []⟩, ⟨3, 0, 0, []⟩],
      some [⟨0, 1, [(0, 0), (1, 0)]⟩, ⟨1, 2, [(1, 0), (3, 0)]⟩]⟩]
    plannedPath := ["a".toList, "b".toList, "c".toList] }

def axisMath : Math ℚ := ⟨fun x y => |x| + |y|, id, id⟩

def sampleMessage (ts : ℚ) : Message ℚ := ⟨[], [], none, ts, ts, ⟨none, none, none⟩, none⟩

def sampleReports (upTo : ℕ) : List (Act ℚ) :=
  (List.range upTo).map fun node => .report 0 node (sampleMessage node)

/-- The second leg of an order that is sent whole. -/
theorem legs_name_waypoints_whole : ∃ w w' l,
    Runs (step axisMath) Uncut (World.begin sampleMission) w ∧
      stepLeg axisMath w (.report 0 3 (sampleMessage 3)) = some (w', some l) ∧
      (axisMath.planLength (3 / 100) l (trajectories w.mission.missionTree)).2 = some .trajectory ∧
      ∃ limits start stop, w.Knows start ∧ w'.reports.head? = some stop ∧ stop.Placed ∧
        l.Joins axisMath limits start stop ∧
        ∀ tolerance len, axisMath.planLength tolerance l (trajectories w.mission.missionTree) =
            (len, some .trajectory) →
          ∃ s s' points, start.source = some s ∧ stop.source = some s' ∧ s'.idx = s.idx ∧
            s'.wp = s.wp + 1 ∧
            ((trajectories w.mission.missionTree s.idx).bind fun traj => traj.leg s.wp s'.wp) =
              some points ∧
            len = some (axisMath.polyline points) := by
  obtain ⟨w, hruns, hend⟩ := Runs.of_play_any (fun _ _ => uncut_sound)
    (show (play (step axisMath) uncut (World.begin sampleMission)
      (.build 0 0 0 :: sampleReports 3)).any
      (fun w => uncut w (.report 0 3 (sampleMessage 3)) &&
        (stepLeg axisMath w (.report 0 3 (sampleMessage 3))).any fun r => r.2.any fun l =>
          (axisMath.planLength (3 / 100) l (trajectories w.mission.missionTree)).2 =
            some .trajectory) = true by decide +kernel)
  obtain ⟨hcare, hleg⟩ := Bool.and_eq_true_iff.mp hend
  obtain ⟨⟨w', l'⟩, hw', hl'⟩ := (any_eq_true _ _).mp hleg
  obtain ⟨l, rfl, hl⟩ := (any_eq_true _ _).mp hl'
  exact ⟨w, w', l, hruns, hw', of_decide_eq_true hl,
    legs_name_waypoints hruns (uncut_sound hcare) hw'⟩

/-- An order that leaves its first waypoint out: the leg from the second waypoint to the third is
recorded, and planned, as the one from the first to the second. -/
theorem cut_order_misnamed : ∃ w w' l,
    Runs (step axisMath) (fun _ _ => True) (World.begin sampleMission) w ∧
      stepLeg axisMath w (.report 0 2 (sampleMessage 2)) = some (w', some l) ∧
      ∃ start ∈ w.reports, ∃ stop ∈ w'.reports.head?,
        l.fromVdaNode = start.nodeId ∧ l.toVdaNode = stop.nodeId ∧
        l.fromTopomapNode ≠ start.topomap ∧ l.toTopomapNode ≠ stop.topomap ∧
        l.straight ≠ (axisMath.straight start.pose stop.pose).map axisMath.round3 ∧
        axisMath.planLength (3 / 100) l (trajectories w.mission.missionTree) =
          (some 1, some .trajectory) ∧
        (start.source.bind fun s => stop.source.bind fun s' =>
          ((trajectories w.mission.missionTree s.idx).bind fun traj => traj.leg s.wp s'.wp).map
            axisMath.polyline) = some 2 := by
  obtain ⟨w, hruns, hend⟩ := Runs.of_play_any (fun _ _ _ => trivial)
    (show (play (step axisMath) (fun _ _ => true) (World.begin sampleMission)
      (.build 0 1 0 :: sampleReports 2)).any
      (fun w => (stepLeg axisMath w (.report 0 2 (sampleMessage 2))).any fun r => r.2.any fun l =>
        w.reports.any fun start => r.1.reports.head?.any fun stop =>
          l.fromVdaNode = start.nodeId ∧ l.toVdaNode = stop.nodeId ∧
          l.fromTopomapNode ≠ start.topomap ∧ l.toTopomapNode ≠ stop.topomap ∧
          l.straight ≠ (axisMath.straight start.pose stop.pose).map axisMath.round3 ∧
          axisMath.planLength (3 / 100) l (trajectories w.mission.missionTree) =
            (some 1, some .trajectory) ∧
          (start.source.bind fun s => stop.source.bind fun s' =>
            ((trajectories w.mission.missionTree s.idx).bind fun traj => traj.leg s.wp s'.wp).map
              axisMath.polyline) = some 2) = true by decide +kernel)
  obtain ⟨⟨w', l'⟩, hw', hl'⟩ := (any_eq_true _ _).mp hend
  obtain ⟨l, rfl, hl⟩ := (any_eq_true _ _).mp hl'
  obtain ⟨start, hstart, hstop⟩ := any_eq_true.mp hl
  obtain ⟨stop, hstop, hfacts⟩ := (any_eq_true _ _).mp hstop
  exact ⟨w, w', l, hruns, hw', start, hstart, stop, hstop, of_decide_eq_true hfacts⟩

end CloudServer.LegTracker
