import CloudServer.Scan

/-! Ids of the orders, nodes and actions a mission dispatcher sends, and the readers that take
them apart again. -/
namespace CloudServer.OrderIds
open Scan List Option

def field (c : Char) : Text → Option (Text × Text)
  | '-' :: d :: t => if d = c then digits t else none
  | _ => none

def lastField (c : Char) (t : Text) : Option Text := do
  let (ds, r) ← field c t
  if atEnd r then some ds else none

/-- `-n(\d+)$` at the start of the text. -/
def orderSuffix (t : Text) : Option Text := lastField 'n' t

/-- `-s(\d+)$` at the start of the text. -/
def sequenceSuffix (t : Text) : Option Text := lastField 's' t

/-- `-n(\d+)(?:-s(\d+))?$` at the start of the text: both groups. -/
def nodeSuffix (t : Text) : Option (Text × Option Text) := do
  let (ds, r) ← field 'n' t
  match sequenceSuffix r with
  | some s => some (ds, some s)
  | none => if atEnd r then some (ds, none) else none

/-- `(?:-s\d+(?:-n\d+)?)?$` at the start of the text. -/
def referenceEnd (t : Text) : Bool :=
  atEnd t || (field 's' t).any fun p => atEnd p.2 || (orderSuffix p.2).isSome

/-- `-n\d+(?:-s\d+(?:-n\d+)?)?$` at the start of the text: the part up to the digits. -/
def referenceSuffix (t : Text) : Option Text := do
  let (ds, r) ← field 'n' t
  if referenceEnd r then some ('-' :: 'n' :: ds) else none

def policySuffix : Text := "-policy".toList

def runPrefix (name : Text) (run_id : Option Text) (order_rev : ℕ) : Text :=
  match run_id with
  | none => name
  | some run =>
    if run = [] then name
    else
      let p := name ++ '-' :: 'r' :: run
      if 0 < order_rev then p ++ 'v' :: str order_rev else p

def orderId (p : Text) (node_idx : ℕ) : Text := p ++ '-' :: 'n' :: str node_idx

def nodeId (p : Text) (node_idx sequence : ℕ) : Text :=
  orderId p node_idx ++ '-' :: 's' :: str sequence

def nodeActionId (node : Text) (node_idx : ℕ) : Text := node ++ '-' :: 'n' :: str node_idx

def orderActionId (order : Text) (node_idx : ℕ) : Text :=
  nodeActionId (order ++ '-' :: 's' :: ['0']) node_idx

def nodePolicyActionId (node : Text) : Text := node ++ policySuffix

def orderOfNode (node : Text) : Option Text :=
  (search nodeSuffix node).map fun m => m.1 ++ '-' :: 'n' :: m.2.1

def orderPrefix (order : Text) : Option Text := (search orderSuffix order).map Prod.fst

def orderNodeIndex (order : Text) : Option ℕ := (search orderSuffix order).map fun m => int m.2

def isOrderOf (p order : Text) : Bool := decide (orderPrefix order = some p)

def nodeOfReference (reference : Text) : Text :=
  if policySuffix <:+ reference then reference.take (reference.length - policySuffix.length)
  else reference

def nodeIndex (node : Text) : Option ℕ :=
  (search nodeSuffix (nodeOfReference node)).map fun m => int m.2.1

def nodeSequence (node : Text) : Option ℕ :=
  (search nodeSuffix node).bind fun m => m.2.2.map int

def isNodeOf (p node : Text) : Bool :=
  (search nodeSuffix node).any fun m => decide (m.1 = p)

def orderOfReference (reference : Text) : Option Text :=
  (searchLine referenceSuffix (nodeOfReference reference)).map fun m => m.1 ++ m.2

def isReferenceOf (p reference : Text) : Option Bool :=
  (orderOfReference reference).map fun order => decide (orderPrefix order = some p)

example : orderOfReference "a-n3-s2-r1234abcdv7-n4-s0-n4".toList =
    some "a-n3-s2-r1234abcdv7-n4".toList := by
  decide

@[ext]
structure RunId where
  text : Text
  length : text.length = 8
  hex : ∀ c ∈ text, c ∈ "0123456789abcdef".toList

/-- What the ids of an order are made from. -/
@[ext]
structure Origin where
  name : Text
  run : RunId
  order_rev : ℕ
  node_idx : ℕ
  sequence : ℕ

namespace Origin
variable (o : Origin)

def prefixText : Text := runPrefix o.name (some o.run.text) o.order_rev
def order : Text := orderId o.prefixText o.node_idx
def node : Text := nodeId o.prefixText o.node_idx o.sequence
def nodeAction : Text := nodeActionId o.node o.node_idx
def orderAction : Text := orderActionId o.order o.node_idx
def policyAction : Text := nodePolicyActionId o.node

end Origin

lemma field_str (c : Char) (n : ℕ) {t : Text} (ht : ∀ d ∈ t.head?, isDecimal d = false) :
    field c ('-' :: c :: (str n ++ t)) = some (str n, t) := by
  rw [field, if_pos rfl, digits_str_append n ht]

lemma field_eq_some {c : Char} {t ds r : Text} (h : field c t = some (ds, r)) :
    t = '-' :: c :: (ds ++ r) ∧ '-' ∉ ds := by
  unfold field at h
  split at h
  · split_ifs at h with hc
    obtain ⟨rfl, hd⟩ := digits_eq_some h
    exact ⟨by rw [hc], dash_notMem hd⟩
  · cases h

lemma lastField_eq_some {c : Char} {t ds : Text} (h : lastField c t = some ds) :
    ∃ r, t = '-' :: c :: (ds ++ r) ∧ '-' ∉ ds ++ r := by
  unfold lastField at h
  obtain ⟨⟨ds', r⟩, hf, h⟩ := bind_eq_some_iff.mp h
  obtain ⟨ht, hds⟩ := field_eq_some hf
  dsimp only at h
  split_ifs at h with hr
  cases h
  exact ⟨r, ht, by simp [hds, atEnd_dash hr]⟩

lemma lastField_str (c : Char) (n : ℕ) : lastField c ('-' :: c :: str n) = some (str n) := by
  have hf := @field_str c n [] (by simp)
  rw [append_nil] at hf
  simp [lastField, hf, atEnd]

lemma nodeSuffix_eq_some {t : Text} {m : Text × Option Text} (h : nodeSuffix t = some m) :
    (∃ b, t = '-' :: 'n' :: b ∧ '-' ∉ b) ∨ ∃ a b, t = ('-' :: 'n' :: a) ++ '-' :: 's' :: b ∧ '-' ∉ a ∧ '-' ∉ b := by
  unfold nodeSuffix at h
  obtain ⟨⟨ds, r⟩, hf, h⟩ := bind_eq_some_iff.mp h
  obtain ⟨ht, hds⟩ := field_eq_some hf
  dsimp only at h
  split at h
  · next s hs =>
    obtain ⟨r', hr, hd⟩ := lastField_eq_some hs
    exact .inr ⟨ds, s ++ r', by rw [ht, hr]; simp, hds, hd⟩
  · split_ifs at h with hr
    exact .inl ⟨ds ++ r, ht, by simp [hds, atEnd_dash hr]⟩

lemma referenceSuffix_eq_some {t m : Text} (h : referenceSuffix t = some m) :
    (∃ b, t = '-' :: 'n' :: b ∧ '-' ∉ b) ∨
      (∃ a b, t = ('-' :: 'n' :: a) ++ '-' :: 's' :: b ∧ '-' ∉ a ∧ '-' ∉ b) ∨
        ∃ a b c, t = (('-' :: 'n' :: a) ++ '-' :: 's' :: b) ++ '-' :: 'n' :: c ∧ '-' ∉ a ∧ '-' ∉ b ∧ '-' ∉ c := by
  unfold referenceSuffix at h
  obtain ⟨⟨ds, r⟩, hf, h⟩ := bind_eq_some_iff.mp h
  obtain ⟨ht, hds⟩ := field_eq_some hf
  dsimp only at h
  split_ifs at h with hr
  unfold referenceEnd at hr
  rcases Bool.or_eq_true_iff.mp hr with hend | hrest
  · exact .inl ⟨ds ++ r, ht, by simp [hds, atEnd_dash hend]⟩
  · cases hf2 : field 's' r with
    | none => simp [hf2] at hrest
    | some p =>
      obtain ⟨ds2, r2⟩ := p
      rw [hf2, any_some] at hrest
      obtain ⟨hr2, hds2⟩ := field_eq_some hf2
      rcases Bool.or_eq_true_iff.mp hrest with hend | horder
      · refine .inr (.inl ⟨ds, ds2 ++ r2, ?_, hds, by simp [hds2, atEnd_dash hend]⟩)
        rw [ht, hr2]
        simp
      · obtain ⟨ds3, ho⟩ := isSome_iff_exists.mp horder
        obtain ⟨r3, hr3, hd3⟩ := lastField_eq_some ho
        refine .inr (.inr ⟨ds, ds2, ds3 ++ r3, ?_, hds, hds2, hd3⟩)
        dsimp only at hr3
        rw [ht, hr2, hr3]
        simp

lemma dash_field {c : Char} (hc : c ≠ '-') (n : ℕ) : '-' ∉ c :: str n := by
  simp [hc.symm, dash_notMem_str n]

lemma search_order (p : Text) (i : ℕ) :
    search orderSuffix (orderId p i) = some (p, str i) := by
  refine search_append (lastField_str 'n' i) fun p1 p2 _ hne => ?_
  by_contra h
  obtain ⟨ds, hds⟩ := ne_none_iff_exists'.mp h
  obtain ⟨r, hr, hd⟩ := lastField_eq_some hds
  have hcut := @cut_unique p2 ('n' :: str i) [] ('n' :: (ds ++ r)) (dash_field (by decide) i)
    (by simpa using hd) (by simpa using hr)
  exact hne hcut.1

lemma nodeSuffix_before {p2 : Text} {i q : ℕ} (hne : p2 ≠ []) :
    nodeSuffix (p2 ++ ('-' :: 'n' :: (str i ++ '-' :: 's' :: str q))) = none := by
  by_contra h
  obtain ⟨m, hm⟩ := ne_none_iff_exists'.mp h
  have hx : p2 ++ ('-' :: 'n' :: (str i ++ '-' :: 's' :: str q)) =
      (p2 ++ '-' :: 'n' :: str i) ++ '-' :: 's' :: str q := by simp
  rcases nodeSuffix_eq_some hm with ⟨b, hb, hd⟩ | ⟨a, b, hb, ha, hd⟩
  · have hcut := @cut_unique _ ('s' :: str q) [] ('n' :: b) (dash_field (by decide) q)
      (by simpa using hd) (hx.symm.trans hb)
    simpa using hcut.2
  · have hcut := @cut_unique _ ('s' :: str q) _ ('s' :: b) (dash_field (by decide) q)
      (by simpa using hd) (hx.symm.trans hb)
    have hcut2 := @cut_unique p2 ('n' :: str i) [] ('n' :: a) (dash_field (by decide) i)
      (by simpa using ha) hcut.1
    exact hne hcut2.1

lemma search_node (p : Text) (i q : ℕ) :
    search nodeSuffix (nodeId p i q) = some (p, str i, some (str q)) := by
  have hshape : nodeId p i q = p ++ ('-' :: 'n' :: (str i ++ '-' :: 's' :: str q)) := by
    simp [nodeId, orderId]
  have hmatch : nodeSuffix ('-' :: 'n' :: (str i ++ '-' :: 's' :: str q)) =
      some (str i, some (str q)) := by
    have hf := @field_str 'n' i ('-' :: 's' :: str q) (by simp; decide)
    simp [nodeSuffix, hf, sequenceSuffix, lastField_str]
  rw [hshape]
  exact search_append hmatch fun p1 p2 _ hne => nodeSuffix_before hne

lemma referenceSuffix_shapes (i q j : ℕ) :
    referenceSuffix ('-' :: 'n' :: str i) = some ('-' :: 'n' :: str i) ∧
      referenceSuffix ('-' :: 'n' :: (str i ++ '-' :: 's' :: str q)) = some ('-' :: 'n' :: str i) ∧
      referenceSuffix ('-' :: 'n' :: (str i ++ '-' :: 's' :: (str q ++ '-' :: 'n' :: str j))) =
        some ('-' :: 'n' :: str i) := by
  refine ⟨?_, ?_, ?_⟩
  · have hf := @field_str 'n' i [] (by simp)
    rw [append_nil] at hf
    simp [referenceSuffix, hf, referenceEnd, atEnd]
  · have hf := @field_str 'n' i ('-' :: 's' :: str q) (by simp; decide)
    have hs := @field_str 's' q [] (by simp)
    rw [append_nil] at hs
    simp [referenceSuffix, hf, referenceEnd, hs, atEnd]
  · have hf := @field_str 'n' i ('-' :: 's' :: (str q ++ '-' :: 'n' :: str j)) (by simp; decide)
    have hs := @field_str 's' q ('-' :: 'n' :: str j) (by simp; decide)
    simp [referenceSuffix, hf, referenceEnd, hs, orderSuffix, lastField_str]

lemma reference_order_none {x t p1 p2 : Text} {i : ℕ} (ht : '-' ∉ t) (hp : x ++ '-' :: 'r' :: t = p1 ++ p2) (hne : p2 ≠ []) :
    referenceSuffix (p2 ++ '-' :: 'n' :: str i) = none := by
  by_contra h
  obtain ⟨m, hm⟩ := ne_none_iff_exists'.mp h
  have hn := dash_field (show 'n' ≠ '-' by decide) i
  rcases referenceSuffix_eq_some hm with ⟨b, hb, hd⟩ | ⟨a, b, hb, -, hd⟩ | ⟨a, b, c, hb, -, hd, hd'⟩
  · exact hne (@cut_unique p2 _ [] ('n' :: b) hn (by simpa using hd) hb).1
  · simpa using (@cut_unique p2 _ _ ('s' :: b) hn (by simpa using hd) hb).2
  · have hcut := (@cut_unique p2 _ _ ('n' :: c) hn (by simpa using hd') hb).1
    rw [hcut, ← append_assoc] at hp
    simpa using (@cut_unique x ('r' :: t) _ ('s' :: b) (by simpa using ht) (by simpa using hd) hp).2

lemma reference_node_none {p2 : Text} {i q : ℕ} (hne : p2 ≠ []) :
    referenceSuffix (p2 ++ '-' :: 'n' :: (str i ++ '-' :: 's' :: str q)) = none := by
  by_contra h
  obtain ⟨m, hm⟩ := ne_none_iff_exists'.mp h
  have hs := dash_field (show 's' ≠ '-' by decide) q
  have hx : p2 ++ '-' :: 'n' :: (str i ++ '-' :: 's' :: str q) =
      (p2 ++ '-' :: 'n' :: str i) ++ '-' :: 's' :: str q := by simp
  rw [hx] at hm
  rcases referenceSuffix_eq_some hm with ⟨b, hb, hd⟩ | ⟨a, b, hb, ha, hd⟩ | ⟨a, b, c, hb, -, -, hd⟩
  · simpa using (@cut_unique _ _ [] ('n' :: b) hs (by simpa using hd) hb).2
  · have hcut := (@cut_unique _ _ _ ('s' :: b) hs (by simpa using hd) hb).1
    exact hne (@cut_unique p2 ('n' :: str i) [] ('n' :: a) (dash_field (by decide) i) (by simpa using ha) hcut).1
  · simpa using (@cut_unique _ _ _ ('n' :: c) hs (by simpa using hd) hb).2

lemma reference_action_none {p2 : Text} {i q j : ℕ} (hne : p2 ≠ []) :
    referenceSuffix (p2 ++ '-' :: 'n' :: (str i ++ '-' :: 's' :: (str q ++ '-' :: 'n' :: str j))) = none := by
  by_contra h
  obtain ⟨m, hm⟩ := ne_none_iff_exists'.mp h
  have hn := dash_field (show 'n' ≠ '-' by decide) j
  have hx : p2 ++ '-' :: 'n' :: (str i ++ '-' :: 's' :: (str q ++ '-' :: 'n' :: str j)) =
      ((p2 ++ '-' :: 'n' :: str i) ++ '-' :: 's' :: str q) ++ '-' :: 'n' :: str j := by simp
  rw [hx] at hm
  rcases referenceSuffix_eq_some hm with ⟨b, hb, hd⟩ | ⟨a, b, hb, -, hd⟩ | ⟨a, b, c, hb, ha, hd, hd'⟩
  · simpa using (@cut_unique _ _ [] ('n' :: b) hn (by simpa using hd) hb).1
  · simpa using (@cut_unique _ _ _ ('s' :: b) hn (by simpa using hd) hb).2
  · have hcut := (@cut_unique _ _ _ ('n' :: c) hn (by simpa using hd') hb).1
    have hcut2 := (@cut_unique _ ('s' :: str q) _ ('s' :: b) (dash_field (by decide) q) (by simpa using hd) hcut).1
    exact hne (@cut_unique p2 ('n' :: str i) [] ('n' :: a) (dash_field (by decide) i) (by simpa using ha) hcut2).1

lemma nodeOfReference_field {c : Char} (hc : c ≠ '-') (hp : c ≠ 'p') (x : Text) (n : ℕ) :
    nodeOfReference (x ++ '-' :: c :: str n) = x ++ '-' :: c :: str n := by
  unfold nodeOfReference
  rw [if_neg]
  rintro ⟨w, hw⟩
  have hcut := @cut_unique w "policy".toList x (c :: str n) (by decide) (dash_field hc n) hw
  have hhead : 'p' = c := congrArg (List.headD · 'p') hcut.2
  exact hp hhead.symm

lemma nodeOfReference_policy (node : Text) : nodeOfReference (nodePolicyActionId node) = node := by
  unfold nodeOfReference nodePolicyActionId
  rw [if_pos (suffix_append _ _)]
  simp

section Prefix
variable (o : Origin)

def runTail : Text := o.run.text ++ if 0 < o.order_rev then 'v' :: str o.order_rev else []

lemma prefixText_eq : o.prefixText = o.name ++ '-' :: 'r' :: runTail o := by
  have hne : o.run.text ≠ [] := by
    intro h
    have := o.run.length
    simp [h] at this
  unfold Origin.prefixText runPrefix runTail
  simp only [hne, if_false]
  split_ifs <;> simp

lemma hex_ne {c d : Char} (hd : d ∉ "0123456789abcdef".toList) (hc : c ∈ o.run.text) : c ≠ d :=
  fun h => hd (h ▸ o.run.hex c hc)

lemma mem_runTail {d : Char} (hd : d ∉ "0123456789abcdef".toList) (hv : d ≠ 'v')
    (hdig : isDecimal d = false) : d ∉ runTail o := by
  unfold runTail
  intro hm
  rcases mem_append.mp hm with h | h
  · exact hex_ne o hd h rfl
  · split_ifs at h
    · rcases mem_cons.mp h with h | h
      · exact hv h
      · rw [isDecimal_of_mem_str h] at hdig
        cases hdig
    · simp at h

lemma dash_runTail : '-' ∉ runTail o := mem_runTail o (by decide) (by decide) (by decide)

lemma newline_prefixText : '\n' ∈ o.prefixText ↔ '\n' ∈ o.name := by
  have h : '\n' ∉ runTail o := mem_runTail o (by decide) (by decide) (by decide)
  simp [prefixText_eq, h]

lemma prefixText_injective {o o' : Origin} (h : o.prefixText = o'.prefixText) :
    o.name = o'.name ∧ o.run = o'.run ∧ o.order_rev = o'.order_rev := by
  rw [prefixText_eq, prefixText_eq] at h
  obtain ⟨hname, htail⟩ := cut_unique (by simpa using dash_runTail o)
    (by simpa using dash_runTail o') h
  have htail : runTail o = runTail o' := by simpa using htail
  obtain ⟨hrun, hrev⟩ := append_inj htail (o.run.length.trans o'.run.length.symm)
  refine ⟨hname, RunId.ext hrun, ?_⟩
  split_ifs at hrev with h1 h2 h2
  · exact str_injective (by simpa using hrev)
  · omega

end Prefix

def Origin.ids (o : Origin) : List Text :=
  [o.order, o.node, o.nodeAction, o.orderAction, o.policyAction]

/-- The readers give back what the ids were generated from, and know their prefix among all
run-qualified ones. -/
structure ReadersInvert (o : Origin) : Prop where
  order_prefix : orderPrefix o.order = some o.prefixText
  order_index : orderNodeIndex o.order = some o.node_idx
  order_of : ∀ o' : Origin, isOrderOf o'.prefixText o.order = decide (o'.prefixText = o.prefixText)
  node_order : orderOfNode o.node = some o.order
  node_index : nodeIndex o.node = some o.node_idx
  node_sequence : nodeSequence o.node = some o.sequence
  node_of : ∀ o' : Origin, isNodeOf o'.prefixText o.node = decide (o'.prefixText = o.prefixText)
  reference : ∀ r ∈ o.ids, orderOfReference r = some o.order
  reference_of : ∀ r ∈ o.ids, ∀ o' : Origin,
    isReferenceOf o'.prefixText r = some (decide (o'.prefixText = o.prefixText))

def orderFound (o : Origin) : Option Text := if '\n' ∈ o.name then none else some o.order

lemma searchLine_reference (o : Origin) {t : Text} (hm : referenceSuffix t = some ('-' :: 'n' :: str o.node_idx))
    (hno : ∀ p1 p2, o.prefixText = p1 ++ p2 → p2 ≠ [] → referenceSuffix (p2 ++ t) = none) :
    ((searchLine referenceSuffix (o.prefixText ++ t)).map fun m => m.1 ++ m.2) = orderFound o := by
  unfold orderFound
  split_ifs with hline
  · rw [searchLine_none ((newline_prefixText o).mpr hline) hno]
    rfl
  · rw [searchLine_append (mt (newline_prefixText o).mp hline) hm hno]
    rfl

lemma orderOfReference_ids (o : Origin) {r : Text} (hr : r ∈ o.ids) :
    orderOfReference r = orderFound o := by
  have hnode : o.node = o.prefixText ++
      '-' :: 'n' :: (str o.node_idx ++ '-' :: 's' :: str o.sequence) := by
    simp [Origin.node, nodeId, orderId]
  have hpolicy : ∀ n : Text, nodeOfReference n = o.node → orderOfReference n = orderFound o := by
    intro n hn
    unfold orderOfReference
    rw [hn, hnode]
    exact searchLine_reference o (referenceSuffix_shapes _ _ 0).2.1
      fun _ _ _ hne => reference_node_none hne
  have haction : ∀ q, orderOfReference (o.prefixText ++ '-' :: 'n' :: (str o.node_idx ++
      '-' :: 's' :: (str q ++ '-' :: 'n' :: str o.node_idx))) = orderFound o := by
    intro q
    have hx : o.prefixText ++ '-' :: 'n' :: (str o.node_idx ++ '-' :: 's' :: (str q ++ '-' :: 'n' :: str o.node_idx)) =
        (o.prefixText ++ '-' :: 'n' :: (str o.node_idx ++ '-' :: 's' :: str q)) ++
          '-' :: 'n' :: str o.node_idx := by simp
    unfold orderOfReference
    rw [hx, nodeOfReference_field (by decide) (by decide), ← hx]
    exact searchLine_reference o (referenceSuffix_shapes _ _ _).2.2
      fun _ _ _ hne => reference_action_none hne
  simp only [Origin.ids, mem_cons, not_mem_nil, or_false] at hr
  rcases hr with rfl | rfl | rfl | rfl | rfl
  · unfold orderOfReference Origin.order orderId
    rw [nodeOfReference_field (by decide) (by decide)]
    refine searchLine_reference o (referenceSuffix_shapes _ 0 0).1 fun p1 p2 hp hne => ?_
    exact reference_order_none (dash_runTail o) ((prefixText_eq o).symm.trans hp) hne
  · refine hpolicy _ ?_
    unfold Origin.node nodeId
    exact nodeOfReference_field (by decide) (by decide) _ _
  · rw [← haction o.sequence]
    simp [Origin.nodeAction, nodeActionId, hnode]
  · rw [← haction 0]
    simp [Origin.orderAction, orderActionId, nodeActionId, Origin.order, orderId, str]
  · exact hpolicy _ (nodeOfReference_policy o.node)

lemma nodeOfReference_node (o : Origin) : nodeOfReference o.node = o.node :=
  nodeOfReference_field (by decide) (by decide) _ _

lemma orderPrefix_order (o : Origin) : orderPrefix o.order = some o.prefixText := by
  simp [orderPrefix, Origin.order, search_order]

lemma orderId_injective {p q : Text} {i j : ℕ} (h : orderId p i = orderId q j) :
    p = q ∧ i = j := by
  have hs := congrArg (search orderSuffix) h
  simp only [search_order, Option.some.injEq, Prod.mk.injEq] at hs
  exact ⟨hs.1, str_injective hs.2⟩

lemma order_injective {o o' : Origin} (h : o.order = o'.order) :
    o.name = o'.name ∧ o.run = o'.run ∧ o.order_rev = o'.order_rev ∧ o.node_idx = o'.node_idx := by
  have hs := congrArg (search orderSuffix) h
  simp only [Origin.order, search_order, Option.some.injEq, Prod.mk.injEq] at hs
  obtain ⟨h1, h2, h3⟩ := prefixText_injective hs.1
  exact ⟨h1, h2, h3, str_injective hs.2⟩

lemma node_injective : Function.Injective Origin.node := by
  intro o o' h
  have hs := congrArg (search nodeSuffix) h
  simp only [Origin.node, search_node, Option.some.injEq, Prod.mk.injEq] at hs
  obtain ⟨h1, h2, h3⟩ := prefixText_injective hs.1
  exact Origin.ext h1 h2 h3 (str_injective hs.2.1) (str_injective hs.2.2)

/-- Ids are named after one origin each, and the readers invert them for every name without a
line break, and for no other name. -/
theorem order_ids_unambiguous (o : Origin) :
    (∀ o' : Origin, o.order = o'.order ∨ o.orderAction = o'.orderAction →
      o.name = o'.name ∧ o.run = o'.run ∧ o.order_rev = o'.order_rev ∧ o.node_idx = o'.node_idx) ∧
    (∀ o' : Origin, o.node = o'.node ∨ o.nodeAction = o'.nodeAction ∨
      o.policyAction = o'.policyAction → o = o') ∧
    (ReadersInvert o ↔ '\n' ∉ o.name) := by
  refine ⟨?_, ?_, fun h hline => ?_, fun hline => ?_⟩
  · rintro o' (h | h)
    · exact order_injective h
    · have hcut := (cut_unique (dash_field (by decide) _) (dash_field (by decide) _) h).1
      exact order_injective (cut_unique (by decide) (by decide) hcut).1
  · rintro o' (h | h | h)
    · exact node_injective h
    · exact node_injective (cut_unique (dash_field (by decide) _) (dash_field (by decide) _) h).1
    · exact node_injective (append_cancel_right h)
  · have hr := h.reference o.order (by simp [Origin.ids])
    rw [orderOfReference_ids o (by simp [Origin.ids]), orderFound, if_pos hline] at hr
    cases hr
  · have href : ∀ r ∈ o.ids, orderOfReference r = some o.order := by
      intro r hr
      rw [orderOfReference_ids o hr, orderFound, if_neg hline]
    refine ⟨orderPrefix_order o, ?_, fun o' => ?_, ?_, ?_, ?_, fun o' => ?_, href, fun r hr o' => ?_⟩
    · simp [orderNodeIndex, Origin.order, search_order]
    · simp [isOrderOf, orderPrefix_order, eq_comm]
    · simp [orderOfNode, Origin.node, Origin.order, orderId, search_node]
    · rw [nodeIndex, nodeOfReference_node]
      simp [Origin.node, search_node]
    · simp [nodeSequence, Origin.node, search_node]
    · simp [isNodeOf, Origin.node, search_node, eq_comm]
    · rw [isReferenceOf, href r hr]
      simp [orderPrefix_order, eq_comm]

def brokenName : Origin :=
  ⟨"a\nb".toList, ⟨"1234abcd".toList, by decide, by simp⟩, 0, 3, 2⟩

/-- Its order id is not recognised as a reference to its order. -/
theorem broken_name_lost : orderOfReference brokenName.order = none ∧
    isReferenceOf brokenName.prefixText brokenName.order = none ∧ ¬ReadersInvert brokenName := by
  have hnone : orderOfReference brokenName.order = none := by
    rw [orderOfReference_ids brokenName (by simp [Origin.ids]), orderFound, if_pos (by decide)]
  refine ⟨hnone, by rw [isReferenceOf, hnone]; rfl, fun h => ?_⟩
  have hr := h.reference brokenName.order (by simp [Origin.ids])
  rw [hnone] at hr
  cases hr

end CloudServer.OrderIds
