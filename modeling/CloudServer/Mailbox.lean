import CloudServer.Steps

/-! A queue in which a waiting message may be replaced by a newer one: what is kept of the arrivals,
in which order, and that it is taken. -/
namespace CloudServer.Mailbox

open Progress List Function

structure Item (M : Type) where
  number : ℕ
  body : M
  deriving DecidableEq

inductive Entry (M : Type)
  | plain (item : Item M)
  | slot (id : ℕ)
  deriving DecidableEq

/-- The queue of messages with the one in hand. -/
structure Box (M : Type) where
  slots : ℕ → Option (Item M)
  next : ℕ
  queue : List (Entry M)
  hand : Option (Entry M)
  arrived : List (Item M)
  taken : List (Item M)

variable {M κ : Type} [DecidableEq κ]

def Box.empty (M : Type) : Box M := ⟨fun _ => none, 0, [], none, [], []⟩

def Box.item (B : Box M) (m : M) : Item M := ⟨B.arrived.length, m⟩

def Box.put (B : Box M) (m : M) : Box M :=
  { B with queue := B.queue ++ [.plain (B.item m)], arrived := B.arrived ++ [B.item m] }

/-- The message is queued in a new slot, number `next`. -/
def Box.put_slot (B : Box M) (m : M) : Box M :=
  { B with
    slots := update B.slots B.next (some (B.item m))
    next := B.next + 1
    queue := B.queue ++ [.slot B.next]
    arrived := B.arrived ++ [B.item m] }

def Box.replace (B : Box M) (id : ℕ) (m : M) : Box M :=
  { B with
    slots := update B.slots id (some (B.item m))
    arrived := B.arrived ++ [B.item m] }

def Box.clear (B : Box M) (id : ℕ) : Box M :=
  { B with slots := update B.slots id none }

def Box.get (B : Box M) : Option (Box M) :=
  match B.hand, B.queue with
  | none, e :: rest => some { B with hand := some e, queue := rest }
  | _, _ => none

def Box.content (B : Box M) : Entry M → Option (Item M)
  | .plain item => some item
  | .slot id => B.slots id

def Box.take (B : Box M) : Option (Entry M × Box M) :=
  B.hand.map fun e => (e, { B with hand := none, taken := B.taken ++ (B.content e).toList })

/-! ### What is kept -/

def Box.waiting (B : Box M) : List (Entry M) := B.hand.toList ++ B.queue

def Box.pending (B : Box M) : List (Item M) := B.waiting.filterMap B.content

def Box.kept (B : Box M) : List (Item M) := B.taken ++ B.pending

structure Newer (key : M → κ) (state : M → Bool) (j i : Item M) : Prop where
  newer : state j.body = true
  older : state i.body = true
  key : key j.body = key i.body
  number : i.number < j.number

structure Coalesced (key : M → κ) (state : M → Bool) (arrived kept : List (Item M)) : Prop where
  others : kept.filter (fun i => !state i.body) = arrived.filter fun i => !state i.body
  order : ∀ k, (kept.filter fun i => key i.body = k).Sublist
    (arrived.filter fun i => key i.body = k)
  left : ∀ i ∈ arrived, i ∈ kept ∨ ∃ j ∈ arrived, Newer key state j i

variable {key : M → κ} {state : M → Bool}

lemma Coalesced.append {arrived kept : List (Item M)} (h : Coalesced key state arrived kept)
    (i : Item M) : Coalesced key state (arrived ++ [i]) (kept ++ [i]) := by
  refine ⟨?_, fun k => ?_, fun j hj => ?_⟩
  · rw [filter_append, filter_append, h.others]
  · rw [filter_append, filter_append]
    exact (h.order k).append (List.Sublist.refl _)
  · rcases mem_append.mp hj with hj | hj
    · rcases h.left j hj with hk | ⟨x, hx, hnew⟩
      · exact .inl (mem_append_left _ hk)
      · exact .inr ⟨x, mem_append_left _ hx, hnew⟩
    · exact .inl (mem_append_right _ hj)

lemma Coalesced.replace {arrived a b c : List (Item M)} {s i : Item M}
    (h : Coalesced key state arrived (a ++ s :: (b ++ c))) (hs : state s.body = true)
    (hi : state i.body = true) (hkey : key i.body = key s.body) (hlt : s.number < i.number)
    (hc : ∀ x ∈ c, key x.body ≠ key s.body) :
    Coalesced key state (arrived ++ [i]) (a ++ (b ++ i :: c)) := by
  refine ⟨?_, fun k => ?_, fun j hj => ?_⟩
  · have ho := h.others
    simp only [filter_append, filter_cons, hs, hi, Bool.not_true, Bool.false_eq_true,
      if_false, filter_nil, append_nil] at ho ⊢
    exact ho
  · have ho := h.order k
    simp only [filter_append, filter_cons, filter_nil] at ho ⊢
    by_cases hk : key i.body = k
    · have hnil : c.filter (fun i => key i.body = k) = [] := by
        refine filter_eq_nil_iff.mpr fun x hx => ?_
        rw [← hk, hkey]
        simpa using hc x hx
      rw [hkey] at hk
      rw [hnil] at ho ⊢
      simp only [hkey, hk, decide_true, if_true, append_nil] at ho ⊢
      rw [← append_assoc]
      refine List.Sublist.append (List.Sublist.trans ?_ ho) (List.Sublist.refl _)
      exact (List.Sublist.refl _).append (sublist_cons_self _ _)
    · have hk' : ¬key s.body = k := fun heq => hk (hkey.trans heq)
      simp only [hk, hk', decide_false, Bool.false_eq_true, if_false, append_nil] at ho ⊢
      exact ho
  · have hnew : Newer key state i s := ⟨hi, hs, hkey, hlt⟩
    rcases mem_append.mp hj with hj | hj
    · rcases h.left j hj with hk | ⟨x, hx, hnew'⟩
      · by_cases heq : j = s
        · subst heq
          exact .inr ⟨i, mem_append_right _ (mem_singleton_self _), hnew⟩
        · left
          simp only [mem_append, mem_cons] at hk ⊢
          tauto
      · exact .inr ⟨x, mem_append_left _ hx, hnew'⟩
    · left
      rw [mem_singleton.mp hj]
      simp

/-! ### The slots of a queue -/

structure Box.Holds (B : Box M) (id : ℕ) (s : Item M) (a c : List (Entry M)) : Prop where
  waiting : B.waiting = a ++ .slot id :: c
  before : .slot id ∉ a
  behind : .slot id ∉ c
  item : B.slots id = some s

structure Box.Sound (key : M → κ) (state : M → Bool) (B : Box M) : Prop where
  coalesced : Coalesced key state B.arrived B.kept
  numbers : B.arrived.map (·.number) = List.range B.arrived.length
  fresh : ∀ id, .slot id ∈ B.waiting → id < B.next

section
variable {B B' : Box M} {m : M} {id : ℕ} {s : Item M} {a c : List (Entry M)}

lemma content_update {es : List (Entry M)} {x : Option (Item M)} (h : .slot id ∉ es) :
    es.filterMap { B with slots := update B.slots id x }.content = es.filterMap B.content := by
  refine filterMap_congr fun e he => ?_
  cases e with
  | plain item => rfl
  | slot id' =>
    refine update_of_ne (fun heq => h ?_) ..
    rw [← heq]
    exact he

lemma mem_update {es : List (Entry M)} {x y : Item M}
    (h : x ∈ es.filterMap { B with slots := update B.slots id (some y) }.content) :
    x = y ∨ x ∈ es.filterMap B.content := by
  obtain ⟨e, he, hx⟩ := mem_filterMap.mp h
  cases e with
  | plain item => exact .inr (mem_filterMap.mpr ⟨_, he, hx⟩)
  | slot id' =>
    change update B.slots id (some y) id' = some x at hx
    by_cases hid : id' = id
    · subst hid
      rw [update_self] at hx
      exact .inl (Option.some.inj hx).symm
    · rw [update_of_ne hid] at hx
      exact .inr (mem_filterMap.mpr ⟨_, he, hx⟩)

@[simp]
lemma put_waiting : (B.put m).waiting = B.waiting ++ [.plain (B.item m)] :=
  (append_assoc ..).symm

@[simp]
lemma put_slot_waiting : (B.put_slot m).waiting = B.waiting ++ [.slot B.next] :=
  (append_assoc ..).symm

lemma put_slot_content : (B.put_slot m).content (.slot B.next) = some (B.item m) :=
  update_self ..

lemma numbers_append (h : B.arrived.map (·.number) = List.range B.arrived.length) :
    (B.arrived ++ [B.item m]).map (·.number) = List.range (B.arrived ++ [B.item m]).length := by
  rw [map_append, h, length_append]
  exact range_succ.symm

lemma put_kept : (B.put m).kept = B.kept ++ [B.item m] := by
  change B.taken ++ (B.put m).waiting.filterMap B.content = _
  rw [put_waiting, filterMap_append, ← append_assoc]
  rfl

lemma put_slot_kept (hf : ∀ id, .slot id ∈ B.waiting → id < B.next) :
    (B.put_slot m).kept = B.kept ++ [B.item m] := by
  have hnot : .slot B.next ∉ B.waiting := fun hmem => lt_irrefl _ (hf _ hmem)
  have hnew : [Entry.slot B.next].filterMap (B.put_slot m).content = [B.item m] := by
    rw [filterMap_cons_some put_slot_content]
    rfl
  change B.taken ++ (B.put_slot m).waiting.filterMap (B.put_slot m).content = _
  rw [put_slot_waiting, filterMap_append, hnew, ← append_assoc]
  exact congrArg (B.taken ++ · ++ [B.item m]) (content_update hnot)

lemma Box.Sound.put (h : B.Sound key state) (m : M) : (B.put m).Sound key state := by
  refine ⟨?_, numbers_append h.numbers, fun id hid => ?_⟩
  · rw [put_kept]
    exact h.coalesced.append _
  · rw [put_waiting] at hid
    rcases mem_append.mp hid with hid | hid
    · exact h.fresh id hid
    · cases mem_singleton.mp hid

lemma Box.Sound.put_slot (h : B.Sound key state) (m : M) : (B.put_slot m).Sound key state := by
  refine ⟨?_, numbers_append h.numbers, fun id hid => ?_⟩
  · rw [put_slot_kept h.fresh]
    exact h.coalesced.append _
  · rw [put_slot_waiting] at hid
    rcases mem_append.mp hid with hid | hid
    · exact (h.fresh id hid).trans (Nat.lt_succ_self _)
    · cases mem_singleton.mp hid
      exact Nat.lt_succ_self _

lemma Box.Holds.kept (h : B.Holds id s a c) :
    B.kept = (B.taken ++ a.filterMap B.content) ++ s :: c.filterMap B.content := by
  have hcontent : B.content (.slot id) = some s := h.item
  unfold Box.kept Box.pending
  rw [h.waiting, filterMap_append, filterMap_cons_some hcontent, append_assoc]

lemma Box.Sound.lt_length (h : B.Sound key state) {i : Item M} (hi : i ∈ B.arrived) :
    i.number < B.arrived.length := by
  have hmem : i.number ∈ B.arrived.map (·.number) := mem_map.mpr ⟨i, hi, rfl⟩
  rw [h.numbers] at hmem
  exact mem_range.mp hmem

lemma Coalesced.subset {arrived kept : List (Item M)} (h : Coalesced key state arrived kept) :
    kept ⊆ arrived := by
  intro i hi
  have hmem : i ∈ kept.filter fun x => key x.body = key i.body :=
    mem_filter.mpr ⟨hi, decide_eq_true rfl⟩
  exact (mem_filter.mp ((h.order _).subset hmem)).1

lemma Box.Holds.arrived (h : B.Holds id s a c) (hB : B.Sound key state) : s ∈ B.arrived := by
  refine hB.coalesced.subset ?_
  rw [h.kept]
  simp

lemma Box.Holds.replace (h : B.Holds id s a c) (m : M) :
    (B.replace id m).Holds id (B.item m) a c :=
  ⟨h.waiting, h.before, h.behind, update_self ..⟩

lemma Box.Sound.replace (hB : B.Sound key state) (h : B.Holds id s a c)
    (hs : state s.body = true) (hm : state m = true) (hkey : key m = key s.body)
    (hc : ∀ x ∈ c.filterMap B.content, key x.body ≠ key s.body) :
    (B.replace id m).Sound key state := by
  refine ⟨?_, numbers_append hB.numbers, hB.fresh⟩
  have hco := hB.coalesced
  rw [h.kept] at hco
  rw [(h.replace m).kept]
  have ha : a.filterMap (B.replace id m).content = a.filterMap B.content :=
    content_update h.before
  have hc' : c.filterMap (B.replace id m).content = c.filterMap B.content :=
    content_update h.behind
  rw [ha, hc']
  exact Coalesced.replace (b := []) hco hs hm hkey (hB.lt_length (h.arrived hB)) hc

lemma Box.Sound.supersede (hB : B.Sound key state) (h : B.Holds id s a c)
    (hs : state s.body = true) (hm : state m = true) (hkey : key m = key s.body) :
    ((B.clear id).put_slot m).Sound key state := by
  have hfresh : ∀ id', .slot id' ∈ (B.clear id).waiting → id' < (B.clear id).next := hB.fresh
  refine ⟨?_, numbers_append hB.numbers, fun id' hid => ?_⟩
  · have hco := hB.coalesced
    rw [h.kept] at hco
    rw [put_slot_kept hfresh]
    have hkept : (B.clear id).kept =
        (B.taken ++ a.filterMap B.content) ++ c.filterMap B.content := by
      have hnone : (B.clear id).content (.slot id) = none := update_self ..
      have ha : a.filterMap (B.clear id).content = a.filterMap B.content :=
        content_update h.before
      have hc : c.filterMap (B.clear id).content = c.filterMap B.content :=
        content_update h.behind
      change B.taken ++ B.waiting.filterMap (B.clear id).content = _
      rw [h.waiting, filterMap_append, filterMap_cons_none hnone, ha, hc, append_assoc]
    rw [hkept, append_assoc]
    have hco' : Coalesced key state B.arrived ((B.taken ++ a.filterMap B.content) ++
        s :: (c.filterMap B.content ++ [])) := by
      rw [append_nil]
      exact hco
    exact hco'.replace hs hm hkey (hB.lt_length (h.arrived hB)) nofun
  · rw [put_slot_waiting] at hid
    rcases mem_append.mp hid with hid | hid
    · exact (hB.fresh id' hid).trans (Nat.lt_succ_self _)
    · cases mem_singleton.mp hid
      exact Nat.lt_succ_self _

lemma Box.get_cases (h : B.get = some B') : B'.waiting = B.waiting ∧ B'.slots = B.slots ∧
    B'.next = B.next ∧ B'.arrived = B.arrived ∧ B'.taken = B.taken ∧ B'.hand ≠ none := by
  unfold Box.get at h
  split at h
  · rename_i e rest hhand hqueue
    cases h
    refine ⟨?_, rfl, rfl, rfl, rfl, nofun⟩
    unfold Box.waiting
    rw [hhand, hqueue]
    rfl
  · cases h

lemma Box.take_cases {e : Entry M} (h : B.take = some (e, B')) : B.hand = some e ∧
    B.waiting = e :: B'.waiting ∧ B' = { B with hand := none, taken := B.taken ++ (B.content e).toList } := by
  unfold Box.take at h
  obtain ⟨e', he, heq⟩ := Option.map_eq_some_iff.mp h
  cases heq
  refine ⟨he, ?_, rfl⟩
  unfold Box.waiting
  rw [he]
  rfl

lemma content_congr (h : B'.slots = B.slots) : B'.content = B.content := by
  funext e
  cases e with
  | plain item => rfl
  | slot id => exact congrFun h id

lemma Box.Sound.get (h : B.Sound key state) (hget : B.get = some B') : B'.Sound key state := by
  obtain ⟨hw, hs, hn, ha, ht, -⟩ := Box.get_cases hget
  have hkept : B'.kept = B.kept := by
    unfold Box.kept Box.pending
    rw [ht, hw, content_congr hs]
  refine ⟨?_, ?_, fun id hid => ?_⟩
  · rw [ha, hkept]
    exact h.coalesced
  · rw [ha]
    exact h.numbers
  · rw [hw] at hid
    rw [hn]
    exact h.fresh id hid

lemma take_kept {e : Entry M} (h : B.take = some (e, B')) : B'.kept = B.kept := by
  obtain ⟨-, hw, heq⟩ := Box.take_cases h
  have hslots : B'.slots = B.slots := by rw [heq]
  have htaken : B'.taken = B.taken ++ (B.content e).toList := by rw [heq]
  unfold Box.kept Box.pending
  rw [hw, htaken, content_congr hslots, append_assoc]
  cases he : B.content e with
  | none => rw [filterMap_cons_none he]; rfl
  | some item => rw [filterMap_cons_some he]; rfl

lemma Box.Sound.take {e : Entry M} (h : B.Sound key state) (ht : B.take = some (e, B')) :
    B'.Sound key state := by
  have hkept := take_kept ht
  obtain ⟨-, hw, heq⟩ := Box.take_cases ht
  have harrived : B'.arrived = B.arrived := by rw [heq]
  have hnext : B'.next = B.next := by rw [heq]
  refine ⟨?_, ?_, fun id hid => ?_⟩
  · rw [harrived, hkept]
    exact h.coalesced
  · rw [harrived]
    exact h.numbers
  · rw [hnext]
    refine h.fresh id ?_
    rw [hw]
    exact mem_cons_of_mem _ hid

lemma Box.Holds.put (h : B.Holds id s a c) (m : M) :
    (B.put m).Holds id s a (c ++ [.plain (B.item m)]) := by
  refine ⟨?_, h.before, ?_, h.item⟩
  · rw [put_waiting, h.waiting, append_assoc]
    rfl
  · intro hmem
    rcases mem_append.mp hmem with hmem | hmem
    · exact h.behind hmem
    · cases mem_singleton.mp hmem

lemma Box.Holds.lt (h : B.Holds id s a c) (hB : B.Sound key state) : id < B.next :=
  hB.fresh id (by rw [h.waiting]; simp)

lemma Box.Holds.put_slot (h : B.Holds id s a c) (hlt : id < B.next) (m : M) :
    (B.put_slot m).Holds id s a (c ++ [.slot B.next]) := by
  refine ⟨?_, h.before, ?_, ?_⟩
  · rw [put_slot_waiting, h.waiting, append_assoc]
    rfl
  · intro hmem
    rcases mem_append.mp hmem with hmem | hmem
    · exact h.behind hmem
    · cases mem_singleton.mp hmem
      exact lt_irrefl _ hlt
  · exact (update_of_ne hlt.ne ..).trans h.item

lemma put_slot_holds (hf : ∀ id, .slot id ∈ B.waiting → id < B.next) (m : M) :
    (B.put_slot m).Holds B.next (B.item m) B.waiting [] :=
  ⟨put_slot_waiting, fun hmem => lt_irrefl _ (hf _ hmem), nofun, update_self ..⟩

lemma Box.Holds.replace_other {id' : ℕ} (h : B.Holds id s a c) (hne : id ≠ id') (m : M) :
    (B.replace id' m).Holds id s a c :=
  ⟨h.waiting, h.before, h.behind, (update_of_ne hne ..).trans h.item⟩

lemma Box.Holds.get (h : B.Holds id s a c) (hget : B.get = some B') : B'.Holds id s a c := by
  obtain ⟨hw, hs, -⟩ := Box.get_cases hget
  exact ⟨hw.trans h.waiting, h.before, h.behind, by rw [hs]; exact h.item⟩

lemma Box.Holds.take {e : Entry M} (h : B.Holds id s a c) (ht : B.take = some (e, B')) :
    a = [] ∧ e = .slot id ∧ B'.waiting = c ∨ ∃ a', a = e :: a' ∧ B'.Holds id s a' c := by
  obtain ⟨-, hw, heq⟩ := Box.take_cases ht
  have hslots : B'.slots = B.slots := by rw [heq]
  have hwait := hw.symm.trans h.waiting
  cases a with
  | nil =>
    obtain ⟨rfl, hrest⟩ := List.cons.inj hwait
    exact .inl ⟨rfl, rfl, hrest⟩
  | cons x a' =>
    obtain ⟨rfl, hrest⟩ := List.cons.inj hwait
    refine .inr ⟨a', rfl, hrest, fun hmem => h.before (mem_cons_of_mem _ hmem), h.behind, ?_⟩
    rw [hslots]
    exact h.item

/-! ### Open slots -/

/-- A slot that waits with a state of the key, no message of the key behind it. -/
def Box.Opens (key : M → κ) (state : M → Bool) (B : Box M) (k : κ) (id : ℕ) : Prop :=
  ∃ s a c, B.Holds id s a c ∧ state s.body = true ∧ key s.body = k ∧
    ∀ x ∈ c.filterMap B.content, key x.body ≠ k

def Box.Filled (B : Box M) : Prop := ∀ e ∈ B.waiting, B.content e ≠ none

omit [DecidableEq κ] in
lemma Box.Opens.congr {k : κ} (h : B.Opens key state k id) (hw : B'.waiting = B.waiting)
    (hs : B'.slots = B.slots) : B'.Opens key state k id := by
  obtain ⟨s, a, c, hholds, hst, hk, hc⟩ := h
  refine ⟨s, a, c, ⟨hw.trans hholds.waiting, hholds.before, hholds.behind, ?_⟩, hst, hk, ?_⟩
  · rw [hs]
    exact hholds.item
  · rw [content_congr hs]
    exact hc

lemma Box.Opens.sound (h : B.Opens key state (key m) id) (hB : B.Sound key state)
    (hm : state m = true) : (B.replace id m).Sound key state := by
  obtain ⟨s, a, c, hholds, hs, hk, hc⟩ := h
  refine hB.replace hholds hs hm hk.symm ?_
  rw [hk]
  exact hc

section
omit [DecidableEq κ]

lemma Box.Opens.replace (h : B.Opens key state (key m) id) (hm : state m = true) :
    (B.replace id m).Opens key state (key m) id := by
  obtain ⟨s, a, c, hholds, -, -, hc⟩ := h
  have hcontent : c.filterMap (B.replace id m).content = c.filterMap B.content :=
    content_update hholds.behind
  refine ⟨_, a, c, hholds.replace m, hm, rfl, ?_⟩
  rw [hcontent]
  exact hc

lemma Box.Opens.replace_other {k : κ} {id' : ℕ} (h : B.Opens key state k id)
    (h' : B.Opens key state (key m) id') (hne : key m ≠ k) :
    (B.replace id' m).Opens key state k id := by
  obtain ⟨s, a, c, hholds, hs, hk, hc⟩ := h
  obtain ⟨s', a', c', hholds', -, hk', -⟩ := h'
  have hid : id ≠ id' := by
    rintro rfl
    cases hholds'.item.symm.trans hholds.item
    exact hne (hk'.symm.trans hk)
  refine ⟨s, a, c, hholds.replace_other hid m, hs, hk, fun x hx => ?_⟩
  rcases mem_update hx with rfl | hx
  · exact hne
  · exact hc x hx

lemma Box.Opens.put {k : κ} (h : B.Opens key state k id) (hne : key m ≠ k) :
    (B.put m).Opens key state k id := by
  obtain ⟨s, a, c, hholds, hs, hk, hc⟩ := h
  refine ⟨s, a, _, hholds.put m, hs, hk, fun x hx => ?_⟩
  rw [filterMap_append, mem_append] at hx
  rcases hx with hx | hx
  · exact hc x hx
  · obtain rfl := mem_singleton.mp hx
    exact hne

end

lemma Box.Opens.put_slot {k : κ} (h : B.Opens key state k id) (hB : B.Sound key state)
    (hne : key m ≠ k) : (B.put_slot m).Opens key state k id := by
  obtain ⟨s, a, c, hholds, hs, hk, hc⟩ := h
  refine ⟨s, a, _, hholds.put_slot (hholds.lt hB) m, hs, hk, fun x hx => ?_⟩
  rw [filterMap_append, mem_append] at hx
  rcases hx with hx | hx
  · rcases mem_update hx with rfl | hx
    · exact hne
    · exact hc x hx
  · rw [filterMap_cons_some put_slot_content] at hx
    obtain rfl := mem_singleton.mp hx
    exact hne

lemma put_slot_opens (hB : B.Sound key state) (hm : state m = true) :
    (B.put_slot m).Opens key state (key m) B.next :=
  ⟨_, _, [], put_slot_holds hB.fresh m, hm, rfl, nofun⟩

omit [DecidableEq κ] in
lemma Box.Opens.take {k : κ} {e : Entry M} (h : B.Opens key state k id) (ht : B.take = some (e, B')) :
    (e = .slot id ∧ ∃ s, B.content e = some s ∧ key s.body = k) ∨ B'.Opens key state k id := by
  obtain ⟨s, a, c, hholds, hs, hk, hc⟩ := h
  rcases hholds.take ht with ⟨-, rfl, -⟩ | ⟨a', -, hholds'⟩
  · exact .inl ⟨rfl, s, hholds.item, hk⟩
  · have hslots : B'.slots = B.slots := by rw [(Box.take_cases ht).2.2]
    refine .inr ⟨s, a', c, hholds', hs, hk, ?_⟩
    rw [content_congr hslots]
    exact hc

lemma content_some {e : Entry M} {y : Item M} (h : B.content e ≠ none) :
    { B with slots := update B.slots id (some y) }.content e ≠ none := by
  cases e with
  | plain item => exact h
  | slot id' =>
    change update B.slots id (some y) id' ≠ none
    by_cases hid : id' = id
    · subst hid
      rw [update_self]
      nofun
    · rw [update_of_ne hid]
      exact h

lemma Box.Filled.replace (h : B.Filled) (id : ℕ) (m : M) : (B.replace id m).Filled :=
  fun e he => content_some (h e he)

lemma Box.Filled.put (h : B.Filled) (m : M) : (B.put m).Filled := by
  intro e he
  rw [put_waiting] at he
  rcases mem_append.mp he with he | he
  · exact h e he
  · rw [mem_singleton.mp he]
    nofun

lemma Box.Filled.put_slot (h : B.Filled) (m : M) : (B.put_slot m).Filled := by
  intro e he
  rw [put_slot_waiting] at he
  rcases mem_append.mp he with he | he
  · exact content_some (h e he)
  · rw [mem_singleton.mp he, put_slot_content]
    nofun

/-! ### What arrived is handled -/

/-- What was taken and can be read is handled: others all and in order, per key in order, and a
state is passed over only for a newer one. -/
structure Delivered (key : M → κ) (state readable : M → Bool) (arrived pending handled : List (Item M)) :
    Prop where
  numbers : arrived.map (·.number) = List.range arrived.length
  others : handled.filter (fun i => !state i.body) <+: arrived.filter fun i => !state i.body
  order : ∀ k, (handled.filter fun i => key i.body = k).Sublist
    (arrived.filter fun i => key i.body = k)
  left : ∀ i ∈ arrived, readable i.body = true → i ∈ handled ∨ i ∈ pending ∨
    ∃ j ∈ arrived, Newer key state j i

lemma Box.Sound.delivered (h : B.Sound key state) (readable : M → Bool) (hread : ∀ m, state m = false → readable m = true) :
    Delivered key state readable B.arrived B.pending (B.taken.filter fun i => readable i.body) := by
  have hsub : ∀ p : Item M → Bool, ((B.taken.filter fun i => readable i.body).filter p).Sublist
      (B.kept.filter p) := fun p =>
    (filter_sublist.trans (sublist_append_left _ _)).filter p
  refine ⟨h.numbers, ?_, fun k => (hsub _).trans (h.coalesced.order k), fun i hi hr => ?_⟩
  · rw [← h.coalesced.others]
    unfold Box.kept
    rw [filter_append]
    refine ⟨_, congrArg (· ++ _) ?_⟩
    rw [filter_filter]
    refine filter_congr fun i _ => ?_
    cases hs : state i.body with
    | true => rfl
    | false => rw [hread _ hs]; rfl
  · rcases h.coalesced.left i hi with hk | hk
    · rcases mem_append.mp hk with hk | hk
      · exact .inl (mem_filter.mpr ⟨hk, hr⟩)
      · exact .inr (.inl hk)
    · exact .inr (.inr hk)

end

/-! ### What waits is taken -/

structure Grows (key : M → κ) (state : M → Bool) (B B' : Box M) : Prop where
  arrived : B.arrived ⊆ B'.arrived
  waiting : ∃ es, B'.waiting = B.waiting ++ es
  content : ∀ e ∈ B.waiting, ∀ s, B.content e = some s →
    B'.content e = some s ∨ ∃ j ∈ B'.arrived, Newer key state j s

structure Pops (B B' : Box M) : Prop where
  taken : ∃ e, B.waiting = e :: B'.waiting ∧ B'.taken = B.taken ++ (B.content e).toList
  slots : B'.slots = B.slots

def Moves (key : M → κ) (state : M → Bool) (B B' : Box M) : Prop :=
  Grows key state B B' ∨ Pops B B'

section
variable {B B' B'' : Box M} {m : M} {id : ℕ} {s : Item M} {a c : List (Entry M)}

section
omit [DecidableEq κ]

lemma Grows.of_eq (hw : B'.waiting = B.waiting) (hs : B'.slots = B.slots)
    (ha : B'.arrived = B.arrived) : Grows key state B B' := by
  refine ⟨ha ▸ List.Subset.refl _, ⟨[], by rw [hw, append_nil]⟩, fun e _ x hx => .inl ?_⟩
  rw [content_congr hs]
  exact hx

lemma Grows.trans (h : Grows key state B B') (h' : Grows key state B' B'') :
    Grows key state B B'' := by
  obtain ⟨es, hes⟩ := h.waiting
  obtain ⟨es', hes'⟩ := h'.waiting
  refine ⟨List.Subset.trans h.arrived h'.arrived, ⟨es ++ es', by rw [hes', hes, append_assoc]⟩, fun e he x hx => ?_⟩
  rcases h.content e he x hx with hx' | ⟨j, hj, hnew⟩
  · exact h'.content e (by rw [hes]; exact mem_append_left _ he) x hx'
  · exact .inr ⟨j, h'.arrived hj, hnew⟩

lemma grows_put (B : Box M) (m : M) : Grows key state B (B.put m) :=
  ⟨subset_append_left _ _, ⟨_, put_waiting⟩, fun _ _ _ hx => .inl hx⟩

lemma grows_put_slot (hf : ∀ id, .slot id ∈ B.waiting → id < B.next) (m : M) :
    Grows key state B (B.put_slot m) := by
  refine ⟨subset_append_left _ _, ⟨_, put_slot_waiting⟩, fun e he x hx => .inl ?_⟩
  cases e with
  | plain item => exact hx
  | slot id => exact (update_of_ne (hf id he).ne ..).trans hx

end

lemma Box.Holds.content_or (hB : B.Sound key state) (h : B.Holds id s a c)
    (hs : state s.body = true) (hm : state m = true) (hkey : key m = key s.body) {e : Entry M} {x : Item M}
    {y : Option (Item M)} (hx : B.content e = some x) :
    { B with slots := update B.slots id y }.content e = some x ∨ Newer key state (B.item m) x := by
  cases e with
  | plain item => exact .inl hx
  | slot id' =>
    by_cases hid : id' = id
    · subst hid
      cases h.item.symm.trans hx
      exact .inr ⟨hm, hs, hkey, hB.lt_length (h.arrived hB)⟩
    · exact .inl ((update_of_ne hid ..).trans hx)

lemma Box.Holds.grows_replace (hB : B.Sound key state) (h : B.Holds id s a c)
    (hs : state s.body = true) (hm : state m = true) (hkey : key m = key s.body) : Grows key state B (B.replace id m) := by
  refine ⟨subset_append_left _ _, ⟨[], (append_nil _).symm⟩, fun e _ x hx => ?_⟩
  exact (h.content_or hB hs hm hkey hx).imp_right fun hnew =>
    ⟨_, mem_append_right _ (mem_singleton_self _), hnew⟩

lemma Box.Holds.grows_supersede (hB : B.Sound key state) (h : B.Holds id s a c)
    (hs : state s.body = true) (hm : state m = true) (hkey : key m = key s.body) :
    Grows key state B ((B.clear id).put_slot m) := by
  have hput : Grows key state (B.clear id) ((B.clear id).put_slot m) := grows_put_slot (B := B.clear id) hB.fresh m
  refine ⟨subset_append_left _ _, ⟨_, put_slot_waiting⟩, fun e he x hx => ?_⟩
  rcases h.content_or (y := none) hB hs hm hkey hx with hx' | hnew
  · exact hput.content e he x hx'
  · exact .inr ⟨_, mem_append_right _ (mem_singleton_self _), hnew⟩

lemma Box.Opens.grows (hB : B.Sound key state) (h : B.Opens key state (key m) id)
    (hm : state m = true) : Grows key state B (B.replace id m) := by
  obtain ⟨s, a, c, hholds, hs, hk, -⟩ := h
  exact hholds.grows_replace hB hs hm hk.symm

omit [DecidableEq κ] in
lemma Box.grows_get (h : B.get = some B') : Grows key state B B' := by
  obtain ⟨hw, hs, -, ha, -⟩ := Box.get_cases h
  exact .of_eq hw hs ha

lemma Box.take_pops {e : Entry M} (h : B.take = some (e, B')) : Pops B B' := by
  obtain ⟨-, hw, heq⟩ := Box.take_cases h
  exact ⟨⟨e, hw, by rw [heq]⟩, by rw [heq]⟩

end

omit [DecidableEq κ] in
lemma waits_leads {σ : ℕ → Box M} (hmoves : ∀ n, Moves key state (σ n) (σ (n + 1)))
    (hfair : ∀ n, (σ n).waiting ≠ [] → ∃ m, n ≤ m ∧ Pops (σ m) (σ (m + 1)))
    (e : Entry M) (s : Item M) :
    LeadsTo (fun n => e ∈ (σ n).waiting ∧ (σ n).content e = some s)
      fun n => s ∈ (σ n).taken ∨ ∃ j ∈ (σ n).arrived, Newer key state j s := by
  classical
  refine LeadsTo.of_rank (fun n => (σ n).waiting.idxOf e) fun k => ?_
  have hpop : ∀ n, (e ∈ (σ n).waiting ∧ (σ n).content e = some s) → Pops (σ n) (σ (n + 1)) →
      s ∈ (σ (n + 1)).taken ∨ (e ∈ (σ (n + 1)).waiting ∧ (σ (n + 1)).content e = some s) ∧
        (σ (n + 1)).waiting.idxOf e < (σ n).waiting.idxOf e := by
    rintro n ⟨he, hs⟩ ⟨⟨x, hw, ht⟩, hslots⟩
    by_cases hx : x = e
    · subst hx
      left
      rw [ht, hs]
      exact mem_append_right _ (mem_singleton_self _)
    · right
      rw [hw] at he ⊢
      refine ⟨⟨(mem_cons.mp he).resolve_left fun heq => hx heq.symm, ?_⟩, ?_⟩
      · rw [content_congr hslots]
        exact hs
      · rw [idxOf_cons_ne _ hx]
        exact Nat.lt_succ_self _
  refine LeadsTo.ensures (fun n => Pops (σ n) (σ (n + 1))) ?_ ?_ ?_
  · rintro n ⟨⟨he, hs⟩, hk⟩
    rcases hmoves n with hgrows | hpops
    · obtain ⟨es, hw⟩ := hgrows.waiting
      rcases hgrows.content e he s hs with hs' | hnew
      · refine .inr (.inl ⟨⟨?_, hs'⟩, ?_⟩)
        · rw [hw]
          exact mem_append_left _ he
        · rw [hw, idxOf_append_of_mem he]
          exact hk
      · exact .inr (.inr (.inl (.inr hnew)))
    · rcases hpop n ⟨he, hs⟩ hpops with ht | ⟨he', hlt⟩
      · exact .inr (.inr (.inl (.inl ht)))
      · exact .inr (.inr (.inr ⟨he', hk ▸ hlt⟩))
  · rintro n ⟨⟨he, -⟩, -⟩
    exact hfair n fun hnil => by
      rw [hnil] at he
      cases he
  · rintro n ⟨⟨he, hs⟩, hk⟩ hpops
    rcases hpop n ⟨he, hs⟩ hpops with ht | ⟨he', hlt⟩
    · exact .inr (.inl (.inl ht))
    · exact .inr (.inr ⟨he', hk ▸ hlt⟩)

lemma arrived_taken {σ : ℕ → Box M} (hsound : ∀ n, (σ n).Sound key state) (hmoves : ∀ n, Moves key state (σ n) (σ (n + 1)))
    (hfair : ∀ n, (σ n).waiting ≠ [] → ∃ m, n ≤ m ∧ Pops (σ m) (σ (m + 1)))
    {n : ℕ} {i : Item M} (hi : i ∈ (σ n).arrived) : ∃ m, n ≤ m ∧
      (i ∈ (σ m).taken ∨ ∃ j ∈ (σ m).arrived, Newer key state j i) := by
  rcases (hsound n).coalesced.left i hi with hk | hnew
  · rcases mem_append.mp hk with ht | hp
    · exact ⟨n, le_rfl, .inl ht⟩
    · obtain ⟨e, he, hs⟩ := mem_filterMap.mp hp
      exact waits_leads hmoves hfair e i n ⟨he, hs⟩
  · exact ⟨n, le_rfl, .inr hnew⟩

omit [DecidableEq κ] in
lemma pops_of_fair {σ : ℕ → Box M} (hmoves : ∀ n, Moves key state (σ n) (σ (n + 1)))
    (free : ℕ → Prop) (hfree : ∀ n, ∃ m, n ≤ m ∧ free m)
    (hget : ∀ n, free n → (σ n).hand = none → (σ n).queue ≠ [] → ∃ m, n ≤ m ∧ (σ m).hand ≠ none)
    (htake : ∀ n, (σ n).hand ≠ none → ∃ m, n ≤ m ∧ Pops (σ m) (σ (m + 1)))
    (n : ℕ) (hn : (σ n).waiting ≠ []) : ∃ m, n ≤ m ∧ Pops (σ m) (σ (m + 1)) := by
  by_contra hno
  have hstays : ∀ m, n ≤ m → (σ m).waiting ≠ [] := by
    intro m hm
    induction m, hm using Nat.le_induction with
    | base => exact hn
    | succ m hm ih =>
      rcases hmoves m with hgrows | hpops
      · obtain ⟨es, hes⟩ := hgrows.waiting
        rw [hes]
        exact fun hnil => ih (append_eq_nil_iff.mp hnil).1
      · exact absurd ⟨m, hm, hpops⟩ hno
  have hnone : ∀ m, n ≤ m → (σ m).hand = none := by
    intro m hm
    by_contra hhand
    obtain ⟨k, hk, hpops⟩ := htake m hhand
    exact hno ⟨k, hm.trans hk, hpops⟩
  obtain ⟨m, hm, hfr⟩ := hfree n
  have hqueue : (σ m).queue ≠ [] := by
    have hw := hstays m hm
    unfold Box.waiting at hw
    rw [hnone m hm] at hw
    exact hw
  obtain ⟨k, hk, hhand⟩ := hget m hfr (hnone m hm) hqueue
  exact hhand (hnone k (hm.trans hk))

/-- Every message is handled but the states that a newer one replaced. -/
structure Answered (key : M → κ) (state readable : M → Bool) (arrived handled : ℕ → List (Item M)) :
    Prop where
  others : ∀ n, ∀ i ∈ arrived n, state i.body = false → ∃ m, i ∈ handled m
  newest : ∀ n, ∀ i ∈ arrived n, readable i.body = true →
    (∀ m, ∀ j ∈ arrived m, ¬Newer key state j i) → ∃ m, i ∈ handled m

lemma answered_of_fair {σ : ℕ → Box M} (readable : M → Bool) (hread : ∀ m, state m = false → readable m = true)
    (hsound : ∀ n, (σ n).Sound key state) (hmoves : ∀ n, Moves key state (σ n) (σ (n + 1)))
    (hfair : ∀ n, (σ n).waiting ≠ [] → ∃ m, n ≤ m ∧ Pops (σ m) (σ (m + 1))) :
    Answered key state readable (fun n => (σ n).arrived) fun n => (σ n).taken.filter fun i => readable i.body := by
  refine ⟨fun n i hi hs => ?_, fun n i hi hr hnone => ?_⟩
  · obtain ⟨m, -, ht | ⟨j, -, hnew⟩⟩ := arrived_taken hsound hmoves hfair hi
    · exact ⟨m, mem_filter.mpr ⟨ht, hread _ hs⟩⟩
    · rw [hnew.older] at hs
      cases hs
  · obtain ⟨m, -, ht | ⟨j, hj, hnew⟩⟩ := arrived_taken hsound hmoves hfair hi
    · exact ⟨m, mem_filter.mpr ⟨ht, hr⟩⟩
    · exact absurd hnew (hnone m j hj)

end CloudServer.Mailbox
