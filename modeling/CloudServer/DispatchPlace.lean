import CloudServer.DispatchCancels

/-! What decides the id and the content of the next order, and what every change of it keeps. -/
namespace CloudServer.Dispatch

open Scan OrderIds Steps List

def Mission.revision (m : Mission) : Text :=
  runPrefix m.name (m.runId.map (·.text)) m.orderRev

structure Place where
  rows : Text → Option Mission
  mission : Option Mission
  tree : Option (Option Leaf)
  sent : Option Order
  unknown : Option Text
  adopted : Option Text
  records : List (Text × Option Text)
  published : List Publish

def World.place (w : World) : Place where
  rows := w.rows
  mission := w.mission
  tree := w.tree
  sent := w.sentOrder
  unknown := w.unknownContent
  adopted := w.adoptedPrefix
  records := w.records
  published := w.published

def NoRun (name : Text) : Prop :=
  ∀ (n : Text) (id : RunId) (rev : ℕ), name ≠ runPrefix n (some id.text) rev

namespace Place
variable (s : Place)

def Out (p : Text) (idx : ℕ) : Prop := ∃ o ∈ s.published, o.order.orderId = orderId p idx

def Knows (id : Text) : Prop := (∃ o, s.sent = some o ∧ o.orderId = id) ∨ s.unknown = some id

/-- Orders of the mission's run went out only once it was started, up to its revision. -/
def Ahead (m : Mission) : Prop :=
  ∀ id, m.runId = some id → ∀ rev idx, s.Out (runPrefix m.name (some id.text) rev) idx →
    m.started = true ∧ rev ≤ m.orderRev

structure AtLeaf (m : Mission) (idx : ℕ) : Prop where
  current : s.Out m.revision idx → s.sent = none ∨ s.Knows (orderId m.revision idx)
  adopted : ∀ p, s.adopted = some p → s.Out p idx → s.sent = none ∨ s.Knows (orderId p idx)
  both : ∀ p, s.adopted = some p → s.Out m.revision idx → s.Out p idx

structure Sound : Prop where
  same : ∀ p ∈ s.published, ∀ q ∈ s.published, p.order.orderId = q.order.orderId →
    p.order.content = q.order.content
  sent : ∀ o, s.sent = some o → ∃ p ∈ s.published, p.order.orderId = o.orderId ∧
    p.order.content = o.content
  named : ∀ p ∈ s.published, ∃ q idx, p.order.orderId = orderId q idx
  records : ∀ e ∈ s.records, ∃ p ∈ s.published, p.order.orderId = e.1
  rows : ∀ name m, s.rows name = some m → m.name = name ∧ s.Ahead m
  memory : ∀ m, s.mission = some m → s.Ahead m ∧
    (m.runId = none → m.started = true → NoRun m.name)
  adopted : ∀ p, s.adopted = some p → ∃ idx, s.Out p idx
  unbuilt : s.tree = none → s.adopted = none
  started : ∀ m, s.mission = some m → s.tree ≠ none → m.started = true
  leaf : ∀ m leaf, s.mission = some m → s.tree = some (some leaf) → s.AtLeaf m leaf.idx

end Place

lemma runPrefix_injective {n n' : Text} {id id' : RunId} {rev rev' : ℕ}
    (h : runPrefix n (some id.text) rev = runPrefix n' (some id'.text) rev') :
    n = n' ∧ id = id' ∧ rev = rev' :=
  @prefixText_injective ⟨n, id, rev, 0, 0⟩ ⟨n', id', rev', 0, 0⟩ h

section
variable {s s' : Place} {m m' : Mission}

lemma Mission.revision_some {id : RunId} (h : m.runId = some id) :
    m.revision = runPrefix m.name (some id.text) m.orderRev := by
  unfold Mission.revision
  rw [h]
  rfl

lemma Place.Ahead.congr (h : s.Ahead m) (hpublished : s'.published = s.published)
    (hname : m'.name = m.name) (hrun : m'.runId = m.runId) (hstarted : m.started → m'.started)
    (hrev : m.orderRev ≤ m'.orderRev) : s'.Ahead m' := by
  intro id hid rev idx hout
  rw [hname] at hout
  unfold Place.Out at hout
  rw [hpublished] at hout
  obtain ⟨hs, hr⟩ := h id (hrun ▸ hid) rev idx hout
  exact ⟨hstarted hs, hr.trans hrev⟩

lemma Place.Sound.persist (h : s.Sound) (hm : s.Ahead m) :
    Place.Sound { s with rows := Function.update s.rows m.name (some m) } where
  __ := h
  rows := by
    intro name m' hrow
    dsimp only at hrow
    rw [Function.update_apply] at hrow
    split at hrow
    · rename_i hname
      cases hrow
      exact ⟨hname.symm, hm⟩
    · exact h.rows name m' hrow
  leaf m leaf hmission htree :=
    ⟨(h.leaf m leaf hmission htree).1, (h.leaf m leaf hmission htree).2, (h.leaf m leaf hmission htree).3⟩

lemma Place.Sound.flags (h : s.Sound) (hmission : s.mission = some m) (hname : m'.name = m.name)
    (hrun : m'.runId = m.runId) (hrev : m'.orderRev = m.orderRev)
    (hstarted : m'.started = m.started) : Place.Sound { s with mission := some m' } where
  __ := h
  memory := by
    intro m₁ hm₁
    cases hm₁
    obtain ⟨hahead, hlegacy⟩ := h.memory m hmission
    refine ⟨hahead.congr rfl hname hrun (fun hs => hstarted ▸ hs) hrev.ge, fun hnone hs => ?_⟩
    rw [hname]
    exact hlegacy (hrun ▸ hnone) (hstarted ▸ hs)
  started := by
    intro m₁ hm₁ htree
    cases hm₁
    rw [hstarted]
    exact h.started m hmission htree
  leaf := by
    intro m₁ leaf hm₁ htree
    cases hm₁
    have hsame : m'.revision = m.revision := by
      unfold Mission.revision
      rw [hname, hrun, hrev]
    have hat := h.leaf m leaf hmission htree
    exact ⟨hsame ▸ hat.current, hat.adopted, hsame ▸ hat.both⟩

lemma Place.Sound.again (h : s.Sound) {o : Order} (ho : s.sent = some o) (p : Publish)
    (hid : p.order.orderId = o.orderId) (hcontent : p.order.content = o.content) :
    Place.Sound { s with sent := some p.order, published := p :: s.published } := by
  obtain ⟨q, hq, hqid, hqcontent⟩ := h.sent o ho
  have hout : ∀ t idx, Place.Out { s with sent := some p.order, published := p :: s.published }
      t idx ↔ s.Out t idx := by
    intro t idx
    constructor
    · rintro ⟨r, hr, hrid⟩
      rcases mem_cons.mp hr with rfl | hr
      · exact ⟨q, hq, hqid.trans (hid.symm.trans hrid)⟩
      · exact ⟨r, hr, hrid⟩
    · rintro ⟨r, hr, hrid⟩
      exact ⟨r, mem_cons_of_mem _ hr, hrid⟩
  have hsame : ∀ r ∈ s.published, r.order.orderId = p.order.orderId →
      r.order.content = p.order.content := by
    intro r hr hrid
    rw [h.same r hr q hq (hrid.trans (hid.trans hqid.symm)), hqcontent, hcontent]
  have hknows : ∀ id, s.Knows id →
      Place.Knows { s with sent := some p.order, published := p :: s.published } id := by
    rintro id (⟨o', ho', hid'⟩ | hunknown)
    · cases ho.symm.trans ho'
      exact .inl ⟨_, rfl, hid.trans hid'⟩
    · exact .inr hunknown
  have hahead : ∀ m, s.Ahead m →
      Place.Ahead { s with sent := some p.order, published := p :: s.published } m :=
    fun m hm id hrun rev idx ho' => hm id hrun rev idx ((hout _ _).mp ho')
  exact {
    same := by
      intro a ha b hb hab
      rcases mem_cons.mp ha with rfl | ha₁
      · rcases mem_cons.mp hb with rfl | hb₁
        · rfl
        · exact (hsame b hb₁ hab.symm).symm
      · rcases mem_cons.mp hb with rfl | hb₁
        · exact hsame a ha₁ hab
        · exact h.same a ha₁ b hb₁ hab
    sent := by
      rintro o' ho'
      cases ho'
      exact ⟨p, mem_cons_self .., rfl, rfl⟩
    named := by
      intro r hr
      rcases mem_cons.mp hr with rfl | hr
      · obtain ⟨t, idx, ht⟩ := h.named q hq
        exact ⟨t, idx, (hid.trans hqid.symm).trans ht⟩
      · exact h.named r hr
    records := by
      intro e he
      obtain ⟨r, hr, hrid⟩ := h.records e he
      exact ⟨r, mem_cons_of_mem _ hr, hrid⟩
    rows := fun name m hrow => ⟨(h.rows name m hrow).1, hahead m (h.rows name m hrow).2⟩
    memory := fun m hm => ⟨hahead m (h.memory m hm).1, (h.memory m hm).2⟩
    adopted := by
      intro t ht
      obtain ⟨idx, hidx⟩ := h.adopted t ht
      exact ⟨idx, (hout _ _).mpr hidx⟩
    unbuilt := h.unbuilt
    started := h.started
    leaf := by
      intro m leaf hm ht
      have hat := h.leaf m leaf hm ht
      have hne : ¬ s.sent = none := by simp [ho]
      constructor
      · intro hcur
        exact .inr (hknows _ ((hat.current ((hout _ _).mp hcur)).resolve_left hne))
      · intro t ht' hcur
        exact .inr (hknows _ ((hat.adopted t ht' ((hout _ _).mp hcur)).resolve_left hne))
      · intro t ht' hcur
        exact (hout _ _).mpr (hat.both t ht' ((hout _ _).mp hcur)) }

lemma Place.Sound.first (h : s.Sound) {leaf : Leaf} (hm : s.mission = some m)
    (ht : s.tree = some (some leaf)) (hrow : s.rows m.name = some m)
    (hnew : ¬ s.Out (s.adopted.getD m.revision) leaf.idx) (p : Publish)
    (hid : p.order.orderId = orderId (s.adopted.getD m.revision) leaf.idx)
    (digest : Option Text) :
    Place.Sound { s with
      sent := some p.order
      records := (p.order.orderId, digest) :: s.records
      published := p :: s.published } := by
  set s' : Place := { s with
    sent := some p.order
    records := (p.order.orderId, digest) :: s.records
    published := p :: s.published } with hs'
  have hout : ∀ t idx, s'.Out t idx ↔
      s.Out t idx ∨ t = s.adopted.getD m.revision ∧ idx = leaf.idx := by
    intro t idx
    constructor
    · rintro ⟨r, hr, hrid⟩
      rcases mem_cons.mp hr with rfl | hr
      · obtain ⟨hp, hi⟩ := orderId_injective (hrid.symm.trans hid)
        exact .inr ⟨hp, hi⟩
      · exact .inl ⟨r, hr, hrid⟩
    · rintro (⟨r, hr, hrid⟩ | ⟨rfl, rfl⟩)
      · exact ⟨r, mem_cons_of_mem _ hr, hrid⟩
      · exact ⟨p, mem_cons_self .., hid⟩
  have hother : ∀ r ∈ s.published, r.order.orderId ≠ p.order.orderId :=
    fun r hr hrid => hnew ⟨r, hr, hrid.trans hid⟩
  have hstarted : m.started = true := h.started m hm (by simp [ht])
  -- The prefix is one under which orders went out, or the newest of the mission, as stored.
  have hahead : ∀ m', (m'.name = m.name → m' = m) → s.Ahead m' → s'.Ahead m' := by
    intro m' hname hm' id hrun rev idx ho'
    rcases (hout _ _).mp ho' with ho' | ⟨hp, -⟩
    · exact hm' id hrun rev idx ho'
    · cases ha : s.adopted with
      | some t =>
        rw [ha, Option.getD_some] at hp
        obtain ⟨i, hi⟩ := h.adopted t ha
        exact hm' id hrun rev i (hp ▸ hi)
      | none =>
        rw [ha, Option.getD_none] at hp
        cases hrun' : m.runId with
        | none =>
          have hno := (h.memory m hm).2 hrun' hstarted
          unfold Mission.revision at hp
          rw [hrun'] at hp
          exact (hno _ _ _ hp.symm).elim
        | some id' =>
          rw [Mission.revision_some hrun'] at hp
          obtain ⟨hn, -, hrev⟩ := runPrefix_injective hp
          obtain rfl := hname hn
          exact ⟨hstarted, hrev.le⟩
  exact {
    same := by
      intro a ha b hb hab
      rcases mem_cons.mp ha with rfl | ha₁
      · rcases mem_cons.mp hb with rfl | hb₁
        · rfl
        · exact absurd hab.symm (hother b hb₁)
      · rcases mem_cons.mp hb with rfl | hb₁
        · exact absurd hab (hother a ha₁)
        · exact h.same a ha₁ b hb₁ hab
    sent := by
      rintro o' ho'
      cases ho'
      exact ⟨p, mem_cons_self .., rfl, rfl⟩
    named := by
      intro r hr
      rcases mem_cons.mp hr with rfl | hr
      · exact ⟨_, _, hid⟩
      · exact h.named r hr
    records := by
      intro e he
      rcases mem_cons.mp he with rfl | he
      · exact ⟨p, mem_cons_self .., rfl⟩
      · obtain ⟨r, hr, hrid⟩ := h.records e he
        exact ⟨r, mem_cons_of_mem _ hr, hrid⟩
    rows := by
      intro name m' hrow'
      obtain ⟨hname, hm'⟩ := h.rows name m' hrow'
      refine ⟨hname, hahead m' (fun hn => ?_) hm'⟩
      rw [← hname, hn, hrow] at hrow'
      exact (Option.some.inj hrow').symm
    memory := by
      intro m' hm'
      cases hm.symm.trans hm'
      exact ⟨hahead m (fun _ => rfl) (h.memory m hm).1, (h.memory m hm).2⟩
    adopted := by
      intro t ht'
      obtain ⟨idx, hidx⟩ := h.adopted t ht'
      exact ⟨idx, (hout _ _).mpr (.inl hidx)⟩
    unbuilt := h.unbuilt
    started := h.started
    leaf := by
      intro m' leaf' hm' ht'
      cases hm.symm.trans hm'
      obtain rfl := Option.some.inj (Option.some.inj (ht.symm.trans ht'))
      have hat := h.leaf m leaf hm ht
      have hknows : s'.Knows (orderId (s.adopted.getD m.revision) leaf.idx) := .inl ⟨_, rfl, hid⟩
      constructor
      · intro hcur
        rcases (hout _ _).mp hcur with hcur | ⟨hp, -⟩
        · cases ha : s.adopted with
          | none =>
            rw [ha] at hnew
            exact absurd hcur hnew
          | some t =>
            rw [ha] at hnew
            exact absurd (hat.both t ha hcur) hnew
        · rw [← hp] at hknows
          exact .inr hknows
      · intro t ha hcur
        rw [show s.adopted = some t from ha, Option.getD_some] at hknows
        exact .inr hknows
      · intro t ha hcur
        refine (hout _ _).mpr (.inr ⟨?_, rfl⟩)
        rw [show s.adopted = some t from ha, Option.getD_some] }

lemma Place.Sound.revise (h : s.Sound) (hm : s.mission = some m) (hahead : s.Ahead m')
    (hstarted : m'.started = m.started) (hrun : m'.runId ≠ none)
    (hnone : ∀ idx, ¬ s.Out m'.revision idx) :
    Place.Sound { s with mission := some m', adopted := none, unknown := none } where
  __ := h
  memory := by
    intro m₁ hm₁
    cases hm₁
    exact ⟨hahead, fun hn => absurd hn hrun⟩
  adopted := fun t ht => by cases ht
  unbuilt := fun _ => rfl
  started := by
    intro m₁ hm₁ htree
    cases hm₁
    exact hstarted ▸ h.started m hm htree
  leaf := by
    intro m₁ leaf hm₁ _
    cases hm₁
    exact ⟨fun hout => absurd hout (hnone _), (fun t ht => by cases ht), fun t ht => by cases ht⟩

variable {leaf : Option Leaf}

lemma Place.Sound.nextPass (h : s.Sound) (hm : s.mission = some m) (htree : s.tree ≠ none)
    (hahead : s.Ahead m') (hstarted : m'.started = m.started) (hrun : m'.runId ≠ none)
    (hnone : ∀ idx, ¬ s.Out m'.revision idx)
    (hplace : ∀ t l, s.adopted = some t → leaf = some l → ¬ s.Out t l.idx) :
    Place.Sound { s with mission := some m', tree := some leaf } where
  __ := h
  memory := by
    intro m₁ hm₁
    cases hm₁
    exact ⟨hahead, fun hn => absurd hn hrun⟩
  unbuilt := fun hnone => by cases hnone
  started := by
    intro m₁ hm₁ _
    cases hm₁
    exact hstarted ▸ h.started m hm htree
  leaf := by
    intro m₁ l hm₁ hl
    cases hm₁
    refine ⟨fun hout => absurd hout (hnone _), fun t ht hout => ?_, fun t ht hout => ?_⟩
    · exact absurd hout (hplace t l ht (Option.some.inj hl))
    · exact absurd hout (hnone _)

lemma Place.Sound.move (h : s.Sound) (htree : s.tree ≠ none)
    (hplace : ∀ m l, s.mission = some m → leaf = some l → (∃ old, s.tree = some (some old) ∧ old.idx = l.idx) ∨
      ¬ s.Out m.revision l.idx ∧ ∀ t, s.adopted = some t → ¬ s.Out t l.idx) :
    Place.Sound { s with tree := some leaf } where
  __ := h
  unbuilt := fun hnone => by cases hnone
  started := fun m hm _ => h.started m hm htree
  leaf := by
    intro m l hm hl
    rcases hplace m l hm (Option.some.inj hl) with ⟨old, hold, hidx⟩ | ⟨hcur, hadopted⟩
    · have hat := h.leaf m old hm hold
      rw [hidx] at hat
      exact ⟨hat.1, hat.2, hat.3⟩
    · exact ⟨fun hout => absurd hout hcur, fun t ht hout => absurd hout (hadopted t ht), fun t ht hout => absurd hout hcur⟩

lemma Place.Sound.select (h : s.Sound) (hahead : s.Ahead m)
    (hlegacy : m.runId = none → m.started = true → NoRun m.name) (htree : s.tree = none) :
    Place.Sound { s with mission := some m } where
  __ := h
  memory := by
    intro m₁ hm₁
    cases hm₁
    exact ⟨hahead, hlegacy⟩
  started := fun m₁ _ hne => absurd htree hne
  leaf := fun m₁ l _ hl => by cases htree.symm.trans hl

lemma Place.Sound.build (h : s.Sound) (hm : s.mission = some m) (htree : s.tree = none)
    (hrun : m.runId ≠ none ∨ m.started = true) {unknown : Option Text}
    (hunknown : ∀ l, leaf = some l → m.started = true → unknown = some (orderId m.revision l.idx)) :
    Place.Sound { s with
      mission := some { m with started := true }, tree := some leaf, unknown := unknown } where
  __ := h
  memory := by
    intro m₁ hm₁
    cases hm₁
    obtain ⟨hahead, hlegacy⟩ := h.memory m hm
    refine ⟨hahead.congr rfl rfl rfl (fun _ => rfl) le_rfl, fun hnone _ => ?_⟩
    exact hlegacy hnone (hrun.resolve_left (not_not_intro hnone))
  unbuilt := fun hnone => by cases hnone
  started := by
    intro m₁ hm₁ _
    cases hm₁
    rfl
  leaf := by
    intro m₁ l hm₁ hl
    cases hm₁
    have hnone : s.adopted = none := h.unbuilt htree
    refine ⟨fun hout => ?_, fun t ht => ?_, fun t ht => ?_⟩
    · by_cases hs : m.started = true
      · exact .inr (.inr (hunknown l (Option.some.inj hl) hs))
      · have hrun' := hrun.resolve_right hs
        obtain ⟨id, hid⟩ := Option.ne_none_iff_exists'.mp hrun'
        have hrev : Mission.revision { m with started := true } =
            runPrefix m.name (some id.text) m.orderRev := Mission.revision_some hid
        rw [hrev] at hout
        exact absurd ((h.memory m hm).1 id hid _ _ hout).1 hs
    · cases hnone.symm.trans ht
    · cases hnone.symm.trans ht

lemma Place.Sound.adopt (h : s.Sound) {leaf : Leaf} (ht : s.tree = some (some leaf)) {t : Text} (hout : s.Out t leaf.idx) :
    Place.Sound { s with adopted := some t, sent := none } where
  __ := h
  sent := fun o ho => by cases ho
  adopted := by
    rintro t' ht'
    cases ht'
    exact ⟨_, hout⟩
  unbuilt := fun hnone => by cases ht.symm.trans hnone
  leaf := by
    intro m₁ l hm₁ hl
    obtain rfl := Option.some.inj (Option.some.inj (ht.symm.trans hl))
    refine ⟨fun _ => .inl rfl, fun _ _ _ => .inl rfl, fun t' ht' _ => ?_⟩
    cases ht'
    exact hout

lemma Place.Sound.forget (h : s.Sound) (mission : Option Mission)
    (hmission : ∀ m, mission = some m → s.Ahead m ∧ (m.runId = none → m.started = true → NoRun m.name)) :
    Place.Sound { s with
      mission := mission, tree := none, sent := none, unknown := none, adopted := none
      records := [] } where
  __ := h
  sent := fun o ho => by cases ho
  records := fun e he => by cases he
  memory := hmission
  adopted := fun t ht => by cases ht
  unbuilt := fun _ => rfl
  started := fun m _ hne => absurd rfl hne
  leaf := fun m l _ hl => by cases hl

lemma Place.Sound.unadopt (h : s.Sound) : Place.Sound { s with adopted := none } where
  __ := h
  adopted := fun t ht => by cases ht
  unbuilt := fun _ => rfl
  leaf := by
    intro m₁ l hm₁ hl
    exact ⟨(h.leaf m₁ l hm₁ hl).current, (fun t ht => by cases ht), fun t ht => by cases ht⟩

lemma Place.Sound.leave (h : s.Sound) : Place.Sound { s with mission := none } where
  __ := h
  memory := fun m hm => by cases hm
  started := fun m hm => by cases hm
  leaf := fun m l hm => by cases hm

lemma Place.Sound.setRow (h : s.Sound) {name : Text} {row : Option Mission}
    (hrow : ∀ m, row = some m → m.name = name ∧ m.runId = none) :
    Place.Sound { s with rows := Function.update s.rows name row } where
  __ := h
  rows := by
    intro name' m' hm'
    dsimp only at hm'
    rw [Function.update_apply] at hm'
    split at hm'
    · rename_i hname
      obtain ⟨hmname, hmrun⟩ := hrow m' hm'
      exact ⟨hmname.trans hname.symm, fun id hid => by cases hmrun.symm.trans hid⟩
    · exact h.rows name' m' hm'
  leaf m leaf hmission htree :=
    ⟨(h.leaf m leaf hmission htree).1, (h.leaf m leaf hmission htree).2, (h.leaf m leaf hmission htree).3⟩

end
end CloudServer.Dispatch
