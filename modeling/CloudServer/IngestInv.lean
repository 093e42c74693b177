import CloudServer.IngestRely

/-! The invariant of the handlers of one node's messages. -/
namespace CloudServer.Ingest

open Acks (Kind Part Sid Run Key Reason Message)
open UploadBuffer (NodeKey Upload Placed)
open Scan (Text)

structure Open (N : NodeKey) (s₀ s : State) (S : Text) : Prop where
  nodeCount : s.nodeCount S = s₀.nodeCount S
  counted : ∀ g, InSession N S g → s.counted g = s₀.counted g
  before : ∀ g, InSession N S g → s₀.counted g = 1 → g ∉ s.incomplete ∧ Complete s g
  fresh : ∀ g, InSession N S g → s₀.counted g ≠ 1 → ¬Complete s g ∧ g ∉ s.completeCache

/-- The node was counted once in the session, under an id that a resend looks for. -/
def Closed (N : NodeKey) (ρ : Run) (s₀ s : State) (S : Text) : Prop :=
  Quiet N ρ s ∧ s.nodeCount S = s₀.nodeCount S + 1 ∧ ∃ g ∈ candidateIds s N S ρ false,
    s₀.counted g = 0 ∧ s.counted g = 1 ∧ g ∈ s.completeCache ∧ g ∉ s.incomplete

def Settled (N : NodeKey) (ρ : Run) (s₀ s : State) (S : Text) : Prop :=
  Open N s₀ s S ∨ Closed N ρ s₀ s S

structure Inv (N : NodeKey) (ρ : Run) (s₀ s : State) : Prop where
  mapped : ∀ m, s.mapping.get N = some m → Quiet N ρ s ∧ Target N ρ s m.session m.gid
  stored : ∀ x, s.stored.get N = some x → InSession N x.2 x.1 ∧ (s.docs x.1).isSome ∧
    (x.1 ∈ s.incomplete ∨ Finished s x.1)
  cached : ∀ S g, InSession N S g → g ∈ s.nodeCache → (s.docs g).isSome
  complete : ∀ S g, InSession N S g → g ∈ s.completeCache → Finished s g
  added : ∀ S g, InSession N S g → s.adds g ≤ 1 ∧ (s.adds g = 1 → (s.docs g).isSome)
  counted : ∀ S g, InSession N S g → s.counted g ≤ 1
  records : ∀ S g d p, InSession N S g → s.docs g = some d → p ∈ d.records → (g, p) ∈ s.objects
  held : ∀ S g w, InSession N S g → s.holder g = some w → Quiet N ρ s ∧ g = own N ρ s S
  processing : ∀ S g, InSession N S g → (g ∈ s.processing ↔ s.holder g ≠ none)
  start : Quiet N ρ s ∨ ∀ S, SameShelf N S s₀ s
  free : ∀ S, (∀ g, InSession N S g → s.holder g = none) → Settled N ρ s₀ s S
  docs : ∀ S g, InSession N S g → (s.docs g).isSome → (s₀.docs g).isSome ∨ g = own N ρ s S
  buffered : ∀ kind u, u ∈ (s.buffers kind).held N → u.node = N ∧ u.kind = kind ∧ u.run = ρ

section
variable {N : NodeKey} {ρ : Run} {s₀ s s' : State} {S : Text} {g : Gid}

lemma Open.congr (h : Open N s₀ s S) (hs : SameShelf N S s s') : Open N s₀ s' S where
  nodeCount := hs.nodeCount.trans h.nodeCount
  counted g hg := (hs.counted g hg).trans (h.counted g hg)
  before g hg h1 := by
    obtain ⟨hi, hc⟩ := h.before g hg h1
    exact ⟨fun hi' => hi ((hs.incomplete g hg).mp hi'), (hs.complete_iff hg).mpr hc⟩
  fresh g hg h0 := by
    obtain ⟨hc, hk⟩ := h.fresh g hg h0
    exact ⟨fun hc' => hc ((hs.complete_iff hg).mp hc'), fun hk' => hk ((hs.complete g hg).mp hk')⟩

lemma Settled.congr (h : Settled N ρ s₀ s S) (hm : Mono N ρ s s') (hs : SameShelf N S s s') :
    Settled N ρ s₀ s' S := by
  rcases h with h | ⟨hq, hn, g, hg, h0, h1, hc, hi⟩
  · exact .inl (h.congr hs)
  · have hgS := inSession_of_candidate hg
    exact .inr ⟨(hm.quiet hq).1, hs.nodeCount.trans hn, g, hm.candidate hq hg, h0,
      (hs.counted g hgS).trans h1, (hs.complete g hgS).mpr hc,
      fun hi' => hi ((hs.incomplete g hgS).mp hi')⟩

structure Enters (N : NodeKey) (ρ : Run) (s s' : State) : Prop where
  mapped : ∀ m, s'.mapping.get N = some m → s.mapping.get N = some m ∨
    Quiet N ρ s' ∧ Target N ρ s' m.session m.gid
  stored : ∀ x, s'.stored.get N = some x → s.stored.get N = some x ∨
    InSession N x.2 x.1 ∧ (s'.docs x.1).isSome ∧ (x.1 ∈ s'.incomplete ∨ Finished s' x.1)
  cached : ∀ S g, InSession N S g → g ∈ s'.nodeCache → g ∈ s.nodeCache ∨ (s'.docs g).isSome
  records : ∀ S g d p, InSession N S g → s'.docs g = some d → p ∈ d.records →
    (∃ d', s.docs g = some d' ∧ p ∈ d'.records) ∨ (g, p) ∈ s'.objects
  buffered : ∀ kind u, u ∈ (s'.buffers kind).held N → u ∈ (s.buffers kind).held N ∨
    u.node = N ∧ u.kind = kind ∧ u.run = ρ

lemma Inv.docs_of (h : Inv N ρ s₀ s) (hm : Mono N ρ s s') (hg : InSession N S g)
    (hd : (s.docs g).isSome) : (s₀.docs g).isSome ∨ g = own N ρ s' S := by
  rcases h.start with hq | hs
  · exact (h.docs S g hg hd).imp_right fun ho => ho.trans (hm.own hq S).symm
  · exact .inl (((hs S).isSome_iff hg).mp hd)

lemma Inv.side (h : Inv N ρ s₀ s) (hs : Side N ρ s s') (he : Enters N ρ s s') :
    Inv N ρ s₀ s' where
  mapped m hm := by
    rcases he.mapped m hm with hm | hm
    · obtain ⟨hq, ht⟩ := h.mapped m hm
      exact ⟨(hs.mono.quiet hq).1, hs.mono.target ht⟩
    · exact hm
  stored x hx := by
    rcases he.stored x hx with hx | hx
    · obtain ⟨hg, hd, hk⟩ := h.stored x hx
      have hsh := hs.shelf x.2
      refine ⟨hg, hs.mono.isSome hd, hk.imp (hsh.incomplete _ hg).mpr fun hf => ?_⟩
      exact hs.mono.finished ((hsh.counted _ hg).trans_le (h.counted _ _ hg)) hf
    · exact hx
  cached S g hg hc := (he.cached S g hg hc).elim
    (fun hc => hs.mono.isSome (h.cached S g hg hc)) id
  complete S g hg hc := hs.mono.finished
    (((hs.shelf S).counted g hg).trans_le (h.counted S g hg))
    (h.complete S g hg (((hs.shelf S).complete g hg).mp hc))
  added S g hg := by
    rw [(hs.shelf S).adds g hg]
    exact ⟨(h.added S g hg).1, fun h1 => hs.mono.isSome ((h.added S g hg).2 h1)⟩
  counted S g hg := ((hs.shelf S).counted g hg).trans_le (h.counted S g hg)
  records S g d p hg hd hp := by
    rcases he.records S g d p hg hd hp with ⟨d', hd', hp'⟩ | ho
    · exact hs.mono.objects (h.records S g d' p hg hd' hp')
    · exact ho
  held S g w hg hw := by
    obtain ⟨hq, ho⟩ := h.held S g w hg (((hs.shelf S).holder g hg).symm.trans hw)
    exact ⟨(hs.mono.quiet hq).1, ho.trans (hs.mono.own hq S).symm⟩
  processing S g hg := by
    rw [(hs.shelf S).processing g hg, (hs.shelf S).holder g hg]
    exact h.processing S g hg
  start := h.start.imp (fun hq => (hs.mono.quiet hq).1) fun h0 S => (h0 S).trans (hs.shelf S)
  free S hf := (h.free S fun g hg => ((hs.shelf S).holder g hg).symm.trans (hf g hg)).congr
    hs.mono (hs.shelf S)
  docs S g hg hd := h.docs_of hs.mono hg (((hs.shelf S).isSome_iff hg).mp hd)
  buffered kind u hu := (he.buffered kind u hu).elim (h.buffered kind u) id

structure Stocks (N : NodeKey) (ρ : Run) (s₀ s : State) (S : Text) (s' : State) : Prop where
  mono : Mono N ρ s s'
  others : ∀ S', S' ≠ S → SameShelf N S' s s'
  enters : Enters N ρ s s'
  incomplete : ∀ g, InSession N S g → g ∈ s.incomplete → g ∈ s'.incomplete ∨ Finished s' g
  complete : ∀ g, InSession N S g → g ∈ s'.completeCache → g ∈ s.completeCache ∨ Finished s' g
  added : ∀ g, InSession N S g → s'.adds g ≤ 1 ∧ (s'.adds g = 1 → (s'.docs g).isSome)
  counted : ∀ g, InSession N S g → s'.counted g ≤ 1
  held : ∀ g w, InSession N S g → s'.holder g = some w → g = own N ρ s S
  processing : ∀ g, InSession N S g → (g ∈ s'.processing ↔ s'.holder g ≠ none)
  free : (∀ g, InSession N S g → s'.holder g = none) → Settled N ρ s₀ s' S
  docs : ∀ g, InSession N S g → (s'.docs g).isSome → (s.docs g).isSome ∨ g = own N ρ s S

lemma Inv.stocks (h : Inv N ρ s₀ s) (hq : Quiet N ρ s) (hs : Stocks N ρ s₀ s S s') :
    Inv N ρ s₀ s' := by
  have hm := hs.mono
  have hcount : ∀ S' g, InSession N S' g → s'.counted g ≤ 1 := by
    intro S' g hg
    by_cases hS : S' = S
    · exact hs.counted g (hS ▸ hg)
    · exact ((hs.others S' hS).counted g hg).trans_le (h.counted S' g hg)
  constructor
  case mapped =>
    intro m hm'
    rcases hs.enters.mapped m hm' with hm' | hm'
    · obtain ⟨-, ht⟩ := h.mapped m hm'
      exact ⟨(hm.quiet hq).1, hm.target ht⟩
    · exact hm'
  case stored =>
    intro x hx
    rcases hs.enters.stored x hx with hx | hx
    · obtain ⟨hg, hd, hk⟩ := h.stored x hx
      refine ⟨hg, hm.isSome hd, ?_⟩
      rcases hk with hi | hf
      · by_cases hS : x.2 = S
        · exact hs.incomplete x.1 (hS ▸ hg) hi
        · exact .inl (((hs.others _ hS).incomplete _ hg).mpr hi)
      · exact .inr (hm.finished (hcount _ _ hg) hf)
    · exact hx
  case cached =>
    intro S' g hg hc
    exact (hs.enters.cached S' g hg hc).elim (fun hc => hm.isSome (h.cached S' g hg hc)) id
  case complete =>
    intro S' g hg hc
    by_cases hS : S' = S
    · rcases hs.complete g (hS ▸ hg) hc with hc | hf
      · exact hm.finished (hcount S' g hg) (h.complete S' g hg hc)
      · exact hf
    · exact hm.finished (hcount S' g hg)
        (h.complete S' g hg (((hs.others S' hS).complete g hg).mp hc))
  case added =>
    intro S' g hg
    by_cases hS : S' = S
    · exact hs.added g (hS ▸ hg)
    · rw [(hs.others S' hS).adds g hg]
      exact ⟨(h.added S' g hg).1, fun h1 => hm.isSome ((h.added S' g hg).2 h1)⟩
  case counted => exact hcount
  case records =>
    intro S' g d p hg hd hp
    rcases hs.enters.records S' g d p hg hd hp with ⟨d', hd', hp'⟩ | ho
    · exact hm.objects (h.records S' g d' p hg hd' hp')
    · exact ho
  case held =>
    intro S' g w hg hw
    refine ⟨(hm.quiet hq).1, ?_⟩
    rw [hm.own hq S']
    by_cases hS : S' = S
    · subst hS
      exact hs.held g w hg hw
    · exact (h.held S' g w hg (((hs.others S' hS).holder g hg).symm.trans hw)).2
  case processing =>
    intro S' g hg
    by_cases hS : S' = S
    · exact hs.processing g (hS ▸ hg)
    · rw [(hs.others S' hS).processing g hg, (hs.others S' hS).holder g hg]
      exact h.processing S' g hg
  case start => exact .inl (hm.quiet hq).1
  case free =>
    intro S' hf
    by_cases hS : S' = S
    · subst hS
      exact hs.free hf
    · have hsh := hs.others S' hS
      exact (h.free S' fun g hg => (hsh.holder g hg).symm.trans (hf g hg)).congr hm hsh
  case docs =>
    intro S' g hg hd
    by_cases hS : S' = S
    · subst hS
      rcases hs.docs g hg hd with hd | ho
      · exact h.docs_of hm hg hd
      · exact .inr (ho.trans (hm.own hq S').symm)
    · exact h.docs_of hm hg (((hs.others S' hS).isSome_iff hg).mp hd)
  case buffered => exact fun kind u hu => (hs.enters.buffered kind u hu).elim (h.buffered kind u) id

lemma Stocks.rely {w w' : Nat} (h : Inv N ρ s₀ s) (hs : Stocks N ρ s₀ s S s') (hne : w' ≠ w)
    (hbefore : s.holder (own N ρ s S) = none ∨ s.holder (own N ρ s S) = some w)
    (hafter : s'.holder (own N ρ s S) = none ∨ s'.holder (own N ρ s S) = some w) :
    Rely N ρ w' s s' where
  mono := hs.mono
  kept S' g hg hw := by
    by_cases hS : S' = S
    · subst hS
      obtain rfl := (h.held S' g w' hg hw).2
      rcases hbefore with hb | hb <;> rw [hb] at hw <;> simp_all
    · exact hs.others S' hS
  taken S' g hg hw := by
    by_cases hS : S' = S
    · subst hS
      obtain rfl := hs.held g w' hg hw
      rcases hafter with hb | hb <;> rw [hb] at hw <;> simp_all
    · exact ((hs.others S' hS).holder g hg).symm.trans hw

end
end CloudServer.Ingest
