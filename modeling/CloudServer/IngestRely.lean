import CloudServer.IngestCalls

/-! What the handlers of one node's messages may count on: storage only grows, the holder of a
session's claim alone changes the node's documents and counts there. -/
namespace CloudServer.Ingest

open Acks (Kind Part Sid Run Key Reason Message)
open UploadBuffer (NodeKey Upload Placed)
open Scan (Text)

/-- A record of this node in this session. -/
def InSession (N : NodeKey) (S : Text) (g : Gid) : Prop :=
  g.robot = N.robot ∧ g.sid = N.sid ∧ g.session = S

def own (N : NodeKey) (ρ : Run) (s : State) (S : Text) : Gid := nodeGlobalId s N S ρ

def Complete (s : State) (g : Gid) : Prop := ∃ d, s.docs g = some d ∧ d.incomplete = false

structure Finished (s : State) (g : Gid) : Prop where
  counted : s.counted g = 1
  stored : (s.docs g).isSome
  marked : g ∈ s.unmarked ∨ Complete s g

def Quiet (N : NodeKey) (ρ : Run) (s : State) : Prop :=
  ρ ≠ none ∨ s.runs.get N.robot ≠ none ∨
    ∀ n m, N.sid = .int n → ⟨N.robot, .int m⟩ ∈ s.mapping.keys → ¬(0 ≤ m ∧ n < m)

/-- Where the uploads of a session may be saved: the node's own id, or a stored one. -/
def Target (N : NodeKey) (ρ : Run) (s : State) (S : Text) (g : Gid) : Prop :=
  InSession N S g ∧ (Quiet N ρ s ∧ g = own N ρ s S ∨ (s.docs g).isSome)

/-- The object is stored and, for depth and costmap, the record is on the node. -/
def Durable (s : State) (g : Gid) (p : Part) : Prop :=
  (g, p) ∈ s.objects ∧ (p.kind ≠ .image → ∃ d, s.docs g = some d ∧ p ∈ d.records)

structure SameShelf (N : NodeKey) (S : Text) (s s' : State) : Prop where
  docs : ∀ g, InSession N S g → (s'.docs g).map Doc.marker = (s.docs g).map Doc.marker
  counted : ∀ g, InSession N S g → s'.counted g = s.counted g
  adds : ∀ g, InSession N S g → s'.adds g = s.adds g
  incomplete : ∀ g, InSession N S g → (g ∈ s'.incomplete ↔ g ∈ s.incomplete)
  complete : ∀ g, InSession N S g → (g ∈ s'.completeCache ↔ g ∈ s.completeCache)
  processing : ∀ g, InSession N S g → (g ∈ s'.processing ↔ g ∈ s.processing)
  holder : ∀ g, InSession N S g → s'.holder g = s.holder g
  nodeCount : s'.nodeCount S = s.nodeCount S

structure Mono (N : NodeKey) (ρ : Run) (s s' : State) : Prop where
  docs : ∀ g d, s.docs g = some d → ∃ d', s'.docs g = some d' ∧ d.records ⊆ d'.records ∧
    (d.incomplete = false → d'.incomplete = false)
  objects : s.objects ⊆ s'.objects
  unmarked : s.unmarked ⊆ s'.unmarked
  counted : ∀ g, s.counted g ≤ s'.counted g
  handed : s.handed ⊆ s'.handed
  dropped : s.dropped ⊆ s'.dropped
  replaced : s.replaced ⊆ s'.replaced
  quiet : Quiet N ρ s → Quiet N ρ s' ∧ s'.epochs.get N.robot = s.epochs.get N.robot
  runs : ρ = none → ∀ r, s.runs.get N.robot = some r → s'.runs.get N.robot = some r

structure Rely (N : NodeKey) (ρ : Run) (w : Nat) (s s' : State) : Prop where
  mono : Mono N ρ s s'
  kept : ∀ S g, InSession N S g → s.holder g = some w → SameShelf N S s s'
  taken : ∀ S g, InSession N S g → s'.holder g = some w → s.holder g = some w

structure Side (N : NodeKey) (ρ : Run) (s s' : State) : Prop where
  mono : Mono N ρ s s'
  shelf : ∀ S, SameShelf N S s s'

section Relations
variable {N : NodeKey} {ρ : Run} {s s' s'' : State} {S : Text} {g : Gid}

lemma SameShelf.refl (N : NodeKey) (S : Text) (s : State) : SameShelf N S s s :=
  ⟨fun _ _ => rfl, fun _ _ => rfl, fun _ _ => rfl, fun _ _ => .rfl, fun _ _ => .rfl, fun _ _ => .rfl, fun _ _ => rfl, rfl⟩

lemma SameShelf.trans (h : SameShelf N S s s') (h' : SameShelf N S s' s'') :
    SameShelf N S s s'' where
  docs g hg := (h'.docs g hg).trans (h.docs g hg)
  counted g hg := (h'.counted g hg).trans (h.counted g hg)
  adds g hg := (h'.adds g hg).trans (h.adds g hg)
  incomplete g hg := (h'.incomplete g hg).trans (h.incomplete g hg)
  complete g hg := (h'.complete g hg).trans (h.complete g hg)
  processing g hg := (h'.processing g hg).trans (h.processing g hg)
  holder g hg := (h'.holder g hg).trans (h.holder g hg)
  nodeCount := h'.nodeCount.trans h.nodeCount

lemma Mono.refl (N : NodeKey) (ρ : Run) (s : State) : Mono N ρ s s where
  docs _ d hd := ⟨d, hd, fun _ h => h, id⟩
  objects _ h := h
  unmarked _ h := h
  counted _ := le_rfl
  handed _ h := h
  dropped _ h := h
  replaced _ h := h
  quiet h := ⟨h, rfl⟩
  runs _ _ h := h

lemma Mono.trans (h : Mono N ρ s s') (h' : Mono N ρ s' s'') : Mono N ρ s s'' where
  docs g d hd := by
    obtain ⟨d1, hd1, hr1, hc1⟩ := h.docs g d hd
    obtain ⟨d2, hd2, hr2, hc2⟩ := h'.docs g d1 hd1
    exact ⟨d2, hd2, fun p hp => hr2 (hr1 hp), fun hc => hc2 (hc1 hc)⟩
  objects _ hx := h'.objects (h.objects hx)
  unmarked _ hx := h'.unmarked (h.unmarked hx)
  counted g := (h.counted g).trans (h'.counted g)
  handed _ hx := h'.handed (h.handed hx)
  dropped _ hx := h'.dropped (h.dropped hx)
  replaced _ hx := h'.replaced (h.replaced hx)
  quiet hq := by
    obtain ⟨h1, he1⟩ := h.quiet hq
    obtain ⟨h2, he2⟩ := h'.quiet h1
    exact ⟨h2, he2.trans he1⟩
  runs hρ r hr := h'.runs hρ r (h.runs hρ r hr)

lemma Rely.refl (N : NodeKey) (ρ : Run) (w : Nat) (s : State) : Rely N ρ w s s :=
  ⟨.refl N ρ s, fun S _ _ _ => .refl N S s, fun _ _ _ h => h⟩

lemma Rely.trans {w : Nat} (h : Rely N ρ w s s') (h' : Rely N ρ w s' s'') : Rely N ρ w s s'' where
  mono := h.mono.trans h'.mono
  kept S g hg hw := by
    have h1 := h.kept S g hg hw
    exact h1.trans (h'.kept S g hg ((h1.holder g hg).trans hw))
  taken S g hg hw := h.taken S g hg (h'.taken S g hg hw)

lemma Side.refl (N : NodeKey) (ρ : Run) (s : State) : Side N ρ s s :=
  ⟨.refl N ρ s, fun S => .refl N S s⟩

lemma Side.trans (h : Side N ρ s s') (h' : Side N ρ s' s'') : Side N ρ s s'' :=
  ⟨h.mono.trans h'.mono, fun S => (h.shelf S).trans (h'.shelf S)⟩

lemma Side.rely (h : Side N ρ s s') (w : Nat) : Rely N ρ w s s' :=
  ⟨h.mono, fun S _ _ _ => h.shelf S, fun S g hg hw => ((h.shelf S).holder g hg).symm.trans hw⟩

lemma Mono.isSome (h : Mono N ρ s s') (hd : (s.docs g).isSome) : (s'.docs g).isSome := by
  obtain ⟨d, hd⟩ := Option.isSome_iff_exists.mp hd
  obtain ⟨d', hd', -⟩ := h.docs g d hd
  exact Option.isSome_iff_exists.mpr ⟨d', hd'⟩

lemma Mono.complete (h : Mono N ρ s s') (hc : Complete s g) : Complete s' g := by
  obtain ⟨d, hd, hi⟩ := hc
  obtain ⟨d', hd', -, hc'⟩ := h.docs g d hd
  exact ⟨d', hd', hc' hi⟩

lemma Mono.durable (h : Mono N ρ s s') {p : Part} (hp : Durable s g p) : Durable s' g p := by
  refine ⟨h.objects hp.1, fun hk => ?_⟩
  obtain ⟨d, hd, hr⟩ := hp.2 hk
  obtain ⟨d', hd', hsub, -⟩ := h.docs g d hd
  exact ⟨d', hd', hsub hr⟩

lemma Mono.finished (h : Mono N ρ s s') (hle : s'.counted g ≤ 1) (hf : Finished s g) :
    Finished s' g where
  counted := le_antisymm hle (hf.counted ▸ h.counted g)
  stored := h.isSome hf.stored
  marked := hf.marked.imp (fun hu => h.unmarked hu) h.complete

lemma own_congr (h : s'.epochs.get N.robot = s.epochs.get N.robot) (S : Text) :
    own N ρ s' S = own N ρ s S := by
  simp [own, nodeGlobalId, h]

lemma Mono.own (h : Mono N ρ s s') (hq : Quiet N ρ s) (S : Text) : own N ρ s' S = own N ρ s S := own_congr (h.quiet hq).2 S

lemma Mono.target (h : Mono N ρ s s') (ht : Target N ρ s S g) : Target N ρ s' S g := by
  obtain ⟨hg, ⟨hq, ho⟩ | hd⟩ := ht
  · exact ⟨hg, .inl ⟨(h.quiet hq).1, ho.trans (h.own hq S).symm⟩⟩
  · exact ⟨hg, .inr (h.isSome hd)⟩

lemma inSession_own (N : NodeKey) (ρ : Run) (s : State) (S : Text) : InSession N S (own N ρ s S) := ⟨rfl, rfl, rfl⟩

lemma InSession.unique {S' : Text} (h : InSession N S g) (h' : InSession N S' g) : S = S' :=
  h.2.2.symm.trans h'.2.2

lemma SameShelf.isSome_iff (h : SameShelf N S s s') (hg : InSession N S g) :
    (s'.docs g).isSome ↔ (s.docs g).isSome := by
  have hm := congrArg Option.isSome (h.docs g hg)
  rw [Option.isSome_map, Option.isSome_map] at hm
  rw [hm]

lemma SameShelf.complete_iff (h : SameShelf N S s s') (hg : InSession N S g) :
    Complete s' g ↔ Complete s g := by
  have hm := h.docs g hg
  unfold Complete Doc.incomplete
  cases hs : s.docs g <;> cases hs' : s'.docs g <;> simp_all

lemma inSession_nodeGlobalId (s : State) (N : NodeKey) (S : Text) (run : Run) :
    InSession N S (nodeGlobalId s N S run) := ⟨rfl, rfl, rfl⟩

lemma inSession_of_candidate {run : Run} {parts : Bool} (h : g ∈ candidateIds s N S run parts) :
    InSession N S g := by
  unfold candidateIds at h
  rw [List.mem_dedup, List.mem_map] at h
  obtain ⟨r, -, rfl⟩ := h
  exact inSession_nodeGlobalId s N S r

lemma own_mem_candidateIds (s : State) (N : NodeKey) (ρ : Run) (S : Text) :
    own N ρ s S ∈ candidateIds s N S ρ false := by
  unfold candidateIds own
  rw [List.mem_dedup, List.mem_map]
  refine ⟨ρ, ?_, rfl⟩
  cases ρ with
  | some r => simp
  | none => cases s.runs.get N.robot <;> simp

lemma Mono.candidate (h : Mono N ρ s s') (hq : Quiet N ρ s)
    (hg : g ∈ candidateIds s N S ρ false) : g ∈ candidateIds s' N S ρ false := by
  have heq : ∀ run, nodeGlobalId s' N S run = nodeGlobalId s N S run := by
    intro run
    simp [nodeGlobalId, (h.quiet hq).2]
  unfold candidateIds at hg ⊢
  rw [List.mem_dedup, List.mem_map] at hg ⊢
  obtain ⟨r, hr, rfl⟩ := hg
  refine ⟨r, ?_, heq r⟩
  cases ρ with
  | some r' => simpa using hr
  | none =>
    cases hc : s.runs.get N.robot with
    | none =>
      obtain rfl : r = none := by simpa [hc] using hr
      cases s'.runs.get N.robot <;> simp
    | some c =>
      rw [h.runs rfl c hc]
      simpa [hc] using hr

end Relations
end CloudServer.Ingest
