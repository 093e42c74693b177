import CloudServer.AckTruth
import CloudServer.IngestRuns

/-! A node that is sent any number of times is stored and counted once, and every claim on it is
given up by the delivery that took it. -/
namespace CloudServer.Ingest

open Acks (Kind Part Sid Run Key Reason Message Backing Backed Tells Says)
open UploadBuffer (NodeKey Upload Placed)
open Scan (Text)
open Interact (Prog Contract Safe Good Move next Execution)

def InSessionOnly (S : Text) (c : Call) : Prop := ∀ d, c = .node d → d.session = S

/-- Deliveries of one node of one session, with any uploads for it, reports about other nodes and
the upkeep of memory; none is cancelled. -/
def Delivers (N : NodeKey) (ρ : Run) (S : Text) (_ : System) : Move ℕ Call → Prop
  | .start i c => Named N ρ i c ∧ InSessionOnly S c
  | .crash _ => False
  | _ => True

def Tally (N : NodeKey) (s₀ : State) (S : Text) (s : State) : Prop :=
  s.nodeCount S = s₀.nodeCount S ∧ (∀ g, InSession N S g → s.counted g = s₀.counted g) ∨
    s.nodeCount S = s₀.nodeCount S + 1

structure Told (B : Backing) (s : State) : Prop where
  backed : Backed B s.acks
  sent : ∀ a, Message.ack a ∈ s.sent → Tells B a

def Ingested (N : NodeKey) (ρ : Run) (S : Text) (s : State) : Backing where
  node k _ := OfNode N ρ k → ∃ g, InSession N S g ∧ Finished s g
  part _ _ _ := True
  manifest _ _ := True

section
variable {cfg : Config} {N : NodeKey} {ρ : Run} {s₀ s s' : State} {S : Text} {T : System} {g : Gid}

lemma Delivers.serves (S' : System) (m : Move ℕ Call) (h : Delivers N ρ S S' m) :
    Serves N ρ m := by
  cases m with
  | start i c => exact h.1
  | op i | finish i => trivial
  | crash i => exact h

variable {i j n : ℕ} {o : Op} {w : Option ℕ}

lemma Told.step {B B' : Backing} (h : Told B s) (hle : B.Le B')
    (hs : ∀ e clock, o = .ack e clock → Says B s.acks e) : Told B' (perform cfg o s).2 := by
  by_cases ho : ∃ e clock, o = .ack e clock
  · obtain ⟨e, clock, rfl⟩ := ho
    obtain ⟨hb, ht⟩ := @Acks.apply_honest B s.acks cfg.acks h.backed clock e (hs e clock rfl)
    refine ⟨hb.le hle, fun a ha => ?_⟩
    rcases List.mem_append.mp ha with ha | ha
    · exact (h.sent a ha).le hle
    · exact (ht a ha).le hle
  · have hf := (perform_frame cfg o s).told fun e clock he => ho ⟨e, clock, he⟩
    refine ⟨(h.backed.le hle).congr (congrArg _ hf.1), fun a ha => ?_⟩
    rw [hf.2] at ha
    exact (h.sent a ha).le hle

lemma Tally.le (h : Tally N s₀ S s) : s.nodeCount S ≤ s₀.nodeCount S + 1 := by
  rcases h with ⟨h, -⟩ | h <;> omega

lemma Tally.step {S' : Text} (h : Tally N s₀ S s)
    (ha : Allowed N ρ s₀ w S' o s) : Tally N s₀ S (perform cfg o s).2 := by
  by_cases ho : ∃ g, o = .countNode g true
  · obtain ⟨g, rfl⟩ := ho
    obtain ⟨-, hg, -, hopen⟩ := ha
    by_cases hS : S' = S
    · subst hS
      refine .inr ?_
      simp [perform, countNode, hg.2.2, hopen.nodeCount]
    · have hne : ∀ k, InSession N S k → k ≠ g := fun k hk he => hS ((he ▸ hg).unique hk)
      have hn : (countNode s g).nodeCount S = s.nodeCount S := by
        simp [countNode, hg.2.2, Ne.symm hS]
      rcases h with ⟨h1, h2⟩ | h1
      · refine .inl ⟨hn.trans h1, fun k hk => ?_⟩
        exact (Function.update_of_ne (hne k hk) ..).trans (h2 k hk)
      · exact .inr (hn.trans h1)
  · have hf := (perform_frame cfg o s).tallied fun g he => ho ⟨g, he⟩
    unfold Tally at h ⊢
    rw [hf.1, hf.2]
    exact h

structure Kept (N : NodeKey) (ρ : Run) (s₀ : State) (S : Text) (s : State) : Prop where
  tally : Tally N s₀ S s
  told : Told (Ingested N ρ S s) s

variable {f f' : Interact.Flight Op Res Call (Option Gid × Unit)}

lemma Sane.holds (h : Sane cfg N ρ s₀ T) (hf : T.flight i = some f) (hg : holding f.own = some g) :
    g = own N ρ T.store f.kind.session ∧ T.store.holder g = some i := by
  obtain ⟨hS, v, hv, hh⟩ := h.claims hf g hg
  obtain rfl := (h.named i f hf).2 v hv
  exact ⟨(h.good.inv.held _ g v hS hh).2, hh⟩

end

/-! A node that is sent three times: stored, turned away meanwhile, and found again. -/
section Sample

def blank : State where
  mapping := .empty
  stored := .empty
  nodeCache := ∅
  processing := ∅
  runs := .empty
  epochs := .empty
  incomplete := ∅
  completeCache := ∅
  releases _ := 0
  runProbed := ∅
  probeRetry := .empty
  buffers _ := .empty
  acks := .init
  sent := []
  docs _ := none
  objects := ∅
  nodeCount _ := 0
  holder _ := none
  adds _ := 0
  counted _ := 0
  unmarked := ∅
  handed := []
  dropped := []
  replaced := []

def calm : Luck where
  robotRaises := false
  lastRun := some none
  token := []
  slots := 0
  lookup _ := true
  marker _ := true
  add := .written
  edges := true
  object _ := true
  records _ := true
  count := true
  mark := true
  truthDoc := true
  truthList := true
  publishRaises := false
  clock _ n := n

def sampleConfig : Config :=
  ⟨⟨10000, 100, 1000⟩, fun _ => ⟨none, none⟩, 10000, 1000⟩

def sampleNode : NodeKey := ⟨['r'], .int 1⟩

def sampleDelivery (worker : ℕ) (session : Text) (manifest : Option (List Part)) : Delivery :=
  ⟨worker, sampleNode, session, some ['a'], none, manifest, none, calm⟩

/-- The second delivery meets the claim of the first, the third finds the node stored. -/
def sampleMoves : List (Move ℕ Call) :=
  let first : Move ℕ Call := .start 0 (.node (sampleDelivery 0 ['s'] none))
  let again : Move ℕ Call := .start 1 (.node (sampleDelivery 1 ['s'] none))
  [first, .op 0, .op 0, .op 0, again, .op 1, .op 1, .op 1, .finish 1] ++
    List.replicate 11 (.op 0) ++ [.finish 0, again] ++ List.replicate 6 (.op 1) ++ [.finish 1]

end Sample
end CloudServer.Ingest
