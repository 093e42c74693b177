import CloudServer.IngestHandlers
import CloudServer.Execution

/-! Every interleaving of calls about one node, from a start at which memory does not know the
node. -/
namespace CloudServer.Ingest

open Acks (Kind Part Sid Run Key Reason Message)
open UploadBuffer (NodeKey Upload Placed)
open Scan (Text)
open Interact (Prog Contract Safe Good Move next)

abbrev System := Interact.Sys Op Res State ℕ Call (Option Gid) Unit

abbrev Runs (cfg : Config) (cond : System → Move ℕ Call → Prop) :=
  Interact.Run (perform cfg) body () cond

def idle (s : State) : System := ⟨s, fun _ => (), fun _ => none⟩

def Named (N : NodeKey) (ρ : Run) (i : ℕ) (c : Call) : Prop :=
  Admitted N ρ c ∧ ∀ v, c.worker = some v → v = i

def Serves (N : NodeKey) (ρ : Run) : Move ℕ Call → Prop
  | .start i c => Named N ρ i c
  | .crash _ => False
  | _ => True

/-- A node that no worker handles and no cache knows. -/
structure Start (N : NodeKey) (ρ : Run) (s : State) : Prop where
  mapping : s.mapping.get N = none
  stored : s.stored.get N = none
  memory : ∀ S g, InSession N S g → g ∉ s.nodeCache ∧ g ∉ s.completeCache ∧ g ∉ s.incomplete ∧
    g ∉ s.processing
  fresh : ∀ S g, InSession N S g → s.holder g = none ∧ s.adds g = 0 ∧ g ∉ s.unmarked
  counted : ∀ S g, InSession N S g → (Complete s g → s.counted g = 1) ∧
    (¬Complete s g → s.counted g = 0)
  records : ∀ S g d p, InSession N S g → s.docs g = some d → p ∈ d.records → (g, p) ∈ s.objects
  buffered : ∀ kind u, u ∈ (s.buffers kind).held N → u.node = N ∧ u.kind = kind ∧ u.run = ρ
  trackers : ∀ k e, s.acks.entries.get k = some e → ¬OfNode N ρ k
  sent : s.sent = []

def AllNamed (N : NodeKey) (ρ : Run) (T : System) : Prop :=
  ∀ i f, T.flight i = some f → Named N ρ i f.kind

structure Sane (cfg : Config) (N : NodeKey) (ρ : Run) (s₀ : State) (T : System) : Prop where
  named : AllNamed N ρ T
  good : Good (perform cfg) (contract N ρ s₀) (Inv N ρ s₀) (fun _ _ => True) (Ended N ρ) T

section
variable {cfg : Config} {N : NodeKey} {ρ : Run} {s₀ s s' : State} {T U : System} {S : Text}
variable {g : Gid} {cond : System → Move ℕ Call → Prop}

lemma Start.inv (h : Start N ρ s₀) : Inv N ρ s₀ s₀ := by
  have hopen : ∀ S, Open N s₀ s₀ S := by
    intro S
    refine ⟨rfl, fun _ _ => rfl, fun g hg h1 => ⟨(h.memory S g hg).2.2.1, ?_⟩, fun g hg h1 =>
      ⟨fun hc => h1 ((h.counted S g hg).1 hc), (h.memory S g hg).2.1⟩⟩
    by_contra hc
    rw [(h.counted S g hg).2 hc] at h1
    cases h1
  constructor
  case mapped => exact fun m hm => by simp [h.mapping] at hm
  case stored => exact fun x hx => by simp [h.stored] at hx
  case cached => exact fun S g hg hc => absurd hc (h.memory S g hg).1
  case complete => exact fun S g hg hc => absurd hc (h.memory S g hg).2.1
  case added => exact fun S g hg => by simp [(h.fresh S g hg).2.1]
  case counted =>
    intro S g hg
    by_cases hc : Complete s₀ g
    · exact ((h.counted S g hg).1 hc).le
    · simp [(h.counted S g hg).2 hc]
  case records => exact h.records
  case held => exact fun S g w hg hw => by simp [(h.fresh S g hg).1] at hw
  case processing =>
    intro S g hg
    simp [(h.fresh S g hg).1, (h.memory S g hg).2.2.2]
  case start => exact .inr fun S => .refl N S s₀
  case free => exact fun S _ => .inl (hopen S)
  case docs => exact fun S g _ hd => .inl hd
  case buffered => exact h.buffered

variable {i : ℕ} {c : Call} {o : Op} {own : Log} {k : Res o → Handler (Option Gid × Unit)}

lemma op_respects (hn : AllNamed N ρ T) (hi : Inv N ρ s₀ T.store)
    (hf : T.flight i = some ⟨c, .call o k, own⟩)
    (hg : (contract N ρ s₀ c).guar own o T.store) :
    Inv N ρ s₀ (perform cfg o T.store).2 ∧ ∀ j d p own', j ≠ i → T.flight j = some ⟨d, p, own'⟩ →
      (contract N ρ s₀ d).rely own' T.store (perform cfg o T.store).2 := by
  obtain ⟨h1, h2, h3⟩ := perform_keeps cfg hi hg.1
  refine ⟨h1, fun j d p own' hj hfj => ⟨h2, fun v hv => h3 v fun hw => ?_⟩⟩
  have h4 := (hn i _ hf).2 v hw
  have h5 := (hn j _ hfj).2 v hv
  exact hj (h5.symm.trans h4)

theorem Runs.sane (h0 : Start N ρ s₀) (hcond : ∀ S m, cond S m → Serves N ρ m)
    (h : Runs cfg cond (idle s₀) T) : Sane cfg N ρ s₀ T := by
  have hkeep : ∀ S m U, cond S m → AllNamed N ρ S → next (perform cfg) body () S m = some U →
      AllNamed N ρ U := by
    intro S m U hc hS hn
    refine Interact.next_kind (Named N ρ) m hn (fun i c hm => ?_) hS
    subst hm
    exact hcond S _ hc
  have hnamed := Interact.Run.strengthen (J := AllNamed N ρ) h (fun i f hf => by cases hf) hkeep
  refine ⟨hnamed.2, ?_⟩
  have h1 : Good (perform cfg) (contract N ρ s₀) (Inv N ρ s₀) (fun _ _ => True) (Ended N ρ)
      (idle s₀) := ⟨h0.inv, fun i c p own hf => (by cases hf), fun _ _ => trivial⟩
  refine Interact.Run.good (C := contract N ρ s₀) (fun _ _ hi => hi) (fun _ => contract_refl)
    (fun _ => contract_trans) (fun S i c hc _ _ _ => ?_) (fun S i c o k own hc hS hf hg => ?_)
    (fun _ _ _ _ _ => trivial) (fun _ => trivial) h1 hnamed.1
  · have hn : Named N ρ i c := hcond S _ hc.1
    exact safe_body hn.1
  · obtain ⟨h1, h2⟩ := op_respects hc.2 hS.inv hf hg
    exact ⟨h1, h2, fun _ _ => trivial⟩

lemma Sane.guar (h : Sane cfg N ρ s₀ T) (hf : T.flight i = some ⟨c, .call o k, own⟩) :
    Allowed N ρ s₀ c.worker c.session o T.store ∧ Claims N c own T.store :=
  (h.good.safe i c _ own hf T.store (contract_refl own _) h.good.inv).1

lemma Sane.ended (h : Sane cfg N ρ s₀ T) {x : Option Gid × Unit}
    (hf : T.flight i = some ⟨c, .done x, own⟩) : Ended N ρ c own x T.store :=
  h.good.safe i c _ own hf T.store (contract_refl own _) h.good.inv

lemma Sane.claims (h : Sane cfg N ρ s₀ T) {f : Interact.Flight Op Res Call (Option Gid × Unit)}
    (hf : T.flight i = some f) : Claims N f.kind f.own T.store := by
  obtain ⟨c, p, own⟩ := f
  cases p with
  | done x =>
    intro g hg
    rw [(h.ended hf).idle] at hg
    cases hg
  | call o k => exact (h.guar hf).2

theorem Runs.keeps (h0 : Start N ρ s₀) (hcond : ∀ S m, cond S m → Serves N ρ m) {P : State → Prop}
    (hP : P s₀) (hop : ∀ T i c o k own, cond T (.op i) → Sane cfg N ρ s₀ T →
      T.flight i = some ⟨c, .call o k, own⟩ → Allowed N ρ s₀ c.worker c.session o T.store →
      Inv N ρ s₀ (perform cfg o T.store).2 → Mono N ρ T.store (perform cfg o T.store).2 →
      P T.store → P (perform cfg o T.store).2)
    (h : Runs cfg cond (idle s₀) T) : P T.store := by
  induction h with
  | refl => exact hP
  | @tail T U m hT hc hn ih =>
    rcases Interact.next_store m hn with hs | ⟨i, c, o, k, own, rfl, hf, hs⟩
    · exact hs ▸ ih
    · have hsane := Runs.sane h0 hcond hT
      have hg := hsane.guar hf
      obtain ⟨hi, hm, -⟩ := perform_keeps cfg hsane.good.inv hg.1
      exact hs ▸ hop T i c o k own hc hsane hf hg.1 hi hm ih

structure Frame (o : Op) (s s' : State) : Prop where
  told : (∀ e clock, o ≠ .ack e clock) → s'.acks = s.acks ∧ s'.sent = s.sent
  tallied : (∀ g, o ≠ .countNode g true) → s'.nodeCount = s.nodeCount ∧ s'.counted = s.counted
  unmarked : (∀ g ok, o ≠ .markComplete g ok) → s'.unmarked = s.unmarked

lemma frame_of_same (ha : s'.acks = s.acks) (hs : s'.sent = s.sent)
    (hn : s'.nodeCount = s.nodeCount) (hc : s'.counted = s.counted)
    (hu : s'.unmarked = s.unmarked) : Frame o s s' :=
  ⟨fun _ => ⟨ha, hs⟩, fun _ => ⟨hn, hc⟩, fun _ => hu⟩

lemma detect_frame {node : NodeKey} {run : Run} {token : Text}
    (h : detectAndClearSessionReset s node run token = some s') (o : Op) : Frame o s s' := by
  unfold detectAndClearSessionReset at h
  cases run with
  | some r =>
    simp only at h
    split at h
    · cases h
      exact frame_of_same rfl rfl rfl rfl rfl
    · split at h <;> cases h <;> exact frame_of_same rfl rfl rfl rfl rfl
  | none =>
    simp only at h
    split at h
    · cases h
      exact frame_of_same rfl rfl rfl rfl rfl
    · obtain ⟨b, -, rfl⟩ := Option.map_eq_some_iff.mp h
      cases b <;> exact frame_of_same rfl rfl rfl rfl rfl

theorem perform_frame (cfg : Config) (o : Op) (s : State) : Frame o s (perform cfg o s).2 := by
  cases o with
  | ack e clock => exact ⟨fun h => absurd rfl (h e clock), fun _ => ⟨rfl, rfl⟩, fun _ => rfl⟩
  | countNode g ok =>
    cases ok with
    | true => exact ⟨fun _ => ⟨rfl, rfl⟩, fun h => absurd rfl (h g), fun _ => rfl⟩
    | false => exact frame_of_same rfl rfl rfl rfl rfl
  | markComplete g ok =>
    simp only [perform, markComplete]
    cases s.docs g <;> cases ok <;>
      exact ⟨fun _ => ⟨rfl, rfl⟩, fun _ => ⟨rfl, rfl⟩, fun h => absurd rfl (h g _)⟩
  | probed robot answer now =>
    rcases answer with _ | _ | r <;> exact frame_of_same rfl rfl rfl rfl rfl
  | detect node S run token =>
    simp only [perform]
    cases hd : detectAndClearSessionReset s node run token with
    | none => exact frame_of_same rfl rfl rfl rfl rfl
    | some t => exact detect_frame hd _
  | look v node S run claim =>
    rcases look_cases s v node S run claim with ⟨k, hl, -⟩ | ⟨k, hl⟩ | ⟨hl, -⟩ <;>
      simp only [perform, hl] <;> exact frame_of_same rfl rfl rfl rfl rfl
  | restore node g S run now =>
    obtain ⟨images, depth, costmap, B, he, -⟩ := restore_spec cfg s node S run now g
    rw [he]
    exact frame_of_same rfl rfl rfl rfl rfl
  | mapNode node g S run now =>
    obtain ⟨images, B, he, -⟩ := mapNode_spec cfg s node S run now g
    rw [he]
    exact frame_of_same rfl rfl rfl rfl rfl
  | nodeStored node g S run now =>
    obtain ⟨depth, costmap, B, he, -⟩ := nodeStored_spec cfg s node S run now g
    rw [he]
    exact frame_of_same rfl rfl rfl rfl rfl
  | addNode g fate => cases fate <;> exact frame_of_same rfl rfl rfl rfl rfl
  | storeObject g u ok => cases ok <;> exact frame_of_same rfl rfl rfl rfl rfl
  | setRecords g parts ok =>
    simp only [perform, setRecords]
    cases s.docs g <;> cases ok <;> exact frame_of_same rfl rfl rfl rfl rfl
  | _ => exact frame_of_same rfl rfl rfl rfl rfl

end
end CloudServer.Ingest
