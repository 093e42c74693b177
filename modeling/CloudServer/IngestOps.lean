import CloudServer.IngestInv

/-! What each operation promises and what it keeps. -/
namespace CloudServer.Ingest

open List Option Function
open Acks (Kind Part Sid Run Key Reason Message)
open UploadBuffer (NodeKey Upload Placed)
open Scan (Text)

def Call.worker : Call → Option Nat
  | .node d => some d.worker
  | _ => none

def Call.session : Call → Text
  | .node d => d.session
  | .upload a => a.upload.session
  | _ => []

/-- The bundles of the node: one for its live messages and one for each import. -/
def OfNode (N : NodeKey) (ρ : Run) (k : Key) : Prop :=
  k.robot = N.robot ∧ k.run = ρ ∧ k.sid = N.sid

def Foreign (N : NodeKey) (ρ : Run) : Acks.Event → Prop
  | .begin k _ _ | .nodeOk k _ _ _ _ | .nodeFailed k _ _ _ | .nodeAbandoned k _ _
  | .partStored k _ | .partRejected k _ _ _ => ¬OfNode N ρ k
  | .flush | .seedState _ _ _ => True

/-- What storage holds when a handler of the node reports to the ack manager; of the node itself
only its deliveries do. -/
def Vouched (N : NodeKey) (ρ : Run) (w : Option Nat) (S : Text) (s : State) : Acks.Event → Prop
  | .begin k _ sid => w ≠ none ∧ OfNode N ρ k ∧ sid = some S
  | .nodeOk k _ sid _ truth => w ≠ none ∧ OfNode N ρ k ∧ sid = some S ∧
    ∃ g, InSession N S g ∧ Finished s g ∧ ∀ p ∈ truth, Durable s g p
  | .partStored k p => OfNode N ρ k ∧ ∃ g, Target N ρ s S g ∧ Durable s g p
  | _ => True

def Holds (N : NodeKey) (ρ : Run) (w : Option Nat) (S : Text) (s : State) : Prop :=
  Quiet N ρ s ∧ ∃ v, w = some v ∧ s.holder (own N ρ s S) = some v

/-- What a handler of worker `w` in session `S` promises of its operations. -/
def Allowed (N : NodeKey) (ρ : Run) (s₀ : State) (w : Option Nat) (S : Text) :
    Op → State → Prop
  | .detect node S' run _, _ => node = N ∧ S' = S ∧ run = ρ
  | .look v node S' run claim, s => w = some v ∧ node = N ∧ S' = S ∧ run = ρ ∧ Quiet N ρ s ∧
    claim = own N ρ s S
  | .cacheComplete g, s => Holds N ρ w S s ∧ InSession N S g ∧ Finished s g
  | .cacheNode g, s => ∀ S', InSession N S' g → (s.docs g).isSome
  | .addIncomplete g, s => Holds N ρ w S s ∧ InSession N S g
  | .restore node g S' _ _, s => node = N ∧ S' = S ∧ Quiet N ρ s ∧ InSession N S g ∧
    (s.docs g).isSome ∧ (g ∈ s.incomplete ∨ Finished s g)
  | .mapNode node g S' _ _, s => node = N ∧ S' = S ∧ Holds N ρ w S s ∧ g = own N ρ s S ∧
    s.docs g = none
  | .addNode g _, s => Holds N ρ w S s ∧ g = own N ρ s S ∧ s.docs g = none
  | .nodeStored node g S' _ _, s => node = N ∧ S' = S ∧ Holds N ρ w S s ∧ g = own N ρ s S ∧
    (s.docs g).isSome
  | .countNode g _, s => Holds N ρ w S s ∧ InSession N S g ∧ s.counted g = 0 ∧ Open N s₀ s S
  | .markComplete g _, s => Holds N ρ w S s ∧ InSession N S g ∧ (s.docs g).isSome
  | .discardIncomplete g, s => Holds N ρ w S s ∧ InSession N S g ∧ Finished s g
  | .release v claim, s => w = some v ∧ claim = own N ρ s S ∧ Holds N ρ w S s ∧
    Settled N ρ s₀ s S
  | .putUnless u _ _, _ => u.node = N ∧ u.run = ρ
  | .setRecords g parts _, s => ∀ p ∈ parts, (g, p) ∈ s.objects
  | .ack e _, s => Foreign N ρ e ∨ Vouched N ρ w S s e
  | _, _ => True

structure Core where
  docs : Gid → Option Doc
  objects : Finset (Gid × Part)
  nodeCount : Text → Nat
  incomplete : Finset Gid
  completeCache : Finset Gid
  processing : Finset Gid
  holder : Gid → Option Nat
  adds : Gid → Nat
  counted : Gid → Nat
  unmarked : Finset Gid

def State.core (s : State) : Core :=
  ⟨s.docs, s.objects, s.nodeCount, s.incomplete, s.completeCache, s.processing, s.holder, s.adds,
    s.counted, s.unmarked⟩

section Frames
variable {N : NodeKey} {ρ : Run} {s₀ s s' : State} {S : Text} {g : Gid}

lemma Quiet.mono (hq : Quiet N ρ s) (hr : s.runs.get N.robot ≠ none → s'.runs.get N.robot ≠ none)
    (hk : ∀ k ∈ s'.mapping.keys, k ∈ s.mapping.keys ∨ k = N) : Quiet N ρ s' := by
  rcases hq with h | h | h
  · exact .inl h
  · exact .inr (.inl (hr h))
  · refine .inr (.inr fun n m hn hm => ?_)
    rcases hk _ hm with hm | hm
    · exact h n m hn hm
    · have hmn := (congrArg NodeKey.sid hm).trans hn
      obtain rfl : m = n := by simpa using hmn
      omega

lemma sameShelf_of_core (h : s'.core = s.core) (S : Text) : SameShelf N S s s' := by
  simp only [State.core, Core.mk.injEq] at h
  obtain ⟨h1, h2, h3, h4, h5, h6, h7, h8, h9, h10⟩ := h
  constructor <;> intros <;> simp_all

lemma side_of_core (h : s'.core = s.core) (hh : s.handed ⊆ s'.handed)
    (hd : s.dropped ⊆ s'.dropped) (hp : s.replaced ⊆ s'.replaced)
    (hq : Quiet N ρ s → Quiet N ρ s' ∧ s'.epochs.get N.robot = s.epochs.get N.robot)
    (hr : ρ = none → ∀ r, s.runs.get N.robot = some r → s'.runs.get N.robot = some r) :
    Side N ρ s s' := by
  refine ⟨?_, sameShelf_of_core h⟩
  simp only [State.core, Core.mk.injEq] at h
  obtain ⟨h1, h2, h3, h4, h5, h6, h7, h8, h9, h10⟩ := h
  exact ⟨fun g d hgd => ⟨d, h1 ▸ hgd, fun _ hx => hx, id⟩, h2 ▸ fun _ hx => hx,
    h10 ▸ fun _ hx => hx, fun g => (congrFun h9 g).ge, hh, hd, hp, hq, hr⟩

lemma side_of_same (h : s'.core = s.core) (hh : s.handed ⊆ s'.handed)
    (hd : s.dropped ⊆ s'.dropped) (hp : s.replaced ⊆ s'.replaced) (hr : s'.runs = s.runs)
    (he : s'.epochs = s.epochs) (hk : ∀ k ∈ s'.mapping.keys, k ∈ s.mapping.keys ∨ k = N) :
    Side N ρ s s' :=
  side_of_core h hh hd hp (fun hq => ⟨hq.mono (by rw [hr]; exact id) hk, by rw [he]⟩)
    fun _ r h => by rw [hr]; exact h

lemma Enters.refl (N : NodeKey) (ρ : Run) (s : State) : Enters N ρ s s :=
  ⟨fun _ h => .inl h, fun _ h => .inl h, fun _ _ _ h => .inl h, fun _ _ d _ _ h hp => .inl ⟨d, h, hp⟩, fun _ _ h => .inl h⟩

lemma Enters.of_subset (hm : ∀ m, s'.mapping.get N = some m → s.mapping.get N = some m)
    (hs : ∀ x, s'.stored.get N = some x → s.stored.get N = some x)
    (hc : s'.nodeCache = s.nodeCache) (hd : s'.docs = s.docs)
    (hb : ∀ kind u, u ∈ (s'.buffers kind).held N → u ∈ (s.buffers kind).held N) :
    Enters N ρ s s' :=
  ⟨fun m h => .inl (hm m h), fun x h => .inl (hs x h), fun _ _ _ h => .inl (hc ▸ h),
    fun _ _ d _ _ h hp => .inl ⟨d, hd ▸ h, hp⟩, fun kind u h => .inl (hb kind u h)⟩

lemma Enters.of_eq (hm : s'.mapping = s.mapping) (hs : s'.stored = s.stored)
    (hc : s'.nodeCache = s.nodeCache) (hd : s'.docs = s.docs) (hb : s'.buffers = s.buffers) :
    Enters N ρ s s' :=
  .of_subset (by simp [hm]) (by simp [hs]) hc hd (by simp [hb])

lemma mem_keys_filter {p : NodeKey → Mapped → Bool} {d : Dict NodeKey Mapped} {k : NodeKey}
    (h : k ∈ (d.filter p).keys) : k ∈ d.keys := by
  obtain ⟨m, hm⟩ := Dict.mem_keys.mp h
  rw [Dict.get_filter] at hm
  exact Dict.mem_keys.mpr ⟨m, (filter_eq_some_iff.mp hm).1⟩

lemma probed_keeps (cfg : Config) (s : State) (robot : Text) (answer : Option (Option Text))
    (now : Int) : Side N ρ s (probed cfg s robot answer now) ∧ Enters N ρ s (probed cfg s robot answer now) := by
  have hruns : ∀ r, s.runs.get N.robot = some r →
      (probed cfg s robot answer now).runs.get N.robot = some r := by
    intro r hr
    unfold probed
    rcases answer with _ | _ | run
    · exact hr
    · exact hr
    · dsimp only
      split
      · rename_i hn
        rw [Dict.get_set]
        split
        · rename_i hk
          rw [← hk, hr] at hn
          simp at hn
        · exact hr
      · exact hr
  have hsame : (probed cfg s robot answer now).core = s.core ∧
      (probed cfg s robot answer now).mapping = s.mapping ∧
      (probed cfg s robot answer now).epochs = s.epochs ∧
      (probed cfg s robot answer now).stored = s.stored ∧
      (probed cfg s robot answer now).nodeCache = s.nodeCache ∧
      (probed cfg s robot answer now).buffers = s.buffers ∧
      (probed cfg s robot answer now).handed = s.handed ∧
      (probed cfg s robot answer now).dropped = s.dropped ∧
      (probed cfg s robot answer now).replaced = s.replaced := by
    rcases answer with _ | _ | run <;> exact ⟨rfl, rfl, rfl, rfl, rfl, rfl, rfl, rfl, rfl⟩
  generalize probed cfg s robot answer now = t at hruns hsame
  obtain ⟨hcore, hmap, hep, hst, hnc, hbuf, hh, hdr, hre⟩ := hsame
  refine ⟨side_of_core hcore (by rw [hh]; exact fun _ h => h) (by rw [hdr]; exact fun _ h => h)
    (by rw [hre]; exact fun _ h => h)
    (fun hq => ⟨hq.mono (fun h => ?_) (fun k hk => .inl (hmap ▸ hk)), by rw [hep]⟩)
    fun _ => hruns, ?_⟩
  · obtain ⟨r, hr⟩ := ne_none_iff_exists'.mp h
    rw [hruns r hr]
    exact some_ne_none r
  · exact .of_subset (fun m h => hmap ▸ h) (fun x h => hst ▸ h) hnc
      (congrArg Core.docs hcore) fun kind u h => hbuf ▸ h

lemma clearRobot_keeps (s : State) (robot : Text) (keep : Upload → Bool) :
    Side N ρ s (clearRobot s robot keep) ∧ Enters N ρ s (clearRobot s robot keep) := by
  refine ⟨side_of_same rfl (fun _ h => h) (fun _ h => h) (fun _ h => h) rfl rfl
    fun k hk => .inl (mem_keys_filter hk), .of_subset (fun m hm => ?_) (fun x hx => ?_) rfl rfl
    fun kind u hu => UploadBuffer.mem_held_retains hu⟩
  · simp only [clearRobot, Dict.get_filter] at hm
    exact (filter_eq_some_iff.mp hm).1
  · simp only [clearRobot, Dict.get_filter] at hx
    exact (filter_eq_some_iff.mp hx).1

lemma foldl_max {ks : List NodeKey} {a M : Int}
    (h : ks.foldl (fun m k => match m, k.sid with
      | some m, .int n => some (max m n)
      | _, _ => none) (some a) = some M) :
    a ≤ M ∧ (M = a ∨ ∃ k ∈ ks, k.sid = .int M) ∧ ∀ k ∈ ks, ∃ m, k.sid = .int m ∧ m ≤ M := by
  have hnone : ∀ ks : List NodeKey, ks.foldl (fun m k => match m, k.sid with
      | some m, .int n => some (max m n)
      | _, _ => none) (none : Option Int) = none := by
    intro ks
    induction ks with
    | nil => rfl
    | cons k ks ih => simpa using ih
  induction ks generalizing a with
  | nil =>
    obtain rfl : a = M := by simpa using h
    simp
  | cons k ks ih =>
    rw [foldl_cons] at h
    cases hk : k.sid with
    | text t =>
      simp only [hk] at h
      rw [hnone] at h
      cases h
    | int n =>
      simp only [hk] at h
      obtain ⟨hle, hM, hall⟩ := ih h
      refine ⟨by omega, ?_, ?_⟩
      · rcases hM with hM | ⟨k', hk', hs⟩
        · rcases max_cases a n with ⟨hmax, -⟩ | ⟨hmax, -⟩
          · exact .inl (by omega)
          · exact .inr ⟨k, by simp, by rw [hk]; congr 1; omega⟩
        · exact .inr ⟨k', by simp [hk'], hs⟩
      · intro k' hk'
        rcases mem_cons.mp hk' with rfl | hk'
        · exact ⟨n, hk, by omega⟩
        · exact hall k' hk'

lemma counterRestarted_iff {b : Bool} (h : counterRestarted s N = some b) :
    b = true ↔ ∃ n m, N.sid = .int n ∧ ⟨N.robot, .int m⟩ ∈ s.mapping.keys ∧ 0 ≤ m ∧ n < m := by
  unfold counterRestarted maxSessionId at h
  obtain ⟨M, hM, hb⟩ := bind_eq_some_iff.mp h
  obtain ⟨-, hmem, hall⟩ := foldl_max hM
  have hkey : ∀ m, (⟨N.robot, .int m⟩ : NodeKey) ∈ s.mapping.keys → m ≤ M := by
    intro m hm
    obtain ⟨m', hm', hle⟩ := hall ⟨N.robot, .int m⟩ (by simp [hm])
    obtain rfl : m = m' := by simpa using hm'
    exact hle
  by_cases h0 : 0 ≤ M
  · rw [if_pos h0] at hb
    cases hN : N.sid with
    | text t => simp [hN] at hb
    | int n =>
      obtain rfl : decide (n < M) = b := by simpa [hN] using hb
      rw [decide_eq_true_eq]
      constructor
      · intro hlt
        rcases hmem with hneg | ⟨k, hk, hs⟩
        · omega
        · rw [mem_filter, decide_eq_true_eq] at hk
          refine ⟨n, M, rfl, ?_, h0, hlt⟩
          rw [← hk.2, ← hs]
          exact hk.1
      · rintro ⟨n', m, hn', hm, -, hlt⟩
        obtain rfl : n = n' := by simpa using hn'
        exact hlt.trans_le (hkey m hm)
  · rw [if_neg h0] at hb
    obtain rfl : false = b := by simpa using hb
    simp only [Bool.false_eq_true, false_iff, not_exists]
    rintro n m ⟨-, hm, hpos, -⟩
    have := hkey m hm
    omega

lemma detect_keeps {token : Text} (h : detectAndClearSessionReset s N ρ token = some s') :
    Side N ρ s s' ∧ Enters N ρ s s' ∧ Quiet N ρ s' := by
  cases ρ with
  | some r =>
    have hset : Side N (some r) s { s with runs := s.runs.set N.robot r } :=
      side_of_core rfl (fun _ h => h) (fun _ h => h) (fun _ h => h)
        (fun _ => ⟨.inl (by simp), rfl⟩) (by simp)
    have hent : Enters N (some r) s { s with runs := s.runs.set N.robot r } :=
      .of_eq rfl rfl rfl rfl rfl
    simp only [detectAndClearSessionReset] at h
    split at h
    · cases h
      exact ⟨hset, hent, .inl (by simp)⟩
    · split at h
      · cases h
        exact ⟨hset, hent, .inl (by simp)⟩
      · cases h
        obtain ⟨hs2, he2⟩ := clearRobot_keeps (N := N) (ρ := some r)
          { s with runs := s.runs.set N.robot r } N.robot fun u => u.run = some r
        refine ⟨hset.trans hs2, .of_subset (fun m hm => ?_) (fun x hx => ?_) rfl rfl
          fun kind u hu => UploadBuffer.mem_held_retains hu, .inl (by simp)⟩
        · simp only [clearRobot, Dict.get_filter] at hm
          exact (filter_eq_some_iff.mp hm).1
        · simp only [clearRobot, Dict.get_filter] at hx
          exact (filter_eq_some_iff.mp hx).1
  | none =>
    simp only [detectAndClearSessionReset] at h
    split at h
    · rename_i hrun
      cases h
      refine ⟨.refl .., .refl .., .inr (.inl fun hn => ?_)⟩
      rw [hn] at hrun
      cases hrun
    · rename_i hrun
      obtain ⟨b, hb, hb'⟩ := map_eq_some_iff.mp h
      have hiff := counterRestarted_iff hb
      cases b with
      | false =>
        obtain rfl : s = s' := by simpa using hb'
        refine ⟨.refl .., .refl .., .inr (.inr fun n m hn hm hlt => ?_)⟩
        exact absurd (hiff.mpr ⟨n, m, hn, hm, hlt⟩) (by simp)
      | true =>
        obtain ⟨n, m, hn, hm, hlt⟩ := hiff.mp rfl
        have hnq : ¬Quiet N none s := by
          rintro (h1 | h1 | h1)
          · exact h1 rfl
          · exact hrun (isSome_iff_ne_none.mpr h1)
          · exact h1 n m hn hm hlt
        rw [if_pos rfl] at hb'
        subst hb'
        refine ⟨side_of_core rfl (fun _ h => h) (fun _ h => h) (fun _ h => h)
          (fun hq => absurd hq hnq) fun _ r hr => hr, .of_subset (fun m hm => ?_) (fun x hx => ?_)
          rfl rfl fun kind u hu => UploadBuffer.mem_held_retains hu, .inr (.inr fun n m _ hm => ?_)⟩
        · simp only [clearRobot, Dict.get_filter] at hm
          exact (filter_eq_some_iff.mp hm).1
        · simp only [clearRobot, Dict.get_filter] at hx
          exact (filter_eq_some_iff.mp hx).1
        · obtain ⟨x, hx⟩ := Dict.mem_keys.mp hm
          simp [clearRobot, Dict.get_filter] at hx

section Taking
variable (cfg : Config) (t : State) (kind : Kind) (node : NodeKey) (S' : Text) (run : Run)
variable (now : Int)

/-- What of the buffers a step may leave: the given kinds of the node are emptied. -/
def Emptied (kinds : List Kind) (node : NodeKey) (B B' : Kind → UploadBuffer.Buffer) : Prop :=
  (∀ kind ∈ kinds, (B' kind).held node = []) ∧ ∀ kind k, (B' kind).held k ⊆ (B kind).held k

lemma takeBuffered_snd : ∃ B, (takeBuffered cfg t kind node S' run now).2 = { t with buffers := B } ∧
    Emptied [kind] node t.buffers B := by
  refine ⟨_, rfl, ?_, fun k key u hu => ?_⟩
  · intro k hk
    obtain rfl := mem_singleton.mp hk
    rw [update_self]
    exact UploadBuffer.held_take
  · by_cases hk : k = kind
    · subst hk
      rw [update_self] at hu
      exact UploadBuffer.mem_held_take hu
    · rwa [update_of_ne hk] at hu

lemma mem_takeBuffered {u : Upload} (h : u ∈ (takeBuffered cfg t kind node S' run now).1) :
    u ∈ (t.buffers kind).held node ∧ u.session = S' := by
  obtain ⟨h1, h2⟩ := UploadBuffer.mem_take h
  exact ⟨h1, h2 S' rfl⟩

lemma Emptied.trans {ks ks' : List Kind} {B B' B'' : Kind → UploadBuffer.Buffer}
    (h : Emptied ks node B B') (h' : Emptied ks' node B' B'') : Emptied (ks ++ ks') node B B'' := by
  refine ⟨fun k hk => ?_, fun k key u hu => h.2 k key (h'.2 k key hu)⟩
  rcases mem_append.mp hk with hk | hk
  · refine eq_nil_iff_forall_not_mem.mpr fun u hu => ?_
    have := h'.2 k node hu
    rw [h.1 k hk] at this
    exact absurd this (not_mem_nil)
  · exact h'.1 k hk

def TakenOf (N : NodeKey) (S : Text) (B : Kind → UploadBuffer.Buffer) (kind : Kind)
    (us : List Upload) : Prop :=
  ∀ u ∈ us, u ∈ (B kind).held N ∧ u.session = S

lemma restore_spec (g : Gid) : ∃ images depth costmap B,
    perform cfg (.restore node g S' run now) t =
      ((images, depth, costmap), { restoreMemory t node g S' now with buffers := B }) ∧
    Emptied [.image, .depth, .costmap] node t.buffers B ∧ TakenOf node S' t.buffers .image images ∧
    TakenOf node S' t.buffers .depth depth ∧ TakenOf node S' t.buffers .costmap costmap := by
  let t0 := restoreMemory t node g S' now
  obtain ⟨B1, h1, e1⟩ := takeBuffered_snd cfg t0 .image node S' run now
  obtain ⟨B2, h2, e2⟩ := takeBuffered_snd cfg { t0 with buffers := B1 } .depth node S' run now
  obtain ⟨B3, h3, e3⟩ := takeBuffered_snd cfg { t0 with buffers := B2 } .costmap node S' run now
  refine ⟨(takeBuffered cfg t0 .image node S' run now).1,
    (takeBuffered cfg { t0 with buffers := B1 } .depth node S' run now).1,
    (takeBuffered cfg { t0 with buffers := B2 } .costmap node S' run now).1, B3, ?_,
    (e1.trans node e2).trans node e3, fun u hu => ?_, fun u hu => ?_, fun u hu => ?_⟩
  · simp only [perform]
    change ((_, (takeBuffered cfg (takeBuffered cfg t0 .image node S' run now).2 .depth node S' run now).1, _), _) = _
    rw [h1, h2]
    exact Prod.ext rfl h3
  · exact mem_takeBuffered cfg t0 .image node S' run now hu
  · obtain ⟨hm, hs⟩ := mem_takeBuffered cfg _ .depth node S' run now hu
    exact ⟨e1.2 _ _ hm, hs⟩
  · obtain ⟨hm, hs⟩ := mem_takeBuffered cfg _ .costmap node S' run now hu
    exact ⟨e1.2 _ _ (e2.2 _ _ hm), hs⟩

lemma mapNode_spec (g : Gid) : ∃ (images : List Upload) (B : _),
    perform cfg (.mapNode node g S' run now) t =
      (images, { t with stored := t.stored.erase node, mapping := t.mapping.set node ⟨g, now, S'⟩, buffers := B }) ∧
    Emptied [.image] node t.buffers B ∧ TakenOf node S' t.buffers .image images := by
  let t0 := { t with stored := t.stored.erase node, mapping := t.mapping.set node ⟨g, now, S'⟩ }
  obtain ⟨B, h, e⟩ := takeBuffered_snd cfg t0 .image node S' run now
  exact ⟨(takeBuffered cfg t0 .image node S' run now).1, B, Prod.ext rfl h, e,
    fun u hu => mem_takeBuffered cfg t0 .image node S' run now hu⟩

lemma nodeStored_spec (g : Gid) : ∃ depth costmap B,
    perform cfg (.nodeStored node g S' run now) t = ((depth, costmap),
      { t with stored := t.stored.set node (g, S'), incomplete := insert g t.incomplete, buffers := B }) ∧
    Emptied [.depth, .costmap] node t.buffers B ∧ TakenOf node S' t.buffers .depth depth ∧
    TakenOf node S' t.buffers .costmap costmap := by
  let t0 := { t with stored := t.stored.set node (g, S'), incomplete := insert g t.incomplete }
  obtain ⟨B1, h1, e1⟩ := takeBuffered_snd cfg t0 .depth node S' run now
  obtain ⟨B2, h2, e2⟩ := takeBuffered_snd cfg { t0 with buffers := B1 } .costmap node S' run now
  refine ⟨(takeBuffered cfg t0 .depth node S' run now).1,
    (takeBuffered cfg { t0 with buffers := B1 } .costmap node S' run now).1, B2, ?_,
    e1.trans node e2, fun u hu => ?_, fun u hu => ?_⟩
  · simp only [perform]
    change ((_, (takeBuffered cfg (takeBuffered cfg t0 .depth node S' run now).2 .costmap node S' run now).1), _) = _
    rw [h1]
    exact Prod.ext rfl h2
  · exact mem_takeBuffered cfg t0 .depth node S' run now hu
  · obtain ⟨hm, hs⟩ := mem_takeBuffered cfg _ .costmap node S' run now hu
    exact ⟨e1.2 _ _ hm, hs⟩

end Taking

lemma mem_keys_set_node {d : Dict NodeKey Mapped} {x : Mapped} {k : NodeKey}
    (h : k ∈ (d.set N x).keys) : k ∈ d.keys ∨ k = N := by
  rw [Dict.mem_keys_set] at h
  tauto

lemma restoreMemory_mapping (s : State) (N : NodeKey) (g : Gid) (S : Text) (now : Int) :
    (∃ t, (restoreMemory s N g S now).mapping.get N = some ⟨g, t, S⟩) ∧
      ∀ k ∈ (restoreMemory s N g S now).mapping.keys, k ∈ s.mapping.keys ∨ k = N := by
  unfold restoreMemory
  dsimp only
  split
  · rename_i hm
    refine ⟨?_, fun k hk => .inl hk⟩
    cases hs : s.mapping.get N with
    | none => simp [hs] at hm
    | some m =>
      obtain ⟨rfl, rfl⟩ : m.gid = g ∧ m.session = S := by simpa [hs] using hm
      exact ⟨m.since, rfl⟩
  · exact ⟨⟨now, by simp⟩, fun k hk => mem_keys_set_node hk⟩

def Op.shelf : Op → Bool
  | .look _ _ _ _ _ | .cacheComplete _ | .addIncomplete _ | .addNode _ _ | .nodeStored _ _ _ _ _
  | .countNode _ _ | .markComplete _ _ | .discardIncomplete _ | .release _ _ => true
  | _ => false

lemma ackEvent_keeps (cfg : Config) (e : Acks.Event) (clock : Nat → Int) :
    Side N ρ s (ackEvent cfg s e clock) ∧ Enters N ρ s (ackEvent cfg s e clock) :=
  ⟨side_of_same rfl (fun _ h => h) (fun _ h => h) (fun _ h => h) rfl rfl fun _ h => .inl h,
    .of_eq rfl rfl rfl rfl rfl⟩

lemma storeObject_keeps (u : Upload) (ok : Bool) :
    Side N ρ s (storeObject s g u ok).2 ∧ Enters N ρ s (storeObject s g u ok).2 := by
  unfold storeObject
  cases ok with
  | false =>
    exact ⟨side_of_same rfl (subset_append_left _ _) (fun _ h => h) (fun _ h => h) rfl rfl
      fun _ h => .inl h, .of_eq rfl rfl rfl rfl rfl⟩
  | true =>
    refine ⟨⟨⟨fun g d h => ⟨d, h, fun _ h => h, id⟩, Finset.subset_insert _ _, fun _ h => h,
      fun _ => le_rfl, subset_append_left _ _, fun _ h => h, fun _ h => h, fun h => ⟨h, rfl⟩,
      fun _ _ h => h⟩, fun S => ?_⟩, .of_eq rfl rfl rfl rfl rfl⟩
    constructor <;> intros <;> rfl

lemma setRecords_keeps {parts : List Part} {ok : Bool} (hp : ∀ p ∈ parts, (g, p) ∈ s.objects) :
    Side N ρ s (setRecords s g parts ok).2 ∧ Enters N ρ s (setRecords s g parts ok).2 := by
  unfold setRecords
  cases hd : s.docs g with
  | none => exact ⟨.refl .., .refl ..⟩
  | some d =>
    cases ok with
    | false => exact ⟨.refl .., .refl ..⟩
    | true =>
      have hdocs : ∀ k, update s.docs g (some ⟨d.marker, d.records ∪ parts⟩) k = s.docs k ∨
          k = g ∧ s.docs k = some d ∧ update s.docs g (some ⟨d.marker, d.records ∪ parts⟩) k
            = some ⟨d.marker, d.records ∪ parts⟩ := by
        intro k
        by_cases hk : k = g
        · subst hk
          exact .inr ⟨rfl, hd, update_self ..⟩
        · exact .inl (update_of_ne hk ..)
      refine ⟨⟨⟨fun k e he => ?_, fun _ h => h, fun _ h => h, fun _ => le_rfl, fun _ h => h,
        fun _ h => h, fun _ h => h, fun h => ⟨h, rfl⟩, fun _ _ h => h⟩, fun S => ?_⟩, ?_⟩
      · rcases hdocs k with hk | ⟨rfl, hk, hk'⟩
        · exact ⟨e, hk.trans he, fun _ h => h, id⟩
        · obtain rfl : d = e := by simpa [hk] using he
          exact ⟨_, hk', fun p hp => mem_union_iff.mpr (.inl hp), id⟩
      · constructor
        case docs =>
          intro k _
          rcases hdocs k with hk | ⟨rfl, hk, hk'⟩
          · exact congrArg _ hk
          · exact (congrArg _ hk').trans (congrArg (Option.map Doc.marker) hk).symm
        all_goals intros; rfl
      · refine ⟨fun _ h => .inl h, fun _ h => .inl h, fun _ _ _ h => .inl h, fun S k e p _ he hpe => ?_, fun _ _ h => .inl h⟩
        rcases hdocs k with hk | ⟨rfl, hk, hk'⟩
        · exact .inl ⟨e, hk.symm.trans he, hpe⟩
        · cases hk'.symm.trans he
          rcases mem_union_iff.mp hpe with h | h
          · exact .inl ⟨d, hk, h⟩
          · exact .inr (hp p h)

lemma putUnless_keeps (cfg : Config) {u : Upload} (known : Option Gid) (now : Int) (hn : u.node = N) (hr : u.run = ρ) :
    Side N ρ s (putUnless cfg s u known now).2 ∧ Enters N ρ s (putUnless cfg s u known now).2 := by
  refine ⟨side_of_same rfl (fun _ h => h) (fun _ h => h) (subset_append_left _ _) rfl rfl
    fun _ h => .inl h, fun _ h => .inl h, fun _ h => .inl h, fun _ _ _ h => .inl h,
    fun _ _ d _ _ h hp => .inl ⟨d, h, hp⟩, fun kind v hv => ?_⟩
  simp only [putUnless] at hv
  by_cases hk : kind = u.kind
  · subst hk
    rw [update_self] at hv
    rcases UploadBuffer.mem_held_putUnless hv with hv | ⟨rfl, -⟩
    · exact .inl hv
    · exact .inr ⟨hn, rfl, hr⟩
  · rw [update_of_ne hk] at hv
    exact .inl hv

lemma cleanup_keeps (threshold now : Int) : Side N ρ s (cleanupOldMappings s threshold now) ∧
    Enters N ρ s (cleanupOldMappings s threshold now) := by
  refine ⟨side_of_same rfl (fun _ h => h) (fun _ h => h) (fun _ h => h) rfl rfl
    fun k hk => .inl (mem_keys_filter hk), .of_subset (fun m hm => ?_) (fun x hx => ?_) rfl rfl
    fun kind u hu => UploadBuffer.mem_held_retains hu⟩
  · simp only [cleanupOldMappings, Dict.get_filter] at hm
    exact (filter_eq_some_iff.mp hm).1
  · simp only [cleanupOldMappings, Dict.get_filter] at hx
    exact (filter_eq_some_iff.mp hx).1

lemma restore_keeps (cfg : Config) {run : Run} {now : Int} (hq : Quiet N ρ s)
    (hg : InSession N S g) (hd : (s.docs g).isSome) (hk : g ∈ s.incomplete ∨ Finished s g) :
    Side N ρ s (perform cfg (.restore N g S run now) s).2 ∧ Enters N ρ s (perform cfg (.restore N g S run now) s).2 := by
  obtain ⟨images, depth, costmap, B, he, hB, -⟩ := restore_spec cfg s N S run now g
  rw [he]
  obtain ⟨⟨t, ht⟩, hkeys⟩ := restoreMemory_mapping s N g S now
  have hs : Side N ρ s { restoreMemory s N g S now with buffers := B } :=
    side_of_same rfl (fun _ h => h) (fun _ h => h) (fun _ h => h) rfl rfl hkeys
  refine ⟨hs, fun m hm => .inr ?_, fun x hx => .inr ?_, fun _ _ _ h => .inl h,
    fun _ _ d _ _ h hp => .inl ⟨d, h, hp⟩, fun kind u hu => .inl (hB.2 kind N hu)⟩
  · obtain rfl : ⟨g, t, S⟩ = m := Option.some.inj (ht.symm.trans hm)
    exact ⟨(hs.mono.quiet hq).1, hg, .inr hd⟩
  · have hx' : (s.stored.set N (g, S)).get N = some x := hx
    rw [Dict.get_set, if_pos rfl] at hx'
    cases hx'
    exact ⟨hg, hd, hk.imp_right fun hf => ⟨hf.counted, hf.stored, hf.marked⟩⟩

lemma mapNode_keeps (cfg : Config) {run : Run} {now : Int} (hq : Quiet N ρ s) :
    Side N ρ s (perform cfg (.mapNode N (own N ρ s S) S run now) s).2 ∧
      Enters N ρ s (perform cfg (.mapNode N (own N ρ s S) S run now) s).2 := by
  obtain ⟨images, B, he, hB, -⟩ := mapNode_spec cfg s N S run now (own N ρ s S)
  rw [he]
  have hs : Side N ρ s { s with stored := s.stored.erase N, buffers := B,
                                mapping := s.mapping.set N ⟨own N ρ s S, now, S⟩ } :=
    side_of_same rfl (fun _ h => h) (fun _ h => h) (fun _ h => h) rfl rfl
      fun k hk => mem_keys_set_node hk
  refine ⟨hs, fun m hm => .inr ?_, fun x hx => ?_, fun _ _ _ h => .inl h,
    fun _ _ d _ _ h hp => .inl ⟨d, h, hp⟩, fun kind u hu => .inl (hB.2 kind N hu)⟩
  · have hm' : (s.mapping.set N ⟨own N ρ s S, now, S⟩).get N = some m := hm
    rw [Dict.get_set, if_pos rfl] at hm'
    cases hm'
    exact ⟨(hs.mono.quiet hq).1, inSession_own N ρ s S, .inl ⟨(hs.mono.quiet hq).1, rfl⟩⟩
  · have hx' : (s.stored.erase N).get N = some x := hx
    simp at hx'

theorem perform_side (cfg : Config) {w : Option Nat} {o : Op} (ho : o.shelf = false) (ha : Allowed N ρ s₀ w S o s) :
    Side N ρ s (perform cfg o s).2 ∧ Enters N ρ s (perform cfg o s).2 := by
  have hrefl : Side N ρ s s ∧ Enters N ρ s s := ⟨.refl N ρ s, .refl N ρ s⟩
  cases o with
  | probing | unprobed | enroll | woken | nodeExists | isIncomplete | nodeIngestIncomplete
  | partsTruth | known | candidates | cached => exact hrefl
  | look | cacheComplete | addIncomplete | addNode | nodeStored | countNode | markComplete
  | discardIncomplete | release => cases ho
  | probed robot answer now => exact probed_keeps cfg s robot answer now
  | detect node S' run token =>
    obtain ⟨rfl, -, rfl⟩ := ha
    simp only [perform]
    cases hd : detectAndClearSessionReset s node run token with
    | none => exact hrefl
    | some s' =>
      obtain ⟨h1, h2, -⟩ := detect_keeps hd
      exact ⟨h1, h2⟩
  | cacheNode k =>
    refine ⟨side_of_same rfl (fun _ h => h) (fun _ h => h) (fun _ h => h) rfl rfl fun _ h => .inl h,
      fun _ h => .inl h, fun _ h => .inl h, fun S' g' hg' h => ?_,
      fun _ _ d _ _ h hp => .inl ⟨d, h, hp⟩, fun _ _ h => .inl h⟩
    rcases Finset.mem_insert.mp h with rfl | h
    · exact .inr (ha S' hg')
    · exact .inl h
  | restore node k S' run now =>
    obtain ⟨rfl, rfl, hq, hg, hd, hk⟩ := ha
    exact restore_keeps cfg hq hg hd hk
  | mapNode node k S' run now =>
    obtain ⟨rfl, rfl, hw, rfl, -⟩ := ha
    exact mapNode_keeps cfg hw.1
  | putUnless u known now => exact putUnless_keeps cfg known now ha.1 ha.2
  | storeObject k u ok => exact storeObject_keeps u ok
  | setRecords k parts ok => exact setRecords_keeps ha
  | pop kind node =>
    refine ⟨side_of_same rfl (fun _ h => h) (fun _ h => h) (fun _ h => h) rfl rfl fun _ h => .inl h,
      .of_subset (fun _ h => h) (fun _ h => h) rfl rfl fun k u hu => ?_⟩
    simp only [perform] at hu
    by_cases hk : k = kind
    · subst hk
      rw [update_self] at hu
      exact UploadBuffer.mem_held_pop hu
    · rwa [update_of_ne hk] at hu
  | drop us =>
    exact ⟨side_of_same rfl (fun _ h => h) (subset_append_left _ _) (fun _ h => h) rfl rfl
      fun _ h => .inl h, .of_eq rfl rfl rfl rfl rfl⟩
  | ack e clock => exact ackEvent_keeps cfg e clock
  | cleanup threshold now => exact cleanup_keeps threshold now

end Frames
end CloudServer.Ingest
