import CloudServer.IngestOps

/-! The operations of a holder: claiming, adding, counting, completing and releasing a node. -/
namespace CloudServer.Ingest

open Function
open Acks (Kind Part Sid Run Key Reason Message)
open UploadBuffer (NodeKey Upload Placed)
open Scan (Text)

variable {N : NodeKey} {ρ : Run} {s₀ s s' : State} {S : Text} {g : Gid} {w : Option Nat}

lemma Stocks.of_held (h : Inv N ρ s₀ s) (hw : Holds N ρ w S s) (mono : Mono N ρ s s')
    (others : ∀ S', S' ≠ S → SameShelf N S' s s') (enters : Enters N ρ s s')
    (holder : s'.holder = s.holder) (processing : s'.processing = s.processing)
    (incomplete : ∀ g, InSession N S g → g ∈ s.incomplete → g ∈ s'.incomplete ∨ Finished s' g)
    (complete : ∀ g, InSession N S g → g ∈ s'.completeCache → g ∈ s.completeCache ∨ Finished s' g)
    (added : ∀ g, InSession N S g → s'.adds g ≤ 1 ∧ (s'.adds g = 1 → (s'.docs g).isSome))
    (counted : ∀ g, InSession N S g → s'.counted g ≤ 1)
    (docs : ∀ g, InSession N S g → (s'.docs g).isSome → (s.docs g).isSome ∨ g = own N ρ s S) :
    Stocks N ρ s₀ s S s' where
  mono := mono
  others := others
  enters := enters
  incomplete := incomplete
  complete := complete
  added := added
  counted := counted
  held g v hg hv := (h.held S g v hg (holder ▸ hv)).2
  processing g hg := by
    rw [processing, holder]
    exact h.processing S g hg
  free hf := by
    obtain ⟨-, v, -, hv⟩ := hw
    have := hf _ (inSession_own N ρ s S)
    rw [holder, hv] at this
    cases this
  docs := docs

lemma InSession.ne {S' : Text} {k : Gid} (hg : InSession N S g) (hk : InSession N S' k)
    (hS : S' ≠ S) : k ≠ g := by
  rintro rfl
  exact hS (hk.unique hg)

lemma Mono.of_same (hd : s'.docs = s.docs) (ho : s'.objects = s.objects)
    (hu : s.unmarked ⊆ s'.unmarked) (hc : ∀ g, s.counted g ≤ s'.counted g)
    (hh : s'.handed = s.handed) (hdr : s'.dropped = s.dropped) (hre : s'.replaced = s.replaced)
    (hm : s'.mapping = s.mapping) (hr : s'.runs = s.runs) (he : s'.epochs = s.epochs) :
    Mono N ρ s s' where
  docs _ d h := ⟨d, by rw [hd]; exact h, fun _ h => h, id⟩
  objects := by rw [ho]
  unmarked := hu
  counted := hc
  handed := by rw [hh]; exact fun _ h => h
  dropped := by rw [hdr]; exact fun _ h => h
  replaced := by rw [hre]; exact fun _ h => h
  quiet hq := ⟨hq.mono (by rw [hr]; exact id) (by rw [hm]; exact fun _ h => .inl h), by rw [he]⟩
  runs _ r h := by rw [hr]; exact h

lemma stocks_cacheComplete (h : Inv N ρ s₀ s) (hw : Holds N ρ w S s) (hg : InSession N S g)
    (hf : Finished s g) : Stocks N ρ s₀ s S { s with completeCache := insert g s.completeCache } := by
  refine .of_held h hw (.of_same rfl rfl (fun _ h => h) (fun _ => le_rfl) rfl rfl rfl rfl rfl rfl)
    (fun S' hS => ?_) (.of_eq rfl rfl rfl rfl rfl) rfl rfl
    (fun _ _ hi => .inl hi) (fun k _ hk => ?_) (h.added S) (h.counted S) fun _ _ hd => .inl hd
  · constructor
    case complete =>
      intro k hk
      simp [hg.ne hk hS]
    all_goals intros; rfl
  · rcases Finset.mem_insert.mp hk with rfl | hk
    · exact .inr ⟨hf.counted, hf.stored, hf.marked⟩
    · exact .inl hk

lemma stocks_addIncomplete (h : Inv N ρ s₀ s) (hw : Holds N ρ w S s) (hg : InSession N S g) :
    Stocks N ρ s₀ s S { s with incomplete := insert g s.incomplete } := by
  refine .of_held h hw (.of_same rfl rfl (fun _ h => h) (fun _ => le_rfl) rfl rfl rfl rfl rfl rfl)
    (fun S' hS => ?_) (.of_eq rfl rfl rfl rfl rfl) rfl rfl
    (fun _ _ hi => .inl (Finset.mem_insert_of_mem hi)) (fun k _ hk => .inl hk) (h.added S)
    (h.counted S) fun _ _ hd => .inl hd
  constructor
  case incomplete =>
    intro k hk
    simp [hg.ne hk hS]
  all_goals intros; rfl

lemma stocks_discardIncomplete (h : Inv N ρ s₀ s) (hw : Holds N ρ w S s) (hg : InSession N S g)
    (hf : Finished s g) : Stocks N ρ s₀ s S { s with incomplete := s.incomplete.erase g } := by
  refine .of_held h hw (.of_same rfl rfl (fun _ h => h) (fun _ => le_rfl) rfl rfl rfl rfl rfl rfl)
    (fun S' hS => ?_) (.of_eq rfl rfl rfl rfl rfl) rfl rfl
    (fun k _ hi => ?_) (fun k _ hk => .inl hk) (h.added S) (h.counted S) fun _ _ hd => .inl hd
  · constructor
    case incomplete =>
      intro k hk
      simp [hg.ne hk hS]
    all_goals intros; rfl
  · by_cases hk : k = g
    · subst hk
      exact .inr ⟨hf.counted, hf.stored, hf.marked⟩
    · exact .inl (Finset.mem_erase.mpr ⟨hk, hi⟩)

lemma stocks_countNode (h : Inv N ρ s₀ s) (hw : Holds N ρ w S s) (hg : InSession N S g)
    (h0 : s.counted g = 0) : Stocks N ρ s₀ s S (countNode s g) := by
  have hcount : ∀ k, k ≠ g → (countNode s g).counted k = s.counted k :=
    fun k hk => update_of_ne hk ..
  have hself : (countNode s g).counted g = 1 := by
    simp [countNode, h0]
  refine .of_held h hw (.of_same rfl rfl (fun _ h => h) (fun k => ?_) rfl rfl rfl rfl rfl rfl)
    (fun S' hS => ?_) (.of_eq rfl rfl rfl rfl rfl) rfl rfl
    (fun _ _ hi => .inl hi) (fun k _ hk => .inl hk) (h.added S) (fun k hk => ?_)
    fun _ _ hd => .inl hd
  · by_cases hk : k = g
    · subst hk
      omega
    · rw [hcount k hk]
  · constructor
    case counted => exact fun k hk => hcount k (hg.ne hk hS)
    case nodeCount => exact update_of_ne (fun h => hS (h.trans hg.2.2)) ..
    all_goals intros; rfl
  · by_cases hkg : k = g
    · rw [hkg, hself]
    · rw [hcount k hkg]
      exact h.counted S k hk

lemma stocks_docs (h : Inv N ρ s₀ s) (hw : Holds N ρ w S s) (hg : InSession N S g) {d : Doc}
    {adds : Gid → Nat} (hd : ∀ e, s.docs g = some e → e.records ⊆ d.records ∧ (e.incomplete = false → d.incomplete = false))
    (hr : ∀ p ∈ d.records, ∃ e, s.docs g = some e ∧ p ∈ e.records)
    (hown : (s.docs g).isSome ∨ g = own N ρ s S) (hadd : ∀ k, k ≠ g → adds k = s.adds k)
    (hone : adds g ≤ 1) :
    Stocks N ρ s₀ s S { s with docs := update s.docs g (some d), adds } := by
  have hne : ∀ k, k ≠ g → update s.docs g (some d) k = s.docs k :=
    fun k hk => update_of_ne hk ..
  have hself : update s.docs g (some d) g = some d := update_self ..
  have hm : Mono N ρ s { s with docs := update s.docs g (some d), adds } := by
    refine ⟨fun k e he => ?_, fun _ h => h, fun _ h => h, fun _ => le_rfl, fun _ h => h,
      fun _ h => h, fun _ h => h, fun h => ⟨h, rfl⟩, fun _ _ h => h⟩
    by_cases hk : k = g
    · subst hk
      obtain ⟨h1, h2⟩ := hd e he
      exact ⟨d, hself, h1, h2⟩
    · exact ⟨e, (hne k hk).trans he, fun _ h => h, id⟩
  refine .of_held h hw hm (fun S' hS => ?_) ?_ rfl rfl
    (fun _ _ hi => .inl hi) (fun k _ hk => .inl hk) (fun k hk => ?_) (h.counted S) fun k hk hkd => ?_
  · constructor
    case docs => exact fun k hk => congrArg _ (hne k (hg.ne hk hS))
    case adds => exact fun k hk => hadd k (hg.ne hk hS)
    all_goals intros; rfl
  · refine ⟨fun _ h => .inl h, fun _ h => .inl h, fun _ _ _ h => .inl h, fun S' k e p _ he hp => ?_, fun _ _ h => .inl h⟩
    by_cases hk : k = g
    · subst hk
      cases hself.symm.trans he
      exact .inl (hr p hp)
    · exact .inl ⟨e, (hne k hk).symm.trans he, hp⟩
  · by_cases hkg : k = g
    · subst hkg
      exact ⟨hone, fun _ => Option.isSome_iff_exists.mpr ⟨d, hself⟩⟩
    · refine ⟨(hadd k hkg).trans_le (h.added S k hk).1, fun h1 => ?_⟩
      exact hm.isSome ((h.added S k hk).2 ((hadd k hkg).symm.trans h1))
  · by_cases hkg : k = g
    · rw [hkg]
      exact hown
    · refine .inl ?_
      rw [← hne k hkg]
      exact hkd

lemma stocks_unmarked (h : Inv N ρ s₀ s) (hw : Holds N ρ w S s) (g : Gid) :
    Stocks N ρ s₀ s S { s with unmarked := insert g s.unmarked } := by
  refine .of_held h hw (.of_same rfl rfl (Finset.subset_insert g _) (fun _ => le_rfl) rfl rfl rfl
    rfl rfl rfl) (fun S' _ => ?_) (.of_eq rfl rfl rfl rfl rfl)
    rfl rfl (fun _ _ hi => .inl hi) (fun k _ hk => .inl hk) (h.added S) (h.counted S)
    fun _ _ hd => .inl hd
  constructor <;> intros <;> rfl

lemma stocks_markComplete (h : Inv N ρ s₀ s) (hw : Holds N ρ w S s) (hg : InSession N S g)
    (ok : Bool) : Stocks N ρ s₀ s S (markComplete s g ok).2 := by
  unfold markComplete
  cases hd : s.docs g with
  | none => exact stocks_unmarked h hw g
  | some d =>
    cases ok with
    | false => exact stocks_unmarked h hw g
    | true =>
      refine @stocks_docs _ _ _ _ _ _ _ h hw hg _ s.adds (fun e he => ?_) (fun p hp => ⟨d, hd, hp⟩)
        (.inl (by simp [hd])) (fun _ _ => rfl) (h.added S g hg).1
      obtain rfl : d = e := by simpa [hd] using he
      exact ⟨fun _ h => h, fun _ => rfl⟩

lemma stocks_addNode (h : Inv N ρ s₀ s) (hw : Holds N ρ w S s)
    (hd : s.docs (own N ρ s S) = none) {fate : Add} (hf : fate ≠ .failed) :
    Stocks N ρ s₀ s S (addNode s (own N ρ s S) fate).2 := by
  have hg := inSession_own N ρ s S
  have h0 : s.adds (own N ρ s S) = 0 := by
    have h1 := (h.added S _ hg).1
    have h2 := (h.added S _ hg).2
    rw [hd] at h2
    by_contra hne
    exact absurd (h2 (by omega)) (by simp)
  have key : ∀ adds : Gid → Nat, (∀ k, k ≠ own N ρ s S → adds k = s.adds k) →
      adds (own N ρ s S) ≤ 1 → Stocks N ρ s₀ s S { writeDoc s (own N ρ s S) with adds } := by
    intro adds ha h1
    have hrec : ((s.docs (own N ρ s S)).map Doc.records).getD [] = [] := by rw [hd]; rfl
    unfold writeDoc
    dsimp only
    rw [hrec]
    exact stocks_docs h hw hg (fun e he => by rw [hd] at he; cases he) (fun p hp => by cases hp)
      (.inr rfl) ha h1
  cases fate with
  | written =>
    exact key _ (fun k hk => update_of_ne hk ..) (by simp [h0])
  | lost => exact key s.adds (fun _ _ => rfl) (by omega)
  | failed => exact absurd rfl hf

lemma stocks_nodeStored (cfg : Config) {run : Run} {now : Int} (h : Inv N ρ s₀ s)
    (hw : Holds N ρ w S s) (hd : (s.docs (own N ρ s S)).isSome) :
    Stocks N ρ s₀ s S (perform cfg (.nodeStored N (own N ρ s S) S run now) s).2 := by
  obtain ⟨depth, costmap, B, he, hB, -⟩ := nodeStored_spec cfg s N S run now (own N ρ s S)
  rw [he]
  have hg := inSession_own N ρ s S
  refine .of_held h hw (.of_same rfl rfl (fun _ h => h) (fun _ => le_rfl) rfl rfl rfl rfl rfl rfl)
    (fun S' hS => ?_) ?_ rfl rfl (fun _ _ hi => .inl (Finset.mem_insert_of_mem hi))
    (fun k _ hk => .inl hk) (h.added S) (h.counted S) fun _ _ hd => .inl hd
  · constructor
    case incomplete =>
      intro k hk
      simp [hg.ne hk hS]
    all_goals intros; rfl
  · refine ⟨fun _ h => .inl h, fun x hx => .inr ?_, fun _ _ _ h => .inl h,
      fun _ _ d _ _ h hp => .inl ⟨d, h, hp⟩, fun kind u hu => .inl (hB.2 kind N hu)⟩
    have hx' : (s.stored.set N (own N ρ s S, S)).get N = some x := hx
    rw [Dict.get_set, if_pos rfl] at hx'
    cases hx'
    exact ⟨hg, hd, .inl (Finset.mem_insert_self _ _)⟩

lemma stocks_claim (h : Inv N ρ s₀ s) {v : Nat} :
    Stocks N ρ s₀ s S (claimNode s v (own N ρ s S)) := by
  have hg := inSession_own N ρ s S
  have hne : ∀ k, k ≠ own N ρ s S → (claimNode s v (own N ρ s S)).holder k = s.holder k :=
    fun k hk => update_of_ne hk ..
  have hself : (claimNode s v (own N ρ s S)).holder (own N ρ s S) = some v :=
    update_self ..
  refine ⟨.of_same rfl rfl (fun _ h => h) (fun _ => le_rfl) rfl rfl rfl rfl rfl rfl, fun S' hS => ?_,
    .of_eq rfl rfl rfl rfl rfl, fun _ _ hi => .inl hi,
    fun k _ hk => .inl hk, h.added S, h.counted S, fun k u hk hu => ?_, fun k hk => ?_,
    fun hf => ?_, fun _ _ hd => .inl hd⟩
  · constructor
    case processing =>
      intro k hk
      simp [claimNode, hg.ne hk hS]
    case holder => exact fun k hk => hne k (hg.ne hk hS)
    all_goals intros; rfl
  · by_contra hkg
    rw [hne k hkg] at hu
    exact hkg (h.held S k u hk hu).2
  · by_cases hkg : k = own N ρ s S
    · subst hkg
      simp [claimNode]
    · rw [hne k hkg, ← h.processing S k hk]
      simp [claimNode, hkg]
  · rw [hf _ hg] at hself
    cases hself

lemma stocks_release (h : Inv N ρ s₀ s) (hs : Settled N ρ s₀ s S) :
    Stocks N ρ s₀ s S (release s (own N ρ s S)) := by
  have hg := inSession_own N ρ s S
  have hne : ∀ k, k ≠ own N ρ s S → (release s (own N ρ s S)).holder k = s.holder k :=
    fun k hk => update_of_ne hk ..
  have hself : (release s (own N ρ s S)).holder (own N ρ s S) = none := update_self ..
  refine ⟨.of_same rfl rfl (fun _ h => h) (fun _ => le_rfl) rfl rfl rfl rfl rfl rfl, fun S' hS => ?_,
    .of_eq rfl rfl rfl rfl rfl, fun _ _ hi => .inl hi,
    fun k _ hk => .inl hk, h.added S, h.counted S, fun k u hk hu => ?_, fun k hk => ?_,
    fun _ => ?_, fun _ _ hd => .inl hd⟩
  · constructor
    case processing =>
      intro k hk
      simp [release, hg.ne hk hS]
    case holder => exact fun k hk => hne k (hg.ne hk hS)
    all_goals intros; rfl
  · by_contra hkg
    rw [hne k hkg] at hu
    exact hkg (h.held S k u hk hu).2
  · by_cases hkg : k = own N ρ s S
    · subst hkg
      simp [release]
    · rw [hne k hkg, ← h.processing S k hk]
      simp [release, hkg]
  · rcases hs with hs | hs
    · exact .inl { hs with }
    · exact .inr hs

lemma look_cases (s : State) (v : Nat) (N : NodeKey) (S : Text) (ρ : Run) (claim : Gid) :
    (∃ k, look s v N S ρ claim = (.known k, s) ∧ knownComplete s N S (candidateIds s N S ρ false) = some k) ∨
    (∃ k, look s v N S ρ claim = (.busy k, s)) ∨
    look s v N S ρ claim = (.taken (candidateIds s N S ρ false), claimNode s v claim) ∧
      knownComplete s N S (candidateIds s N S ρ false) = none ∧
      ∀ k ∈ candidateIds s N S ρ false, k ∉ s.processing := by
  unfold look
  dsimp only
  cases hk : knownComplete s N S (candidateIds s N S ρ false) with
  | some k => exact .inl ⟨k, rfl, rfl⟩
  | none =>
    cases hb : (candidateIds s N S ρ false).find? fun g => g ∈ s.processing with
    | some k => exact .inr (.inl ⟨k, rfl⟩)
    | none =>
      refine .inr (.inr ⟨rfl, rfl, fun k hk => ?_⟩)
      simpa using List.find?_eq_none.mp hb k hk

theorem perform_keeps (cfg : Config) {o : Op} (h : Inv N ρ s₀ s) (ha : Allowed N ρ s₀ w S o s) :
    Inv N ρ s₀ (perform cfg o s).2 ∧ Mono N ρ s (perform cfg o s).2 ∧ ∀ v, w ≠ some v → Rely N ρ v s (perform cfg o s).2 := by
  have hside : ∀ t, Side N ρ s t → Enters N ρ s t → Inv N ρ s₀ t ∧ Mono N ρ s t ∧
      ∀ v, w ≠ some v → Rely N ρ v s t :=
    fun t hs he => ⟨h.side hs he, hs.mono, fun v _ => hs.rely v⟩
  have hheld : ∀ t, Holds N ρ w S s → Stocks N ρ s₀ s S t → t.holder = s.holder →
      Inv N ρ s₀ t ∧ Mono N ρ s t ∧ ∀ v, w ≠ some v → Rely N ρ v s t := by
    rintro t ⟨hq, v, rfl, hv⟩ hs ht
    refine ⟨h.stocks hq hs, hs.mono, fun v' hne => hs.rely h (fun hv' => hne (by rw [hv']))
      (.inr hv) (.inr (by rw [ht]; exact hv))⟩
  cases ho : o.shelf with
  | false =>
    obtain ⟨hs, he⟩ := perform_side cfg ho ha
    exact hside _ hs he
  | true =>
    cases o with
    | look v node S' run claim =>
      obtain ⟨rfl, rfl, rfl, rfl, hq, rfl⟩ := ha
      change Inv _ _ _ (look s v node S' run _).2 ∧ Mono _ _ s (look s v node S' run _).2 ∧ _
      rcases look_cases s v node S' run (own node run s S') with ⟨k, hl, -⟩ | ⟨k, hl⟩ | ⟨hl, -, hb⟩
      · simp only [perform, hl]
        exact hside s (.refl ..) (.refl ..)
      · simp only [perform, hl]
        exact hside s (.refl ..) (.refl ..)
      · simp only [perform, hl]
        have hfree := hb _ (own_mem_candidateIds s node run S')
        have hs := stocks_claim (S := S') h (v := v)
        refine ⟨h.stocks hq hs, hs.mono, fun v' hne => hs.rely h (fun hv' => hne (by rw [hv'])) (.inl ?_)
          (.inr (update_self ..))⟩
        by_contra hn
        exact hfree ((h.processing S' _ (inSession_own ..)).mpr hn)
    | cacheComplete k => exact hheld _ ha.1 (stocks_cacheComplete h ha.1 ha.2.1 ha.2.2) rfl
    | addIncomplete k => exact hheld _ ha.1 (stocks_addIncomplete h ha.1 ha.2) rfl
    | addNode k fate =>
      obtain ⟨hw, rfl, hd⟩ := ha
      by_cases hf : fate = .failed
      · subst hf
        exact hside s (.refl ..) (.refl ..)
      · refine hheld _ hw (stocks_addNode h hw hd hf) ?_
        cases fate <;> rfl
    | nodeStored node k S' run now =>
      obtain ⟨rfl, rfl, hw, rfl, hd⟩ := ha
      refine hheld _ hw (stocks_nodeStored cfg h hw hd) ?_
      obtain ⟨depth, costmap, B, he, -⟩ := nodeStored_spec cfg s node S' run now (own node ρ s S')
      rw [he]
    | countNode k ok =>
      cases ok with
      | true => exact hheld _ ha.1 (stocks_countNode h ha.1 ha.2.1 ha.2.2.1) rfl
      | false => exact hside s (.refl ..) (.refl ..)
    | markComplete k ok =>
      refine hheld _ ha.1 (stocks_markComplete h ha.1 ha.2.1 ok) ?_
      simp only [perform, markComplete]
      cases s.docs k <;> cases ok <;> rfl
    | discardIncomplete k => exact hheld _ ha.1 (stocks_discardIncomplete h ha.1 ha.2.1 ha.2.2) rfl
    | release v claim =>
      obtain ⟨rfl, rfl, ⟨hq, v', hvv, hv⟩, hset⟩ := ha
      cases hvv
      have hs := stocks_release h hset
      exact ⟨h.stocks hq hs, hs.mono, fun v' hne => hs.rely h (fun hv' => hne (by rw [hv']))
        (.inr hv) (.inl (update_self ..))⟩
    | _ => cases ho

end CloudServer.Ingest
