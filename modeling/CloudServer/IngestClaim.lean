import CloudServer.IngestSafe

/-! A delivery under its claim: what it finds, stores, counts and leaves behind. -/
namespace CloudServer.Ingest

open List Function
open Acks (Kind Part Sid Run Key Reason Message)
open UploadBuffer (NodeKey Upload Placed)
open Scan (Text)
open Interact (Prog Contract Safe)

def Saved (N : NodeKey) (ρ : Run) (S : Text) (u : Upload) (s : State) : Prop :=
  ∃ g, Target N ρ s S g ∧ (g, u) ∈ s.handed

def AllSaved (N : NodeKey) (ρ : Run) (c : Call) (log : Log) (s : State) : Prop :=
  ∀ u ∈ takenUploads log, Saved N ρ c.session u s

structure Claimed (N : NodeKey) (ρ : Run) (d : Delivery) (claim : Gid) (s : State) : Prop where
  quiet : Quiet N ρ s
  own : claim = own N ρ s d.session
  holder : s.holder claim = some d.worker

def Shelved (N : NodeKey) (ρ : Run) (S : Text) (P : State → Prop) : Prop :=
  ∀ s s', Quiet N ρ s → Mono N ρ s s' → SameShelf N S s s' → P s → P s'

structure Half (N : NodeKey) (ρ : Run) (s₀ : State) (S : Text) (g : Gid) (s : State) : Prop where
  fresh : Open N s₀ s S
  candidate : g ∈ candidateIds s N S ρ false
  stored : (s.docs g).isSome
  before : s₀.counted g ≠ 1

structure Counted (N : NodeKey) (ρ : Run) (s₀ : State) (S : Text) (g : Gid) (s : State) :
    Prop where
  nodeCount : s.nodeCount S = s₀.nodeCount S + 1
  candidate : g ∈ candidateIds s N S ρ false
  stored : (s.docs g).isSome
  before : s₀.counted g = 0
  counted : s.counted g = 1

section Assertions
variable {N : NodeKey} {ρ : Run} {s₀ s s' : State} {S : Text} {g claim : Gid} {P Q : State → Prop}
variable {d : Delivery} {c : Call}

lemma Claimed.inSession (h : Claimed N ρ d claim s) : InSession N d.session claim :=
  h.own ▸ inSession_own N ρ s d.session

lemma Claimed.holds (h : Claimed N ρ d claim s) : Holds N ρ (some d.worker) d.session s :=
  ⟨h.quiet, d.worker, rfl, h.own ▸ h.holder⟩

lemma Claimed.target (h : Claimed N ρ d claim s) : Target N ρ s d.session claim :=
  ⟨h.inSession, .inl ⟨h.quiet, h.own⟩⟩

lemma Claimed.next (h : Claimed N ρ d claim s) (hm : Mono N ρ s s')
    (hh : s'.holder claim = s.holder claim) : Claimed N ρ d claim s' :=
  ⟨(hm.quiet h.quiet).1, h.own.trans (hm.own h.quiet _).symm, hh.trans h.holder⟩

lemma Shelved.and (hP : Shelved N ρ S P) (hQ : Shelved N ρ S Q) :
    Shelved N ρ S fun s => P s ∧ Q s :=
  fun s s' hq hm hs h => ⟨hP s s' hq hm hs h.1, hQ s s' hq hm hs h.2⟩

lemma Shelved.stable (h : Shelved N ρ d.session P) :
    Stable N ρ s₀ (.node d) fun s => Claimed N ρ d claim s ∧ P s := by
  rintro s s' hm hr - ⟨hc, hp⟩
  have hs := (hr d.worker rfl).kept d.session claim hc.inSession hc.holder
  exact ⟨hc.next hm (hs.holder claim hc.inSession), h s s' hc.quiet hm hs hp⟩

lemma shelved_open : Shelved N ρ S fun s => Open N s₀ s S := fun _ _ _ _ hs h => h.congr hs

lemma shelved_absent (hg : InSession N S g) : Shelved N ρ S fun s => s.docs g = none := by
  intro s s' _ _ hs h
  rw [← Option.not_isSome_iff_eq_none, hs.isSome_iff hg, h]
  simp

lemma shelved_incomplete (hg : InSession N S g) : Shelved N ρ S fun s => g ∈ s.incomplete :=
  fun _ _ _ _ hs h => (hs.incomplete g hg).mpr h

lemma shelved_half : Shelved N ρ S (Half N ρ s₀ S g) := fun _ _ hq hm hs h =>
  ⟨h.fresh.congr hs, hm.candidate hq h.candidate, hm.isSome h.stored, h.before⟩

lemma shelved_counted : Shelved N ρ S (Counted N ρ s₀ S g) := fun _ _ hq hm hs h =>
  ⟨hs.nodeCount.trans h.nodeCount, hm.candidate hq h.candidate, hm.isSome h.stored, h.before,
    (hs.counted g (inSession_of_candidate h.candidate)).trans h.counted⟩

lemma stable_finished (hg : InSession N S g) : Stable N ρ s₀ c fun s => Finished s g :=
  fun _ _ hm _ hi h => hm.finished (hi.counted S g hg) h

lemma stable_allSaved (log : Log) : Stable N ρ s₀ c (AllSaved N ρ c log) := by
  intro s s' hm _ _ h u hu
  obtain ⟨g, hg, hh⟩ := h u hu
  exact ⟨g, hm.target hg, hm.handed hh⟩

lemma stable_const (a : Prop) : Stable N ρ s₀ c fun _ => a := fun _ _ _ _ _ h => h

lemma Inv.ofNode {u : Upload} {kind : Kind} (h : Inv N ρ s₀ s)
    (hu : u ∈ (s.buffers kind).held N) : OfNode N ρ (uploadKey u) ∧ u.kind = kind := by
  obtain ⟨hn, hk, hr⟩ := h.buffered kind u hu
  exact ⟨⟨congrArg NodeKey.robot hn, hr, congrArg NodeKey.sid hn⟩, hk⟩

end Assertions

section Delivery
variable {cfg : Config} {N : NodeKey} {ρ : Run} {s₀ s : State} {d : Delivery} {g claim : Gid}
variable {P : State → Prop} {log : Log}

lemma safe_saveBuffered {images depth costmap : List Upload} {c : Call} (luck : Luck)
    (hP : Stable N ρ s₀ c P) (hlog : ∀ s, P s → Claims N c log s)
    (htar : ∀ s, P s → Target N ρ s c.session g)
    (hi : ∀ u ∈ images, OfNode N ρ (uploadKey u) ∧ u.kind = .image)
    (hd : ∀ u ∈ depth, OfNode N ρ (uploadKey u) ∧ u.kind = .depth)
    (hc : ∀ u ∈ costmap, OfNode N ρ (uploadKey u) ∧ u.kind = .costmap) (hs : P s) :
    Meets cfg N ρ s₀ c
      (fun log' _ s' => (P s' ∧ ∀ u ∈ images ++ depth ++ costmap, (g, u) ∈ s'.handed) ∧
        SameLog log log') (saveBuffered luck g images depth costmap) log s := by
  refine Safe.bind contract_refl (safe_saveImages luck hP hlog htar hi hs) fun log1 _ s1 _ h1 => ?_
  have hP1 := hP.and (Stable.forall fun u => Stable.imp (a := u ∈ images) (@stable_handed N ρ s₀ c (g, u)))
  refine Safe.bind contract_refl (safe_saveLayers luck hP1 (fun s h => h1.2.claims (hlog s h.1))
    (fun s h => htar s h.1) hd h1.1) fun log2 _ s2 _ h2 => ?_
  have hP2 := hP1.and (Stable.forall fun u => Stable.imp (a := u ∈ depth) (@stable_handed N ρ s₀ c (g, u)))
  have h12 := h1.2.trans h2.2
  refine Safe.bind contract_refl (safe_saveLayers luck hP2 (fun s h => h12.claims (hlog s h.1.1))
    (fun s h => htar s h.1.1) hc h2.1) fun log3 _ s3 _ h3 => ?_
  have hP3 := hP2.and (Stable.forall fun u =>
      Stable.imp (a := u ∈ costmap) (@stable_handed N ρ s₀ c (g, u)))
  refine safe_pure hP3 h3.1 fun t _ ht => ⟨⟨ht.1.1.1, fun u hu => ?_⟩, h12.trans h3.2⟩
  rw [mem_append, mem_append] at hu
  rcases hu with (hu | hu) | hu
  · exact ht.1.1.2 u hu
  · exact ht.1.2 u hu
  · exact ht.2 u hu

lemma safe_restore {α : Type} {f : Unit → Handler α} {post : Log → α → State → Prop}
    (hN : d.node = N) (hP : Stable N ρ s₀ (.node d) P)
    (hlog : ∀ s, P s → Claims N (.node d) log s ∧ AllSaved N ρ (.node d) log s)
    (hq : ∀ s, P s → Quiet N ρ s) (hg : InSession N d.session g)
    (hst : ∀ s, P s → (s.docs g).isSome ∧ (g ∈ s.incomplete ∨ Finished s g)) (hs : P s)
    (h : ∀ log' t, P t → holding log' = holding log → restored log' = true →
      AllSaved N ρ (.node d) log' t → Meets cfg N ρ s₀ (.node d) post (f ()) log' t) :
    Meets cfg N ρ s₀ (.node d) post
      (call (.restore d.node g d.session d.run (d.luck.clock .taken 0)) >>= fun r =>
        call (.cacheNode g) >>= fun _ =>
          saveBuffered d.luck g r.1 r.2.1 r.2.2 >>= f) log s := by
  refine safe_side rfl hP (fun s h => (hlog s h).1) (fun t _ ht =>
    ⟨hN, rfl, hq t ht, hg, (hst t ht).1, (hst t ht).2⟩) hs fun t hi ht _ ht' => ?_
  obtain ⟨images, depth, costmap, B, he, -, hti, htd, htc⟩ :=
    restore_spec cfg t d.node d.session d.run (d.luck.clock .taken 0) g
  rw [he] at ht' ⊢
  rw [hN] at hti htd htc
  have hall : ∀ kind us, TakenOf N d.session t.buffers kind us →
      ∀ u ∈ us, OfNode N ρ (uploadKey u) ∧ u.kind = kind := fun kind us hu u hm =>
    hi.ofNode (hu u hm).1
  have hclaims : ∀ s, P s → Claims N (.node d) (⟨.restore d.node g d.session d.run
      (d.luck.clock .taken 0), (images, depth, costmap)⟩ :: log) s := fun s h => (hlog s h).1
  refine safe_side rfl hP hclaims (fun t _ ht S _ => (hst t ht).1) ht' fun t1 _ _ _ ht1 => ?_
  refine Safe.bind contract_refl (safe_saveBuffered d.luck hP (fun s h => (hlog s h).1)
    (fun s h => ⟨hg, .inr (hst s h).1⟩) (hall _ _ hti) (hall _ _ htd) (hall _ _ htc) ht1)
    fun log2 _ s2 _ h2 => ?_
  refine h log2 s2 h2.1.1 h2.2.1 h2.2.2.2 fun u hu => ?_
  rw [h2.2.2.1] at hu
  rcases mem_append.mp hu with hu | hu
  · exact ⟨g, ⟨hg, .inr (hst s2 h2.1.1).1⟩, h2.1.2 u hu⟩
  · exact (hlog s2 h2.1.1).2 u hu

structure Tidy (N : NodeKey) (ρ : Run) (d : Delivery) (log : Log) (s : State) : Prop where
  claims : Claims N (.node d) log s
  saved : AllSaved N ρ (.node d) log s

lemma stable_tidy (log : Log) : Stable N ρ s₀ (.node d) (Tidy N ρ d log) :=
  fun s s' hm hr hi h => ⟨stable_claims log s s' hm hr hi h.claims,
    stable_allSaved log s s' hm hr hi h.saved⟩

lemma safe_attachDuplicate (hN : d.node = N) (hP : Stable N ρ s₀ (.node d) P)
    (hlog : ∀ s, P s → Tidy N ρ d log s) (hq : ∀ s, P s → Quiet N ρ s)
    (hg : InSession N d.session g) (hf : ∀ s, P s → Finished s g) (hs : P s) :
    Meets cfg N ρ s₀ (.node d)
      (fun log' r s' => r = .duplicate g ∧ P s' ∧ holding log' = holding log ∧
        restored log' = true ∧ AllSaved N ρ (.node d) log' s') (attachDuplicate d g) log s := by
  refine safe_restore hN hP (fun s h => ⟨(hlog s h).claims, (hlog s h).saved⟩) hq hg
    (fun s h => ⟨(hf s h).stored, .inr (hf s h)⟩) hs fun log' t ht hh hr hsv => ?_
  exact safe_pure (hP.and (stable_allSaved log')) ⟨ht, hsv⟩ fun t' _ h => ⟨rfl, h.1, hh, hr, h.2⟩

def Located (s₀ : State) (unknown : Bool) (ids : List Gid) (s : State) : Found → Prop
  | .complete g => g ∈ ids ∧ s₀.counted g = 1 ∧ Finished s g
  | .incomplete g => g ∈ ids ∧ (s.docs g).isSome ∧ s₀.counted g ≠ 1
  | .absent => unknown = false ∧ ∀ g ∈ ids, s.docs g = none
  | .unknown => True

lemma Located.cons {unknown : Bool} {ids : List Gid} {r : Found} (h : Located s₀ unknown ids s r)
    (hd : r = .absent → s.docs g = none) : Located s₀ unknown (g :: ids) s r := by
  cases r with
  | complete k | incomplete k => exact ⟨mem_cons_of_mem _ h.1, h.2⟩
  | absent =>
    refine ⟨h.1, fun k hk => ?_⟩
    rcases mem_cons.mp hk with rfl | hk
    · exact hd rfl
    · exact h.2 k hk
  | unknown => trivial

lemma Open.incomplete (h : Open N s₀ s d.session) (hg : InSession N d.session g)
    (hi : g ∈ s.incomplete ∨ (s.docs g).any Doc.incomplete = true) : s₀.counted g ≠ 1 := by
  intro h1
  obtain ⟨hni, doc, hdoc, hc⟩ := h.before g hg h1
  rcases hi with hi | hi
  · exact hni hi
  · rw [hdoc] at hi
    exact absurd hi (by simp [hc])

lemma Open.complete (h : Open N s₀ s d.session) (hg : InSession N d.session g) {doc : Doc}
    (hd : s.docs g = some doc) (hi : doc.incomplete = false) :
    s₀.counted g = 1 ∧ Finished s g := by
  have hc : Complete s g := ⟨doc, hd, hi⟩
  have h1 : s₀.counted g = 1 := by
    by_contra hne
    exact (h.fresh g hg hne).1 hc
  exact ⟨h1, (h.counted g hg).trans h1, by simp [hd], .inr hc⟩

lemma safe_locateNode {ids : List Gid} {unknown : Bool} (luck : Luck) (hP : Stable N ρ s₀ (.node d) P)
    (hlog : ∀ s, P s → Claims N (.node d) log s)
    (hopen : ∀ s, P s → Claimed N ρ d claim s ∧ Open N s₀ s d.session)
    (hids : ∀ g ∈ ids, InSession N d.session g) (hs : P s) :
    Meets cfg N ρ s₀ (.node d) (fun log' r s' => (P s' ∧ Located s₀ unknown ids s' r) ∧ SameLog log log')
      (locateNode luck unknown ids) log s := by
  induction ids generalizing P unknown log s with
  | nil =>
    refine safe_pure hP hs fun t _ ht => ⟨⟨ht, ?_⟩, .refl log⟩
    cases unknown with
    | true => trivial
    | false => exact ⟨rfl, by simp⟩
  | cons g ids ih =>
    have hg := hids g (by simp)
    have hids' : ∀ k ∈ ids, InSession N d.session k := fun k hk => hids k (by simp [hk])
    refine safe_side rfl hP hlog (fun _ _ _ => trivial) hs fun t _ ht _ _ => ?_
    generalize hfound : (perform cfg (.nodeExists g (luck.lookup g)) t).1 = found
    replace hfound : (if luck.lookup g = true then some (t.docs g).isSome else none) = found := hfound
    cases hlook : luck.lookup g with
    | false =>
      obtain rfl : none = found := by simpa [hlook] using hfound
      refine Safe.imp (ih hP ?_ hopen hids' ht) fun log' r s' _ h => ⟨⟨h.1.1, ?_⟩, h.2⟩
      · exact fun s h => hlog s h
      · have hl := h.1.2
        cases r with
        | absent => exact absurd hl.1 (by simp)
        | unknown => trivial
        | complete k | incomplete k => exact ⟨mem_cons_of_mem _ hl.1, hl.2⟩
    | true =>
      rw [hlook, if_pos rfl] at hfound
      cases hd : t.docs g with
      | none =>
        obtain rfl : some false = found := by simpa [hd] using hfound
        have hP1 := hP.and (@Shelved.stable N ρ s₀ claim _ _ (@shelved_absent N ρ _ _ hg))
        refine Safe.imp (ih hP1 ?_ (fun s h => hopen s h.1) hids' ⟨ht, (hopen t ht).1, hd⟩)
          fun log' r s' _ h => ⟨⟨h.1.1.1, h.1.2.cons fun _ => h.1.1.2.2⟩, h.2⟩
        exact fun s h => hlog s h.1
      | some doc =>
        obtain rfl : some true = found := by simpa [hd] using hfound
        have hsome : Stable N ρ s₀ (.node d) fun s => (s.docs g).isSome :=
          fun _ _ hm _ _ h => hm.isSome h
        have hP1 := hP.and hsome
        refine safe_side rfl hP1 (fun s h => hlog s h.1) (fun _ _ _ => trivial)
          ⟨ht, Option.isSome_iff_exists.mpr ⟨doc, hd⟩⟩ fun t1 _ ht1 _ _ => ?_
        change Safe _ _ _ (if decide (g ∈ t1.incomplete) = true then _ else _) _ t1
        by_cases hinc : g ∈ t1.incomplete
        · rw [if_pos (by simpa using hinc)]
          have hne := (hopen t1 ht1.1).2.incomplete hg (.inl hinc)
          exact safe_pure hP1 ht1 fun t2 _ ht2 =>
            ⟨⟨ht2.1, mem_cons_self .., ht2.2, hne⟩, .refl log⟩
        · rw [if_neg (by simpa using hinc)]
          refine safe_side rfl hP1 (fun s h => hlog s h.1) (fun _ _ _ => trivial) ht1
            fun t2 _ ht2 _ _ => ?_
          generalize hmarked : (perform cfg (.nodeIngestIncomplete g (luck.marker g)) t2).1 = marked
          replace hmarked : (if luck.marker g = true then some ((t2.docs g).any Doc.incomplete)
            else none) = marked := hmarked
          cases hmark : luck.marker g with
          | false =>
            obtain rfl : none = marked := by simpa [hmark] using hmarked
            exact safe_pure hP1 ht2 fun t3 _ ht3 => ⟨⟨ht3.1, trivial⟩, .refl log⟩
          | true =>
            rw [hmark, if_pos rfl] at hmarked
            subst hmarked
            cases hm : (t2.docs g).any Doc.incomplete with
            | true =>
              have hne := (hopen t2 ht2.1).2.incomplete hg (.inr hm)
              exact safe_pure hP1 ht2 fun t3 _ ht3 =>
                ⟨⟨ht3.1, mem_cons_self .., ht3.2, hne⟩, .refl log⟩
            | false =>
              obtain ⟨doc2, hd2⟩ := Option.isSome_iff_exists.mp ht2.2
              have hfin := (hopen t2 ht2.1).2.complete hg hd2 (by simpa [hd2] using hm)
              have hP2 := hP.and (@stable_finished N ρ s₀ _ _ (.node d) hg)
              exact safe_pure hP2 ⟨ht2.1, hfin.2⟩ fun t3 _ ht3 =>
                ⟨⟨ht3.1, mem_cons_self .., hfin.1, ht3.2⟩, .refl log⟩

lemma Half.addIncomplete {S : Text} (h : Half N ρ s₀ S g s) :
    Half N ρ s₀ S g { s with incomplete := insert g s.incomplete } where
  fresh := by
    refine ⟨h.fresh.nodeCount, h.fresh.counted, fun k hk h1 => ?_, h.fresh.fresh⟩
    obtain ⟨hi, hc⟩ := h.fresh.before k hk h1
    refine ⟨fun hi' => ?_, hc⟩
    rcases Finset.mem_insert.mp hi' with rfl | hi'
    · exact h.before h1
    · exact hi hi'
  candidate := h.candidate
  stored := h.stored
  before := h.before

structure Leaves (N : NodeKey) (ρ : Run) (s₀ : State) (d : Delivery) (claim g : Gid) (log log' : Log)
    (s : State) : Prop where
  claimed : Claimed N ρ d claim s
  half : Half N ρ s₀ d.session g s
  holding : holding log' = holding log
  restored : restored log' = true
  saved : AllSaved N ρ (.node d) log' s

lemma safe_repairNode (hN : d.node = N) (hc : Claimed N ρ d claim s)
    (hh : Half N ρ s₀ d.session g s) (htidy : Tidy N ρ d log s) :
    Meets cfg N ρ s₀ (.node d)
      (fun log' r s' => (r = .held g true ∨ r = .failed .storeFailed (some g)) ∧
        Leaves N ρ s₀ d claim g log log' s') (repairNode d g) log s := by
  have hg := inSession_of_candidate hh.candidate
  have hP := (@Shelved.stable N ρ s₀ claim _ _ (@shelved_half N ρ s₀ d.session g)).and
      (@stable_tidy N ρ s₀ d log)
  refine safe_call hP ⟨⟨hc, hh⟩, htidy⟩ fun t hi ht =>
    ⟨⟨⟨ht.1.1.holds, hg⟩, ht.2.claims⟩, fun _ hm => ?_⟩
  have hP1 := (@Shelved.stable N ρ s₀ claim _ _
      ((@shelved_half N ρ s₀ d.session g).and (@shelved_incomplete N ρ _ _ hg))).and
    (@stable_tidy N ρ s₀ d log)
  refine safe_restore hN hP1 (fun s h => ⟨h.2.claims, h.2.saved⟩) (fun s h => h.1.1.quiet) hg
    (fun s h => ⟨h.1.2.1.stored, .inl h.1.2.2⟩)
    ⟨⟨ht.1.1.next hm rfl, ht.1.2.addIncomplete, Finset.mem_insert_self ..⟩,
      fun k hk => ht.2.claims k hk, fun u hu => ?_⟩ fun log' t' ht' hh' hr' hsv => ?_
  · obtain ⟨k, hk, hkh⟩ := ht.2.saved u hu
    exact ⟨k, hm.target hk, hkh⟩
  · have hP2 := (@Shelved.stable N ρ s₀ claim _ _ (@shelved_half N ρ s₀ d.session g)).and
      (@stable_allSaved N ρ s₀ (.node d) log')
    refine safe_pure hP2 ⟨⟨ht'.1.1, ht'.1.2.1⟩, hsv⟩ fun t2 _ h2 => ⟨?_, h2.1.1, h2.1.2, hh', hr', h2.2⟩
    cases d.luck.edges <;> simp

lemma docs_addNode_ne {k : Gid} (fate : Add) (hk : k ≠ g) :
    (addNode s g fate).2.docs k = s.docs k := by
  cases fate with
  | written | lost => exact update_of_ne hk ..
  | failed => rfl

lemma Open.addNode {S : Text} (h : Open N s₀ s S) (hd : s.docs g = none) (fate : Add) :
    Open N s₀ (addNode s g fate).2 S := by
  have hinc : ¬Complete (Ingest.addNode s g fate).2 g := by
    rintro ⟨doc, hdoc, hi⟩
    cases fate with
    | written | lost =>
      simp only [Ingest.addNode, writeDoc, update_self, Option.some.injEq] at hdoc
      subst hdoc
      cases hi
    | failed =>
      have hdoc' : s.docs g = some doc := hdoc
      rw [hd] at hdoc'
      cases hdoc'
  have hother : ∀ k, k ≠ g → (Complete (Ingest.addNode s g fate).2 k ↔ Complete s k) := by
    intro k hk
    unfold Complete
    rw [docs_addNode_ne fate hk]
  constructor
  case nodeCount => cases fate <;> exact h.nodeCount
  case counted => cases fate <;> exact h.counted
  case before =>
    intro k hk h1
    obtain ⟨hi, hc⟩ := h.before k hk h1
    have hne : k ≠ g := by
      rintro rfl
      obtain ⟨doc, hdoc, -⟩ := hc
      rw [hd] at hdoc
      cases hdoc
    refine ⟨?_, (hother k hne).mpr hc⟩
    cases fate <;> exact hi
  case fresh =>
    intro k hk h0
    obtain ⟨hc, hcache⟩ := h.fresh k hk h0
    refine ⟨?_, by cases fate <;> exact hcache⟩
    by_cases hkg : k = g
    · rw [hkg]
      exact hinc
    · rw [hother k hkg]
      exact hc

lemma Open.absent {S : Text} (h : Open N s₀ s S) (hg : InSession N S g) (hd : s.docs g = none) :
    s₀.counted g ≠ 1 := by
  intro h1
  obtain ⟨doc, hdoc, -⟩ := (h.before g hg h1).2
  rw [hd] at hdoc
  cases hdoc

structure Fails (N : NodeKey) (ρ : Run) (s₀ : State) (d : Delivery) (claim : Gid) (log log' : Log)
    (s : State) : Prop where
  claimed : Claimed N ρ d claim s
  fresh : Open N s₀ s d.session
  holding : holding log' = holding log
  saved : AllSaved N ρ (.node d) log' s

lemma isSome_docs_addNode {fate : Add} (h : (addNode s g fate).1 = true) :
    ((addNode s g fate).2.docs g).isSome := by
  cases fate with
  | written => simp [addNode, writeDoc]
  | lost | failed => cases h

lemma holder_addNode (k : Gid) (fate : Add) : (addNode s g fate).2.holder k = s.holder k := by
  cases fate <;> rfl

lemma safe_publishStored {P : State → Prop} (hN : d.node = N) (hP : Stable N ρ s₀ (.node d) P)
    (hhalf : ∀ s, P s → Claimed N ρ d claim s ∧ Half N ρ s₀ d.session claim s)
    (hlog : ∀ s, P s → Tidy N ρ d log s) (hs : P s) :
    Meets cfg N ρ s₀ (.node d)
      (fun log' r s' => (r = Topology.held claim false ∨
        r = Topology.failed .storeFailed (some claim)) ∧ Leaves N ρ s₀ d claim claim log log' s')
      (call (.nodeStored d.node claim d.session d.run (d.luck.clock .written 0)) >>= fun x =>
        call (.cacheNode claim) >>= fun _ => saveLayers d.luck .depth claim x.1 >>= fun _ =>
          saveLayers d.luck .costmap claim x.2 >>= fun _ =>
            pure (if d.luck.edges then Topology.held claim false
              else .failed .storeFailed (some claim))) log s := by
  refine safe_call hP hs fun t hi ht => ⟨⟨⟨hN, rfl, (hhalf t ht).1.holds, (hhalf t ht).1.own,
    (hhalf t ht).2.stored⟩, (hlog t ht).claims⟩, fun _ hm => ?_⟩
  obtain ⟨depth, costmap, B, he, -, htd, htc⟩ :=
    nodeStored_spec cfg t d.node d.session d.run (d.luck.clock .written 0) claim
  rw [hN] at htd htc
  rw [he] at hm ⊢
  have hlogT := hlog t ht
  obtain ⟨hcl, hhf⟩ := hhalf t ht
  have hhf' : Half N ρ s₀ d.session claim { t with
      stored := t.stored.set d.node (claim, d.session), incomplete := insert claim t.incomplete,
      buffers := B } := by
    have := hhf.addIncomplete
    exact ⟨{ this.fresh with },
      this.candidate, this.stored, this.before⟩
  have hsaved : ∀ u ∈ takenUploads log, Saved N ρ d.session u { t with
      stored := t.stored.set d.node (claim, d.session), incomplete := insert claim t.incomplete,
      buffers := B } := by
    intro u hu
    obtain ⟨k, hk, hkh⟩ := hlogT.saved u hu
    exact ⟨k, hm.target hk, hkh⟩
  have hP1 := (@Shelved.stable N ρ s₀ claim _ _ (@shelved_half N ρ s₀ d.session claim)).and
    (@stable_tidy N ρ s₀ d log)
  have hall : ∀ kind us, TakenOf N d.session t.buffers kind us →
      ∀ u ∈ us, OfNode N ρ (uploadKey u) ∧ u.kind = kind := fun kind us hu u hmem =>
    hi.ofNode (hu u hmem).1
  refine safe_side rfl hP1 (fun s h => h.2.claims) (fun t _ ht S _ => ht.1.2.stored)
    ⟨⟨hcl.next hm rfl, hhf'⟩, fun k hk => hlogT.claims k hk, hsaved⟩ fun t1 _ _ _ ht1 => ?_
  refine Safe.bind contract_refl (safe_saveLayers d.luck hP1 (fun s h => h.2.claims)
    (fun s h => h.1.1.target) (hall _ _ htd) ht1) fun log2 _ s2 _ h2 => ?_
  have hP2 := hP1.and (Stable.forall fun u =>
      Stable.imp (a := u ∈ depth) (@stable_handed N ρ s₀ (.node d) (claim, u)))
  refine Safe.bind contract_refl (safe_saveLayers d.luck hP2 (fun s h => h2.2.claims h.1.2.claims)
    (fun s h => h.1.1.1.target) (hall _ _ htc) h2.1) fun log3 _ s3 _ h3 => ?_
  have hP3 := hP2.and (Stable.forall fun u =>
      Stable.imp (a := u ∈ costmap) (@stable_handed N ρ s₀ (.node d) (claim, u)))
  have h23 := h2.2.trans h3.2
  refine safe_pure hP3 h3.1 fun t4 _ h4 => ⟨?_, h4.1.1.1.1, h4.1.1.1.2, h23.1, h23.2.2, fun u hu => ?_⟩
  · cases d.luck.edges <;> simp
  · rw [h23.2.1] at hu
    change u ∈ depth ++ costmap ++ takenUploads log at hu
    rw [mem_append, mem_append] at hu
    rcases hu with (hu | hu) | hu
    · exact ⟨claim, h4.1.1.1.1.target, h4.1.2 u hu⟩
    · exact ⟨claim, h4.1.1.1.1.target, h4.2 u hu⟩
    · exact h4.1.1.2.saved u hu

lemma safe_storeNode (hN : d.node = N) (hc : Claimed N ρ d claim s)
    (ho : Open N s₀ s d.session) (hd : s.docs claim = none) (htidy : Tidy N ρ d log s) :
    Meets cfg N ρ s₀ (.node d)
      (fun log' r s' => ((r = .held claim false ∨ r = .failed .storeFailed (some claim)) ∧
        Leaves N ρ s₀ d claim claim log log' s') ∨
        r = .failed .storeFailed none ∧ Fails N ρ s₀ d claim log log' s')
      (storeNode d claim) log s := by
  have hg := hc.inSession
  have hP := (@Shelved.stable N ρ s₀ claim _ _
      ((@shelved_open N ρ s₀ d.session).and (shelved_absent hg))).and
    (@stable_tidy N ρ s₀ d log)
  refine safe_side rfl hP (fun s h => h.2.claims) (fun t _ ht => ⟨hN, rfl, ht.1.1.holds,
    ht.1.1.own, ht.1.2.2⟩) ⟨⟨hc, ho, hd⟩, htidy⟩ fun t hi _ _ ht' => ?_
  obtain ⟨images, B, he, -, hti⟩ :=
    mapNode_spec cfg t d.node d.session d.run (d.luck.clock .taken 0) claim
  rw [hN] at hti
  rw [he] at ht' ⊢
  refine Safe.bind contract_refl (safe_saveImages d.luck hP (fun s h => h.2.claims)
    (fun s h => h.1.1.target) (fun u hu => hi.ofNode (hti u hu).1) ht') fun log1 _ s1 _ h1 => ?_
  have hP1 := hP.and (Stable.forall fun u =>
      Stable.imp (a := u ∈ images) (@stable_handed N ρ s₀ (.node d) (claim, u)))
  -- the document is written, or the node stays absent
  refine safe_call hP1 h1.1 fun t2 hi2 ht2 => ⟨⟨⟨ht2.1.1.1.holds, ht2.1.1.1.own, ht2.1.1.2.2⟩,
    h1.2.claims ht2.1.2.claims⟩, fun hi3 hm => ?_⟩
  obtain ⟨⟨⟨hc2, ho2, hd2⟩, htidy2⟩, hh2⟩ := ht2
  have hsaved : AllSaved N ρ (.node d)
      (⟨.addNode claim d.luck.add, (perform cfg (.addNode claim d.luck.add) t2).1⟩ :: log1)
      (perform cfg (.addNode claim d.luck.add) t2).2 := by
    intro u hu
    change u ∈ takenUploads log1 at hu
    rw [h1.2.2.1] at hu
    rcases mem_append.mp hu with hu | hu
    · exact ⟨claim, hm.target hc2.target, hm.handed (hh2 u hu)⟩
    · obtain ⟨k, hk, hkh⟩ := htidy2.saved u hu
      exact ⟨k, hm.target hk, hm.handed hkh⟩
  have hc3 : Claimed N ρ d claim (addNode t2 claim d.luck.add).2 :=
    hc2.next hm (holder_addNode claim d.luck.add)
  have ho3 := ho2.addNode hd2 d.luck.add
  change Safe _ _ _ (if (addNode t2 claim d.luck.add).1 = true then _ else _) _
    (addNode t2 claim d.luck.add).2
  split
  · rename_i hok
    have hhalf : Half N ρ s₀ d.session claim (addNode t2 claim d.luck.add).2 := by
      refine ⟨ho3, ?_, isSome_docs_addNode hok, ho2.absent hg hd2⟩
      have := own_mem_candidateIds (addNode t2 claim d.luck.add).2 N ρ d.session
      rwa [← hc3.own] at this
    have hP3 := (@Shelved.stable N ρ s₀ claim _ _ (@shelved_half N ρ s₀ d.session claim)).and
      (@stable_tidy N ρ s₀ d (⟨.addNode claim d.luck.add,
        (perform cfg (.addNode claim d.luck.add) t2).1⟩ :: log1))
    refine Safe.imp (@safe_publishStored cfg N ρ s₀ _ d claim _ _ hN hP3 (fun s h => h.1) (fun s h => h.2)
      ⟨⟨hc3, hhalf⟩, fun k hk => ?_, hsaved⟩) fun log4 r s4 _ h4 => .inl ⟨h4.1, ?_⟩
    · obtain ⟨hS, v, hv, hh⟩ := htidy2.claims k (h1.2.1 ▸ hk)
      exact ⟨hS, v, hv, (holder_addNode k d.luck.add).trans hh⟩
    · exact ⟨h4.2.claimed, h4.2.half, h4.2.holding.trans h1.2.1, h4.2.restored, h4.2.saved⟩
  · have hP3 := (@Shelved.stable N ρ s₀ claim _ _ (@shelved_open N ρ s₀ d.session)).and
        (@stable_allSaved N ρ s₀ (.node d)
        (⟨.addNode claim d.luck.add, (perform cfg (.addNode claim d.luck.add) t2).1⟩ :: log1))
    exact safe_pure hP3 ⟨⟨hc3, ho3⟩, hsaved⟩ fun t4 _ h4 =>
      .inr ⟨rfl, h4.1.1, h4.1.2, h1.2.1, h4.2⟩

def Topology.node : Topology → Option Gid
  | .duplicate g | .held g _ => some g
  | .failed _ node => node
  | _ => none

structure Ends (N : NodeKey) (ρ : Run) (d : Delivery) (log : Log) (r : Topology) (s : State) :
    Prop where
  saved : AllSaved N ρ (.node d) log s
  duplicate : ∀ g, r = .duplicate g → InSession N d.session g ∧ Finished s g
  node : r.node.isSome → restored log = true
  unheld : ∀ g b, r ≠ .held g b

lemma stable_ends (log : Log) (r : Topology) :
    Stable N ρ s₀ (.node d) (Ends N ρ d log r) := by
  intro s s' hm hr hi h
  refine ⟨stable_allSaved log s s' hm hr hi h.saved, fun g hg => ?_, h.node, h.unheld⟩
  obtain ⟨hS, hf⟩ := h.duplicate g hg
  exact ⟨hS, hm.finished (hi.counted _ g hS) hf⟩

lemma Open.cacheComplete {S : Text} (h : Open N s₀ s S) (hg : s₀.counted g = 1) :
    Open N s₀ { s with completeCache := insert g s.completeCache } S := by
  refine ⟨h.nodeCount, h.counted, h.before, fun k hk h0 => ⟨(h.fresh k hk h0).1, fun hc => ?_⟩⟩
  rcases Finset.mem_insert.mp hc with rfl | hc
  · exact h0 hg
  · exact (h.fresh k hk h0).2 hc

def Branch (N : NodeKey) (ρ : Run) (s₀ : State) (d : Delivery) (claim : Gid) (log log' : Log)
    (r : Topology) (s : State) : Prop :=
  (∃ g b, r = .held g b ∧ Leaves N ρ s₀ d claim g log log' s) ∨
    (Claimed N ρ d claim s ∧ Open N s₀ s d.session) ∧ holding log' = holding log ∧
      Ends N ρ d log' r s

lemma safe_settleNode {ids : List Gid} (hN : d.node = N) (hc : Claimed N ρ d claim s)
    (ho : Open N s₀ s d.session) (hids : ∀ g ∈ ids, g ∈ candidateIds s N d.session ρ false)
    (hmem : claim ∈ ids) (htidy : Tidy N ρ d log s) :
    Meets cfg N ρ s₀ (.node d)
      (fun log' r s' => Branch N ρ s₀ d claim log log' r s') (settleNode d claim ids) log s := by
  have hP := (@Shelved.stable N ρ s₀ claim _ _
      ((@shelved_open N ρ s₀ d.session).and (P := fun s => Open N s₀ s d.session)
    (Q := fun s => ∀ g ∈ ids, g ∈ candidateIds s N d.session ρ false)
    fun s s' hq hm _ h g hg => hm.candidate hq (h g hg))).and
    (@stable_tidy N ρ s₀ d log)
  refine Safe.bind contract_refl (safe_locateNode d.luck hP (fun s h => h.2.claims)
    (fun s h => ⟨h.1.1, h.1.2.1⟩) (fun g hg => inSession_of_candidate (hids g hg))
    ⟨⟨hc, ho, hids⟩, htidy⟩) fun log1 found s1 _ h1 => ?_
  obtain ⟨⟨⟨⟨hc1, ho1, hids1⟩, ht1⟩, hl⟩, hsame⟩ := h1
  have htidy1 : Tidy N ρ d log1 s1 := ⟨hsame.claims ht1.claims, fun u hu => by
    rw [hsame.2.1] at hu
    exact ht1.saved u hu⟩
  cases found with
  | unknown =>
    have hP1 := (@Shelved.stable N ρ s₀ claim _ _ (@shelved_open N ρ s₀ d.session)).and
        (@stable_allSaved N ρ s₀ (.node d) log1)
    refine safe_pure hP1 ⟨⟨hc1, ho1⟩, htidy1.saved⟩ fun t _ ht =>
      .inr ⟨ht.1, hsame.1, ht.2, fun g hg => ?_, fun h => ?_, fun g b h => ?_⟩
    · cases hg
    · cases h
    · cases h
  | complete g =>
    obtain ⟨hg, hone, hf⟩ := hl
    have hgS := inSession_of_candidate (hids1 g hg)
    have hP1 := ((@Shelved.stable N ρ s₀ claim _ _ (@shelved_open N ρ s₀ d.session)).and
        (@stable_finished N ρ s₀ _ _ (.node d) hgS)).and
      (@stable_tidy N ρ s₀ d log1)
    refine safe_call hP1 ⟨⟨⟨hc1, ho1⟩, hf⟩, htidy1⟩ fun t hi ht =>
      ⟨⟨⟨ht.1.1.1.holds, hgS, ht.1.2⟩, ht.2.claims⟩, fun hi2 hm => ?_⟩
    refine Safe.imp (safe_attachDuplicate hN hP1 ?_ (fun s h => h.1.1.1.quiet) hgS
      (fun s h => h.1.2) ⟨⟨⟨ht.1.1.1.next hm rfl, ht.1.1.2.cacheComplete hone⟩, ?_⟩, ?_⟩)
      fun log2 r s2 _ h2 => .inr ?_
    · exact fun s h => ⟨fun k hk => h.2.claims k hk, fun u hu => h.2.saved u hu⟩
    · exact hm.finished (hi2.counted _ g hgS) ht.1.2
    · refine ⟨fun k hk => ht.2.claims k hk, fun u hu => ?_⟩
      obtain ⟨k, hk, hkh⟩ := ht.2.saved u hu
      exact ⟨k, hm.target hk, hkh⟩
    · obtain ⟨rfl, hp, hh, hr, hsv⟩ := h2
      refine ⟨hp.1.1, hh.trans hsame.1, hsv, fun k hk => ?_, fun _ => hr, fun k b hk => ?_⟩
      · cases hk
        exact ⟨hgS, hp.1.2⟩
      · cases hk
  | incomplete g =>
    obtain ⟨hg, hst, hne⟩ := hl
    refine Safe.imp (safe_repairNode hN hc1 ⟨ho1, hids1 g hg, hst, hne⟩ htidy1)
      fun log2 r s2 _ h2 => ?_
    obtain ⟨rfl | rfl, hl2⟩ := h2
    · exact .inl ⟨g, true, rfl, hl2.claimed, hl2.half, hl2.holding.trans hsame.1, hl2.restored, hl2.saved⟩
    · refine .inr ⟨⟨hl2.claimed, hl2.half.fresh⟩, hl2.holding.trans hsame.1, hl2.saved, fun k hk => ?_,
        fun _ => hl2.restored, fun k b hk => ?_⟩
      · cases hk
      · cases hk
  | absent =>
    refine Safe.imp (safe_storeNode hN hc1 ho1 (hl.2 claim hmem) htidy1) fun log2 r s2 _ h2 => ?_
    rcases h2 with ⟨rfl | rfl, hl2⟩ | ⟨rfl, hf2⟩
    · exact .inl ⟨claim, false, rfl, hl2.claimed, hl2.half, hl2.holding.trans hsame.1, hl2.restored,
        hl2.saved⟩
    · refine .inr ⟨⟨hl2.claimed, hl2.half.fresh⟩, hl2.holding.trans hsame.1, hl2.saved, fun k hk => ?_,
        fun _ => hl2.restored, fun k b hk => ?_⟩
      · cases hk
      · cases hk
    · refine .inr ⟨⟨hf2.claimed, hf2.fresh⟩, hf2.holding.trans hsame.1, hf2.saved, fun k hk => ?_,
        fun h => ?_, fun k b hk => ?_⟩
      · cases hk
      · cases h
      · cases hk

lemma Tidy.of_none (h : holding log = none) (hs : AllSaved N ρ (.node d) log s) :
    Tidy N ρ d log s :=
  ⟨fun g hg => absurd (h.symm.trans hg) (by simp), hs⟩

/-- What a worker leaves: the node it still holds the claim for, or nothing held. -/
def Settles (N : NodeKey) (ρ : Run) (s₀ : State) (d : Delivery) (claim : Gid) (log' : Log)
    (r : Topology) (s : State) : Prop :=
  (∃ g b, r = .held g b ∧ Claimed N ρ d claim s ∧ Half N ρ s₀ d.session g s ∧
      holding log' = some claim ∧ restored log' = true ∧ AllSaved N ρ (.node d) log' s) ∨
    holding log' = none ∧ Ends N ρ d log' r s

lemma safe_processClaimed {ids : List Gid} (hN : d.node = N) (hc : Claimed N ρ d claim s)
    (ho : Open N s₀ s d.session) (hids : ∀ g ∈ ids, g ∈ candidateIds s N d.session ρ false)
    (hmem : claim ∈ ids) (hh : holding log = some claim) (htidy : Tidy N ρ d log s) :
    Meets cfg N ρ s₀ (.node d)
      (fun log' r s' => Settles N ρ s₀ d claim log' r s') (processClaimed d claim ids) log s := by
  refine Safe.bind contract_refl (safe_settleNode hN hc ho hids hmem htidy)
    fun log1 r s1 _ h1 => ?_
  rcases h1 with ⟨g, b, rfl, hl⟩ | ⟨hco, hlog, he⟩
  · have hP := (@Shelved.stable N ρ s₀ claim _ _ (@shelved_half N ρ s₀ d.session g)).and
      (@stable_allSaved N ρ s₀ (.node d) log1)
    exact safe_pure hP ⟨⟨hl.claimed, hl.half⟩, hl.saved⟩ fun t _ ht =>
      .inl ⟨g, b, rfl, ht.1.1, ht.1.2, hl.holding.trans hh, hl.restored, ht.2⟩
  · have hrel : Meets cfg N ρ s₀ (.node d)
        (fun log' r s' => Settles N ρ s₀ d claim log' r s')
        (releaseClaim d claim >>= fun _ => pure r) log1 s1 := by
      have hP := (@Shelved.stable N ρ s₀ claim _ _ (@shelved_open N ρ s₀ d.session)).and
          (@stable_ends N ρ s₀ d log1 r)
      refine safe_call hP ⟨hco, he⟩ fun t hi ht => ⟨⟨⟨rfl, ht.1.1.own, ht.1.1.holds, .inl ht.1.2⟩,
        fun k hk => ?_⟩, fun hi2 hm => ?_⟩
      · obtain rfl : claim = k := by simpa [hlog, hh] using hk
        exact ⟨ht.1.1.inSession, d.worker, rfl, ht.1.1.holder⟩
      · have hP2 := @stable_ends N ρ s₀ d
          (⟨.release d.worker claim, ()⟩ :: log1) r
        refine safe_pure hP2 ⟨fun u hu => ?_, fun g hg => ?_, ht.2.node, ht.2.unheld⟩
          fun t2 _ h2 => .inr ⟨rfl, h2⟩
        · obtain ⟨k, hk, hkh⟩ := ht.2.saved u hu
          exact ⟨k, hm.target hk, hkh⟩
        · obtain ⟨hS, hf⟩ := ht.2.duplicate g hg
          exact ⟨hS, hm.finished (hi2.counted _ g hS) hf⟩
    cases r with
    | held g b => exact absurd rfl (he.unheld g b)
    | raised | busy => exact hrel
    | failed reason node => exact hrel
    | duplicate g => exact hrel

lemma Inv.known (h : Inv N ρ s₀ s) {S : Text}
    (hk : knownComplete s N S (candidateIds s N S ρ false) = some g) :
    InSession N S g ∧ Finished s g := by
  have hg := inSession_of_candidate (mem_of_find?_eq_some hk)
  have hp := List.find?_some hk
  simp only [Bool.and_eq_true, decide_eq_true_eq, Bool.or_eq_true, Bool.decide_and] at hp
  refine ⟨hg, ?_⟩
  obtain ⟨hi, hp | hp⟩ := hp
  · cases hst : s.stored.get N with
    | none => simp [hst] at hp
    | some x =>
      obtain ⟨rfl, -⟩ : x.1 = g ∧ x.2 = S := by simpa [hst] using hp
      exact (h.stored x hst).2.2.resolve_left hi
  · exact h.complete S g hg hp

lemma Inv.openClaim (h : Inv N ρ s₀ s) {S : Text}
    (hk : knownComplete s N S (candidateIds s N S ρ false) = none)
    (hb : ∀ k ∈ candidateIds s N S ρ false, k ∉ s.processing) : Open N s₀ s S := by
  have hfree : ∀ g, InSession N S g → s.holder g = none := by
    intro g hg
    by_contra hne
    obtain ⟨v, hv⟩ := Option.ne_none_iff_exists'.mp hne
    obtain rfl := (h.held S g v hg hv).2
    exact hb _ (own_mem_candidateIds s N ρ S) ((h.processing S _ hg).mpr hne)
  rcases h.free S hfree with ho | ⟨-, -, g, hg, -, -, hc, hi⟩
  · exact ho
  · have := List.find?_eq_none.mp hk g hg
    simp [hi, hc] at this

lemma safe_lookNode {busy : Gid → Handler Topology} (hN : d.node = N) (hρ : d.run = ρ)
    (hP : Stable N ρ s₀ (.node d) P)
    (hq : ∀ s, P s → Quiet N ρ s ∧ claim = own N ρ s d.session) (hh : holding log = none)
    (hlog : ∀ s, P s → AllSaved N ρ (.node d) log s) (hs : P s)
    (hbusy : ∀ log' t g, SameLog log log' → P t →
      Meets cfg N ρ s₀ (.node d) (fun log' r s' => Settles N ρ s₀ d claim log' r s') (busy g) log' t) :
    Meets cfg N ρ s₀ (.node d)
      (fun log' r s' => Settles N ρ s₀ d claim log' r s') (lookNode d claim busy) log s := by
  refine safe_call hP hs fun t hi ht => ⟨⟨⟨rfl, hN, rfl, hρ, (hq t ht).1, (hq t ht).2⟩,
    (Tidy.of_none hh (hlog t ht)).claims⟩, fun hi2 hm => ?_⟩
  rw [show perform cfg (.look d.worker d.node d.session d.run claim) t =
    look t d.worker d.node d.session d.run claim from rfl]
  change Mono N ρ t (look t d.worker d.node d.session d.run claim).2 at hm
  rw [hN, hρ] at hm ⊢
  rcases look_cases t d.worker N d.session ρ claim with ⟨k, hl, hk⟩ | ⟨k, hl⟩ | ⟨hl, hk, hb⟩
  · rw [hl]
    obtain ⟨hkS, hf⟩ := hi.known hk
    have hP1 := hP.and (@stable_finished N ρ s₀ _ _ (.node d) hkS)
    refine Safe.imp (safe_attachDuplicate hN hP1 ?_ (fun s h => (hq s h.1).1) hkS (fun s h => h.2)
      ⟨ht, hf⟩) fun log2 r s2 _ h2 => .inr ?_
    · exact fun s h => Tidy.of_none hh (hlog s h.1)
    · obtain ⟨rfl, hp, hh2, hr, hsv⟩ := h2
      refine ⟨hh2.trans hh, hsv, fun g hg => ?_, fun _ => hr, fun g b hg => ?_⟩
      · cases hg
        exact ⟨hkS, hp.2⟩
      · cases hg
  · rw [hl]
    exact hbusy _ t k ⟨rfl, rfl, rfl⟩ ht
  · rw [hl] at hm ⊢
    obtain ⟨hqt, hown⟩ := hq t ht
    have ho := hi.openClaim hk hb
    refine safe_processClaimed hN ⟨(hm.quiet hqt).1, hown.trans (hm.own hqt _).symm,
      update_self ..⟩ { ho with } (fun g hg => hg) ?_ rfl
      ⟨fun k hk => ?_, fun u hu => ?_⟩
    · rw [hown]
      exact own_mem_candidateIds t N ρ d.session
    · obtain rfl : claim = k := Option.some.inj hk
      exact ⟨hown ▸ inSession_own N ρ t d.session, d.worker, rfl, update_self ..⟩
    · obtain ⟨g, hg, hgh⟩ := hlog t ht u hu
      exact ⟨g, hm.target hg, hgh⟩

lemma safe_waitClaim {c : Call} (hP : Stable N ρ s₀ c P) (hlog : ∀ s, P s → Claims N c log s)
    (hs : P s) : Meets cfg N ρ s₀ c (fun log' _ s' => P s' ∧ SameLog log log') (waitClaim g) log s := by
  refine safe_side rfl hP hlog (fun _ _ _ => trivial) hs fun t _ _ _ ht => ?_
  generalize (perform cfg (.enroll g) t).1 = event
  cases event with
  | none => exact safe_pure hP ht fun t2 _ h2 => ⟨h2, .refl log⟩
  | some n =>
    change Safe _ _ _ (call (.woken g n) >>= fun woken : Bool => pure woken) _ _
    refine safe_side rfl hP (fun s h => hlog s h) (fun _ _ _ => trivial) ht fun t2 _ _ _ h2 => ?_
    exact safe_pure hP h2 fun t3 _ h3 => ⟨h3, .refl log⟩

lemma ends_busy (hsv : AllSaved N ρ (.node d) log s) : Ends N ρ d log .busy s := by
  refine ⟨hsv, fun g hg => ?_, fun h => ?_, fun g b hg => ?_⟩
  · cases hg
  · cases h
  · cases hg

lemma safe_processLoop (hN : d.node = N) (hρ : d.run = ρ) {slots : Nat} (hP : Stable N ρ s₀ (.node d) P)
    (hq : ∀ s, P s → Quiet N ρ s ∧ claim = own N ρ s d.session) (hh : holding log = none)
    (hlog : ∀ s, P s → AllSaved N ρ (.node d) log s) (hs : P s) :
    Meets cfg N ρ s₀ (.node d)
      (fun log' r s' => Settles N ρ s₀ d claim log' r s') (processLoop d claim slots) log s := by
  have hbusy : ∀ log' t, SameLog log log' → P t → Meets cfg N ρ s₀ (.node d)
      (fun log' r s' => Settles N ρ s₀ d claim log' r s') (pure .busy) log' t := by
    intro log' t hsame ht
    refine safe_pure hP ht fun t2 _ h2 => .inr ⟨hsame.1.trans hh, ends_busy fun u hu => ?_⟩
    rw [hsame.2.1] at hu
    exact hlog t2 h2 u hu
  induction slots generalizing log s with
  | zero => exact safe_lookNode hN hρ hP hq hh hlog hs fun log' t _ hsame ht => hbusy log' t hsame ht
  | succ slots ih =>
    refine safe_lookNode hN hρ hP hq hh hlog hs fun log' t g hsame ht => ?_
    have hh' : holding log' = none := hsame.1.trans hh
    have hlog' : ∀ s, P s → AllSaved N ρ (.node d) log' s := fun s h u hu => by
      rw [hsame.2.1] at hu
      exact hlog s h u hu
    refine Safe.bind contract_refl (safe_waitClaim hP
      (fun s h => (Tidy.of_none hh' (hlog' s h)).claims) ht) fun log2 waited s2 _ h2 => ?_
    have hsame2 := hsame.trans h2.2
    change Safe _ _ _ (if waited = true then _ else _) _ _
    split
    · refine ih (hsame2.1.trans hh) (fun s h u hu => ?_) h2.1 fun log3 t3 hsame3 ht3 => ?_
      · rw [hsame2.2.1] at hu
        exact hlog s h u hu
      · exact hbusy log3 t3 (hsame2.trans hsame3) ht3
    · exact hbusy log2 s2 hsame2 h2.1

lemma safe_probeRun {c : Call} {luck : Luck} {robot : Text} (hP : Stable N ρ s₀ c P)
    (hlog : ∀ s, P s → Claims N c log s) (hs : P s) : Meets cfg N ρ s₀ c
      (fun log' _ s' => P s' ∧ SameLog log log') (probeRun luck robot) log s := by
  refine safe_side rfl hP hlog (fun _ _ _ => trivial) hs fun t _ _ _ ht => ?_
  refine safe_ite (fun _ => ?_) fun _ => ?_
  · change Safe _ _ _ (call (.probed _ _ _) >>= fun _ => pure ()) _ _
    refine safe_side rfl hP (fun s h => hlog s h) (fun _ _ _ => trivial) ht fun t2 _ _ _ h2 => ?_
    exact safe_pure hP h2 fun t3 _ h3 => ⟨h3, .refl log⟩
  · exact safe_pure hP ht fun t2 _ h2 => ⟨h2, .refl log⟩

def Worked (N : NodeKey) (ρ : Run) (s₀ : State) (d : Delivery) (log : Log)
    (x : Option Gid × Topology) (s : State) : Prop :=
  (∃ claim, x.1 = some claim ∧ Settles N ρ s₀ d claim log x.2 s) ∨
    holding log = none ∧ Ends N ρ d log x.2 s

lemma allSaved_of_none (ht : takenUploads log = []) : AllSaved N ρ (.node d) log s := by
  intro u hu
  rw [ht] at hu
  cases hu

lemma safe_detect (hN : d.node = N) (hρ : d.run = ρ) (hh : holding log = none)
    (ht : takenUploads log = []) : Meets cfg N ρ s₀ (.node d) (fun log' x s' => Worked N ρ s₀ d log' x s')
      (call (.detect d.node d.session d.run d.luck.token) >>= fun id : Option Gid => match id with
        | none => pure (none, .raised)
        | some claim => processLoop d claim d.luck.slots >>= fun result =>
          pure (some claim, result)) log s := by
  refine safe_call (stable_const True) trivial fun t hi _ => ⟨⟨⟨hN, rfl, hρ⟩,
    (Tidy.of_none hh (@allSaved_of_none N ρ _ _ _ ht)).claims⟩, fun hi2 hm => ?_⟩
  simp only [perform]
  cases hd : detectAndClearSessionReset t d.node d.run d.luck.token with
  | none =>
    refine safe_pure (stable_const True) trivial fun t2 _ _ => .inr ⟨hh,
      allSaved_of_none ht, fun g hg => ?_, fun h => ?_, fun g b hg => ?_⟩
    · cases hg
    · cases h
    · cases hg
  | some t' =>
    rw [hN, hρ] at hd
    obtain ⟨-, -, hquiet⟩ := detect_keeps hd
    have hP : Stable N ρ s₀ (.node d) fun s => Quiet N ρ s ∧
        nodeGlobalId t' d.node d.session d.run = own N ρ s d.session :=
      fun s s' hm _ _ h => ⟨(hm.quiet h.1).1, h.2.trans (hm.own h.1 _).symm⟩
    refine Safe.bind contract_refl (safe_processLoop hN hρ hP (fun s h => h) hh
      (fun s _ => allSaved_of_none ht) ⟨hquiet, by rw [hN, hρ]; rfl⟩)
      fun log2 r s2 hi2 h2 => ?_
    rcases h2 with ⟨g, b, rfl, hc, hhf, hh2, hr2, hsv⟩ | ⟨hh2, he⟩
    · have hP2 := (@Shelved.stable N ρ s₀ (nodeGlobalId t' d.node d.session d.run) _ _
          (@shelved_half N ρ s₀ d.session g)).and
        (@stable_allSaved N ρ s₀ (.node d) log2)
      exact safe_pure hP2 ⟨⟨hc, hhf⟩, hsv⟩ fun t3 _ h3 =>
        .inl ⟨_, rfl, .inl ⟨g, b, rfl, h3.1.1, h3.1.2, hh2, hr2, h3.2⟩⟩
    · exact safe_pure (stable_ends log2 r) he fun t3 _ h3 => .inr ⟨hh2, h3⟩

lemma safe_processTopology (hN : d.node = N) (hρ : d.run = ρ) (hh : holding log = none)
    (ht : takenUploads log = []) :
    Meets cfg N ρ s₀ (.node d)
      (fun log' x s' => Worked N ρ s₀ d log' x s') (processTopology d) log s := by
  change Safe _ _ _ (if d.run.isNone = true then _ else _) _ _
  split
  · refine Safe.bind contract_refl (safe_probeRun (stable_const True)
      (fun s _ => (Tidy.of_none hh (@allSaved_of_none N ρ _ _ _ ht)).claims) trivial)
      fun log1 _ s1 _ h1 => ?_
    exact safe_detect hN hρ (h1.2.1.trans hh) (h1.2.2.1.trans ht)
  · exact safe_detect hN hρ hh ht

lemma Half.countNode (h : Half N ρ s₀ d.session g s) (hi : Inv N ρ s₀ s) :
    s.counted g = 0 ∧ Counted N ρ s₀ d.session g (countNode s g) := by
  have hg := inSession_of_candidate h.candidate
  have hle := hi.counted _ g hg
  have heq := h.fresh.counted g hg
  have hne := h.before
  have h0 : s.counted g = 0 := by omega
  refine ⟨h0, ?_, h.candidate, h.stored, by omega, ?_⟩
  · simp only [Ingest.countNode, hg.2.2, update_self]
    rw [h.fresh.nodeCount]
  · simp [Ingest.countNode, h0]

lemma markComplete_marked (hd : (s.docs g).isSome) (ok : Bool) :
    g ∈ (markComplete s g ok).2.unmarked ∨ Complete (markComplete s g ok).2 g := by
  obtain ⟨doc, hdoc⟩ := Option.isSome_iff_exists.mp hd
  unfold markComplete
  rw [hdoc]
  cases ok with
  | false => exact .inl (Finset.mem_insert_self ..)
  | true => exact .inr ⟨_, update_self .., rfl⟩

lemma holder_markComplete (k : Gid) (ok : Bool) :
    (markComplete s g ok).2.holder k = s.holder k := by
  unfold markComplete
  cases s.docs g <;> cases ok <;> rfl

lemma Counted.markComplete {ok : Bool} (h : Counted N ρ s₀ d.session g s)
    (hm : Mono N ρ s (markComplete s g ok).2) (hq : Quiet N ρ s) :
    Counted N ρ s₀ d.session g (markComplete s g ok).2 := by
  refine ⟨?_, hm.candidate hq h.candidate, hm.isSome h.stored, h.before, ?_⟩
  · unfold Ingest.markComplete
    cases s.docs g <;> cases ok <;> exact h.nodeCount
  · unfold Ingest.markComplete
    cases s.docs g <;> cases ok <;> exact h.counted

lemma durable_partsTruth (hi : Inv N ρ s₀ s) {S : Text} (hg : InSession N S g) {manifest : List Part}
    {docOk listOk : Bool} : ∀ p ∈ partsTruth s g manifest docOk listOk, Durable s g p := by
  intro p hp
  unfold partsTruth at hp
  obtain ⟨-, hp⟩ := mem_filter.mp hp
  have hrec : ∀ b : Bool, (b && (s.docs g).any fun doc => p ∈ doc.records) = true → Durable s g p := by
    intro b hb
    rw [Bool.and_eq_true] at hb
    cases hdoc : s.docs g with
    | none => simp [hdoc] at hb
    | some doc =>
      have hr : p ∈ doc.records := by simpa [hdoc] using hb.2
      exact ⟨hi.records S g doc p hg hdoc hr, fun _ => ⟨doc, hdoc, hr⟩⟩
  cases hk : p.kind with
  | image =>
    rw [hk] at hp
    refine ⟨?_, fun h => absurd hk h⟩
    simp only [Bool.and_eq_true, decide_eq_true_eq] at hp
    exact hp.2
  | depth | costmap => exact hrec _ (by simpa [hk] using hp)

lemma safe_readTruth {c : Call} {S : Text} (hP : Stable N ρ s₀ c P)
    (hlog : ∀ s, P s → Claims N c log s) (hg : InSession N S g) (hs : P s) :
    Meets cfg N ρ s₀ c (fun log' truth s' => (P s' ∧ ∀ p ∈ truth, Durable s' g p) ∧ SameLog log log')
      (readTruth d g) log s := by
  unfold readTruth
  refine safe_ite (fun _ => ?_) fun _ => ?_
  · exact safe_pure hP hs fun t _ ht => ⟨⟨ht, by simp⟩, .refl log⟩
  · change Safe _ _ _ (call (.partsTruth g d.parts d.luck.truthDoc d.luck.truthList) >>=
      fun truth : List Part => pure truth) _ _
    refine safe_side rfl hP hlog (fun _ _ _ => trivial) hs fun t hi _ _ ht => ?_
    exact safe_pure (hP.and (Stable.forall fun p => Stable.imp (stable_durable g p)))
      ⟨ht, durable_partsTruth hi hg⟩ fun t2 _ h2 => ⟨h2, .refl log⟩

lemma safe_report {e : Acks.Event} {clock : Nat → Int} {c : Call} (hP : Stable N ρ s₀ c P)
    (hlog : ∀ s, P s → Claims N c log s)
    (he : ∀ s, P s → Foreign N ρ e ∨ Vouched N ρ c.worker c.session s e) (hs : P s) :
    Meets cfg N ρ s₀ c (fun log' _ s' => P s' ∧ SameLog log log') (ack e clock) log s := by
  change Safe _ _ _ (call (.ack e clock) >>= fun _ => pure ()) _ _
  refine safe_side rfl hP hlog (fun t _ ht => he t ht) hs fun t _ _ _ ht => ?_
  exact safe_pure hP ht fun t2 _ h2 => ⟨h2, ⟨rfl, rfl, rfl⟩⟩

lemma ofNode_key (hN : d.node = N) (hρ : d.run = ρ) : OfNode N ρ d.key :=
  ⟨congrArg NodeKey.robot hN, hρ, congrArg NodeKey.sid hN⟩

lemma safe_nodeOk {status : Acks.Status} {truth : List Part} (hN : d.node = N) (hρ : d.run = ρ)
    (hg : InSession N d.session g) (hP : Stable N ρ s₀ (.node d) P)
    (hlog : ∀ s, P s → Claims N (.node d) log s)
    (hf : ∀ s, P s → Finished s g ∧ ∀ p ∈ truth, Durable s g p) (hs : P s) :
    Meets cfg N ρ s₀ (.node d) (fun log' _ s' => P s' ∧ SameLog log log') (nodeOk d status truth) log s :=
  safe_report hP hlog (fun s h => .inr ⟨by simp [Call.worker], ofNode_key hN hρ, rfl, g, hg,
    (hf s h).1, (hf s h).2⟩) hs

def Left (N : NodeKey) (ρ : Run) (d : Delivery) (log : Log) (s : State) : Prop :=
  holding log = none ∧ restored log = true ∧ AllSaved N ρ (.node d) log s

lemma stable_left (log : Log) : Stable N ρ s₀ (.node d) (Left N ρ d log) :=
  fun s s' hm hr hi h => ⟨h.1, h.2.1, stable_allSaved log s s' hm hr hi h.2.2⟩

lemma Left.same {log' : Log} (h : Left N ρ d log s) (hs : SameLog log log') :
    Left N ρ d log' s := by
  refine ⟨hs.1.trans h.1, hs.2.2.trans h.2.1, fun u hu => ?_⟩
  rw [hs.2.1] at hu
  exact h.2.2 u hu

lemma Left.claims (h : Left N ρ d log s) : Claims N (.node d) log s :=
  (Tidy.of_none h.1 h.2.2).claims

lemma safe_release {P Q : State → Prop} (hP : Stable N ρ s₀ (.node d) P)
    (hc : ∀ s, P s → Claimed N ρ d claim s ∧ Settled N ρ s₀ s d.session)
    (hh : holding log = some claim) (hr : restored log = true)
    (hsv : ∀ s, P s → AllSaved N ρ (.node d) log s)
    (hQ : ∀ s, P s → Inv N ρ s₀ (release s claim) → Mono N ρ s (release s claim) →
      Q (release s claim)) {α : Type} {f : Unit → Handler α} {post : Log → α → State → Prop}
    (hs : P s) (h : ∀ log' t, Left N ρ d log' t → Q t → Meets cfg N ρ s₀ (.node d) post (f ()) log' t) :
    Meets cfg N ρ s₀ (.node d) post (releaseClaim d claim >>= f) log s := by
  refine safe_call hP hs fun t hi ht => ⟨⟨⟨rfl, (hc t ht).1.own, (hc t ht).1.holds, (hc t ht).2⟩,
    fun k hk => ?_⟩, fun hi2 hm => h _ _ ⟨rfl, hr, fun u hu => ?_⟩ (hQ t ht hi2 hm)⟩
  · obtain rfl : claim = k := by simpa [hh] using hk
    exact ⟨(hc t ht).1.inSession, d.worker, rfl, (hc t ht).1.holder⟩
  · obtain ⟨k, hk, hkh⟩ := hsv t ht u hu
    exact ⟨k, hm.target hk, hkh⟩

lemma safe_completeHeld {status : Bool} (hN : d.node = N) (hρ : d.run = ρ)
    (hc : Claimed N ρ d claim s) (hct : Counted N ρ s₀ d.session g s) (hh : holding log = some claim)
    (hr : restored log = true) (hsv : AllSaved N ρ (.node d) log s) :
    Meets cfg N ρ s₀ (.node d) (fun log' _ s' => Left N ρ d log' s')
      (completeNode d g >>= fun _ => releaseClaim d claim >>= fun _ =>
        readRepaired d g status >>= fun truth => nodeOk d .accepted truth) log s := by
  have hg := inSession_of_candidate hct.candidate
  have hcl : ∀ log' t, holding log' = some claim → Claimed N ρ d claim t →
      Claims N (.node d) log' t := by
    intro log' t hh' hct' k hk
    obtain rfl : claim = k := by simpa [hh'] using hk
    exact ⟨hct'.inSession, d.worker, rfl, hct'.holder⟩
  have hkeep : ∀ {t t' : State}, Mono N ρ t t' → AllSaved N ρ (.node d) log t →
      AllSaved N ρ (.node d) log t' := by
    intro t t' hm h u hu
    obtain ⟨k, hk, hkh⟩ := h u hu
    exact ⟨k, hm.target hk, hm.handed hkh⟩
  have hP := (@Shelved.stable N ρ s₀ claim _ _ (@shelved_counted N ρ s₀ d.session g)).and
    (@stable_allSaved N ρ s₀ (.node d) log)
  change Safe _ _ _ (call (.markComplete g d.luck.mark) >>= fun _ : Bool =>
    call (.discardIncomplete g) >>= fun _ => call (.cacheComplete g) >>= fun _ =>
      releaseClaim d claim >>= fun _ => readRepaired d g status >>= fun truth =>
        nodeOk d .accepted truth) _ _
  refine safe_call hP ⟨⟨hc, hct⟩, hsv⟩ fun t hi ht =>
    ⟨⟨⟨ht.1.1.holds, hg, ht.1.2.stored⟩, hcl log t hh ht.1.1⟩, fun hi1 hm1 => ?_⟩
  have hct1 := ht.1.2.markComplete hm1 ht.1.1.quiet
  have hf1 : Finished (markComplete t g d.luck.mark).2 g :=
    ⟨hct1.counted, hct1.stored, markComplete_marked ht.1.2.stored d.luck.mark⟩
  have hP1 := hP.and (@stable_finished N ρ s₀ _ _ (.node d) hg)
  refine safe_call hP1 ⟨⟨⟨ht.1.1.next hm1 (holder_markComplete claim d.luck.mark), hct1⟩,
    hkeep hm1 ht.2⟩, hf1⟩ fun t2 hi2 ht2 =>
    ⟨⟨⟨ht2.1.1.1.holds, hg, ht2.2⟩, hcl _ t2 hh ht2.1.1.1⟩, fun hi3 hm3 => ?_⟩
  have hout : Shelved N ρ d.session fun s => g ∉ s.incomplete :=
    fun _ _ _ _ hs h h' => h ((hs.incomplete g hg).mp h')
  have hP2 := ((@Shelved.stable N ρ s₀ claim _ _ ((@shelved_counted N ρ s₀ d.session g).and hout)).and
    (@stable_allSaved N ρ s₀ (.node d) log)).and
    (@stable_finished N ρ s₀ _ _ (.node d) hg)
  obtain ⟨⟨⟨hc2, hct2⟩, hsv2⟩, hf2⟩ := ht2
  refine safe_call hP2 ⟨⟨⟨hc2.next hm3 rfl, { hct2 with }, Finset.notMem_erase g _⟩, hkeep hm3 hsv2⟩, hm3.finished (hi3.counted _ g hg) hf2⟩
    fun t3 hi4 ht3 => ⟨⟨⟨ht3.1.1.1.holds, hg, ht3.2⟩, hcl _ t3 hh ht3.1.1.1⟩, fun hi5 hm5 => ?_⟩
  have hin : Shelved N ρ d.session fun s => g ∈ s.completeCache :=
    fun _ _ _ _ hs h => (hs.complete g hg).mpr h
  have hP3 := ((@Shelved.stable N ρ s₀ claim _ _
      (((@shelved_counted N ρ s₀ d.session g).and hout).and hin)).and
    (@stable_allSaved N ρ s₀ (.node d) log)).and
    (@stable_finished N ρ s₀ _ _ (.node d) hg)
  obtain ⟨⟨⟨hc3, hct3, hni3⟩, hsv3⟩, hf3⟩ := ht3
  refine safe_release (Q := fun s => Finished s g) hP3 (fun s h => ⟨h.1.1.1, .inr ⟨h.1.1.1.quiet,
    h.1.1.2.1.1.nodeCount, g, h.1.1.2.1.1.candidate, h.1.1.2.1.1.before, h.1.1.2.1.1.counted,
    h.1.1.2.2, h.1.1.2.1.2⟩⟩) ?_ ?_ ?_ (fun s h hi hm => hm.finished (hi.counted _ g hg) h.2)
    ⟨⟨⟨hc3.next hm5 rfl, ⟨{ hct3 with },
      hni3⟩, Finset.mem_insert_self ..⟩, hkeep hm5 hsv3⟩, hm5.finished (hi5.counted _ g hg) hf3⟩
    fun log4 t4 hl4 hf4 => ?_
  · exact hh
  · exact hr
  · exact fun s h => h.1.2
  have hP4 := (@stable_left N ρ s₀ d log4).and
    (@stable_finished N ρ s₀ _ _ (.node d) hg)
  have htruth : Meets cfg N ρ s₀ (.node d)
      (fun log' truth s' => ((Left N ρ d log4 s' ∧ Finished s' g) ∧ ∀ p ∈ truth, Durable s' g p) ∧
        SameLog log4 log') (readRepaired d g status) log4 t4 := by
    unfold readRepaired
    refine safe_ite (fun _ => ?_) fun _ => ?_
    · exact safe_readTruth hP4 (fun s h => h.1.claims) hg ⟨hl4, hf4⟩
    · exact safe_pure hP4 ⟨hl4, hf4⟩ fun t5 _ h5 => ⟨⟨h5, by simp⟩, .refl log4⟩
  refine Safe.bind contract_refl htruth fun log5 truth s5 _ h5 => ?_
  have hP5 := hP4.and (Stable.forall fun p =>
      Stable.imp (a := p ∈ truth) (@stable_durable N ρ s₀ (.node d) g p))
  refine Safe.imp (safe_nodeOk hN hρ hg hP5 (fun s h => (h.1.1.same h5.2).claims)
    (fun s h => ⟨h.1.2, h.2⟩) h5.1) fun log6 _ s6 _ h6 => h6.1.1.1.same (h5.2.trans h6.2)

lemma safe_countHeld {repaired : Bool} (hN : d.node = N) (hρ : d.run = ρ)
    (hc : Claimed N ρ d claim s) (hhf : Half N ρ s₀ d.session g s) (hh : holding log = some claim)
    (hr : restored log = true) (hsv : AllSaved N ρ (.node d) log s) :
    Meets cfg N ρ s₀ (.node d) (fun log' _ s' => Left N ρ d log' s')
      (countHeld d claim g repaired) log s := by
  have hg := inSession_of_candidate hhf.candidate
  have hP := (@Shelved.stable N ρ s₀ claim _ _ (@shelved_half N ρ s₀ d.session g)).and
    (@stable_allSaved N ρ s₀ (.node d) log)
  refine safe_call hP ⟨⟨hc, hhf⟩, hsv⟩ fun t hi ht => ⟨⟨⟨ht.1.1.holds, hg,
    (ht.1.2.countNode hi).1, ht.1.2.fresh⟩, fun k hk => ?_⟩, fun hi2 hm => ?_⟩
  · obtain rfl : claim = k := by simpa [hh] using hk
    exact ⟨ht.1.1.inSession, d.worker, rfl, ht.1.1.holder⟩
  change Mono N ρ t (if d.luck.count = true then countNode t g else t) at hm
  change Safe _ _ _ (if d.luck.count = true then _ else _) _
    (if d.luck.count = true then countNode t g else t)
  cases hcount : d.luck.count with
  | true =>
    rw [if_pos rfl, if_pos rfl]
    rw [hcount, if_pos rfl] at hm
    refine safe_completeHeld hN hρ (ht.1.1.next hm rfl) (ht.1.2.countNode hi).2 hh hr fun u hu => ?_
    obtain ⟨k, hk, hkh⟩ := ht.2 u hu
    exact ⟨k, hm.target hk, hkh⟩
  | false =>
    rw [if_neg (by simp), if_neg (by simp)]
    refine safe_release (Q := fun _ => True) hP (fun s h => ⟨h.1.1, .inl h.1.2.fresh⟩) ?_ ?_ ?_
      (fun _ _ _ _ => trivial) ht fun log4 t4 hl4 _ => ?_
    · exact hh
    · exact hr
    · exact fun s h => h.2
    refine Safe.imp (safe_report (stable_left log4) (fun s h => h.claims) (fun s _ => .inr trivial)
      hl4) fun log5 _ s5 _ h5 => h5.1.same h5.2

end Delivery
end CloudServer.Ingest
