import CloudServer.IngestShelf

/-! The handlers keep their promises whatever the others do between two of their operations. -/
namespace CloudServer.Ingest

open List
open Acks (Kind Part Sid Run Key Reason Message)
open UploadBuffer (NodeKey Upload Placed)
open Scan (Text)
open Interact (Prog Contract Safe)

abbrev Log := List (Σ o, Res o)

/-- The claim that a call has taken and not released. -/
def holding : Log → Option Gid
  | [] => none
  | ⟨.look _ _ _ _ claim, Look.taken _⟩ :: _ => some claim
  | ⟨.release _ _, _⟩ :: _ => none
  | _ :: log => holding log

def takenUploads : Log → List Upload
  | [] => []
  | ⟨.restore _ _ _ _ _, (images, depth, costmap)⟩ :: log =>
    images ++ depth ++ costmap ++ takenUploads log
  | ⟨.mapNode _ _ _ _ _, (images : List Upload)⟩ :: log => images ++ takenUploads log
  | ⟨.nodeStored _ _ _ _ _, (depth, costmap)⟩ :: log => depth ++ costmap ++ takenUploads log
  | _ :: log => takenUploads log

def restored : Log → Bool
  | [] => false
  | ⟨.restore _ _ _ _ _, _⟩ :: _ => true
  | ⟨.nodeStored _ _ _ _ _, _⟩ :: _ => true
  | _ :: log => restored log

def Claims (N : NodeKey) (c : Call) (log : Log) (s : State) : Prop :=
  ∀ g, holding log = some g → InSession N c.session g ∧ ∃ v, c.worker = some v ∧
    s.holder g = some v

def contract (N : NodeKey) (ρ : Run) (s₀ : State) (c : Call) : Contract Op Res State where
  rely _ s s' := Mono N ρ s s' ∧ ∀ v, c.worker = some v → Rely N ρ v s s'
  inv := Inv N ρ s₀
  guar log o s := Allowed N ρ s₀ c.worker c.session o s ∧ Claims N c log s

/-- A part of a handler meets the contract of its call, from the log and store it starts with. -/
abbrev Meets {α : Type} (cfg : Config) (N : NodeKey) (ρ : Run) (s₀ : State) (c : Call) :
    (Log → α → State → Prop) → Handler α → Log → State → Prop :=
  Safe (perform cfg) (contract N ρ s₀ c)

def Stable (N : NodeKey) (ρ : Run) (s₀ : State) (c : Call) (P : State → Prop) : Prop :=
  ∀ s s', Mono N ρ s s' → (∀ v, c.worker = some v → Rely N ρ v s s') → Inv N ρ s₀ s' →
    P s → P s'

/-- Neither a claim nor buffered uploads were taken or given up between two logs. -/
def SameLog (log log' : Log) : Prop :=
  holding log' = holding log ∧ takenUploads log' = takenUploads log ∧
    restored log' = restored log

section Rules
variable {cfg : Config} {N : NodeKey} {ρ : Run} {s₀ s : State} {c : Call} {P Q : State → Prop}
variable {α β : Type} {post : Log → α → State → Prop} {log log' : Log}

lemma contract_refl (log : Log) (s : State) : (contract N ρ s₀ c).rely log s s :=
  ⟨.refl N ρ s, fun v _ => .refl N ρ v s⟩

lemma contract_trans (log : Log) (s t u : State) (h : (contract N ρ s₀ c).rely log s t)
    (h' : (contract N ρ s₀ c).rely log t u) : (contract N ρ s₀ c).rely log s u :=
  ⟨h.1.trans h'.1, fun v hv => (h.2 v hv).trans (h'.2 v hv)⟩

lemma Stable.and (hP : Stable N ρ s₀ c P) (hQ : Stable N ρ s₀ c Q) :
    Stable N ρ s₀ c fun s => P s ∧ Q s :=
  fun s s' hm hr hi h => ⟨hP s s' hm hr hi h.1, hQ s s' hm hr hi h.2⟩

lemma stable_claims (log : Log) : Stable N ρ s₀ c (Claims N c log) := by
  intro s s' _ hr _ h g hg
  obtain ⟨hS, v, hv, hh⟩ := h g hg
  exact ⟨hS, v, hv, (((hr v hv).kept _ g hS hh).holder g hS).trans hh⟩

lemma SameLog.refl (log : Log) : SameLog log log := ⟨rfl, rfl, rfl⟩

lemma SameLog.trans {log'' : Log} (h : SameLog log log') (h' : SameLog log' log'') :
    SameLog log log'' :=
  ⟨h'.1.trans h.1, h'.2.1.trans h.2.1, h'.2.2.trans h.2.2⟩

lemma SameLog.claims (h : SameLog log log') (hc : Claims N c log s) : Claims N c log' s :=
  fun g hg => hc g (h.1 ▸ hg)

variable {o : Op} {f : Res o → Handler α}

lemma safe_call (hP : Stable N ρ s₀ c P) (hs : P s)
    (h : ∀ t, Inv N ρ s₀ t → P t → (Allowed N ρ s₀ c.worker c.session o t ∧ Claims N c log t) ∧
      (Inv N ρ s₀ (perform cfg o t).2 → Mono N ρ t (perform cfg o t).2 →
        Meets cfg N ρ s₀ c post (f (perform cfg o t).1)
          (⟨o, (perform cfg o t).1⟩ :: log) (perform cfg o t).2)) :
    Meets cfg N ρ s₀ c post (call o >>= f) log s := by
  refine Safe.perform fun t hr hi => ?_
  obtain ⟨hg, hsafe⟩ := h t hi (hP s t hr.1 hr.2 hi hs)
  obtain ⟨hi', hm, -⟩ := perform_keeps cfg hi hg.1
  exact ⟨hg, hsafe hi' hm⟩

lemma safe_pure {a : α} (hP : Stable N ρ s₀ c P) (hs : P s) (h : ∀ t, Inv N ρ s₀ t → P t → post log a t) :
    Meets cfg N ρ s₀ c post (pure a) log s :=
  fun t hr hi => h t hi (hP s t hr.1 hr.2 hi hs)

lemma safe_ite {b : Prop} {_ : Decidable b} {p q : Handler α} (hp : b → Meets cfg N ρ s₀ c post p log s)
    (hq : ¬b → Meets cfg N ρ s₀ c post q log s) :
    Meets cfg N ρ s₀ c post (if b then p else q) log s := by
  split
  · exact hp ‹_›
  · exact hq ‹_›

lemma Stable.side (hP : Stable N ρ s₀ c P) (ho : o.shelf = false) (hi : Inv N ρ s₀ s)
    (ha : Allowed N ρ s₀ c.worker c.session o s) (hs : P s) : P (perform cfg o s).2 := by
  obtain ⟨hside, -⟩ := perform_side cfg ho ha
  exact hP _ _ hside.mono (fun v _ => hside.rely v) (perform_keeps cfg hi ha).1 hs

lemma safe_side (ho : o.shelf = false) (hP : Stable N ρ s₀ c P) (hlog : ∀ s, P s → Claims N c log s)
    (ha : ∀ t, Inv N ρ s₀ t → P t → Allowed N ρ s₀ c.worker c.session o t) (hs : P s)
    (h : ∀ t, Inv N ρ s₀ t → P t → Inv N ρ s₀ (perform cfg o t).2 → P (perform cfg o t).2 →
      Meets cfg N ρ s₀ c post (f (perform cfg o t).1)
        (⟨o, (perform cfg o t).1⟩ :: log) (perform cfg o t).2) :
    Meets cfg N ρ s₀ c post (call o >>= f) log s := by
  refine safe_call hP hs fun t hi ht => ?_
  have hal := ha t hi ht
  exact ⟨⟨hal, hlog t ht⟩, fun hi' _ => h t hi ht hi' (hP.side ho hi hal ht)⟩

end Rules

section Saving
variable {cfg : Config} {N : NodeKey} {ρ : Run} {s₀ : State} {c : Call} {g : Gid} (luck : Luck)

lemma stable_handed (x : Gid × Upload) : Stable N ρ s₀ c fun s => x ∈ s.handed :=
  fun _ _ hm _ _ h => hm.handed h

lemma stable_object (x : Gid × Part) : Stable N ρ s₀ c fun s => x ∈ s.objects :=
  fun _ _ hm _ _ h => hm.objects h

lemma stable_durable (g : Gid) (p : Part) : Stable N ρ s₀ c fun s => Durable s g p :=
  fun _ _ hm _ _ h => hm.durable h

lemma Stable.forall {ι : Type} {P : ι → State → Prop} (h : ∀ i, Stable N ρ s₀ c (P i)) :
    Stable N ρ s₀ c fun s => ∀ i, P i s :=
  fun s s' hm hr hi hp i => h i s s' hm hr hi (hp i)

lemma Stable.imp {a : Prop} {P : State → Prop} (h : Stable N ρ s₀ c P) :
    Stable N ρ s₀ c fun s => a → P s :=
  fun s s' hm hr hi hp ha => h s s' hm hr hi (hp ha)

lemma storeObject_fst (s : State) (u : Upload) (ok : Bool) : (storeObject s g u ok).1 = ok := by
  cases ok <;> rfl

lemma handed_storeObject (s : State) (u : Upload) (ok : Bool) :
    (g, u) ∈ (storeObject s g u ok).2.handed := by
  cases ok <;> simp [storeObject]

lemma objects_storeObject (s : State) (u : Upload) :
    (g, u.part) ∈ (storeObject s g u true).2.objects := by
  simp [storeObject]

lemma safe_notePartStored {α : Type} {f : Unit → Handler α} {post : Log → α → State → Prop}
    {P : State → Prop} {log : Log} {s : State} {u : Upload} (hP : Stable N ρ s₀ c P)
    (hlog : ∀ s, P s → Claims N c log s) (hkey : OfNode N ρ (uploadKey u))
    (hdur : ∀ s, P s → ∃ g, Target N ρ s c.session g ∧ Durable s g u.part) (hs : P s)
    (h : ∀ log' t, SameLog log log' → P t → Meets cfg N ρ s₀ c post (f ()) log' t) :
    Meets cfg N ρ s₀ c post (notePartStored luck u >>= f) log s := by
  refine safe_side rfl hP hlog (fun t _ ht => .inr ⟨hkey, hdur t ht⟩) hs fun t _ _ _ ht => ?_
  exact h _ _ ⟨rfl, rfl, rfl⟩ ht

variable {us : List Upload}

lemma safe_saveImages {P : State → Prop} {log : Log} {s : State}
    (hP : Stable N ρ s₀ c P) (hlog : ∀ s, P s → Claims N c log s)
    (htar : ∀ s, P s → Target N ρ s c.session g)
    (hus : ∀ u ∈ us, OfNode N ρ (uploadKey u) ∧ u.kind = .image) (hs : P s) :
    Meets cfg N ρ s₀ c (fun log' _ s' => (P s' ∧ ∀ u ∈ us, (g, u) ∈ s'.handed) ∧ SameLog log log')
      (saveImages luck g us) log s := by
  induction us generalizing P log s with
  | nil => exact safe_pure hP hs fun t _ ht => ⟨⟨ht, by simp⟩, .refl log⟩
  | cons u us ih =>
    obtain ⟨hkey, hkind⟩ := hus u (by simp)
    have hus' : ∀ v ∈ us, OfNode N ρ (uploadKey v) ∧ v.kind = .image :=
      fun v hv => hus v (by simp [hv])
    refine safe_side rfl hP hlog (fun _ _ _ => trivial) hs fun t _ _ _ ht => ?_
    have hh := handed_storeObject (g := g) t u (luck.object u)
    change Safe _ _ _ (if (storeObject t g u (luck.object u)).1 = true then _ else _) _ _
    rw [storeObject_fst]
    change P (storeObject t g u (luck.object u)).2 at ht
    change Safe _ _ _ _ _ (storeObject t g u (luck.object u)).2
    cases hok : luck.object u with
    | false =>
      rw [if_neg (by simp)]
      rw [hok] at hh ht
      have hP1 := hP.and (@stable_handed N ρ s₀ c (g, u))
      refine Safe.imp (ih hP1 ?_ (fun s h => htar s h.1) hus' ⟨ht, hh⟩) fun log' _ s' _ h =>
        ⟨⟨h.1.1.1, fun v hv => ?_⟩, SameLog.trans ⟨rfl, rfl, rfl⟩ h.2⟩
      · exact fun s h => hlog s h.1
      · rcases mem_cons.mp hv with rfl | hv
        · exact h.1.1.2
        · exact h.1.2 v hv
    | true =>
      rw [if_pos rfl]
      rw [hok] at hh ht
      have ho := objects_storeObject (g := g) t u
      have hP1 := (hP.and (@stable_handed N ρ s₀ c (g, u))).and
        (@stable_object N ρ s₀ c (g, u.part))
      refine safe_notePartStored luck hP1 (fun s h => SameLog.claims ⟨rfl, rfl, rfl⟩ (hlog s h.1.1)) hkey
        (fun s h => ⟨g, htar s h.1.1, h.2, fun hk => absurd hkind hk⟩) ⟨⟨ht, hh⟩, ho⟩
        fun log1 t1 hsame ht1 => ?_
      have hsame' : SameLog log log1 := SameLog.trans ⟨rfl, rfl, rfl⟩ hsame
      refine Safe.bind contract_refl (ih hP1 (fun s h => hsame'.claims (hlog s h.1.1))
        (fun s h => htar s h.1.1) hus' ht1) fun log2 _ s2 _ h2 => ?_
      refine safe_pure (hP1.and (Stable.forall fun v => Stable.imp (stable_handed (g, v))))
        h2.1 fun t2 _ h3 => ⟨⟨h3.1.1.1, fun v hv => ?_⟩, hsame'.trans h2.2⟩
      rcases mem_cons.mp hv with rfl | hv
      · exact h3.1.1.2
      · exact h3.2 v hv

lemma safe_storeObjects {P : State → Prop} {log : Log} {s : State}
    (hP : Stable N ρ s₀ c P) (hlog : ∀ s, P s → Claims N c log s) (hs : P s) :
    Meets cfg N ρ s₀ c
      (fun log' stored s' => (P s' ∧ (∀ u ∈ us, (g, u) ∈ s'.handed) ∧
        ∀ u ∈ stored, u ∈ us ∧ (g, u.part) ∈ s'.objects) ∧ SameLog log log')
      (storeObjects luck g us) log s := by
  induction us generalizing P log s with
  | nil => exact safe_pure hP hs fun t _ ht => ⟨⟨ht, by simp, by simp⟩, .refl log⟩
  | cons u us ih =>
    refine safe_side rfl hP hlog (fun _ _ _ => trivial) hs fun t _ _ _ ht => ?_
    have hh := handed_storeObject (g := g) t u (luck.object u)
    have ho : luck.object u = true → (g, u.part) ∈ (storeObject t g u (luck.object u)).2.objects := by
      intro h
      rw [h]
      exact objects_storeObject t u
    change P (storeObject t g u (luck.object u)).2 at ht
    change Safe _ _ _ _ _ (storeObject t g u (luck.object u)).2
    have hP1 := (hP.and (@stable_handed N ρ s₀ c (g, u))).and
      (Stable.imp (a := luck.object u = true) (@stable_object N ρ s₀ c (g, u.part)))
    refine Safe.bind contract_refl (ih hP1 (fun s h => SameLog.claims ⟨rfl, rfl, rfl⟩ (hlog s h.1.1))
      ⟨⟨ht, hh⟩, ho⟩) fun log2 rest s2 _ h2 => ?_
    have hP2 := hP1.and ((Stable.forall fun v => Stable.imp (a := v ∈ us) (@stable_handed N ρ s₀ c (g, v))).and
      (Stable.forall fun v => Stable.imp (a := v ∈ rest) (@stable_object N ρ s₀ c (g, v.part))))
    refine safe_pure hP2 ⟨h2.1.1, h2.1.2.1, fun v hv => (h2.1.2.2 v hv).2⟩ fun t2 _ h3 =>
      ⟨⟨h3.1.1.1, fun v hv => ?_, fun v hv => ?_⟩, SameLog.trans ⟨rfl, rfl, rfl⟩ h2.2⟩
    · rcases mem_cons.mp hv with rfl | hv
      · exact h3.1.1.2
      · exact h3.2.1 v hv
    · have hrest : ∀ v ∈ rest, v ∈ u :: us ∧ (g, v.part) ∈ t2.objects :=
        fun v hv => ⟨mem_cons_of_mem _ (h2.1.2.2 v hv).1, h3.2.2 v hv⟩
      change v ∈ (if (storeObject t g u (luck.object u)).1 = true then u :: rest else rest) at hv
      rw [storeObject_fst] at hv
      split at hv
      · rename_i hok
        rcases mem_cons.mp hv with rfl | hv
        · exact ⟨by simp, h3.1.2 hok⟩
        · exact hrest v hv
      · exact hrest v hv

lemma safe_notePartsStored {P : State → Prop} {log : Log} {s : State}
    (hP : Stable N ρ s₀ c P) (hlog : ∀ s, P s → Claims N c log s)
    (hus : ∀ u ∈ us, OfNode N ρ (uploadKey u) ∧ ∀ s, P s → ∃ g, Target N ρ s c.session g ∧ Durable s g u.part) (hs : P s) :
    Meets cfg N ρ s₀ c (fun log' _ s' => P s' ∧ SameLog log log') (notePartsStored luck us) log s := by
  induction us generalizing log s with
  | nil => exact safe_pure hP hs fun t _ ht => ⟨ht, .refl log⟩
  | cons u us ih =>
    obtain ⟨hkey, hdur⟩ := hus u (by simp)
    refine safe_notePartStored luck hP hlog hkey hdur hs fun log1 t1 hsame ht1 => ?_
    exact (ih (fun s h => hsame.claims (hlog s h)) (fun v hv => hus v (by simp [hv])) ht1).imp
      fun log2 _ s2 _ h2 => ⟨h2.1, hsame.trans h2.2⟩

lemma durable_setRecords {s : State} {parts : List Part} {ok : Bool}
    (hp : ∀ p ∈ parts, (g, p) ∈ s.objects) (h : (setRecords s g parts ok).1 = true) :
    ∀ p ∈ parts, Durable (setRecords s g parts ok).2 g p := by
  unfold setRecords at h ⊢
  cases hd : s.docs g with
  | none => simp [hd] at h
  | some d =>
    cases ok with
    | false => simp [hd] at h
    | true =>
      exact fun p hpp => ⟨hp p hpp, fun _ => ⟨_, Function.update_self .., mem_union_iff.mpr (.inr hpp)⟩⟩

lemma safe_saveLayers {P : State → Prop} {log : Log} {s : State} {kind : Kind}
    (hP : Stable N ρ s₀ c P) (hlog : ∀ s, P s → Claims N c log s)
    (htar : ∀ s, P s → Target N ρ s c.session g)
    (hus : ∀ u ∈ us, OfNode N ρ (uploadKey u) ∧ u.kind = kind) (hs : P s) :
    Meets cfg N ρ s₀ c (fun log' _ s' => (P s' ∧ ∀ u ∈ us, (g, u) ∈ s'.handed) ∧ SameLog log log')
      (saveLayers luck kind g us) log s := by
  refine Safe.bind contract_refl (safe_storeObjects luck hP hlog hs) fun log1 stored s1 _ h1 => ?_
  have hhand : Stable N ρ s₀ c fun s => ∀ u ∈ us, (g, u) ∈ s.handed :=
    Stable.forall fun v => Stable.imp (stable_handed (g, v))
  have hP1 := hP.and hhand
  have hdone : ∀ b : Bool, Meets cfg N ρ s₀ c
      (fun log' _ s' => (P s' ∧ ∀ u ∈ us, (g, u) ∈ s'.handed) ∧ SameLog log log')
      (pure b) log1 s1 := fun b =>
    safe_pure hP1 ⟨h1.1.1, h1.1.2.1⟩ fun t _ ht => ⟨ht, h1.2⟩
  change Safe _ _ _ (if stored.isEmpty = true then _ else _) _ _
  split
  · exact hdone false
  · have hobj : Stable N ρ s₀ c fun s => ∀ p ∈ stored.map Upload.part, (g, p) ∈ s.objects :=
      Stable.forall fun p => Stable.imp (stable_object (g, p))
    have hobj1 : ∀ p ∈ stored.map Upload.part, (g, p) ∈ s1.objects := by
      intro p hp
      obtain ⟨u, hu, rfl⟩ := mem_map.mp hp
      exact (h1.1.2.2 u hu).2
    refine safe_side rfl (hP1.and hobj) (fun s h => h1.2.claims (hlog s h.1.1))
      (fun t _ ht => ht.2) ⟨⟨h1.1.1, h1.1.2.1⟩, hobj1⟩ fun t _ ht _ ht' => ?_
    have hdur := @durable_setRecords g t _ (luck.records kind) ht.2
    change Safe _ _ _ (if (setRecords t g (stored.map Upload.part) (luck.records kind)).1 = true
      then _ else _) _ (setRecords t g (stored.map Upload.part) (luck.records kind)).2
    change _ ∧ _ at ht'
    split
    · rename_i hok
      have hP2 := hP1.and (Stable.forall fun p => Stable.imp (a := p ∈ stored.map Upload.part) (@stable_durable N ρ s₀ c g p))
      refine Safe.bind contract_refl (safe_notePartsStored luck hP2
        (fun s h => SameLog.claims ⟨rfl, rfl, rfl⟩ (h1.2.claims (hlog s h.1.1))) (fun u hu => ?_)
        ⟨ht'.1, hdur hok⟩) fun log2 _ s2 _ h2 => ?_
      · rw [mem_filter, decide_eq_true_eq] at hu
        obtain ⟨hkey, hkind⟩ := hus u hu.1
        refine ⟨hkey, fun s h => ⟨g, htar s h.1.1, h.2 u.part ?_⟩⟩
        obtain ⟨v, hv, hsub⟩ := mem_map.mp hu.2
        refine mem_map.mpr ⟨v, hv, ?_⟩
        simp [Upload.part, hsub, hkind, (hus v (h1.1.2.2 v hv).1).2]
      · exact safe_pure hP2 h2.1 fun t2 _ h3 => ⟨h3.1, h1.2.trans (SameLog.trans ⟨rfl, rfl, rfl⟩ h2.2)⟩
    · exact safe_pure hP1 ht'.1 fun t2 _ h3 => ⟨h3, h1.2.trans ⟨rfl, rfl, rfl⟩⟩

end Saving
end CloudServer.Ingest
