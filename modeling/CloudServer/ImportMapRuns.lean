import CloudServer.ImportMap

/-! Imports of the map in every interleaving: while no deletion drops anything under an import, a
map that is reported ok is whole, and one that is not is hidden. -/
namespace CloudServer.ImportMap

open List
open Interact (Prog Contract Safe Good Move next)

abbrev System (β : Type) := Interact.Sys (Op β) Res (Store β) ℕ (Call β) Bool Unit

def holding {β : Type} : Log β → Bool
  | [] => false
  | ⟨.lock granted, _⟩ :: _ => granted
  | ⟨.leave _ _, _⟩ :: _ => false
  | _ :: log => holding log

def committed {β : Type} : Log β → Bool
  | [] => false
  | ⟨.commitMap _ _ _, (ok : Bool)⟩ :: _ => ok
  | ⟨.leave _ _, _⟩ :: _ => false
  | _ :: log => committed log

section
variable {β : Type}

def idle (s : Store β) : System β := ⟨s, fun _ => (), fun _ => none⟩

abbrev Runs (dst : MapName) (cond : System β → Move ℕ (Call β) → Prop) :=
  Interact.Run step (body dst) () cond

def Held (T : System β) : Prop := ∃ i f, T.flight i = some f ∧ holding f.own = true

def Exclusive : System β → Move ℕ (Call β) → Prop
  | T, .op i => ∀ c k own, T.flight i = some ⟨c, .call (.lock true) k, own⟩ → ¬Held T
  | _, _ => True

def Op.drops : Op β → Bool
  | .deleteGraph _ | .deleteImages _ | .finish _ => true
  | _ => false

/-- No deletion drops a store or the row while an import of the map holds its lock. -/
def Spared : System β → Move ℕ (Call β) → Prop
  | T, .op i => ∀ c o k own, T.flight i = some ⟨c, .call o k, own⟩ → o.drops = true → ¬Held T
  | _, _ => True

def Told : System β → Move ℕ (Call β) → Prop
  | T, .op i => ∀ c o k own, T.flight i = some ⟨c, .call o k, own⟩ →
      (∀ state marker, o ≠ .commitMap state marker .lost) ∧
        ∀ ok, o = .leave ok false → committed own = false
  | T, .crash i => ∀ f, T.flight i = some f → committed f.own = false
  | _, _ => True

structure Whole (dst : MapName) (b : Bundle β) (s : Store β) : Prop where
  row : ∃ r m, s.row = some r ∧ r.lifecycle ≠ .deleted ∧ r.importedFrom = some m ∧
    m.source = b.source ∧ m.map = b.map ∧ m.phase = .complete ∧
    r.state = some (finalState m.sourceState b.nodes.length)
  docs : ∀ coll, ∀ d ∈ b.docs dst coll, (s.docs coll d.key).isSome
  objects : ∀ o ∈ b.objects, ∃ x, s.objects o.key = some x ∧ x.size = o.size
  sessions : ∀ x ∈ b.sessions, s.sessions x.1 ≠ some .elsewhere →
    ∃ record, s.sessions x.1 = some (.here record)
  view : ∀ v, b.view = some v → s.view.isSome

def SameRow (s s' : Store β) : Prop :=
  ∀ r, s.row = some r → ∃ r', s'.row = some r' ∧ (r.lifecycle ≠ .deleted → r'.lifecycle ≠ .deleted) ∧
    r'.state = r.state ∧ r'.importedFrom = r.importedFrom

structure Kept (s s' : Store β) : Prop where
  row : SameRow s s'
  docs : s'.docs = s.docs
  objects : s'.objects = s.objects
  sessions : ∀ id, (s.sessions id).isSome → (s'.sessions id).isSome
  view : s'.view = s.view

structure Grows (s s' : Store β) : Prop where
  row : SameRow s s'
  docs : ∀ coll k, (s.docs coll k).isSome → (s'.docs coll k).isSome
  sessions : ∀ id, (s.sessions id).isSome → (s'.sessions id).isSome
  view : s.view.isSome → s'.view.isSome

def Marked (b : Bundle β) (importId : ImportId) (marker : Marker) (s : Store β) : Prop :=
  ∃ r m, s.row = some r ∧ r.lifecycle ≠ .deleted ∧ r.importedFrom = some m ∧
    m.source = b.source ∧ m.map = b.map ∧ marker = m.touch importId

def Holds (log : Log β) : Prop := holding log = true ∧ committed log = false

def ImportOp (dst : MapName) (b : Bundle β) (importId : ImportId) (log : Log β) :
    Op β → Store β → Prop
  | .lock _, _ | .getRow _, _ | .objectSize .., _ => committed log = false
  | .beginMap marker _, _ => Holds log ∧ marker = b.opening importId
  | .addSessions sessions _, _ => Holds log ∧ sessions = b.sessions
  | .insertMany coll docs _, _ => Holds log ∧ docs ⊆ b.docs dst coll
  | .putObject o _, _ => Holds log ∧ o ∈ b.objects ∧ o.present = false
  | .putViewSettings settings _, _ => Holds log ∧ b.view = some settings
  | .commitMap _ marker _, s => Holds log ∧
      ∃ m, Marked b importId m s ∧ marker = { m with phase := .complete }
  | .leave ok _, s => if ok then Whole dst b s ∧ committed log = true else committed log = false
  | _, _ => False

def Op.deletes : Op β → Bool
  | .mark _ | .load _ | .deleteGraph _ | .deleteImages _ | .finish _ => true
  | _ => false

def Promised (dst : MapName) : Call β → Log β → Op β → Store β → Prop
  | .applyMap b importId _, log, o, s => ImportOp dst b importId log o s
  | .elsewhere _, log, o, _ => committed log = false ∧ ∃ sessions, o = .addElsewhere sessions
  | .request _, log, o, _ => committed log = false ∧ o.deletes = true
  | .round _, log, o, _ => committed log = false ∧ o.deletes = true

def contract (dst : MapName) (c : Call β) : Contract (Op β) Res (Store β) where
  rely log s s' := holding log = true → Kept s s'
  inv _ := True
  guar log o s := Promised dst c log o s

variable {dst : MapName} {b : Bundle β} {importId : ImportId} {w : Script} {c : Call β}
variable {log : Log β} {s s' s'' : Store β}

lemma SameRow.refl (s : Store β) : SameRow s s := fun r hr => ⟨r, hr, id, rfl, rfl⟩

lemma SameRow.trans (h : SameRow s s') (h' : SameRow s' s'') : SameRow s s'' := by
  intro r hr
  obtain ⟨r', hr', hlife, hstate, hfrom⟩ := h r hr
  obtain ⟨r'', hr'', hlife', hstate', hfrom'⟩ := h' r' hr'
  exact ⟨r'', hr'', hlife' ∘ hlife, hstate'.trans hstate, hfrom'.trans hfrom⟩

lemma Kept.refl (s : Store β) : Kept s s := ⟨.refl s, rfl, rfl, fun _ h => h, rfl⟩

lemma Kept.trans (h : Kept s s') (h' : Kept s' s'') : Kept s s'' where
  row := h.row.trans h'.row
  docs := h'.docs.trans h.docs
  objects := h'.objects.trans h.objects
  sessions id hid := h'.sessions id (h.sessions id hid)
  view := h'.view.trans h.view

lemma Kept.grows (h : Kept s s') : Grows s s' where
  row := h.row
  docs coll k hk := by rwa [h.docs]
  sessions := h.sessions
  view hv := by rwa [h.view]

lemma contract_refl (log : Log β) (s : Store β) : (contract dst c).rely log s s :=
  fun _ => .refl s

lemma contract_trans (log : Log β) (s t u : Store β) (h : (contract dst c).rely log s t)
    (h' : (contract dst c).rely log t u) : (contract dst c).rely log s u :=
  fun hl => (h hl).trans (h' hl)

variable {o : Op β} {marker : Marker} {objects : List (Object β)}

lemma Marked.mono (h : Marked b importId marker s) (hs : SameRow s s') :
    Marked b importId marker s' := by
  obtain ⟨r, m, hr, hlife, hm, hrest⟩ := h
  obtain ⟨r', hr', hlife', -, hfrom⟩ := hs r hr
  exact ⟨r', m, hr', hlife' hlife, hfrom.trans hm, hrest⟩

lemma Whole.mono (h : Whole dst b s) (hs : Kept s s') : Whole dst b s' where
  row := by
    obtain ⟨r, m, hr, hlife, hm, hsource, hmap, hphase, hstate⟩ := h.row
    obtain ⟨r', hr', hlife', hstate', hfrom⟩ := hs.row r hr
    exact ⟨r', m, hr', hlife' hlife, hfrom.trans hm, hsource, hmap, hphase, hstate'.trans hstate⟩
  docs coll d hd := by
    rw [hs.docs]
    exact h.docs coll d hd
  objects o ho := by
    rw [hs.objects]
    exact h.objects o ho
  sessions x hx hnot := by
    have hsome : (s'.sessions x.1).isSome := by
      apply hs.sessions
      cases hold : s.sessions x.1 with
      | none =>
        obtain ⟨record, hr⟩ := h.sessions x hx (by simp [hold])
        simp [hold] at hr
      | some holder => rfl
    cases hnew : s'.sessions x.1 with
    | none => simp [hnew] at hsome
    | some holder =>
      cases holder with
      | here record => exact ⟨record, rfl⟩
      | elsewhere => exact absurd hnew hnot
  view v hv := by
    rw [hs.view]
    exact h.view v hv

variable {α : Type} {i : ℕ} {docs : List (Doc β)} {p q : Import β Bool} {s0 : Store β} {own : Log β}

lemma insertDocs_isSome {old : Key → Option (Doc β)} {k : Key} :
    (insertDocs old docs k).isSome ↔ (old k).isSome ∨ ∃ d ∈ docs, d.key = k := by
  simp [insertDocs, List.find?_isSome]

lemma Grows.addSessions (sessions : List (SessionId × β)) : Grows s (s.addSessions sessions) where
  row := .refl s
  docs _ _ h := h
  sessions id h := by simp [Store.addSessions, h]
  view h := h

lemma Grows.insertMany (coll : Coll) (docs : List (Doc β)) : Grows s (s.insertMany coll docs) where
  row := .refl s
  docs coll' k h := by
    by_cases hc : coll' = coll
    · subst hc
      simp [Store.insertMany, insertDocs_isSome, h]
    · simpa [Store.insertMany, hc] using h
  sessions _ h := h
  view h := h

lemma Grows.putObject (key : Key) (stored : Stored β) : Grows s (s.putObject key stored) :=
  ⟨.refl s, fun _ _ h => h, fun _ h => h, fun h => h⟩

lemma Grows.putViewSettings (settings : β) : Grows s (s.putViewSettings settings) where
  row := .refl s
  docs _ _ h := h
  sessions _ h := h
  view h := by simp [Store.putViewSettings]

/-- A part of an import under the lock: from `P`, it ends with the lock held, and in `Q` unless it
raised. -/
def Carries (dst : MapName) (c : Call β) (P : Store β → Prop) (p : Import β Bool)
    (Q : Store β → Prop) : Prop :=
  ∀ log s, Holds log → P s →
    Safe step (contract dst c) (fun log ok s => Holds log ∧ (ok = true → Q s)) p log s

def Stable (P : Store β → Prop) : Prop := ∀ s s', Grows s s' → P s → P s'

def Steady (P : Store β → Prop) : Prop := ∀ s s', Kept s s' → P s → P s'

variable {P Q R : Store β → Prop}

lemma Stable.steady (h : Stable P) : Steady P := fun s s' hs => h s s' hs.grows

lemma Steady.and (h : Steady P) (h' : Steady Q) : Steady fun s => P s ∧ Q s :=
  fun s s' hs hp => ⟨h s s' hs hp.1, h' s s' hs hp.2⟩

lemma Stable.and (h : Stable P) (h' : Stable Q) : Stable fun s => P s ∧ Q s :=
  fun s s' hs hp => ⟨h s s' hs hp.1, h' s s' hs hp.2⟩

lemma stable_docs (coll : Coll) (docs : List (Doc β)) :
    Stable fun s : Store β => ∀ d ∈ docs, (s.docs coll d.key).isSome :=
  fun _ _ hs h d hd => hs.docs coll d.key (h d hd)

lemma stable_sessions (sessions : List (SessionId × β)) :
    Stable fun s : Store β => ∀ x ∈ sessions, (s.sessions x.1).isSome :=
  fun _ _ hs h x hx => hs.sessions x.1 (h x hx)

lemma stable_marked (marker : Marker) : Stable (Marked b importId marker) :=
  fun _ _ hs h => h.mono hs.row

lemma Carries.raise : Carries dst c P (pure false) Q :=
  fun _ _ hl _ _ _ _ => ⟨hl, fun h => by cases h⟩

lemma Carries.skip (hP : Steady P) : Carries dst c P (pure true) P :=
  fun _ _ hl hp s' hr _ => ⟨hl, fun _ => hP _ s' (hr hl.1) hp⟩

lemma Carries.imp (h : Carries dst c P p Q) (himp : ∀ s, Q s → R s) :
    Carries dst c P p R :=
  fun log s hl hp => (h log s hl hp).imp fun _ _ s _ hq => ⟨hq.1, fun ok => himp s (hq.2 ok)⟩

lemma Carries.andThen (hp : Carries dst c P p Q)
    (hq : Carries dst c Q q R) : Carries dst c P (andThen p q) R := by
  intro log s hl hP
  unfold ImportMap.andThen
  apply Safe.bind contract_refl (hp log s hl hP)
  intro log' ok s' _ hmid
  cases ok with
  | true => exact hq log' s' hmid.1 (hmid.2 rfl)
  | false => exact Carries.raise (P := fun _ => True) log' s' hmid.1 trivial

lemma Carries.addSessions (hP : Stable P) (fate : Fate) :
    Carries dst (.applyMap b importId w) P (addSessions b.sessions fate)
      fun s => P s ∧ ∀ x ∈ b.sessions, (s.sessions x.1).isSome := by
  intro log s hl hp s1 h1 _
  have hp1 : P s1 := hP s s1 (h1 hl.1).grows hp
  refine ⟨⟨hl, rfl⟩, fun s2 h2 _ => ⟨hl, fun hok => ?_⟩⟩
  have h2 : Kept (if fate = .failed then s1 else s1.addSessions b.sessions) s2 := h2 hl.1
  cases fate with
  | failed | lost => cases hok
  | done =>
    refine ⟨hP _ s2 h2.grows (hP _ _ (.addSessions b.sessions) hp1), fun x hx => ?_⟩
    apply h2.sessions
    suffices ((b.sessions.find? (·.1 = x.1))).isSome by
      simp [Store.addSessions, this]
    exact List.find?_isSome.mpr ⟨x, hx, by simp⟩

lemma Carries.insertMany (hP : Stable P) {coll : Coll}
    (hdocs : docs ⊆ b.docs dst coll) (fate : PutFate) :
    Carries dst (.applyMap b importId w) P (insertMany coll docs fate)
      fun s => P s ∧ ∀ d ∈ docs, (s.docs coll d.key).isSome := by
  intro log s hl hp s1 h1 _
  have hp1 : P s1 := hP s s1 (h1 hl.1).grows hp
  refine ⟨⟨hl, hdocs⟩, fun s2 h2 _ => ⟨hl, fun hok => ?_⟩⟩
  cases fate with
  | broken got => cases hok
  | done =>
    have h2 : Kept (s1.insertMany coll docs) s2 := h2 hl.1
    refine ⟨hP _ s2 h2.grows (hP _ _ (.insertMany coll docs) hp1), fun d hd => ?_⟩
    rw [h2.docs]
    simp only [Store.insertMany, Function.update_self]
    exact insertDocs_isSome.mpr (.inr ⟨d, hd, rfl⟩)

lemma Carries.putBatches (coll : Coll) (rest : List (List (Doc β))) (hdocs : ∀ docs ∈ rest, docs ⊆ b.docs dst coll) :
    ∀ (P : Store β → Prop), Stable P → ∀ i,
      Carries dst (.applyMap b importId w) P (putBatches coll w i rest)
        fun s => P s ∧ ∀ docs ∈ rest, ∀ d ∈ docs, (s.docs coll d.key).isSome := by
  induction rest with
  | nil =>
    intro P hP i
    exact (Carries.skip hP.steady).imp fun s hp => ⟨hp, by simp⟩
  | cons docs rest ih =>
    intro P hP i
    unfold ImportMap.putBatches
    split
    · exact .raise
    · have hfirst : Carries dst (.applyMap b importId w) P
          (ImportMap.insertMany coll docs (w.put coll i)) _ :=
        Carries.insertMany hP (hdocs docs mem_cons_self) (w.put coll i)
      have hrest := ih (fun docs' h => hdocs docs' (mem_cons_of_mem docs h)) _
        (hP.and (stable_docs coll docs)) (i + 1)
      refine (hfirst.andThen hrest).imp fun s hs => ⟨hs.1.1, fun docs' h d hd => ?_⟩
      obtain rfl | h := mem_cons.mp h
      · exact hs.1.2 d hd
      · exact hs.2 docs' h d hd

def Sized (objects : List (Object β)) (s : Store β) : Prop :=
  ∀ o ∈ objects, ∃ x, s.objects o.key = some x ∧ x.size = o.size

lemma steady_sized (objects : List (Object β)) : Steady (Sized objects) := by
  intro s s' hs h o ho
  rw [hs.objects]
  exact h o ho

lemma Sized.cons {o : Object β} (h : Sized objects s)
    (ho : (s.objects o.key).map (·.size) = some o.size) : Sized (o :: objects) s := by
  intro o' ho'
  obtain rfl | ho' := mem_cons.mp ho'
  · obtain ⟨x, hx, hsize⟩ := Option.map_eq_some_iff.mp ho
    exact ⟨x, hx, hsize⟩
  · exact h o' ho'

lemma Sized.putObject (h : Sized objects s) {o : Object β}
    (hfresh : ∀ o' ∈ objects, o'.key ≠ o.key) :
    Sized (o :: objects) (s.putObject o.key ⟨o.size, o.body⟩) := by
  intro o' ho'
  obtain rfl | ho' := mem_cons.mp ho'
  · exact ⟨⟨o'.size, o'.body⟩, by simp [Store.putObject], rfl⟩
  · obtain ⟨x, hx, hsize⟩ := h o' ho'
    exact ⟨x, by simpa [Store.putObject, hfresh o' ho'] using hx, hsize⟩

lemma Carries.putObject (hP : Stable P) {o : Object β} {done : List (Object β)}
    (ho : o ∈ b.objects) (hpresent : o.present = false)
    (hfresh : ∀ o' ∈ done, o'.key ≠ o.key) (fate : ObjectFate) :
    Carries dst (.applyMap b importId w) (fun s => P s ∧ Sized done s) (putObject o fate)
      fun s => P s ∧ Sized (o :: done) s := by
  intro log s hl hp s1 h1 _
  have hp1 : P s1 := hP s s1 (h1 hl.1).grows hp.1
  have hd1 : Sized done s1 := steady_sized done s s1 (h1 hl.1) hp.2
  refine ⟨⟨hl, ho, hpresent⟩, fun s2 h2 _ => ⟨hl, fun hok => ?_⟩⟩
  cases fate with
  | failed | lost => cases hok
  | torn size => cases hok
  | done =>
    have h2 : Kept (s1.putObject o.key ⟨o.size, o.body⟩) s2 := h2 hl.1
    exact ⟨hP _ s2 h2.grows (hP _ _ (.putObject o.key _) hp1), steady_sized _ _ s2 h2 (hd1.putObject hfresh)⟩

lemma Carries.objectSize (hP : Steady P) (key : Key) (ok : Bool)
    {k : Option ℕ → Import β Bool}
    (hk : ∀ size, Carries dst (.applyMap b importId w)
      (fun s => P s ∧ ∀ n, size = some n → (s.objects key).map (·.size) = some n) (k size) Q) :
    Carries dst (.applyMap b importId w) P (objectSize key ok >>= k) Q := by
  intro log s hl hp s1 h1 _
  refine ⟨hl.2, hk _ _ s1 hl ⟨hP s s1 (h1 hl.1) hp, fun n hn => ?_⟩⟩
  cases ok with
  | true => exact hn
  | false => cases hn

lemma Carries.copyObjects (hP : Stable P) (rest : List (Object β)) :
    ∀ (done : List (Object β)) (i : ℕ), rest ⊆ b.objects → ((done ++ rest).map (·.key)).Nodup →
      Carries dst (.applyMap b importId w) (fun s => P s ∧ Sized done s) (copyObjects w i rest)
        fun s => P s ∧ Sized (done ++ rest) s := by
  induction rest with
  | nil =>
    intro done i _ _
    simpa [ImportMap.copyObjects] using Carries.skip (hP.steady.and (steady_sized done))
  | cons o rest ih =>
    intro done i hsub hkeys
    have hkeys' : (((o :: done) ++ rest).map (·.key)).Nodup :=
      (perm_middle.map _).nodup_iff.mp hkeys
    have hfresh : ∀ o' ∈ done, o'.key ≠ o.key := by
      intro o' ho' heq
      simp only [cons_append, map_cons, nodup_cons, map_append] at hkeys'
      exact hkeys'.1 (heq ▸ mem_append_left _ (mem_map_of_mem ho'))
    have hend : ∀ s : Store β, P s ∧ Sized ((o :: done) ++ rest) s →
        P s ∧ Sized (done ++ o :: rest) s := by
      intro s hs
      exact ⟨hs.1, fun o' ho' => hs.2 o' (by simpa [or_left_comm] using ho')⟩
    have hrest := (ih (o :: done) (i + 1) (subset_of_cons_subset hsub) hkeys').imp hend
    unfold ImportMap.copyObjects
    split
    · exact .raise
    · apply Carries.objectSize (hP.steady.and (steady_sized done))
      intro size
      split
      · rename_i hsize
        exact fun log s hl hp => hrest log s hl ⟨hp.1.1, hp.1.2.cons (hp.2 _ hsize)⟩
      · split
        · exact .raise
        · rename_i hpresent
          have hput : Carries dst (.applyMap b importId w) _ (ImportMap.putObject o (w.object i)) _ :=
            Carries.putObject hP (hsub mem_cons_self) (by simpa using hpresent) hfresh _
          exact fun log s hl hp => (hput.andThen hrest) log s hl hp.1

lemma Carries.copyView (hP : Stable P) :
    Carries dst (.applyMap b importId w) (fun s => P s ∧ Sized objects s) (copyView b w)
      fun s => (P s ∧ Sized objects s) ∧ ∀ v, b.view = some v → s.view.isSome := by
  have hsteady := hP.steady.and (steady_sized objects)
  unfold ImportMap.copyView
  split
  · exact .raise
  · split
    · rename_i hview
      exact (Carries.skip hsteady).imp fun s hs => ⟨hs, by simp [hview]⟩
    · rename_i settings hview
      intro log s hl hp s1 h1 _
      have hp1 := hsteady s s1 (h1 hl.1) hp
      refine ⟨⟨hl, hview⟩, fun s2 h2 _ => ⟨hl, fun hok => ?_⟩⟩
      have h2 : Kept (if w.view = .failed then s1 else s1.putViewSettings settings) s2 := h2 hl.1
      cases hfate : w.view with
      | failed | lost => simp [step, Fate.ok, hfate] at hok
      | done =>
        rw [hfate] at h2
        refine ⟨hsteady _ s2 h2 ⟨hP _ _ (.putViewSettings settings) hp1.1, hp1.2⟩, fun v _ => ?_⟩
        rw [h2.view]
        simp [Store.putViewSettings]

lemma flatten_batchesFrom (size : ℕ) (items rest : List α) :
    (batchesFrom size items rest).flatten = items ++ rest := by
  induction rest generalizing items with
  | nil =>
    cases items <;> simp [batchesFrom]
  | cons x rest ih =>
    unfold batchesFrom
    split
    · simp [ih]
    · simp [ih]

lemma flatten_batches (size : ℕ) (items : List α) :
    (batches size items).flatten = items := flatten_batchesFrom size [] items

structure Copied (dst : MapName) (b : Bundle β) (s : Store β) : Prop where
  docs : ∀ coll, ∀ d ∈ b.docs dst coll, (s.docs coll d.key).isSome
  objects : Sized b.objects s
  sessions : ∀ x ∈ b.sessions, (s.sessions x.1).isSome
  view : ∀ v, b.view = some v → s.view.isSome

lemma steady_copied : Steady (Copied dst b) := by
  intro s s' hs h
  refine ⟨?_, steady_sized b.objects s s' hs h.objects, fun x hx => hs.sessions _ (h.sessions x hx), ?_⟩
  · rw [hs.docs]
    exact h.docs
  · rw [hs.view]
    exact h.view

lemma Carries.putAll (coll : Coll) (hP : Stable P) :
    Carries dst (.applyMap b importId w) P (ImportMap.putBatches coll w 0 (batches batch (b.docs dst coll)))
      fun s => P s ∧ ∀ d ∈ b.docs dst coll, (s.docs coll d.key).isSome := by
  have hmem : ∀ d, d ∈ b.docs dst coll ↔
      ∃ docs ∈ batches batch (b.docs dst coll), d ∈ docs := by
    intro d
    conv_lhs => rw [← flatten_batches batch (b.docs dst coll)]
    exact mem_flatten
  have hput : Carries dst (.applyMap b importId w) P _ _ :=
    Carries.putBatches coll (batches batch (b.docs dst coll))
      (fun docs hdocs d hd => (hmem d).mpr ⟨docs, hdocs, hd⟩) P hP 0
  refine hput.imp fun s hs => ⟨hs.1, fun d hd => ?_⟩
  obtain ⟨docs, hdocs, hd⟩ := (hmem d).mp hd
  exact hs.2 docs hdocs d hd

lemma Carries.copyContent (hP : Stable P) :
    Carries dst (.applyMap b importId w) P (copyContent dst b w) fun s => P s ∧ Copied dst b s := by
  have hsessions := hP.and (stable_sessions b.sessions)
  have hnodes := hsessions.and (stable_docs .nodes (b.docs dst .nodes))
  have hedges := hnodes.and (stable_docs .edges (b.docs dst .edges))
  have hobjects : Carries dst (.applyMap b importId w) _ _ _ :=
    Carries.copyObjects (w := w) hedges b.objects [] 0 (List.Subset.refl _) (by simpa using b.objectKeys)
  unfold ImportMap.copyContent
  refine ((Carries.addSessions hP w.sessions).andThen ((Carries.putAll .nodes hsessions).andThen
    ((Carries.putAll .edges hnodes).andThen
      (.andThen (fun log s hl hp => hobjects log s hl ⟨hp, by simp [Sized]⟩) (Carries.copyView hedges))))).imp fun s hs => ?_
  obtain ⟨⟨⟨⟨⟨hp, hs⟩, hn⟩, he⟩, ho⟩, hv⟩ := hs
  refine ⟨hp, fun coll => ?_, ho, hs, hv⟩
  cases coll with
  | nodes => exact hn
  | edges => exact he

def Ours (b : Bundle β) (s : Store β) : Prop :=
  ∃ r m, s.row = some r ∧ r.importedFrom = some m ∧ m.source = b.source ∧ m.map = b.map

lemma Ours.mono (h : Ours b s) (hs : SameRow s s') : Ours b s' := by
  obtain ⟨r, m, hr, hm, hrest⟩ := h
  obtain ⟨r', hr', -, -, hfrom⟩ := hs r hr
  exact ⟨r', m, hr', hfrom.trans hm, hrest⟩

/-- The row was opened: the lock is held, and the row has the marker that was read. -/
def Opened (b : Bundle β) (importId : ImportId) (log : Log β) (a : Option Marker) (s : Store β) :
    Prop :=
  Holds log ∧ ∀ marker, a = some marker → Marked b importId marker s

lemma safe_none (hl : Holds log) :
    Safe step (contract dst c) (Opened b importId) (pure none) log s :=
  fun _ _ _ => ⟨hl, fun _ h => by cases h⟩

lemma safe_call {post : Log β → α → Store β → Prop} {k : Res o → Import β α} (hl : Holds log)
    (h : ∀ s', Kept s s' → Promised dst c log o s' ∧ ∀ x, (step o s').1 = x →
      Safe step (contract dst c) post (k x) (⟨o, x⟩ :: log) (step o s').2) :
    Safe step (contract dst c) post (.call o k) log s :=
  fun s' hr _ => ⟨(h s' (hr hl.1)).1, (h s' (hr hl.1)).2 _ rfl⟩

lemma row_of_getRow {ok : Bool} {r : Row} (h : (step (.getRow ok) s).1 = some (some r)) :
    s.row = some r ∧ r.lifecycle ≠ .deleted := by
  cases ok with
  | false => cases h
  | true =>
    obtain ⟨hr, hlife⟩ := Option.filter_eq_some_iff.mp (Option.some.inj h)
    exact ⟨hr, by simpa using hlife⟩

lemma safe_reread (local_ : Marker) (hl : Holds log) (hs : Ours b s) :
    Safe step (contract dst (.applyMap b importId w)) (Opened b importId) (reread local_ importId w) log s := by
  apply safe_call hl
  intro s1 h1
  refine ⟨hl.2, fun x hx => ?_⟩
  cases x with
  | none => exact safe_none hl
  | some x =>
    cases x with
    | none => exact safe_none hl
    | some row =>
      obtain ⟨r, m, hr, hm, hsource, hmap⟩ := hs.mono h1.row
      obtain ⟨hrow, hlife⟩ := row_of_getRow hx
      obtain rfl : r = row := Option.some.inj (hr.symm.trans hrow)
      intro s2 h2 _
      refine ⟨hl, fun marker hmarker => ?_⟩
      cases hmarker
      have h2 : Kept s1 s2 := h2 hl.1
      exact Marked.mono ⟨r, m, hr, hlife, hm, hsource, hmap, by simp [hm]⟩ h2.row

lemma ours_of_resumes {r : Row} (hr : s.row = some r)
    (h : r.resumes b importId = some marker) : Ours b s := by
  unfold Row.resumes at h
  split at h
  · cases h
  · rename_i theirs htheirs
    split at h
    · rename_i hmatch
      exact ⟨r, theirs, hr, htheirs, hmatch⟩
    · cases h

lemma ours_beginMap {fate : Fate} (h : (step (.beginMap (b.opening importId) fate) s).1 = some true) :
    Ours b (step (.beginMap (b.opening importId) fate) s).2 := by
  cases fate with
  | failed | lost => cases h
  | done =>
    have h : (s.beginMap (b.opening importId)).1 = true := Option.some.inj h
    change Ours b (s.beginMap (b.opening importId)).2
    unfold Store.beginMap at h ⊢
    split
    · exact ⟨_, b.opening importId, rfl, rfl, rfl, rfl⟩
    · simp_all

lemma safe_insert (hl : Holds log) :
    Safe step (contract dst (.applyMap b importId w)) (Opened b importId)
      (do
        match ← beginMap (b.opening importId) w.opened with
        | some true => reread (b.opening importId) importId w
        | _ => pure none) log s := by
  apply safe_call hl
  intro s1 _
  refine ⟨⟨hl, rfl⟩, fun x hx => ?_⟩
  cases x with
  | none => exact safe_none hl
  | some created =>
    cases created with
    | false => exact safe_none hl
    | true => exact safe_reread _ hl (ours_beginMap hx)

lemma safe_openRow (hl : Holds log) :
    Safe step (contract dst (.applyMap b importId w)) (Opened b importId) (openRow b importId w) log s := by
  apply safe_call hl
  intro s1 _
  refine ⟨hl.2, fun x hx => ?_⟩
  cases x with
  | none => exact safe_none hl
  | some x =>
    cases x with
    | some row =>
      conv => arg 4; whnf
      cases hmarker : row.resumes b importId with
      | none => exact safe_none hl
      | some marker => exact safe_reread marker hl (ours_of_resumes (row_of_getRow hx).1 hmarker)
    | none => exact safe_insert hl

/-- The map was copied: the lock is still held, and the map is whole if it was committed. -/
def Written (dst : MapName) (b : Bundle β) (log : Log β) (ok : Bool) (s : Store β) : Prop :=
  holding log = true ∧ (if ok then Whole dst b s ∧ committed log = true else committed log = false)

lemma whole_commitMap (h : Copied dst b s) (hmarked : Marked b importId marker s) :
    Whole dst b (s.commitMap (finalState marker.sourceState b.nodes.length)
      { marker with phase := .complete }) where
  row := by
    obtain ⟨r, m, hr, hlife, hm, hsource, hmap, rfl⟩ := hmarked
    exact ⟨_, _, congrArg (Option.map _) hr, hlife, rfl, hsource, hmap, rfl, rfl⟩
  docs := h.docs
  objects := h.objects
  sessions x hx hnot := by
    obtain ⟨holder, hholder⟩ := Option.isSome_iff_exists.mp (h.sessions x hx)
    cases holder with
    | here record => exact ⟨record, hholder⟩
    | elsewhere => exact absurd hholder hnot
  view := h.view

lemma safe_commitMap (hl : Holds log) (hs : Marked b importId marker s ∧ Copied dst b s) :
    Safe step (contract dst (.applyMap b importId w)) (Written dst b)
      (commitMap (finalState marker.sourceState b.nodes.length) { marker with phase := .complete } w.commit) log s := by
  apply safe_call hl
  intro s1 h1
  have hm : Marked b importId marker s1 := hs.1.mono h1.row
  refine ⟨⟨hl, marker, hm, rfl⟩, fun ok hok s2 h2 _ => ?_⟩
  cases ok with
  | false => exact ⟨hl.1, rfl⟩
  | true =>
    refine ⟨hl.1, Whole.mono ?_ (h2 hl.1), rfl⟩
    cases hw : w.commit with
    | failed | lost => simp [step, hw, Fate.ok] at hok
    | done => exact whole_commitMap (steady_copied s s1 h1 hs.2) hm

lemma safe_copyMap (hl : Holds log) :
    Safe step (contract dst (.applyMap b importId w)) (Written dst b) (copyMap dst b importId w) log s := by
  unfold copyMap
  apply Safe.bind contract_refl (safe_openRow hl)
  intro log1 a s1 _ hopen
  have hraise : ∀ log2 s2, Holds log2 → Safe step (contract dst (.applyMap b importId w))
      (Written dst b) (pure false) log2 s2 := fun _ _ hl2 _ _ _ => ⟨hl2.1, hl2.2⟩
  cases a with
  | none => exact hraise log1 s1 hopen.1
  | some marker =>
    apply Safe.bind contract_refl (Carries.copyContent (stable_marked marker) log1 s1 hopen.1 (hopen.2 marker rfl))
    intro log2 ok s2 _ hcopied
    cases ok with
    | false => exact hraise log2 s2 hcopied.1
    | true => exact safe_commitMap hcopied.1 (hcopied.2 rfl)

def Ended {α : Type} (log : Log β) (_ : α) (_ : Store β) : Prop := committed log = false

lemma safe_applyMap : Safe step (contract dst (.applyMap b importId w)) Ended
    (applyMap dst b importId w) [] s := by
  intro s1 _ _
  refine ⟨rfl, ?_⟩
  cases hw : w.granted with
  | false => exact fun _ _ _ => rfl
  | true =>
    apply Safe.bind contract_refl (safe_copyMap ⟨rfl, rfl⟩)
    intro log ok s2 _ h s3 h3 _
    refine ⟨?_, fun _ _ _ => rfl⟩
    cases ok with
    | false => exact h.2
    | true => exact ⟨Whole.mono h.2.1 (h3 h.1), h.2.2⟩

lemma safe_round {all : List Attempt} (attempts : List Attempt) :
    ∀ (log : Log β) (s : Store β), committed log = false →
      Safe step (contract dst (.round all)) Ended (round attempts) log s := by
  induction attempts with
  | nil => exact fun _ _ hl _ _ _ => hl
  | cons a rest ih =>
    intro log s hl s1 _ _
    refine ⟨⟨hl, rfl⟩, ?_⟩
    generalize (step (.load a.load) s1).1 = x
    have hstop : ∀ (log' : Log β) (s' : Store β), committed log' = false →
        Safe step (contract dst (.round all)) Ended (pure ()) log' s' := fun _ _ hl' _ _ _ => hl'
    cases x with
    | none => exact hstop _ s1 hl
    | some x =>
      cases x with
      | none => exact hstop _ s1 hl
      | some row =>
        change Safe _ _ _ (if row.lifecycle = .deleting then _ else _) _ s1
        split
        · intro s2 _ _
          refine ⟨⟨hl, rfl⟩, fun s3 _ _ => ⟨⟨hl, rfl⟩, ?_⟩⟩
          change Safe _ _ _ (if _ then _ else _) _ _
          split
          · exact fun s4 _ _ => ⟨⟨hl, rfl⟩, hstop _ _ hl⟩
          · exact ih _ _ hl
        · exact hstop _ s1 hl

lemma safe_body : Safe step (contract dst c) Ended (body dst c ()) [] s := by
  cases c with
  | applyMap b importId w =>
    exact Safe.bind contract_refl safe_applyMap fun log ok s _ hl _ _ _ => hl
  | elsewhere sessions => exact fun _ _ _ => ⟨⟨rfl, sessions, rfl⟩, fun _ _ _ => rfl⟩
  | request fate => exact fun _ _ _ => ⟨⟨rfl, rfl⟩, fun _ _ _ => rfl⟩
  | round attempts =>
    exact Safe.bind contract_refl (safe_round attempts [] s rfl) fun log _ s _ hl _ _ _ => hl

lemma SameRow.mark : SameRow s s.mark := by
  intro r hr
  exact ⟨{ r with lifecycle := .deleting }, by simp [Store.mark, hr], by simp, rfl, rfl⟩

lemma kept_step (hp : Promised dst c log o s) (hl : holding log = false)
    (hd : o.drops = false) : Kept s (step o s).2 := by
  have hnot : ¬Holds log := fun h => by simp [h.1] at hl
  have hdelete : o.deletes = true → Kept s (step o s).2 := by
    intro h
    cases o with
    | mark fate =>
      simp only [step]
      split
      · exact .refl s
      · exact ⟨.mark, rfl, rfl, fun _ h => h, rfl⟩
    | load ok => exact .refl s
    | deleteGraph | deleteImages | finish => cases hd
    | _ => cases h
  cases c with
  | applyMap b importId w =>
    cases o with
    | lock | getRow | objectSize => exact .refl s
    | leave ok closed => exact ⟨.refl s, rfl, rfl, fun _ h => h, rfl⟩
    | beginMap | addSessions | insertMany | putObject | putViewSettings | commitMap =>
      exact absurd hp.1 hnot
    | addElsewhere | mark | load | deleteGraph | deleteImages | finish => exact hp.elim
  | elsewhere sessions =>
    obtain ⟨-, sessions, rfl⟩ := hp
    exact ⟨.refl s, rfl, rfl, fun id h => by simp [step, Store.addElsewhere, h], rfl⟩
  | request fate => exact hdelete hp.2
  | round attempts => exact hdelete hp.2

def Alone (T : System β) : Prop :=
  ∀ i j f g, T.flight i = some f → T.flight j = some g → holding f.own = true →
    holding g.own = true → i = j

lemma holding_cons {x : Res o} (h : holding (⟨o, x⟩ :: log) = true) :
    o = .lock true ∨ holding log = true := by
  cases o with
  | lock granted => exact .inl (congrArg Op.lock h)
  | leave ok closed => cases h
  | _ => exact .inr h

variable {T U : System β} {m : Move ℕ (Call β)}

lemma held_before (hn : next step (body dst) () T m = some U)
    {f : Interact.Flight (Op β) Res (Call β) (Bool × Unit)} (hf : U.flight i = some f)
    (hh : holding f.own = true) :
    (∃ f', T.flight i = some f' ∧ holding f'.own = true) ∨
      m = .op i ∧ ∃ c k own, T.flight i = some ⟨c, .call (.lock true) k, own⟩ := by
  by_cases hi : i = m.of
  · subst hi
    cases m with
    | start j c =>
      obtain ⟨-, rfl⟩ := Interact.next_start_iff.mp hn
      obtain rfl : _ = f := by simpa [Move.of, Interact.Sys.put] using hf
      cases hh
    | op j =>
      obtain ⟨c, o, k, own, hT, rfl⟩ := Interact.next_op_iff.mp hn
      obtain rfl : _ = f := by simpa [Move.of, Interact.Sys.put] using hf
      obtain rfl | hold := holding_cons hh
      · exact .inr ⟨rfl, c, k, own, hT⟩
      · exact .inl ⟨_, hT, hold⟩
    | finish j =>
      obtain ⟨c, a, own, -, rfl⟩ := Interact.next_finish_iff.mp hn
      simp [Move.of, Interact.Sys.put] at hf
    | crash j =>
      obtain ⟨-, rfl⟩ := Interact.next_crash_iff.mp hn
      simp [Move.of, Interact.Sys.put] at hf
  · rw [Interact.next_flight_of_ne m hn hi] at hf
    exact .inl ⟨f, hf, hh⟩

lemma Alone.next (h : Alone T) (hc : Exclusive T m) (hn : next step (body dst) () T m = some U) :
    Alone U := by
  intro i j f g hf hg hhf hhg
  obtain ⟨f', hf', hhf'⟩ | ⟨rfl, c, k, own, hlock⟩ := held_before hn hf hhf
  · obtain ⟨g', hg', hhg'⟩ | ⟨rfl, c, k, own, hlock⟩ := held_before hn hg hhg
    · exact h i j f' g' hf' hg' hhf' hhg'
    · exact absurd ⟨i, f', hf', hhf'⟩ (hc c k own hlock)
  · obtain ⟨g', hg', hhg'⟩ | ⟨hm, -⟩ := held_before hn hg hhg
    · exact absurd ⟨j, g', hg', hhg'⟩ (hc c k own hlock)
    · cases hm
      rfl

structure Sound (dst : MapName) (T : System β) : Prop where
  good : Good step (contract dst) (fun _ => True) (fun _ _ => True) (fun _ => Ended) T
  alone : Alone T

lemma Runs.sound
    (h : Runs dst (fun T m => Exclusive T m ∧ Spared T m) (idle s0) T) : Sound dst T := by
  have halone := Interact.Run.strengthen (J := Alone) h (fun _ _ _ _ hf => by cases hf)
    fun S m U hc hS hn => hS.next hc.1 hn
  refine ⟨?_, halone.2⟩
  refine Interact.Run.good (C := contract dst) (fun _ _ hi => hi) (fun _ => contract_refl)
    (fun _ => contract_trans) (fun S i c _ _ _ _ => safe_body)
    (fun S i c o k own hc hS hf hg => ?_) (fun _ _ _ _ _ => trivial) (fun _ => trivial)
    ⟨trivial, fun _ _ _ _ hf => (by cases hf), fun _ _ => trivial⟩ halone.1
  refine ⟨trivial, fun j d p own' hji hj hheld => ?_, fun _ _ => trivial⟩
  apply kept_step hg
  · by_contra hnot
    exact hji (hc.2 j i _ _ hj hf hheld (by simpa using hnot))
  · by_contra hdrops
    exact hc.1.2 c o k own hf (by simpa using hdrops) ⟨j, _, hj, hheld⟩

def Reports (b : Bundle β) (T : System β) : Prop :=
  ∃ i importId w closed k own,
    T.flight i = some ⟨.applyMap b importId w, .call (.leave true closed) k, own⟩

lemma Sound.promised (h : Sound dst T) {k : Res o → Import β (Bool × Unit)}
    (hf : T.flight i = some ⟨c, .call o k, own⟩) : Promised dst c own o T.store :=
  (h.good.safe i c _ own hf T.store (contract_refl own _) trivial).1

lemma Sound.ended (h : Sound dst T) {a : Bool × Unit}
    (hf : T.flight i = some ⟨c, .done a, own⟩) : committed own = false :=
  h.good.safe i c _ own hf T.store (contract_refl own _) trivial

lemma Sound.whole (h : Sound dst T) (hr : Reports b T) : Whole dst b T.store := by
  obtain ⟨i, importId, w, closed, k, own, hf⟩ := hr
  have hp : Whole dst b T.store ∧ committed own = true := h.promised hf
  exact hp.1

lemma Promised.reporting (hp : Promised dst c log o s) (hl : committed log = true) :
    ∃ b importId w closed, c = .applyMap b importId w ∧ o = .leave true closed := by
  have hnot : ¬Holds log := fun h => by simp [h.2] at hl
  have hfree : ¬committed log = false := by simp [hl]
  cases c with
  | applyMap b importId w =>
    cases o with
    | lock | getRow | objectSize => exact absurd hp hfree
    | beginMap | addSessions | insertMany | putObject | putViewSettings | commitMap =>
      exact absurd hp.1 hnot
    | leave ok closed =>
      cases ok with
      | false => exact absurd hp hfree
      | true => exact ⟨b, importId, w, closed, rfl, rfl⟩
    | addElsewhere | mark | load | deleteGraph | deleteImages | finish => exact hp.elim
  | elsewhere | request | round => exact absurd hp.1 hfree

def HiddenRow (r : Row) : Prop :=
  r.state = some .archived ∧ ∃ m, r.importedFrom = some m ∧ m.phase = .importing

/-- An imported map that is not reported yet is hidden. -/
def HiddenMap (s : Store β) : Prop :=
  ∀ r, s.row = some r → r.importedFrom ≠ none → s.reported = false → HiddenRow r

def Hidden (T : System β) : Prop :=
  HiddenMap T.store ∨ ∃ i f, T.flight i = some f ∧ committed f.own = true

lemma HiddenMap.row (h : HiddenMap s) (hreported : s'.reported = s.reported)
    (hrow : ∀ r, s'.row = some r → r.importedFrom ≠ none → ∃ r0, s.row = some r0 ∧
      r0.state = r.state ∧ r0.importedFrom = r.importedFrom) : HiddenMap s' := by
  intro r hr hfrom hrep
  obtain ⟨r0, hr0, hstate, hfrom0⟩ := hrow r hr hfrom
  obtain ⟨harchived, m, hm, hphase⟩ := h r0 hr0 (hfrom0 ▸ hfrom) (hreported ▸ hrep)
  exact ⟨hstate ▸ harchived, m, hfrom0 ▸ hm, hphase⟩

lemma HiddenMap.beginMap (h : HiddenMap s) :
    HiddenMap (s.beginMap (b.opening importId)).2 := by
  unfold Store.beginMap
  split
  · intro r hr _ _
    cases hr
    exact ⟨rfl, b.opening importId, rfl, rfl⟩
  · exact h

lemma HiddenMap.mark (h : HiddenMap s) : HiddenMap s.mark := by
  refine h.row rfl fun r hr hfrom => ?_
  cases hold : s.row with
  | none =>
    obtain rfl : _ = r := by simpa [Store.mark, hold] using hr
    exact absurd rfl hfrom
  | some r0 =>
    obtain rfl : _ = r := by simpa [Store.mark, hold] using hr
    exact ⟨r0, rfl, rfl, rfl⟩

lemma HiddenMap.finish (h : HiddenMap s) : HiddenMap s.finish := by
  unfold Store.finish
  split
  · exact h
  · split
    · exact fun r hr => by cases hr
    · exact h

lemma HiddenMap.step (h : HiddenMap s) (hp : Promised dst c log o s)
    (ho : ∀ state marker fate, o ≠ .commitMap state marker fate) :
    HiddenMap (step o s).2 := by
  have hsame : ∀ {s' : Store β}, s'.row = s.row → s'.reported = s.reported → HiddenMap s' :=
    fun hrow hrep => h.row hrep fun r hr _ => ⟨r, hrow ▸ hr, rfl, rfl⟩
  cases o with
  | lock | getRow | objectSize | load | addElsewhere => exact hsame rfl rfl
  | beginMap marker fate =>
    have hb : HiddenMap (s.beginMap marker).2 := by
      cases c with
      | applyMap b importId w => exact hp.2 ▸ h.beginMap
      | elsewhere =>
        obtain ⟨-, sessions, hs⟩ := hp
        cases hs
      | request | round => cases hp.2
    cases fate with
    | failed => exact h
    | done | lost => exact hb
  | addSessions sessions fate =>
    simp only [ImportMap.step]
    split
    · exact h
    · exact hsame rfl rfl
  | insertMany coll docs fate => cases fate <;> exact hsame rfl rfl
  | putObject o fate =>
    cases fate with
    | torn size =>
      simp only [ImportMap.step]
      split
      · exact h
      · exact hsame rfl rfl
    | _ => exact hsame rfl rfl
  | putViewSettings settings fate =>
    simp only [ImportMap.step]
    split
    · exact h
    · exact hsame rfl rfl
  | commitMap state marker fate => exact absurd rfl (ho state marker fate)
  | leave ok closed =>
    intro r hr hfrom hrep
    refine h r hr hfrom ?_
    simp only [ImportMap.step, Bool.or_eq_false_iff] at hrep
    exact hrep.1
  | mark fate =>
    simp only [ImportMap.step]
    split
    · exact h
    · exact h.mark
  | deleteGraph fate | deleteImages fate => cases fate <;> exact hsame rfl rfl
  | finish fate =>
    simp only [ImportMap.step]
    split
    · exact h
    · exact h.finish

lemma Hidden.other (hn : next step (body dst) () T m = some U) (h : ∃ i f, T.flight i = some f ∧ committed f.own = true)
    (hm : ∀ f, T.flight m.of = some f → committed f.own = false) : Hidden U := by
  obtain ⟨i, f, hf, hcommitted⟩ := h
  have hi : i ≠ m.of := fun hi => by simp [hm f (hi ▸ hf)] at hcommitted
  exact .inr ⟨i, f, (Interact.next_flight_of_ne m hn hi).trans hf, hcommitted⟩

lemma Hidden.op {j : ℕ} (hT : Sound dst T) (h : Hidden T) (hc : Told T (.op j))
    (hn : next step (body dst) () T (.op j) = some U) : Hidden U := by
  obtain ⟨c, o, k, own, hf, rfl⟩ := Interact.next_op_iff.mp hn
  have hp : Promised dst c own o T.store := hT.promised hf
  obtain ⟨hlost, hclosed⟩ := hc c o k own hf
  cases hown : committed own with
  | true =>
    obtain ⟨b, importId, w, closed, rfl, rfl⟩ := hp.reporting hown
    cases closed with
    | false => simp [hclosed true rfl] at hown
    | true => exact .inl fun r _ _ hrep => by simp [Interact.Sys.put, step] at hrep
  | false =>
    have hj : ∀ f, T.flight (Move.op j : Move ℕ (Call β)).of = some f → committed f.own = false := by
      intro f hf'
      cases hf.symm.trans hf'
      exact hown
    obtain hstore | hother := h
    · by_cases ho : ∃ state marker fate, o = .commitMap state marker fate
      · obtain ⟨state, marker, fate, rfl⟩ := ho
        cases fate with
        | failed => exact .inl hstore
        | lost => exact absurd rfl (hlost state marker)
        | done => exact .inr ⟨j, _, by simp [Interact.Sys.put]; rfl, rfl⟩
      · exact .inl (hstore.step hp fun state marker fate he => ho ⟨state, marker, fate, he⟩)
    · exact Hidden.other hn hother hj

lemma Hidden.next (hT : Sound dst T) (h : Hidden T) (hc : Told T m)
    (hn : next step (body dst) () T m = some U) : Hidden U := by
  cases m with
  | op j => exact h.op hT hc hn
  | start j c =>
    obtain hstore | hother := h
    · obtain ⟨-, rfl⟩ := Interact.next_start_iff.mp hn
      exact .inl hstore
    · exact Hidden.other hn hother fun f hf => by
        simp [Move.of, (Interact.next_start_iff.mp hn).1] at hf
  | finish j =>
    obtain ⟨c, a, own, hf, rfl⟩ := Interact.next_finish_iff.mp hn
    obtain hstore | hother := h
    · exact .inl hstore
    · refine Hidden.other hn hother fun f hf' => ?_
      cases hf.symm.trans hf'
      exact hT.ended hf
  | crash j =>
    obtain hstore | hother := h
    · obtain ⟨-, rfl⟩ := Interact.next_crash_iff.mp hn
      exact .inl hstore
    · exact Hidden.other hn hother hc

def Undisturbed (T : System β) (m : Move ℕ (Call β)) : Prop :=
  Exclusive T m ∧ Spared T m ∧ Told T m

lemma Runs.hidden (h0 : HiddenMap s0) (h : Runs dst Undisturbed (idle s0) T) :
    Hidden T := by
  induction h with
  | refl => exact .inl h0
  | tail m h hc hn ih =>
    exact ih.next (Runs.sound (h.mono fun _ _ hc => ⟨hc.1, hc.2.1⟩)) hc.2.2 hn

lemma Sound.reporting (hT : Sound dst T) (h : Hidden T) : HiddenMap T.store ∨ ∃ b, Reports b T := by
  refine h.imp_right fun ⟨i, f, hf, hcommitted⟩ => ?_
  obtain ⟨c, prog, own⟩ := f
  cases prog with
  | done a => simp [hT.ended hf] at hcommitted
  | call o k =>
    obtain ⟨b, importId, w, closed, rfl, rfl⟩ := (hT.promised hf).reporting hcommitted
    exact ⟨b, i, importId, w, closed, k, own, hf⟩

end
end CloudServer.ImportMap
