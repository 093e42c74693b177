import CloudServer.ImportMapRuns

/-! What imports of one bundle leave in the map, however often they were cut off: what one
uninterrupted import leaves. -/
namespace CloudServer.ImportMap

open List Option
open Interact (Prog Move next)

section
variable {β : Type} {dst : MapName} {b : Bundle β} {importId : ImportId} {c : Call β}
variable {log : Log β} {s0 s s' : Store β} {T U : System β}

structure Content (β : Type) where
  state : Option MapState
  docs : Coll → Key → Option (Doc β)
  objects : Key → Option (Stored β)
  sessions : SessionId → Option β
  view : Option β

def Holder.record : Holder β → Option β
  | .here record => some record
  | .elsewhere => none

def Store.content (s : Store β) : Content β :=
  ⟨s.row.bind (·.state), s.docs, s.objects, fun id => (s.sessions id).bind (·.record), s.view⟩

def uninterrupted (dst : MapName) (b : Bundle β) (importId : ImportId) (s : Store β) : Store β :=
  ((applyMap dst b importId .smooth).run step s).2

def Store.meanwhile (s s' : Store β) : Store β :=
  { s with
    sessions := fun id => match s'.sessions id with
      | some .elsewhere => some .elsewhere
      | _ => s.sessions id }

/-- Only imports of the bundle are started for the map, and imports of other maps. -/
def Only (b : Bundle β) : Move ℕ (Call β) → Prop
  | .start _ (.applyMap b' _ _) => b' = b
  | .start _ (.elsewhere _) => True
  | .start _ _ => False
  | _ => True

def Matches (b : Bundle β) (s : Store β) : Prop :=
  ∀ o ∈ b.objects, ∀ x, s.objects o.key = some x → x.size = o.size → x.body = o.body

def Row.origin (r : Row) : Option (ℕ × MapName × Option MapState) :=
  r.importedFrom.map fun m => (m.source, m.map, m.sourceState)

structure Filled (dst : MapName) (b : Bundle β) (s0 s : Store β) : Prop where
  opened : s0.row = none → ∀ r, s.row = some r →
    r.origin = some (b.source, b.map, b.sourceState)
  resumed : ∀ r0, s0.row = some r0 →
    ∃ r, s.row = some r ∧ r.lifecycle = r0.lifecycle ∧ r.origin = r0.origin
  docs : ∀ coll k, s.docs coll k = s0.docs coll k ∨
    s0.docs coll k = none ∧ s.docs coll k = (b.docs dst coll).find? (·.key = k)
  objects : ∀ k, s.objects k = s0.objects k ∨ ∃ o ∈ b.objects, o.key = k ∧ o.present = false ∧
    ∃ x, s.objects k = some x ∧ (x.size = o.size → x.body = o.body)
  held : ∀ id holder, s0.sessions id = some holder → s.sessions id = some holder
  added : ∀ id record, s.sessions id = some (.here record) →
    s0.sessions id = some (.here record) ∨
      s0.sessions id = none ∧ ∃ x, b.sessions.find? (·.1 = id) = some x ∧ x.2 = record
  view : s.view = s0.view ∨ s0.view = none ∧ s.view = b.view

lemma Filled.refl : Filled dst b s s where
  opened h r hr := by simp [h] at hr
  resumed r hr := ⟨r, hr, rfl, rfl⟩
  docs _ _ := .inl rfl
  objects _ := .inl rfl
  held _ _ h := h
  added _ _ h := .inl h
  view := .inl rfl

lemma Filled.beginMap (h : Filled dst b s0 s) :
    Filled dst b s0 (s.beginMap (b.opening importId)).2 := by
  unfold Store.beginMap
  split
  · rename_i hnone
    refine { h with opened := fun _ r hr => ?_, resumed := fun r0 hr0 => ?_ }
    · cases hr
      rfl
    · obtain ⟨r, hr, -⟩ := h.resumed r0 hr0
      simp [hnone] at hr
  · exact h

lemma Filled.commitMap (h : Filled dst b s0 s) {state : MapState} {marker : Marker} (hm : Marked b importId marker s) :
    Filled dst b s0 (s.commitMap state { marker with phase := .complete }) := by
  obtain ⟨r, m, hr, -, hfrom, -, -, rfl⟩ := hm
  have horigin : r.origin = some (m.source, m.map, m.sourceState) := by simp [Row.origin, hfrom]
  have hrow : (s.commitMap state { m.touch importId with phase := .complete }).row =
      some { r with
        state := some state, importedFrom := some { m.touch importId with phase := .complete } } := by
    simp [Store.commitMap, hr]
  refine { h with opened := fun hnone r' hr' => ?_, resumed := fun r0 hr0 => ?_ }
  · cases hrow.symm.trans hr'
    exact (horigin.symm.trans (h.opened hnone r hr) :)
  · obtain ⟨r', hr', hlife, horigin'⟩ := h.resumed r0 hr0
    cases hr.symm.trans hr'
    exact ⟨_, hrow, hlife, (horigin.symm.trans horigin' :)⟩

lemma Filled.addSessions (h : Filled dst b s0 s) : Filled dst b s0 (s.addSessions b.sessions) := by
  refine { h with held := fun id holder hh => ?_, added := fun id record hr => ?_ }
  · simp [Store.addSessions, h.held id holder hh]
  · cases hold : s.sessions id with
    | some holder =>
      refine h.added id record ?_
      simpa [Store.addSessions, hold] using hr
    | none =>
      have hnone : s0.sessions id = none := by
        cases h0 : s0.sessions id with
        | none => rfl
        | some holder => simp [h.held id holder h0] at hold
      have hfind : (b.sessions.find? (·.1 = id)).map (fun x => Holder.here x.2) =
          some (.here record) := by simpa [Store.addSessions, hold] using hr
      obtain ⟨x, hx, hrecord⟩ := map_eq_some_iff.mp hfind
      exact .inr ⟨hnone, x, hx, Holder.here.inj hrecord⟩

lemma Filled.addElsewhere (h : Filled dst b s0 s) (sessions : List SessionId) :
    Filled dst b s0 (s.addElsewhere sessions) := by
  refine { h with held := fun id holder hh => ?_, added := fun id record hr => h.added id record ?_ }
  · simp [Store.addElsewhere, h.held id holder hh]
  · cases hold : s.sessions id with
    | some holder => simpa [Store.addElsewhere, hold] using hr
    | none => simp [Store.addElsewhere, hold] at hr

variable {coll : Coll}

lemma Bundle.docs_find (b : Bundle β) {d : Doc β} (hd : d ∈ b.docs dst coll) :
    (b.docs dst coll).find? (·.key = d.key) = some d := by
  have hkeys : ((b.docs dst coll).map (·.key)).Nodup := by
    cases coll with
    | nodes => simpa [Bundle.docs, Function.comp_def, Doc.rewriteNode] using b.nodeKeys
    | edges => simpa [Bundle.docs, Function.comp_def, Doc.rewriteEdge] using b.edgeKeys
  generalize b.docs dst coll = docs at hd hkeys
  induction docs with
  | nil => cases hd
  | cons a docs ih =>
    simp only [map_cons, nodup_cons] at hkeys
    obtain rfl | hd := mem_cons.mp hd
    · simp
    · have hne : a.key ≠ d.key := fun he => hkeys.1 (he ▸ mem_map_of_mem hd)
      simp [hne, ih hd hkeys.2]

lemma Filled.insertMany (h : Filled dst b s0 s) {docs : List (Doc β)}
    (hdocs : docs ⊆ b.docs dst coll) : Filled dst b s0 (s.insertMany coll docs) := by
  refine { h with docs := fun coll' k => ?_ }
  by_cases hc : coll' = coll
  · subst hc
    simp only [Store.insertMany, Function.update_self, insertDocs]
    cases hold : s.docs coll' k with
    | some d => simpa [hold] using h.docs coll' k
    | none =>
      have hnone : s0.docs coll' k = none := by
        obtain he | he := h.docs coll' k
        · exact he.symm.trans hold
        · exact he.1
      cases hfind : docs.find? (·.key = k) with
      | none => exact .inl (by simp [hnone])
      | some d =>
        obtain rfl : d.key = k := by simpa using List.find?_some hfind
        exact .inr ⟨hnone, by simp [b.docs_find (hdocs (mem_of_find?_eq_some hfind))]⟩
  · simpa [Store.insertMany, hc] using h.docs coll' k

lemma Filled.putObject (h : Filled dst b s0 s) {o : Object β} (ho : o ∈ b.objects)
    (hpresent : o.present = false) {x : Stored β} (hx : x.size = o.size → x.body = o.body) :
    Filled dst b s0 (s.putObject o.key x) := by
  refine { h with objects := fun k => ?_ }
  by_cases hk : k = o.key
  · subst hk
    exact .inr ⟨o, ho, rfl, hpresent, x, by simp [Store.putObject], hx⟩
  · simpa [Store.putObject, hk] using h.objects k

lemma Filled.putViewSettings (h : Filled dst b s0 s) {settings : β}
    (hv : b.view = some settings) : Filled dst b s0 (s.putViewSettings settings) := by
  refine { h with view := ?_ }
  simp only [Store.putViewSettings]
  cases hold : s.view with
  | some v => simpa [hold] using h.view
  | none =>
    obtain he | he := h.view
    · exact .inr ⟨he.symm.trans hold, by simp [hv]⟩
    · simp [he.2, hv] at hold

def Imports (b : Bundle β) : Call β → Prop
  | .applyMap b' _ _ => b' = b
  | .elsewhere _ => True
  | _ => False

lemma Filled.step {o : Op β} (h : Filled dst b s0 s) (hc : Imports b c)
    (hp : Promised dst c log o s) : Filled dst b s0 (step o s).2 := by
  cases c with
  | request | round => exact hc.elim
  | elsewhere sessions =>
    obtain ⟨-, sessions, rfl⟩ := hp
    exact h.addElsewhere sessions
  | applyMap b' importId w =>
    obtain rfl := hc
    cases o with
    | lock | getRow | objectSize => exact h
    | leave => exact { h with }
    | beginMap marker fate =>
      obtain ⟨-, rfl⟩ := hp
      cases fate with
      | failed => exact h
      | done | lost => exact h.beginMap
    | addSessions sessions fate =>
      obtain ⟨-, rfl⟩ := hp
      simp only [ImportMap.step]
      split
      · exact h
      · exact h.addSessions
    | insertMany coll docs fate =>
      cases fate with
      | done => exact h.insertMany hp.2
      | broken got => exact h.insertMany fun d hd => hp.2 (mem_of_mem_filter hd)
    | putObject o fate =>
      obtain ⟨-, ho, hpresent⟩ := hp
      cases fate with
      | failed => exact h
      | done | lost => exact h.putObject ho hpresent fun _ => rfl
      | torn size =>
        simp only [ImportMap.step]
        split
        · exact h
        · rename_i hsize
          exact h.putObject ho hpresent fun he => absurd he hsize
    | putViewSettings settings fate =>
      simp only [ImportMap.step]
      split
      · exact h
      · exact h.putViewSettings hp.2
    | commitMap state marker fate =>
      obtain ⟨-, m, hm, rfl⟩ := hp
      simp only [ImportMap.step]
      split
      · exact h
      · exact h.commitMap hm
    | addElsewhere | mark | load | deleteGraph | deleteImages | finish => exact hp.elim

lemma Runs.filled (h : Runs dst (fun T m => Undisturbed T m ∧ Only b m) (idle s0) T) :
    Filled dst b s0 T.store ∧ ∀ i f, T.flight i = some f → Imports b f.kind := by
  induction h with
  | refl => exact ⟨.refl, fun _ _ hf => by cases hf⟩
  | @tail T U m hrun hc hn ih =>
    have hT : Sound dst T := Runs.sound (hrun.mono fun _ _ hc => ⟨hc.1.1, hc.1.2.1⟩)
    constructor
    · obtain hs | ⟨i, c, o, k, own, -, hf, hs⟩ := Interact.next_store m hn
      · exact hs ▸ ih.1
      · exact hs ▸ ih.1.step (ih.2 i _ hf) (hT.promised hf)
    · refine Interact.next_kind (fun _ c => Imports b c) m hn (fun i c hm => ?_) ih.2
      subst hm
      have hc := hc.2
      cases c with
      | applyMap => exact hc
      | elsewhere => trivial
      | request | round => exact hc.elim

lemma insertMany_nil (coll : Coll) : s.insertMany coll [] = s := by
  have hdocs : insertDocs (s.docs coll) [] = s.docs coll := by
    funext k
    simp [insertDocs]
  simp [Store.insertMany, hdocs]

lemma insertMany_append (coll : Coll) (docs docs' : List (Doc β)) :
    (s.insertMany coll docs).insertMany coll docs' = s.insertMany coll (docs ++ docs') := by
  have hdocs : insertDocs (insertDocs (s.docs coll) docs) docs' =
      insertDocs (s.docs coll) (docs ++ docs') := by
    funext k
    simp [insertDocs, List.find?_append, Option.or_assoc]
  simp [Store.insertMany, hdocs]

lemma run_andThen (p q : Import β Bool) (s : Store β) :
    (andThen p q).run step s =
      if (p.run step s).1 then q.run step (p.run step s).2 else (false, (p.run step s).2) := by
  unfold andThen
  rw [Prog.run_bind]
  split <;> rfl

lemma run_putBatches (coll : Coll) (rest : List (List (Doc β))) (i : ℕ) (s : Store β) :
    (putBatches coll .smooth i rest).run step s = (true, s.insertMany coll rest.flatten) := by
  induction rest generalizing i s with
  | nil => simp [putBatches, insertMany_nil]
  | cons docs rest ih =>
    have hfirst : (insertMany coll docs .done).run step s = (true, s.insertMany coll docs) := rfl
    simp [putBatches, Script.smooth, run_andThen, hfirst]
    exact (ih (i + 1) (s.insertMany coll docs)).trans (by rw [insertMany_append])

def fillObjects (old : Key → Option (Stored β)) (objects : List (Object β)) (k : Key) :
    Option (Stored β) :=
  match objects.find? (·.key = k) with
  | none => old k
  | some o => if (old k).map (·.size) = some o.size then old k else some ⟨o.size, o.body⟩

lemma run_copyObjects (rest : List (Object β)) (i : ℕ) (s : Store β) (hkeys : (rest.map (·.key)).Nodup)
    (hpresent : ∀ o ∈ rest, o.present = true → (s.objects o.key).map (·.size) = some o.size) :
    (copyObjects .smooth i rest).run step s = (true, { s with objects := fillObjects s.objects rest }) := by
  induction rest generalizing i s with
  | nil => rfl
  | cons o rest ih =>
    simp only [map_cons, nodup_cons] at hkeys
    have hnone : rest.find? (·.key = o.key) = none := by
      refine List.find?_eq_none.mpr fun o' ho' he => hkeys.1 ?_
      exact (by simpa using he : o'.key = o.key) ▸ mem_map_of_mem ho'
    have hrest : ∀ o' ∈ rest, o'.key ≠ o.key := fun o' ho' he =>
      hkeys.1 (he ▸ mem_map_of_mem ho')
    change (if (s.objects o.key).map (·.size) = some o.size then _ else
      if o.present = true then _ else _ : Import β Bool).run step s = _
    split
    · rename_i hsize
      rw [ih (i + 1) s hkeys.2 fun o' ho' => hpresent o' (mem_cons_of_mem o ho')]
      congr 2
      funext k
      by_cases hk : o.key = k
      · subst hk
        simp [fillObjects, hnone, hsize]
      · simp [fillObjects, hk]
    · rename_i hsize
      have hnot : ¬o.present = true := fun hp => hsize (hpresent o mem_cons_self hp)
      have hput : (putObject o .done).run step s = (true, s.putObject o.key ⟨o.size, o.body⟩) := rfl
      rw [if_neg hnot, run_andThen]
      simp only [Script.smooth, hput, if_true]
      refine (ih (i + 1) (s.putObject o.key ⟨o.size, o.body⟩) hkeys.2 fun o' ho' hp => ?_).trans ?_
      · simpa [Store.putObject, hrest o' ho'] using hpresent o' (mem_cons_of_mem o ho') hp
      · congr 2
        funext k
        by_cases hk : o.key = k
        · subst hk
          simp [fillObjects, hnone, hsize, Store.putObject]
        · have hk' : k ≠ o.key := Ne.symm hk
          simp [fillObjects, hk, Store.putObject, hk']

def Store.copied (dst : MapName) (b : Bundle β) (s : Store β) : Store β :=
  { s with
    docs := fun coll => insertDocs (s.docs coll) (b.docs dst coll)
    objects := fillObjects s.objects b.objects
    sessions := (s.addSessions b.sessions).sessions
    view := s.view.or b.view }

lemma run_copyContent (s : Store β)
    (hpresent : ∀ o ∈ b.objects, o.present = true → (s.objects o.key).map (·.size) = some o.size) :
    (copyContent dst b .smooth).run step s = (true, s.copied dst b) := by
  have hsessions : (addSessions b.sessions .done).run step s = (true, s.addSessions b.sessions) :=
    rfl
  have hview : ∀ s : Store β,
      (copyView b .smooth).run step s = (true, { s with view := s.view.or b.view }) := by
    intro s
    cases hv : b.view with
    | none => simp [copyView, Script.smooth, hv]
    | some v =>
      simp only [copyView, Script.smooth, hv]
      rfl
  have hobjects := run_copyObjects (s := ((s.addSessions b.sessions).insertMany .nodes
    (b.docs dst .nodes)).insertMany .edges (b.docs dst .edges)) b.objects 0 b.objectKeys hpresent
  simp only [copyContent, run_andThen, Script.smooth, hsessions, if_true]
  rw [← Script.smooth]
  simp only [run_putBatches, flatten_batches, if_true, hobjects, hview]
  refine congrArg (Prod.mk true) ?_
  simp only [Store.copied, Store.mk.injEq]
  refine ⟨rfl, ?_, rfl, rfl, rfl, rfl⟩
  funext coll
  cases coll <;> rfl

lemma run_openRow (s : Store β)
    (hrow : ∀ r, s.row = some r → r.lifecycle ≠ .deleted ∧ ∃ m, r.importedFrom = some m ∧
      m.source = b.source ∧ m.map = b.map) :
    ∃ marker row reported, (openRow b importId .smooth).run step s =
        (some marker, { s with row := some row, reported := reported }) ∧
      (s.row = none → marker.sourceState = b.sourceState) ∧
      ∀ r, s.row = some r → r.origin = some (b.source, b.map, marker.sourceState) := by
  obtain ⟨row, docs, objects, sessions, view, reported⟩ := s
  cases row with
  | none =>
    exact ⟨(b.opening importId).touch importId, ⟨.alive, some .archived, some (b.opening importId)⟩,
      false, rfl, fun _ => rfl, fun r hr => by cases hr⟩
  | some r =>
    obtain ⟨hlife, m, hfrom, hsource, hmap⟩ := hrow r rfl
    refine ⟨m.touch importId, r, reported, ?_, (fun h => by cases h), fun r' hr' => ?_⟩
    · obtain ⟨marker, hmarker⟩ : ∃ marker, r.resumes b importId = some marker := by
        simp [Row.resumes, hfrom, hsource, hmap]
      have hfilter : (some r).filter (·.lifecycle ≠ .deleted) = some r := by
        simp [Option.filter, hlife]
      have hget (f : Option (Option Row) → Import β (Option Marker)) :
          (getRow true >>= f).run step ⟨some r, docs, objects, sessions, view, reported⟩ =
            (f (some (some r))).run step ⟨some r, docs, objects, sessions, view, reported⟩ := by
        change (f (some ((some r).filter (·.lifecycle ≠ .deleted)))).run step _ = _
        rw [hfilter]
        rfl
      have hreread : (reread marker importId .smooth).run step
          ⟨some r, docs, objects, sessions, view, reported⟩ =
            (some (m.touch importId), ⟨some r, docs, objects, sessions, view, reported⟩) := by
        unfold reread
        refine (hget _).trans ?_
        simp only [hfrom, getD_some]
        rfl
      refine Eq.trans ?_ hreread
      unfold openRow
      refine (hget _).trans ?_
      simp only [hmarker]
    · cases hr'
      simp [Row.origin, hfrom, hsource, hmap, Marker.touch]

lemma content_uninterrupted (s : Store β)
    (hrow : ∀ r, s.row = some r → r.lifecycle ≠ .deleted ∧ ∃ m, r.importedFrom = some m ∧ m.source = b.source ∧ m.map = b.map)
    (hpresent : ∀ o ∈ b.objects, o.present = true → (s.objects o.key).map (·.size) = some o.size) :
    ∃ sourceState, (uninterrupted dst b importId s).content =
        { (s.copied dst b).content with state := some (finalState sourceState b.nodes.length) } ∧
      (s.row = none → sourceState = b.sourceState) ∧
      ∀ r, s.row = some r → r.origin = some (b.source, b.map, sourceState) := by
  obtain ⟨marker, row, reported, hopen, hnew, hold⟩ : ∃ marker row reported,
      (openRow b importId .smooth).run step s =
        (some marker, { s with row := some row, reported := reported }) ∧ _ ∧ _ :=
    run_openRow s hrow
  refine ⟨marker.sourceState, ?_, hnew, hold⟩
  have hcopy : (copyMap dst b importId .smooth).run step s =
      (true, (({ s with row := some row, reported := reported } : Store β).copied dst b).commitMap
        (finalState marker.sourceState b.nodes.length) { marker with phase := .complete }) := by
    unfold copyMap
    rw [Prog.run_bind, hopen]
    refine (run_andThen _ _ _).trans ?_
    have hcontent : (copyContent dst b .smooth).run step
        ({ s with row := some row, reported := reported } : Store β) = _ :=
      run_copyContent _ hpresent
    dsimp only
    rw [hcontent]
    rfl
  have happly : uninterrupted dst b importId s =
      (step (.leave true true) ((copyMap dst b importId .smooth).run step s).2).2 := by
    change ((copyMap dst b importId .smooth >>= fun ok => do
      let closed ← leave ok true
      pure (ok && closed) : Import β Bool).run step s).2 = _
    rw [Prog.run_bind, hcopy]
    rfl
  rw [happly, hcopy]
  rfl

lemma Filled.docs_eq (h : Filled dst b s0 s) (hw : Whole dst b s) :
    s.docs = fun coll => insertDocs (s0.docs coll) (b.docs dst coll) := by
  funext coll k
  unfold insertDocs
  obtain he | ⟨hnone, he⟩ := h.docs coll k
  · cases h0 : s0.docs coll k with
    | some d => rw [he, h0, some_or]
    | none =>
      rw [he, h0, none_or, eq_comm, List.find?_eq_none]
      intro d hd hk
      obtain rfl : d.key = k := by simpa using hk
      simpa [he, h0] using hw.docs coll d hd
  · rw [he, hnone, none_or]

lemma Bundle.object_eq (b : Bundle β) {o o' : Object β} (ho : o ∈ b.objects)
    (ho' : o' ∈ b.objects) (hk : o.key = o'.key) : o = o' :=
  inj_on_of_nodup_map b.objectKeys ho ho' hk

lemma Filled.objects_eq (h : Filled dst b s0 s) (hw : Whole dst b s) (hm : Matches b s0) :
    s.objects = fillObjects s0.objects b.objects := by
  funext k
  unfold fillObjects
  cases hfind : b.objects.find? (·.key = k) with
  | none =>
    obtain he | ⟨o, ho, hk, -⟩ := h.objects k
    · exact he
    · simpa [hk] using List.find?_eq_none.mp hfind o ho
  | some o =>
    have ho : o ∈ b.objects := mem_of_find?_eq_some hfind
    obtain rfl : o.key = k := by simpa using List.find?_some hfind
    obtain ⟨x, hx, hsize⟩ := hw.objects o ho
    obtain he | ⟨o', ho', hk, -, x', hx', hbody⟩ := h.objects o.key
    · have h0 : s0.objects o.key = some x := he.symm.trans hx
      simp [hx, h0, hsize]
    · obtain rfl := b.object_eq ho' ho hk
      cases hx.symm.trans hx'
      obtain ⟨size, body⟩ := x
      obtain rfl : size = o'.size := hsize
      obtain rfl : body = o'.body := hbody rfl
      simp only [hx]
      split
      · rename_i hold
        obtain ⟨y, hy, hysize⟩ := map_eq_some_iff.mp hold
        obtain ⟨size, body⟩ := y
        obtain rfl : size = o'.size := hysize
        have hsame : body = o'.body := hm o' ho _ hy rfl
        rw [hy, hsame]
      · rfl

lemma Filled.present (h : Filled dst b s0 s) (hw : Whole dst b s) :
    ∀ o ∈ b.objects, o.present = true → (s0.objects o.key).map (·.size) = some o.size := by
  intro o ho hp
  obtain ⟨x, hx, hsize⟩ := hw.objects o ho
  obtain he | ⟨o', ho', hk, hnot, -⟩ := h.objects o.key
  · rw [← he, hx, map_some, hsize]
  · rw [b.object_eq ho' ho hk, hp] at hnot
    cases hnot

lemma Filled.view_eq (h : Filled dst b s0 s) (hw : Whole dst b s) :
    s.view = s0.view.or b.view := by
  obtain he | ⟨hnone, he⟩ := h.view
  · cases h0 : s0.view with
    | some v => rw [he, h0, some_or]
    | none =>
      cases hv : b.view with
      | none => rw [he, h0, none_or]
      | some v => simpa [he, h0] using hw.view v hv
  · rw [he, hnone, none_or]

lemma Filled.sessions_eq (h : Filled dst b s0 s) (hw : Whole dst b s) (id : SessionId) :
    (s.sessions id).bind (·.record) = ((((s0.meanwhile s).addSessions b.sessions).sessions id)).bind (·.record) := by
  have hmeanwhile : ∀ holder, s0.sessions id = some holder →
      (s0.meanwhile s).sessions id = some holder := by
    intro holder h0
    have hs := h.held id holder h0
    cases holder <;> simp [Store.meanwhile, h0, hs]
  simp only [Store.addSessions]
  cases h0 : s0.sessions id with
  | some holder => rw [hmeanwhile holder h0, h.held id holder h0, some_or]
  | none =>
    cases hs : s.sessions id with
    | none =>
      have hfind : b.sessions.find? (·.1 = id) = none := by
        refine List.find?_eq_none.mpr fun x hx he => ?_
        obtain rfl : x.1 = id := by simpa using he
        obtain ⟨record, hr⟩ := hw.sessions x hx (by simp [hs])
        simp [hs] at hr
      simp [Store.meanwhile, hs, h0, hfind]
    | some holder =>
      cases holder with
      | elsewhere => simp [Store.meanwhile, hs, Holder.record]
      | here record =>
        obtain h0' | ⟨-, x, hx, rfl⟩ := h.added id record hs
        · simp [h0] at h0'
        · simp [Store.meanwhile, hs, h0, hx]

lemma Filled.content (h : Filled dst b s0 s) (hw : Whole dst b s) (hm : Matches b s0) :
    s.content = (uninterrupted dst b importId (s0.meanwhile s)).content := by
  obtain ⟨r, m, hr, hlife, hfrom, hsource, hmap, -, hstate⟩ := hw.row
  have horigin : r.origin = some (b.source, b.map, m.sourceState) := by
    simp [Row.origin, hfrom, hsource, hmap]
  have hrow : ∀ r0, s0.row = some r0 → r0.lifecycle ≠ .deleted ∧
      ∃ m0, r0.importedFrom = some m0 ∧ m0.source = b.source ∧ m0.map = b.map := by
    intro r0 hr0
    obtain ⟨r', hr', hlife', horigin'⟩ := h.resumed r0 hr0
    cases hr.symm.trans hr'
    obtain ⟨m0, hm0, he⟩ := map_eq_some_iff.mp (horigin'.symm.trans horigin)
    simp only [Prod.mk.injEq] at he
    exact ⟨hlife' ▸ hlife, m0, hm0, he.1, he.2.1⟩
  obtain ⟨sourceState, hcontent, hnew, hold⟩ : ∃ sourceState,
      (uninterrupted dst b importId (s0.meanwhile s)).content = _ ∧ _ ∧ _ :=
    content_uninterrupted (s0.meanwhile s) hrow (h.present hw)
  have hsame : some (b.source, b.map, m.sourceState) = some (b.source, b.map, sourceState) := by
    cases h0 : s0.row with
    | none =>
      rw [hnew h0, ← h.opened h0 r hr, horigin]
    | some r0 =>
      obtain ⟨r', hr', -, horigin'⟩ := h.resumed r0 h0
      cases hr.symm.trans hr'
      rw [← horigin, horigin', hold r0 h0]
  obtain rfl : m.sourceState = sourceState := by simpa using hsame
  rw [hcontent]
  simp only [Store.content, Store.copied, Content.mk.injEq]
  refine ⟨by rw [hr, bind_some, hstate], h.docs_eq hw, h.objects_eq hw hm, ?_, h.view_eq hw⟩
  funext id
  exact h.sessions_eq hw id

/-- What the imports of the map and their reports promise: a map that is reported ok is whole; one
that was not reported, and is not about to be, is hidden; and if nothing but the bundle was
imported, the map is as one uninterrupted import leaves it. -/
structure Truthful (dst : MapName) (s0 : Store β) (T : System β) : Prop where
  whole : ∀ b, Reports b T → Whole dst b T.store
  hidden : HiddenMap T.store ∨ ∃ b, Reports b T
  content : ∀ b importId, Reports b T → Matches b s0 →
    Runs dst (fun T m => Undisturbed T m ∧ Only b m) (idle s0) T →
      T.store.content = (uninterrupted dst b importId (s0.meanwhile T.store)).content

end
/-! Runs of three processes: an import that is resumed after a crash, an import under which the map
is deleted, and one that crashes between its commit and its report. -/
section Sample

def told (T : System ℕ) : Move ℕ (Call ℕ) → Bool
  | .op i => match T.flight i with
    | some ⟨_, .call (.commitMap _ _ .lost) _, _⟩ => false
    | some ⟨_, .call (.leave _ false) _, _⟩ => false
    | _ => true
  | .crash i => match T.flight i with
    | some f => !committed f.own
    | none => true
  | _ => true

def reporting (T : System ℕ) (i : ℕ) : Bool :=
  match T.flight i with
  | some ⟨.applyMap _ _ _, .call (.leave true _) _, _⟩ => true
  | _ => false

def Few (T : System ℕ) : Prop := ∀ i, 3 ≤ i → T.flight i = none

variable {m : Move ℕ (Call ℕ)}

end Sample
end CloudServer.ImportMap
