import CloudServer.ImportFrame

/-! An import that may harm the target: the statements that come to it, and the exact condition. -/
namespace CloudServer.ImportFrame

open List Function
open Interact (Prog)
open ImportMap (MapName ImportId Row Doc Coll Bundle Store Object ObjectFate Marker Lifecycle batches
  batch getRow beginMap reread openRow putBatches copyObjects putObject copyView copyContent copyMap
  commitMap applyMap finalState andThen)

section
variable {β : Type} {p : Plan β} {t s : Target β} {L : Looks} {e : MapEntry β}
variable {importId : ImportId} {α γ : Type}

lemma setMap_map (t : Target β) (dst : MapName) (spec : β) : t.setMap dst spec (t.map dst) = t := by
  have hrows : (t.setMap dst spec (t.map dst)).rows = t.rows := by
    funext name
    by_cases hname : name = dst
    · subst hname
      rw [setMap_rows, map_row]
      cases t.rows name <;> rfl
    · exact setMap_rows_ne hname
  have hsessions : (t.setMap dst spec (t.map dst)).sessions = t.sessions := by
    funext id
    rcases hid : t.sessions id with _ | ⟨name, x⟩
    · simp [Target.setMap, Target.map, hid]
    · by_cases hname : name = dst
      · simp [Target.setMap, Target.map, hid, hname]
      · simp [Target.setMap, Target.map, hid, hname]
  have hother : t.setMap dst spec (t.map dst) =
      { t with
        rows := (t.setMap dst spec (t.map dst)).rows
        sessions := (t.setMap dst spec (t.map dst)).sessions } := by
    simp [Target.setMap, Target.map]
  rw [hother, hrows, hsessions]

/-- On the map of `e`, the program comes from `t` to `s`, and `q'` is left of it. -/
abbrev Goes (e : MapEntry β) (q : ImportMap.Import β α) (t : Target β) (q' : ImportMap.Import β α)
    (s : Target β) : Prop :=
  (onMap e.target e.spec q).Steps step t (onMap e.target e.spec q') s

lemma goes_bind {q q' : ImportMap.Import β α} {f : α → ImportMap.Import β γ}
    (h : Goes e q t q' s) : Goes e (q >>= f) t (q' >>= f) s := by
  unfold Goes
  rw [onMap_bind, onMap_bind]
  exact h.bind

variable {i j : ℕ} {w : Script} {q : ImportMap.Import β Bool} {op : ImportMap.Op β}
variable {v : ImportMap.Script}

lemma goes_andThen {q' : ImportMap.Import β Bool} (h : Goes e q t (pure true) s) :
    Goes e (andThen q q') t q' s := goes_bind h

/-- The target after a statement on the map of `e`. -/
def Target.after (t : Target β) (e : MapEntry β) (op : ImportMap.Op β) : Target β :=
  t.setMap e.target e.spec (ImportMap.step op (t.map e.target)).2

lemma goes_statement (op : ImportMap.Op β) (f : ImportMap.Res op → ImportMap.Import β γ) :
    Goes e (Prog.perform op >>= f) t (f (ImportMap.step op (t.map e.target)).1) (t.after e op) :=
  .call (.stop _ _)

lemma goes_read {f : ImportMap.Res op → ImportMap.Import β γ}
    (hread : (ImportMap.step op (t.map e.target)).2 = t.map e.target) :
    Goes e (Prog.perform op >>= f) t (f (ImportMap.step op (t.map e.target)).1) t := by
  have h : Goes e (Prog.perform op >>= f) t _ _ := goes_statement op f
  unfold Target.after at h
  rwa [hread, setMap_map] at h

lemma after_rows (hrow : (ImportMap.step op (t.map e.target)).2.row = (t.map e.target).row) :
    (t.after e op).rows e.target = t.rows e.target := by
  unfold Target.after
  rw [setMap_rows, hrow, map_row]
  cases t.rows e.target <;> rfl

@[simp]
lemma after_objects :
    (t.after e op).objects e.target = (ImportMap.step op (t.map e.target)).2.objects :=
  setMap_objects

/-- What the statements of an import leave of a map before its objects. -/
structure Copied (e : MapEntry β) (t s : Target β) : Prop where
  rows : s.rows e.target = t.rows e.target
  objects : s.objects e.target = t.objects e.target

lemma Copied.trans {s' : Target β} (h : Copied e t s) (h' : Copied e s s') : Copied e t s' :=
  ⟨h'.rows.trans h.rows, h'.objects.trans h.objects⟩

/-- No failure and no stop, but the looks and the fates of the objects. -/
def probe (look : ℕ → Bool) (fate : ℕ → ObjectFate) : ImportMap.Script :=
  { ImportMap.Script.smooth with stat := look, object := fate }

variable {look : ℕ → Bool} {fate : ℕ → ObjectFate}

lemma goes_putBatches (e : MapEntry β) (look : ℕ → Bool) (fate : ℕ → ObjectFate) (coll : Coll)
    (docs : List (List (Doc β))) (i : ℕ) (t : Target β) :
    ∃ s, Copied e t s ∧ Goes e (putBatches coll (probe look fate) i docs) t (pure true) s := by
  induction docs generalizing i t with
  | nil => exact ⟨t, ⟨rfl, rfl⟩, .stop _ _⟩
  | cons docs rest ih =>
    have hcopied : Copied e t (t.after e (.insertMany coll docs .done)) :=
      ⟨after_rows rfl, after_objects⟩
    obtain ⟨s, hs, hgoes⟩ := ih (i + 1) _
    exact ⟨s, hcopied.trans hs, .trans (goes_statement ..) hgoes⟩

lemma goes_getRow {f : Option (Option Row) → ImportMap.Import β γ} {row : Option Row}
    (hrow : (t.map e.target).row.filter (·.lifecycle ≠ .deleted) = row) :
    Goes e (getRow true >>= f) t (f (some row)) t := by
  subst hrow
  exact goes_read rfl

lemma goes_beginMap (hrow : t.rows e.target = none) (marker : Marker) :
    ∃ s, s.objects e.target = t.objects e.target ∧
      s.rows e.target = some (⟨.alive, some .archived, some marker⟩, e.spec) ∧
      ∀ f : Option Bool → ImportMap.Import β γ,
        Goes e (beginMap marker .done >>= f) t (f (some true)) s := by
  have hbegin : (t.map e.target).beginMap marker = (true, { t.map e.target with
      row := some ⟨.alive, some .archived, some marker⟩
      reported := false }) := by
    simp [Store.beginMap, hrow]
  have hgoes (f : Option Bool → ImportMap.Import β γ) :
      Goes e (beginMap marker .done >>= f) t (f (some ((t.map e.target).beginMap marker).1))
        (t.setMap e.target e.spec ((t.map e.target).beginMap marker).2) :=
    goes_statement (ImportMap.Op.beginMap marker .done) f
  rw [hbegin] at hgoes
  exact ⟨_, setMap_objects, by rw [setMap_rows, hrow]; rfl, hgoes⟩

lemma goes_reread {r : Row} {spec : β} {m : Marker} (marker : Marker)
    (hr : t.rows e.target = some (r, spec)) (hlife : r.lifecycle ≠ .deleted)
    (hm : r.importedFrom = some m) :
    Goes e (reread marker importId (probe look fate)) t (pure (some (m.touch importId))) t := by
  have hrow : (t.map e.target).row.filter (·.lifecycle ≠ .deleted) = some r := by
    simp [hr, hlife]
  refine .trans (goes_getRow hrow) ?_
  dsimp only
  rw [hm]
  exact .stop _ _

/-- A map opens, and its row keeps the origin of its marker. -/
lemma goes_openRow (hopens : Opens t e) (importId : ImportId) (look : ℕ → Bool)
    (fate : ℕ → ObjectFate) :
    ∃ marker s, s.objects e.target = t.objects e.target ∧
      (∀ r spec m, t.rows e.target = some (r, spec) → r.importedFrom = some m →
        s.rows e.target = t.rows e.target ∧ marker.sourceState = m.sourceState) ∧
      Goes e (openRow e.bundle importId (probe look fate)) t (pure (some marker)) s := by
  rcases hrow : t.rows e.target with _ | ⟨r, spec⟩
  · obtain ⟨s, hobjects, hrow', hgoes⟩ := goes_beginMap hrow (e.bundle.opening importId)
    have hnone : (t.map e.target).row.filter (·.lifecycle ≠ .deleted) = none := by
      simp [hrow]
    refine ⟨_, s, hobjects, ?_, .trans (goes_getRow hnone) (.trans (hgoes _)
      (goes_reread _ hrow' Lifecycle.noConfusion rfl))⟩
    rintro r spec m ⟨⟩
  · obtain ⟨hlife, m, hm, hsource, hmap⟩ := hopens r spec hrow
    have hget : (t.map e.target).row.filter (·.lifecycle ≠ .deleted) = some r := by
      simp [hrow, hlife]
    have hresumes : ∃ marker, r.resumes e.bundle importId = some marker := by
      unfold ImportMap.Row.resumes
      rw [hm]
      exact ⟨_, if_pos ⟨hsource, hmap⟩⟩
    obtain ⟨marker, hmarker⟩ := hresumes
    refine ⟨m.touch importId, t, rfl, ?_, .trans (goes_getRow hget) ?_⟩
    · rintro r' spec' m' ⟨⟩ hm'
      cases hm.symm.trans hm'
      exact ⟨hrow, rfl⟩
    · dsimp only
      rw [hmarker]
      exact goes_reread marker hrow hlife hm

lemma goes_look (t : Target β) (e : MapEntry β) (look : ℕ → Bool) (fate : ℕ → ObjectFate) (n : ℕ)
    (o : Object β) (rest : List (Object β)) :
    Goes e (copyObjects (probe look fate) n (o :: rest)) t
      (if (if look n then (t.objects e.target o.key).map (·.size) else none) = some o.size then
        copyObjects (probe look fate) (n + 1) rest
      else if o.present then pure false
      else andThen (putObject o (fate n)) (copyObjects (probe look fate) (n + 1) rest)) t :=
  .trans (goes_read rfl) (.stop _ _)

section
variable {o : Object β} {rest : List (Object β)} {n : ℕ}

lemma goes_skip (hfound : Found t e.target look n o) :
    Goes e (copyObjects (probe look fate) n (o :: rest)) t
      (copyObjects (probe look fate) (n + 1) rest) t := by
  have h := goes_look t e look fate n o rest
  rwa [if_pos hfound.1, if_pos hfound.2] at h

lemma goes_put (hother : ¬ Found t e.target look n o) (habsent : ¬ o.present = true)
    {put : ObjectFate} (hput : fate n = put) (rest : List (Object β)) :
    Goes e (copyObjects (probe look fate) n (o :: rest)) t
      (andThen (putObject o put) (copyObjects (probe look fate) (n + 1) rest)) t := by
  have h := goes_look t e look fate n o rest
  have hread : ¬ (if look n then (t.objects e.target o.key).map (·.size) else none) =
      some o.size := by
    intro hsize
    split at hsize
    · rename_i hlook
      exact hother ⟨hlook, hsize⟩
    · cases hsize
  rwa [if_neg hread, if_neg habsent, hput] at h

end

/-- An import comes past the first `n` objects, as far as those left out of the bundle are
found. -/
lemma goes_copyObjects (n : ℕ) (hn : n ≤ e.bundle.objects.length)
    (hfound : PresentFound t e look n) (hfate : ∀ j < n, fate j = .done) :
    ∃ s, s.rows e.target = t.rows e.target ∧
      (∀ o ∈ e.bundle.objects.drop n, s.objects e.target o.key = t.objects e.target o.key) ∧
      Goes e (copyObjects (probe look fate) 0 e.bundle.objects) t
        (copyObjects (probe look fate) n (e.bundle.objects.drop n)) s := by
  induction n with
  | zero => exact ⟨t, rfl, fun _ _ => rfl, .stop _ _⟩
  | succ n ih =>
    obtain ⟨s, hrows, hobjects, hgoes⟩ := ih (Nat.le_of_succ_le hn)
      (fun j hj => hfound j (Nat.lt_succ_of_lt hj)) fun j hj => hfate j (Nat.lt_succ_of_lt hj)
    obtain ⟨o, ho⟩ : ∃ o, e.bundle.objects[n]? = some o := ⟨_, List.getElem?_eq_getElem hn⟩
    have hdrop : e.bundle.objects.drop n = o :: e.bundle.objects.drop (n + 1) := by
      rw [drop_eq_getElem_cons hn, (List.getElem?_eq_some_iff.mp ho).2]
    rw [hdrop] at hgoes hobjects
    have hkept (o') (ho' : o' ∈ e.bundle.objects.drop (n + 1)) :=
      hobjects o' (mem_cons_of_mem _ ho')
    by_cases hsame : Found s e.target look n o
    · exact ⟨s, hrows, hkept, hgoes.trans (goes_skip hsame)⟩
    · have habsent : ¬ o.present = true := by
        intro hpresent
        obtain ⟨hlook, hsize⟩ := hfound n n.lt_succ_self o ho hpresent
        rw [← hobjects o (mem_cons_self ..)] at hsize
        exact hsame ⟨hlook, hsize⟩
      refine ⟨s.after e (.putObject o .done), (after_rows rfl).trans hrows, fun o' ho' => ?_,
        hgoes.trans ((goes_put hsame habsent (hfate n n.lt_succ_self) _).trans
          (goes_statement ..))⟩
      have hkeys := e.bundle.objectKeys.sublist ((drop_sublist n _).map _)
      rw [hdrop, map_cons, nodup_cons] at hkeys
      have hkey : o'.key ≠ o.key := fun hkey => hkeys.1 (hkey ▸ mem_map_of_mem ho')
      rw [after_objects, ← hkept o' ho']
      exact update_of_ne hkey ..

/-- `copyContent` from object `n` on. -/
def copyRest (b : Bundle β) (v : ImportMap.Script) (n : ℕ) : ImportMap.Import β Bool :=
  andThen (copyObjects v n (b.objects.drop n)) (copyView b v)

lemma goes_copyContent (e : MapEntry β) (look : ℕ → Bool) (fate : ℕ → ObjectFate) (t : Target β) :
    ∃ s, Copied e t s ∧ Goes e (copyContent e.target e.bundle (probe look fate)) t
      (copyRest e.bundle (probe look fate) 0) s := by
  have hsessions : Copied e t (t.after e (.addSessions e.bundle.sessions .done)) :=
    ⟨after_rows rfl, after_objects⟩
  obtain ⟨s, hs, hnodes⟩ := goes_putBatches e look fate .nodes
    (batches batch (e.bundle.docs e.target .nodes)) 0 _
  obtain ⟨s', hs', hedges⟩ := goes_putBatches e look fate .edges
    (batches batch (e.bundle.docs e.target .edges)) 0 s
  exact ⟨s', (hsessions.trans hs).trans hs', .trans (goes_statement ..)
    (.trans (goes_andThen hnodes) (goes_andThen hedges))⟩

/-- `copyMap` from object `n` on. -/
def copyOn (b : Bundle β) (v : ImportMap.Script) (marker : Marker) (n : ℕ) :
    ImportMap.Import β Bool :=
  andThen (copyRest b v n) (commitMap (finalState marker.sourceState b.nodes.length)
    { marker with phase := .complete } v.commit)

/-- A map that opens is copied past its first `n` objects. -/
lemma goes_copyMap (hopens : Opens t e) (n : ℕ) (hn : n ≤ e.bundle.objects.length)
    (hfound : PresentFound t e look n) (hfate : ∀ j < n, fate j = .done) (importId : ImportId) :
    ∃ marker s, (∀ o ∈ e.bundle.objects.drop n,
        s.objects e.target o.key = t.objects e.target o.key) ∧
      (∀ r spec m, t.rows e.target = some (r, spec) → r.importedFrom = some m →
        s.rows e.target = t.rows e.target ∧ marker.sourceState = m.sourceState) ∧
      Goes e (copyMap e.target e.bundle importId (probe look fate)) t
        (copyOn e.bundle (probe look fate) marker n) s := by
  obtain ⟨marker, s₁, hobjects, hrows, hopen⟩ := goes_openRow hopens importId look fate
  obtain ⟨s₂, hcopied, hcontent⟩ := goes_copyContent e look fate s₁
  have hfound₂ : PresentFound s₂ e look n := by
    intro j hj o ho hpresent
    obtain ⟨hlook, hsize⟩ := hfound j hj o ho hpresent
    rw [← hobjects, ← hcopied.objects] at hsize
    exact ⟨hlook, hsize⟩
  obtain ⟨s, hrows', hobjects', hgoes⟩ := goes_copyObjects n hn hfound₂ hfate
  refine ⟨marker, s, fun o ho => ?_, fun r spec m hr hm => ?_, ?_⟩
  · rw [hobjects' o ho, hcopied.objects, hobjects]
  · obtain ⟨hrow, hstate⟩ := hrows r spec m hr hm
    exact ⟨hrows'.trans (hcopied.rows.trans hrow), hstate⟩
  · have hcopy : Goes e (andThen (copyContent e.target e.bundle (probe look fate))
        (commitMap (finalState marker.sourceState e.bundle.nodes.length)
          { marker with phase := .complete } .done)) s₁
        (copyOn e.bundle (probe look fate) marker n) s :=
      .trans (goes_bind hcontent) (goes_bind (goes_bind hgoes))
    exact .trans (goes_bind hopen) hcopy

def tornAt (n size : ℕ) (j : ℕ) : ObjectFate := if j = n then .torn size else .done

/-- Where the look does not find it, an object can be left with any other size. -/
lemma goes_torn (hopens : Opens t e) {n : ℕ} {o : Object β} (ho : e.bundle.objects[n]? = some o)
    (hfound : PresentFound t e look n) (habsent : o.present = false)
    (hother : ¬ Found t e.target look n o) {size : ℕ} (hsize : size ≠ o.size)
    (importId : ImportId) :
    ∃ q s, Goes e (copyMap e.target e.bundle importId (probe look (tornAt n size))) t q s ∧
      s.objects e.target o.key = some ⟨size, o.body⟩ := by
  obtain ⟨hn, ho'⟩ := List.getElem?_eq_some_iff.mp ho
  have htornAt : tornAt n size n = .torn size := if_pos rfl
  obtain ⟨marker, s, hobjects, -, hgoes⟩ :=
    goes_copyMap hopens n hn.le hfound (fun j hj => if_neg hj.ne) importId
  have hdrop : e.bundle.objects.drop n = o :: e.bundle.objects.drop (n + 1) := by
    rw [drop_eq_getElem_cons hn, ho']
  have hkey := hobjects o (by rw [hdrop]; exact mem_cons_self ..)
  have hmissed : ¬ Found s e.target look n o := by
    unfold Found
    rw [hkey]
    exact hother
  unfold copyOn copyRest at hgoes
  rw [hdrop] at hgoes
  have hput := goes_put hmissed (by rw [habsent]; decide) htornAt (e.bundle.objects.drop (n + 1))
  have htorn : (ImportMap.step (.putObject o (.torn size)) (s.map e.target)).2 =
      (s.map e.target).putObject o.key ⟨size, o.body⟩ := if_neg hsize
  refine ⟨_, _, hgoes.trans (.trans (goes_bind (goes_bind hput))
    (goes_bind (goes_bind (goes_bind (goes_statement ..))))), ?_⟩
  rw [after_objects, htorn]
  exact update_self ..

/-- A map whose objects are found comes to its commit. -/
lemma goes_commit (hopens : Opens t e) (hfound : PresentFound t e look e.bundle.objects.length)
    {r : Row} {spec : β} {m : Marker} (hr : t.rows e.target = some (r, spec))
    (hm : r.importedFrom = some m) (importId : ImportId) :
    ∃ q s r', Goes e (copyMap e.target e.bundle importId (probe look fun _ => .done)) t q s ∧
      s.rows e.target = some (r', spec) ∧
      r'.state = some (finalState m.sourceState e.bundle.nodes.length) := by
  obtain ⟨marker, s, -, hrows, hgoes⟩ :=
    goes_copyMap hopens _ le_rfl hfound (fun _ _ => rfl) importId
  obtain ⟨hrow, hstate⟩ := hrows r spec m hr hm
  unfold copyOn copyRest at hgoes
  rw [drop_length] at hgoes
  have hview : ∃ s', s'.rows e.target = s.rows e.target ∧
      Goes e (copyView e.bundle (probe look fun _ => .done)) s (pure true) s' := by
    unfold copyView
    cases e.bundle.view with
    | none => exact ⟨s, rfl, .stop _ _⟩
    | some settings =>
      exact ⟨s.after e (.putViewSettings settings .done), after_rows rfl, .call (.stop _ _)⟩
  obtain ⟨s', hrow', hview⟩ := hview
  have hcommitted : (s'.after e (.commitMap (finalState marker.sourceState e.bundle.nodes.length)
      { marker with phase := .complete } .done)).rows e.target = some ({ r with
        state := some (finalState m.sourceState e.bundle.nodes.length)
        importedFrom := some { marker with phase := .complete } }, spec) := by
    have hmoved : (ImportMap.step (.commitMap (finalState marker.sourceState
        e.bundle.nodes.length) { marker with phase := .complete } .done) (s'.map e.target)).2.row =
        (s'.map e.target).row.map fun r => { r with
          state := some (finalState marker.sourceState e.bundle.nodes.length)
          importedFrom := some { marker with phase := .complete } } := rfl
    refine setMap_rows.trans ?_
    rw [hmoved, map_row, hrow', hrow, hr, hstate]
    rfl
  exact ⟨_, _, _, hgoes.trans (.trans (goes_andThen hview) (.call (.stop _ _))), hcommitted, rfl⟩

lemma goes_applyMap (hv : v.granted = true)
    (h : Goes e (copyMap e.target e.bundle importId v) t q s) :
    ∃ q', Goes e (applyMap e.target e.bundle importId v) t q' s := by
  unfold applyMap
  rw [hv]
  exact ⟨_, .trans (goes_read rfl) (goes_bind h)⟩

lemma goes_locked (hv : v.granted = false) :
    Goes e (applyMap e.target e.bundle importId v) t (pure false) t := by
  unfold applyMap
  rw [hv]
  exact .trans (goes_read rfl) (.stop _ _)

/-- All locks refused, all statements failing, and no stop. -/
def Script.idle (L : Looks) : Script :=
  ⟨true, fun _ => false,
    fun i => { ImportMap.Script.smooth with granted := false, stat := L.object i },
    fun _ => false, fun _ _ => .failed, fun _ _ => .failed, fun _ _ _ => .failed, L.bag,
    fun _ => .failed⟩

/-- Idle but for one map. -/
def Script.onlyMap (L : Looks) (i : ℕ) (fate : ℕ → ObjectFate) : Script :=
  { Script.idle L with map := update (Script.idle L).map i (probe (L.object i) fate) }

/-- Idle but for one recording. -/
def Script.onlyBag (L : Looks) (i : ℕ) (fate : BagFate) : Script :=
  { Script.idle L with bag := update (Script.idle L).bag i fate }

lemma onlyMap_map_ne (hj : j ≠ i) :
    (Script.onlyMap L i fate).map j = (Script.idle L).map j := update_of_ne hj ..

lemma looks_onlyMap (L : Looks) (i : ℕ) (fate : ℕ → ObjectFate) :
    (Script.onlyMap L i fate).looks = L := by
  have hstat : (fun j => ((Script.onlyMap L i fate).map j).stat) = L.object := by
    funext j
    by_cases hj : j = i
    · subst hj
      simp [Script.onlyMap, probe]
    · rw [onlyMap_map_ne hj]
      rfl
  unfold Script.looks
  rw [hstat]
  rfl

/-- The maps whose lock is refused are passed. -/
lemma steps_applyMaps (hstop : ∀ i, w.stop (.map i) = false)
    (hstopped : ∀ i, w.stopped i = false) (maps : List (MapEntry β)) (n i : ℕ)
    (hi : i ≤ maps.length) (hlocked : ∀ j < i, (w.map (n + j)).granted = false) :
    (applyMaps importId w n maps).Steps step t (applyMaps importId w (n + i) (maps.drop i)) t := by
  induction i generalizing n maps with
  | zero => exact .stop _ _
  | succ i ih =>
    cases maps with
    | nil => cases hi
    | cons e rest =>
      have hrest := ih rest (n + 1) (Nat.le_of_succ_le_succ hi) fun j hj => by
        rw [Nat.add_right_comm]
        exact hlocked (j + 1) (Nat.succ_lt_succ hj)
      rw [Nat.add_right_comm] at hrest
      have hnext : (if !false && w.stopped n then pure true
          else applyMaps importId w (n + 1) rest) = applyMaps importId w (n + 1) rest := by
        rw [hstopped n]
        rfl
      rw [applyMaps, hstop n]
      exact .trans (goes_locked (hlocked 0 i.succ_pos)).bind (.trans (.of_eq hnext t) hrest)

/-- The recordings whose store fails are passed. -/
lemma steps_applyBags (hstop : ∀ place, w.stop place = false)
    (bags : List (Recording β)) (n i : ℕ) (hi : i ≤ bags.length)
    (hfate : ∀ j < i, w.bag (n + j) = .failed) (t : Target β) :
    ∃ s, s.bags = t.bags ∧
      (applyBags w n bags false).Steps step t (applyBags w (n + i) (bags.drop i) false) s := by
  induction i generalizing n bags t with
  | zero => exact ⟨t, rfl, .stop _ _⟩
  | succ i ih =>
    cases bags with
    | nil => cases hi
    | cons r rest =>
      have hkeeps : (applyRosbag w n r).Keeps step (fun s : Target β => s.bags = t.bags)
          (Unasked w) :=
        keeps_applyRosbag fun _ _ _ _ s hs => by
          rw [show w.bag n = .failed from hfate 0 i.succ_pos]
          exact hs
      obtain ⟨ended, s, hsteps, hs, hended⟩ := hkeeps.steps_done rfl
      obtain ⟨s', hs', hrest⟩ := ih rest (n + 1) (Nat.le_of_succ_le_succ hi) (fun j hj => by
        rw [Nat.add_right_comm]
        exact hfate (j + 1) (Nat.succ_lt_succ hj)) s
      have hnext := congrArg (applyBags w (n + 1) rest) (decide_eq_false (hended hstop))
      rw [Nat.add_right_comm] at hrest
      rw [applyBags, hstop]
      exact ⟨s', hs'.trans hs, .trans hsteps.bind (.trans (.of_eq hnext s) hrest)⟩

lemma steps_tornBag {r : Recording β} (size : ℕ) (hstat : w.stat i = false)
    (hstop : w.stop (.data i) = false) (hfate : w.bag i = .torn size) (hhad : r.had = false) :
    ∃ q, (applyRosbag w i r).Steps step t q (t.putData r.bag ⟨size, r.body⟩) := by
  unfold applyRosbag
  rw [hstat, hstop, hfate, hhad]
  exact ⟨_, .call (.call (.stop _ _))⟩

lemma steps_applyImport (hok : p.ok = true) (hverified : w.verified = true)
    {q : Import β Bool} (h : (applyMaps importId w 0 p.maps >>= fun stopped =>
      applyMissions p w 0 p.missions stopped >>= fun stopped =>
        applyBags w 0 p.bags stopped).Steps step t q s) :
    (applyImport p importId w).Steps step t q s := by
  unfold applyImport
  rw [hok, hverified]
  exact h

/-- What the copy of one map comes to, an import comes to. -/
lemma steps_onlyMap (hok : p.ok = true) (hi : p.maps[i]? = some e)
    (h : Goes e (copyMap e.target e.bundle importId (probe (L.object i) fate)) t q s) :
    ∃ q', (applyImport p importId (Script.onlyMap L i fate)).Steps step t q' s := by
  obtain ⟨hlt, he⟩ := List.getElem?_eq_some_iff.mp hi
  have hreach : (applyMaps importId (Script.onlyMap L i fate) 0 p.maps).Steps step t _ _ :=
    steps_applyMaps (fun _ => rfl) (fun _ => rfl) p.maps 0 i hlt.le fun j hj => by
      rw [Nat.zero_add, onlyMap_map_ne hj.ne]
      rfl
  rw [Nat.zero_add, drop_eq_getElem_cons hlt, he, applyMaps,
    show (Script.onlyMap L i fate).map i = probe (L.object i) fate from update_self ..]
    at hreach
  obtain ⟨q', hentry⟩ := goes_applyMap (v := probe (L.object i) fate) rfl h
  exact ⟨_, steps_applyImport hok rfl (hreach.trans hentry.bind).bind⟩

lemma bags_run (o : Op β) (s : Target β) (ho : o.OfRun) : (step o s).2.bags = s.bags := by
  cases o with
  | addRuns | addEvents =>
    dsimp only [step, Target.addRuns]
    split <;> rfl
  | addTrack =>
    dsimp only [step, Target.addTrack]
    split_ifs <;> rfl
  | onMap | bagSize | putBag => exact ho.elim

/-- Where the look at it is not answered, a recording can be left with any size. -/
lemma steps_onlyBag (hok : p.ok = true) {r : Recording β} (hi : p.bags[i]? = some r)
    (hhad : r.had = false) (hlook : L.bag i = false) (size : ℕ) (importId : ImportId)
    (t : Target β) : ∃ q s, (applyImport p importId (Script.onlyBag L i (.torn size))).Steps step t
      q s ∧ s.bags r.bag = some ⟨size, r.body⟩ := by
  obtain ⟨hlt, hr⟩ := List.getElem?_eq_some_iff.mp hi
  set w := Script.onlyBag L i (.torn size) with hw
  have hmaps : (applyMaps importId w 0 p.maps).Steps step t _ _ :=
    steps_applyMaps (fun _ => rfl) (fun _ => rfl) p.maps 0 p.maps.length le_rfl fun _ _ => rfl
  rw [drop_length] at hmaps
  have hkeeps : (applyMissions p w 0 p.missions false).Keeps step (fun s => s.bags = t.bags) _ :=
    keeps_applyMissions (fun o s ho hs => (bags_run o s ho).trans hs) ..
  obtain ⟨stopped, s, hmissions, hs, hstopped⟩ := hkeeps.steps_done rfl
  obtain ⟨s', hs', hreach⟩ := steps_applyBags (w := w) (fun _ => rfl) p.bags 0 i hlt.le
    (fun j hj => by
      rw [Nat.zero_add]
      exact update_of_ne hj.ne ..) s
  rw [Nat.zero_add, drop_eq_getElem_cons hlt, hr, applyBags] at hreach
  obtain ⟨q, htorn⟩ := steps_tornBag (t := s') (w := w) (i := i) (r := r) size hlook rfl
    (update_self ..) hhad
  have hnext := congrArg (applyBags w 0 p.bags) (hstopped (fun _ => rfl) rfl)
  exact ⟨_, _, steps_applyImport hok rfl (hmaps.bind.trans (hmissions.bind.trans
    ((Prog.Steps.of_eq hnext s).trans (hreach.trans htorn.bind)))), update_self ..⟩

/-- What every script with these looks leaves as it was is harmless. -/
lemma harmless_of_unchanged {targets : List MapName} (hok : p.ok = true)
    (h : ∀ w : Script, w.looks = L → ∀ q t', (applyImport p importId w).Steps step t q t' →
      Unchanged targets t t') : Harmless p t L := by
  refine ⟨fun i e hi hopens j o ho hfound habsent hsome => ?_,
    fun i e hi hopens hfound r spec m hr hm hphase => ?_, fun i r hi hhad hsome => ?_⟩
  · by_contra hother
    obtain ⟨x, hx⟩ := Option.isSome_iff_exists.mp hsome
    have hsize : o.size + x.size + 1 ≠ o.size := by omega
    obtain ⟨q, s, hgoes, hstored⟩ := goes_torn hopens ho hfound habsent hother hsize importId
    obtain ⟨q', himport⟩ := steps_onlyMap hok hi hgoes
    have hkept := (h _ (looks_onlyMap ..) _ _ himport).objects e.target o.key x hx
    rw [hstored] at hkept
    have hsame := congrArg ImportMap.Stored.size (Option.some.inj hkept)
    dsimp only at hsame
    omega
  · obtain ⟨q, s, r', hgoes, hrow, hstate⟩ := goes_commit hopens hfound hr hm importId
    obtain ⟨q', himport⟩ := steps_onlyMap hok hi hgoes
    obtain ⟨r'', hr'', -, hkept, -⟩ :=
      (h _ (looks_onlyMap ..) _ _ himport).rows e.target r spec hr
    cases hrow.symm.trans hr''
    rw [← hkept (by simp [Row.importing, hm, hphase]), hstate]
  · by_contra hlook
    obtain ⟨x, hx⟩ := Option.isSome_iff_exists.mp hsome
    obtain ⟨q, s, himport, hstored⟩ :=
      steps_onlyBag hok hi hhad (Bool.eq_false_iff.mpr hlook) (x.size + 1) importId t
    have hkept := ((h _ rfl _ _ himport).bags r.bag x hx).1
    rw [hstored] at hkept
    have hsame := congrArg ImportMap.Stored.size (Option.some.inj hkept)
    dsimp only at hsame
    omega

/-- Complete or interrupted, an import overwrites nothing, exactly when what it may meet on the
target is harmless. -/
theorem import_overwrites_nothing (p : Plan β) (importId : ImportId) (t : Target β) (L : Looks) :
    (∀ w : Script, w.looks = L → ∀ q t', (applyImport p importId w).Steps step t q t' →
      Unchanged (p.maps.map (·.target)) t t') ↔ (p.ok = true → Harmless p t L) := by
  constructor
  · exact fun h hok => harmless_of_unchanged hok h
  · rintro h w rfl q t' hsteps
    exact (hsteps.keeps (keep_applyImport h) (.refl p t)).toUnchanged

end

def sampleTarget (state : ImportMap.MapState) : Target ℕ where
  rows name := if name = 0 then
    some (⟨.alive, some state, some ⟨7, 0, 1, [1], .complete, some .ready⟩⟩, 0) else none
  docs _ _ _ := none
  objects name key := if name = 0 ∧ key = 1 then some ⟨5, 50⟩ else none
  sessions _ := none
  views _ := none
  runs _ := none
  legs _ := none
  events _ := none
  tracks _ _ := []
  bags _ := none
  sidecars _ := none

def samplePlan (size : ℕ) : Plan ℕ where
  ok := true
  maps := [⟨0, ⟨7, 0, some .ready, [], [⟨3, some 0, none, none, 0⟩], [], [⟨1, size, false, 60⟩], none,
    by decide, by decide, by simp⟩, 0⟩]
  missions := []
  bags := []
  remap := id
  same := by simp

/-- An object that changed on the target is replaced, and a map that an operator archived is
back. -/
theorem import_overwrites :
    (∃ q t', (applyImport (samplePlan 6) 2 .smooth).Steps step (sampleTarget .ready) q t' ∧
      t'.objects 0 1 = some ⟨6, 60⟩ ∧ ¬ Unchanged [0] (sampleTarget .ready) t') ∧
    ∃ q t', (applyImport (samplePlan 5) 2 .smooth).Steps step (sampleTarget .archived) q t' ∧
      ((t'.rows 0).bind fun r => r.1.state) = some .ready ∧
      ¬ Unchanged [0] (sampleTarget .archived) t' := by
  constructor
  · have hstored : ((applyImport (samplePlan 6) 2 .smooth).run step (sampleTarget .ready)).2.objects
        0 1 = some ⟨6, 60⟩ := by decide
    refine ⟨_, _, Prog.Steps.run _ _, hstored, fun h => ?_⟩
    have hkept := h.objects 0 1 ⟨5, 50⟩ rfl
    rw [hstored] at hkept
    exact absurd hkept (by decide)
  · have hstate : ((((applyImport (samplePlan 5) 2 .smooth).run step
        (sampleTarget .archived)).2.rows 0).bind fun r => r.1.state) = some .ready := by
      decide
    refine ⟨_, _, Prog.Steps.run _ _, hstate, fun h => ?_⟩
    obtain ⟨r', hr', -, hkept, -⟩ := h.rows 0 _ _ rfl
    rw [hr', Option.bind_some, hkept rfl] at hstate
    exact absurd hstate (by decide)

end CloudServer.ImportFrame
