import CloudServer.EventWriter

/-! Recorded events are written exactly once: in every state each accepted event is pending,
rejected or in the table, and what a flush has written stays out of the spill file. -/
namespace CloudServer.EventWriter

open EventSpill List Option

def forms (rows : List Row) : Multiset Row := (rows.map Row.stored : List Row)

@[simp]
lemma forms_nil : forms [] = 0 := rfl

@[simp]
lemma forms_append (a b : List Row) : forms (a ++ b) = forms a + forms b := by
  simp [forms]

@[simp]
lemma forms_cons (r : Row) (rows : List Row) : forms (r :: rows) = r.stored ::ₘ forms rows := rfl

lemma mem_forms {r : Row} {rows : List Row} (h : r ∈ rows) : r.stored ∈ forms rows :=
  Multiset.mem_coe.mpr (mem_map_of_mem h)

def onFile (lines : List Line) : Multiset Row := (spilled lines : List Row)

@[simp]
lemma onFile_append (lines : List Line) (rows : List Row) :
    onFile (append lines rows) = onFile lines + forms rows := by
  simp [onFile, forms, spilled_append]

lemma onFile_split (n : ℕ) (lines : List Line) :
    onFile lines = onFile (lines.take n) + onFile (consume n lines) := by
  rw [onFile, spilled_split n]
  rfl

def State.batch (S : State) : List Row := (S.flush.map (·.events)).getD []

/-- The events that wait to be written: queued, in a batch, or in the spill file. -/
def State.pending (S : State) : Multiset Row :=
  forms S.queue + forms S.batch + forms S.unwinding.flatten + onFile S.spill

def State.Done (S : State) (r : Row) : Prop := r.stored ∈ S.table ∨ r.stored ∈ onFile S.rejected

def State.Settled (S : State) (r : Row) : Prop :=
  S.Done r ∧ r.stored ∉ S.pending ∧ r.stored ∈ forms S.accepted

structure Reading (S : State) (f : Flush) : Prop where
  failed : f.failed = false
  rows : f.rows = f.replay ++ f.events
  lines : f.lines ≤ S.spill.length
  replay : forms f.replay = onFile (S.spill.take f.lines)

def Doing (S : State) (f : Flush) : Prop :=
  match f.stage with
  | .connecting | .writing => Reading S f
  | .singles todo refused => Reading S f ∧ (∀ r ∈ todo ++ refused, r ∈ f.rows) ∧
      ∀ r ∈ f.rows, r ∈ todo ∨ r ∈ refused ∨ r.stored ∈ S.table
  | .others => f.failed = false → f.events = [] ∧ ∀ r ∈ f.rows, S.Settled r

/-- What every reachable state satisfies; `old` is what the table had at first. -/
structure Good (old : List Row) (S : State) : Prop where
  kept : ∀ e ∈ S.accepted, e.stored ∈ S.pending ∨ S.Done e
  known : ∀ r ∈ S.pending, r ∈ forms S.accepted
  ids : (S.accepted.map (·.eventId)).Nodup
  fresh : ∀ e ∈ S.accepted, ∀ c ∈ old, c.eventId ≠ e.eventId
  once : S.pending.Nodup
  table : ∀ c ∈ S.table, c ∈ old ∨ c ∈ forms S.accepted
  unique : ∀ e ∈ S.accepted, S.table.filter (·.eventId = e.eventId) = [] ∨
    S.table.filter (·.eventId = e.eventId) = [e.stored]
  inDoubt : ∀ rows ∈ S.inDoubt, ∀ r ∈ rows, r.stored ∈ forms S.accepted
  flush : ∀ f, S.flush = some f → Doing S f
  finished : ∀ rows ∈ S.finished, ∀ r ∈ rows, S.Settled r

variable {old : List Row} {S T : State} {f : Flush} {r : Row}
variable {more : List Line} {refused table todo : List Row}

lemma Doing.grow (h : Doing S f) (hspill : T.spill = S.spill ++ more)
    (htable : S.table ⊆ T.table) (hsettled : ∀ r, S.Settled r → T.Settled r) : Doing T f := by
  have hread : Reading S f → Reading T f := by
    intro hr
    refine ⟨hr.failed, hr.rows, ?_, ?_⟩
    · rw [hspill, length_append]
      exact hr.lines.trans (Nat.le_add_right _ _)
    · rw [hspill, take_append_of_le_length hr.lines]
      exact hr.replay
  unfold Doing at h ⊢
  split at h
  · exact hread h
  · exact hread h
  · exact ⟨hread h.1, h.2.1, fun q hq => (h.2.2 q hq).imp_right (Or.imp_right (@htable q.stored))⟩
  · exact fun hfail => ⟨(h hfail).1, fun q hq => hsettled q ((h hfail).2 q hq)⟩

lemma Good.of_id (h : Good old S) {c : Row} (hr : r.stored ∈ forms S.accepted) (hc : c ∈ S.table)
    (hid : c.eventId = r.eventId) : c = r.stored := by
  obtain ⟨e, he, her⟩ := mem_map.mp (Multiset.mem_coe.mp hr)
  have hide : e.eventId = r.eventId := by simpa using congrArg Row.eventId her
  obtain hc | hc := h.table c hc
  · exact absurd (hid.trans hide.symm) (h.fresh e he c hc)
  · obtain ⟨e', he', rfl⟩ := mem_map.mp (Multiset.mem_coe.mp hc)
    have hsame : e'.eventId = e.eventId := hid.trans hide.symm
    obtain rfl := inj_on_of_nodup_map h.ids he' he hsame
    exact her

lemma Good.insert (h : Good old S) (hr : r.stored ∈ forms S.accepted) :
    Good old { S with table := EventSpill.insert S.table r } ∧ r.stored ∈ EventSpill.insert S.table r := by
  obtain ⟨hmem, hfilter⟩ := insert_unique fun c hc hid => h.of_id hr hc hid
  have hsub : S.table ⊆ EventSpill.insert S.table r := fun c hc => mem_insert_of_mem hc
  have hsettled : ∀ e, S.Settled e →
      State.Settled { S with table := EventSpill.insert S.table r } e :=
    fun e he => ⟨he.1.imp_left (@hsub _), he.2⟩
  refine ⟨?_, hmem⟩
  constructor
  · exact fun e he => (h.kept e he).imp_right (Or.imp_left (@hsub _))
  · exact h.known
  · exact h.ids
  · exact h.fresh
  · exact h.once
  · intro c hc
    obtain hc | rfl := mem_of_mem_insert hc
    · exact h.table c hc
    · exact .inr hr
  · intro e he
    obtain hf | ⟨hid, hf⟩ := hfilter e.eventId
    · simp only [hf]
      exact h.unique e he
    · refine .inr (hf.trans ?_)
      obtain ⟨e', he', her⟩ := mem_map.mp (Multiset.mem_coe.mp hr)
      have hide : e'.eventId = e.eventId := by
        simpa [hid] using congrArg Row.eventId her
      obtain rfl := inj_on_of_nodup_map h.ids he' he hide
      rw [her]
  · exact h.inDoubt
  · exact fun f hf => (h.flush f hf).grow (append_nil _).symm hsub hsettled
  · exact fun rows hrows q hq => hsettled q (h.finished rows hrows q hq)

lemma mem_insertAll_of_mem {rows : List Row} {c : Row} (h : c ∈ table) :
    c ∈ EventSpill.insertAll table rows := by
  induction rows generalizing table with
  | nil => exact h
  | cons r rows ih => exact ih (mem_insert_of_mem h)

lemma Good.insertAll {rows : List Row} (h : Good old S) (hr : ∀ r ∈ rows, r.stored ∈ forms S.accepted) :
    Good old { S with table := EventSpill.insertAll S.table rows } ∧
      ∀ r ∈ rows, r.stored ∈ EventSpill.insertAll S.table rows := by
  induction rows generalizing S with
  | nil => exact ⟨h, fun _ hq => by cases hq⟩
  | cons r rows ih =>
    obtain ⟨h1, hmem⟩ := h.insert (hr r mem_cons_self)
    obtain ⟨h2, hrest⟩ := ih h1 fun q hq => hr q (mem_cons_of_mem _ hq)
    refine ⟨h2, fun q hq => ?_⟩
    obtain rfl | hq := mem_cons.mp hq
    · exact @mem_insertAll_of_mem _ rows _ hmem
    · exact hrest q hq

lemma Good.shrink (h : Good old S) (gone : List Row) (hpend : S.pending = T.pending + forms gone)
    (hgone : ∀ r ∈ gone, T.Done r) (haccepted : T.accepted = S.accepted)
    (htable : T.table = S.table) (hrejected : onFile S.rejected ⊆ onFile T.rejected)
    (hinDoubt : ∀ rows ∈ T.inDoubt, ∀ r ∈ rows, r.stored ∈ forms S.accepted)
    (hflush : ∀ f, T.flush = some f → Doing T f)
    (hfinished : ∀ rows ∈ T.finished, ∀ r ∈ rows, T.Settled r) : Good old T := by
  have hdone : ∀ e, S.Done e → T.Done e := by
    intro e he
    unfold State.Done
    rw [htable]
    exact he.imp_right (@hrejected _)
  constructor
  · intro e he
    obtain hp | hd := h.kept e (haccepted ▸ he)
    · rw [hpend, Multiset.mem_add] at hp
      obtain hp | hg := hp
      · exact .inl hp
      · obtain ⟨r, hr, hre⟩ := mem_map.mp (Multiset.mem_coe.mp hg)
        have hd := hgone r hr
        unfold State.Done at hd ⊢
        rw [hre] at hd
        exact .inr hd
    · exact .inr (hdone e hd)
  · intro r hr
    rw [haccepted]
    exact h.known r (hpend ▸ Multiset.mem_add.mpr (.inl hr))
  · exact haccepted ▸ h.ids
  · exact haccepted ▸ h.fresh
  · exact Multiset.nodup_of_le (hpend ▸ Multiset.le_add_right _ _) h.once
  · rw [htable, haccepted]
    exact h.table
  · rw [htable, haccepted]
    exact h.unique
  · exact haccepted ▸ hinDoubt
  · exact hflush
  · exact hfinished

lemma Good.shift (h : Good old S) (hpend : T.pending = S.pending)
    (haccepted : T.accepted = S.accepted) (htable : T.table = S.table)
    (hrejected : T.rejected = S.rejected)
    (hinDoubt : ∀ rows ∈ T.inDoubt, ∀ r ∈ rows, r.stored ∈ forms S.accepted)
    (hflush : ∀ f, T.flush = some f → (∀ r, S.Settled r → T.Settled r) → Doing T f)
    (hfinished : ∀ rows ∈ T.finished, rows ∈ S.finished ∨ ∀ r ∈ rows, S.Settled r) :
    Good old T := by
  have hsettled : ∀ r, S.Settled r → T.Settled r := by
    intro r hr
    unfold State.Settled State.Done at hr ⊢
    rw [hpend, haccepted, htable, hrejected]
    exact hr
  refine h.shrink [] (by simp [hpend]) (by simp) haccepted htable
    (hrejected ▸ Multiset.Subset.refl _) hinDoubt (fun f hf => hflush f hf hsettled) ?_
  intro rows hrows r hr
  obtain hin | hall := hfinished rows hrows
  · exact hsettled r (h.finished rows hin r hr)
  · exact hsettled r (hall r hr)

lemma State.batch_some (h : S.flush = some f) : S.batch = f.events := by
  simp [State.batch, h]

lemma Good.wrote (h : Good old S) (hf : S.flush = some f) (hr : Reading S f)
    (hdone : ∀ r ∈ f.rows, r ∈ refused ∨ r.stored ∈ S.table) : Good old (S.wrote f refused) := by
  have hpend : S.pending = (S.wrote f refused).pending + forms f.rows := by
    have hfile : onFile S.spill = forms f.replay + onFile (consume f.lines S.spill) := by
      rw [hr.replay]
      exact onFile_split f.lines S.spill
    have hempty : (S.wrote f refused).batch = [] := rfl
    simp only [State.pending, State.batch_some hf, hempty, hfile, hr.rows, forms_append, forms_nil]
    simp only [State.wrote]
    abel
  have hgone : ∀ r ∈ f.rows, (S.wrote f refused).Done r := by
    intro r hr
    obtain hin | ht := hdone r hr
    · refine .inr ?_
      simp only [State.wrote, onFile_append, Multiset.mem_add]
      exact .inr (mem_forms hin)
    · exact .inl ht
  have hrejected : onFile S.rejected ⊆ onFile (S.wrote f refused).rejected := by
    simp only [State.wrote, onFile_append]
    exact Multiset.subset_of_le (Multiset.le_add_right _ _)
  have hdisjoint : ∀ r ∈ f.rows, r.stored ∉ (S.wrote f refused).pending := by
    intro r hr hp
    have hnodup := h.once
    rw [hpend, Multiset.nodup_add] at hnodup
    exact Multiset.disjoint_left.mp hnodup.2.2 hp (mem_forms hr)
  have hsettled : ∀ r ∈ f.rows, (S.wrote f refused).Settled r := by
    intro r hr
    refine ⟨hgone r hr, hdisjoint r hr, h.known _ ?_⟩
    rw [hpend]
    exact Multiset.mem_add.mpr (.inr (mem_forms hr))
  refine h.shrink f.rows hpend hgone rfl rfl hrejected h.inDoubt ?_ ?_
  · rintro g ⟨⟩
    exact fun _ => ⟨rfl, hsettled⟩
  · intro rows hrows r hr
    obtain ⟨hd, hp, ha⟩ := h.finished rows hrows r hr
    refine ⟨hd.imp_right (@hrejected _), fun hp' => hp ?_, ha⟩
    rw [hpend]
    exact Multiset.mem_add.mpr (.inl hp')

lemma Reading.known (hr : Reading S f) (h : Good old S) (hf : S.flush = some f) :
    ∀ r ∈ f.rows, r.stored ∈ forms S.accepted := by
  intro r hm
  apply h.known
  rw [hr.rows] at hm
  obtain hm | hm := mem_append.mp hm
  · have hfile : r.stored ∈ onFile S.spill := by
      rw [onFile_split f.lines, ← hr.replay]
      exact Multiset.mem_add.mpr (.inl (mem_forms hm))
    exact Multiset.mem_add.mpr (.inr hfile)
  · have hbatch : r.stored ∈ forms S.batch := by
      rw [State.batch_some hf]
      exact mem_forms hm
    simp [State.pending, hbatch]

lemma Good.atStage (h : Good old S) (doubts : List (List Row)) {g : Flush} (hf : S.flush = some f)
    (hevents : g.events = f.events)
    (hrows : ∀ rows ∈ doubts, ∀ r ∈ rows, r.stored ∈ forms S.accepted)
    (hdoing : Doing { S with flush := some g, inDoubt := doubts } g) :
    Good old { S with flush := some g, inDoubt := doubts } := by
  refine h.shift ?_ rfl rfl rfl hrows ?_ fun rows hr => .inl hr
  · have hg : ({ S with flush := some g, inDoubt := doubts } : State).batch = f.events := hevents
    simp only [State.pending, State.batch_some hf, hg]
  · rintro g' ⟨⟩ -
    exact hdoing

lemma Good.continue (h : Good old S) (hf : S.flush = some f) (hr : Reading S f)
    (hsub : ∀ r ∈ todo ++ refused, r ∈ f.rows)
    (hall : ∀ r ∈ f.rows, r ∈ todo ∨ r ∈ refused ∨ r.stored ∈ S.table) :
    Good old (S.continue f todo refused) := by
  cases todo with
  | nil => exact h.wrote hf hr fun r hm => (hall r hm).resolve_left (by simp)
  | cons q todo =>
    refine h.atStage S.inDoubt hf rfl h.inDoubt ?_
    exact ⟨{ hr with }, hsub, hall⟩

lemma Good.broke (h : Good old S) (hf : S.flush = some f) {rows : List Row}
    (hrows : ∀ r ∈ rows, r.stored ∈ forms S.accepted) : Good old (S.broke f rows) := by
  refine h.atStage (rows :: S.inDoubt) hf rfl ?_ fun hfail => by cases hfail
  intro rows' hm
  obtain rfl | hm := mem_cons.mp hm
  · exact hrows
  · exact h.inDoubt rows' hm

lemma Good.return (h : Good old S) (hf : S.flush = some f) {failed : Bool}
    (hdone : failed = false → ∀ r ∈ f.rows, S.Settled r) : Good old (S.return f failed) := by
  refine h.shift ?_ rfl rfl rfl h.inDoubt (fun g hg => by cases hg) fun rows hm => ?_
  · have hempty : (S.return f failed).batch = [] := rfl
    simp only [State.pending, State.batch_some hf, hempty, forms_nil]
    simp only [State.return, onFile_append]
    abel
  · cases failed with
    | true => exact .inl hm
    | false =>
      obtain rfl | hm := mem_cons.mp hm
      · exact .inr (hdone rfl)
      · exact .inl hm

/-- Every event is put once, and no earlier process has stored it. -/
def Distinct (old : List Row) (S : State) : Move → Prop
  | .put r _ => (∀ e ∈ S.accepted, e.eventId ≠ r.eventId) ∧ ∀ c ∈ old, c.eventId ≠ r.eventId
  | _ => True

lemma Good.put (h : Good old S) (hnew : ∀ e ∈ S.accepted, e.eventId ≠ r.eventId)
    (hold : ∀ c ∈ old, c.eventId ≠ r.eventId) (hpend : T.pending = r.stored ::ₘ S.pending)
    (haccepted : T.accepted = r :: S.accepted) (htable : T.table = S.table)
    (hrejected : T.rejected = S.rejected) (hinDoubt : T.inDoubt = S.inDoubt)
    (hflush : T.flush = S.flush) (hfinished : T.finished = S.finished)
    (hspill : T.spill = S.spill ++ more) : Good old T := by
  have hsub : forms S.accepted ⊆ forms T.accepted := by
    rw [haccepted, forms_cons]
    exact Multiset.subset_cons _ _
  have hnot : r.stored ∉ forms S.accepted := by
    intro hm
    obtain ⟨e, he, her⟩ := mem_map.mp (Multiset.mem_coe.mp hm)
    exact hnew e he (by simpa using congrArg Row.eventId her)
  have hdone : ∀ e, S.Done e → T.Done e := by
    intro e he
    unfold State.Done
    rw [htable, hrejected]
    exact he
  have hsettled : ∀ e, S.Settled e → T.Settled e := by
    intro e he
    refine ⟨hdone e he.1, ?_, hsub he.2.2⟩
    rw [hpend, Multiset.mem_cons]
    rintro (heq | hp)
    · exact hnot (heq ▸ he.2.2)
    · exact he.2.1 hp
  have hclear : ∀ c ∈ S.table, c.eventId ≠ r.eventId := by
    intro c hc hid
    obtain hc | hc := h.table c hc
    · exact hold c hc hid
    · obtain ⟨e, he, rfl⟩ := mem_map.mp (Multiset.mem_coe.mp hc)
      exact hnew e he hid
  constructor
  · intro e he
    rw [haccepted] at he
    rw [hpend]
    obtain rfl | he := mem_cons.mp he
    · exact .inl (Multiset.mem_cons_self _ _)
    · exact (h.kept e he).imp (fun hp => Multiset.mem_cons_of_mem hp) (hdone e)
  · intro e he
    rw [hpend] at he
    obtain rfl | he := Multiset.mem_cons.mp he
    · rw [haccepted, forms_cons]
      exact Multiset.mem_cons_self _ _
    · exact hsub (h.known e he)
  · rw [haccepted, map_cons, nodup_cons]
    refine ⟨fun hm => ?_, h.ids⟩
    obtain ⟨e, he, hid⟩ := mem_map.mp hm
    exact hnew e he hid
  · intro e he
    rw [haccepted] at he
    obtain rfl | he := mem_cons.mp he
    · exact hold
    · exact h.fresh e he
  · rw [hpend, Multiset.nodup_cons]
    exact ⟨fun hp => hnot (h.known _ hp), h.once⟩
  · intro c hc
    exact (h.table c (htable ▸ hc)).imp_right (@hsub c)
  · intro e he
    rw [haccepted] at he
    rw [htable]
    obtain rfl | he := mem_cons.mp he
    · left
      rw [filter_eq_nil_iff]
      exact fun c hc => by simpa using hclear c hc
    · exact h.unique e he
  · exact fun rows hr q hq => hsub (h.inDoubt rows (hinDoubt ▸ hr) q hq)
  · intro f hf
    refine (h.flush f (hflush ▸ hf)).grow hspill ?_ hsettled
    rw [htable]
    exact List.Subset.refl _
  · exact fun rows hr q hq => hsettled q (h.finished rows (hfinished ▸ hr) q hq)

lemma flatten_eraseIdx {i : ℕ} {events : List Row} {batches : List (List Row)} (h : batches[i]? = some events) :
    forms batches.flatten = forms events + forms (batches.eraseIdx i).flatten := by
  induction batches generalizing i with
  | nil => cases h
  | cons b batches ih =>
    cases i with
    | zero =>
      obtain rfl : b = events := by simpa using h
      simp
    | succ i =>
      have hi := ih (i := i) (by simpa using h)
      simp only [flatten_cons, forms_append, eraseIdx_cons_succ, hi]
      abel

lemma start_good (junk : List Line) (hjunk : spilled junk = []) (old : List Row) :
    Good old (start junk old) := by
  have hfile : onFile junk = 0 := by
    rw [onFile, hjunk]
    rfl
  have hpend : (start junk old).pending = 0 := by
    simp [State.pending, State.batch, start, hfile]
  constructor
  · exact fun e he => by cases he
  · simp [hpend]
  · exact nodup_nil
  · exact fun e he => by cases he
  · simp [hpend]
  · exact fun c hc => .inl hc
  · exact fun e he => by cases he
  · exact fun rows hr => by cases hr
  · exact fun f hf => by cases hf
  · exact fun rows hr => by cases hr

lemma Good.step (h : Good old S) {m : Move} (hd : Distinct old S m) (hs : step S m = some T) :
    Good old T := by
  cases m with
  | put r full =>
    cases full with
    | true =>
      cases hs
      refine h.put (r := r) hd.1 hd.2 ?_ rfl rfl rfl rfl rfl rfl rfl
      simp only [State.pending, State.batch, onFile_append, forms_cons, forms_nil,
        ← Multiset.singleton_add]
      abel
    | false =>
      cases hs
      refine h.put (r := r) hd.1 hd.2 ?_ rfl rfl rfl rfl rfl rfl (append_nil _).symm
      simp only [State.pending, State.batch, forms_append, forms_cons, forms_nil,
        ← Multiset.singleton_add]
      abel
  | begin taken limit telemetry =>
    simp only [EventWriter.step] at hs
    split at hs
    · cases hs
    · rename_i hf
      split at hs
      · cases hs
        refine h.shift rfl rfl rfl rfl h.inDoubt (fun f hf' => ?_) fun rows hr => ?_
        · rw [hf] at hf'
          cases hf'
        · obtain rfl | hr := mem_cons.mp hr
          · exact .inr fun r hr => by cases hr
          · exact .inl hr
      · cases hs
        refine h.shift ?_ rfl rfl rfl h.inDoubt ?_ fun rows hr => .inl hr
        · have hq : forms S.queue = forms (S.queue.take taken) + forms (S.queue.drop taken) := by
            rw [← forms_append, take_append_drop]
          simp only [State.pending, State.batch, hf, hq, map_some, map_none,
            getD_some, getD_none, forms_nil]
          abel
        · rintro f ⟨⟩ -
          refine ⟨rfl, rfl, read_le limit S.spill, ?_⟩
          rw [read_spec]
          simp [onFile, forms, spilled]
  | connect ok =>
    simp only [EventWriter.step] at hs
    split at hs
    · rename_i f hf
      split at hs
      · rename_i hst
        have hr : Reading S f := by simpa [Doing, hst] using h.flush f hf
        split at hs
        · cases hs
          exact h.return hf fun hfail => by cases hfail
        · split at hs
          · rename_i hempty
            cases hs
            have hrows : f.rows = [] := by
              rw [hr.rows]
              exact isEmpty_iff.mp hempty
            exact h.wrote hf hr (by simp [hrows])
          · cases hs
            exact h.atStage S.inDoubt hf rfl h.inDoubt { hr with }
      · cases hs
    · cases hs
  | write outcome =>
    simp only [EventWriter.step] at hs
    split at hs
    · rename_i f hf
      split at hs
      · rename_i hst
        have hr : Reading S f := by simpa [Doing, hst] using h.flush f hf
        have hknown := hr.known h hf
        rw [hr.rows] at hknown
        cases outcome with
        | committed =>
          cases hs
          obtain ⟨hg, hin⟩ := h.insertAll hknown
          refine hg.wrote hf { hr with } fun q hq => .inr ?_
          exact hin q (hr.rows ▸ hq)
        | refused =>
          cases hs
          refine h.continue hf hr (fun q hq => ?_) fun q hq => .inl (hr.rows ▸ hq)
          rw [hr.rows]
          simpa using hq
        | broken =>
          cases hs
          exact h.broke hf hknown
      · cases hs
    · cases hs
  | writeOne outcome =>
    simp only [EventWriter.step] at hs
    split at hs
    · rename_i f hf
      split at hs
      · rename_i r todo refused hst
        obtain ⟨hr, hsub, hall⟩ : Reading S f ∧ (∀ q ∈ r :: todo ++ refused, q ∈ f.rows) ∧
            ∀ q ∈ f.rows, q ∈ r :: todo ∨ q ∈ refused ∨ q.stored ∈ S.table := by
          simpa only [Doing, hst] using h.flush f hf
        have hknown := hr.known h hf r (hsub r (by simp))
        have hsub' : ∀ q ∈ todo ++ refused, q ∈ f.rows := fun q hq => hsub q (by simp_all)
        cases outcome with
        | committed =>
          cases hs
          obtain ⟨hg, hin⟩ := h.insert hknown
          refine hg.continue hf { hr with } hsub' fun q hq => ?_
          obtain hq | hq | hq := hall q hq
          · obtain rfl | hq := mem_cons.mp hq
            · exact .inr (.inr hin)
            · exact .inl hq
          · exact .inr (.inl hq)
          · exact .inr (.inr (mem_insert_of_mem hq))
        | refused =>
          cases hs
          refine h.continue hf hr (fun q hq => hsub q ?_) fun q hq => ?_
          · simp only [mem_append, mem_cons, not_mem_nil, or_false] at hq ⊢
            tauto
          · have hq' := hall q hq
            simp only [mem_append, mem_cons, not_mem_nil, or_false] at hq' ⊢
            tauto
        | broken =>
          cases hs
          exact h.broke hf fun q hq => by
            obtain rfl := mem_singleton.mp hq
            exact hknown
      · cases hs
    · cases hs
  | rest ok =>
    simp only [EventWriter.step] at hs
    split at hs
    · rename_i f hf
      split at hs
      · rename_i hst
        cases hs
        have hdo := h.flush f hf
        simp only [Doing, hst] at hdo
        refine h.return hf fun hfail => (hdo ?_).2
        exact (Bool.or_eq_false_iff.mp hfail).1
      · cases hs
    · cases hs
  | cancel =>
    simp only [EventWriter.step] at hs
    split at hs
    · rename_i f hf
      cases hs
      refine h.shift ?_ rfl rfl rfl ?_ (fun g hg => by cases hg) fun rows hr => .inl hr
      · simp only [State.pending, State.batch, hf, flatten_cons, forms_append, map_some,
          map_none, getD_some, getD_none, forms_nil]
        abel
      · intro rows hrows
        obtain rfl | hrows := mem_cons.mp hrows
        · intro r hr
          have hdo := h.flush f hf
          unfold Flush.sent at hr
          unfold Doing at hdo
          split at hr
          · rename_i hst
            simp only [hst] at hdo
            exact hdo.known h hf r (hdo.rows ▸ hr)
          · rename_i q todo refused hst
            simp only [hst] at hdo
            obtain rfl := mem_singleton.mp hr
            exact hdo.1.known h hf r (hdo.2.1 r (by simp))
          · cases hr
        · exact h.inDoubt rows hrows
    · cases hs
  | settle i =>
    simp only [EventWriter.step] at hs
    split at hs
    · rename_i events he
      cases hs
      refine h.shift ?_ rfl rfl rfl h.inDoubt (fun f hf hsettled => ?_) fun rows hr => .inl hr
      · simp only [State.pending, State.batch, flatten_eraseIdx he, onFile_append]
        abel
      · exact (h.flush f hf).grow rfl (List.Subset.refl _) hsettled
    · cases hs
  | land i =>
    simp only [EventWriter.step] at hs
    split at hs
    · rename_i rows he
      cases hs
      have hmem := mem_of_getElem? he
      obtain ⟨hg, -⟩ := h.insertAll (h.inDoubt rows hmem)
      refine hg.shift rfl rfl rfl rfl (fun rows' hr => ?_) (fun f hf hsettled => ?_)
        fun rows hr => .inl hr
      · exact h.inDoubt rows' (mem_of_mem_eraseIdx hr)
      · exact (hg.flush f hf).grow (append_nil _).symm (List.Subset.refl _) hsettled
    · cases hs
  | spillQueued =>
    cases hs
    refine h.shift ?_ rfl rfl rfl h.inDoubt (fun f hf hsettled => ?_) fun rows hr => .inl hr
    · simp only [State.pending, State.batch, onFile_append, forms_nil]
      abel
    · exact (h.flush f hf).grow rfl (List.Subset.refl _) hsettled
  | restart =>
    simp only [EventWriter.step] at hs
    split at hs
    · rename_i hclean
      cases hs
      obtain ⟨⟨hq, hf⟩, hu⟩ : (S.queue = [] ∧ S.flush = none) ∧ S.unwinding = [] := by
        simpa using hclean
      refine h.shift ?_ rfl rfl rfl h.inDoubt (fun f hf => by cases hf) fun rows hr => .inl hr
      simp only [State.pending, State.batch, hq, hf, hu, start]
    · cases hs

/-- The states that moves reach, each meeting a condition on the state before it. -/
abbrev Runs (cond : State → Move → Prop) : State → State → Prop :=
  Relation.ReflTransGen fun S T => ∃ m, cond S m ∧ EventWriter.step S m = some T

lemma Runs.good {junk : List Line} (hjunk : spilled junk = [])
    (h : Runs (Distinct old) (start junk old) T) : Good old T := by
  induction h with
  | refl => exact start_good junk hjunk old
  | tail _ hm ih =>
    obtain ⟨m, hd, hs⟩ := hm
    exact ih.step hd hs

/-- An event is queued, in the batch of a flush, in the spill file, in the rejected file or in the
table, with the content it was put with. -/
def State.Has (S : State) (e : Row) : Prop :=
  e.stored ∈ S.queue.map Row.stored ∨ e.stored ∈ S.batch.map Row.stored ∨
    (∃ events ∈ S.unwinding, e.stored ∈ events.map Row.stored) ∨ e.stored ∈ spilled S.spill ∨
      e.stored ∈ spilled S.rejected ∨ e.stored ∈ S.table

/-- Every accepted event is somewhere and in the table at most once, with its content; what a flush
that returned True had in its batch and replayed is in the table or rejected, and not in the spill
file. -/
structure ExactlyOnce (S : State) : Prop where
  kept : ∀ e ∈ S.accepted, S.Has e
  once : ∀ e ∈ S.accepted, S.table.filter (·.eventId = e.eventId) = [] ∨
    S.table.filter (·.eventId = e.eventId) = [e.stored]
  flushed : ∀ rows ∈ S.finished, ∀ r ∈ rows,
    (r.stored ∈ S.table ∨ r.stored ∈ spilled S.rejected) ∧ r.stored ∉ spilled S.spill

/-- However puts, flushes and their transactions, cancellations, stops and clean restarts
interleave: recorded events are written exactly once. -/
theorem recorded_once (junk : List Line) (old : List Row) (hjunk : spilled junk = []) (T : State)
    (h : Runs (Distinct old) (start junk old) T) : ExactlyOnce T := by
  have hT := h.good hjunk
  constructor
  · intro e he
    obtain hp | hd := hT.kept e he
    · simp only [State.pending, Multiset.mem_add] at hp
      obtain ((hq | hb) | hu) | hs := hp
      · exact .inl hq
      · exact .inr (.inl hb)
      · obtain ⟨r, hr, hre⟩ := mem_map.mp (Multiset.mem_coe.mp hu)
        obtain ⟨events, hev, hr⟩ := mem_flatten.mp hr
        exact .inr (.inr (.inl ⟨events, hev, hre ▸ mem_map_of_mem hr⟩))
      · exact .inr (.inr (.inr (.inl hs)))
    · obtain ht | hr := hd
      · exact .inr (.inr (.inr (.inr (.inr ht))))
      · exact .inr (.inr (.inr (.inr (.inl hr))))
  · exact hT.unique
  · intro rows hrows r hr
    obtain ⟨hd, hp, -⟩ := hT.finished rows hrows r hr
    exact ⟨hd, fun hs => hp (Multiset.mem_add.mpr (.inr hs))⟩

/-! Two events: the first is committed by a flush that is cancelled, spilled and written again; the
second is refused. -/
section Sample

def sampleRow (id : ℕ) : Row :=
  ⟨⟨0, 3600⟩, id, none, none, none, "X".toList, "INFO".toList, none, .other "v".toList, "api".toList⟩

def sampleMoves : List Move :=
  [.put (sampleRow 1) false, .begin 1 10 false, .connect true, .cancel, .land 0, .settle 0,
    .put (sampleRow 2) true, .begin 0 10 false, .connect true, .write .refused,
    .writeOne .committed, .writeOne .refused, .rest true]

def isNew (S : State) : Move → Bool
  | .put r _ => S.accepted.all fun e => e.eventId ≠ r.eventId
  | _ => true

/-- The state after a list of moves, when the events that are put have new ids. -/
def play (S : State) : List Move → Option State
  | [] => some S
  | m :: ms => if isNew S m then (step S m).bind fun T => play T ms else none

lemma Runs.of_play {ms : List Move} (h : play S ms = some T) : Runs (Distinct []) S T := by
  induction ms generalizing S with
  | nil =>
    cases h
    exact .refl
  | cons m ms ih =>
    simp only [play] at h
    split at h
    · rename_i hnew
      obtain ⟨U, hU, hrest⟩ := bind_eq_some_iff.mp h
      refine Relation.ReflTransGen.head ⟨m, ?_, hU⟩ (ih hrest)
      cases m with
      | put r full => exact ⟨by simpa [isNew] using hnew, fun c hc => by cases hc⟩
      | _ => trivial
    · cases h

theorem recorded_once_cancelled : ∃ T, Runs (Distinct []) (start [.blank] []) T ∧ ExactlyOnce T ∧
    T.table.map (·.eventId) = [1] ∧ (spilled T.rejected).map (·.eventId) = [2] ∧ T.spill = [] := by
  have hplay : (play (start [.blank] []) sampleMoves).map (fun T =>
      (T.table.map (·.eventId), (spilled T.rejected).map (·.eventId), T.spill.length)) =
        some ([1], [2], 0) := by
    decide
  obtain ⟨T, hT, he⟩ := map_eq_some_iff.mp hplay
  simp only [Prod.mk.injEq] at he
  obtain ⟨htable, hrejected, hspill⟩ := he
  have hrun := Runs.of_play hT
  exact ⟨T, hrun, recorded_once [.blank] [] rfl T hrun, htable, hrejected,
    length_eq_zero_iff.mp hspill⟩

/-- The recorder invents nothing: all it has or wrote was put, or was there before it started. -/
theorem nothing_invented (junk : List Line) (old : List Row) (hjunk : spilled junk = []) (T : State)
    (h : Runs (Distinct old) (start junk old) T) :
    (∀ c ∈ T.table, c ∈ old ∨ c ∈ forms T.accepted) ∧ (∀ r ∈ T.pending, r ∈ forms T.accepted) ∧
      T.pending.Nodup ∧ ∀ rows ∈ T.inDoubt, ∀ r ∈ rows, r.stored ∈ forms T.accepted := by
  have hT := h.good hjunk
  exact ⟨hT.table, hT.known, hT.once, hT.inDoubt⟩

theorem nothing_invented_cancelled : ∃ T, Runs (Distinct []) (start [.blank] []) T ∧
    T.table.length = 1 ∧ ∀ c ∈ T.table, c ∈ [] ∨ c ∈ forms T.accepted := by
  have hplay : (play (start [.blank] []) sampleMoves).map (·.table.length) = some 1 := by decide
  obtain ⟨T, hT, he⟩ := map_eq_some_iff.mp hplay
  have hrun := Runs.of_play hT
  exact ⟨T, hrun, he, (nothing_invented [.blank] [] rfl T hrun).1⟩

end Sample
end CloudServer.EventWriter
