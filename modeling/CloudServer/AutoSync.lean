import CloudServer.Dict
import CloudServer.Scan
import CloudServer.Steps

/-! Automatic sync: any number of servers record runs and recordings and have one destination pull
what it lacks of them. What it lacks is read off one summary for each mission name. -/
namespace CloudServer.AutoSync

open Scan Steps List Function

/-- A row of `mission_runs`. -/
structure Run where
  runId : Text
  missionName : Text
  startedAt : ℤ
  running : Bool
deriving DecidableEq

structure Bag where
  robot : Text
  bagId : Text
deriving DecidableEq

structure Summary where
  mission : Text
  runs : ℕ
  last : Option ℤ

def summary (finished : List Run) (mission : Text) : Summary :=
  let mine := finished.filter fun r => r.missionName = mission
  ⟨mission, mine.length, (mine.map (·.startedAt)).max?⟩

/-- `a and (b is None or a > b)`. -/
def later : Option ℤ → Option ℤ → Bool
  | some a, some b => b < a
  | some _, none => true
  | none, _ => false

/-- `list_runs`: the missions that have finished runs. -/
def listRuns (rows : List Run) : List Summary :=
  let finished := rows.filter fun r => !r.running
  ((finished.map (·.missionName)).dedup.map (summary finished)).mergeSort
    fun a b => !later b.last a.last

/-- `missing_missions`. -/
def missingMissions (ours theirs : List Summary) : List Text :=
  let known := Dict.ofList (theirs.map fun r => (r.mission, r))
  ((ours.mergeSort fun a b => !later a.last b.last).filter fun row =>
    match known.get row.mission with
    | none => true
    | some r => decide (r.runs < row.runs) || later row.last r.last).map (·.mission)

/-- `missing_bags`. -/
def missingBags (ours theirs : List Bag) : List Bag := ours.filter fun b => b ∉ theirs

def maxMissionsPerCycle : ℕ := 40

def maxBagsPerCycle : ℕ := 3

/-- What a cycle that found nothing to copy had before it. -/
structure Quiet where
  rosbags : Bool
  runs : List Run
  bags : List Bag
  destRuns : List Run
  destBags : List Bag

/-- The servers' tables, the destination's, what each server has got of the destination in its
cycle, and an account of the cycles that found nothing. -/
structure World (S : Type) where
  runs : S → List Run
  bags : S → List Bag
  destRuns : List Run
  destBags : List Bag
  theirs : S → Option (List Summary × List Bag)
  quiet : List Quiet

def World.empty (S : Type) : World S where
  runs := fun _ => []
  bags := fun _ => []
  destRuns := []
  destBags := []
  theirs := fun _ => none
  quiet := []

/-- What happens: runs and recordings at a server or at the destination itself, and the parts of
a cycle. A listing of recordings that fails comes back empty. -/
inductive Act (S : Type)
  | start (s : S) (run : Run)
  | finish (s : S) (runId : Text)
  | record (s : S) (bag : Bag)
  | startThere (run : Run)
  | finishThere (runId : Text)
  | recordThere (bag : Bag)
  | look (s : S) (listed : Bool)
  | select (s : S) (rosbags listed : Bool)
  | transfer (s : S) (runIds : List Text) (bags : List Bag)

def finishRun (runId : Text) (rows : List Run) : List Run :=
  rows.map fun r => if r.runId = runId then { r with running := false } else r

/-- `ON CONFLICT (run_id) DO NOTHING`. -/
def insertRun (rows : List Run) (r : Run) : List Run :=
  if rows.any fun x => x.runId = r.runId then rows else r :: rows

def insertBag (bags : List Bag) (b : Bag) : List Bag := if b ∈ bags then bags else b :: bags

/-- A new row, which is running: `run_id` is the primary key. -/
def started (rows : List Run) (run : Run) : Option (List Run) :=
  if rows.any fun x => x.runId = run.runId then none else some ({ run with running := true } :: rows)

namespace World
variable {S : Type} [DecidableEq S] (w : World S)

/-- `AutoSync.cycle`, once the destination has answered: the missions and recordings to send. -/
def selection (s : S) (rosbags listed : Bool) : Option (List Text × List Bag) :=
  (w.theirs s).map fun t =>
    ((missingMissions (listRuns (w.runs s)) t.1).take maxMissionsPerCycle,
      if rosbags then
        (missingBags (if listed then w.bags s else []) t.2).take maxBagsPerCycle
      else [])

end World

def step {S : Type} [DecidableEq S] (w : World S) : Act S → Option (World S)
  | .start s run => (started (w.runs s) run).map fun rows => { w with
      runs := update w.runs s rows }
  | .finish s runId => some { w with
      runs := update w.runs s (finishRun runId (w.runs s)) }
  | .record s bag => some { w with
      bags := update w.bags s (bag :: w.bags s) }
  | .startThere run => (started w.destRuns run).map fun rows => { w with destRuns := rows }
  | .finishThere runId => some { w with destRuns := finishRun runId w.destRuns }
  | .recordThere bag => some { w with destBags := bag :: w.destBags }
  | .look s listed => some { w with
      theirs := update w.theirs s
        (some (listRuns w.destRuns, if listed then w.destBags else [])) }
  | .select s rosbags listed =>
    (w.selection s rosbags listed).map fun sel => { w with
      theirs := update w.theirs s none
      quiet := if sel.1 = [] ∧ sel.2 = [] then
        ⟨rosbags, w.runs s, w.bags s, w.destRuns, w.destBags⟩ :: w.quiet else w.quiet }
  | .transfer s runIds bags => some { w with
      destRuns := (((w.runs s).filter fun r => !r.running && r.runId ∈ runIds).foldl insertRun
        w.destRuns)
      destBags := ((w.bags s).filter fun b => b ∈ bags).foldl insertBag w.destBags }

lemma mem_listRuns {rows : List Run} {r : Summary} :
    r ∈ listRuns rows ↔ ∃ x ∈ rows, x.running = false ∧ r = summary (rows.filter fun r => !r.running) x.missionName := by
  unfold listRuns
  simp only [mem_mergeSort, mem_map, mem_dedup, mem_filter, Bool.not_eq_true']
  constructor
  · rintro ⟨_, ⟨x, ⟨hx, hrunning⟩, rfl⟩, rfl⟩
    exact ⟨x, hx, hrunning, rfl⟩
  · rintro ⟨x, hx, hrunning, rfl⟩
    exact ⟨_, ⟨x, ⟨hx, hrunning⟩, rfl⟩, rfl⟩

lemma listRuns_unique {rows : List Run} {r : Summary} (h : r ∈ listRuns rows) :
    r = summary (rows.filter fun r => !r.running) r.mission := by
  obtain ⟨x, -, -, rfl⟩ := mem_listRuns.mp h
  rfl

lemma known_of_missing_nil {ours theirs : List Run} {x : Run}
    (h : missingMissions (listRuns ours) (listRuns theirs) = []) (hx : x ∈ ours)
    (hrunning : x.running = false) :
    (summary (ours.filter fun r => !r.running) x.missionName).runs ≤
      (summary (theirs.filter fun r => !r.running) x.missionName).runs := by
  set row := summary (ours.filter fun r => !r.running) x.missionName with hrow
  have hmem : row ∈ listRuns ours := mem_listRuns.mpr ⟨x, hx, hrunning, rfl⟩
  unfold missingMissions at h
  rw [map_eq_nil_iff, filter_eq_nil_iff] at h
  have hnot := h row (mem_mergeSort.mpr hmem)
  set known := Dict.ofList ((listRuns theirs).map fun r => (r.mission, r)) with hknown
  by_cases htold : x.missionName ∈ ((listRuns theirs).map fun r => (r.mission, r)).map Prod.fst
  · have hget : known.get x.missionName =
        some (summary (theirs.filter fun r => !r.running) x.missionName) := by
      refine Dict.get_ofList (fun e he hname => ?_) htold
      obtain ⟨r, hr, rfl⟩ := mem_map.mp he
      dsimp only at hname ⊢
      rw [← hname]
      exact listRuns_unique hr
    rw [show row.mission = x.missionName from rfl, hget] at hnot
    simp only [Bool.or_eq_true, decide_eq_true_eq, not_or, not_lt] at hnot
    exact hnot.1
  · have hget : known.get x.missionName = none := Dict.get_ofList_none htold
    rw [show row.mission = x.missionName from rfl, hget] at hnot
    exact absurd rfl hnot

lemma missingBags_nil {ours theirs : List Bag} (h : missingBags ours theirs = []) :
    ∀ b ∈ ours, b ∈ theirs := by
  intro b hb
  unfold missingBags at h
  rw [filter_eq_nil_iff] at h
  simpa using h b hb

lemma subset_of_length {α : Type} {part whole : List α} (hnodup : part.Nodup)
    (hsub : part ⊆ whole) (hlength : whole.length ≤ part.length) : whole ⊆ part :=
  ((hnodup.subperm hsub).perm_of_length_le hlength).symm.subset

/-- The finished runs have arrived, and the recordings where they are wanted. -/
def Quiet.Complete (q : Quiet) : Prop :=
  (∀ r ∈ q.runs, r.running = false → r ∈ q.destRuns) ∧
    (q.rosbags = true → ∀ b ∈ q.bags, b ∈ q.destBags)

lemma mem_finishRun {runId : Text} {rows : List Run} {r : Run} :
    r ∈ finishRun runId rows ↔ ∃ x ∈ rows, r = if x.runId = runId then
      { x with running := false } else x := by
  unfold finishRun
  simp only [mem_map, eq_comm]

lemma mem_finishRun_ended {runId : Text} {rows : List Run} {r : Run} (h : r ∈ rows)
    (hrunning : r.running = false) : r ∈ finishRun runId rows := by
  refine mem_finishRun.mpr ⟨r, h, ?_⟩
  split
  · rw [← hrunning]
  · rfl

lemma missionName_finishRun {runId : Text} {rows : List Run} {r : Run}
    (h : r ∈ finishRun runId rows) : ∃ x ∈ rows, x.missionName = r.missionName ∧ (x.running = false → r = x) := by
  obtain ⟨x, hx, rfl⟩ := mem_finishRun.mp h
  refine ⟨x, hx, ?_, fun hrunning => ?_⟩
  · split <;> rfl
  · split
    · rw [← hrunning]
    · rfl

lemma runId_finishRun (runId : Text) (rows : List Run) :
    (finishRun runId rows).map (·.runId) = rows.map (·.runId) := by
  unfold finishRun
  rw [map_map]
  refine map_congr_left fun x _ => ?_
  dsimp only [Function.comp_apply]
  split <;> rfl

lemma started_eq_some {rows rows' : List Run} {run : Run} (h : started rows run = some rows') :
    rows' = { run with running := true } :: rows ∧ run.runId ∉ rows.map (·.runId) := by
  unfold started at h
  split at h
  · cases h
  · rename_i hnew
    refine ⟨(Option.some.inj h).symm, fun hmem => hnew ?_⟩
    obtain ⟨x, hx, hid⟩ := mem_map.mp hmem
    exact any_eq_true.mpr ⟨x, hx, decide_eq_true hid⟩

lemma foldl_insertRun {rows new : List Run} (hnodup : (rows.map (·.runId)).Nodup) :
    ((new.foldl insertRun rows).map (·.runId)).Nodup ∧ (∀ r ∈ rows, r ∈ new.foldl insertRun rows) ∧
      ∀ r ∈ new.foldl insertRun rows, r ∈ rows ∨ r ∈ new := by
  induction new generalizing rows with
  | nil => exact ⟨hnodup, fun r hr => hr, fun r hr => .inl hr⟩
  | cons x new ih =>
    have hinsert : ((insertRun rows x).map (·.runId)).Nodup ∧ (∀ r ∈ rows, r ∈ insertRun rows x) ∧
        ∀ r ∈ insertRun rows x, r ∈ rows ∨ r = x := by
      unfold insertRun
      split
      · exact ⟨hnodup, fun r hr => hr, fun r hr => .inl hr⟩
      · rename_i hnew
        refine ⟨?_, fun r hr => mem_cons_of_mem _ hr, fun r hr => ?_⟩
        · rw [map_cons, nodup_cons]
          refine ⟨fun hmem => hnew ?_, hnodup⟩
          obtain ⟨y, hy, hid⟩ := mem_map.mp hmem
          exact any_eq_true.mpr ⟨y, hy, decide_eq_true hid⟩
        · exact (mem_cons.mp hr).symm
    obtain ⟨hdistinct, hkept, hfrom⟩ := ih hinsert.1
    refine ⟨hdistinct, fun r hr => hkept r (hinsert.2.1 r hr), fun r hr => ?_⟩
    rcases hfrom r hr with hr | hr
    · rcases hinsert.2.2 r hr with hr | rfl
      · exact .inl hr
      · exact .inr (mem_cons_self ..)
    · exact .inr (mem_cons_of_mem _ hr)

lemma mem_foldl_insertBag {bags new : List Bag} {b : Bag} (h : b ∈ bags) :
    b ∈ new.foldl insertBag bags := by
  induction new generalizing bags with
  | nil => exact h
  | cons x new ih =>
    refine ih ?_
    unfold insertBag
    split
    · exact h
    · exact mem_cons_of_mem _ h

section
variable {S : Type} {w w' : World S}

/-- A run is started only where no other server has runs of its mission, and the recordings to sync
can be listed. -/
def Apart (w : World S) : Act S → Prop
  | .start s run => (∀ s', s' ≠ s → ∀ y ∈ w.runs s', y.missionName ≠ run.missionName) ∧
    ∀ d ∈ w.destRuns, d.missionName = run.missionName → d ∈ w.runs s
  | .startThere run => ∀ s, ∀ x ∈ w.runs s, x.missionName ≠ run.missionName
  | .select _ rosbags listed => rosbags = true → listed = true
  | _ => True

def Seen (w : World S) (t : List Summary × List Bag) : Prop :=
  ∃ old, t.1 = listRuns old ∧ (∀ d ∈ old, d.running = false → d ∈ w.destRuns) ∧
    (old.map (·.runId)).Nodup ∧ ∀ b ∈ t.2, b ∈ w.destBags

structure Sound (w : World S) : Prop where
  distinct : (w.destRuns.map (·.runId)).Nodup
  owned : ∀ s, ∀ x ∈ w.runs s, ∀ d ∈ w.destRuns, d.missionName = x.missionName →
    d ∈ w.runs s ∧ d.running = false
  alone : ∀ s s', ∀ x ∈ w.runs s, ∀ y ∈ w.runs s', x.missionName = y.missionName → s = s'
  seen : ∀ s t, w.theirs s = some t → Seen w t
  quiet : ∀ q ∈ w.quiet, q.Complete

lemma sound_empty : Sound (World.empty S) where
  distinct := nodup_nil
  owned := fun s x hx => by cases hx
  alone := fun s s' x hx => by cases hx
  seen := fun s t ht => by cases ht
  quiet := fun q hq => by cases hq

lemma Seen.mono {t : List Summary × List Bag} (h : Seen w t) (hruns : ∀ d ∈ w.destRuns, d.running = false → d ∈ w'.destRuns)
    (hbags : ∀ b ∈ w.destBags, b ∈ w'.destBags) : Seen w' t := by
  obtain ⟨old, hlist, hold, hnodup, hb⟩ := h
  exact ⟨old, hlist, fun d hd hrunning => hruns d (hold d hd hrunning) hrunning, hnodup, fun b hmem => hbags b (hb b hmem)⟩

lemma Sound.startThere (h : Sound w) {run : Run} {rows : List Run}
    (hstarted : started w.destRuns run = some rows) (hapart : Apart w (.startThere run)) :
    Sound { w with destRuns := rows } := by
  obtain ⟨rfl, hnew⟩ := started_eq_some hstarted
  exact {
    distinct := by
      rw [map_cons, nodup_cons]
      exact ⟨hnew, h.distinct⟩
    owned := by
      intro s x hx d hd hname
      rcases mem_cons.mp hd with rfl | hd
      · exact absurd hname.symm (hapart s x hx)
      · exact h.owned s x hx d hd hname
    alone := h.alone
    seen := fun s t ht => (h.seen s t ht).mono (fun d hd _ => mem_cons_of_mem _ hd)
      fun b hb => hb
    quiet := h.quiet }

lemma Sound.finishThere (h : Sound w) (runId : Text) :
    Sound { w with destRuns := finishRun runId w.destRuns } where
  distinct := by
    rw [runId_finishRun]
    exact h.distinct
  owned := by
    intro s x hx d hd hname
    obtain ⟨y, hy, hyname, hsame⟩ := missionName_finishRun hd
    obtain ⟨hy', hrunning⟩ := h.owned s x hx y hy (hyname.trans hname)
    rw [hsame hrunning]
    exact ⟨hy', hrunning⟩
  alone := h.alone
  seen := fun s t ht => (h.seen s t ht).mono (fun d hd hrunning => mem_finishRun_ended hd hrunning)
    fun b hb => hb
  quiet := h.quiet

lemma Sound.transfer (h : Sound w) (s : S) (runIds : List Text) (bags : List Bag) :
    Sound { w with
      destRuns := (((w.runs s).filter fun r => !r.running && r.runId ∈ runIds).foldl insertRun w.destRuns)
      destBags := ((w.bags s).filter fun b => b ∈ bags).foldl insertBag w.destBags } := by
  obtain ⟨hdistinct, hkept, hfrom⟩ := @foldl_insertRun w.destRuns
    ((w.runs s).filter fun r => !r.running && r.runId ∈ runIds) h.distinct
  exact {
    distinct := hdistinct
    owned := by
      intro s' x hx d hd hname
      rcases hfrom d hd with hd | hd
      · exact h.owned s' x hx d hd hname
      · simp only [mem_filter, Bool.and_eq_true, Bool.not_eq_true'] at hd
        obtain rfl := h.alone s' s x hx d hd.1 hname.symm
        exact ⟨hd.1, hd.2.1⟩
    alone := h.alone
    seen := fun s' t ht => (h.seen s' t ht).mono (fun d hd _ => hkept d hd)
      fun b hb => mem_foldl_insertBag hb
    quiet := h.quiet }

lemma Sound.complete (h : Sound w) {s : S} {rosbags listed : Bool}
    (hlisted : rosbags = true → listed = true) {sel : List Text × List Bag}
    (hsel : w.selection s rosbags listed = some sel) (hnone : sel.1 = [] ∧ sel.2 = []) :
    Quiet.Complete ⟨rosbags, w.runs s, w.bags s, w.destRuns, w.destBags⟩ := by
  unfold World.selection at hsel
  obtain ⟨t, ht, rfl⟩ := Option.map_eq_some_iff.mp hsel
  obtain ⟨old, hlist, hold, hnodup, hbags⟩ := h.seen s t ht
  dsimp only at hnone
  have hmissing : missingMissions (listRuns (w.runs s)) (listRuns old) = [] := by
    rw [hlist] at hnone
    exact (take_eq_nil_iff.mp hnone.1).resolve_left (by decide)
  constructor
  · intro r hr hrunning
    have hle := known_of_missing_nil hmissing hr hrunning
    dsimp only at hr
    set ours := ((w.runs s).filter fun r => !r.running).filter
      fun x => x.missionName = r.missionName with hours
    set known := (old.filter fun r => !r.running).filter
      fun x => x.missionName = r.missionName with hknown
    have hlength : ours.length ≤ known.length := hle
    have hsub : known ⊆ ours := by
      intro d hd
      simp only [hknown, mem_filter, Bool.not_eq_true', decide_eq_true_eq] at hd
      have howned := h.owned s r hr d (hold d hd.1.1 hd.1.2) hd.2
      simp only [hours, mem_filter, Bool.not_eq_true', decide_eq_true_eq]
      exact ⟨⟨howned.1, hd.1.2⟩, hd.2⟩
    have hdistinct : known.Nodup := ((List.Nodup.of_map _ hnodup).filter _).filter _
    have hmem : r ∈ ours := by
      simp only [hours, mem_filter, Bool.not_eq_true', decide_eq_true_eq]
      exact ⟨⟨hr, hrunning⟩, trivial⟩
    have htold := subset_of_length hdistinct hsub hlength hmem
    simp only [hknown, mem_filter, Bool.not_eq_true'] at htold
    exact hold r htold.1.1 hrunning
  · intro hrosbags b hb
    dsimp only at hrosbags hb
    rw [hrosbags, hlisted hrosbags, if_pos rfl, if_pos rfl] at hnone
    exact hbags b (missingBags_nil ((take_eq_nil_iff.mp hnone.2).resolve_left (by decide)) b hb)

variable [DecidableEq S]

lemma Sound.start (h : Sound w) {s : S} {run : Run} {rows : List Run}
    (hstarted : started (w.runs s) run = some rows) (hapart : Apart w (.start s run)) :
    Sound { w with runs := update w.runs s rows } := by
  obtain ⟨rfl, -⟩ := started_eq_some hstarted
  obtain ⟨hothers, hdest⟩ := hapart
  have hmem : ∀ s' x, x ∈ update w.runs s ({ run with running := true } :: w.runs s) s' →
      x ∈ w.runs s' ∨ s' = s ∧ x.missionName = run.missionName := by
    intro s' x hx
    by_cases hs : s' = s
    · subst hs
      rw [update_self] at hx
      rcases mem_cons.mp hx with rfl | hx
      · exact .inr ⟨rfl, rfl⟩
      · exact .inl hx
    · rw [update_of_ne hs] at hx
      exact .inl hx
  have hkept : ∀ s' x, x ∈ w.runs s' →
      x ∈ update w.runs s ({ run with running := true } :: w.runs s) s' := by
    intro s' x hx
    by_cases hs : s' = s
    · subst hs
      rw [update_self]
      exact mem_cons_of_mem _ hx
    · rw [update_of_ne hs]
      exact hx
  exact {
    distinct := h.distinct
    owned := by
      intro s' x hx d hd hname
      rcases hmem s' x hx with hx | ⟨rfl, hrun⟩
      · obtain ⟨hd', hrunning⟩ := h.owned s' x hx d hd hname
        exact ⟨hkept s' d hd', hrunning⟩
      · have hd' := hdest d hd (hname.trans hrun)
        exact ⟨hkept s' d hd', (h.owned s' d hd' d hd rfl).2⟩
    alone := by
      intro s₁ s₂ x hx y hy hname
      rcases hmem s₁ x hx with hx₁ | ⟨rfl, hrun⟩
      · rcases hmem s₂ y hy with hy₂ | ⟨rfl, hrun⟩
        · exact h.alone s₁ s₂ x hx₁ y hy₂ hname
        · by_contra hne
          exact hothers s₁ hne x hx₁ (hname.trans hrun)
      · rcases hmem s₂ y hy with hy₂ | ⟨rfl, -⟩
        · by_contra hne
          exact hothers s₂ (Ne.symm hne) y hy₂ (hname.symm.trans hrun)
        · rfl
    seen := h.seen
    quiet := h.quiet }

lemma Sound.finish (h : Sound w) (s : S) (runId : Text) :
    Sound { w with runs := update w.runs s (finishRun runId (w.runs s)) } := by
  have hmem : ∀ s' x, x ∈ update w.runs s (finishRun runId (w.runs s)) s' →
      ∃ y ∈ w.runs s', y.missionName = x.missionName := by
    intro s' x hx
    by_cases hs : s' = s
    · subst hs
      rw [update_self] at hx
      obtain ⟨y, hy, hname, -⟩ := missionName_finishRun hx
      exact ⟨y, hy, hname⟩
    · rw [update_of_ne hs] at hx
      exact ⟨x, hx, rfl⟩
  have hkept : ∀ s' x, x ∈ w.runs s' → x.running = false →
      x ∈ update w.runs s (finishRun runId (w.runs s)) s' := by
    intro s' x hx hrunning
    by_cases hs : s' = s
    · subst hs
      rw [update_self]
      exact mem_finishRun_ended hx hrunning
    · rw [update_of_ne hs]
      exact hx
  exact {
    distinct := h.distinct
    owned := by
      intro s' x hx d hd hname
      obtain ⟨y, hy, hyx⟩ := hmem s' x hx
      obtain ⟨hd', hrunning⟩ := h.owned s' y hy d hd (hname.trans hyx.symm)
      exact ⟨hkept s' d hd' hrunning, hrunning⟩
    alone := by
      intro s₁ s₂ x hx y hy hname
      obtain ⟨x', hx', hxx⟩ := hmem s₁ x hx
      obtain ⟨y', hy', hyy⟩ := hmem s₂ y hy
      exact h.alone s₁ s₂ x' hx' y' hy' (hxx.trans (hname.trans hyy.symm))
    seen := h.seen
    quiet := h.quiet }

lemma Sound.step {a : Act S} (hapart : Apart w a) (h : Sound w)
    (hstep : AutoSync.step w a = some w') : Sound w' := by
  cases a with
  | start s run =>
    obtain ⟨rows, hstarted, rfl⟩ := Option.map_eq_some_iff.mp hstep
    exact h.start hstarted hapart
  | finish s runId =>
    cases hstep
    exact h.finish s runId
  | record s bag =>
    cases hstep
    exact { h with }
  | startThere run =>
    obtain ⟨rows, hstarted, rfl⟩ := Option.map_eq_some_iff.mp hstep
    exact h.startThere hstarted hapart
  | finishThere runId =>
    cases hstep
    exact h.finishThere runId
  | recordThere bag =>
    cases hstep
    exact { h with seen := fun s t ht =>
      (h.seen s t ht).mono (fun d hd _ => hd) fun b hb => mem_cons_of_mem _ hb }
  | look s listed =>
    cases hstep
    refine { h with seen := fun s' t ht => ?_ }
    dsimp only at ht
    rw [update_apply] at ht
    split at ht
    · cases ht
      refine ⟨w.destRuns, rfl, fun d hd _ => hd, h.distinct, fun b hb => ?_⟩
      dsimp only at hb
      split at hb
      · exact hb
      · cases hb
    · exact h.seen s' t ht
  | select s rosbags listed =>
    obtain ⟨sel, hsel, rfl⟩ := Option.map_eq_some_iff.mp hstep
    refine ⟨h.distinct, h.owned, h.alone, fun s' t ht => ?_, fun q hq => ?_⟩
    · dsimp only at ht
      rw [update_apply] at ht
      split at ht
      · cases ht
      · exact h.seen s' t ht
    · dsimp only at hq
      split at hq
      · rename_i hnone
        rcases mem_cons.mp hq with rfl | hq
        · exact h.complete hapart hsel hnone
        · exact h.quiet q hq
      · exact h.quiet q hq
  | transfer s runIds bags =>
    cases hstep
    exact h.transfer s runIds bags

/-- However the servers record and sync, a cycle that finds nothing to send leaves nothing out. -/
theorem up_to_date (h : Runs step Apart (World.empty S) w) : ∀ q ∈ w.quiet, q.Complete :=
  (h.invariant sound_empty fun _ _ _ hapart hsound hstep => hsound.step hapart hstep).quiet

end

def apart (w : World Bool) : Act Bool → Bool
  | .start s run => decide ((∀ s', s' ≠ s → ∀ y ∈ w.runs s', y.missionName ≠ run.missionName) ∧
    ∀ d ∈ w.destRuns, d.missionName = run.missionName → d ∈ w.runs s)
  | .startThere run => decide (∀ s, ∀ x ∈ w.runs s, x.missionName ≠ run.missionName)
  | .select _ rosbags listed => !rosbags || listed
  | _ => true

lemma apart_sound {w : World Bool} {a : Act Bool} (h : apart w a = true) : Apart w a := by
  cases a with
  | start s run =>
    simp only [apart, decide_eq_true_eq] at h
    exact h
  | startThere run =>
    simp only [apart, decide_eq_true_eq] at h
    exact h
  | select s rosbags listed =>
    rintro rfl
    exact h
  | _ => trivial

def sampleRun (runId mission : String) (startedAt : ℤ) : Run :=
  ⟨runId.toList, mission.toList, startedAt, false⟩

def sampleBag : Bag := ⟨"robot".toList, "bag".toList⟩

/-- Two servers of which one syncs what it recorded and then looks again. -/
theorem up_to_date_synced : ∃ w, Runs step Apart (World.empty Bool) w ∧
    (w.quiet.length = 1 ∧ w.destRuns.length = 2) ∧ ∀ q ∈ w.quiet, q.Complete := by
  obtain ⟨w, hruns, hend⟩ := Runs.of_play_any (fun _ _ => apart_sound)
    (show (play step apart (World.empty Bool)
      [.start true (sampleRun "1" "tour" 5), .startThere (sampleRun "2" "guard" 6),
        .finish true "1".toList, .record true sampleBag, .look true true, .select true true true,
        .transfer true ["1".toList] [sampleBag], .look true true, .select true true true]).any
      (fun w => w.quiet.length = 1 && w.destRuns.length = 2) = true by decide +kernel)
  exact ⟨w, hruns, by simpa using hend, up_to_date hruns⟩

def Anyhow (_ : World Bool) (_ : Act Bool) : Prop := True

def anyhow (_ : World Bool) (_ : Act Bool) : Bool := true

lemma anyhow_sound {w : World Bool} {a : Act Bool} (_ : anyhow w a = true) : Anyhow w a := trivial

/-- A newer run of another server under the same mission name hides a run, and recordings that
cannot be listed are none. -/
theorem not_up_to_date :
    (∃ w, Runs step Anyhow (World.empty Bool) w ∧
      ∃ q ∈ w.quiet, ∃ r ∈ q.runs, r.running = false ∧ r ∉ q.destRuns) ∧
    ∃ w, Runs step Anyhow (World.empty Bool) w ∧
      ∃ q ∈ w.quiet, q.rosbags = true ∧ ∃ b ∈ q.bags, b ∉ q.destBags := by
  constructor
  · obtain ⟨w, hruns, hend⟩ := Runs.of_play_any (fun _ _ => anyhow_sound)
      (show (play step anyhow (World.empty Bool)
        [.start true (sampleRun "1" "tour" 5), .finish true "1".toList,
          .start false (sampleRun "2" "tour" 6), .finish false "2".toList,
          .transfer false ["2".toList] [], .look true true, .select true true true]).any
        (fun w => w.quiet.any fun q => q.runs.any fun r => !r.running && r ∉ q.destRuns) = true
        by decide +kernel)
    obtain ⟨q, hq, hr⟩ := any_eq_true.mp hend
    obtain ⟨r, hr, hnot⟩ := any_eq_true.mp hr
    exact ⟨w, hruns, q, hq, r, hr, by simpa using hnot⟩
  · obtain ⟨w, hruns, hend⟩ := Runs.of_play_any (fun _ _ => anyhow_sound)
      (show (play step anyhow (World.empty Bool)
        [.record true sampleBag, .look true true, .select true true false]).any
        (fun w => w.quiet.any fun q => q.rosbags && q.bags.any fun b => b ∉ q.destBags) = true
        by decide +kernel)
    obtain ⟨q, hq, hbag⟩ := any_eq_true.mp hend
    obtain ⟨hrosbags, hany⟩ := Bool.and_eq_true_iff.mp hbag
    obtain ⟨b, hb, hnot⟩ := any_eq_true.mp hany
    exact ⟨w, hruns, q, hq, hrosbags, b, hb, by simpa using hnot⟩

end CloudServer.AutoSync
