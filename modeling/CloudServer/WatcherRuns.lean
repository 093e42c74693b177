import CloudServer.Watcher

/-! Every interleaving of commits with the watcher: what it yielded last about an object once it
has caught up. -/
namespace CloudServer.Watcher

open Option
open Scan (Text)

/-- Where the watcher is. `reading` has taken a notification and reads the row of its name. -/
inductive Phase (σ τ : Type)
  | closed
  | listening
  | yielding (objs : List (Object σ τ))
  | waiting
  | reading (name lifecycle : Text)
deriving DecidableEq

structure State (σ τ : Type) where
  table : Table σ τ
  phase : Phase σ τ
  queue : List Text
  yielded : List (Object σ τ)

structure Config (σ τ : Type) where
  me : Uuid
  defaultSpec : σ
  noStatus : τ

/-- `listen`, `select`, `take` and `read` are the watcher's LISTEN, resync SELECT, next
notification and read of a row; `give` yields the next object; `reconnect` follows a timeout or an
error. -/
inductive Move (σ τ : Type)
  | commit (publisher : Uuid) (change : Change σ τ)
  | listen
  | select (objs : List (Object σ τ))
  | give
  | take
  | read
  | reconnect

section
variable {σ τ : Type}

def start (t : Table σ τ) : State σ τ := ⟨t, .closed, [], []⟩

def State.notify (S : State σ τ) (payload : Text) : State σ τ :=
  match S.phase with
  | .closed => S
  | _ => { S with queue := S.queue ++ [payload] }

def popped (cfg : Config σ τ) (t : Table σ τ) (name lifecycle : Text) : Option (Object σ τ) :=
  match t.get name with
  | none => some ⟨name, .deleted, cfg.defaultSpec, cfg.noStatus⟩
  | some o => (Lifecycle.ofName lifecycle).map fun l => { o with lifecycle := l }

def step [DecidableEq σ] [DecidableEq τ] (cfg : Config σ τ) (S : State σ τ) :
    Move σ τ → Option (State σ τ)
  | .commit publisher c => match S.table.commit c with
    | none => some S
    | some (t, name, l) => some ({ S with table := t }.notify (message publisher name l))
  | .listen => match S.phase with
    | .closed => some { S with phase := .listening }
    | _ => none
  | .select objs => match S.phase with
    | .listening => if objs.Perm S.table.rows then some { S with phase := .yielding objs } else none
    | _ => none
  | .give => match S.phase with
    | .yielding [] => some { S with phase := .waiting }
    | .yielding (o :: objs) => some { S with phase := .yielding objs, yielded := o :: S.yielded }
    | _ => none
  | .take => match S.phase, S.queue with
    | .waiting, payload :: queue => match readMessage payload with
      | none => some { S with queue := queue }
      | some (publisher, name, l) =>
        if publisher = cfg.me then some { S with queue := queue }
        else some { S with queue := queue, phase := .reading name l }
    | _, _ => none
  | .read => match S.phase with
    | .reading name l => match popped cfg S.table name l with
      | none => some { S with phase := .waiting }
      | some o => some { S with phase := .yielding [o] }
    | _ => none
  | .reconnect => match S.phase with
    | .closed => none
    | _ => some { S with phase := .closed, queue := [] }

def State.last (S : State σ τ) (name : Text) : Option (Object σ τ) := find S.yielded name

def State.final (S : State σ τ) (name : Text) : Option (Object σ τ) :=
  match S.phase with
  | .yielding objs => find (objs.reverse ++ S.yielded) name
  | _ => S.last name

def Phase.hand : Phase σ τ → List (Text × Text)
  | .reading name l => [(name, l)]
  | _ => []

def latest (notes : List (Text × Text)) (name : Text) : Option Text :=
  (notes.reverse.find? (·.1 = name)).map (·.2)

lemma latest_append (notes notes' : List (Text × Text)) (name : Text) :
    latest (notes ++ notes') name = (latest notes' name).or (latest notes name) := by
  rw [latest, List.reverse_append, List.find?_append]
  cases h : notes'.reverse.find? (·.1 = name) <;> simp [latest, h]

/-- What the watcher will have yielded about a name is its row, or that it is deleted. -/
def Current (S : State σ τ) (name : Text) : Prop :=
  (∀ o, S.table.get name = some o → S.final name = some o) ∧
    (S.table.get name = none → ∀ d, S.final name = some d → d.lifecycle = .deleted)

def Phase.synced : Phase σ τ → Prop
  | .closed | .listening => False
  | _ => True

/-- The notifications that the watcher still has to act on: names and lifecycles. -/
def State.notes (S : State σ τ) : List (Text × Text) :=
  S.phase.hand ++ S.queue.filterMap fun payload => (readMessage payload).map (·.2)

/-- The undelivered notifications are of other publishers; the last one about a name has the
lifecycle of its row; and what there is no notification about is current after the resync. -/
structure Follows (cfg : Config σ τ) (S : State σ τ) : Prop where
  closed : S.phase = .closed → S.queue = []
  hand : ∀ name l, S.phase = .reading name l → ∃ lifecycle : Lifecycle, l = lifecycle.name
  written : ∀ payload ∈ S.queue, ∃ publisher name lifecycle, publisher ≠ cfg.me ∧
    payload = message publisher name lifecycle
  fresh : ∀ name o l, S.table.get name = some o → latest S.notes name = some l →
    l = o.lifecycle.name
  current : S.phase.synced → ∀ name, latest S.notes name = none → Current S name

def Others (cfg : Config σ τ) : Move σ τ → Prop
  | .commit publisher _ => publisher ≠ cfg.me
  | _ => True

/-- When the resync reads the table, what was last yielded as not deleted has its row, or a
notification is on its way. -/
def Recoverable (S : State σ τ) : Move σ τ → Prop
  | .select _ => ∀ name d, S.last name = some d → d.lifecycle ≠ .deleted →
      S.table.get name = none → latest S.notes name ≠ none
  | _ => True

variable {cfg : Config σ τ} {S T : State σ τ} {name : Text}

lemma final_yielding (objs : List (Object σ τ)) (h : S.phase = .yielding objs) :
    S.final name = find (objs.reverse ++ S.yielded) name := by
  rw [State.final, h]

variable {n : Text} {publisher : Uuid} {t : Table σ τ} {objs : List (Object σ τ)}

lemma Follows.commit (h : Follows cfg S) (hp : publisher ≠ cfg.me) {c : Change σ τ} {l : Lifecycle}
    (hc : S.table.commit c = some (t, n, l)) :
    Follows cfg ({ S with table := t }.notify (message publisher n l)) := by
  obtain ⟨hother, hself⟩ := commit_get hc
  by_cases hclosed : S.phase = .closed
  · have hS : { S with table := t }.notify (message publisher n l) = { S with table := t } := by
      simp [State.notify, hclosed]
    rw [hS]
    have hempty : latest (State.notes { S with table := t }) = fun _ => none := by
      funext name
      simp [State.notes, hclosed, Phase.hand, h.closed hclosed, latest]
    constructor
    · exact h.closed
    · exact h.hand
    · exact h.written
    · exact fun name o l _ hl => by simp [hempty] at hl
    · intro hs
      simp [hclosed, Phase.synced] at hs
  · have hS : { S with table := t }.notify (message publisher n l) =
        { S with table := t, queue := S.queue ++ [message publisher n l] } := by
      cases hph : S.phase <;> simp_all [State.notify]
    rw [hS]
    have hnotes : State.notes { S with table := t, queue := S.queue ++ [message publisher n l] } =
        S.notes ++ [(n, l.name)] := by
      simp [State.notes, readMessage_message]
    have hlatest : ∀ name, latest (S.notes ++ [(n, l.name)]) name =
        if n = name then some l.name else latest S.notes name := by
      intro name
      by_cases hn : n = name <;> simp [latest, hn]
    constructor
    · exact fun hc => absurd hc hclosed
    · exact h.hand
    · intro payload hm
      obtain hm | hm := List.mem_append.mp hm
      · exact h.written payload hm
      · exact ⟨publisher, n, l, hp, by simpa using hm⟩
    · intro name o l' ho hl
      rw [hnotes, hlatest] at hl
      by_cases hn : n = name
      · subst hn
        rw [hself o ho]
        simpa using hl.symm
      · rw [if_neg hn] at hl
        exact h.fresh name o l' ((hother name (Ne.symm hn)).symm.trans ho) hl
    · intro hs name hl
      rw [hnotes, hlatest] at hl
      by_cases hn : n = name
      · simp [hn] at hl
      · rw [if_neg hn] at hl
        have hcur := h.current hs name hl
        have hget : t.get name = S.table.get name := hother name (Ne.symm hn)
        exact ⟨fun o ho => hcur.1 o (hget.symm.trans ho), fun hg => hcur.2 (hget.symm.trans hg)⟩

lemma Follows.select (h : Follows cfg S) (hph : S.phase = .listening)
    (hperm : objs.Perm S.table.rows)
    (hrec : ∀ name d, S.last name = some d → d.lifecycle ≠ .deleted → S.table.get name = none → latest S.notes name ≠ none) :
    Follows cfg { S with phase := .yielding objs } := by
  have hnotes : State.notes { S with phase := .yielding objs } = S.notes := by
    simp [State.notes, hph, Phase.hand]
  have hnodup : (objs.reverse.map (·.name)).Nodup := by
    rw [List.map_reverse, List.nodup_reverse]
    exact (hperm.map _).nodup_iff.mpr S.table.nodup
  constructor
  · exact fun hc => by cases hc
  · exact fun _ _ hc => by cases hc
  · exact h.written
  · exact fun name o l ho hl => h.fresh name o l ho (hnotes ▸ hl)
  · intro _ name hl
    have hfinal : State.final { S with phase := .yielding objs } name =
        (find objs.reverse name).or (S.last name) := find_append _ _ _
    refine ⟨fun o ho => ?_, fun hg d hd => ?_⟩
    · obtain ⟨hm, rfl⟩ := find_name ho
      have hmem : o ∈ objs.reverse := List.mem_reverse.mpr (hperm.mem_iff.mpr hm)
      rw [hfinal, find_of_mem hnodup hmem]
      rfl
    · have hnone : find objs.reverse name = none := by
        refine find_eq_none.mpr fun o ho => find_eq_none.mp hg o ?_
        exact hperm.mem_iff.mp (List.mem_reverse.mp ho)
      rw [hfinal, hnone, none_or] at hd
      by_contra hne
      exact hrec name d hd hne hg (hnotes ▸ hl)

lemma Follows.moved (h : Follows cfg S) (htable : T.table = S.table) (hnotes : T.notes = S.notes)
    (hqueue : T.queue ⊆ S.queue) (hopen : T.phase ≠ .closed)
    (hhand : ∀ name l, T.phase = .reading name l → ∃ lifecycle : Lifecycle, l = lifecycle.name)
    (hsynced : T.phase.synced → S.phase.synced ∧ ∀ name, T.final name = S.final name) :
    Follows cfg T := by
  constructor
  · exact fun hc => absurd hc hopen
  · exact hhand
  · exact fun payload hm => h.written payload (hqueue hm)
  · exact fun name o l ho hl => h.fresh name o l (htable ▸ ho) (hnotes ▸ hl)
  · intro hs name hl
    obtain ⟨hs, hfinal⟩ := hsynced hs
    have hcur := h.current hs name (hnotes ▸ hl)
    simp only [Current, hfinal, htable]
    exact hcur

lemma Follows.give (h : Follows cfg S) {o : Object σ τ} (hph : S.phase = .yielding (o :: objs)) :
    Follows cfg { S with phase := .yielding objs, yielded := o :: S.yielded } := by
  refine h.moved rfl ?_ (List.Subset.refl _) (by simp) (by simp) fun _ => ⟨?_, fun name => ?_⟩
  · simp [State.notes, hph, Phase.hand]
  · simp [hph, Phase.synced]
  · rw [final_yielding _ hph]
    simp [State.final]

lemma Follows.wait (h : Follows cfg S) (hph : S.phase = .yielding []) :
    Follows cfg { S with phase := .waiting } := by
  refine h.moved rfl ?_ (List.Subset.refl _) (by simp) (by simp) fun _ => ⟨?_, fun name => ?_⟩
  · simp [State.notes, hph, Phase.hand]
  · simp [hph, Phase.synced]
  · rw [final_yielding _ hph]
    rfl

lemma Follows.take (h : Follows cfg S) {l : Lifecycle}
    {queue : List Text} (hph : S.phase = .waiting) (hq : S.queue = message publisher n l :: queue) :
    Follows cfg { S with queue := queue, phase := .reading n l.name } := by
  refine h.moved rfl ?_ ?_ (by simp) ?_ fun _ => ⟨?_, fun name => ?_⟩
  · simp [State.notes, hph, hq, Phase.hand, readMessage_message]
  · rw [hq]
    exact List.subset_cons_self _ _
  · rintro name l' ⟨⟩
    exact ⟨l, rfl⟩
  · simp [hph, Phase.synced]
  · simp [State.final, hph, State.last]

lemma Follows.listen (h : Follows cfg S) (hph : S.phase = .closed) :
    Follows cfg { S with phase := .listening } := by
  refine h.moved rfl ?_ (List.Subset.refl _) (by simp) (by simp) fun hs => hs.elim
  simp [State.notes, hph, Phase.hand]

lemma Follows.read (h : Follows cfg S) {l : Text} {d : Object σ τ}
    (hph : S.phase = .reading n l) (hd : popped cfg S.table n l = some d) :
    Follows cfg { S with phase := .yielding [d] } := by
  obtain ⟨lifecycle, rfl⟩ := h.hand n l hph
  have hname : d.name = n := by
    unfold popped at hd
    split at hd
    · exact (Option.some.inj hd) ▸ rfl
    · rename_i o ho
      obtain ⟨l', -, rfl⟩ := map_eq_some_iff.mp hd
      exact (find_name ho).2
  have hrest : State.notes { S with phase := .yielding [d] } = S.queue.filterMap fun payload =>
      (readMessage payload).map (·.2) := rfl
  have hnotes : S.notes = [(n, lifecycle.name)] ++ State.notes { S with phase := .yielding [d] } := by
    simp [State.notes, hph, Phase.hand]
  have hfinal : ∀ name, State.final { S with phase := .yielding [d] } name =
      if n = name then some d else S.final name := by
    intro name
    by_cases hn : n = name <;> simp [State.final, hph, State.last, find, hname, hn]
  constructor
  · exact fun hc => by cases hc
  · exact fun _ _ hc => by cases hc
  · exact h.written
  · intro name o l ho hl
    refine h.fresh name o l ho ?_
    rw [hnotes, latest_append, hl]
    rfl
  · intro _ name hl
    by_cases hn : n = name
    · subst hn
      have hlast : latest S.notes n = some lifecycle.name := by
        rw [hnotes, latest_append, hl]
        simp [latest]
      simp only [Current, hfinal, if_true, Option.some.injEq, forall_eq']
      refine ⟨fun o ho => ?_, fun hg => ?_⟩
      · have hfresh := h.fresh n o _ ho hlast
        have ho' : S.table.get n = some o := ho
        rw [popped, ho', map_eq_some_iff] at hd
        obtain ⟨l', hl', rfl⟩ := hd
        rw [hfresh, Lifecycle.ofName_name] at hl'
        cases hl'
        rfl
      · have hg' : S.table.get n = none := hg
        rw [popped, hg'] at hd
        exact (Option.some.inj hd) ▸ rfl
    · have hnone : latest S.notes name = none := by
        rw [hnotes, latest_append, hl]
        simp [latest, hn]
      have hcur := h.current (by simp [hph, Phase.synced]) name hnone
      simp only [Current, hfinal, if_neg hn]
      exact hcur

lemma follows_closed (t : Table σ τ) (yielded : List (Object σ τ)) :
    Follows cfg ⟨t, .closed, [], yielded⟩ := by
  constructor
  · exact fun _ => rfl
  · exact fun _ _ hc => by cases hc
  · exact fun _ hm => by cases hm
  · exact fun _ _ _ _ hl => by cases hl
  · exact fun hs => hs.elim

variable [DecidableEq σ] [DecidableEq τ]

lemma Follows.step (h : Follows cfg S) {m : Move σ τ} (ho : Others cfg m) (hr : Recoverable S m)
    (hs : step cfg S m = some T) : Follows cfg T := by
  cases m with
  | commit publisher c =>
    simp only [Watcher.step] at hs
    split at hs
    · cases hs
      exact h
    · rename_i hc
      cases hs
      exact h.commit ho hc
  | listen =>
    simp only [Watcher.step] at hs
    split at hs
    · cases hs
      exact h.listen ‹_›
    · cases hs
  | select objs =>
    simp only [Watcher.step] at hs
    split at hs
    · split at hs
      · cases hs
        exact h.select ‹_› ‹_› hr
      · cases hs
    · cases hs
  | give =>
    simp only [Watcher.step] at hs
    split at hs
    · cases hs
      exact h.wait ‹_›
    · cases hs
      exact h.give ‹_›
    · cases hs
  | take =>
    simp only [Watcher.step] at hs
    split at hs
    · rename_i payload queue hph hq
      obtain ⟨publisher, n, l, hp, rfl⟩ := h.written payload (by simp [hq])
      rw [readMessage_message] at hs
      simp only [if_neg hp, Option.some.injEq] at hs
      subst hs
      exact h.take hph hq
    · cases hs
  | read =>
    simp only [Watcher.step] at hs
    split at hs
    · rename_i n l hph
      split at hs
      · rename_i hd
        obtain ⟨lifecycle, rfl⟩ := h.hand n l hph
        unfold popped at hd
        split at hd
        · cases hd
        · simp [Lifecycle.ofName_name] at hd
      · rename_i d hd
        cases hs
        exact h.read hph hd
    · cases hs
  | reconnect =>
    simp only [Watcher.step] at hs
    split at hs
    · cases hs
    · cases hs
      exact follows_closed _ _

/-- The states that moves reach, each meeting a condition on the state before it. -/
abbrev Runs (cfg : Config σ τ) (cond : State σ τ → Move σ τ → Prop) : State σ τ → State σ τ → Prop :=
  Relation.ReflTransGen fun S T => ∃ m, cond S m ∧ Watcher.step cfg S m = some T

lemma Runs.follows
    (h : Runs cfg (fun S m => Others cfg m ∧ Recoverable S m) (start t) T) : Follows cfg T := by
  induction h with
  | refl => exact follows_closed t []
  | tail _ hm ih =>
    obtain ⟨m, ⟨ho, hr⟩, hs⟩ := hm
    exact ih.step ho hr hs

/-- The last yield of every existing name is its row, and a name without a row was last yielded as
deleted. -/
structure Converged (S : State σ τ) : Prop where
  existing : ∀ o ∈ S.table.rows, S.last o.name = some o
  gone : ∀ d ∈ S.yielded, S.table.get d.name = none →
    ∃ d', S.last d.name = some d' ∧ d'.lifecycle = .deleted

/-- However commits interleave with the watcher's statements, timeouts and errors: once it waits
with no notification undelivered it has caught up, as long as no object that it last yielded as not
deleted is missing, unannounced, from a resync. -/
theorem watch_converges (cfg : Config σ τ) (t : Table σ τ) (T : State σ τ)
    (h : Runs cfg (fun S m => Others cfg m ∧ Recoverable S m) (start t) T)
    (hph : T.phase = .waiting) (hq : T.queue = []) : Converged T := by
  have hT := h.follows
  have hcur : ∀ name, Current T name := fun name =>
    hT.current (by simp [hph, Phase.synced]) name (by simp [State.notes, hph, hq, Phase.hand, latest])
  have hfinal : ∀ name, T.final name = T.last name := fun name => by simp [State.final, hph]
  constructor
  · intro o ho
    exact hfinal o.name ▸ (hcur o.name).1 o (find_of_mem T.table.nodup ho)
  · intro d hd hg
    cases hlast : T.last d.name with
    | none => exact absurd rfl (find_eq_none.mp hlast d hd)
    | some d' => exact ⟨d', rfl, (hcur d.name).2 hg d' (by rw [hfinal, hlast])⟩

variable (cfg) in
def play (check : State σ τ → Move σ τ → Bool) (S : State σ τ) : List (Move σ τ) → Option (State σ τ)
  | [] => some S
  | m :: ms => if check S m then (Watcher.step cfg S m).bind fun T => play check T ms else none

lemma Runs.of_play {check : State σ τ → Move σ τ → Bool} {cond : State σ τ → Move σ τ → Prop}
    {ms : List (Move σ τ)} (hcheck : ∀ S m, check S m = true → cond S m)
    (h : play cfg check S ms = some T) : Runs cfg cond S T := by
  induction ms generalizing S with
  | nil =>
    cases h
    exact .refl
  | cons m ms ih =>
    simp only [play] at h
    split at h
    · obtain ⟨U, hU, hrest⟩ := bind_eq_some_iff.mp h
      exact Relation.ReflTransGen.head ⟨m, hcheck S m ‹_›, hU⟩ (ih hrest)
    · cases h

end

/-! An object is deleted while the watcher listens, or while it reconnects. -/
section Sample

def sampleConfig : Config ℕ ℕ := ⟨⟨['w'], by decide⟩, 0, 0⟩

def sampleObject : Object ℕ ℕ := ⟨"robot 1".toList, .alive, 1, 2⟩

def sampleTable : Table ℕ ℕ := ⟨[sampleObject], by decide⟩

def sampleDelete : Move ℕ ℕ := .commit ⟨['p'], by decide⟩ (.lifecycle sampleObject.name .deleted)

/-- The commits are of others, and no name has been yielded when the resync reads the table. -/
def unseen (S : State ℕ ℕ) : Move ℕ ℕ → Bool
  | .commit publisher _ => publisher ≠ sampleConfig.me
  | .select _ => S.yielded = []
  | _ => true

def others : State ℕ ℕ → Move ℕ ℕ → Bool
  | _, .commit publisher _ => publisher ≠ sampleConfig.me
  | _, _ => true

lemma conds_of_unseen (S : State ℕ ℕ) (m : Move ℕ ℕ) (h : unseen S m = true) :
    Others sampleConfig m ∧ Recoverable S m := by
  cases m with
  | commit publisher c => exact ⟨by simpa [Others, unseen] using h, trivial⟩
  | select objs =>
    refine ⟨trivial, fun name d hd => ?_⟩
    have hnil : S.yielded = [] := by simpa [unseen] using h
    simp [State.last, hnil, find] at hd
  | _ => exact ⟨trivial, trivial⟩

theorem watch_converges_deleted : ∃ T, Runs sampleConfig
    (fun S m => Others sampleConfig m ∧ Recoverable S m) (start sampleTable) T ∧
      Converged T ∧ T.table.rows = [] ∧ T.yielded.map (·.lifecycle) = [.deleted, .alive] := by
  have hplay : (play sampleConfig unseen (start sampleTable) [.listen, .select [sampleObject],
      .give, .give, sampleDelete, .take, .read, .give, .give]).map
      (fun T => (T.phase, T.queue, T.table.rows, T.yielded.map (·.lifecycle))) =
        some (.waiting, [], [], [.deleted, .alive]) := by
    decide
  obtain ⟨T, hT, he⟩ := map_eq_some_iff.mp hplay
  have hrun := Runs.of_play conds_of_unseen hT
  simp only [Prod.mk.injEq] at he
  obtain ⟨hph, hq, hrows, hyielded⟩ := he
  exact ⟨T, hrun, watch_converges sampleConfig sampleTable T hrun hph hq, hrows, hyielded⟩

theorem deletion_missed : ∃ T, Runs sampleConfig (fun _ m => Others sampleConfig m)
    (start sampleTable) T ∧ T.phase = .waiting ∧ T.queue = [] ∧ ¬Converged T := by
  have hplay : (play sampleConfig others (start sampleTable) [.listen, .select [sampleObject],
      .give, .give, .reconnect, sampleDelete, .listen, .select [], .give]).map
      (fun T => (T.phase, T.queue, T.table.rows, T.yielded)) =
        some (.waiting, [], [], [sampleObject]) := by
    decide
  obtain ⟨T, hT, he⟩ := map_eq_some_iff.mp hplay
  simp only [Prod.mk.injEq] at he
  obtain ⟨hph, hq, hrows, hyielded⟩ := he
  refine ⟨T, Runs.of_play (fun S m h => ?_) hT, hph, hq, fun hc => ?_⟩
  · cases m with
    | commit publisher c => simpa [Others, others] using h
    | _ => trivial
  · obtain ⟨d, hd, hdel⟩ := hc.gone sampleObject (by simp [hyielded]) (by simp [Table.get, hrows, find])
    rw [State.last, hyielded] at hd
    obtain rfl : sampleObject = d := by simpa [find] using hd
    cases hdel

end Sample
end CloudServer.Watcher
