import Mathlib.Data.Int.Order.Basic
import CloudServer.Register

/-! The row of one blocked graph node: reports merged by the upsert statement, expired rows purged
and rows cleared, and what a lookup reads. Times and intervals are microseconds. -/
namespace CloudServer.BlockedNodes
open Sql

inductive Source
  | edgeBlocked
  | nodeBlocked
  | operator
deriving DecidableEq

/-- One report of a blocked edge. -/
structure Report (κ : Type) where
  edgeFrom : Option String
  edgeTo : Option String
  source : Source
  robotName : Option String
  missionName : Option String
  vdaNodeId : Option String
  reason : Option String
  x : Option κ
  y : Option κ
  robotX : Option κ
  robotY : Option κ
  expiresIn : ℤ
deriving DecidableEq

structure Row (κ : Type) where
  edgeFrom : Option String
  edgeTo : Option String
  source : Source
  robotName : Option String
  missionName : Option String
  vdaNodeId : Option String
  reason : Option String
  x : Option κ
  y : Option κ
  createdAt : ℤ
  expiresAt : ℤ
  robotX : Option κ
  robotY : Option κ
deriving DecidableEq

variable {κ : Type}

def newPose (e : Report κ) : Truth := conj (notNull e.robotX) (notNull e.robotY)

def keepOldPose (now : ℤ) (row : Row κ) (e : Report κ) : Truth :=
  conj (conj (conj (conj (conj (less (some now) (some row.expiresAt)) (notNull row.robotX))
    (notNull row.robotY)) (notNull row.x)) (notNull row.y)) (neg (newPose e))

def inserted (now : ℤ) (e : Report κ) : Row κ where
  edgeFrom := e.edgeFrom
  edgeTo := e.edgeTo
  source := e.source
  robotName := e.robotName
  missionName := e.missionName
  vdaNodeId := e.vdaNodeId
  reason := e.reason
  x := e.x
  y := e.y
  createdAt := now
  expiresAt := now + e.expiresIn
  robotX := e.robotX
  robotY := e.robotY

def updated (now : ℤ) (row : Row κ) (e : Report κ) : Row κ where
  edgeFrom := e.edgeFrom
  edgeTo := e.edgeTo
  source := e.source
  robotName := e.robotName
  missionName := e.missionName
  vdaNodeId := e.vdaNodeId
  reason := e.reason
  x := caseWhen [(keepOldPose now row e, row.x)] e.x
  y := caseWhen [(keepOldPose now row e, row.y)] e.y
  robotX := caseWhen [(keepOldPose now row e, row.robotX), (newPose e, e.robotX)] none
  robotY := caseWhen [(keepOldPose now row e, row.robotY), (newPose e, e.robotY)] none
  createdAt := caseWhen [(atMost (some row.expiresAt) (some now), now)] row.createdAt
  expiresAt := max row.expiresAt (now + e.expiresIn)

def upsert (now : ℤ) (row : Option (Row κ)) (e : Report κ) : Row κ :=
  match row with
  | none => inserted now e
  | some row => updated now row e

def PURGE_AFTER : ℤ := 86400 * 1000000

inductive Op (κ : Type)
  | upsert (now : ℤ) (e : Report κ)
  | purge (now : ℤ)
  | clear

def lookup (now : ℤ) (row : Option (Row κ)) : Option (Row κ) :=
  row.filter fun row => now < row.expiresAt

def step (row : Option (Row κ)) : Op κ → Option (Row κ)
  | .upsert now e => some (upsert now row e)
  | .purge now => row.filter fun row => now - PURGE_AFTER ≤ row.expiresAt
  | .clear => none

def stored : List (Op κ) → Option (Row κ)
  | [] => none
  | op :: older => step (stored older) op

/-- The reports of the current block, the newest first: a report that finds no active row starts a
new block. -/
def block : List (Op κ) → List (Report κ)
  | [] => []
  | .upsert now e :: older => e :: if (lookup now (stored older)).isSome then block older else []
  | .purge _ :: older => block older
  | .clear :: _ => []

def Report.FullPose (e : Report κ) : Prop := e.robotX.isSome ∧ e.robotY.isSome

/-- `e` is the newest report with a full pose among `reports`. -/
def Newest (reports : List (Report κ)) (e : Report κ) : Prop :=
  ∃ newer older, reports = newer ++ e :: older ∧ e.FullPose ∧ ∀ n ∈ newer, ¬n.FullPose

structure Row.Takes (row : Row κ) (e : Report κ) : Prop where
  robotX : row.robotX = e.robotX
  robotY : row.robotY = e.robotY
  x : row.x = e.x
  y : row.y = e.y

variable {e n : Report κ} {row row' : Row κ} {reports : List (Report κ)} {o : Option (Row κ)}

@[simp] theorem newPose_true : newPose e = some true ↔ e.FullPose := by
  simp [newPose, Report.FullPose]

@[simp] theorem newPose_false : newPose e = some false ↔ ¬e.FullPose := by
  rw [← newPose_true]
  exact conj_false (notNull_ne_none _) (notNull_ne_none _)

theorem keepOldPose_true {now : ℤ} :
    keepOldPose now row e = some true ↔ now < row.expiresAt ∧ row.robotX.isSome ∧
      row.robotY.isSome ∧ row.x.isSome ∧ row.y.isSome ∧ ¬e.FullPose := by
  simp [keepOldPose, and_assoc]

theorem updated_cases (now : ℤ) (row : Row κ) (e : Report κ) :
    (keepOldPose now row e = some true ∧ (updated now row e).robotX = row.robotX ∧
      (updated now row e).robotY = row.robotY ∧ (updated now row e).x = row.x ∧
      (updated now row e).y = row.y) ∨
    (e.FullPose ∧ (updated now row e).Takes e) ∨
    ((updated now row e).robotX = none ∧ (updated now row e).robotY = none) := by
  by_cases hk : keepOldPose now row e = some true
  · exact .inl ⟨hk, caseWhen_pos hk, caseWhen_pos hk, caseWhen_pos hk, caseWhen_pos hk⟩
  · right
    by_cases hp : newPose e = some true
    · left
      refine ⟨newPose_true.mp hp, ?_, ?_, caseWhen_neg hk, caseWhen_neg hk⟩
      · exact (caseWhen_neg hk).trans (caseWhen_pos hp)
      · exact (caseWhen_neg hk).trans (caseWhen_pos hp)
    · right
      exact ⟨(caseWhen_neg hk).trans (caseWhen_neg hp), (caseWhen_neg hk).trans (caseWhen_neg hp)⟩

theorem Newest.cons (h : Newest reports e) (hn : ¬n.FullPose) : Newest (n :: reports) e := by
  obtain ⟨newer, older, rfl, he, hnew⟩ := h
  exact ⟨n :: newer, older, rfl, he, List.forall_mem_cons.mpr ⟨hn, hnew⟩⟩

theorem Newest.head (he : e.FullPose) :
    Newest (e :: reports) e :=
  ⟨[], reports, rfl, he, by simp⟩

theorem lookup_eq_some {now : ℤ} :
    lookup now o = some row ↔ o = some row ∧ now < row.expiresAt := by
  cases o with
  | none => simp [lookup]
  | some r =>
    simp only [lookup, Option.filter_eq_some_iff, decide_eq_true_eq]

/-- Every stored row that has a full pose took it and its waypoint from the newest report of the
block that has one. -/
def Paired (l : List (Op κ)) : Prop :=
  ∀ row, stored l = some row → row.robotX.isSome → row.robotY.isSome →
    ∃ e, Newest (block l) e ∧ row.Takes e

theorem paired_upsert {l : List (Op κ)} (h : Paired l) (now : ℤ) (e : Report κ) :
    Paired (.upsert now e :: l) := by
  intro row hrow hx hy
  have hnew : row = upsert now (stored l) e := (Option.some.inj hrow).symm
  cases hs : stored l with
  | none =>
    rw [hs] at hnew
    subst hnew
    exact ⟨e, Newest.head ⟨hx, hy⟩, rfl, rfl, rfl, rfl⟩
  | some old =>
    rw [hs] at hnew
    subst hnew
    rcases updated_cases now old e with ⟨hk, h₁, h₂, h₃, h₄⟩ | ⟨he, ht⟩ | ⟨h₁, -⟩
    · obtain ⟨hact, hox, hoy, -, -, hne⟩ := keepOldPose_true.mp hk
      obtain ⟨e', hn, ht⟩ := h old hs hox hoy
      have hl : lookup now (stored l) = some old := lookup_eq_some.mpr ⟨hs, hact⟩
      refine ⟨e', ?_, h₁.trans ht.robotX, h₂.trans ht.robotY, h₃.trans ht.x, h₄.trans ht.y⟩
      simp only [block, hl, Option.isSome_some, if_true]
      exact hn.cons hne
    · exact ⟨e, Newest.head he, ht⟩
    · rw [show upsert now (some old) e = updated now old e from rfl, h₁] at hx
      simp at hx

theorem paired (l : List (Op κ)) : Paired l := by
  induction l with
  | nil => intro row hrow; simp [stored] at hrow
  | cons op l ih =>
    cases op with
    | upsert now e => exact paired_upsert ih now e
    | purge now =>
      intro row hrow
      exact ih row (Option.filter_eq_some_iff.mp hrow).1
    | clear => intro row hrow; simp [stored, step] at hrow

theorem expiresAt_le_step {op : Op κ}
    (h : o = some row) (h' : step o op = some row') : row.expiresAt ≤ row'.expiresAt := by
  subst h
  cases op with
  | upsert now e =>
    rw [← Option.some.inj h']
    exact le_max_left _ _
  | purge now =>
    have hf : (some row).filter (fun row : Row κ => now - PURGE_AFTER ≤ row.expiresAt) = some row' := h'
    rw [Option.some.inj (Option.filter_eq_some_iff.mp hf).1]
  | clear => simp [step] at h'

/-- In every run of reports, purges and clears: an active row with a robot pose has pose and
waypoint from one report, the newest of its block with a full pose, and no step lowers the
expiry of a row. -/
theorem pose_with_waypoint (l : List (Op κ)) :
    (∀ now row, lookup now (stored l) = some row → row.robotX.isSome → row.robotY.isSome →
      ∃ e, Newest (block l) e ∧ row.Takes e) ∧
    ∀ op row row', stored l = some row → stored (op :: l) = some row' →
      row.expiresAt ≤ row'.expiresAt := by
  constructor
  · intro now row hrow hx hy
    exact paired l row (lookup_eq_some.mp hrow).1 hx hy
  · intro op row row' h h'
    exact expiresAt_le_step h h'

/-- A report at the origin with a pose, and one without a pose that comes later. -/
theorem pose_with_waypoint_kept :
    let plain : Report ℕ := ⟨none, none, .edgeBlocked, none, none, none, none, some 4, some 5, none, none, 60⟩
    let posed : Report ℕ := { plain with x := some 0, y := some 0, robotX := some 1, robotY := some 2 }
    ∃ row, lookup 20 (stored [.upsert 10 plain, .upsert 0 posed]) = some row ∧
      ∃ e, Newest [plain, posed] e ∧ row.Takes e := by
  intro plain posed
  refine ⟨_, rfl, ?_⟩
  exact (pose_with_waypoint [.upsert 10 plain, .upsert 0 posed]).1 20 _ rfl rfl rfl

end CloudServer.BlockedNodes
