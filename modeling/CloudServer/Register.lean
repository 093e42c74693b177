import Mathlib

/-! Latest-wins registers kept in plain arrays: a negative time is an empty register, a non-negative one
holds the largest report so far, shifted by an epoch. Values, conditions and CASE expressions of SQL:
NULL is `none`, a condition over it is neither true nor false, and a CASE takes a branch only where its
condition is true. -/
namespace CloudServer.Register

variable {α : Type*}

/-- The pair `(T, V)` stands for the largest report `r`; `blank` is the value of an
empty register and `ep` the epoch subtracted from the times. -/
def Holds (ep : ℤ) (blank : α) (T : ℤ) (V : α) (r : WithBot (ℤ ×ₗ α)) : Prop :=
  (T = -1 ∧ V = blank ∧ r = ⊥) ∨ (0 ≤ T ∧ 0 ≤ T + ep ∧ r = ↑(toLex (T + ep, V)))

/-- The time `T` stands for the latest report time `r`. -/
def HoldsTime (ep T : ℤ) (r : WithBot ℤ) : Prop :=
  (T = -1 ∧ r = ⊥) ∨ (0 ≤ T ∧ 0 ≤ T + ep ∧ r = ↑(T + ep))

lemma holds_empty (ep : ℤ) (blank : α) : Holds ep blank (-1) blank ⊥ := .inl ⟨rfl, rfl, rfl⟩

lemma holdsTime_empty (ep : ℤ) : HoldsTime ep (-1) ⊥ := .inl ⟨rfl, rfl⟩

variable {T ep t : ℤ} {V blank v : α} {r : WithBot (ℤ ×ₗ α)}

lemma Holds.write [LinearOrder α] (h : Holds ep blank T V r) (ht : 0 ≤ t) (hs : 0 ≤ t + ep) :
    Holds ep blank (if T < 0 ∨ T < t ∨ (t = T ∧ V < v) then t else T)
      (if T < 0 ∨ T < t ∨ (t = T ∧ V < v) then v else V) (r ⊔ ↑(toLex (t + ep, v))) := by
  rcases h with ⟨rfl, rfl, rfl⟩ | ⟨hT, hTs, rfl⟩
  · exact .inr ⟨by simpa using ht, by simpa using hs, by simp⟩
  · by_cases hw : T < 0 ∨ T < t ∨ (t = T ∧ V < v)
    · have hle : toLex (T + ep, V) ≤ toLex (t + ep, v) := by
        rw [Prod.Lex.toLex_le_toLex]
        rcases hw with hw | hw | ⟨rfl, hw⟩
        · omega
        · exact .inl (by simpa using hw)
        · exact .inr ⟨rfl, hw.le⟩
      rw [← WithBot.coe_sup, sup_eq_right.mpr hle]
      exact .inr ⟨by simpa [hw] using ht, by simpa [hw] using hs, by simp [hw]⟩
    · have hle : toLex (t + ep, v) ≤ toLex (T + ep, V) := by
        rw [Prod.Lex.toLex_le_toLex]
        rcases lt_trichotomy t T with ht' | rfl | ht'
        · exact .inl (by simpa using ht')
        · exact .inr ⟨rfl, not_lt.mp fun hv => hw (.inr (.inr ⟨rfl, hv⟩))⟩
        · exact absurd (.inr (.inl ht')) hw
      rw [← WithBot.coe_sup, sup_eq_left.mpr hle]
      exact .inr ⟨by simpa [hw] using hT, by simpa [hw] using hTs, by simp [hw]⟩

lemma HoldsTime.write {r : WithBot ℤ} (h : HoldsTime ep T r) (ht : 0 ≤ t)
    (hs : 0 ≤ t + ep) : HoldsTime ep (max T t) (r ⊔ ↑(t + ep)) := by
  rcases h with ⟨rfl, rfl⟩ | ⟨hT, hTs, rfl⟩
  · exact .inr ⟨by omega, by omega, by rw [bot_sup_eq, max_eq_right (by omega)]⟩
  · refine .inr ⟨by omega, by omega, ?_⟩
    rw [← WithBot.coe_sup, max_add_add_right]

lemma Holds.rebase
    (h : Holds ep blank T V r) : Holds 0 blank (if T < 0 then -1 else T + ep) V r := by
  rcases h with ⟨rfl, rfl, rfl⟩ | ⟨hT, hTs, rfl⟩
  · exact .inl ⟨by simp, rfl, rfl⟩
  · rw [if_neg hT.not_gt]
    exact .inr ⟨hTs, by simpa using hTs, by simp⟩

lemma HoldsTime.rebase {r : WithBot ℤ} (h : HoldsTime ep T r) :
    HoldsTime 0 (if T < 0 then -1 else T + ep) r := by
  rcases h with ⟨rfl, rfl⟩ | ⟨hT, hTs, rfl⟩
  · exact .inl ⟨by simp, rfl⟩
  · rw [if_neg hT.not_gt]
    exact .inr ⟨hTs, by simpa using hTs, by simp⟩

/-- The register content without its encoding: `-1` and the blank value for nothing. -/
def showPair (blank : α) : WithBot (ℤ ×ₗ α) → ℤ × α
  | ⊥ => (-1, blank)
  | (r : ℤ ×ₗ α) => ofLex r

def showTime : WithBot ℤ → ℤ
  | ⊥ => -1
  | (t : ℤ) => t

lemma Holds.showPair_eq (h : Holds 0 blank T V r) : (T, V) = showPair blank r := by
  rcases h with ⟨rfl, rfl, rfl⟩ | ⟨hT, -, rfl⟩
  · rfl
  · simp [showPair]

lemma HoldsTime.showTime_eq {r : WithBot ℤ} (h : HoldsTime 0 T r) :
    T = showTime r := by
  rcases h with ⟨rfl, rfl⟩ | ⟨hT, -, rfl⟩
  · rfl
  · simp [showTime]

end CloudServer.Register

namespace CloudServer.Sql

variable {α β : Type*}

abbrev Truth := Option Bool

def notNull (a : Option α) : Truth := some a.isSome

def neg (p : Truth) : Truth := p.map Bool.not

def conj : Truth → Truth → Truth
  | some false, _ | _, some false => some false
  | some true, some true => some true
  | _, _ => none

def less [LT α] [DecidableLT α] (a b : Option α) : Truth :=
  a.bind fun a => b.map fun b => decide (a < b)

def atMost [LE α] [DecidableLE α] (a b : Option α) : Truth :=
  a.bind fun a => b.map fun b => decide (a ≤ b)

/-- `CASE WHEN .. THEN .. ELSE .. END`. -/
def caseWhen : List (Truth × β) → β → β
  | [], other => other
  | (p, b) :: rest, other => if p = some true then b else caseWhen rest other

variable {p q : Truth} {b other : β} {rest : List (Truth × β)}

@[simp] theorem notNull_true {a : Option α} : notNull a = some true ↔ a.isSome := by
  simp [notNull]

@[simp] theorem conj_true :
    conj p q = some true ↔ p = some true ∧ q = some true := by
  rcases p with - | - | - <;> rcases q with - | - | - <;> simp [conj]

@[simp] theorem neg_true : neg p = some true ↔ p = some false := by
  rcases p with - | - | - <;> simp [neg]

theorem conj_false (hp : p ≠ none) (hq : q ≠ none) :
    conj p q = some false ↔ ¬conj p q = some true := by
  rcases p with - | - | - <;> rcases q with - | - | - <;> simp_all [conj]

theorem notNull_ne_none (a : Option α) : notNull a ≠ none := by simp [notNull]

@[simp] theorem less_true [LT α] [DecidableLT α] {a b : α} :
    less (some a) (some b) = some true ↔ a < b := by
  simp [less]

theorem caseWhen_pos (h : p = some true) :
    caseWhen ((p, b) :: rest) other = b :=
  if_pos h

theorem caseWhen_neg (h : ¬p = some true) :
    caseWhen ((p, b) :: rest) other = caseWhen rest other :=
  if_neg h

end CloudServer.Sql
