import Mathlib

/-! Texts and the pieces of regular expressions that read them: decimal digits, the end of the
text, and searches from the left. -/
namespace CloudServer.Scan

open List

abbrev Text := List Char

instance text_lawful : LawfulBEq Text := inferInstance

/-- Code points of the decimal zeros; each is followed by its nine other digits. -/
def decimalZeros : List ℕ :=
  [48, 1632, 1776, 1984, 2406, 2534, 2662, 2790, 2918, 3046, 3174, 3302, 3430, 3558, 3664, 3792,
    3872, 4160, 4240, 6112, 6160, 6470, 6608, 6784, 6800, 6992, 7088, 7232, 7248, 42528, 43216,
    43264, 43472, 43504, 43600, 44016, 65296, 66720, 68912, 69734, 69872, 69942, 70096, 70384,
    70736, 70864, 71248, 71360, 71472, 71904, 72016, 72784, 73040, 73120, 92768, 92864, 93008,
    120782, 120792, 120802, 120812, 120822, 123200, 123632, 125264, 130032]

def digitValue (c : Char) : Option ℕ :=
  (decimalZeros.find? fun z => z ≤ c.toNat ∧ c.toNat < z + 10).map fun z => c.toNat - z

def isDecimal (c : Char) : Bool := (digitValue c).isSome

def int (ds : Text) : ℕ := ds.foldl (fun n c => 10 * n + (digitValue c).getD 0) 0

def str (n : ℕ) : Text := Nat.toDigits 10 n

def atEnd : Text → Bool
  | [] => true
  | ['\n'] => true
  | _ => false

def digits (t : Text) : Option (Text × Text) :=
  if (t.takeWhile isDecimal).isEmpty then none
  else some (t.takeWhile isDecimal, t.dropWhile isDecimal)

/-- The leftmost place where the pattern matches: the text before it and the match. -/
def search {α : Type} (m : Text → Option α) : Text → Option (Text × α)
  | [] => (m []).map fun a => ([], a)
  | c :: t => match m (c :: t) with
    | some a => some ([], a)
    | none => (search m t).map fun r => (c :: r.1, r.2)

def searchLine {α : Type} (m : Text → Option α) : Text → Option (Text × α)
  | [] => (m []).map fun a => ([], a)
  | c :: t => match m (c :: t) with
    | some a => some ([], a)
    | none => if c = '\n' then none else (searchLine m t).map fun r => (c :: r.1, r.2)

lemma digitValue_of_isDigit {c : Char} (h : c.isDigit) : digitValue c = some (c.toNat - 48) := by
  have hc : 48 ≤ c.toNat ∧ c.toNat < 58 := by
    simp only [Char.isDigit, ge_iff_le, Bool.and_eq_true, decide_eq_true_eq] at h
    obtain ⟨h1, h2⟩ := h
    have h1' : (48 : ℕ) ≤ c.val.toNat := h1
    have h2' : c.val.toNat ≤ 57 := h2
    exact ⟨h1', by change c.val.toNat < 58; omega⟩
  unfold digitValue decimalZeros
  rw [List.find?_cons_of_pos (by simpa using hc)]
  rfl

lemma isDecimal_of_mem_str {n : ℕ} {c : Char} (h : c ∈ str n) : isDecimal c = true := by
  unfold isDecimal
  rw [digitValue_of_isDigit (Nat.isDigit_of_mem_toDigits (by omega) (by omega) h)]
  rfl

@[simp]
lemma str_ne_nil (n : ℕ) : str n ≠ [] := Nat.toDigits_ne_nil

@[simp]
lemma int_str (n : ℕ) : int (str n) = n := by
  have hfold : ∀ (ds : Text) (k : ℕ), (∀ c ∈ ds, c.isDigit) →
      ds.foldl (fun n c => 10 * n + (digitValue c).getD 0) k = Nat.ofDigitChars 10 ds k := by
    intro ds
    induction ds with
    | nil => simp
    | cons c ds ih =>
      intro k h
      rw [foldl_cons, Nat.ofDigitChars_cons, digitValue_of_isDigit (h c (by simp)), ih _ fun d hd => h d (by simp [hd])]
      rfl
  unfold int str
  rw [hfold _ _ fun c hc => Nat.isDigit_of_mem_toDigits (by omega) (by omega) hc]
  exact Nat.ofDigitChars_ten_toDigits

lemma str_injective : Function.Injective str := fun a b h => by
  rw [← int_str a, h, int_str]

variable {ds r t : Text}

lemma dash_notMem (h : ∀ c ∈ ds, isDecimal c = true) : '-' ∉ ds := by
  intro hm
  have := h '-' hm
  revert this
  decide

lemma dash_notMem_str (n : ℕ) : '-' ∉ str n := dash_notMem fun _ => isDecimal_of_mem_str

lemma digits_str_append (n : ℕ) (ht : ∀ c ∈ t.head?, isDecimal c = false) :
    digits (str n ++ t) = some (str n, t) := by
  have hall : ∀ c ∈ str n, isDecimal c = true := fun _ => isDecimal_of_mem_str
  have htake : (str n ++ t).takeWhile isDecimal = str n := by
    rw [takeWhile_append_of_pos hall]
    cases t with
    | nil => simp
    | cons c t => simp [ht c (by simp)]
  have hdrop : (str n ++ t).dropWhile isDecimal = t := by
    rw [dropWhile_append_of_pos hall]
    cases t with
    | nil => simp
    | cons c t => simp [ht c (by simp)]
  unfold digits
  rw [htake, hdrop, if_neg (by simp)]

lemma digits_eq_some (h : digits t = some (ds, r)) :
    t = ds ++ r ∧ ∀ c ∈ ds, isDecimal c = true := by
  unfold digits at h
  split_ifs at h
  cases h
  exact ⟨takeWhile_append_dropWhile.symm, fun c hc => mem_takeWhile_imp hc⟩

lemma atEnd_dash (h : atEnd t = true) : '-' ∉ t := by
  unfold atEnd at h
  split at h
  · simp
  · decide
  · cases h

lemma cut_unique {a b a' b' : Text} (hb : '-' ∉ b) (hb' : '-' ∉ b')
    (h : a ++ '-' :: b = a' ++ '-' :: b') : a = a' ∧ b = b' := by
  induction a generalizing a' with
  | nil =>
    cases a' with
    | nil => exact ⟨rfl, by simpa using h⟩
    | cons c a' =>
      simp only [nil_append, cons_append, List.cons.injEq] at h
      exact absurd (h.2 ▸ by simp) hb
  | cons c a ih =>
    cases a' with
    | nil =>
      simp only [nil_append, cons_append, List.cons.injEq] at h
      exact absurd (h.2 ▸ by simp) hb'
    | cons c' a' =>
      simp only [cons_append, List.cons.injEq] at h
      obtain ⟨rfl, rfl⟩ := ih h.2
      exact ⟨by rw [h.1], rfl⟩

section Search
variable {α : Type} {m : Text → Option α}
variable {p : Text}

lemma search_append {a : α} (ht : m t = some a) (hp : ∀ p1 p2, p = p1 ++ p2 → p2 ≠ [] → m (p2 ++ t) = none) :
    search m (p ++ t) = some (p, a) := by
  induction p with
  | nil =>
    cases t with
    | nil => simp [search, ht]
    | cons c t => simp [search, ht]
  | cons c p ih =>
    have hnone := hp [] (c :: p) rfl (by simp)
    rw [cons_append] at hnone ⊢
    rw [search, hnone]
    dsimp only
    rw [ih fun p1 p2 he => hp (c :: p1) p2 (by rw [he]; rfl)]
    rfl

lemma searchLine_append {a : α} (hline : '\n' ∉ p) (ht : m t = some a)
    (hp : ∀ p1 p2, p = p1 ++ p2 → p2 ≠ [] → m (p2 ++ t) = none) :
    searchLine m (p ++ t) = some (p, a) := by
  induction p with
  | nil =>
    cases t with
    | nil => simp [searchLine, ht]
    | cons c t => simp [searchLine, ht]
  | cons c p ih =>
    have hnone := hp [] (c :: p) rfl (by simp)
    rw [cons_append] at hnone ⊢
    have hc : c ≠ '\n' := fun he => hline (by simp [he])
    rw [searchLine, hnone]
    dsimp only
    rw [if_neg hc, ih (fun hm => hline (by simp [hm])) fun p1 p2 he =>
      hp (c :: p1) p2 (by rw [he]; rfl)]
    rfl

lemma searchLine_none (hline : '\n' ∈ p) (hp : ∀ p1 p2, p = p1 ++ p2 → p2 ≠ [] → m (p2 ++ t) = none) :
    searchLine m (p ++ t) = none := by
  induction p with
  | nil => simp at hline
  | cons c p ih =>
    have hnone := hp [] (c :: p) rfl (by simp)
    rw [cons_append] at hnone ⊢
    rw [searchLine, hnone]
    dsimp only
    split_ifs with hc
    · rfl
    · have hmem : '\n' ∈ p := (mem_cons.mp hline).resolve_left (Ne.symm hc)
      rw [ih hmem fun p1 p2 he => hp (c :: p1) p2 (by rw [he]; rfl)]
      rfl

end Search
end CloudServer.Scan
