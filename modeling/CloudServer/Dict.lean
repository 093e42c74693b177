import Mathlib

/-! Insertion-ordered dictionaries with unique keys. -/
namespace CloudServer

open List

universe u v w

structure Dict (κ : Type u) (α : Type v) where
  items : List (κ × α)
  nodup : (items.map Prod.fst).Nodup
  deriving DecidableEq

namespace Dict

variable {κ : Type u} {α : Type v} {β : Type w} [DecidableEq κ]

def empty : Dict κ α := ⟨[], by simp⟩

def keys (d : Dict κ α) : List κ := d.items.map Prod.fst

def find (xs : List (κ × α)) (k : κ) : Option α := xs.lookup k

def get (d : Dict κ α) (k : κ) : Option α := find d.items k

/-- Assignment keeps the position of a key that is present and appends a new one. -/
def setItem (k : κ) (v : α) : List (κ × α) → List (κ × α)
  | [] => [(k, v)]
  | e :: rest => if e.1 = k then (k, v) :: rest else e :: setItem k v rest

lemma mem_setItem (k m : κ) (v : α) (xs : List (κ × α)) :
    m ∈ (setItem k v xs).map Prod.fst ↔ m = k ∨ m ∈ xs.map Prod.fst := by
  induction xs with
  | nil => simp [setItem]
  | cons e xs ih =>
    unfold setItem
    split_ifs with h
    · subst h
      simp
    · simp only [map_cons, mem_cons, ih]
      tauto

lemma setItem_nodup (k : κ) (v : α) (xs : List (κ × α)) (h : (xs.map Prod.fst).Nodup) :
    ((setItem k v xs).map Prod.fst).Nodup := by
  induction xs with
  | nil => simp [setItem]
  | cons e xs ih =>
    obtain ⟨hn, hnd⟩ := nodup_cons.mp h
    unfold setItem
    split_ifs with hk
    · subst hk
      exact h
    · refine nodup_cons.mpr ⟨fun hm => ?_, ih hnd⟩
      rcases (mem_setItem k e.1 v xs).mp hm with he | he
      · exact hk he
      · exact hn he

def set (d : Dict κ α) (k : κ) (v : α) : Dict κ α :=
  ⟨setItem k v d.items, setItem_nodup k v d.items d.nodup⟩

/-- `pop(k, None)`. -/
def erase (d : Dict κ α) (k : κ) : Dict κ α :=
  ⟨d.items.filter fun e => e.1 ≠ k, (filter_sublist.map Prod.fst).nodup d.nodup⟩

/-- `dict(pairs)`: later pairs overwrite earlier ones. -/
def update (d : Dict κ α) (pairs : List (κ × α)) : Dict κ α :=
  pairs.foldl (fun d e => d.set e.1 e.2) d

def ofList (pairs : List (κ × α)) : Dict κ α := update empty pairs

def map (f : κ → α → β) (d : Dict κ α) : Dict κ β :=
  ⟨d.items.map fun e => (e.1, f e.1 e.2), by
    rw [map_map]
    exact d.nodup⟩

def filter (p : κ → α → Bool) (d : Dict κ α) : Dict κ α :=
  ⟨d.items.filter fun e => p e.1 e.2, (filter_sublist.map Prod.fst).nodup d.nodup⟩

def sorted {κ : Type u} [LinearOrder κ] (d : Dict κ α) : Dict κ α :=
  ⟨d.items.mergeSort fun a b => decide (a.1 ≤ b.1),
    ((mergeSort_perm _ _).map Prod.fst).nodup_iff.mpr d.nodup⟩

def same [DecidableEq α] (d e : Dict κ α) : Bool :=
  (d.keys ++ e.keys).all fun k => decide (d.get k = e.get k)

@[simp]
lemma find_nil (k : κ) : find ([] : List (κ × α)) k = none := rfl

lemma find_cons (k m : κ) (v : α) (xs : List (κ × α)) :
    find ((m, v) :: xs) k = if k = m then some v else find xs k := by
  unfold find
  by_cases h : k = m
  · simp [h]
  · simp [lookup_cons, h, beq_eq_false_iff_ne.mpr h]

@[simp]
lemma get_empty (k : κ) : (empty : Dict κ α).get k = none := rfl

omit [DecidableEq κ] in
@[simp]
lemma keys_empty : (empty : Dict κ α).keys = [] := rfl

variable {k : κ} {d e : Dict κ α} {pairs : List (κ × α)}
variable {v : α} {xs : List (κ × α)}

lemma find_eq_none : find xs k = none ↔ k ∉ xs.map Prod.fst := by
  induction xs with
  | nil => simp
  | cons e xs ih =>
    obtain ⟨a, b⟩ := e
    rw [find_cons]
    split_ifs with h
    · simp [h]
    · simp [ih, h]

lemma get_eq_none : d.get k = none ↔ k ∉ d.keys := find_eq_none

lemma mem_keys : k ∈ d.keys ↔ ∃ v, d.get k = some v := by
  rw [← not_iff_not, ← get_eq_none]
  cases h : d.get k with
  | none => simp
  | some v => simp

lemma find_setItem (k m : κ) (v : α) (xs : List (κ × α)) :
    find (setItem k v xs) m = if m = k then some v else find xs m := by
  induction xs with
  | nil => simp [setItem, find_cons]
  | cons e xs ih =>
    obtain ⟨a, b⟩ := e
    unfold setItem
    by_cases hk : a = k
    · subst hk
      simp only [if_true, find_cons]
      split_ifs <;> rfl
    · simp only [hk, if_false, find_cons, ih]
      by_cases h : m = a
      · simp [h, hk]
      · simp [h]

@[simp]
lemma get_set (d : Dict κ α) (k m : κ) (v : α) :
    (d.set k v).get m = if m = k then some v else d.get m := find_setItem k m v d.items

@[simp]
lemma mem_keys_set (d : Dict κ α) (k m : κ) (v : α) : m ∈ (d.set k v).keys ↔ m = k ∨ m ∈ d.keys := mem_setItem k m v d.items

lemma find_filter_ne (k m : κ) (xs : List (κ × α)) :
    find (xs.filter fun e => e.1 ≠ k) m = if m = k then none else find xs m := by
  induction xs with
  | nil => simp
  | cons e xs ih =>
    obtain ⟨a, b⟩ := e
    rw [filter_cons]
    by_cases ha : a = k
    · subst ha
      simp only [ne_eq, not_true_eq_false, decide_false, Bool.false_eq_true, if_false]
      rw [ih, find_cons]
      split_ifs <;> rfl
    · simp only [ne_eq, ha, not_false_eq_true, decide_true, if_true, find_cons]
      by_cases hm : m = a
      · simp [hm, ha]
      · simpa [hm] using ih

@[simp]
lemma get_erase (d : Dict κ α) (k m : κ) : (d.erase k).get m = if m = k then none else d.get m := find_filter_ne k m d.items

lemma find_map (f : κ → α → β) (xs : List (κ × α)) (k : κ) :
    find (xs.map fun e => (e.1, f e.1 e.2)) k = (find xs k).map (f k) := by
  induction xs with
  | nil => rfl
  | cons e xs ih =>
    obtain ⟨a, b⟩ := e
    rw [map_cons, find_cons, find_cons, ih]
    split_ifs with h
    · simp [h]
    · rfl

@[simp]
lemma get_map (f : κ → α → β) (d : Dict κ α) (k : κ) : (d.map f).get k = (d.get k).map (f k) := find_map f d.items k

omit [DecidableEq κ] in
@[simp]
lemma keys_map (f : κ → α → β) (d : Dict κ α) : (d.map f).keys = d.keys := by
  unfold keys map
  simp [Function.comp_def]

lemma mem_iff_find (hnd : (xs.map Prod.fst).Nodup) : (k, v) ∈ xs ↔ find xs k = some v := by
  induction xs with
  | nil => simp
  | cons e xs ih =>
    obtain ⟨a, b⟩ := e
    obtain ⟨hn, hnd⟩ := nodup_cons.mp hnd
    rw [find_cons, mem_cons, ih hnd, Prod.mk.injEq]
    by_cases h : k = a
    · subst h
      have hnone : find xs k = none := find_eq_none.mpr hn
      simp [hnone, eq_comm]
    · simp [h]

lemma mem_items : (k, v) ∈ d.items ↔ d.get k = some v :=
  mem_iff_find d.nodup

lemma get_congr (h : ∀ x, x ∈ d.items ↔ x ∈ e.items) (k : κ) :
    d.get k = e.get k := by
  ext v
  rw [← mem_items, ← mem_items, h]

@[simp]
lemma get_sorted [LinearOrder κ] (d : Dict κ α) (k : κ) :
    d.sorted.get k = d.get k :=
  get_congr (fun _ => (mergeSort_perm _ _).mem_iff) k

@[simp]
lemma get_filter (p : κ → α → Bool) (d : Dict κ α) (k : κ) :
    (d.filter p).get k = (d.get k).filter (p k) := by
  ext v
  rw [← mem_items, Option.filter_eq_some_iff, ← mem_items]
  exact mem_filter

lemma update_cons (d : Dict κ α) (e : κ × α) (es : List (κ × α)) : d.update (e :: es) = (d.set e.1 e.2).update es := rfl

lemma get_update (d : Dict κ α) (pairs : List (κ × α)) (k : κ) :
    (k ∉ pairs.map Prod.fst ∧ (d.update pairs).get k = d.get k) ∨ ∃ v, (k, v) ∈ pairs ∧ (d.update pairs).get k = some v := by
  induction pairs generalizing d with
  | nil => exact .inl ⟨by simp, rfl⟩
  | cons e es ih =>
    rw [update_cons]
    rcases ih (d.set e.1 e.2) with ⟨hk, hg⟩ | ⟨v, hv, hg⟩
    · by_cases he : k = e.1
      · refine .inr ⟨e.2, ?_, ?_⟩
        · rw [he]
          exact mem_cons_self
        · rw [hg, get_set, if_pos he]
      · refine .inl ⟨?_, ?_⟩
        · simp only [map_cons, mem_cons, not_or]
          exact ⟨he, hk⟩
        · rw [hg, get_set, if_neg he]
    · exact .inr ⟨v, mem_cons_of_mem _ hv, hg⟩

lemma mem_keys_update (d : Dict κ α) (pairs : List (κ × α)) (k : κ) :
    k ∈ (d.update pairs).keys ↔ k ∈ d.keys ∨ k ∈ pairs.map Prod.fst := by
  induction pairs generalizing d with
  | nil => simp [update]
  | cons e es ih =>
    rw [update_cons, ih, mem_keys_set]
    simp only [map_cons, mem_cons]
    tauto

lemma get_ofList (h : ∀ e ∈ pairs, e.1 = k → e.2 = v)
    (hk : k ∈ pairs.map Prod.fst) : (ofList pairs).get k = some v := by
  rcases get_update (empty : Dict κ α) pairs k with ⟨hn, -⟩ | ⟨w, hw, hg⟩
  · exact absurd hk hn
  · unfold ofList
    rw [hg, ← h _ hw rfl]

lemma get_ofList_none (hk : k ∉ pairs.map Prod.fst) : (ofList pairs).get k = none := by
  rcases get_update (empty : Dict κ α) pairs k with ⟨-, hg⟩ | ⟨w, hw, -⟩
  · exact hg
  · exact absurd (mem_map.mpr ⟨_, hw, rfl⟩) hk

lemma setItem_of_notMem (hk : k ∉ xs.map Prod.fst) :
    setItem k v xs = xs ++ [(k, v)] := by
  induction xs with
  | nil => rfl
  | cons e xs ih =>
    obtain ⟨h1, h2⟩ := not_or.mp fun hm => hk (mem_cons.mpr hm)
    rw [setItem, if_neg fun he => h1 he.symm, ih h2]
    rfl

lemma update_items (hnd : (pairs.map Prod.fst).Nodup)
    (hnew : ∀ k ∈ pairs.map Prod.fst, k ∉ d.keys) : (d.update pairs).items = d.items ++ pairs := by
  induction pairs generalizing d with
  | nil => simp [update]
  | cons e pairs ih =>
    rw [map_cons, nodup_cons] at hnd
    have hset : (d.set e.1 e.2).items = d.items ++ [e] := setItem_of_notMem (hnew e.1 (by simp))
    rw [update_cons, ih hnd.2, hset, append_assoc]
    · rfl
    · intro k hk hmem
      rcases (mem_keys_set d e.1 k e.2).mp hmem with rfl | h
      · exact hnd.1 hk
      · exact hnew k (mem_cons_of_mem _ hk) h

lemma ofList_items (hnd : (pairs.map Prod.fst).Nodup) : (ofList pairs).items = pairs := by
  unfold ofList
  rw [update_items hnd fun k _ => not_mem_nil]
  rfl

end Dict
end CloudServer
