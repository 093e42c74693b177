import CloudServer.Scan

/-! The object watcher: publishers commit changes of one table and notify, the watcher listens,
reads the table once, then follows the notifications, and starts over after an error. -/
namespace CloudServer.Watcher

open List
open Scan (Text)

inductive Lifecycle
  | alive
  | pendingDelete
  | deleted
  | deleting
deriving DecidableEq

def Lifecycle.name : Lifecycle → Text
  | .alive => "ALIVE".toList
  | .pendingDelete => "PENDING_DELETE".toList
  | .deleted => "DELETED".toList
  | .deleting => "DELETING".toList

/-- `ObjectLifecycleV1[name]`. -/
def Lifecycle.ofName (t : Text) : Option Lifecycle :=
  [alive, pendingDelete, deleted, deleting].find? (·.name = t)

structure Uuid where
  text : Text
  noSpace : ' ' ∉ text
deriving DecidableEq

def Uuid.parse (t : Text) : Option Uuid :=
  if h : ' ' ∉ t then some ⟨t, h⟩ else none

structure Object (σ τ : Type) where
  name : Text
  lifecycle : Lifecycle
  spec : σ
  status : τ
deriving DecidableEq

structure Table (σ τ : Type) where
  rows : List (Object σ τ)
  nodup : (rows.map (·.name)).Nodup

section
variable {σ τ : Type}

def find (rows : List (Object σ τ)) (name : Text) : Option (Object σ τ) :=
  rows.find? (·.name = name)

def Table.get (t : Table σ τ) (name : Text) : Option (Object σ τ) := find t.rows name

variable {rows : List (Object σ τ)}

lemma find_eq_none {name : Text} :
    find rows name = none ↔ ∀ o ∈ rows, o.name ≠ name := by
  simp [find]

lemma find_name {name : Text} {o : Object σ τ}
    (h : find rows name = some o) : o ∈ rows ∧ o.name = name := by
  exact ⟨mem_of_find?_eq_some h, by simpa using List.find?_some h⟩

lemma find_append (rows rows' : List (Object σ τ)) (name : Text) :
    find (rows ++ rows') name = (find rows name).or (find rows' name) := List.find?_append

lemma find_of_mem (h : (rows.map (·.name)).Nodup) {o : Object σ τ}
    (ho : o ∈ rows) : find rows o.name = some o := by
  induction rows with
  | nil => cases ho
  | cons r rows ih =>
    simp only [map_cons, nodup_cons] at h
    obtain rfl | ho := mem_cons.mp ho
    · simp [find]
    · have hne : r.name ≠ o.name := fun he => h.1 (he ▸ mem_map_of_mem ho)
      have hrest := ih h.2 ho
      simpa [find, hne] using hrest

def Table.insert (t : Table σ τ) (o : Object σ τ) (h : t.get o.name = none) : Table σ τ where
  rows := o :: t.rows
  nodup := by
    rw [map_cons, nodup_cons]
    refine ⟨fun hm => ?_, t.nodup⟩
    obtain ⟨r, hr, hn⟩ := mem_map.mp hm
    exact find_eq_none.mp h r hr hn

def change (name : Text) (f : Object σ τ → Object σ τ) (o : Object σ τ) : Object σ τ :=
  if o.name = name then { f o with name := o.name } else o

@[simp]
lemma change_name (name : Text) (f : Object σ τ → Object σ τ) (o : Object σ τ) :
    (change name f o).name = o.name := by
  unfold change
  split <;> rfl

def Table.modify (t : Table σ τ) (name : Text) (f : Object σ τ → Object σ τ) : Table σ τ where
  rows := t.rows.map (change name f)
  nodup := by
    have hname : (fun o : Object σ τ => o.name) ∘ change name f = fun o => o.name :=
      funext fun o => change_name name f o
    rw [map_map, hname]
    exact t.nodup

def Table.erase (t : Table σ τ) (name : Text) : Table σ τ where
  rows := t.rows.filter (·.name ≠ name)
  nodup := t.nodup.sublist (filter_sublist.map _)

variable {t : Table σ τ} {name other : Text} {o : Object σ τ}

lemma get_insert (h : t.get o.name = none) :
    (t.insert o h).get name = if o.name = name then some o else t.get name := by
  by_cases hn : o.name = name <;> simp [Table.insert, Table.get, find, hn]

lemma get_modify (f : Object σ τ → Object σ τ) :
    (t.modify name f).get other = (t.get other).map (change name f) := by
  simp only [Table.modify, Table.get, find, List.find?_map]
  congr 1
  refine congrArg (List.find? · t.rows) (funext fun r => ?_)
  simp

lemma get_erase : (t.erase name).get other = if other = name then none else t.get other := by
  by_cases hn : other = name
  · subst hn
    rw [if_pos rfl]
    exact find_eq_none.mpr fun r hr => by simpa using (mem_filter.mp hr).2
  · rw [if_neg hn]
    simp only [Table.erase, Table.get, find, List.find?_filter]
    refine congrArg (List.find? · t.rows) (funext fun r => ?_)
    by_cases hr : r.name = other
    · simp [hr, hn]
    · simp [hr]

/-- What publishers do: `create_object`, `update_spec` and its fields, `update_status` and its
fields, `set_lifecycle`. -/
inductive Change (σ τ : Type)
  | create (o : Object σ τ)
  | spec (name : Text) (f : σ → σ)
  | status (name : Text) (f : τ → τ)
  | lifecycle (name : Text) (lifecycle : Lifecycle)

/-- The committed table, and the name and lifecycle that are notified; `none` when nothing is
committed: the name exists already, or there is no row. -/
def Table.commit (t : Table σ τ) : Change σ τ → Option (Table σ τ × Text × Lifecycle)
  | .create o => if h : t.get o.name = none then some (t.insert o h, o.name, o.lifecycle) else none
  | .spec name f => (t.get name).map fun o =>
      (t.modify name fun o => { o with spec := f o.spec }, name, o.lifecycle)
  | .status name f => (t.get name).map fun o =>
      (t.modify name fun o => { o with status := f o.status }, name, o.lifecycle)
  | .lifecycle name l => (t.get name).map fun _ =>
      if l = .deleted then (t.erase name, name, l)
      else (t.modify name fun o => { o with lifecycle := l }, name, l)

lemma commit_get {t' : Table σ τ} {l : Lifecycle} {c : Change σ τ} (h : t.commit c = some (t', name, l)) :
    (∀ other, other ≠ name → t'.get other = t.get other) ∧ ∀ o, t'.get name = some o → o.lifecycle = l := by
  have hmodify : ∀ (f : Object σ τ → Object σ τ) o, t.get name = some o → (f o).lifecycle = l →
      (∀ other, other ≠ name → (t.modify name f).get other = t.get other) ∧
        ∀ o', (t.modify name f).get name = some o' → o'.lifecycle = l := by
    intro f o ho hl
    refine ⟨fun other hne => ?_, fun o' ho' => ?_⟩
    · rw [get_modify]
      cases hr : t.get other with
      | none => rfl
      | some r =>
        have hname : r.name ≠ name := (find_name hr).2.trans_ne hne
        simp [change, hname]
    · rw [get_modify, ho, Option.map_some, Option.some.injEq] at ho'
      rw [← ho', change, if_pos (find_name ho).2]
      exact hl
  cases c with
  | create o =>
    simp only [Table.commit] at h
    split at h
    · rename_i hnone
      obtain ⟨rfl, rfl, rfl⟩ : t.insert o hnone = t' ∧ o.name = name ∧ o.lifecycle = l := by
        simpa using h
      refine ⟨fun other hne => ?_, fun o' ho' => ?_⟩
      · rw [get_insert, if_neg hne.symm]
      · rw [get_insert, if_pos rfl, Option.some.injEq] at ho'
        rw [ho']
    · cases h
  | spec n f | status n f =>
    obtain ⟨o, ho, he⟩ := Option.map_eq_some_iff.mp h
    obtain ⟨rfl, rfl, rfl⟩ : _ = t' ∧ n = name ∧ o.lifecycle = l := by simpa using he
    exact hmodify _ o ho rfl
  | lifecycle n l' =>
    obtain ⟨o, ho, he⟩ := Option.map_eq_some_iff.mp h
    split at he
    · obtain ⟨rfl, rfl, rfl⟩ : _ = t' ∧ n = name ∧ l' = l := by simpa using he
      refine ⟨fun other hne => ?_, fun o' ho' => ?_⟩
      · rw [get_erase, if_neg hne]
      · rw [get_erase, if_pos rfl] at ho'
        cases ho'
    · obtain ⟨rfl, rfl, rfl⟩ : _ = t' ∧ n = name ∧ l' = l := by simpa using he
      exact hmodify _ o ho rfl

end

/-! ### The payload of a notification -/

/-- `_notify`: "<publisher uuid> <name> <LIFECYCLE>". -/
def message (publisher : Uuid) (name : Text) (lifecycle : Lifecycle) : Text :=
  publisher.text ++ ' ' :: (name ++ ' ' :: lifecycle.name)

/-- `split(" ", 1)`, when there is a space. -/
def splitFirst (t : Text) : Option (Text × Text) :=
  match t.dropWhile (· ≠ ' ') with
  | [] => none
  | _ :: rest => some (t.takeWhile (· ≠ ' '), rest)

/-- `rsplit(" ", 1)`, when there is a space. -/
def splitLast (t : Text) : Option (Text × Text) :=
  (splitFirst t.reverse).map fun p => (p.2.reverse, p.1.reverse)

def readMessage (payload : Text) : Option (Uuid × Text × Text) := do
  let (publisher, rest) ← splitFirst payload
  let (name, lifecycle) ← splitLast rest
  let publisher ← Uuid.parse publisher
  pure (publisher, name, lifecycle)

lemma splitFirst_append {a : Text} (ha : ' ' ∉ a) (b : Text) :
    splitFirst (a ++ ' ' :: b) = some (a, b) := by
  have hall : ∀ c ∈ a, decide (c ≠ ' ') = true := by
    intro c hc
    simpa using ne_of_mem_of_not_mem hc ha
  simp only [splitFirst, dropWhile_append_of_pos hall, takeWhile_append_of_pos hall]
  simp

lemma splitLast_append (a : Text) {b : Text} (hb : ' ' ∉ b) :
    splitLast (a ++ ' ' :: b) = some (a, b) := by
  have hrev : (a ++ ' ' :: b).reverse = b.reverse ++ ' ' :: a.reverse := by simp
  rw [splitLast, hrev, splitFirst_append (by simpa using hb)]
  simp

lemma Lifecycle.noSpace (l : Lifecycle) : ' ' ∉ l.name := by
  cases l <;> decide

lemma Lifecycle.ofName_name (l : Lifecycle) : Lifecycle.ofName l.name = some l := by
  cases l <;> decide

lemma readMessage_message (publisher : Uuid) (name : Text) (l : Lifecycle) :
    readMessage (message publisher name l) = some (publisher, name, l.name) := by
  have hparse : Uuid.parse publisher.text = some publisher := dif_pos publisher.noSpace
  simp [readMessage, message, splitFirst_append publisher.noSpace, splitLast_append _ l.noSpace, hparse]

end CloudServer.Watcher
