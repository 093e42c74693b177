import CloudServer.Dict

/-! Dictionaries kept in the order of use and bounded: the oldest entries leave first. -/
namespace CloudServer.Dict

open List

universe u v

variable {κ : Type u} {α : Type v}

def size (d : Dict κ α) : Nat := d.items.length

/-- `popitem(last=False)` while more than `n` entries are held. -/
def newest (n : Nat) (d : Dict κ α) : Dict κ α :=
  ⟨d.items.drop (d.items.length - n), ((drop_sublist _ _).map Prod.fst).nodup d.nodup⟩

variable {d : Dict κ α} {k : κ}
variable {n : Nat}

lemma newest_of_le (h : d.size ≤ n) : d.newest n = d := by
  have hz : d.items.length - n = 0 := Nat.sub_eq_zero_of_le h
  unfold newest
  simp only [hz, drop_zero]

lemma newest_items_subset (n : Nat) (d : Dict κ α) : (d.newest n).items ⊆ d.items :=
  drop_subset _ _

lemma size_newest (n : Nat) (d : Dict κ α) : (d.newest n).size ≤ n := by
  unfold newest size
  rw [length_drop]
  omega

variable [DecidableEq κ]

lemma not_mem_erase (d : Dict κ α) (k : κ) : k ∉ (d.erase k).keys :=
  get_eq_none.mp (by rw [get_erase, if_pos rfl])

/-- An assignment followed by `move_to_end`. -/
def put (k : κ) (v : α) (d : Dict κ α) : Dict κ α :=
  ⟨(d.erase k).items ++ [(k, v)], by
    rw [map_append, nodup_append]
    refine ⟨(d.erase k).nodup, by simp, ?_⟩
    rintro a ha b hb rfl
    rw [map_singleton, mem_singleton] at hb
    subst hb
    exact d.not_mem_erase _ ha⟩

def Room (n : Nat) (k : κ) (d : Dict κ α) : Prop := k ∈ d.keys ∨ d.size < n

instance (n : Nat) (k : κ) (d : Dict κ α) : Decidable (d.Room n k) :=
  inferInstanceAs (Decidable (_ ∨ _))

lemma get_newest {v : α} (h : (d.newest n).get k = some v) :
    d.get k = some v :=
  mem_items.mp (newest_items_subset n d (mem_items.mpr h))

@[simp]
lemma get_put (d : Dict κ α) (k m : κ) (v : α) :
    (d.put k v).get m = if m = k then some v else d.get m := by
  ext w
  rw [← mem_items]
  simp only [put, mem_append, mem_items, get_erase, mem_singleton, Prod.mk.injEq]
  by_cases h : m = k
  · simp [h, eq_comm]
  · simp [h]

lemma keys_put_perm {v w : α} (h : d.get k = some w) : (d.put k v).keys.Perm d.keys := by
  refine (perm_ext_iff_of_nodup (d.put k v).nodup d.nodup).mpr fun m => ?_
  change m ∈ (d.put k v).keys ↔ m ∈ d.keys
  rw [mem_keys, mem_keys, get_put]
  split_ifs with hm
  · subst hm
    simp [h]
  · rfl

lemma setItem_setItem (k : κ) (v w : α) (xs : List (κ × α)) :
    setItem k v (setItem k w xs) = setItem k v xs := by
  induction xs with
  | nil => simp [setItem]
  | cons e xs ih =>
    by_cases h : e.1 = k
    · simp [setItem, h]
    · simp [setItem, h, ih]

lemma set_set (d : Dict κ α) (k : κ) (v w : α) : (d.set k w).set k v = d.set k v := by
  unfold set
  simp only [setItem_setItem]

lemma size_setItem (k : κ) (v : α) (xs : List (κ × α)) :
    (setItem k v xs).length = if k ∈ xs.map Prod.fst then xs.length else xs.length + 1 := by
  induction xs with
  | nil => simp [setItem]
  | cons e xs ih =>
    unfold setItem
    by_cases h : e.1 = k
    · simp [h]
    · simp only [h, if_false, length_cons, ih, map_cons, mem_cons, Ne.symm h, false_or]
      split_ifs <;> rfl

lemma size_set_le (v : α) (h : d.Room n k) (hn : d.size ≤ n) : (d.set k v).size ≤ n := by
  unfold size set
  rw [size_setItem]
  split_ifs with hk
  · exact hn
  · rcases h with h | h
    · exact absurd h hk
    · exact h

lemma size_erase_le (d : Dict κ α) (k : κ) : (d.erase k).size ≤ d.size := length_filter_le _ _

lemma size_erase_lt (h : k ∈ d.keys) : (d.erase k).size < d.size := by
  obtain ⟨e, he, rfl⟩ := mem_map.mp h
  exact length_filter_lt_length_iff_exists.mpr ⟨e, he, by simp⟩

lemma size_put_le (v : α) (h : d.Room n k) (hn : d.size ≤ n) : (d.put k v).size ≤ n := by
  have hs : (d.put k v).size = (d.erase k).size + 1 := by simp [put, size]
  rw [hs]
  rcases h with h | h
  · have := size_erase_lt h
    omega
  · have := size_erase_le d k
    omega

lemma newest_set (v : α) (h : d.Room n k) (hn : d.size ≤ n) :
    (d.set k v).newest n = d.set k v := newest_of_le (size_set_le v h hn)

lemma newest_put (v : α) (h : d.Room n k) (hn : d.size ≤ n) :
    (d.put k v).newest n = d.put k v := newest_of_le (size_put_le v h hn)

end CloudServer.Dict
