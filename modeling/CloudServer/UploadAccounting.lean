import CloudServer.Dict

/-! The upload buffer's own accounts: bytes and entries are counted as uploads come, are overwritten, taken,
dropped with their robot and time out. -/
namespace CloudServer.UploadAccounting

open List Option Dict

section Totals
variable {κ α : Type} [DecidableEq κ] (f : α → ℤ)

def total (d : Dict κ α) : ℤ := (d.items.map fun e => f e.2).sum

lemma sum_setItem (k : κ) (v : α) (xs : List (κ × α)) :
    ((Dict.setItem k v xs).map fun e => f e.2).sum =
      (xs.map fun e => f e.2).sum - (Dict.find xs k).elim 0 f + f v := by
  induction xs with
  | nil => simp [Dict.setItem]
  | cons e xs ih =>
    rw [Dict.setItem, find_cons]
    by_cases h : e.1 = k
    · rw [if_pos h, if_pos h.symm]
      simp only [map_cons, sum_cons, elim_some]
      ring
    · rw [if_neg h, if_neg fun he => h he.symm]
      simp only [map_cons, sum_cons, ih]
      ring

lemma total_set (d : Dict κ α) (k : κ) (v : α) :
    total f (d.set k v) = total f d - (d.get k).elim 0 f + f v :=
  sum_setItem f k v d.items

lemma sum_erase {xs : List (κ × α)} (hnd : (xs.map Prod.fst).Nodup) (k : κ) :
    ((xs.filter fun e => e.1 ≠ k).map fun e => f e.2).sum =
      (xs.map fun e => f e.2).sum - (Dict.find xs k).elim 0 f := by
  induction xs with
  | nil => simp
  | cons e xs ih =>
    rw [map_cons, nodup_cons] at hnd
    have ih := ih hnd.2
    rw [find_cons]
    by_cases h : e.1 = k
    · subst h
      rw [filter_cons_of_neg (by simp), ih, find_eq_none.mpr hnd.1, if_pos rfl]
      simp
    · rw [filter_cons_of_pos (by simpa using h), if_neg fun he => h he.symm]
      simp only [map_cons, sum_cons, ih]
      ring

lemma total_erase (d : Dict κ α) (k : κ) : total f (d.erase k) = total f d - (d.get k).elim 0 f :=
  sum_erase f d.nodup k

omit [DecidableEq κ] in
lemma total_nonneg (hf : ∀ v, 0 ≤ f v) (d : Dict κ α) : 0 ≤ total f d :=
  sum_nonneg (by
    intro x hx
    obtain ⟨e, -, rfl⟩ := mem_map.mp hx
    exact hf e.2)

omit [DecidableEq κ] in
lemma total_filter (p : κ → α → Bool) (d : Dict κ α) :
    total f (d.filter p) + total f (d.filter fun k v => !p k v) = total f d := by
  change ((d.items.filter fun e => p e.1 e.2).map fun e => f e.2).sum +
    ((d.items.filter fun e => !p e.1 e.2).map fun e => f e.2).sum = (d.items.map fun e => f e.2).sum
  induction d.items with
  | nil => rfl
  | cons e xs ih =>
    cases h : p e.1 e.2 <;> simp only [filter_cons, h, map_cons, sum_cons, Bool.not_true,
      Bool.not_false, if_true, Bool.false_eq_true, if_false] <;> linarith

end Totals

section Model
variable {α ν : Type} [DecidableEq ν]

/-- What the buffer reads of an entry: the length of its `data` and the session and run it carries. -/
structure Fields (α : Type) where
  size : α → ℕ
  session_id : α → Option String
  run_id : α → Option String

abbrev NodeKey (ν : Type) := String × ν

/-- The entries of a node by camera or layer, with the times they were buffered at. -/
abbrev Subs (α : Type) := Dict String (α × ℚ)

/-- `none` is unbounded. -/
structure Caps where
  max_bytes : Option ℕ
  max_entries : Option ℕ

structure NodeUploadBuffer (α ν : Type) where
  entries : Dict (NodeKey ν) (Subs α)
  bytes : ℤ
  stat : ℤ
  overflowed : ℕ

def NodeUploadBuffer.empty : NodeUploadBuffer α ν := ⟨.empty, 0, 0, 0⟩

variable (A : Fields α) (caps : Caps) (b : NodeUploadBuffer α ν)

def bytes_of (subs : Subs α) : ℤ := total (fun x => (A.size x.1 : ℤ)) subs

def count : ℤ := total (fun subs : Subs α => (subs.items.length : ℤ)) b.entries

def put (key : NodeKey ν) (sub : String) (entry : α) (now : ℚ) : Bool × NodeUploadBuffer α ν :=
  let subs := (b.entries.get key).getD .empty
  let old := subs.get sub
  let freed : ℤ := old.elim 0 fun x => (A.size x.1 : ℤ)
  let new_entries : ℤ := if old.isSome then 0 else 1
  if (caps.max_bytes.any fun (m : ℕ) => b.bytes - freed + A.size entry > (m : ℤ)) ∨
      (caps.max_entries.any fun (m : ℕ) => count b + new_entries > (m : ℤ)) then
    (false, { b with overflowed := b.overflowed + 1 })
  else
    (true, { b with
      entries := b.entries.set key (subs.set sub (entry, now))
      stat := b.stat + new_entries
      bytes := b.bytes + (A.size entry - freed) })

inductive Placed (β : Type)
  | found (target : β)
  | buffered
  | dropped

def put_unless {β : Type} (key : NodeKey ν) (sub : String) (entry : α) (now : ℚ) (target : Option β) :
    Placed β × NodeUploadBuffer α ν :=
  match target with
  | some found => (.found found, b)
  | none =>
    let r := put A caps b key sub entry now
    (if r.1 then .buffered else .dropped, r.2)

/-- Young enough, of the session, and not of another run: an entry without a run is of every run. -/
def Wanted (timeout : ℚ) (session_id run_id : Option String) (now : ℚ) (x : α × ℚ) : Prop :=
  now - x.2 ≤ timeout ∧ (∀ s ∈ session_id, A.session_id x.1 = some s) ∧
    ∀ r ∈ run_id, ∀ r' ∈ A.run_id x.1, r' = r

instance (timeout : ℚ) (session_id run_id : Option String) (now : ℚ) (x : α × ℚ) :
    Decidable (Wanted A timeout session_id run_id now x) := inferInstanceAs (Decidable (_ ∧ _ ∧ _))

def take (key : NodeKey ν) (timeout : ℚ) (session_id run_id : Option String) (now : ℚ) :
    List α × NodeUploadBuffer α ν :=
  let subs := (b.entries.get key).getD .empty
  let b := { b with entries := b.entries.erase key }
  if subs.items = [] then ([], b)
  else
    (((subs.items.map Prod.snd).filter fun x =>
        if now - x.2 > timeout then false
        else if session_id.any fun s => A.session_id x.1 ≠ some s then false
        else !(run_id.any fun r => (A.run_id x.1).any fun r' => r' ≠ r)).map Prod.fst,
      { b with stat := b.stat - subs.items.length, bytes := b.bytes - bytes_of A subs })

def pop (key : NodeKey ν) : ℕ × NodeUploadBuffer α ν :=
  let subs := (b.entries.get key).getD .empty
  (subs.items.length, { b with
    entries := b.entries.erase key
    stat := b.stat - subs.items.length
    bytes := b.bytes - bytes_of A subs })

/-- One node's entries that are not kept are discarded, and the node with the last of them: how many, and
whether the node went. -/
def discard (keep : α × ℚ → Bool) (key : NodeKey ν) : (ℕ × Bool) × NodeUploadBuffer α ν :=
  match b.entries.get key with
  | none => ((0, false), b)
  | some subs =>
    let kept := subs.filter fun _ x => keep x
    let gone := subs.filter fun _ x => !keep x
    ((gone.items.length, kept.items.isEmpty), { b with
      entries := if kept.items = [] then b.entries.erase key else b.entries.set key kept
      bytes := b.bytes - bytes_of A gone })

def clear_robot (robot_name : String) (keep : Option (α → Bool)) : ℕ × NodeUploadBuffer α ν :=
  (b.entries.keys.filter fun k => k.1 = robot_name).foldl (fun acc key =>
    let r := discard A acc.2 (fun x => keep.any fun keep => keep x.1) key
    (acc.1 + if r.1.2 then 1 else 0, { r.2 with stat := r.2.stat - r.1.1 })) (0, b)

def cleanup (max_age now : ℚ) : ℕ × NodeUploadBuffer α ν :=
  let r := b.entries.keys.foldl (fun (acc : ℕ × NodeUploadBuffer α ν) key =>
    let r := discard A acc.2 (fun x => !decide (now - x.2 > max_age)) key
    (acc.1 + r.1.1, r.2)) (0, b)
  (r.1, { r.2 with stat := r.2.stat - r.1 })

/-- The operations on the buffer. -/
inductive Op (α ν : Type)
  | put (key : NodeKey ν) (sub : String) (entry : α) (now : ℚ)
  /-- whether `target()` found the node -/
  | put_unless (key : NodeKey ν) (sub : String) (entry : α) (now : ℚ) (target : Option Unit)
  | take (key : NodeKey ν) (timeout : ℚ) (session_id run_id : Option String) (now : ℚ)
  | pop (key : NodeKey ν)
  | clear_robot (robot_name : String) (keep : Option (α → Bool))
  | cleanup (max_age now : ℚ)

def step : Op α ν → NodeUploadBuffer α ν
  | .put key sub entry now => (put A caps b key sub entry now).2
  | .put_unless key sub entry now target => (put_unless A caps b key sub entry now target).2
  | .take key timeout session_id run_id now => (take A b key timeout session_id run_id now).2
  | .pop key => (pop A b key).2
  | .clear_robot robot_name keep => (clear_robot A b robot_name keep).2
  | .cleanup max_age now => (cleanup A b max_age now).2

def run (ops : List (Op α ν)) : NodeUploadBuffer α ν := ops.foldl (step A caps) .empty

end Model

section Accounts
variable {α ν : Type} [DecidableEq ν] {A : Fields α} {caps : Caps} {b : NodeUploadBuffer α ν} {x : ℤ}

def held_bytes (A : Fields α) (b : NodeUploadBuffer α ν) : ℤ := total (bytes_of A) b.entries

/-- The accounts of a buffer; in the middle of a cleanup the counter still has the `x` entries removed so far. -/
structure Accounted (A : Fields α) (caps : Caps) (b : NodeUploadBuffer α ν) (x : ℤ) : Prop where
  bytes : b.bytes = held_bytes A b
  stat : b.stat = count b + x
  max_bytes : ∀ m ∈ caps.max_bytes, held_bytes A b ≤ m
  max_entries : ∀ m ∈ caps.max_entries, count b ≤ m
  nonempty : ∀ key subs, b.entries.get key = some subs → subs.items ≠ []

lemma bytes_of_nonneg (A : Fields α) (subs : Subs α) : 0 ≤ bytes_of A subs :=
  total_nonneg (fun x : α × ℚ => (A.size x.1 : ℤ)) (fun x => Int.natCast_nonneg (A.size x.1)) subs

lemma length_eq_total (subs : Subs α) : (subs.items.length : ℤ) = total (fun _ => 1) subs := by
  simp [total]

lemma Accounted.empty (A : Fields α) (caps : Caps) :
    Accounted A caps (NodeUploadBuffer.empty : NodeUploadBuffer α ν) 0 where
  bytes := rfl
  stat := rfl
  max_bytes := fun m _ => Int.natCast_nonneg m
  max_entries := fun m _ => Int.natCast_nonneg m
  nonempty := fun _ _ h => nomatch h

lemma held_bytes_set (key : NodeKey ν) (subs : Subs α) (m n : ℤ) (o : ℕ) :
    held_bytes A ⟨b.entries.set key subs, m, n, o⟩ =
      held_bytes A b - bytes_of A ((b.entries.get key).getD .empty) + bytes_of A subs := by
  unfold held_bytes
  dsimp only
  rw [total_set]
  cases b.entries.get key <;> rfl

lemma count_set (key : NodeKey ν) (subs : Subs α) (m n : ℤ) (o : ℕ) :
    count ⟨b.entries.set key subs, m, n, o⟩ =
      count b - ((b.entries.get key).getD .empty).items.length + subs.items.length := by
  unfold count
  dsimp only
  rw [total_set]
  cases b.entries.get key <;> rfl

lemma held_bytes_erase (key : NodeKey ν) (m n : ℤ) (o : ℕ) :
    held_bytes A ⟨b.entries.erase key, m, n, o⟩ =
      held_bytes A b - bytes_of A ((b.entries.get key).getD .empty) := by
  unfold held_bytes
  dsimp only
  rw [total_erase]
  cases b.entries.get key <;> rfl

lemma count_erase (key : NodeKey ν) (m n : ℤ) (o : ℕ) :
    count ⟨b.entries.erase key, m, n, o⟩ = count b - ((b.entries.get key).getD .empty).items.length := by
  unfold count
  dsimp only
  rw [total_erase]
  cases b.entries.get key <;> rfl

lemma bytes_of_set (subs : Subs α) (sub : String) (entry : α) (now : ℚ) :
    bytes_of A (subs.set sub (entry, now)) =
      bytes_of A subs - (subs.get sub).elim 0 (fun x => (A.size x.1 : ℤ)) + A.size entry :=
      total_set _ subs sub _

lemma length_set (subs : Subs α) (sub : String) (x : α × ℚ) :
    ((subs.set sub x).items.length : ℤ) = subs.items.length + if (subs.get sub).isSome then 0 else 1 := by
  rw [length_eq_total, total_set, ← length_eq_total]
  cases subs.get sub <;> simp

lemma set_ne_nil (subs : Subs α) (sub : String) (x : α × ℚ) : (subs.set sub x).items ≠ [] := by
  intro h
  have := mem_items.mpr (get_set subs sub sub x |>.trans (if_pos rfl))
  rw [h] at this
  cases this

lemma Accounted.put (h : Accounted A caps b x) (key : NodeKey ν) (sub : String) (entry : α) (now : ℚ)
    : Accounted A caps (put A caps b key sub entry now).2 x := by
  have hbytes := @held_bytes_set _ _ _ A b key (((b.entries.get key).getD .empty).set sub (entry, now))
  have hcount := @count_set _ _ _ b key (((b.entries.get key).getD .empty).set sub (entry, now))
  rw [bytes_of_set] at hbytes
  rw [length_set] at hcount
  unfold UploadAccounting.put
  dsimp only
  generalize (if (((b.entries.get key).getD .empty).get sub).isSome then (0 : ℤ) else 1) = added at hcount ⊢
  split_ifs with hfull
  · exact { h with }
  · obtain ⟨hb, he⟩ := not_or.mp hfull
    refine ⟨?_, ?_, fun m hm => ?_, fun m hm => ?_, fun k subs hk => ?_⟩
    · rw [hbytes, h.bytes]
      ring
    · rw [hcount, h.stat]
      ring
    · rw [hbytes, ← h.bytes]
      simp only [Option.any_eq_true, not_exists, not_and, decide_eq_true_eq] at hb
      have := hb m hm
      linarith
    · rw [hcount]
      simp only [Option.any_eq_true, not_exists, not_and, decide_eq_true_eq] at he
      have := he m hm
      linarith
    · dsimp only at hk
      rw [get_set] at hk
      split_ifs at hk with hkey
      · cases hk
        exact set_ne_nil _ sub _
      · exact h.nonempty k subs hk

lemma Accounted.put_unless {β : Type} (h : Accounted A caps b x) (key : NodeKey ν) (sub : String)
    (entry : α) (now : ℚ) (target : Option β) :
    Accounted A caps (put_unless A caps b key sub entry now target).2 x := by
  cases target with
  | some found => exact h
  | none => exact h.put key sub entry now

lemma Accounted.fewer (h : Accounted A caps b x) {b' : NodeUploadBuffer α ν} {y : ℤ}
    (hbytes : b'.bytes = held_bytes A b') (hstat : b'.stat = count b' + y)
    (hb : held_bytes A b' ≤ held_bytes A b)
    (hc : count b' ≤ count b) (hne : ∀ key subs, b'.entries.get key = some subs → subs.items ≠ []) :
    Accounted A caps b' y :=
  ⟨hbytes, hstat, fun m hm => hb.trans (h.max_bytes m hm), fun m hm => hc.trans (h.max_entries m hm), hne⟩

lemma get_erase_ne (h : Accounted A caps b x) (key : NodeKey ν) (k : NodeKey ν) (subs : Subs α)
    (hk : (b.entries.erase key).get k = some subs) : subs.items ≠ [] := by
  rw [get_erase] at hk
  split_ifs at hk
  exact h.nonempty k subs hk

lemma Accounted.remove (h : Accounted A caps b x) (key : NodeKey ν) :
    Accounted A caps ⟨b.entries.erase key, b.bytes - bytes_of A ((b.entries.get key).getD .empty),
      b.stat - ((b.entries.get key).getD .empty).items.length, b.overflowed⟩ x := by
  have hb := bytes_of_nonneg A ((b.entries.get key).getD .empty)
  refine h.fewer ?_ ?_ ?_ ?_ (get_erase_ne h key)
  · rw [held_bytes_erase, h.bytes]
  · rw [count_erase, h.stat]
    ring
  · rw [held_bytes_erase]
    linarith
  · rw [count_erase]
    have := Int.natCast_nonneg ((b.entries.get key).getD .empty).items.length
    linarith

lemma take_buffer (key : NodeKey ν) (timeout : ℚ) (session_id run_id : Option String) (now : ℚ) :
    (take A b key timeout session_id run_id now).2 =
      ⟨b.entries.erase key, b.bytes - bytes_of A ((b.entries.get key).getD .empty),
        b.stat - ((b.entries.get key).getD .empty).items.length, b.overflowed⟩ := by
  unfold take
  dsimp only
  split_ifs with hnil
  · have hzero : bytes_of A ((b.entries.get key).getD .empty) = 0 := by
      simp [bytes_of, total, hnil]
    rw [hzero, hnil]
    simp
  · rfl

lemma take_spec (key : NodeKey ν) (timeout : ℚ) (session_id run_id : Option String) (now : ℚ) :
    (take A b key timeout session_id run_id now).1 =
      ((((b.entries.get key).getD .empty).items.map Prod.snd).filter
        fun x => Wanted A timeout session_id run_id now x).map Prod.fst ∧
      (take A b key timeout session_id run_id now).2.entries.get key = none ∧
      ∀ k, k ≠ key → (take A b key timeout session_id run_id now).2.entries.get k = b.entries.get k := by
  refine ⟨?_, ?_, fun k hk => ?_⟩
  · unfold take
    dsimp only
    split_ifs with hnil
    · rw [hnil]
      rfl
    · refine congrArg (List.map Prod.fst) (filter_congr fun x _ => ?_)
      rw [Bool.eq_iff_iff, decide_eq_true_iff]
      unfold Wanted
      rw [← not_lt (a := timeout)]
      split_ifs with hage hsession
      · simp [hage]
      · obtain ⟨s, hs, hne⟩ := (any_eq_true _ _).mp hsession
        simp only [decide_eq_true_eq] at hne
        simp only [false_iff, not_and]
        exact fun _ h => absurd (h s hs) hne
      · have hok : ∀ s ∈ session_id, A.session_id x.1 = some s := by
          intro s hs
          by_contra hne
          exact hsession ((any_eq_true _ _).mpr ⟨s, hs, by simpa using hne⟩)
        rw [eq_true hok, true_and]
        cases run_id with
        | none => simp [hage]
        | some r => cases A.run_id x.1 <;> simp [hage]
  · rw [take_buffer]
    exact (get_erase _ _ _).trans (if_pos rfl)
  · rw [take_buffer]
    exact (get_erase _ _ _).trans (if_neg hk)

lemma Accounted.pop (h : Accounted A caps b x) (key : NodeKey ν) : Accounted A caps (pop A b key).2 x :=
  h.remove key

lemma Accounted.take (h : Accounted A caps b x) (key : NodeKey ν) (timeout : ℚ)
    (session_id run_id : Option String)
    (now : ℚ) : Accounted A caps (take A b key timeout session_id run_id now).2 x := by
  rw [take_buffer]
  exact h.remove key

lemma Accounted.discard (h : Accounted A caps b x) (keep : α × ℚ → Bool) (key : NodeKey ν) :
    Accounted A caps (discard A b keep key).2 (x + (discard A b keep key).1.1) := by
  unfold UploadAccounting.discard
  cases hg : b.entries.get key with
  | none => simpa using h
  | some subs =>
    have hbytes : bytes_of A (subs.filter fun _ v => keep v) + bytes_of A (subs.filter fun _ v => !keep v) =
        bytes_of A subs := total_filter _ _ subs
    have hlen : ((subs.filter fun _ v => keep v).items.length : ℤ) +
        (subs.filter fun _ v => !keep v).items.length =
        subs.items.length := by
      rw [length_eq_total, length_eq_total, length_eq_total]
      exact total_filter _ _ subs
    have hgone := bytes_of_nonneg A (subs.filter fun _ v => !keep v)
    have hgone' := Int.natCast_nonneg (subs.filter fun _ v => !keep v).items.length
    dsimp only
    split_ifs with hnil
    · have hzero : bytes_of A (subs.filter fun _ v => keep v) = 0 := by
        simp [bytes_of, total, hnil]
      rw [hnil, length_nil] at hlen
      refine h.fewer ?_ ?_ ?_ ?_ (get_erase_ne h key)
      · rw [held_bytes_erase, h.bytes, hg, getD_some]
        linarith
      · rw [count_erase, h.stat, hg, getD_some]
        push_cast at hlen
        linarith
      · rw [held_bytes_erase, hg, getD_some]
        linarith
      · rw [count_erase, hg, getD_some]
        push_cast at hlen
        linarith
    · refine h.fewer ?_ ?_ ?_ ?_ fun k subs' hk => ?_
      · rw [held_bytes_set, h.bytes, hg, getD_some]
        linarith
      · rw [count_set, h.stat, hg, getD_some]
        linarith
      · rw [held_bytes_set, hg, getD_some]
        linarith
      · rw [count_set, hg, getD_some]
        linarith
      · rw [get_set] at hk
        split_ifs at hk with hkey
        · cases hk
          exact hnil
        · exact h.nonempty k subs' hk

lemma Accounted.settle (h : Accounted A caps b x) (n : ℤ) :
    Accounted A caps { b with stat := b.stat - n } (x - n) :=
  ⟨h.bytes, by
    rw [h.stat]
    change _ = count b + _
    ring, h.max_bytes, h.max_entries, h.nonempty⟩

lemma Accounted.clear_robot (h : Accounted A caps b 0) (robot_name : String) (keep : Option (α → Bool)) :
    Accounted A caps (clear_robot A b robot_name keep).2 0 := by
  have hfold : ∀ (keys : List (NodeKey ν)) (n : ℕ) (b : NodeUploadBuffer α ν), Accounted A caps b 0 →
      Accounted A caps (keys.foldl (fun acc key =>
        let r := UploadAccounting.discard A acc.2 (fun x => keep.any fun keep => keep x.1) key
        (acc.1 + if r.1.2 then 1 else 0, { r.2 with stat := r.2.stat - r.1.1 })) (n, b)).2 0 := by
    intro keys
    induction keys with
    | nil => exact fun n b h => h
    | cons key keys ih =>
      intro n b h
      refine ih _ _ ?_
      have hd := (h.discard (fun x => keep.any fun keep => keep x.1) key).settle
        (UploadAccounting.discard A b (fun x => keep.any fun keep => keep x.1) key).1.1
      rwa [zero_add, sub_self] at hd
  exact hfold _ 0 b h

lemma Accounted.cleanup (h : Accounted A caps b 0) (max_age now : ℚ) :
    Accounted A caps (cleanup A b max_age now).2 0 := by
  have hfold : ∀ (keys : List (NodeKey ν)) (n : ℕ) (b : NodeUploadBuffer α ν), Accounted A caps b n →
      let r := keys.foldl (fun (acc : ℕ × NodeUploadBuffer α ν) key =>
        let r := UploadAccounting.discard A acc.2 (fun x => !decide (now - x.2 > max_age)) key
        (acc.1 + r.1.1, r.2)) (n, b)
      Accounted A caps r.2 r.1 := by
    intro keys
    induction keys with
    | nil => exact fun n b h => h
    | cons key keys ih =>
      intro n b h
      refine ih _ _ ?_
      rw [Nat.cast_add]
      exact h.discard _ key
  have hr := (hfold b.entries.keys 0 b h).settle
    (b.entries.keys.foldl (fun (acc : ℕ × NodeUploadBuffer α ν) key =>
        let r := UploadAccounting.discard A acc.2 (fun x => !decide (now - x.2 > max_age)) key
        (acc.1 + r.1.1, r.2)) (0, b)).1
  rwa [sub_self] at hr

lemma Accounted.step (h : Accounted A caps b 0) (op : Op α ν) : Accounted A caps (step A caps b op) 0 := by
  cases op with
  | put key sub entry now => exact h.put key sub entry now
  | put_unless key sub entry now target => exact h.put_unless key sub entry now target
  | take key timeout session_id run_id now => exact h.take key timeout session_id run_id now
  | pop key => exact h.pop key
  | clear_robot robot_name keep => exact h.clear_robot robot_name keep
  | cleanup max_age now => exact h.cleanup max_age now

lemma run_accounted (A : Fields α) (caps : Caps) (ops : List (Op α ν)) :
    Accounted A caps (run A caps ops) 0 := by
  induction ops using List.reverseRecOn with
  | nil => exact .empty A caps
  | append_singleton ops op ih =>
    unfold run
    rw [foldl_concat]
    exact ih.step op

/-- After any operations on an empty buffer its bytes and its counter are those of the entries it holds, within
the caps, and no key is there without an entry; and `take` returns what is wanted of its key, leaves nothing
of it and does not touch the other keys. -/
theorem accounting (A : Fields α) (caps : Caps) (ops : List (Op α ν)) :
    (run A caps ops).bytes = ((run A caps ops).entries.items.map fun e =>
        (e.2.items.map fun x => (A.size x.2.1 : ℤ)).sum).sum ∧
    (run A caps ops).stat = ((run A caps ops).entries.items.map fun e => (e.2.items.length : ℤ)).sum ∧
    (∀ m ∈ caps.max_bytes, (run A caps ops).bytes ≤ m) ∧
      (∀ m ∈ caps.max_entries, (run A caps ops).stat ≤ m) ∧
    (∀ key subs, (run A caps ops).entries.get key = some subs → subs.items ≠ []) ∧
    ∀ key timeout session_id run_id now,
      (take A (run A caps ops) key timeout session_id run_id now).1 =
        (((((run A caps ops).entries.get key).getD .empty).items.map Prod.snd).filter
          fun x => Wanted A timeout session_id run_id now x).map Prod.fst ∧
      (take A (run A caps ops) key timeout session_id run_id now).2.entries.get key = none ∧
      ∀ k, k ≠ key → (take A (run A caps ops) key timeout session_id run_id now).2.entries.get k =
        (run A caps ops).entries.get k := by
  have h := run_accounted A caps ops
  have hstat : (run A caps ops).stat = count (run A caps ops) := by
    rw [h.stat, add_zero]
  exact ⟨h.bytes, hstat, fun m hm => h.bytes ▸ h.max_bytes m hm,
    fun m hm => hstat ▸ h.max_entries m hm, h.nonempty,
    fun key timeout session_id run_id now => take_spec key timeout session_id run_id now⟩

end Accounts

end CloudServer.UploadAccounting
