import CloudServer.Acks

/-! Uploads that wait for their node: per node key and camera or layer, bounded in bytes and
entries, taken when the node is processed. -/
namespace CloudServer.UploadBuffer

open Dict
open Acks (Kind Part Sid Run)
open Scan (Text)

structure NodeKey where
  robot : Text
  sid : Sid
  deriving DecidableEq, Repr

/-- One image, depth image or costmap layer of a robot's node, with the cloud session it was
resolved to. `ns` is the target session of an import. -/
structure Upload where
  kind : Kind
  sub : Text
  robot : Text
  sid : Sid
  run : Run
  session : Text
  ns : Option Text
  data : Text
  deriving DecidableEq, Repr

def Upload.node (u : Upload) : NodeKey := ⟨u.robot, u.sid⟩

def Upload.part (u : Upload) : Part := ⟨u.kind, u.sub⟩

def size (u : Upload) : Int := u.data.length

abbrev Subs := Dict Text (Upload × Int)

/-- `none` caps are unbounded. -/
structure Caps where
  maxBytes : Option Int
  maxEntries : Option Nat

/-- `stat` is the counter of buffered entries that the statistics show. -/
structure Buffer where
  entries : Dict NodeKey Subs
  bytes : Int
  stat : Int
  overflowed : Nat

def Buffer.empty : Buffer := ⟨.empty, 0, 0, 0⟩

def bytesOf (subs : Subs) : Int := (subs.items.map fun x => size x.2.1).sum

def count (b : Buffer) : Nat := (b.entries.items.map fun x => x.2.size).sum

/-- Buffers an upload over the earlier one of its camera or layer; false when it does not fit. -/
def put (caps : Caps) (b : Buffer) (key : NodeKey) (sub : Text) (u : Upload) (now : Int) :
    Bool × Buffer :=
  let subs := (b.entries.get key).getD .empty
  let old := subs.get sub
  let freed := (old.map fun x => size x.1).getD 0
  let added := if old.isSome then 0 else 1
  if (caps.maxBytes.any fun m => b.bytes - freed + size u > m) ||
      (caps.maxEntries.any fun m => count b + added > m) then
    (false, { b with overflowed := b.overflowed + 1 })
  else
    (true, { b with entries := b.entries.set key (subs.set sub (u, now)),
                    bytes := b.bytes + (size u - freed), stat := b.stat + added })

inductive Placed (α : Type)
  | found (a : α)
  | buffered
  | dropped
  deriving DecidableEq, Repr

def putUnless {α : Type} (caps : Caps) (b : Buffer) (key : NodeKey) (sub : Text) (u : Upload)
    (now : Int) (target : Option α) : Placed α × Buffer :=
  match target with
  | some a => (.found a, b)
  | none => match put caps b key sub u now with
    | (true, b) => (.buffered, b)
    | (false, b) => (.dropped, b)

def taken (timeout : Int) (session : Option Text) (run : Run) (now : Int) (x : Upload × Int) :
    Bool :=
  !decide (now - x.2 > timeout) && !(session.any fun s => x.1.session ≠ s) &&
    !(run.any fun r => x.1.run.any fun r' => r' ≠ r)

def take (b : Buffer) (key : NodeKey) (timeout : Int) (session : Option Text) (run : Run)
    (now : Int) : List Upload × Buffer :=
  match b.entries.get key with
  | none => ([], b)
  | some subs =>
    if subs.items.isEmpty then ([], { b with entries := b.entries.erase key })
    else (((subs.items.map Prod.snd).filter (taken timeout session run now)).map Prod.fst,
      { b with entries := b.entries.erase key, bytes := b.bytes - bytesOf subs,
               stat := b.stat - subs.size })

def pop (b : Buffer) (key : NodeKey) : List Upload × Buffer :=
  let subs := (b.entries.get key).getD .empty
  (subs.items.map fun x => x.2.1,
    { b with entries := b.entries.erase key, bytes := b.bytes - bytesOf subs,
             stat := b.stat - subs.size })

/-- Discards the entries of a node that are not kept; the key stays only when some entry does. -/
def retain (keep : Upload × Int → Bool) (b : Buffer) (key : NodeKey) : Buffer :=
  match b.entries.get key with
  | none => b
  | some subs =>
    let kept := subs.filter fun _ x => keep x
    let gone := subs.filter fun _ x => !keep x
    { b with entries := if kept.items.isEmpty then b.entries.erase key else b.entries.set key kept,
             bytes := b.bytes - bytesOf gone, stat := b.stat - gone.size }

/-- The robot's topomap run restarted: `keep` holds for the uploads of the new one. -/
def clearRobot (b : Buffer) (robot : Text) (keep : Upload → Bool) : Buffer :=
  (b.entries.keys.filter fun k => k.robot = robot).foldl (retain fun x => keep x.1) b

def cleanup (b : Buffer) (maxAge now : Int) : Buffer :=
  b.entries.keys.foldl (retain fun x => !decide (now - x.2 > maxAge)) b

def Buffer.held (b : Buffer) (key : NodeKey) : List Upload :=
  ((b.entries.get key).getD .empty).items.map fun x => x.2.1

section Held
variable {b : Buffer} {key k : NodeKey} {u v : Upload}

lemma mem_held : u ∈ b.held k ↔
    ∃ subs sub t, b.entries.get k = some subs ∧ subs.get sub = some (u, t) := by
  unfold Buffer.held
  constructor
  · intro h
    cases hg : b.entries.get k with
    | none => simp [hg, Dict.empty] at h
    | some subs =>
      simp only [hg, Option.getD_some, List.mem_map] at h
      obtain ⟨⟨sub, w, t⟩, hx, rfl⟩ := h
      exact ⟨subs, sub, t, rfl, mem_items.mp hx⟩
  · rintro ⟨subs, sub, t, hg, hs⟩
    simp only [hg, Option.getD_some, List.mem_map]
    exact ⟨(sub, u, t), mem_items.mpr hs, rfl⟩

lemma held_erase (b : Buffer) (key : NodeKey) (n m : Int) :
    (⟨b.entries.erase key, n, m, b.overflowed⟩ : Buffer).held key = [] := by
  simp [Buffer.held, get_erase, Dict.empty]

lemma mem_held_of_erase {n m : Int}
    (h : u ∈ (⟨b.entries.erase key, n, m, b.overflowed⟩ : Buffer).held k) : u ∈ b.held k := by
  obtain ⟨subs, sub, t, hg, hs⟩ := mem_held.mp h
  rw [get_erase] at hg
  split at hg
  · cases hg
  · exact mem_held.mpr ⟨subs, sub, t, hg, hs⟩

lemma put_cases (caps : Caps) (b : Buffer) (key : NodeKey) (sub : Text) (u : Upload) (now : Int) :
    put caps b key sub u now = (false, { b with overflowed := b.overflowed + 1 }) ∨
    ∃ n m, put caps b key sub u now = (true,
      ⟨b.entries.set key (((b.entries.get key).getD .empty).set sub (u, now)), n, m, b.overflowed⟩) := by
  unfold put
  dsimp only
  generalize (if (((b.entries.get key).getD .empty).get sub).isSome = true then 0 else 1) = added
  split
  · exact .inl rfl
  · exact .inr ⟨_, _, rfl⟩

lemma mem_held_put {caps : Caps} {sub : Text} {now : Int}
    (h : u ∈ (put caps b key sub v now).2.held k) : u ∈ b.held k ∨ u = v ∧ k = key := by
  rcases put_cases caps b key sub v now with hp | ⟨n, m, hp⟩
  · rw [hp] at h
    exact .inl h
  · rw [hp] at h
    obtain ⟨subs, sub', t, hg, hs⟩ := mem_held.mp h
    rw [get_set] at hg
    split at hg
    · rename_i hk
      cases hg
      rw [get_set] at hs
      split at hs
      · cases hs
        exact .inr ⟨rfl, hk⟩
      · refine .inl (mem_held.mpr ?_)
        cases hb : b.entries.get key with
        | none => simp [hb] at hs
        | some subs => exact ⟨subs, sub', t, hk ▸ hb, by simpa [hb] using hs⟩
    · exact .inl (mem_held.mpr ⟨subs, sub', t, hg, hs⟩)

lemma mem_held_putUnless {α : Type} {caps : Caps} {sub : Text} {now : Int} {target : Option α}
    (h : u ∈ (putUnless caps b key sub v now target).2.held k) :
    u ∈ b.held k ∨ u = v ∧ k = key := by
  unfold putUnless at h
  cases target with
  | some a => exact .inl h
  | none =>
    have hput := @mem_held_put b key k u v caps sub now
    revert h hput
    rcases put caps b key sub v now with ⟨_ | _, b'⟩ <;> exact fun h hput => hput h

section Take
variable {timeout now : Int} {session : Option Text} {run : Run}

lemma held_take : (take b key timeout session run now).2.held key = [] := by
  unfold take
  split
  · rename_i hg
    simp [Buffer.held, hg, Dict.empty]
  · split
    · exact held_erase b key _ _
    · exact held_erase b key _ _

lemma mem_held_take (h : u ∈ (take b key timeout session run now).2.held k) : u ∈ b.held k := by
  unfold take at h
  split at h
  · exact h
  · split at h
    · exact mem_held_of_erase h
    · exact mem_held_of_erase h

lemma mem_take (h : u ∈ (take b key timeout session run now).1) :
    u ∈ b.held key ∧ ∀ s ∈ session, u.session = s := by
  unfold take at h
  split at h
  · simp at h
  · rename_i subs hg
    split at h
    · simp at h
    · simp only [List.mem_map, List.mem_filter] at h
      obtain ⟨x, ⟨⟨⟨sub, y⟩, hy, rfl⟩, ht⟩, rfl⟩ := h
      refine ⟨mem_held.mpr ⟨subs, sub, y.2, hg, mem_items.mp hy⟩, fun s hs => ?_⟩
      simp only [taken, Bool.and_eq_true, Bool.not_eq_true'] at ht
      obtain rfl := hs
      simpa using ht.1.2

end Take

lemma mem_held_pop (h : u ∈ (pop b key).2.held k) : u ∈ b.held k := mem_held_of_erase h

lemma get_of_filter {p : Text → Upload × Int → Bool} {subs : Subs} {sub : Text}
    {x : Upload × Int} (h : (subs.filter p).get sub = some x) : subs.get sub = some x := by
  rw [get_filter] at h
  exact (Option.filter_eq_some_iff.mp h).1

lemma mem_held_retain {keep : Upload × Int → Bool} (h : u ∈ (retain keep b key).held k) :
    u ∈ b.held k := by
  unfold retain at h
  split at h
  · exact h
  · rename_i subs hg
    obtain ⟨subs', sub, t, hg', hs⟩ := mem_held.mp h
    simp only at hg'
    split at hg'
    · rw [get_erase] at hg'
      split at hg'
      · cases hg'
      · exact mem_held.mpr ⟨subs', sub, t, hg', hs⟩
    · rw [get_set] at hg'
      split at hg'
      · rename_i hk
        cases hg'
        exact mem_held.mpr ⟨subs, sub, t, hk ▸ hg, get_of_filter hs⟩
      · exact mem_held.mpr ⟨subs', sub, t, hg', hs⟩

lemma mem_held_retains {keep : Upload × Int → Bool} {keys : List NodeKey}
    (h : u ∈ (keys.foldl (retain keep) b).held k) : u ∈ b.held k := by
  induction keys generalizing b with
  | nil => exact h
  | cons key keys ih => exact mem_held_retain (ih h)

end Held
end CloudServer.UploadBuffer
