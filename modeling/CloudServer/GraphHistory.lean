import CloudServer.GraphCache

/-! Interleaved calls of the graph cache: what they return is of the history the map is known by. -/
namespace CloudServer.GraphHistory

open Scan (Text)
open GraphCache List Option Function

inductive Call
  | get (tolerateStale : Bool)
  | warm
  deriving DecidableEq, Repr

inductive Phase
  | idle
  | asking (call : Call) (map : Text)
  | waiting (call : Call) (key : Key) (f : Nat)
  deriving DecidableEq, Repr

/-- What a load was started for: its key, the token noted then and how often the map's history had
been dropped by then. -/
structure Origin where
  key : Key
  token : Option Token
  era : Nat
  deriving DecidableEq, Repr

/-- `era`, `origin` and `said` are kept for the statements only: the drops of each map, the origin
of each load, and the cursor last said for a version since the last drop. -/
structure System where
  tables : Tables
  calls : Nat → Phase
  results : Nat → Option LoadResult
  next : Nat
  era : Text → Nat
  origin : Nat → Option Origin
  said : Key → Option Cursor

def System.init : System :=
  ⟨.init, fun _ => .idle, fun _ => none, 0, fun _ => 0, fun _ => none, fun _ => none⟩

/-- The steps of the callers, of the loads they wait for and of the clock. -/
inductive Label
  | start (c : Nat) (call : Call) (map : Text)
  | answer (c : Nat) (a : Answer) (clock : Nat → Int) (closed : Bool) (unavailable : Graph → Bool)
  | resolve (f : Nat) (result : LoadResult)
  | callback (f : Nat) (now : Int)
  | resume (c : Nat)
  | abandon (c : Nat)

/-- What a `get` returned: the map, the graph and the version. -/
structure Return where
  map : Text
  graph : Graph
  version : Int
  deriving DecidableEq, Repr

variable (cfg : Config)

def System.noted (s : System) (key : Key) (a : Answer) : System :=
  let drop := regressed s.tables key.1 key.2 a.token
  let era := if drop then update s.era key.1 (s.era key.1 + 1) else s.era
  let said := if drop then fun k => if k.1 = key.1 then none else s.said k else s.said
  { s with next := s.next + 1
           era
           origin := update s.origin s.next (some ⟨key, a.token, era key.1⟩)
           said := update said key (some a.cursor) }

def System.answered (s : System) (map : Text) (a : Answer) : System :=
  match a.version with
  | none => s
  | some version => s.noted (map, version) a

def Outcome.phase (call : Call) (map : Text) (a : Answer) : Outcome → Phase
  | .wait f => .waiting call (map, a.version.getD 0) f
  | _ => .idle

def Outcome.return (map : Text) : Outcome → Option Return
  | .served graph version => some ⟨map, graph, version⟩
  | _ => none

def System.stepTo (s : System) (c : Nat) (t : Tables) (phase : Phase) : System :=
  { s with tables := t, calls := update s.calls c phase }

/-- One step of the event loop or of a load; `none` when it is not enabled. -/
def step (s : System) : Label → Option (System × Option Return)
  | .start c call map => match s.calls c with
    | .idle => some (s.stepTo c s.tables (.asking call map), none)
    | _ => none
  | .answer c a clock closed unavailable => match s.calls c with
    | .asking (.get tolerateStale) map =>
      let x := getAnswered cfg s.tables map a tolerateStale closed unavailable s.next clock
      some ((s.answered map a).stepTo c x.1 (Outcome.phase (.get tolerateStale) map a x.2),
        Outcome.return map x.2)
    | .asking .warm map =>
      let x := warmAnswered s.tables map a closed s.next (clock 0)
      some ((s.answered map a).stepTo c x.1 (Outcome.phase .warm map a x.2), none)
    | _ => none
  | .resolve f result =>
    if s.results f = none ∧ (s.origin f).isSome then
      some ({ s with results := update s.results f (some result) }, none)
    else none
  | .callback f now => match s.origin f, s.results f with
    | some o, some result =>
      some ({ s with tables := done cfg s.tables o.key f result now }, none)
    | _, _ => none
  | .resume c => match s.calls c with
    | .waiting (.get _) key f => match s.results f with
      | some (.loaded nbytes) =>
        some (s.stepTo c (getLoaded s.tables key) .idle, some ⟨key.1, ⟨f, nbytes⟩, key.2⟩)
      | some _ => some (s.stepTo c s.tables .idle, none)
      | none => none
    | .waiting .warm _ f => if (s.results f).isSome then some (s.stepTo c s.tables .idle, none)
      else none
    | _ => none
  | .abandon c => some (s.stepTo c s.tables .idle, none)

inductive Reached (ok : System → Label → Prop) : System → Prop
  | init : Reached ok .init
  | step {s s' : System} {l : Label} {r : Option Return} :
      Reached ok s → ok s l → step cfg s l = some (s', r) → Reached ok s'

def Current (s : System) (f : Nat) (key : Key) : Prop :=
  ∃ o, s.origin f = some o ∧ o.key = key ∧ (s.tables.known.get key.1).map Prod.snd = some o.token ∧
    o.era = s.era key.1

/-- What was returned is of the map's history, and the cursor read right after is the one said for
its version in that history. -/
def Truthful (s : System) (r : Return) : Prop :=
  Current s r.graph.load (r.map, r.version) ∧
    s.said (r.map, r.version) = some (cursor s.tables r.map)

/-- At most `bound` graphs are cached, at most `perMap` of one map. -/
def Bounded (t : Tables) : Prop :=
  t.graphs.size ≤ cfg.bound ∧
    ∀ map, (t.graphs.keys.filter fun k => k.1 = map).length ≤ cfg.perMap

/-- A `get` waits for a load of this key. -/
def Awaited (s : System) (key : Key) : Prop :=
  ∃ c tolerateStale f, s.calls c = .waiting (.get tolerateStale) key f

/-- The answer of a map whose history changed comes while no `get` waits for a load of the map, and
one that prunes the cursors comes while each load in flight or awaited is of its own key or of a
cached one. -/
def Steady (s : System) : Label → Prop
  | .answer c a clock _ _ => ∀ call map version, s.calls c = .asking call map →
      a.version = some version →
      (regressed s.tables map version a.token → ∀ key, Awaited s key → key.1 ≠ map) ∧
      (call ≠ .warm →
        let t := noteAnswer s.tables (map, version) a (clock 0)
        8 * cfg.bound < t.cursors.size → ∀ key, Awaited s key ∨ key ∈ t.loading.keys →
          key = (map, version) ∨ key ∈ t.graphs.keys)
  | _ => True

structure Trimmed (t t' : Tables) : Prop where
  graphs : t'.graphs.items.Sublist t.graphs.items
  loading : t'.loading = t.loading
  cursors : t'.cursors = t.cursors
  known : t'.known = t.known

lemma Trimmed.refl (t : Tables) : Trimmed t t := ⟨List.Sublist.refl _, rfl, rfl, rfl⟩

variable {t t' u : Tables} {s s' : System} {k key : Key} {map : Text} {x : Tables × Outcome}

lemma Trimmed.trans {v : Tables} (h : Trimmed t u) (h' : Trimmed u v) : Trimmed t v :=
  ⟨h'.graphs.trans h.graphs, h'.loading.trans h.loading, h'.cursors.trans h.cursors, h'.known.trans h.known⟩

variable {g : Graph} {f fresh : Nat} {v version : Int} {closed : Bool} {r : Option Return}
variable {ok : System → Label → Prop}

lemma Trimmed.get (h : Trimmed t t') (hg : t'.graphs.get k = some g) : t.graphs.get k = some g :=
  Dict.mem_items.mp (h.graphs.subset (Dict.mem_items.mpr hg))

lemma evict_trimmed (t : Tables) (key : Key) : Trimmed t (evict t key) :=
  ⟨filter_sublist, rfl, rfl, rfl⟩

lemma foldl_trimmed {α : Type} (f : Tables → α → Tables) (hf : ∀ t x, Trimmed t (f t x))
    (xs : List α) (t : Tables) : Trimmed t (xs.foldl f t) := by
  induction xs generalizing t with
  | nil => exact .refl t
  | cons x xs ih => exact (hf t x).trans (ih (f t x))

lemma dropUnavailable_trimmed (t : Tables) (unavailable : Graph → Bool) :
    Trimmed t (dropUnavailable t unavailable) := by
  refine foldl_trimmed _ (fun t x => ?_) _ t
  have he := evict_trimmed t x.1
  simp only
  split_ifs
  · exact { he with }
  · exact he

lemma evictOldest_trimmed (key : Key) (t : Tables) : Trimmed t (evictOldest key t) := by
  unfold evictOldest
  split
  · exact evict_trimmed t _
  · exact .refl t

lemma evictWhile_trimmed (full : Tables → Bool) (key : Key) (n : Nat) (t : Tables) :
    Trimmed t (evictWhile full key n t) := by
  induction n generalizing t with
  | zero => exact .refl t
  | succ n ih =>
    unfold evictWhile
    split_ifs
    · exact (evictOldest_trimmed key t).trans (ih _)
    · exact .refl t

variable {cfg}

lemma Bounded.sublist (h : Bounded cfg t)
    (hs : t'.graphs.items.Sublist t.graphs.items) : Bounded cfg t' :=
  ⟨hs.length_le.trans h.1, fun map =>
    (((hs.map Prod.fst).filter _).length_le).trans (h.2 map)⟩

lemma Bounded.perm (h : Bounded cfg t)
    (hp : t'.graphs.keys.Perm t.graphs.keys) : Bounded cfg t' := by
  refine ⟨?_, fun map => ((hp.filter _).length_eq.le).trans (h.2 map)⟩
  have hlen := hp.length_eq
  unfold Dict.keys at hlen
  rw [length_map, length_map] at hlen
  exact hlen.le.trans h.1

lemma evictOldest_size (key : Key) (h : 1 < t.graphs.size) :
    (evictOldest key t).graphs.size < t.graphs.size := by
  unfold evictOldest
  split
  · rename_i k hk
    exact Dict.size_erase_lt (mem_of_find?_eq_some hk)
  · rename_i hnone
    have hall : ∀ k ∈ t.graphs.keys, k = key := by
      intro k hk
      have := List.find?_eq_none.mp hnone k hk
      simpa using this
    have hnd := t.graphs.nodup
    have hsub : t.graphs.keys ⊆ [key] := fun k hk => mem_singleton.mpr (hall k hk)
    have hle := (List.Nodup.subperm hnd hsub).length_le
    unfold Dict.size at h
    rw [length_map, length_singleton] at hle
    omega

lemma evictWhile_size (key : Key) (n : Nat) (t : Tables) (h : t.graphs.size ≤ n + cfg.bound) :
    (evictWhile (fun t => t.graphs.size > cfg.bound) key n t).graphs.size ≤ cfg.bound := by
  induction n generalizing t with
  | zero => simpa [evictWhile] using h
  | succ n ih =>
    unfold evictWhile
    split_ifs with hfull
    · have hfull : cfg.bound < t.graphs.size := by simpa using hfull
      have hone : 1 ≤ cfg.bound := le_max_left _ _
      have := evictOldest_size key (t := t) (by omega)
      exact ih _ (by omega)
    · simpa using hfull

lemma foldl_evict (keys : List Key) (t : Tables) (k : Key) :
    (keys.foldl evict t).graphs.get k = if k ∈ keys then none else t.graphs.get k := by
  induction keys generalizing t with
  | nil => simp
  | cons x xs ih =>
    rw [foldl_cons, ih, evict, Dict.get_erase]
    by_cases hx : k = x
    · simp [hx]
    · simp [hx]

lemma mem_others :
    k ∈ others t key ↔ k ∈ t.graphs.keys ∧ k.1 = key.1 ∧ k ≠ key := by
  unfold others
  rw [mem_insertionSort, mem_filter]
  simp

lemma evictVersions_perMap (key : Key) (t : Tables) :
    ((evictVersions cfg key t).graphs.keys.filter fun k => k.1 = key.1).length ≤ cfg.perMap := by
  have hone : 1 ≤ cfg.perMap := le_max_left _ _
  let n := (others t key).length + 1 - cfg.perMap
  have hsub : ((evictVersions cfg key t).graphs.keys.filter fun k => k.1 = key.1) ⊆
      key :: (others t key).drop n := by
    intro k hk
    obtain ⟨hmem, hmap⟩ := mem_filter.mp hk
    obtain ⟨g, hg⟩ := Dict.mem_keys.mp hmem
    unfold evictVersions at hg
    rw [foldl_evict] at hg
    split_ifs at hg with htaken
    by_cases hkey : k = key
    · exact hkey ▸ mem_cons_self
    · have hin : k ∈ others t key :=
        mem_others.mpr ⟨Dict.mem_keys.mpr ⟨g, hg⟩, by simpa using hmap, hkey⟩
      rw [← take_append_drop n (others t key), mem_append] at hin
      rcases hin with hin | hin
      · exact absurd hin htaken
      · exact mem_cons_of_mem _ hin
  have hnd := (evictVersions cfg key t).graphs.nodup.filter fun k => decide (k.1 = key.1)
  have hle := (List.Nodup.subperm hnd hsub).length_le
  rw [length_cons, length_drop] at hle
  refine hle.trans ?_
  omega

lemma evictVersions_trimmed (key : Key) (t : Tables) : Trimmed t (evictVersions cfg key t) :=
  foldl_trimmed evict evict_trimmed _ t

lemma insert_trimmed_versions (t : Tables) (key : Key) (g : Graph) :
    Trimmed (evictVersions cfg key (place t key g)) (insert cfg t key g) :=
  (evictWhile_trimmed _ key _ _).trans (evictWhile_trimmed _ key _ _)

lemma insert_trimmed (t : Tables) (key : Key) (g : Graph) :
    Trimmed (place t key g) (insert cfg t key g) :=
  (evictVersions_trimmed key _).trans (insert_trimmed_versions t key g)

lemma filter_put_other (g : Graph) (h : map ≠ key.1) :
    ((t.graphs.put key g).keys.filter fun k => k.1 = map).length ≤ (t.graphs.keys.filter fun k => k.1 = map).length := by
  have hnot : decide (key.1 = map) = false := decide_eq_false (Ne.symm h)
  unfold Dict.put Dict.keys
  rw [map_append, filter_append, map_singleton]
  simp only [filter_cons, hnot, Bool.false_eq_true, if_false, filter_nil, append_nil]
  exact ((filter_sublist.map Prod.fst).filter _).length_le

lemma insert_bounded (h : Bounded cfg t) (key : Key) (g : Graph) :
    Bounded cfg (insert cfg t key g) := by
  constructor
  · unfold GraphCache.insert
    exact (evictWhile_trimmed _ key _ _).graphs.length_le.trans
      (evictWhile_size key _ _ (Nat.le_add_right _ _))
  · intro map
    by_cases hm : map = key.1
    · subst hm
      refine le_trans ?_ (evictVersions_perMap key (place t key g))
      exact (((insert_trimmed_versions t key g).graphs.map Prod.fst).filter _).length_le
    · refine le_trans ?_ ((filter_put_other g hm).trans (h.2 map))
      exact (((insert_trimmed t key g).graphs.map Prod.fst).filter _).length_le

/-- The tables an answer is noted in: the map's own are dropped when its history changed. -/
def base (t : Tables) (map : Text) (version : Int) (token : Option Token) : Tables :=
  if regressed t map version token then dropMap t map else t

lemma noteAnswer_cursors (t : Tables) (key : Key) (a : Answer) (now : Int) :
    (noteAnswer t key a now).cursors = (base t key.1 key.2 a.token).cursors.set key a.cursor := rfl

lemma noteAnswer_known (t : Tables) (key : Key) (a : Answer) (now : Int) :
    (noteAnswer t key a now).known = (base t key.1 key.2 a.token).known.set key.1 (key.2, a.token) := rfl

lemma base_graphs_sublist (t : Tables) (map : Text) (version : Int) (token : Option Token) :
    (base t map version token).graphs.items.Sublist t.graphs.items := by
  unfold base
  split_ifs
  · exact filter_sublist
  · exact List.Sublist.refl _

structure Same (t t' : Tables) : Prop where
  graphs : ∀ k, t'.graphs.get k = t.graphs.get k
  keys : t'.graphs.keys.Perm t.graphs.keys
  loading : t'.loading = t.loading
  cursors : t'.cursors = t.cursors
  known : t'.known = t.known

lemma newestBelow_mem (h : newestBelow t map version = some k) : k.1 = map := by
  have hfold : ∀ f : Option Key → Key → Option Key, (∀ b k, f b k = b ∨ f b k = some k) →
      ∀ (xs : List Key) (best : Option Key), (∀ b, best = some b → b.1 = map) →
        (∀ x ∈ xs, x.1 = map) → ∀ k, xs.foldl f best = some k → k.1 = map := by
    intro f hf xs
    induction xs with
    | nil => exact fun best hb _ k hk => hb k hk
    | cons x xs ih =>
      intro best hb hx k hk
      refine ih _ (fun b hb' => ?_) (fun y hy => hx y (mem_cons_of_mem _ hy)) k hk
      rcases hf best x with he | he
      · exact hb b (he.symm.trans hb')
      · exact some_inj.mp (he.symm.trans hb') ▸ hx x mem_cons_self
  refine hfold _ (fun b k => ?_) _ none (fun b hb => by cases hb) (fun x hx => ?_) k h
  · cases b with
    | none => exact .inr rfl
    | some b =>
      dsimp only
      split_ifs
      · exact .inr rfl
      · exact .inl rfl
  · have := (mem_filter.mp hx).2
    simp only [Bool.and_eq_true, decide_eq_true_eq] at this
    exact this.1

lemma serveOlder_found {tolerateStale : Bool}
    {now : Int} (h : serveOlder cfg t map version tolerateStale now = .found t' g v) :
    Same t t' ∧ t.graphs.get (map, v) = some g ∧ t'.served.get map = some v := by
  unfold serveOlder at h
  split at h
  · cases h
  · rename_i prev hprev
    split_ifs at h
    split at h
    · cases h
    · rename_i g' hg
      simp only [Older.found.injEq] at h
      obtain ⟨rfl, rfl, rfl⟩ := h
      have hmap := newestBelow_mem hprev
      refine ⟨⟨fun k => ?_, Dict.keys_put_perm hg, rfl, rfl, rfl⟩, ?_, ?_⟩
      · simp only [Dict.get_put]
        split_ifs with hk
        · rw [hk, hg]
        · rfl
      · rw [← hmap]
        exact hg
      · rw [Dict.get_set, if_pos rfl]

lemma startLoad_some (h : startLoad t key fresh closed = some (t', f)) :
    t'.graphs = t.graphs ∧ t'.cursors = t.cursors ∧ t'.known = t.known ∧ t'.loading.get key = some f ∧
      ∀ k f', t'.loading.get k = some f' → t.loading.get k = some f' ∨ k = key ∧ f' = fresh := by
  unfold startLoad at h
  split at h
  · rename_i f' hf
    simp only [Option.some.injEq, Prod.mk.injEq] at h
    obtain ⟨rfl, rfl⟩ := h
    exact ⟨rfl, rfl, rfl, hf, fun k f' hk => .inl hk⟩
  · split_ifs at h
    simp only [Option.some.injEq, Prod.mk.injEq] at h
    obtain ⟨rfl, rfl⟩ := h
    refine ⟨rfl, rfl, rfl, by rw [Dict.get_set, if_pos rfl], fun k f' hk => ?_⟩
    rw [Dict.get_set] at hk
    split_ifs at hk with hkey
    · exact .inr ⟨hkey, (some_inj.mp hk).symm⟩
    · exact .inl hk

structure Chosen (t : Tables) (key : Key) (fresh : Nat) (x : Tables × Outcome) : Prop where
  graphs : ∀ k, x.1.graphs.get k = t.graphs.get k
  keys : x.1.graphs.keys.Perm t.graphs.keys
  cursors : x.1.cursors = t.cursors
  known : x.1.known = t.known
  loading : ∀ k f, x.1.loading.get k = some f → t.loading.get k = some f ∨ k = key ∧ f = fresh
  served : ∀ g v, x.2 = .served g v →
    t.graphs.get (key.1, v) = some g ∧ x.1.served.get key.1 = some v
  wait : ∀ f, x.2 = .wait f → x.1.loading.get key = some f

lemma Chosen.idle (t : Tables) (key : Key) (fresh : Nat) {out : Outcome}
    (hs : ∀ g v, out ≠ .served g v) (hw : ∀ f, out ≠ .wait f) : Chosen t key fresh (t, out) :=
  ⟨fun _ => rfl, List.Perm.refl _, rfl, rfl, fun _ _ h => .inl h, fun g v h => absurd h (hs g v), fun f h => absurd h (hw f)⟩

lemma Chosen.found
    (h : Same t t' ∧ t.graphs.get (key.1, v) = some g ∧ t'.served.get key.1 = some v) :
    Chosen t key fresh (t', .served g v) := by
  obtain ⟨hsame, hg, hs⟩ := h
  refine ⟨hsame.graphs, hsame.keys, hsame.cursors, hsame.known, fun k f hk => ?_, ?_, ?_⟩
  · rw [hsame.loading] at hk
    exact .inl hk
  · rintro g' v' ⟨⟩
    exact ⟨hg, hs⟩
  · rintro f ⟨⟩

lemma Chosen.started (hl : startLoad t key fresh closed = some (u, f))
    (h : Chosen u key fresh x) : Chosen t key fresh x := by
  obtain ⟨hg, hc, hk, -, hload⟩ := startLoad_some hl
  refine ⟨fun k => ?_, hg ▸ h.keys, h.cursors.trans hc, h.known.trans hk, fun k f' hf' => ?_, fun g v hx => ?_, h.wait⟩
  · rw [h.graphs, hg]
  · rcases h.loading k f' hf' with h' | h'
    · exact hload k f' h'
    · exact .inr h'
  · rw [← hg]
    exact h.served g v hx

lemma choose_chosen (cfg : Config) (t : Tables) (key : Key) (tolerateStale closed : Bool) (fresh : Nat) (clock : Nat → Int) :
    Chosen t key fresh (choose cfg t key tolerateStale closed fresh clock) := by
  unfold GraphCache.choose
  split
  · rename_i g hg
    refine Chosen.found ⟨⟨fun k => ?_, Dict.keys_put_perm hg, rfl, rfl, rfl⟩, hg, ?_⟩
    · simp only [Dict.get_put]
      split_ifs with hk
      · rw [hk, hg]
      · rfl
    · rw [Dict.get_set, if_pos rfl]
  · split_ifs
    · split
      · exact .idle t key fresh (by simp) (by simp)
      · exact .idle t key fresh (by simp) (by simp)
      · rename_i h
        exact .found (serveOlder_found h)
    · split
      · exact .idle t key fresh (by simp) (by simp)
      · rename_i u f hl
        refine Chosen.started hl ?_
        split
        · refine ⟨fun _ => rfl, List.Perm.refl _, rfl, rfl, fun _ _ h => .inl h, by simp, ?_⟩
          rintro f' ⟨⟩
          exact (startLoad_some hl).2.2.2.1
        · exact .idle u key fresh (by simp) (by simp)
        · rename_i h
          exact .found (serveOlder_found h)

lemma pruneCursors_bounded (h : Bounded cfg t) (key : Key) :
    Bounded cfg (pruneCursors cfg t key) := by
  unfold pruneCursors
  split_ifs
  · exact h
  · exact h

lemma noteAnswer_bounded (h : Bounded cfg t) (key : Key) (a : Answer) (now : Int) :
    Bounded cfg (noteAnswer t key a now) :=
  Bounded.sublist (t := t) h (base_graphs_sublist t key.1 key.2 a.token)

lemma getAnswered_bounded (h : Bounded cfg t) (map : Text) (a : Answer)
    (tolerateStale closed : Bool) (unavailable : Graph → Bool) (fresh : Nat) (clock : Nat → Int) :
    Bounded cfg (getAnswered cfg t map a tolerateStale closed unavailable fresh clock).1 := by
  unfold getAnswered
  split
  · exact h
  · refine Bounded.perm ?_ (choose_chosen cfg _ _ tolerateStale closed fresh clock).keys
    exact (pruneCursors_bounded (noteAnswer_bounded h _ a _) _).sublist
      (dropUnavailable_trimmed _ unavailable).graphs

lemma warmAnswered_bounded (h : Bounded cfg t) (map : Text) (a : Answer)
    (closed : Bool) (fresh : Nat) (now : Int) :
    Bounded cfg (warmAnswered t map a closed fresh now).1 := by
  unfold warmAnswered
  split
  · exact h
  · have hn := noteAnswer_bounded h (map, ‹Int›) a now
    simp only
    split_ifs
    · exact hn
    · split
      · exact hn
      · rename_i u f hl
        have hg := (startLoad_some hl).1
        unfold Bounded at *
        rw [hg]
        exact hn

lemma done_bounded (h : Bounded cfg t) (key : Key) (f : Nat) (result : LoadResult)
    (now : Int) : Bounded cfg (done cfg t key f result now) := by
  unfold done
  split_ifs
  · exact h
  · cases result with
    | cancelled | failed => exact h
    | loaded nbytes => exact insert_bounded (t := { t with loading := t.loading.erase key }) h key _

lemma step_bounded {l : Label} (h : Bounded cfg s.tables)
    (hs : step cfg s l = some (s', r)) : Bounded cfg s'.tables := by
  cases l with
  | start c call map =>
    simp only [step] at hs
    split at hs
    · cases hs
      exact h
    · cases hs
  | answer c a clock closed unavailable =>
    simp only [step] at hs
    split at hs
    · cases hs
      exact getAnswered_bounded h _ a _ closed unavailable _ clock
    · cases hs
      exact warmAnswered_bounded h _ a closed _ _
    · cases hs
  | resolve f result =>
    simp only [step] at hs
    split_ifs at hs
    cases hs
    exact h
  | callback f now =>
    simp only [step] at hs
    split at hs
    · cases hs
      exact done_bounded h _ f _ now
    · cases hs
  | resume c =>
    simp only [step] at hs
    split at hs
    · split at hs
      · cases hs
        exact h
      · cases hs
        exact h
      · cases hs
    · split_ifs at hs
      cases hs
      exact h
    · cases hs
  | abandon c =>
    simp only [step] at hs
    cases hs
    exact h

lemma reached_bounded (h : Reached cfg ok s) :
    Bounded cfg s.tables := by
  induction h with
  | init => exact ⟨Nat.zero_le _, fun _ => Nat.zero_le _⟩
  | step _ _ hs ih => exact step_bounded ih hs

/-- The key has a graph, a load in flight or a `get` that waits. -/
def Held (s : System) (key : Key) : Prop :=
  key ∈ s.tables.graphs.keys ∨ key ∈ s.tables.loading.keys ∨ Awaited s key

structure Kept (s : System) : Prop where
  unused : ∀ f, s.next ≤ f → s.origin f = none
  graphs : ∀ k g, s.tables.graphs.get k = some g → Current s g.load k
  loading : ∀ k f, s.tables.loading.get k = some f → Current s f k
  awaited : ∀ c b k f, s.calls c = .waiting (.get b) k f → Current s f k
  cursors : ∀ k c, s.tables.cursors.get k = some c → s.said k = some c
  held : ∀ k, Held s k → k ∈ s.tables.cursors.keys

lemma Current.change (hknown : t.known = s.tables.known) (h : Current s f k) :
    Current { s with tables := t } f k := by
  obtain ⟨o, ho, hk, ht, he⟩ := h
  exact ⟨o, ho, hk, hknown ▸ ht, he⟩

lemma Kept.change (h : Kept s) (hknown : t.known = s.tables.known)
    (hgraphs : ∀ k g, t.graphs.get k = some g → Current s g.load k)
    (hloading : ∀ k f, t.loading.get k = some f → Current s f k)
    (hcursors : ∀ k c, t.cursors.get k = some c → s.said k = some c)
    (hheld : ∀ k, k ∈ t.graphs.keys ∨ k ∈ t.loading.keys ∨ Awaited s k → k ∈ t.cursors.keys) :
    Kept { s with tables := t } :=
  ⟨h.unused, fun k g hg => (hgraphs k g hg).change hknown, fun k f hf => (hloading k f hf).change hknown,
    fun c b k f hc => (h.awaited c b k f hc).change hknown, hcursors, hheld⟩

lemma Kept.call (h : Kept s) (c : Nat) (phase : Phase)
    (hp : ∀ b k f, phase = .waiting (.get b) k f →
      Current s f k ∧ k ∈ s.tables.cursors.keys) : Kept (s.stepTo c s.tables phase) := by
  have hcalls : ∀ c' b k f, (s.stepTo c s.tables phase).calls c' = .waiting (.get b) k f →
      phase = .waiting (.get b) k f ∨ s.calls c' = .waiting (.get b) k f := by
    intro c' b k f hc
    unfold System.stepTo at hc
    simp only [update_apply] at hc
    split_ifs at hc
    · exact .inl hc
    · exact .inr hc
  refine ⟨h.unused, h.graphs, h.loading, fun c' b k f hc => ?_, h.cursors, fun k hk => ?_⟩
  · rcases hcalls c' b k f hc with hc | hc
    · exact (hp b k f hc).1
    · exact h.awaited c' b k f hc
  · rcases hk with hk | hk | ⟨c', b, f, hc⟩
    · exact h.held k (.inl hk)
    · exact h.held k (.inr (.inl hk))
    · rcases hcalls c' b k f hc with hc | hc
      · exact (hp b k f hc).2
      · exact h.held k (.inr (.inr ⟨c', b, f, hc⟩))

def System.afterNote (s : System) (key : Key) (a : Answer) (now : Int) : System :=
  { s.noted key a with tables := noteAnswer s.tables key a now }

lemma token_of_not_regressed {token old : Option Token}
    (h : regressed t map version token = false) (hk : (t.known.get map).map Prod.snd = some old) :
    token = old := by
  unfold regressed at h
  obtain ⟨⟨w, o⟩, hw, rfl⟩ := map_eq_some_iff.mp hk
  rw [hw] at h
  simp only [Bool.or_eq_false_iff, decide_eq_false_iff_not, not_not] at h
  exact h.1

lemma Current.afterNote (h : Kept s) (hc : Current s f k) (key : Key) (a : Answer) (now : Int)
    (hne : regressed s.tables key.1 key.2 a.token → k.1 ≠ key.1) :
    Current (s.afterNote key a now) f k := by
  obtain ⟨o, ho, hk, ht, he⟩ := hc
  have hf : f ≠ s.next := by
    rintro rfl
    rw [h.unused _ (le_refl _)] at ho
    cases ho
  refine ⟨o, ?_, hk, ?_, ?_⟩
  · change update s.origin s.next _ f = some o
    rw [update_of_ne hf, ho]
  · change ((noteAnswer s.tables key a now).known.get k.1).map Prod.snd = _
    rw [noteAnswer_known, Dict.get_set]
    split_ifs with hm
    · by_cases hd : regressed s.tables key.1 key.2 a.token
      · exact absurd hm (hne hd)
      · rw [hm] at ht
        rw [map_some, token_of_not_regressed (Bool.eq_false_iff.mpr hd) ht]
    · rw [← ht]
      unfold base
      split_ifs
      · rw [dropMap, Dict.get_erase, if_neg hm]
      · rfl
  · change o.era = (s.noted key a).era k.1
    unfold System.noted
    simp only
    split_ifs with hd
    · rw [update_of_ne (hne hd), he]
    · exact he

lemma current_next (s : System) (key : Key) (a : Answer) (now : Int) :
    Current (s.afterNote key a now) s.next key := by
  refine ⟨⟨key, a.token, (s.noted key a).era key.1⟩, ?_, rfl, ?_, rfl⟩
  · exact update_self _ _ _
  · change ((noteAnswer s.tables key a now).known.get key.1).map Prod.snd = _
    rw [noteAnswer_known, Dict.get_set, if_pos rfl]
    rfl

lemma base_get {a : Answer} {α : Type} (table : Tables → Dict Key α)
    (hdrop : ∀ t map, table (dropMap t map) = (table t).filter fun k _ => k.1 ≠ map)
    {v : α} (h : (table (base s.tables key.1 key.2 a.token)).get k = some v) :
    (table s.tables).get k = some v ∧ (regressed s.tables key.1 key.2 a.token → k.1 ≠ key.1) := by
  unfold base at h
  split_ifs at h with hd
  · rw [hdrop, Dict.get_filter, filter_eq_some_iff] at h
    exact ⟨h.1, fun _ => by simpa using h.2⟩
  · exact ⟨h, fun hd' => absurd hd' hd⟩

lemma base_get_of {a : Answer} {c : Cursor} (h : s.tables.cursors.get k = some c)
    (hne : regressed s.tables key.1 key.2 a.token → k.1 ≠ key.1) :
    (base s.tables key.1 key.2 a.token).cursors.get k = some c := by
  unfold base
  split_ifs with hd
  · rw [dropMap, Dict.get_filter, h, filter_eq_some_iff]
    exact ⟨rfl, by simpa using hne hd⟩
  · exact h

lemma Kept.noted (h : Kept s) (key : Key) (a : Answer) (now : Int)
    (hfree : regressed s.tables key.1 key.2 a.token → ∀ k, Awaited s k → k.1 ≠ key.1) :
    Kept (s.afterNote key a now) := by
  refine ⟨fun f hf => ?_, fun k g hg => ?_, fun k f hf => ?_, fun c b k f hc => ?_, fun k c hc => ?_, fun k hk => ?_⟩
  · change update s.origin s.next _ f = none
    have hf : s.next + 1 ≤ f := hf
    rw [update_of_ne (by omega)]
    exact h.unused f (by omega)
  · obtain ⟨hg, hne⟩ := base_get Tables.graphs (fun _ _ => rfl) hg
    exact (h.graphs k g hg).afterNote h key a now hne
  · obtain ⟨hf, hne⟩ := base_get Tables.loading (fun _ _ => rfl) hf
    exact (h.loading k f hf).afterNote h key a now hne
  · exact (h.awaited c b k f hc).afterNote h key a now fun hd => hfree hd k ⟨c, b, f, hc⟩
  · change (noteAnswer s.tables key a now).cursors.get k = some c at hc
    change (s.noted key a).said k = some c
    rw [noteAnswer_cursors, Dict.get_set] at hc
    unfold System.noted
    simp only [update_apply]
    split_ifs at hc with hk
    · rw [if_pos hk]
      exact hc
    · rw [if_neg hk]
      obtain ⟨hc, hne⟩ := base_get Tables.cursors (fun _ _ => rfl) hc
      split_ifs with hd
      · exact (if_neg (hne hd)).trans (h.cursors k c hc)
      · exact h.cursors k c hc
  · change k ∈ (noteAnswer s.tables key a now).cursors.keys
    rw [noteAnswer_cursors, Dict.mem_keys_set]
    have hold : Held s k ∧ (regressed s.tables key.1 key.2 a.token → k.1 ≠ key.1) := by
      rcases hk with hk | hk | hk
      · obtain ⟨g, hg⟩ := Dict.mem_keys.mp hk
        obtain ⟨hg, hne⟩ := base_get Tables.graphs (fun _ _ => rfl) hg
        exact ⟨.inl (Dict.mem_keys.mpr ⟨g, hg⟩), hne⟩
      · obtain ⟨f, hf⟩ := Dict.mem_keys.mp hk
        obtain ⟨hf, hne⟩ := base_get Tables.loading (fun _ _ => rfl) hf
        exact ⟨.inr (.inl (Dict.mem_keys.mpr ⟨f, hf⟩)), hne⟩
      · exact ⟨.inr (.inr hk), fun hd => hfree hd k hk⟩
    obtain ⟨c, hc⟩ := Dict.mem_keys.mp (h.held k hold.1)
    exact .inr (Dict.mem_keys.mpr ⟨c, base_get_of hc hold.2⟩)

lemma Kept.trimmed (h : Kept s) (ht : Trimmed s.tables t) :
    Kept { s with tables := t } := by
  refine h.change ht.known (fun k g hg => h.graphs k g (ht.get hg))
    (fun k f hf => h.loading k f (ht.loading ▸ hf)) (fun k c hc => h.cursors k c (ht.cursors ▸ hc))
    fun k hk => ?_
  rw [ht.cursors]
  refine h.held k ?_
  rcases hk with hk | hk | hk
  · obtain ⟨g, hg⟩ := Dict.mem_keys.mp hk
    exact .inl (Dict.mem_keys.mpr ⟨g, ht.get hg⟩)
  · exact .inr (.inl (ht.loading ▸ hk))
  · exact .inr (.inr hk)

lemma Kept.chosen (h : Kept s) (hx : Chosen s.tables key fresh x) (hcur : Current s fresh key)
    (hkey : key ∈ s.tables.cursors.keys) : Kept { s with tables := x.1 } := by
  have hload : ∀ k f, x.1.loading.get k = some f → Current s f k := by
    intro k f hf
    rcases hx.loading k f hf with hf | ⟨rfl, rfl⟩
    · exact h.loading k f hf
    · exact hcur
  refine h.change hx.known (fun k g hg => h.graphs k g (hx.graphs k ▸ hg)) hload
    (fun k c hc => h.cursors k c (hx.cursors ▸ hc)) fun k hk => ?_
  rw [hx.cursors]
  rcases hk with hk | hk | hk
  · obtain ⟨g, hg⟩ := Dict.mem_keys.mp hk
    rw [hx.graphs] at hg
    exact h.held k (.inl (Dict.mem_keys.mpr ⟨g, hg⟩))
  · obtain ⟨f, hf⟩ := Dict.mem_keys.mp hk
    rcases hx.loading k f hf with hf | ⟨rfl, -⟩
    · exact h.held k (.inr (.inl (Dict.mem_keys.mpr ⟨f, hf⟩)))
    · exact hkey
  · exact h.held k (.inr (.inr hk))

lemma Kept.pruned (h : Kept s) (key : Key)
    (hneed : 8 * cfg.bound < s.tables.cursors.size → ∀ k, Awaited s k ∨ k ∈ s.tables.loading.keys →
      k = key ∨ k ∈ s.tables.graphs.keys) :
    Kept { s with tables := pruneCursors cfg s.tables key } := by
  unfold pruneCursors
  split_ifs with hfull
  · refine h.change rfl h.graphs h.loading (fun k c hc => ?_) fun k hk => ?_
    · rw [Dict.get_filter, filter_eq_some_iff] at hc
      exact h.cursors k c hc.1
    · obtain ⟨c, hc⟩ := Dict.mem_keys.mp (h.held k hk)
      refine Dict.mem_keys.mpr ⟨c, ?_⟩
      rw [Dict.get_filter, hc, filter_eq_some_iff]
      refine ⟨rfl, ?_⟩
      have hin : k = key ∨ k ∈ s.tables.graphs.keys := by
        rcases hk with hk | hk | hk
        · exact .inr hk
        · exact hneed hfull k (.inr hk)
        · exact hneed hfull k (.inl hk)
      simp only [Bool.or_eq_true, decide_eq_true_eq]
      exact hin.symm
  · exact h

lemma pruneCursors_key (cfg : Config) (h : key ∈ t.cursors.keys) :
    key ∈ (pruneCursors cfg t key).cursors.keys := by
  unfold pruneCursors
  split_ifs
  · obtain ⟨c, hc⟩ := Dict.mem_keys.mp h
    refine Dict.mem_keys.mpr ⟨c, ?_⟩
    rw [Dict.get_filter, hc, filter_eq_some_iff]
    exact ⟨rfl, by simp⟩
  · exact h

lemma Kept.truthful (h : Kept s)
    (hcur : Current s g.load (map, v)) (hkey : (map, v) ∈ s.tables.cursors.keys)
    (hserved : s.tables.served.get map = some v) : Truthful s ⟨map, g, v⟩ := by
  refine ⟨hcur, ?_⟩
  obtain ⟨c, hc⟩ := Dict.mem_keys.mp hkey
  have hcursor : cursor s.tables map = c := by
    unfold cursor
    rw [hserved, getD_some, hc, join_some]
  rw [hcursor]
  exact h.cursors _ c hc

lemma getAnswered_kept (h : Kept s) (map : Text) (version : Int) (a : Answer)
    (hv : a.version = some version) (tolerateStale closed : Bool) (unavailable : Graph → Bool)
    (clock : Nat → Int)
    (hfree : regressed s.tables map version a.token → ∀ k, Awaited s k → k.1 ≠ map)
    (hneed : 8 * cfg.bound < (noteAnswer s.tables (map, version) a (clock 0)).cursors.size →
      ∀ k, Awaited s k ∨ k ∈ (noteAnswer s.tables (map, version) a (clock 0)).loading.keys →
        k = (map, version) ∨ k ∈ (noteAnswer s.tables (map, version) a (clock 0)).graphs.keys)
    (hx : x = getAnswered cfg s.tables map a tolerateStale closed unavailable s.next clock) :
    Kept { s.answered map a with tables := x.1 } ∧
      (∀ f, x.2 = .wait f → Current { s.answered map a with tables := x.1 } f (map, version) ∧
        (map, version) ∈ x.1.cursors.keys) ∧
      ∀ g v, x.2 = .served g v → Truthful { s.answered map a with tables := x.1 } ⟨map, g, v⟩ := by
  have hans : s.answered map a = s.noted (map, version) a := by
    unfold System.answered
    rw [hv]
  unfold getAnswered at hx
  rw [hv] at hx
  simp only at hx
  rw [hans]
  have hkept := h.noted (map, version) a (clock 0) hfree
  have hkey : (map, version) ∈ (noteAnswer s.tables (map, version) a (clock 0)).cursors.keys := by
    rw [noteAnswer_cursors, Dict.mem_keys_set]
    exact .inl rfl
  have hcur := current_next s (map, version) a (clock 0)
  have hpruned : Kept { s.afterNote (map, version) a (clock 0) with
      tables := pruneCursors cfg (noteAnswer s.tables (map, version) a (clock 0))
        (map, version) } := hkept.pruned (map, version) hneed
  have hkey := pruneCursors_key cfg hkey
  have hknown : (pruneCursors cfg (noteAnswer s.tables (map, version) a (clock 0))
      (map, version)).known = (noteAnswer s.tables (map, version) a (clock 0)).known := by
    unfold pruneCursors
    split_ifs
    · rfl
    · rfl
  have hcur := hcur.change hknown
  generalize pruneCursors cfg (noteAnswer s.tables (map, version) a (clock 0)) (map, version) = t₂
    at *
  have htrim := dropUnavailable_trimmed t₂ unavailable
  have hkept₃ := hpruned.trimmed htrim
  have hcur₃ := hcur.change htrim.known
  have hkey₃ : (map, version) ∈ (dropUnavailable t₂ unavailable).cursors.keys := by
    rw [htrim.cursors]
    exact hkey
  generalize dropUnavailable t₂ unavailable = t₃ at *
  have hchosen := choose_chosen cfg t₃ (map, version) tolerateStale closed s.next clock
  rw [← hx] at hchosen
  have hfinal := hkept₃.chosen hchosen hcur₃ hkey₃
  refine ⟨hfinal, fun f hf => ⟨hfinal.loading _ f (hchosen.wait f hf), ?_⟩, fun g v hgv => ?_⟩
  · rw [hchosen.cursors]
    exact hkey₃
  · obtain ⟨hg, hserved⟩ := hchosen.served g v hgv
    have hg' : x.1.graphs.get (map, v) = some g := by rw [hchosen.graphs, hg]
    exact hfinal.truthful (hfinal.graphs _ g hg')
      (hfinal.held _ (.inl (Dict.mem_keys.mpr ⟨g, hg'⟩))) hserved

lemma warmAnswered_kept (h : Kept s) (map : Text) (version : Int) (a : Answer)
    (hv : a.version = some version) (closed : Bool) (now : Int)
    (hfree : regressed s.tables map version a.token → ∀ k, Awaited s k → k.1 ≠ map)
    (hx : x = warmAnswered s.tables map a closed s.next now) :
    Kept { s.answered map a with tables := x.1 } := by
  have hans : s.answered map a = s.noted (map, version) a := by
    unfold System.answered
    rw [hv]
  unfold warmAnswered at hx
  rw [hv] at hx
  simp only at hx
  rw [hans]
  have hkept := h.noted (map, version) a now hfree
  split_ifs at hx
  · rw [hx]
    exact hkept
  · split at hx
    · rw [hx]
      exact hkept
    · rename_i u f hl
      rw [hx]
      have hkey : (map, version) ∈ (noteAnswer s.tables (map, version) a now).cursors.keys := by
        rw [noteAnswer_cursors, Dict.mem_keys_set]
        exact .inl rfl
      have hstart : Chosen (noteAnswer s.tables (map, version) a now) (map, version) s.next
          (u, .warmed none) := Chosen.started hl (.idle u _ _ (by simp) (by simp))
      have hfinal := hkept.chosen hstart (current_next s (map, version) a now) hkey
      exact hfinal

lemma done_kept (h : Kept s) (key : Key) (f : Nat) (result : LoadResult)
    (now : Int) : Kept { s with tables := done cfg s.tables key f result now } := by
  unfold done
  split_ifs with hf
  · exact h
  · have hf : s.tables.loading.get key = some f := not_not.mp hf
    have hload : ∀ k f', (s.tables.loading.erase key).get k = some f' →
        s.tables.loading.get k = some f' := by
      intro k f' hk
      rw [Dict.get_erase] at hk
      split_ifs at hk
      exact hk
    have herase : Kept { s with tables := { s.tables with loading := s.tables.loading.erase key } } := by
      refine h.change rfl h.graphs (fun k f' hk => h.loading k f' (hload k f' hk)) h.cursors
        fun k hk => ?_
      rcases hk with hk | hk | hk
      · exact h.held k (.inl hk)
      · obtain ⟨f', hk⟩ := Dict.mem_keys.mp hk
        exact h.held k (.inr (.inl (Dict.mem_keys.mpr ⟨f', hload k f' hk⟩)))
      · exact h.held k (.inr (.inr hk))
    cases result with
    | cancelled => exact herase
    | failed => exact herase.change rfl herase.graphs herase.loading herase.cursors herase.held
    | loaded nbytes =>
      have hplaced : Kept { s with tables := place { s.tables with
          loading := s.tables.loading.erase key } key ⟨f, nbytes⟩ } := by
        refine herase.change rfl (fun k g hg => ?_) herase.loading herase.cursors fun k hk => ?_
        · simp only [place, Dict.get_put] at hg
          split_ifs at hg with hk
          · obtain rfl := some_inj.mp hg
            subst hk
            exact (h.loading k f hf).change rfl
          · exact herase.graphs k g hg
        · rcases hk with hk | hk | hk
          · obtain ⟨g, hg⟩ := Dict.mem_keys.mp hk
            simp only [place, Dict.get_put] at hg
            split_ifs at hg with hkey
            · subst hkey
              exact h.held k (.inr (.inl (Dict.mem_keys.mpr ⟨f, hf⟩)))
            · exact h.held k (.inl (Dict.mem_keys.mpr ⟨g, hg⟩))
          · exact herase.held k (.inr (.inl hk))
          · exact herase.held k (.inr (.inr hk))
      exact hplaced.trimmed (insert_trimmed _ key _)

lemma Kept.idle (h : Kept s) (c : Nat) : Kept (s.stepTo c s.tables .idle) :=
  h.call c .idle fun _ _ _ he => by cases he

lemma step_kept {l : Label} (h : Kept s) (hok : Steady cfg s l) (hs : step cfg s l = some (s', r)) :
    Kept s' ∧ ∀ x, r = some x → Truthful s' x := by
  cases l with
  | start c call map =>
    simp only [step] at hs
    split at hs
    · cases hs
      exact ⟨h.call c _ (fun _ _ _ he => by cases he), fun x hx => by cases hx⟩
    · cases hs
  | answer c a clock closed unavailable =>
    simp only [step] at hs
    split at hs
    · rename_i tol map hc
      cases hv : a.version with
      | none =>
        simp only [getAnswered, hv, System.answered] at hs
        cases hs
        exact ⟨h.idle c, fun x hx => by cases hx⟩
      | some version =>
        obtain ⟨hfree, hneed⟩ := hok (.get tol) map version hc hv
        obtain ⟨hk, hw, ht⟩ := getAnswered_kept h map version a hv tol closed unavailable clock
          hfree (hneed (by simp)) rfl
        cases hs
        refine ⟨hk.call c _ fun b k f hp => ?_, fun x hx => ?_⟩
        · unfold Outcome.phase at hp
          split at hp
          · rename_i f' hf'
            cases hp
            rw [hv]
            exact hw f hf'
          · cases hp
        · unfold Outcome.return at hx
          split at hx
          · rename_i g v hgv
            cases hx
            exact ht g v hgv
          · cases hx
    · rename_i map hc
      cases hv : a.version with
      | none =>
        simp only [warmAnswered, hv, System.answered] at hs
        cases hs
        exact ⟨h.idle c, fun x hx => by cases hx⟩
      | some version =>
        obtain ⟨hfree, -⟩ := hok .warm map version hc hv
        have hk := warmAnswered_kept h map version a hv closed (clock 0) hfree rfl
        cases hs
        refine ⟨hk.call c _ fun b k f hp => ?_, fun x hx => by cases hx⟩
        unfold Outcome.phase at hp
        split at hp
        · cases hp
        · cases hp
    · cases hs
  | resolve f result =>
    simp only [step] at hs
    split_ifs at hs
    cases hs
    exact ⟨{ h with }, fun x hx => by cases hx⟩
  | callback f now =>
    simp only [step] at hs
    split at hs
    · cases hs
      exact ⟨done_kept h _ f _ now, fun x hx => by cases hx⟩
    · cases hs
  | resume c =>
    simp only [step] at hs
    split at hs
    · rename_i b key f hc
      split at hs
      · rename_i nbytes hres
        cases hs
        have hk : Kept { s with tables := getLoaded s.tables key } :=
          h.change rfl h.graphs h.loading h.cursors h.held
        refine ⟨hk.idle c, fun x hx => ?_⟩
        cases hx
        have hcur : Current s f key := h.awaited c b key f hc
        refine (hk.idle c).truthful (hcur.change rfl) (h.held key (.inr (.inr ⟨c, b, f, hc⟩))) ?_
        exact (Dict.get_set s.tables.served key.1 key.1 key.2).trans (if_pos rfl)
      · cases hs
        exact ⟨h.idle c, fun x hx => by cases hx⟩
      · cases hs
    · split_ifs at hs
      cases hs
      exact ⟨h.idle c, fun x hx => by cases hx⟩
    · cases hs
  | abandon c =>
    simp only [step] at hs
    cases hs
    exact ⟨h.idle c, fun x hx => by cases hx⟩

lemma kept_init : Kept .init := by
  refine ⟨fun _ _ => rfl, ?_, ?_, ?_, ?_, ?_⟩
  · intro k g hg
    cases hg
  · intro k f hf
    cases hf
  · intro c b k f hc
    cases hc
  · intro k c hc
    cases hc
  · rintro k (hk | hk | ⟨c, b, f, hc⟩)
    · cases hk
    · cases hk
    · cases hc

lemma reached_kept (h : Reached cfg (Steady cfg) s) : Kept s := by
  induction h with
  | init => exact kept_init
  | step _ hok hs ih => exact (step_kept ih hok hs).1

/-- The cache is within its bounds in every reachable state, and in every run of steady steps each
`get` returns a graph of the history its map is known by, with the cursor of that version. -/
theorem cache_keeps_histories (cfg : Config) :
    (∀ s, Reached cfg (fun _ _ => True) s → Bounded cfg s.tables) ∧
      ∀ s l s' x, Reached cfg (Steady cfg) s → Steady cfg s l → step cfg s l = some (s', some x) →
        Truthful s' x :=
  ⟨fun _ h => reached_bounded h, fun _ _ _ x h hok hs =>
    (step_kept (reached_kept h) hok hs).2 x rfl⟩

def sampleConfig : Config := ⟨4, 2, 0, 0, 5000, 300000⟩

def versionOne (c : Nat) (epoch : Char) : Label :=
  .answer c ⟨some 1, some [epoch], none, some (7, ['k'])⟩ (fun _ => 0) false fun _ => false

def after (labels : List Label) : System :=
  labels.foldl (fun s l => ((step sampleConfig s l).map Prod.fst).getD s) .init

lemma reached_after {labels : List Label} (l : Label)
    (h : Reached sampleConfig ok (after labels)) (hok : ok (after labels) l)
    (hs : (step sampleConfig (after labels) l).isSome) :
    Reached sampleConfig ok (after (labels ++ [l])) := by
  obtain ⟨⟨s', r⟩, hs⟩ := isSome_iff_exists.mp hs
  have hafter : after (labels ++ [l]) = s' := by
    unfold after at *
    rw [foldl_append, foldl_cons, foldl_nil, hs]
    rfl
  rw [hafter]
  exact .step h hok hs

/-- A cold load that the call waits for. -/
theorem cache_keeps_histories_loaded :
    ∃ s s', step sampleConfig s (.resume 0) = some (s', some ⟨['m'], ⟨0, none⟩, 1⟩) ∧
      Truthful s' ⟨['m'], ⟨0, none⟩, 1⟩ := by
  have hstart : Reached sampleConfig (Steady sampleConfig)
      (after ([] ++ [.start 0 (.get false) ['m']])) :=
    reached_after _ .init (by trivial) rfl
  have hasked : Reached sampleConfig (Steady sampleConfig)
      (after ([] ++ [.start 0 (.get false) ['m']] ++ [versionOne 0 'a'])) := by
    refine reached_after _ hstart (fun call map version hc hv => ?_) rfl
    cases hc
    cases hv
    exact ⟨fun hd => absurd hd (by decide), fun _ hfull => absurd hfull (by decide)⟩
  have hloaded := reached_after (.resolve 0 (.loaded none)) hasked (by trivial) rfl
  have hresume : step sampleConfig (after ([] ++ [.start 0 (.get false) ['m']] ++
      [versionOne 0 'a'] ++ [.resolve 0 (.loaded none)])) (.resume 0) =
      some (_, some ⟨['m'], ⟨0, none⟩, 1⟩) := rfl
  exact ⟨_, _, hresume, (cache_keeps_histories sampleConfig).2 _ _ _ _ hloaded (by trivial)
    hresume⟩

/-- While one `get` waits for its load another one sees a new history of the map; the first then
returns the graph of the old one. -/
theorem dropped_history_returned :
    ∃ s s' x, Reached sampleConfig (fun _ _ => True) s ∧
      step sampleConfig s (.resume 0) = some (s', some x) ∧ ¬ Truthful s' x := by
  refine ⟨after ([] ++ [.start 0 (.get false) ['m']] ++ [versionOne 0 'a'] ++
    [.start 1 (.get false) ['m']] ++ [versionOne 1 'b'] ++ [.resolve 0 (.loaded none)]), _,
    ⟨['m'], ⟨0, none⟩, 1⟩, ?_, rfl, ?_⟩
  · exact reached_after _ (reached_after _ (reached_after _ (reached_after _ (reached_after _ .init
      trivial rfl) trivial rfl) trivial rfl) trivial rfl) trivial rfl
  · rintro ⟨⟨o, ho, -, ht, -⟩, -⟩
    cases ho
    cases ht

end CloudServer.GraphHistory
