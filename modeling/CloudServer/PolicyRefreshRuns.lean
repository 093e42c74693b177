import CloudServer.PolicyRefresh

/-! The policy's sources converge to the database's, if a notification that changes nothing in the
cached sources says what a snapshot on its way says, and a robot's deletion and assignments are
delivered in the order of their changes. -/
namespace CloudServer.PolicyRefresh

open Steps List Option Function

variable {R S L V : Type} [DecidableEq R] [DecidableEq S] [DecidableEq L]

/-- The sources give the same values. -/
structure PolicySources.Agree (X Y : PolicySources R S L) : Prop where
  robots : ∀ robot, (X.robot_levels robot).join = (Y.robot_levels robot).join
  sites : ∀ site, (X.site_levels site).join = (Y.site_levels site).join
  robot_sites : ∀ robot, (X.robot_sites robot).join = (Y.robot_sites robot).join
  settings : X.global_level = Y.global_level

variable {X Y : PolicySources R S L}

omit [DecidableEq R] [DecidableEq S] [DecidableEq L] in
lemma PolicySources.Agree.inherited_level (h : X.Agree Y)
    (parse_level : L → Option V) (DEFAULT_LEVEL : V) (robot_name : Option R)
    (mission_level next_run_level : Option L) :
    inherited_level parse_level DEFAULT_LEVEL X robot_name mission_level next_run_level =
      inherited_level parse_level DEFAULT_LEVEL Y robot_name mission_level next_run_level := by
  cases robot_name with
  | none => simp only [PolicyRefresh.inherited_level, h.settings]
  | some robot =>
    have hsite : (fun site => (X.site_levels site).join) = fun site => (Y.site_levels site).join :=
      funext h.sites
    simp only [PolicyRefresh.inherited_level, h.settings, h.robots, h.robot_sites, hsite]

/-- The code's `changed`: the delivery does not say what the sources have. -/
def Delivery.changed : Delivery R S L → PolicySources R S L → Bool
  | .robot name none, src => (src.robot_levels name).isSome || (src.robot_sites name).isSome
  | .robot name (some value), src => src.robot_levels name ≠ some value
  | .site name none, src => (src.site_levels name).isSome
  | .site name (some value), src => src.site_levels name ≠ some value
  | .settings row, src => src.global_level ≠ row.join
  | .assignment robot_name site_id, src => src.robot_sites robot_name ≠ some site_id

def Delivery.Reads : Delivery R S L → PolicySources R S L → Prop
  | .robot name row, src => (src.robot_levels name).join = row.join ∧
      (row = none → (src.robot_sites name).join = none)
  | .site name row, src => (src.site_levels name).join = row.join
  | .settings row, src => src.global_level = row.join
  | .assignment robot_name site_id, src => (src.robot_sites robot_name).join = site_id

def World.deletions (W : World R S L) (name : R) : List (Note L) :=
  (W.robots name).filter fun n => n.deleted

/-- A robot's deletion and its assignments are delivered in the order of their changes. -/
def World.InOrder (W : World R S L) : Kind R S → Prop
  | .robot name => ∀ n, (W.robots name).head? = some n → n.deleted = true →
      ∀ a ∈ W.assignments name, n.number < a.1
  | .assignment name => ∀ a, (W.assignments name).head? = some a →
      ∀ n ∈ W.deletions name, a.1 < n.number
  | _ => True

/-- A delivery that changes nothing in the cached sources says what the snapshot says that a
refresh on its way has read; and it is in order. -/
def Noticed (W : World R S L) : Act R S L → Prop
  | .deliver kind i => W.InOrder kind ∧ ∀ d W', W.take i kind = some (d, W') →
      ∀ generation sources, W.load = some (generation, some sources) →
        d.changed W.policy.sources = false → d.Reads sources
  | _ => True

section
variable {W W' : World R S L} {d : Delivery R S L} {P : RecordingPolicy R S L}

omit [DecidableEq R] [DecidableEq S] [DecidableEq L] in
@[simp]
lemma set_sources (changed : Bool) (src : PolicySources R S L) : (set changed src P).sources = src := rfl

lemma apply_generation : (d.apply P).generation =
    if d.changed P.sources then P.generation + 1 else P.generation := by
  cases d with
  | robot name row | site name row =>
    cases row with
    | none => rfl
    | some value => rfl
  | settings row => rfl
  | assignment robot_name site_id => rfl

lemma apply_stale : (d.apply P).stale = P.stale := by
  cases d with
  | robot name row | site name row =>
    cases row with
    | none => rfl
    | some value => rfl
  | settings row => rfl
  | assignment robot_name site_id => rfl

lemma apply_reads : d.Reads (d.apply P).sources := by
  cases d with
  | robot name row =>
    cases row with
    | none => simp [Delivery.Reads, Delivery.apply, apply_robot_object, forget_robot]
    | some value => simp [Delivery.Reads, Delivery.apply, apply_robot_object, set_robot_level]
  | site name row =>
    cases row with
    | none => simp [Delivery.Reads, Delivery.apply, apply_site_object, forget_site]
    | some value => simp [Delivery.Reads, Delivery.apply, apply_site_object, set_site_level]
  | settings row => simp [Delivery.Reads, Delivery.apply, apply_settings_object, set_global_level]
  | assignment robot_name site_id => simp [Delivery.Reads, Delivery.apply, set_robot_site]

structure Delivery.Same (d : Delivery R S L) (X Y : PolicySources R S L) : Prop where
  robots : ∀ robot, (∀ row, d ≠ .robot robot row) → X.robot_levels robot = Y.robot_levels robot
  sites : ∀ site, (∀ row, d ≠ .site site row) → X.site_levels site = Y.site_levels site
  settings : (∀ row, d ≠ .settings row) → X.global_level = Y.global_level
  robot_sites : ∀ robot, (∀ site_id, d ≠ .assignment robot site_id) → d ≠ .robot robot none →
    X.robot_sites robot = Y.robot_sites robot

omit [DecidableEq R] [DecidableEq S] [DecidableEq L] in
lemma Delivery.Same.refl (d : Delivery R S L) (X : PolicySources R S L) : d.Same X X :=
  ⟨fun _ _ => rfl, fun _ _ => rfl, fun _ => rfl, fun _ _ _ => rfl⟩

lemma apply_same : d.Same P.sources (d.apply P).sources := by
  cases d with
  | robot name row =>
    have hne : ∀ robot, (∀ row', Delivery.robot (S := S) name row ≠ .robot robot row') →
        robot ≠ name := by
      rintro robot h rfl
      exact h row rfl
    cases row with
    | none =>
      refine ⟨fun robot h => ?_, fun _ _ => rfl, fun _ => rfl, fun robot _ h => ?_⟩
      · exact (update_of_ne (hne robot h) _ _).symm
      · have hn : robot ≠ name := by
          rintro rfl
          exact h rfl
        exact (update_of_ne hn _ _).symm
    | some value =>
      exact ⟨fun robot h => (update_of_ne (hne robot h) _ _).symm, fun _ _ => rfl, fun _ => rfl, fun _ _ _ => rfl⟩
  | site name row =>
    have hne : ∀ site, (∀ row', Delivery.site (R := R) name row ≠ .site site row') →
        site ≠ name := by
      rintro site h rfl
      exact h row rfl
    cases row with
    | none =>
      exact ⟨fun _ _ => rfl, fun site h => (update_of_ne (hne site h) _ _).symm, fun _ => rfl, fun _ _ _ => rfl⟩
    | some value =>
      exact ⟨fun _ _ => rfl, fun site h => (update_of_ne (hne site h) _ _).symm, fun _ => rfl, fun _ _ _ => rfl⟩
  | settings row =>
    exact ⟨fun _ _ => rfl, fun _ _ => rfl, fun h => absurd rfl (h row), fun _ _ _ => rfl⟩
  | assignment robot_name site_id =>
    refine ⟨fun _ _ => rfl, fun _ _ => rfl, fun _ => rfl, fun robot h _ => ?_⟩
    have hn : robot ≠ robot_name := by
      rintro rfl
      exact h site_id rfl
    exact (update_of_ne hn _ _).symm

/-! ### Notifications -/

/-- A notification that may read a deleted row is a deletion's, or one of a deletion follows. -/
def Backed : List (Note L) → Prop
  | [] => True
  | n :: rest => (none ∈ n.rows → n.deleted = true ∨ ∃ m ∈ rest, m.deleted = true) ∧ Backed rest

structure NotesKept (row : Row L) (changes : ℕ) (notes : List (Note L)) : Prop where
  last : ∀ n, notes.getLast? = some n → n.deleted = row.isNone ∧ n.rows = [row]
  backed : Backed notes
  bound : ∀ n ∈ notes, n.number < changes

variable {i : ℕ} {row : Row L} {notes : List (Note L)} {kind : Kind R S}

section
variable {changes : ℕ} {old r : Row L}

omit [DecidableEq L]

lemma NotesKept.later (h : NotesKept row changes notes) : NotesKept row (changes + 1) notes :=
  ⟨h.last, h.backed, fun n hn => (h.bound n hn).trans (Nat.lt_succ_self changes)⟩

variable {n : Note L} {rest : List (Note L)}

lemma NotesKept.tail (h : NotesKept row changes (n :: rest)) : NotesKept row changes rest := by
  refine ⟨fun m hm => h.last m ?_, h.backed.2, fun m hm => h.bound m (.tail _ hm)⟩
  rw [List.getLast?_cons, hm]
  rfl

lemma backed_notify (h : Backed notes) (number : ℕ) (row : Row L) :
    Backed (notify number row notes) := by
  unfold notify
  induction notes with
  | nil =>
    refine ⟨fun hmem => .inl ?_, trivial⟩
    rw [← mem_singleton.mp hmem]
    rfl
  | cons n rest ih =>
    refine ⟨fun hmem => ?_, ih h.2⟩
    rcases mem_append.mp hmem with hmem | hmem
    · rcases h.1 hmem with hn | ⟨m, hm, hdel⟩
      · exact .inl hn
      · exact .inr ⟨_, mem_append_left _ (mem_map_of_mem hm), hdel⟩
    · refine .inr ⟨_, mem_append_right _ mem_cons_self, ?_⟩
      rw [← mem_singleton.mp hmem]
      rfl

lemma NotesKept.notify
    (h : NotesKept old changes notes) : NotesKept row (changes + 1) (notify changes row notes) := by
  refine ⟨fun n hn => ?_, backed_notify h.backed changes row, fun n hn => ?_⟩
  · unfold PolicyRefresh.notify at hn
    rw [List.getLast?_append] at hn
    cases hn
    exact ⟨rfl, rfl⟩
  · rcases mem_append.mp hn with hn | hn
    · obtain ⟨m, hm, rfl⟩ := mem_map.mp hn
      exact (h.bound m hm).trans (Nat.lt_succ_self changes)
    · rw [mem_singleton.mp hn]
      exact Nat.lt_succ_self changes

lemma NotesKept.read_last
    (h : NotesKept row changes [n]) (hread : n.read i = some r) : r = row := by
  obtain ⟨hdel, hrows⟩ := h.last n rfl
  obtain ⟨r', hr', rfl⟩ := map_eq_some_iff.mp hread
  rw [hrows] at hr'
  obtain ⟨-, rfl⟩ := List.getElem?_eq_some_iff.mp hr'
  rw [hdel]
  cases row with
  | none => simp
  | some value => simp

lemma NotesKept.read_none (h : NotesKept row changes (n :: rest)) (hread : n.read i = some none) :
    n.deleted = true ∨ ∃ m ∈ rest, m.deleted = true := by
  obtain ⟨r, hr, heq⟩ := map_eq_some_iff.mp hread
  by_cases hdel : n.deleted = true
  · exact .inl hdel
  · rw [if_neg hdel] at heq
    subst heq
    exact h.backed.1 (mem_of_getElem? hr)

lemma read_deleted {value : Option L} (hread : n.read i = some (some value)) :
    n.deleted = false := by
  obtain ⟨r, -, heq⟩ := map_eq_some_iff.mp hread
  cases hdel : n.deleted with
  | false => rfl
  | true =>
    rw [if_pos hdel] at heq
    cases heq

end

/-- What holds of a robot's assignment: of its deletions and assignments on their way, the one of
the last change says what the database has. -/
structure SiteKept (W : World R S L) (name : R) : Prop where
  last : ∀ a, (W.assignments name).getLast? = some a →
    (∀ n ∈ W.deletions name, n.number < a.1) → a.2 = W.db.assignments name
  deleted : ∀ n ∈ W.deletions name, (∀ a ∈ W.assignments name, a.1 < n.number) →
    W.db.assignments name = none
  bound : ∀ a ∈ W.assignments name, a.1 < W.changes

structure World.Kept (W : World R S L) : Prop where
  robots : ∀ name, NotesKept (W.db.robots name) W.changes (W.robots name)
  sites : ∀ name, NotesKept (W.db.sites name) W.changes (W.sites name)
  settings : NotesKept W.db.settings W.changes W.settings
  assignments : ∀ name, SiteKept W name

/-- Where no notification is on its way, the sources say what the database has. -/
structure Follows (X : PolicySources R S L) (W : World R S L) : Prop where
  robots : ∀ name, W.robots name = [] → (X.robot_levels name).join = (W.db.robots name).join
  sites : ∀ name, W.sites name = [] → (X.site_levels name).join = (W.db.sites name).join
  settings : W.settings = [] → X.global_level = W.db.settings.join
  robot_sites : ∀ name, W.assignments name = [] → W.deletions name = [] →
    (X.robot_sites name).join = W.db.assignments name

/-! ### Deliveries -/

/-- What `take` delivers of the oldest notification of an object, and what is left on its way. -/
inductive World.Takes (W : World R S L) (i : ℕ) : Kind R S → Delivery R S L → World R S L → Prop
  | robot {name : R} {n : Note L} {rest : List (Note L)} {row : Row L}
      (hnotes : W.robots name = n :: rest) (hread : n.read i = some row) :
      Takes W i (.robot name) (.robot name row) { W with robots := update W.robots name rest }
  | site {name : S} {n : Note L} {rest : List (Note L)} {row : Row L}
      (hnotes : W.sites name = n :: rest) (hread : n.read i = some row) :
      Takes W i (.site name) (.site name row) { W with sites := update W.sites name rest }
  | settings {n : Note L} {rest : List (Note L)} {row : Row L}
      (hnotes : W.settings = n :: rest) (hread : n.read i = some row) :
      Takes W i .settings (.settings row) { W with settings := rest }
  | assignment {name : R} {a : ℕ × Option S} {rest : List (ℕ × Option S)}
      (hassigned : W.assignments name = a :: rest) :
      Takes W i (.assignment name) (.assignment name a.2)
        { W with assignments := update W.assignments name rest }

section
omit [DecidableEq L]

lemma take_cases (ht : W.take i kind = some (d, W')) : W.Takes i kind d W' := by
  cases kind with
  | robot name =>
    simp only [World.take] at ht
    split at ht
    · rename_i n rest hnotes
      obtain ⟨row, hread, heq⟩ := map_eq_some_iff.mp ht
      cases heq
      exact .robot hnotes hread
    · cases ht
  | site name =>
    simp only [World.take] at ht
    split at ht
    · rename_i n rest hnotes
      obtain ⟨row, hread, heq⟩ := map_eq_some_iff.mp ht
      cases heq
      exact .site hnotes hread
    · cases ht
  | settings =>
    simp only [World.take] at ht
    split at ht
    · rename_i n rest hnotes
      obtain ⟨row, hread, heq⟩ := map_eq_some_iff.mp ht
      cases heq
      exact .settings hnotes hread
    · cases ht
  | assignment name =>
    simp only [World.take] at ht
    split at ht
    · rename_i a rest hassigned
      cases ht
      exact .assignment hassigned
    · cases ht

lemma take_follows (hk : W.Kept)
    (ht : W.take i kind = some (d, W')) (hX : Follows X W) (hreads : d.Reads Y)
    (hsame : d.Same X Y) : Follows Y W' := by
  cases take_cases ht with
  | @robot name n rest row hnotes hread =>
    have hkept := hk.robots name
    rw [hnotes] at hkept
    refine ⟨fun name' hnil => ?_, fun site hnil => ?_, fun hnil => ?_, fun name' ha hnil => ?_⟩
    · by_cases hname : name' = name
      · subst hname
        have hrest : rest = [] := by simpa using hnil
        rw [hrest] at hkept
        rw [← hkept.read_last hread]
        exact hreads.1
      · rw [← hsame.robots name' (by rintro row' ⟨⟩; exact hname rfl)]
        exact hX.robots name' (by simpa [hname] using hnil)
    · rw [← hsame.sites site nofun]
      exact hX.sites site hnil
    · rw [← hsame.settings nofun]
      exact hX.settings hnil
    · by_cases hname : name' = name
      · subst hname
        have hrest : ∀ m ∈ rest, m.deleted = false := by
          simpa [World.deletions] using hnil
        cases row with
        | none =>
          rw [hreads.2 rfl]
          rcases hkept.read_none hread with hdel | ⟨m, hm, hdel⟩
          · refine ((hk.assignments name').deleted n ?_ fun a hmem => ?_).symm
            · unfold World.deletions
              rw [hnotes]
              exact mem_filter.mpr ⟨mem_cons_self, hdel⟩
            · rw [show W.assignments name' = [] from ha] at hmem
              cases hmem
          · rw [hrest m hm] at hdel
            cases hdel
        | some value =>
          rw [← hsame.robot_sites name' nofun (by rintro ⟨⟩)]
          refine hX.robot_sites name' ha ?_
          unfold World.deletions
          rw [hnotes, filter_cons_of_neg (by simp [read_deleted hread])]
          exact filter_eq_nil_iff.mpr fun m hm => by simp [hrest m hm]
      · rw [← hsame.robot_sites name' nofun (by rintro ⟨⟩; exact hname rfl)]
        exact hX.robot_sites name' ha (by simpa [World.deletions, hname] using hnil)
  | @site name n rest row hnotes hread =>
    have hkept := hk.sites name
    rw [hnotes] at hkept
    refine ⟨fun robot hnil => ?_, fun name' hnil => ?_, fun hnil => ?_, fun robot ha hnil => ?_⟩
    · rw [← hsame.robots robot nofun]
      exact hX.robots robot hnil
    · by_cases hname : name' = name
      · subst hname
        have hrest : rest = [] := by simpa using hnil
        rw [hrest] at hkept
        rw [← hkept.read_last hread]
        exact hreads
      · rw [← hsame.sites name' (by rintro row' ⟨⟩; exact hname rfl)]
        exact hX.sites name' (by simpa [hname] using hnil)
    · rw [← hsame.settings nofun]
      exact hX.settings hnil
    · rw [← hsame.robot_sites robot nofun nofun]
      exact hX.robot_sites robot ha hnil
  | @settings n rest row hnotes hread =>
    have hkept := hk.settings
    rw [hnotes] at hkept
    refine ⟨fun robot hnil => ?_, fun site hnil => ?_, fun hnil => ?_, fun robot ha hnil => ?_⟩
    · rw [← hsame.robots robot nofun]
      exact hX.robots robot hnil
    · rw [← hsame.sites site nofun]
      exact hX.sites site hnil
    · have hrest : rest = [] := hnil
      rw [hrest] at hkept
      rw [← hkept.read_last hread]
      exact hreads
    · rw [← hsame.robot_sites robot nofun nofun]
      exact hX.robot_sites robot ha hnil
  | @assignment name a rest hassigned =>
    refine ⟨fun robot hnil => ?_, fun site hnil => ?_, fun hnil => ?_, fun name' ha hnil => ?_⟩
    · rw [← hsame.robots robot nofun]
      exact hX.robots robot hnil
    · rw [← hsame.sites site nofun]
      exact hX.sites site hnil
    · rw [← hsame.settings nofun]
      exact hX.settings hnil
    · by_cases hname : name' = name
      · subst hname
        have hrest : rest = [] := by simpa using ha
        have hdel : W.deletions name' = [] := hnil
        have hlast := (hk.assignments name').last a (by rw [hassigned, hrest]; rfl)
          fun n hn => by rw [hdel] at hn; cases hn
        exact Eq.trans hreads hlast
      · rw [← hsame.robot_sites name' (by rintro site_id ⟨⟩; exact hname rfl) nofun]
        exact hX.robot_sites name' (by simpa [hname] using ha) hnil

lemma take_kept (hk : W.Kept) (hin : W.InOrder kind)
    (ht : W.take i kind = some (d, W')) : W'.Kept := by
  cases take_cases ht with
  | @robot name n rest row hnotes hread =>
    have hkept := hk.robots name
    rw [hnotes] at hkept
    refine ⟨(forall_update_iff _ fun name' => NotesKept (W.db.robots name') W.changes).mpr
      ⟨hkept.tail, fun name' _ => hk.robots name'⟩, hk.sites, hk.settings, fun name' => ?_⟩
    have hold := hk.assignments name'
    by_cases hname : name' = name
    · subst hname
      have hdel : W.deletions name' = if n.deleted then n :: rest.filter (fun m => m.deleted)
          else rest.filter (fun m => m.deleted) := by
        unfold World.deletions
        rw [hnotes, filter_cons]
      have hsub : ∀ m ∈ rest.filter (fun m => m.deleted), m ∈ W.deletions name' := by
        intro m hm
        rw [hdel]
        split
        · exact .tail _ hm
        · exact hm
      refine ⟨fun a ha hall => ?_, fun m hm => ?_, hold.bound⟩
      · refine hold.last a ha fun m hm => ?_
        rw [hdel] at hm
        by_cases hd : n.deleted = true
        · rw [if_pos hd] at hm
          rcases mem_cons.mp hm with rfl | hm
          · exact hin m (by rw [hnotes]; rfl) hd a (mem_of_getLast? ha)
          · exact hall m (by simpa [World.deletions] using hm)
        · rw [if_neg hd] at hm
          exact hall m (by simpa [World.deletions] using hm)
      · exact hold.deleted m (hsub m (by simpa [World.deletions] using hm))
    · have hdel : World.deletions { W with robots := update W.robots name rest } name' =
          W.deletions name' := by
        simp [World.deletions, hname]
      refine ⟨fun a ha => ?_, fun m => ?_, hold.bound⟩
      · rw [hdel]
        exact hold.last a ha
      · rw [hdel]
        exact hold.deleted m
  | @site name n rest row hnotes hread =>
    have hkept := hk.sites name
    rw [hnotes] at hkept
    exact ⟨hk.robots, (forall_update_iff _ fun name' => NotesKept (W.db.sites name') W.changes).mpr
      ⟨hkept.tail, fun name' _ => hk.sites name'⟩, hk.settings, fun robot =>
      { hk.assignments robot with }⟩
  | @settings n rest row hnotes hread =>
    have hkept := hk.settings
    rw [hnotes] at hkept
    exact ⟨hk.robots, hk.sites, hkept.tail, fun robot =>
      { hk.assignments robot with }⟩
  | @assignment name a rest hassigned =>
    refine ⟨hk.robots, hk.sites, hk.settings, fun name' => ?_⟩
    have hold := hk.assignments name'
    by_cases hname : name' = name
    · subst hname
      refine ⟨fun b hb => ?_, fun m hm hall => ?_, fun b hb => ?_⟩
      · have hb : rest.getLast? = some b := by simpa using hb
        refine hold.last b ?_
        rw [hassigned, List.getLast?_cons, hb]
        rfl
      · refine hold.deleted m hm fun b hb => ?_
        rw [hassigned] at hb
        rcases mem_cons.mp hb with rfl | hb
        · exact hin b (by rw [hassigned]; rfl) m hm
        · exact hall b (by simpa using hb)
      · have hb : b ∈ rest := by simpa using hb
        refine hold.bound b ?_
        rw [hassigned]
        exact .tail _ hb
    · refine ⟨fun b hb => hold.last b (by simpa [hname] using hb), fun m hm hall =>
        hold.deleted m hm fun b hb => hall b (by simpa [hname] using hb), fun b hb =>
        hold.bound b (by simpa [hname] using hb)⟩

lemma take_policy (ht : W.take i kind = some (d, W')) :
    W'.policy = W.policy ∧ W'.load = W.load := by
  cases take_cases ht <;> exact ⟨rfl, rfl⟩

end

/-! ### Changes of the database -/

section
variable {α : Type} [DecidableEq α] {rows levels : α → Row L} {sent : α → List (Note L)}
omit [DecidableEq L]

lemma notify_ne_nil (number : ℕ) (row : Row L) (notes : List (Note L)) :
    notify number row notes ≠ [] := by
  simp [notify]

lemma kept_notify {changes : ℕ} (h : ∀ name, NotesKept (rows name) changes (sent name)) (name : α)
    (row : Row L) (name' : α) : NotesKept (update rows name row name') (changes + 1)
      (update sent name (notify changes row (sent name)) name') := by
  by_cases hname : name' = name
  · subst hname
    simpa using (h name').notify
  · simpa [hname] using (h name').later

lemma follows_notify (h : ∀ name, sent name = [] → (levels name).join = (rows name).join)
    (number : ℕ) (name : α) (row : Row L) (name' : α)
    (hnil : update sent name (notify number row (sent name)) name' = []) :
    (levels name').join = (update rows name row name').join := by
  by_cases hname : name' = name
  · subst hname
    exact absurd (by simpa using hnil) (notify_ne_nil _ _ _)
  · simpa [hname] using h name' (by simpa [hname] using hnil)

lemma mem_deleted_notify {number : ℕ} {k : ℕ} :
    (∃ m ∈ (notify number row notes).filter fun n => n.deleted, m.number = k) ↔
      (∃ n ∈ notes.filter fun n => n.deleted, n.number = k) ∨ (row = none ∧ k = number) := by
  unfold notify
  constructor
  · rintro ⟨m, hm, rfl⟩
    obtain ⟨hm, hdel⟩ := mem_filter.mp hm
    rcases mem_append.mp hm with hm | hm
    · obtain ⟨n, hn, rfl⟩ := mem_map.mp hm
      exact .inl ⟨n, mem_filter.mpr ⟨hn, hdel⟩, rfl⟩
    · obtain rfl := mem_singleton.mp hm
      exact .inr ⟨by simpa using hdel, rfl⟩
  · rintro (⟨n, hn, rfl⟩ | ⟨rfl, rfl⟩)
    · obtain ⟨hn, hdel⟩ := mem_filter.mp hn
      exact ⟨_, mem_filter.mpr ⟨mem_append_left _ (mem_map_of_mem hn), hdel⟩, rfl⟩
    · exact ⟨_, mem_filter.mpr ⟨mem_append_right _ mem_cons_self, rfl⟩, rfl⟩

end

structure Changes (W W' : World R S L) : Prop where
  kept : W.Kept → W'.Kept
  follows : ∀ X, Follows X W → Follows X W'
  policy : W'.policy = W.policy
  load : W'.load = W.load

section
omit [DecidableEq S] [DecidableEq L]

lemma set_robot_changes (W : World R S L) (name : R) (level : Option L) :
    Changes W { W with
      db := { W.db with robots := update W.db.robots name (some level) }
      changes := W.changes + 1
      robots := update W.robots name (notify W.changes (some level) (W.robots name)) } := by
  have hdel : ∀ name' k,
      (∃ m ∈ ({ W with
        db := { W.db with robots := update W.db.robots name (some level) }
        changes := W.changes + 1
        robots := update W.robots name (notify W.changes (some level) (W.robots name)) } :
        World R S L).deletions name', m.number = k) ↔ ∃ n ∈ W.deletions name', n.number = k := by
    intro name' k
    unfold World.deletions
    by_cases hname : name' = name
    · subst hname
      simp only [update_self]
      rw [mem_deleted_notify]
      simp
    · simp only [update_of_ne hname]
  refine ⟨fun hk => ⟨kept_notify hk.robots name _, fun site => (hk.sites site).later,
    hk.settings.later, fun name' => ⟨fun a ha hall => ?_, fun m hm hall => ?_, fun a ha =>
      ((hk.assignments name').bound a ha).trans (Nat.lt_succ_self _)⟩⟩,
    fun X hX => ⟨follows_notify hX.robots _ name _, hX.sites, hX.settings, fun name' ha hnil => ?_⟩,
    rfl, rfl⟩
  · refine (hk.assignments name').last a ha fun n hn => ?_
    obtain ⟨m, hm, heq⟩ := (hdel name' n.number).mpr ⟨n, hn, rfl⟩
    rw [← heq]
    exact hall m hm
  · obtain ⟨n, hn, heq⟩ := (hdel name' m.number).mp ⟨m, hm, rfl⟩
    refine (hk.assignments name').deleted n hn fun a ha => ?_
    rw [heq]
    exact hall a ha
  · refine hX.robot_sites name' ha (eq_nil_iff_forall_not_mem.mpr fun n hn => ?_)
    obtain ⟨m, hm, -⟩ := (hdel name' n.number).mpr ⟨n, hn, rfl⟩
    rw [hnil] at hm
    cases hm

lemma delete_robot_changes (W : World R S L) (name : R) :
    Changes W { W with
      db := { W.db with
        robots := update W.db.robots name none
        assignments := update W.db.assignments name none }
      changes := W.changes + 1
      robots := update W.robots name (notify W.changes none (W.robots name)) } := by
  have hother : ∀ name', name' ≠ name → ({ W with
      db := { W.db with
        robots := update W.db.robots name none
        assignments := update W.db.assignments name none }
      changes := W.changes + 1
      robots := update W.robots name (notify W.changes none (W.robots name)) } :
      World R S L).deletions name' = W.deletions name' := by
    intro name' hname
    simp [World.deletions, hname]
  have hself : ∃ m ∈ ({ W with
      db := { W.db with
        robots := update W.db.robots name none
        assignments := update W.db.assignments name none }
      changes := W.changes + 1
      robots := update W.robots name (notify W.changes none (W.robots name)) } :
      World R S L).deletions name, m.number = W.changes := by
    unfold World.deletions
    simp only [update_self]
    exact mem_deleted_notify.mpr (.inr ⟨rfl, rfl⟩)
  refine ⟨fun hk => ⟨kept_notify hk.robots name none, fun site => (hk.sites site).later,
    hk.settings.later, fun name' => ?_⟩, fun X hX => ⟨follows_notify hX.robots _ name none, hX.sites,
      hX.settings, fun name' ha hnil => ?_⟩, rfl, rfl⟩
  · have hold := hk.assignments name'
    have hbound : ∀ a ∈ W.assignments name', a.1 < W.changes + 1 := fun a ha =>
      (hold.bound a ha).trans (Nat.lt_succ_self _)
    by_cases hname : name' = name
    · subst hname
      refine ⟨fun a ha hall => ?_, fun m hm hall => ?_, hbound⟩
      · obtain ⟨m, hm, heq⟩ := hself
        have hlt := hall m hm
        have hle := hold.bound a (mem_of_getLast? ha)
        omega
      · simp
    · refine ⟨fun a ha hall => ?_, fun m hm hall => ?_, hbound⟩
      · simp only [update_of_ne hname]
        rw [hother name' hname] at hall
        exact hold.last a ha hall
      · simp only [update_of_ne hname]
        rw [hother name' hname] at hm
        exact hold.deleted m hm hall
  · by_cases hname : name' = name
    · subst hname
      obtain ⟨m, hm, -⟩ := hself
      rw [hnil] at hm
      cases hm
    · rw [hother name' hname] at hnil
      simpa [hname] using hX.robot_sites name' ha hnil

end

omit [DecidableEq R] [DecidableEq L] in
lemma set_site_changes (W : World R S L) (name : S) (row : Row L) :
    Changes W { W with
      db := { W.db with sites := update W.db.sites name row }
      changes := W.changes + 1
      sites := update W.sites name (notify W.changes row (W.sites name)) } :=
  ⟨fun hk => ⟨fun robot => (hk.robots robot).later, kept_notify hk.sites name row,
    hk.settings.later, fun robot => { hk.assignments robot with
      bound := fun a ha => ((hk.assignments robot).bound a ha).trans (Nat.lt_succ_self _) }⟩,
    fun _ hX => ⟨hX.robots, follows_notify hX.sites _ name row, hX.settings, hX.robot_sites⟩,
    rfl, rfl⟩

omit [DecidableEq R] [DecidableEq S] [DecidableEq L] in
lemma set_settings_changes (W : World R S L) (row : Row L) :
    Changes W { W with
      db := { W.db with settings := row }
      changes := W.changes + 1
      settings := notify W.changes row W.settings } := by
  refine ⟨fun hk => ⟨fun robot => (hk.robots robot).later, fun site => (hk.sites site).later,
    hk.settings.notify, fun robot => { hk.assignments robot with
      bound := fun a ha => ((hk.assignments robot).bound a ha).trans (Nat.lt_succ_self _) }⟩,
    fun X hX => ⟨hX.robots, hX.sites, fun hnil => ?_, hX.robot_sites⟩, rfl, rfl⟩
  exact absurd hnil (notify_ne_nil _ _ _)

omit [DecidableEq S] [DecidableEq L] in
lemma assign_changes (W : World R S L) (robot_name : R) (site_id : Option S) :
    Changes W { W with
      db := { W.db with assignments := update W.db.assignments robot_name site_id }
      changes := W.changes + 1
      assignments := update W.assignments robot_name
        (W.assignments robot_name ++ [(W.changes, site_id)]) } := by
  refine ⟨fun hk => ⟨fun robot => (hk.robots robot).later, fun site => (hk.sites site).later,
    hk.settings.later, fun robot => ?_⟩,
    fun X hX => ⟨hX.robots, hX.sites, hX.settings, fun robot ha hnil => ?_⟩, rfl, rfl⟩
  · have hold := hk.assignments robot
    by_cases hname : robot = robot_name
    · subst hname
      refine ⟨fun a ha _ => ?_, fun m hm hall => ?_, fun a ha => ?_⟩
      · simp only [update_self, List.getLast?_append] at ha ⊢
        cases ha
        rfl
      · have hlt := hall (W.changes, site_id) (by simp)
        have hbound := (hk.robots robot).bound m (mem_of_mem_filter hm)
        exact absurd hlt (Nat.lt_asymm hbound)
      · simp only [update_self] at ha
        rcases mem_append.mp ha with ha | ha
        · exact (hold.bound a ha).trans (Nat.lt_succ_self _)
        · rw [mem_singleton.mp ha]
          exact Nat.lt_succ_self _
    · refine ⟨fun a ha hall => ?_, fun m hm hall => ?_, fun a ha => ?_⟩
      · simp only [update_of_ne hname] at ha ⊢
        exact hold.last a ha hall
      · simp only [update_of_ne hname] at hall ⊢
        exact hold.deleted m hm hall
      · simp only [update_of_ne hname] at ha
        exact (hold.bound a ha).trans (Nat.lt_succ_self _)
  · by_cases hname : robot = robot_name
    · subst hname
      simp at ha
    · simpa [hname] using hX.robot_sites robot (by simpa [hname] using ha) hnil

/-! ### Runs -/

/-- The sources follow the database unless the policy is stale, and so does the snapshot of a refresh
that will not leave it stale. -/
structure Converging (W : World R S L) : Prop where
  kept : W.Kept
  fresh : W.policy.stale = false → Follows W.policy.sources W
  snapshot : ∀ sources, W.load = some (W.policy.generation, some sources) → Follows sources W
  started : ∀ generation sources, W.load = some (generation, sources) →
    generation ≤ W.policy.generation

section
omit [DecidableEq R] [DecidableEq S] [DecidableEq L]

lemma new_converging (db : Database R S L) : Converging (World.new db) := by
  refine ⟨⟨fun name => ⟨nofun, trivial, fun n hn => absurd hn not_mem_nil⟩,
    fun name => ⟨nofun, trivial, fun n hn => absurd hn not_mem_nil⟩,
    ⟨nofun, trivial, fun n hn => absurd hn not_mem_nil⟩,
    fun name => ⟨nofun, fun n hn => absurd hn not_mem_nil, fun a ha => absurd ha not_mem_nil⟩⟩, nofun, nofun, nofun⟩

lemma Changes.converging (hc : Changes W W') (h : Converging W) : Converging W' := by
  refine ⟨hc.kept h.kept, fun hstale => ?_, fun sources hload => ?_, fun generation sources hload => ?_⟩
  · rw [hc.policy] at hstale ⊢
    exact hc.follows _ (h.fresh hstale)
  · rw [hc.policy, hc.load] at hload
    exact hc.follows _ (h.snapshot sources hload)
  · rw [hc.load] at hload
    rw [hc.policy]
    exact h.started generation sources hload

end

section
omit [DecidableEq R] [DecidableEq S] [DecidableEq L]

lemma World.Kept.moved (h : W.Kept) (policy : RecordingPolicy R S L) (load : Option (ℕ × Option (PolicySources R S L))) :
    World.Kept { W with policy := policy, load := load } :=
  { h with assignments := fun name => { h.assignments name with } }

lemma Follows.moved (h : Follows X W) (policy : RecordingPolicy R S L)
    (load : Option (ℕ × Option (PolicySources R S L))) :
    Follows X { W with policy := policy, load := load } :=
  { h with }

end

lemma deliver_converging (h : Converging W)
    (hc : Noticed W (.deliver kind i)) (hstep : step W (.deliver kind i) = some W') :
    Converging W' := by
  obtain ⟨⟨d, U⟩, ht, rfl⟩ := map_eq_some_iff.mp hstep
  obtain ⟨hpolicy, hload⟩ := take_policy ht
  have hkept := take_kept h.kept hc.1 ht
  have hfollows : ∀ X Y : PolicySources R S L, Follows X W → d.Reads Y → d.Same X Y →
      Follows Y { U with policy := d.apply W.policy } := by
    intro X Y hX hreads hsame
    exact (take_follows h.kept ht hX hreads hsame).moved _ U.load
  refine ⟨hkept.moved _ U.load, fun hstale => ?_, fun sources hl => ?_, fun generation sources hl => ?_⟩
  · have hold : W.policy.stale = false := apply_stale.symm.trans hstale
    exact hfollows _ _ (h.fresh hold) apply_reads apply_same
  · have hl : W.load = some ((d.apply W.policy).generation, some sources) := hload.symm.trans hl
    rw [apply_generation] at hl
    cases hchanged : d.changed W.policy.sources with
    | true =>
      rw [hchanged, if_pos rfl] at hl
      exact absurd (h.started _ _ hl) (Nat.not_succ_le_self _)
    | false =>
      have hreads := hc.2 d U ht _ _ hl hchanged
      rw [hchanged, if_neg Bool.false_ne_true] at hl
      exact hfollows _ _ (h.snapshot sources hl) hreads (.refl d sources)
  · have hle := h.started generation sources (hload.symm.trans hl)
    change generation ≤ (d.apply W.policy).generation
    rw [apply_generation]
    split
    · exact hle.trans (Nat.le_succ _)
    · exact hle

omit [DecidableEq R] [DecidableEq S] [DecidableEq L] in
lemma load_follows (W : World R S L) : Follows (load_sources W.db) W := by
  refine ⟨fun _ _ => rfl, fun _ _ => rfl, fun _ => rfl, fun name _ _ => ?_⟩
  change ((W.db.assignments name).map some).join = W.db.assignments name
  cases W.db.assignments name with
  | none => rfl
  | some site => rfl

lemma step_converging {a : Act R S L} (hc : Noticed W a) (h : Converging W)
    (hstep : step W a = some W') : Converging W' := by
  cases a with
  | set_robot name level =>
    cases hstep
    exact (set_robot_changes W name level).converging h
  | delete_robot name =>
    cases hstep
    exact (delete_robot_changes W name).converging h
  | set_site name row =>
    cases hstep
    exact (set_site_changes W name row).converging h
  | set_settings row =>
    cases hstep
    exact (set_settings_changes W row).converging h
  | assign robot_name site_id =>
    cases hstep
    exact (assign_changes W robot_name site_id).converging h
  | deliver kind i => exact deliver_converging h hc hstep
  | invalidate =>
    cases hstep
    refine ⟨h.kept.moved _ W.load, nofun, fun sources hl => ?_, fun generation sources hl => ?_⟩
    · exact absurd (h.started _ _ hl) (Nat.not_succ_le_self _)
    · exact (h.started generation sources hl).trans (Nat.le_succ _)
  | refresh_start =>
    simp only [step] at hstep
    split at hstep
    · cases hstep
      refine ⟨h.kept.moved W.policy _, fun hstale => (h.fresh hstale).moved W.policy _, nofun,
        fun generation sources hl => ?_⟩
      obtain ⟨rfl, -⟩ := Prod.mk.inj (Option.some.inj hl)
      exact le_rfl
    · cases hstep
  | refresh_read =>
    simp only [step] at hstep
    split at hstep
    · rename_i generation hload
      cases hstep
      refine ⟨h.kept.moved W.policy _, fun hstale => (h.fresh hstale).moved W.policy _,
        fun sources hl => ?_, fun generation' sources hl => ?_⟩
      · obtain ⟨-, heq⟩ := Prod.mk.inj (Option.some.inj hl)
        cases heq
        exact (load_follows W).moved W.policy _
      · obtain ⟨rfl, -⟩ := Prod.mk.inj (Option.some.inj hl)
        exact h.started _ _ hload
    · cases hstep
  | refresh_end =>
    simp only [step] at hstep
    split at hstep
    · rename_i generation sources hload
      cases hstep
      refine ⟨h.kept.moved _ none, fun hstale => ?_, nofun, nofun⟩
      have heq : generation = W.policy.generation := by
        simpa [refresh_end] using hstale
      rw [heq] at hload
      exact (h.snapshot sources hload).moved _ none
    · cases hstep
  | refresh_fail =>
    cases hstep
    exact ⟨h.kept.moved W.policy none, fun hstale => (h.fresh hstale).moved W.policy none, nofun, nofun⟩

/-- With every notification delivered, no refresh running and the policy not stale, the policy's
sources are the database's, and so are the levels they give. -/
theorem policy_converges {db : Database R S L} (h : Runs step Noticed (World.new db) W)
    (hrobots : ∀ name, W.robots name = []) (hsites : ∀ name, W.sites name = [])
    (hsettings : W.settings = []) (hassignments : ∀ name, W.assignments name = [])
    (hstale : W.policy.stale = false) :
    W.policy.sources.Agree (load_sources W.db) ∧
      ∀ (V : Type) (parse_level : L → Option V) (DEFAULT_LEVEL : V) (robot_name : Option R)
        (mission_level next_run_level : Option L),
        inherited_level parse_level DEFAULT_LEVEL W.policy.sources robot_name mission_level
            next_run_level =
          inherited_level parse_level DEFAULT_LEVEL (load_sources W.db) robot_name mission_level
            next_run_level := by
  have hconv := h.invariant (new_converging db) fun _ _ _ hc hS hstep => step_converging hc hS hstep
  have hfollows := hconv.fresh hstale
  have hdb := load_follows W
  have hdel : ∀ name, W.deletions name = [] := by
    intro name
    unfold World.deletions
    rw [hrobots]
    rfl
  have hagree : W.policy.sources.Agree (load_sources W.db) := by
    refine ⟨fun name => ?_, fun name => ?_, fun name => ?_, ?_⟩
    · rw [hfollows.robots name (hrobots name), hdb.robots name (hrobots name)]
    · rw [hfollows.sites name (hsites name), hdb.sites name (hsites name)]
    · rw [hfollows.robot_sites name (hassignments name) (hdel name),
        hdb.robot_sites name (hassignments name) (hdel name)]
    · rw [hfollows.settings hsettings, hdb.settings hsettings]
  exact ⟨hagree, fun V => hagree.inherited_level⟩

end

/-! ### One robot -/

def oneRobot : Database Unit Unit Bool :=
  ⟨fun _ => some none, fun _ => some (some false), fun _ => some (), none⟩

/-- A notification arrives while no snapshot is on its way, one of the robot's row before its
assignment changes. -/
def early (W : World Unit Unit Bool) : Act Unit Unit Bool → Bool
  | .deliver (.robot name) _ => (W.load.bind Prod.snd).isNone && (W.assignments name).isEmpty
  | .deliver _ _ => false
  | _ => true

lemma early_noticed {W : World Unit Unit Bool} {a : Act Unit Unit Bool} (h : early W a = true) :
    Noticed W a := by
  cases a with
  | deliver kind i =>
    cases kind with
    | robot name =>
      obtain ⟨hload, hnil⟩ := Bool.and_eq_true_iff.mp h
      refine ⟨fun n _ _ a ha => ?_, fun d W' _ generation sources hl => ?_⟩
      · rw [isEmpty_iff.mp hnil] at ha
        cases ha
      · rw [hl] at hload
        cases hload
    | site name => cases h
    | settings => cases h
    | assignment name => cases h
  | _ => trivial

/-- The level of the robot is set while a refresh runs, which leaves the policy stale. -/
theorem policy_converges_again : ∃ W : World Unit Unit Bool,
    W.policy.generation = 1 ∧ W.policy.sources.robot_levels () = some (some true) ∧
      W.policy.sources.Agree (load_sources W.db) := by
  obtain ⟨W, hruns, hend⟩ := Runs.of_play_any (fun _ _ => early_noticed)
    (show (play step early (World.new oneRobot)
      [.refresh_start, .set_robot () (some true), .deliver (.robot ()) 0, .refresh_read,
        .refresh_end, .refresh_start, .refresh_read, .refresh_end]).any
      (fun W => ((∀ name, W.robots name = []) ∧ (∀ name, W.sites name = []) ∧ W.settings = [] ∧
        (∀ name, W.assignments name = []) ∧ W.policy.stale = false) ∧ W.policy.generation = 1 ∧
        W.policy.sources.robot_levels () = some (some true)) = true by decide)
  obtain ⟨⟨hrobots, hsites, hsettings, hassignments, hstale⟩, hgeneration, hlevel⟩ :=
    of_decide_eq_true hend
  exact ⟨W, hgeneration, hlevel,
    (policy_converges hruns hrobots hsites hsettings hassignments hstale).1⟩

def World.Settled (W : World Unit Unit Bool) : Prop :=
  (∀ name, W.robots name = []) ∧ (∀ name, W.sites name = []) ∧ W.settings = [] ∧
    (∀ name, W.assignments name = []) ∧ W.load.isNone ∧ W.policy.stale = false

instance (W : World Unit Unit Bool) : Decidable W.Settled := by
  unfold World.Settled
  infer_instance

/-- A level is set and unset again while a refresh that has read it runs; and a robot that is deleted
and assigned again is forgotten after its assignment is told. -/
theorem policy_diverges :
    (∃ W : World Unit Unit Bool, Runs step (fun _ _ => True) (World.new oneRobot) W ∧ W.Settled ∧
      ¬W.policy.sources.Agree (load_sources W.db)) ∧
    ∃ W : World Unit Unit Bool, Runs step (fun _ _ => True) (World.new oneRobot) W ∧ W.Settled ∧
      ¬W.policy.sources.Agree (load_sources W.db) := by
  constructor
  · obtain ⟨W, hruns, hend⟩ := Runs.of_play_any (fun _ _ _ => trivial)
      (show (play step (fun _ _ => true) (World.new oneRobot)
        [.refresh_start, .refresh_read, .refresh_end, .invalidate, .refresh_start,
          .set_robot () (some true), .refresh_read, .set_robot () none, .deliver (.robot ()) 1,
          .deliver (.robot ()) 0, .refresh_end]).any
        (fun W => W.Settled ∧ (W.policy.sources.robot_levels ()).join ≠ (W.db.robots ()).join) = true
        by decide)
    obtain ⟨hsettled, hne⟩ := of_decide_eq_true hend
    exact ⟨W, hruns, hsettled, fun h => hne (h.robots ())⟩
  · obtain ⟨W, hruns, hend⟩ := Runs.of_play_any (fun _ _ _ => trivial)
      (show (play step (fun _ _ => true) (World.new oneRobot)
        [.refresh_start, .refresh_read, .refresh_end, .delete_robot (), .set_robot () none,
          .assign () (some ()), .deliver (.assignment ()) 0, .deliver (.robot ()) 0,
          .deliver (.robot ()) 0]).any
        (fun W => W.Settled ∧ (W.policy.sources.robot_sites ()).join ≠
          ((load_sources W.db).robot_sites ()).join) = true by decide)
    obtain ⟨hsettled, hne⟩ := of_decide_eq_true hend
    exact ⟨W, hruns, hsettled, fun h => hne (h.robot_sites ())⟩

end CloudServer.PolicyRefresh
