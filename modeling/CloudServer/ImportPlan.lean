import CloudServer.Dict
import CloudServer.ImportNames

/-! The dry run of an import: what would become of each item of a bundle, and under which name. -/
namespace CloudServer.ImportPlan
open Scan ImportNames List Option

section Model

structure Source where
  instance_id : Option Text
  server_id : Option Text
  name : Option Text
  deriving DecidableEq

structure MapCounts where
  nodes : ℕ
  object_bytes : ℕ
  present_bytes : ℕ
  deriving DecidableEq

structure RunCounts where
  runs : ℕ
  legs : ℕ
  history : List ℕ
  map_ids : List Text
  deriving DecidableEq

structure BagCounts where
  present : Bool
  bytes : ℕ
  map_id : Option Text
  recorded_at : Option Text
  deriving DecidableEq

/-- An item of the manifest; `other` is one of a type this server does not know. -/
inductive Item where
  | map (name : Text) (parts : List Text) (counts : MapCounts)
  | runs (name : Text) (counts : RunCounts)
  | rosbag (robot bag_id : Text) (counts : BagCounts)
  | other (kind : Text)
  deriving DecidableEq

structure Manifest where
  source : Source
  created_at : Option Text
  items : List Item

/-- The bundle: its manifest, the problems found in it and whether it has a map's `map.json`. -/
structure BundleReader where
  manifest : Manifest
  verify : List Text
  has : Text → Bool

structure MapInfo where
  lifecycle : Option Text
  source : Option Text
  map : Option Text
  deriving DecidableEq

structure TargetInventory where
  maps : Dict Text MapInfo
  free_bytes : Option ℕ

inductive Action where
  | resume | create | rename
  deriving DecidableEq

structure MapPlan where
  source_name : Text
  target_name : Text
  action : Action
  reason : Text
  parts : List Text
  counts : MapCounts
  deriving DecidableEq

structure RunPlan where
  mission : Text
  counts : RunCounts
  deriving DecidableEq

structure BagPlan where
  robot : Text
  bag_id : Text
  have_it : Bool
  bytes : ℕ
  map_id : Option Text
  recorded_at : Option Text
  deriving DecidableEq

structure Draft where
  taken : List Text
  errors : List Text
  warnings : List Text
  maps : List MapPlan
  runs : List RunPlan
  rosbags : List BagPlan
  total_bytes : ℕ

structure Totals where
  maps : ℕ
  object_bytes : ℕ
  nodes : ℕ
  runs : ℕ
  legs : ℕ
  history_rows : ℕ
  rosbag_bytes : ℕ
  present_bytes : ℕ

structure Plan where
  ok : Bool
  errors : List Text
  warnings : List Text
  source : Source
  source_key : Text
  created_at : Option Text
  maps : List MapPlan
  runs : List RunPlan
  rosbags : List BagPlan
  map_renames : Dict Text Text
  totals : Totals

/-- What the language brings: `str.lower`, `repr`, and nine tenths of a number as a float. -/
structure Builtins where
  lower : Lower
  repr : Text → Text
  nine_tenths : ℕ → ℚ

def truthy (t : Option Text) : Option Text := t.filter fun t => t ≠ []

def source_key (src : Source) : Text :=
  ((truthy src.instance_id).or ((truthy src.server_id).or (truthy src.name))).getD "unknown-source".toList

def label (src : Source) : Text := (truthy src.name).getD (source_key src)

def SELF_COPY : Text :=
  ("This bundle comes from this server itself, and copying a server into itself does nothing useful. " ++
    "Connect the app to the server that should receive the maps, and choose the other server as the " ++
    "source.").toList

/-- The maps of the target that were imported from the same map of the same source, those on their way out
left aside. -/
def same (existing : Dict Text MapInfo) (src_key name : Text) : List Text :=
  (existing.items.filter fun e => e.2.source = some src_key ∧ e.2.map = some name ∧
    e.2.lifecycle ≠ some "DELETING".toList ∧ e.2.lifecycle ≠ some "DELETED".toList).map Prod.fst

variable (B : Builtins) (reader : BundleReader) (target : TargetInventory)

def reason (name target_name : Text) : Action → Text
  | .resume => "already imported from this source as ".toList ++ B.repr target_name ++
      "; only missing data is added".toList
  | .create => "name is free".toList
  | .rename => "name ".toList ++ B.repr name ++ " is taken (or invalid) here; imported as ".toList ++
      B.repr target_name

def target_of (fuel : ℕ) (taken : List Text) (name : Text) : Option (Text × Action × List Text) :=
  match same target.maps (source_key reader.manifest.source) name with
  | t :: _ => some (t, .resume, taken)
  | [] => (choose_name B.lower fuel name taken (label reader.manifest.source)).map fun t =>
      (t, if t = name then .create else .rename, taken ++ [t])

def plan_item (fuel : ℕ) (d : Draft) : Item → Option Draft
  | .runs name counts => some { d with runs := d.runs ++ [⟨name, counts⟩] }
  | .rosbag robot bag_id counts => some { d with
      total_bytes := d.total_bytes + if counts.present then 0 else counts.bytes
      rosbags := d.rosbags ++
        [⟨robot, bag_id, counts.present, counts.bytes, counts.map_id, counts.recorded_at⟩] }
  | .other kind => some { d with
      warnings := d.warnings ++ ["item of type ".toList ++ B.repr kind ++
        " is not supported by this server and is skipped".toList] }
  | .map name parts counts => (target_of B reader target fuel d.taken name).map fun r => { d with
      taken := r.2.2
      errors := d.errors ++ if reader.has name then [] else
        ["map ".toList ++ B.repr name ++ ": map.json is missing from the bundle".toList]
      total_bytes := d.total_bytes + counts.object_bytes
      maps := d.maps ++ [⟨name, r.1, r.2.1, reason B name r.1 r.2.1, parts, counts⟩] }

def renamed (renames : Dict Text Text) (mid : Text) : Text := (renames.get mid).getD mid

def run_warnings (renames : Dict Text Text) (known : List Text) (run : RunPlan) : List Text :=
  let missing := (((run.counts.map_ids.map (renamed renames)).filter
    fun m => m ∉ known).dedup).insertionSort (· ≤ ·)
  if missing = [] then [] else
    ["the runs of mission ".toList ++ B.repr run.mission ++ " refer to map(s) ".toList ++
      (", ".toList).intercalate missing ++
        " that this server does not have; they are copied as they are".toList]

def bag_warnings (renames : Dict Text Text) (known : List Text) (bag : BagPlan) : List Text :=
  match truthy bag.map_id with
  | none => []
  | some mid => if renamed renames mid ∈ known then [] else
      ["recording ".toList ++ bag.robot ++ '/' :: bag.bag_id ++ " refers to map ".toList ++ B.repr mid ++
        ", which this server does not have".toList]

def totals (d : Draft) : Totals where
  maps := d.maps.length
  object_bytes := d.total_bytes
  nodes := (d.maps.map fun m => m.counts.nodes).sum
  runs := (d.runs.map fun r => r.counts.runs).sum
  legs := (d.runs.map fun r => r.counts.legs).sum
  history_rows := (d.runs.map fun r => r.counts.history.sum).sum
  rosbag_bytes := ((d.rosbags.filter fun b => ¬b.have_it).map BagPlan.bytes).sum
  present_bytes := (d.maps.map fun m => m.counts.present_bytes).sum +
    ((d.rosbags.filter fun b => b.have_it).map BagPlan.bytes).sum

def finish (d : Draft) : Plan :=
  let renames := Dict.ofList (d.maps.map fun m => (m.source_name, m.target_name))
  let known := target.maps.keys ++ renames.items.map Prod.snd
  let room := match target.free_bytes with
    | some free => if B.nine_tenths free < d.total_bytes then
        ["not enough disk: the bundle needs ".toList ++ str d.total_bytes ++
          " bytes of objects, ".toList ++ str free ++
          " are free".toList] else []
    | none => []
  let errors := d.errors ++ room
  let warnings := d.warnings ++ d.runs.flatMap (run_warnings B renames known) ++
    d.rosbags.flatMap (bag_warnings B renames known)
  let nothing := d.maps = [] ∧ d.runs = [] ∧ d.rosbags = [] ∧ errors = []
  { ok := errors = []
    errors
    warnings := warnings ++
      if nothing then ["the bundle contains nothing this server can import".toList] else []
    source := reader.manifest.source
    source_key := source_key reader.manifest.source
    created_at := reader.manifest.created_at
    maps := d.maps
    runs := d.runs
    rosbags := d.rosbags
    map_renames := renames
    totals := totals d }

def damage (verify : Bool) (self_instance : Option Text) : List Text :=
  (if (truthy self_instance).isSome ∧
    reader.manifest.source.instance_id = self_instance then [SELF_COPY] else []) ++
    if verify then reader.verify.map fun p => "bundle damaged: ".toList ++ p else []

def plan_import (fuel : ℕ) (verify : Bool) (self_instance : Option Text) : Option Plan :=
  (reader.manifest.items.foldlM (plan_item B reader target fuel)
    ⟨target.maps.keys, damage reader verify self_instance, [], [], [], [], 0⟩).map (finish B reader target)

def mapNames (items : List Item) : List Text := items.filterMap fun
  | .map name _ _ => some name
  | _ => none

/-- The names to create are legal and taken by nobody, whatever the case of their letters; a map is
resumed where it was copied to. -/
structure Sound (lower : Lower) (existing : Dict Text MapInfo) (src_key : Text)
    (maps : List MapPlan) : Prop where
  legal : ∀ m ∈ maps, m.action ≠ .resume → Legal m.target_name
  apart : maps.Pairwise fun m m' => ¬Agree lower m.target_name m'.target_name
  fresh : ∀ m ∈ maps, m.action ≠ .resume → ∀ e ∈ existing.keys, ¬Agree lower e m.target_name
  resumed : ∀ m ∈ maps, m.action = .resume → ∃ i, existing.get m.target_name = some i ∧
    i.source = some src_key ∧ i.map = some m.source_name

/-- What the plan cannot repair is not asked of it. -/
structure Fits (lower : Lower) (existing : Dict Text MapInfo) (src_key : Text)
    (names : List Text) : Prop where
  broken : ∀ name ∈ names, Broken name → same existing src_key name = [] → taken lower name existing.keys
  apart : names.Pairwise fun a b => ∀ s ∈ (same existing src_key a).head?,
    ∀ t ∈ (same existing src_key b).head?, ¬Agree lower s t

end Model

/-! ### One item -/

variable {d d' : Draft} {t : Text} {item : Item}

section Step
variable {B : Builtins} {reader : BundleReader} {target : TargetInventory} {fuel k : ℕ}
variable {name : Text} {taken taken' : List Text}

lemma mem_same {existing : Dict Text MapInfo} {src : Text} (h : t ∈ same existing src name) :
    ∃ i, existing.get t = some i ∧ i.source = some src ∧ i.map = some name := by
  unfold same at h
  obtain ⟨⟨t', i⟩, hm, rfl⟩ := mem_map.mp h
  obtain ⟨hi, hp⟩ := mem_filter.mp hm
  obtain ⟨h1, h2, -⟩ := of_decide_eq_true hp
  exact ⟨i, Dict.mem_items.mp hi, h1, h2⟩

lemma head_same {existing : Dict Text MapInfo} {src : Text} (h : t ∈ (same existing src name).head?) :
    ∃ i, existing.get t = some i ∧ i.source = some src ∧ i.map = some name :=
  mem_same (mem_of_mem_head? h)

lemma target_of_spec {a : Action}
    (h : target_of B reader target fuel taken name = some (t, a, taken')) :
    (a = .resume ∧ t ∈ (same target.maps (source_key reader.manifest.source) name).head? ∧ taken' = taken) ∨
    (a ≠ .resume ∧ same target.maps (source_key reader.manifest.source) name = [] ∧ taken' = taken ++ [t] ∧
      choose_name B.lower fuel name taken (label reader.manifest.source) = some t) := by
  unfold target_of at h
  split at h
  · rename_i u rest hs
    simp only [Option.some.injEq, Prod.mk.injEq] at h
    obtain ⟨rfl, rfl, rfl⟩ := h
    exact .inl ⟨rfl, by simp [hs], rfl⟩
  · rename_i hs
    obtain ⟨u, hu, he⟩ := map_eq_some_iff.mp h
    simp only [Prod.mk.injEq] at he
    obtain ⟨rfl, rfl, rfl⟩ := he
    refine .inr ⟨?_, hs, rfl, hu⟩
    split_ifs <;> decide

lemma target_of_mono {r : Text × Action × List Text}
    (h : target_of B reader target fuel taken name = some r) :
    target_of B reader target (fuel + k) taken name = some r := by
  unfold target_of at h ⊢
  split at h
  · exact h
  · obtain ⟨t, ht, he⟩ := map_eq_some_iff.mp h
    exact map_eq_some_iff.mpr ⟨t, choose_name_mono ht, he⟩

lemma target_of_returns (reader : BundleReader) (target : TargetInventory) (hl : LowersAscii B.lower)
    (name : Text) (hlen : taken.length < 10 ^ 36 - 3) (hf : taken.length < fuel) :
    ∃ t a taken', target_of B reader target fuel taken name = some (t, a, taken') ∧
      taken'.length ≤ taken.length + 1 := by
  unfold target_of
  split
  · exact ⟨_, _, _, rfl, by omega⟩
  · obtain ⟨t, ht⟩ := choose_name_returns hl name (label reader.manifest.source) hlen hf
    rw [ht]
    exact ⟨_, _, _, rfl, by simp⟩

lemma plan_item_mono (h : plan_item B reader target fuel d item = some d') :
    plan_item B reader target (fuel + k) d item = some d' := by
  cases item with
  | map name parts counts =>
    obtain ⟨r, hr, he⟩ := map_eq_some_iff.mp h
    exact map_eq_some_iff.mpr ⟨r, target_of_mono hr, he⟩
  | runs name counts => exact h
  | rosbag robot bag_id counts => exact h
  | other kind => exact h

lemma plan_item_returns (reader : BundleReader) (target : TargetInventory) (hl : LowersAscii B.lower)
    (item : Item) (hlen : d.taken.length < 10 ^ 36 - 3) (hf : d.taken.length < fuel) :
    ∃ d', plan_item B reader target fuel d item = some d' ∧ d'.taken.length ≤ d.taken.length + 1 := by
  cases item with
  | map name parts counts =>
    obtain ⟨t, a, taken', hr, hle⟩ := target_of_returns reader target hl name hlen hf
    exact ⟨_, map_eq_some_iff.mpr ⟨_, hr, rfl⟩, hle⟩
  | runs name counts => exact ⟨_, rfl, by simp⟩
  | rosbag robot bag_id counts => exact ⟨_, rfl, by simp⟩
  | other kind => exact ⟨_, rfl, by simp⟩

end Step

/-! ### The names planned so far -/

section Names
variable {lower : Lower} {existing : Dict Text MapInfo} {src : Text}

structure Kept (lower : Lower) (existing : Dict Text MapInfo) (src : Text) (names claimed : List Text)
    (maps : List MapPlan) : Prop where
  names : maps.map MapPlan.source_name = names
  claimed : ∀ t, t ∈ claimed ↔ t ∈ existing.keys ∨ ∃ m ∈ maps, m.action ≠ .resume ∧ m.target_name = t
  old : ∀ m ∈ maps, m.action = .resume → m.target_name ∈ (same existing src m.source_name).head?
  new : ∀ m ∈ maps, m.action ≠ .resume → same existing src m.source_name = [] ∧
    taken lower m.target_name existing.keys = false ∧
    (Legal m.target_name ∨ m.target_name = m.source_name ∧ Broken m.source_name)
  apart : maps.Pairwise fun m m' => m'.action ≠ .resume → m.action ≠ .resume →
    ¬Agree lower m.target_name m'.target_name
  broken : ∀ m ∈ maps, m.action ≠ .resume → Broken m.source_name → m.target_name = m.source_name ∨
    taken lower m.source_name existing.keys ∨
      ∃ m' ∈ maps, m'.action ≠ .resume ∧ Agree lower m'.target_name m.source_name

lemma Kept.start : Kept lower existing src [] existing.keys [] where
  names := rfl
  claimed := by simp
  old := by simp
  new := by simp
  apart := .nil
  broken := by simp

variable {names claimed : List Text} {maps : List MapPlan}

lemma Kept.resume (h : Kept lower existing src names claimed maps) {m : MapPlan} (ha : m.action = .resume)
    (ht : m.target_name ∈ (same existing src m.source_name).head?) :
    Kept lower existing src (names ++ [m.source_name]) claimed (maps ++ [m]) where
  names := by simp [h.names]
  claimed t := by
    rw [h.claimed]
    simp [ha, or_and_right, exists_or]
  old m' hm' ha' := by
    rcases mem_append.mp hm' with hm' | hm'
    · exact h.old m' hm' ha'
    · obtain rfl := mem_singleton.mp hm'
      exact ht
  new m' hm' ha' := by
    rcases mem_append.mp hm' with hm' | hm'
    · exact h.new m' hm' ha'
    · obtain rfl := mem_singleton.mp hm'
      exact absurd ha ha'
  apart := by
    refine pairwise_append.mpr ⟨h.apart, pairwise_singleton _ _, fun m₁ _ m₂ hm₂ ha₂ => ?_⟩
    obtain rfl := mem_singleton.mp hm₂
    exact absurd ha ha₂
  broken m' hm' ha' hb := by
    rcases mem_append.mp hm' with hm' | hm'
    · rcases h.broken m' hm' ha' hb with h1 | h2 | ⟨m'', hm'', h3⟩
      · exact .inl h1
      · exact .inr (.inl h2)
      · exact .inr (.inr ⟨m'', mem_append_left _ hm'', h3⟩)
    · obtain rfl := mem_singleton.mp hm'
      exact absurd ha ha'

lemma not_taken {xs : List Text} (h : taken lower t xs = false) : ∀ e ∈ xs, ¬Agree lower e t := by
  intro e he hagree
  rw [taken_iff.mpr ⟨e, he, hagree⟩] at h
  cases h

lemma Kept.create (h : Kept lower existing src names claimed maps) {m : MapPlan} {fuel : ℕ} {label : Text}
    (ha : m.action ≠ .resume) (hs : same existing src m.source_name = [])
    (hc : choose_name lower fuel m.source_name claimed label = some m.target_name) :
    Kept lower existing src (names ++ [m.source_name]) (claimed ++ [m.target_name]) (maps ++ [m]) := by
  obtain ⟨hfree, hlegal⟩ := choose_name_spec hc
  have hfree := not_taken hfree
  have hold : taken lower m.target_name existing.keys = false := by
    by_contra hno
    obtain ⟨e, he, hagree⟩ := taken_iff.mp (by simpa using hno)
    exact hfree e ((h.claimed e).mpr (.inl he)) hagree
  constructor
  · simp [h.names]
  · intro t
    rw [mem_append, h.claimed, mem_singleton]
    constructor
    · rintro ((he | ⟨m', hm', hm''⟩) | rfl)
      · exact .inl he
      · exact .inr ⟨m', mem_append_left _ hm', hm''⟩
      · exact .inr ⟨m, by simp, ha, rfl⟩
    · rintro (he | ⟨m', hm', hm''⟩)
      · exact .inl (.inl he)
      · rcases mem_append.mp hm' with hm' | hm'
        · exact .inl (.inr ⟨m', hm', hm''⟩)
        · obtain rfl := mem_singleton.mp hm'
          exact .inr hm''.2.symm
  · intro m' hm' ha'
    rcases mem_append.mp hm' with hm' | hm'
    · exact h.old m' hm' ha'
    · obtain rfl := mem_singleton.mp hm'
      exact absurd ha' ha
  · intro m' hm' ha'
    rcases mem_append.mp hm' with hm' | hm'
    · exact h.new m' hm' ha'
    · obtain rfl := mem_singleton.mp hm'
      exact ⟨hs, hold, hlegal⟩
  · refine pairwise_append.mpr ⟨h.apart, pairwise_singleton _ _, fun m₁ hm₁ m₂ hm₂ _ ha₁ => ?_⟩
    obtain rfl := mem_singleton.mp hm₂
    exact hfree _ ((h.claimed _).mpr (.inr ⟨m₁, hm₁, ha₁, rfl⟩))
  · intro m' hm' ha' hb
    rcases mem_append.mp hm' with hm' | hm'
    · rcases h.broken m' hm' ha' hb with h1 | h2 | ⟨m'', hm'', h3⟩
      · exact .inl h1
      · exact .inr (.inl h2)
      · exact .inr (.inr ⟨m'', mem_append_left _ hm'', h3⟩)
    · obtain rfl := mem_singleton.mp hm'
      by_cases htk : taken lower m'.source_name claimed
      · obtain ⟨e, he, hagree⟩ := taken_iff.mp htk
        rcases (h.claimed e).mp he with he | ⟨m'', hm'', ha'', rfl⟩
        · exact .inr (.inl (taken_iff.mpr ⟨e, he, hagree⟩))
        · exact .inr (.inr ⟨m'', mem_append_left _ hm'', ha'', hagree⟩)
      · rw [choose_name_broken hb (by simpa using htk)] at hc
        exact .inl (Option.some.inj hc).symm

lemma Kept.sound (h : Kept lower existing src names claimed maps) (hf : Fits lower existing src names) :
    Sound lower existing src maps := by
  have hkeys : ∀ m ∈ maps, m.action = .resume → m.target_name ∈ existing.keys := by
    intro m hm ha
    obtain ⟨i, hi, -⟩ := head_same (h.old m hm ha)
    exact Dict.mem_keys.mpr ⟨i, hi⟩
  constructor
  · intro m hm ha
    obtain ⟨hs, ht, hlegal | ⟨he, hb⟩⟩ := h.new m hm ha
    · exact hlegal
    · have := hf.broken m.source_name (h.names ▸ mem_map_of_mem hm) hb hs
      rw [he, this] at ht
      cases ht
  · have hapart : maps.Pairwise fun m m' => ∀ s ∈ (same existing src m.source_name).head?,
        ∀ t ∈ (same existing src m'.source_name).head?, ¬Agree lower s t :=
      pairwise_map.mp (h.names.symm ▸ hf.apart)
    refine (List.Pairwise.and_mem.mp (h.apart.and hapart)).imp ?_
    rintro m m' ⟨hm, hm', hnew, hold⟩
    by_cases ha : m.action = .resume
    · by_cases ha' : m'.action = .resume
      · exact hold _ (h.old m hm ha) _ (h.old m' hm' ha')
      · exact not_taken (h.new m' hm' ha').2.1 _ (hkeys m hm ha)
    · by_cases ha' : m'.action = .resume
      · intro hagree
        exact not_taken (h.new m hm ha).2.1 _ (hkeys m' hm' ha') (agree_iff.mpr (agree_iff.mp hagree).symm)
      · exact hnew ha' ha
  · intro m hm ha
    exact not_taken (h.new m hm ha).2.1
  · intro m hm ha
    exact head_same (h.old m hm ha)

lemma Kept.fits (hl : LowersAscii lower) (h : Kept lower existing src names claimed maps)
    (hsound : Sound lower existing src maps) : Fits lower existing src names := by
  have hold : ∀ m ∈ maps, ∀ t ∈ (same existing src m.source_name).head?, t = m.target_name := by
    intro m hm t ht
    have ha : m.action = .resume := by
      by_contra ha
      rw [(h.new m hm ha).1] at ht
      cases ht
    exact mem_unique ht (h.old m hm ha)
  constructor
  · intro name hname hb hs
    rw [← h.names] at hname
    obtain ⟨m, hm, rfl⟩ := mem_map.mp hname
    have ha : m.action ≠ .resume := by
      intro ha
      have := h.old m hm ha
      rw [hs] at this
      cases this
    rcases h.broken m hm ha hb with he | ht | ⟨m', hm', ha', hagree⟩
    · exact absurd (he ▸ hsound.legal m hm ha) hb.not_legal
    · exact ht
    · exact absurd hagree (hb.not_agree hl (hsound.legal m' hm' ha'))
  · rw [← h.names]
    refine pairwise_map.mpr ((List.Pairwise.and_mem.mp hsound.apart).imp ?_)
    rintro m m' ⟨hm, hm', happ⟩ s hs t ht
    rwa [hold m hm s hs, hold m' hm' t ht]

end Names

/-! ### All items -/

section Run
variable {B : Builtins} {reader : BundleReader} {target : TargetInventory} {fuel : ℕ}

lemma mapNames_append (xs : List Item) (item : Item) :
    mapNames (xs ++ [item]) = mapNames xs ++ mapNames [item] :=
  filterMap_append

lemma plan_item_kept {past : List Item}
    (h : Kept B.lower target.maps (source_key reader.manifest.source) (mapNames past) d.taken d.maps)
    (hstep : plan_item B reader target fuel d item = some d') :
    Kept B.lower target.maps (source_key reader.manifest.source)
    (mapNames (past ++ [item])) d'.taken d'.maps := by
  rw [mapNames_append]
  cases item with
  | map name parts counts =>
    obtain ⟨⟨t, a, taken'⟩, hr, rfl⟩ := map_eq_some_iff.mp hstep
    rcases target_of_spec hr with ⟨ha, ht, rfl⟩ | ⟨ha, hs, rfl, hc⟩
    · exact h.resume (m := ⟨name, t, a, reason B name t a, parts, counts⟩) ha ht
    · exact h.create (m := ⟨name, t, a, reason B name t a, parts, counts⟩) ha hs hc
  | runs name counts =>
    cases hstep
    simpa [mapNames] using h
  | rosbag robot bag_id counts =>
    cases hstep
    simpa [mapNames] using h
  | other kind =>
    cases hstep
    simpa [mapNames] using h

variable {items p : List Item} {verify : Bool} {self_instance : Option Text} {plan : Plan}

lemma items_kept
    (h : Kept B.lower target.maps (source_key reader.manifest.source) (mapNames p) d.taken d.maps)
    (hrun : items.foldlM (plan_item B reader target fuel) d = some d') :
    Kept B.lower target.maps (source_key reader.manifest.source)
    (mapNames (p ++ items)) d'.taken d'.maps := by
  induction items generalizing p d with
  | nil =>
    cases hrun
    rwa [append_nil]
  | cons item items ih =>
    rw [foldlM_cons] at hrun
    obtain ⟨d₁, h1, h2⟩ := bind_eq_some_iff.mp hrun
    have := ih (plan_item_kept h h1) h2
    rwa [append_assoc] at this

lemma items_mono {k : ℕ} (h : items.foldlM (plan_item B reader target fuel) d = some d') :
    items.foldlM (plan_item B reader target (fuel + k)) d = some d' := by
  induction items generalizing d with
  | nil => exact h
  | cons item items ih =>
    rw [foldlM_cons] at h ⊢
    obtain ⟨d₁, h1, h2⟩ := bind_eq_some_iff.mp h
    exact bind_eq_some_iff.mpr ⟨d₁, plan_item_mono h1, ih h2⟩

lemma items_return (reader : BundleReader) (target : TargetInventory) (hl : LowersAscii B.lower)
    {i : List Item} (hf : d.taken.length + i.length < fuel)
    (hlen : d.taken.length + i.length < 10 ^ 36 - 3) :
    ∃ d', i.foldlM (plan_item B reader target fuel) d = some d' := by
  induction i generalizing d with
  | nil => exact ⟨d, rfl⟩
  | cons item items ih =>
    rw [length_cons] at hf hlen
    obtain ⟨d₁, h1, hle⟩ :=
      plan_item_returns reader target hl item (by omega : d.taken.length < 10 ^ 36 - 3)
      (by omega : d.taken.length < fuel)
    obtain ⟨d₂, h2⟩ := ih (d := d₁) (by omega) (by omega)
    exact ⟨d₂, by rw [foldlM_cons]; exact bind_eq_some_iff.mpr ⟨d₁, h1, h2⟩⟩

lemma plan_import_mono {k : ℕ}
    (h : plan_import B reader target fuel verify self_instance = some plan) :
    plan_import B reader target (fuel + k) verify self_instance = some plan := by
  obtain ⟨d, hd, he⟩ := map_eq_some_iff.mp h
  exact map_eq_some_iff.mpr ⟨d, items_mono hd, he⟩

lemma plan_import_kept (h : plan_import B reader target fuel verify self_instance = some plan) :
    ∃ claimed, Kept B.lower target.maps (source_key reader.manifest.source)
    (mapNames reader.manifest.items) claimed
      plan.maps := by
  obtain ⟨d, hd, rfl⟩ := map_eq_some_iff.mp h
  exact ⟨d.taken, items_kept (p := []) Kept.start hd⟩

/-- The plan of a bundle is sound exactly when its names fit the target. -/
theorem plan_import_sound_iff (B : Builtins) (reader : BundleReader) (target : TargetInventory)
    (verify : Bool)
    (self_instance : Option Text) (hl : LowersAscii B.lower) (hmaps : target.maps.keys.length < 10 ^ 30)
    (hitems : reader.manifest.items.length < 10 ^ 35) :
    (∃ n plan, (∀ fuel ≥ n, plan_import B reader target fuel verify self_instance = some plan) ∧
      Sound B.lower target.maps (source_key reader.manifest.source) plan.maps) ↔
    Fits B.lower target.maps (source_key reader.manifest.source) (mapNames reader.manifest.items) := by
  constructor
  · rintro ⟨n, plan, hplan, hsound⟩
    obtain ⟨claimed, hkept⟩ := plan_import_kept (hplan n (Nat.le_refl n))
    exact hkept.fits hl hsound
  · intro hfits
    obtain ⟨d, hd⟩ := items_return reader target hl (i := reader.manifest.items)
      (d := ⟨target.maps.keys, damage reader verify self_instance, [], [], [], [], 0⟩)
      (show target.maps.keys.length + reader.manifest.items.length <
        target.maps.keys.length + reader.manifest.items.length + 1 by omega)
      (show target.maps.keys.length + reader.manifest.items.length < 10 ^ 36 - 3 by omega)
    have hplan : plan_import B reader target
        (target.maps.keys.length + reader.manifest.items.length + 1) verify self_instance = some (finish B reader target d) := map_eq_some_iff.mpr ⟨d, hd, rfl⟩
    obtain ⟨claimed, hkept⟩ := plan_import_kept hplan
    refine ⟨target.maps.keys.length + reader.manifest.items.length + 1, _, ?_, hkept.sound hfits⟩
    intro fuel hfuel
    obtain ⟨k, rfl⟩ := Nat.exists_eq_add_of_le hfuel
    exact plan_import_mono hplan

/-- `str.lower` where only ASCII is lowered. -/
def asciiBuiltins : Builtins :=
  ⟨fun t => t.map Char.toLower, fun t => '\'' :: t ++ ['\''], fun n => 9 * n / 10⟩

/-- A bundle with a map for each name. -/
def bundle (names : List Text) : BundleReader :=
  ⟨⟨⟨none, none, some ['a']⟩, none, names.map fun name => .map name [] ⟨0, 0, 0⟩⟩, [], fun _ => true⟩

/-- The target has a map `s` of its own, and `h` of the source under the name `i`. -/
def twoMaps : TargetInventory :=
  ⟨Dict.ofList [(['s'], ⟨none, none, none⟩), (['i'], ⟨none, some ['a'], some ['h']⟩)], none⟩

/-- One map is renamed, the other resumed. -/
theorem plan_import_sound_site : ∃ n plan,
    (∀ fuel ≥ n, plan_import asciiBuiltins (bundle [['s'], ['h']]) twoMaps fuel true none = some plan) ∧
      Sound asciiBuiltins.lower twoMaps.maps ['a'] plan.maps ∧
      plan.maps.map (fun m => (m.target_name, m.action)) =
        [(['s', '-', 'a'], .rename), (['i'], .resume)] := by
  have hfits : Fits asciiBuiltins.lower twoMaps.maps ['a'] [['s'], ['h']] := by
    refine ⟨fun name hname _ hsame => ?_, by decide⟩
    rcases List.mem_pair.mp hname with rfl | rfl
    · decide
    · exact absurd hsame (by decide)
  obtain ⟨n, plan, hplan, hsound⟩ := (plan_import_sound_iff asciiBuiltins (bundle [['s'], ['h']])
    twoMaps true none (fun _ _ => rfl) (by decide) (by decide)).mpr hfits
  refine ⟨n, plan, hplan, hsound, ?_⟩
  have hmaps : ((plan_import asciiBuiltins (bundle [['s'], ['h']]) twoMaps 5 true none).map
      fun p => p.maps.map fun m => (m.target_name, m.action)) =
        some [(['s', '-', 'a'], .rename), (['i'], .resume)] := by decide
  obtain ⟨plan', hplan', hnames⟩ := map_eq_some_iff.mp hmaps
  cases (plan_import_mono hplan').symm.trans (hplan (5 + n) (Nat.le_add_left n 5))
  exact hnames

/-- A map whose name ends with a line feed is created under that name. -/
theorem line_feed_kept : ¬∃ n plan, (∀ fuel ≥ n,
      plan_import asciiBuiltins (bundle [['s', '\n']]) ⟨Dict.empty, none⟩ fuel true none = some plan) ∧
    Sound asciiBuiltins.lower Dict.empty ['a'] plan.maps := by
  rintro ⟨n, plan, hplan, hsound⟩
  obtain ⟨claimed, hkept⟩ := plan_import_kept (hplan n (Nat.le_refl n))
  have hfits := hkept.fits (fun _ _ => rfl) hsound
  have := hfits.broken ['s', '\n'] (by decide) ⟨['s'], rfl, by decide⟩ rfl
  cases this

end Run

end CloudServer.ImportPlan
