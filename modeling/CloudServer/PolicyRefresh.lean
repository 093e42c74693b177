import CloudServer.Steps

/-! The recording policy: the levels' sources as a host caches them, kept by notifications of single
rows and by refreshes that load every row. -/
namespace CloudServer.PolicyRefresh

open Function

section Model
variable {R S L V : Type} [DecidableEq R] [DecidableEq S] [DecidableEq L]

structure PolicySources (R S L : Type) where
  robot_levels : R → Option (Option L)
  site_levels : S → Option (Option L)
  robot_sites : R → Option (Option S)
  global_level : Option L

structure RecordingPolicy (R S L : Type) where
  sources : PolicySources R S L
  stale : Bool
  generation : ℕ

def RecordingPolicy.new : RecordingPolicy R S L :=
  ⟨⟨fun _ => none, fun _ => none, fun _ => none, none⟩, true, 0⟩

def resolve (parse_level : L → Option V) (DEFAULT_LEVEL : V)
    (robot_level site_level global_level mission_level next_run_level : Option L) : V :=
  (([next_run_level, mission_level, robot_level, site_level, global_level].filterMap
    fun value => value.bind parse_level).head?).getD DEFAULT_LEVEL

def inherited_level (parse_level : L → Option V) (DEFAULT_LEVEL : V) (src : PolicySources R S L)
    (robot_name : Option R) (mission_level next_run_level : Option L) : V :=
  match robot_name with
  | none => resolve parse_level DEFAULT_LEVEL none none src.global_level mission_level next_run_level
  | some robot =>
    let site_level := (src.robot_sites robot).join.bind fun site => (src.site_levels site).join
    resolve parse_level DEFAULT_LEVEL (src.robot_levels robot).join site_level src.global_level
      mission_level next_run_level

/-! ### One value from a notification -/

def invalidate (P : RecordingPolicy R S L) : RecordingPolicy R S L :=
  { P with stale := true, generation := P.generation + 1 }

/-- `_set`: a change bumps the generation. -/
def set (changed : Bool) (sources : PolicySources R S L) (P : RecordingPolicy R S L) :
    RecordingPolicy R S L :=
  { P with sources, generation := if changed then P.generation + 1 else P.generation }

def set_robot_level (robot_name : R) (value : Option L) (P : RecordingPolicy R S L) :
    RecordingPolicy R S L :=
  let levels := P.sources.robot_levels
  set (levels robot_name ≠ some value)
    { P.sources with robot_levels := update levels robot_name (some value) } P

def forget_robot (robot_name : R) (P : RecordingPolicy R S L) : RecordingPolicy R S L :=
  let src := P.sources
  set ((src.robot_levels robot_name).isSome || (src.robot_sites robot_name).isSome)
    { src with
      robot_levels := update src.robot_levels robot_name none
      robot_sites := update src.robot_sites robot_name none } P

def set_robot_site (robot_name : R) (site_id : Option S) (P : RecordingPolicy R S L) :
    RecordingPolicy R S L :=
  let sites := P.sources.robot_sites
  set (sites robot_name ≠ some site_id)
    { P.sources with robot_sites := update sites robot_name (some site_id) } P

def set_site_level (site_id : S) (value : Option L) (P : RecordingPolicy R S L) :
    RecordingPolicy R S L :=
  let levels := P.sources.site_levels
  set (levels site_id ≠ some value)
    { P.sources with site_levels := update levels site_id (some value) } P

def forget_site (site_id : S) (P : RecordingPolicy R S L) : RecordingPolicy R S L :=
  let src := P.sources
  set (src.site_levels site_id).isSome
    { src with site_levels := update src.site_levels site_id none } P

def set_global_level (value : Option L) (P : RecordingPolicy R S L) : RecordingPolicy R S L :=
  set (P.sources.global_level ≠ value) { P.sources with global_level := value } P

abbrev Row (L : Type) := Option (Option L)

def apply_robot_object (name : R) (robot : Row L) (P : RecordingPolicy R S L) :
    RecordingPolicy R S L :=
  match robot with
  | none => forget_robot name P
  | some value => set_robot_level name value P

def apply_settings_object (settings : Row L) (P : RecordingPolicy R S L) : RecordingPolicy R S L :=
  set_global_level settings.join P

def apply_site_object (name : S) (site : Row L) (P : RecordingPolicy R S L) :
    RecordingPolicy R S L :=
  match site with
  | none => forget_site name P
  | some value => set_site_level name value P

/-! ### Every row from a refresh -/

structure Database (R S L : Type) where
  robots : R → Row L
  sites : S → Row L
  assignments : R → Option S
  settings : Row L

def load_sources (db : Database R S L) : PolicySources R S L where
  robot_levels := db.robots
  site_levels := db.sites
  robot_sites := fun robot => (db.assignments robot).map some
  global_level := db.settings.join

/-- The end of `refresh`, which read the generation before it loaded the sources. -/
def refresh_end (generation : ℕ) (sources : PolicySources R S L) (P : RecordingPolicy R S L) :
    RecordingPolicy R S L :=
  { P with sources, stale := generation ≠ P.generation }

/-! ### Deliveries -/

/-- A notification of an object: the lifecycle is in its payload, the row is read when it is
delivered, so that it may be any the object has had since. The changes are numbered. -/
structure Note (L : Type) where
  number : ℕ
  deleted : Bool
  rows : List (Row L)
  deriving DecidableEq

inductive Delivery (R S L : Type)
  | robot (name : R) (row : Row L)
  | site (name : S) (row : Row L)
  | settings (row : Row L)
  | assignment (robot_name : R) (site_id : Option S)

def Delivery.apply : Delivery R S L → RecordingPolicy R S L → RecordingPolicy R S L
  | .robot name row => apply_robot_object name row
  | .site name row => apply_site_object name row
  | .settings row => apply_settings_object row
  | .assignment robot_name site_id => set_robot_site robot_name site_id

/-- The database with the notifications on their way, oldest first, those of assignments with the
site in the payload; the policy, and the refresh that runs: the generation it read and, once read,
its snapshot. -/
structure World (R S L : Type) where
  db : Database R S L
  changes : ℕ
  robots : R → List (Note L)
  sites : S → List (Note L)
  settings : List (Note L)
  assignments : R → List (ℕ × Option S)
  policy : RecordingPolicy R S L
  load : Option (ℕ × Option (PolicySources R S L))

def World.new (db : Database R S L) : World R S L :=
  ⟨db, 0, fun _ => [], fun _ => [], [], fun _ => [], .new, none⟩

/-- A change of a row is seen by every notification of it that is still on its way. -/
def notify (number : ℕ) (row : Row L) (notes : List (Note L)) : List (Note L) :=
  notes.map (fun n => { n with rows := n.rows ++ [row] }) ++ [⟨number, row.isNone, [row]⟩]

inductive Kind (R S : Type)
  | robot (name : R)
  | site (name : S)
  | settings
  | assignment (robot_name : R)
  deriving DecidableEq

/-- The row read for a notification; one whose payload says DELETED is DELETED. -/
def Note.read (n : Note L) (i : ℕ) : Option (Row L) :=
  n.rows[i]?.map fun row => if n.deleted then none else row

/-- The oldest notification of an object, delivered with the `i`-th row it may read. -/
def World.take (W : World R S L) (i : ℕ) : Kind R S → Option (Delivery R S L × World R S L)
  | .robot name =>
    match W.robots name with
    | n :: rest => (n.read i).map fun row =>
        (.robot name row, { W with robots := update W.robots name rest })
    | [] => none
  | .site name =>
    match W.sites name with
    | n :: rest => (n.read i).map fun row =>
        (.site name row, { W with sites := update W.sites name rest })
    | [] => none
  | .settings =>
    match W.settings with
    | n :: rest => (n.read i).map fun row => (.settings row, { W with settings := rest })
    | [] => none
  | .assignment robot_name =>
    match W.assignments robot_name with
    | n :: rest => some (.assignment robot_name n.2,
        { W with assignments := update W.assignments robot_name rest })
    | [] => none

inductive Act (R S L : Type)
  | set_robot (name : R) (level : Option L)
  -- the assignment rows of a deleted robot go with it, without a notification of their own
  | delete_robot (name : R)
  | set_site (name : S) (row : Row L)
  | set_settings (row : Row L)
  | assign (robot_name : R) (site_id : Option S)
  | deliver (kind : Kind R S) (i : ℕ)
  | invalidate
  | refresh_start
  | refresh_read
  | refresh_end
  | refresh_fail
  deriving DecidableEq

def step (W : World R S L) : Act R S L → Option (World R S L)
  | .set_robot name level =>
    some { W with
      db := { W.db with robots := update W.db.robots name (some level) }
      changes := W.changes + 1
      robots := update W.robots name (notify W.changes (some level) (W.robots name)) }
  | .delete_robot name =>
    some { W with
      db := { W.db with
        robots := update W.db.robots name none
        assignments := update W.db.assignments name none }
      changes := W.changes + 1
      robots := update W.robots name (notify W.changes none (W.robots name)) }
  | .set_site name row =>
    some { W with
      db := { W.db with sites := update W.db.sites name row }
      changes := W.changes + 1
      sites := update W.sites name (notify W.changes row (W.sites name)) }
  | .set_settings row =>
    some { W with
      db := { W.db with settings := row }
      changes := W.changes + 1
      settings := notify W.changes row W.settings }
  | .assign robot_name site_id =>
    some { W with
      db := { W.db with assignments := update W.db.assignments robot_name site_id }
      changes := W.changes + 1
      assignments := update W.assignments robot_name
        (W.assignments robot_name ++ [(W.changes, site_id)]) }
  | .deliver kind i => (W.take i kind).map fun d => { d.2 with policy := d.1.apply W.policy }
  | .invalidate => some { W with policy := invalidate W.policy }
  | .refresh_start =>
    match W.load with
    | none => some { W with load := some (W.policy.generation, none) }
    | some _ => none
  | .refresh_read =>
    match W.load with
    | some (generation, none) =>
      some { W with load := some (generation, some (load_sources W.db)) }
    | _ => none
  | .refresh_end =>
    match W.load with
    | some (generation, some sources) =>
      some { W with policy := refresh_end generation sources W.policy, load := none }
    | _ => none
  | .refresh_fail => some { W with load := none }

end Model
end CloudServer.PolicyRefresh
