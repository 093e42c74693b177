import CloudServer.Recent
import CloudServer.Scan

/-! The planner's cache of loaded scene graphs: its tables and the pieces of `get` and `warm` that
run without suspension. -/
namespace CloudServer.GraphCache

open Scan (Text)

abbrev Key := Text × Int

structure Graph where
  load : Nat
  nbytes : Option Nat
  deriving DecidableEq, Repr

inductive Token
  | epoch (name : Text)
  | generation (number : Int)
  deriving DecidableEq, Repr

abbrev Cursor := Option (Int × Text)

structure Answer where
  version : Option Int
  epoch : Option Text
  generation : Option Int
  cursor : Cursor
  deriving DecidableEq, Repr

def Answer.token (a : Answer) : Option Token :=
  match a.epoch with
  | some e => some (.epoch e)
  | none => a.generation.map .generation

structure Config where
  maxEntries : Nat
  versionsPerMap : Nat
  maxBytes : Nat
  maxStale : Int
  backoffBase : Int
  backoffMax : Int

def Config.bound (cfg : Config) : Nat := max 1 cfg.maxEntries
def Config.perMap (cfg : Config) : Nat := max 1 cfg.versionsPerMap

structure Tables where
  graphs : Dict Key Graph
  sizes : Dict Key Nat
  loading : Dict Key Nat
  cursors : Dict Key Cursor
  served : Dict Text Int
  known : Dict Text (Int × Option Token)
  firstSeen : Dict Key Int
  failures : Dict Text (Nat × Int)

def Tables.init : Tables := ⟨.empty, .empty, .empty, .empty, .empty, .empty, .empty, .empty⟩

inductive Fallback
  | noGraph
  | loadError
  | staleGraph
  | executorClosed
  deriving DecidableEq, Repr

variable (cfg : Config)

def dropMap (t : Tables) (map : Text) : Tables :=
  { graphs := t.graphs.filter fun k _ => k.1 ≠ map
    sizes := t.sizes.filter fun k _ => k.1 ≠ map || k ∉ t.graphs.keys
    loading := t.loading.filter fun k _ => k.1 ≠ map
    cursors := t.cursors.filter fun k _ => k.1 ≠ map
    served := t.served.erase map
    known := t.known.erase map
    firstSeen := t.firstSeen.filter fun k _ => k.1 ≠ map
    failures := t.failures.erase map }

/-- The answer is of another history than the one known: its token changed, or its version fell. -/
def regressed (t : Tables) (map : Text) (version : Int) (token : Option Token) : Bool :=
  match t.known.get map with
  | some (known, old) => token ≠ old || version < known
  | none => false

def noteMeta (t : Tables) (map : Text) (version : Int) (token : Option Token) (now : Int) :
    Tables :=
  let t := if regressed t map version token then dropMap t map else t
  let firstSeen := match t.firstSeen.get (map, version) with
    | some _ => t.firstSeen
    | none => t.firstSeen.set (map, version) now
  let cached := (t.graphs.keys.filter fun k => k.1 = map).map Prod.snd
  let floor := cached.min?.getD version
  { t with known := t.known.set map (version, token)
           firstSeen := firstSeen.filter fun k _ => !(k.1 = map && k.2 < floor) }

def backedOff (t : Tables) (map : Text) (now : Int) : Bool :=
  match t.failures.get map with
  | some (_, retryAt) => now < retryAt
  | none => false

def noteFailure (t : Tables) (map : Text) (now : Int) : Tables :=
  let count := ((t.failures.get map).getD (0, 0)).1 + 1
  let delay := min cfg.backoffMax (cfg.backoffBase * 2 ^ min (count - 1) 30)
  { t with failures := t.failures.set map (count, now + delay) }

def evict (t : Tables) (key : Key) : Tables :=
  { t with graphs := t.graphs.erase key, sizes := t.sizes.erase key }

def dropUnavailable (t : Tables) (unavailable : Graph → Bool) : Tables :=
  (t.graphs.items.filter fun x => unavailable x.2).foldl (fun t x =>
    let t := evict t x.1
    if t.served.get x.1.1 = some x.1.2 then { t with served := t.served.erase x.1.1 } else t) t

def evictOldest (key : Key) (t : Tables) : Tables :=
  match t.graphs.keys.find? (· ≠ key) with
  | some k => evict t k
  | none => t

def evictWhile (full : Tables → Bool) (key : Key) : Nat → Tables → Tables
  | 0, t => t
  | n + 1, t => if full t then evictWhile full key n (evictOldest key t) else t

def Tables.bytes (t : Tables) : Nat := (t.sizes.items.map Prod.snd).sum

def others (t : Tables) (key : Key) : List Key :=
  (t.graphs.keys.filter fun k => k.1 = key.1 && k ≠ key).insertionSort fun a b => a.2 ≤ b.2

def evictVersions (key : Key) (t : Tables) : Tables :=
  ((others t key).take ((others t key).length + 1 - cfg.perMap)).foldl evict t

def place (t : Tables) (key : Key) (graph : Graph) : Tables :=
  { t with failures := t.failures.erase key.1
           graphs := t.graphs.put key graph
           sizes := t.sizes.set key (graph.nbytes.getD 0) }

def insert (t : Tables) (key : Key) (graph : Graph) : Tables :=
  let t := evictVersions cfg key (place t key graph)
  let t := evictWhile (fun t => t.graphs.size > cfg.bound) key t.graphs.size t
  evictWhile (fun t => cfg.maxBytes ≠ 0 && t.graphs.size > 1 && t.bytes > cfg.maxBytes) key
    t.graphs.size t

/-- The single-flight load of a key; `none` when the pool is closed. -/
def startLoad (t : Tables) (key : Key) (fresh : Nat) (closed : Bool) : Option (Tables × Nat) :=
  match t.loading.get key with
  | some f => some (t, f)
  | none => if closed then none else some ({ t with loading := t.loading.set key fresh }, fresh)

inductive LoadResult
  | cancelled
  | failed
  | loaded (nbytes : Option Nat)
  deriving DecidableEq, Repr

/-- A load ended: it fills the cache unless the map's history was dropped meanwhile. -/
def done (t : Tables) (key : Key) (f : Nat) (result : LoadResult) (now : Int) : Tables :=
  if t.loading.get key ≠ some f then t
  else
    let t := { t with loading := t.loading.erase key }
    match result with
    | .cancelled => t
    | .failed => noteFailure cfg t key.1 now
    | .loaded nbytes => insert cfg t key ⟨f, nbytes⟩

/-- The newest cached version below `version`. -/
def newestBelow (t : Tables) (map : Text) (version : Int) : Option Key :=
  (t.graphs.keys.filter fun k => k.1 = map && k.2 < version).foldl (fun best k =>
    match best with
    | none => some k
    | some b => if b.2 < k.2 then some k else some b) none

/-- A newer version than `served` has been known for too long. -/
def tooStale (t : Tables) (map : Text) (served : Int) (now : Int) : Bool :=
  match ((t.firstSeen.items.filter fun x => x.1.1 = map && x.1.2 > served).map Prod.snd).min? with
  | some since => now - since > cfg.maxStale
  | none => false

inductive Older
  | nothing
  | stale
  | found (t : Tables) (graph : Graph) (version : Int)

def serveOlder (t : Tables) (map : Text) (version : Int) (tolerateStale : Bool) (now : Int) :
    Older :=
  match newestBelow t map version with
  | none => .nothing
  | some prev =>
    if cfg.maxStale > 0 && !tolerateStale && tooStale cfg t map prev.2 now then .stale
    else match t.graphs.get prev with
      | none => .nothing
      | some g => .found { t with graphs := t.graphs.put prev g
                                  served := t.served.set map prev.2 } g prev.2

def cursor (t : Tables) (map : Text) : Cursor :=
  (t.cursors.get (map, (t.served.get map).getD (-1))).join

inductive Outcome
  | fallback (reason : Fallback)
  | served (graph : Graph) (version : Int)
  | wait (f : Nat)
  | warmed (version : Option Int)

def pruneCursors (t : Tables) (key : Key) : Tables :=
  if t.cursors.size > 8 * cfg.bound then
    { t with cursors := t.cursors.filter fun k _ => k ∈ t.graphs.keys || k = key }
  else t

/-- `get` once the map's current version is noted: from the cache, from an older version, or from
a load. -/
def choose (t : Tables) (key : Key) (tolerateStale closed : Bool) (fresh : Nat)
    (clock : Nat → Int) : Tables × Outcome :=
  match t.graphs.get key with
  | some g =>
    ({ t with graphs := t.graphs.put key g, served := t.served.set key.1 key.2 }, .served g key.2)
  | none =>
    if t.loading.get key = none && backedOff t key.1 (clock 1) then
      match serveOlder cfg t key.1 key.2 tolerateStale (clock 2) with
      | .nothing => (t, .fallback .loadError)
      | .stale => (t, .fallback .staleGraph)
      | .found t g v => (t, .served g v)
    else match startLoad t key fresh closed with
      | none => (t, .fallback .executorClosed)
      | some (t, f) => match serveOlder cfg t key.1 key.2 tolerateStale (clock 2) with
        | .nothing => (t, .wait f)
        | .stale => (t, .fallback .staleGraph)
        | .found t g v => (t, .served g v)

def noteAnswer (t : Tables) (key : Key) (a : Answer) (now : Int) : Tables :=
  let t := noteMeta t key.1 key.2 a.token now
  { t with cursors := t.cursors.set key a.cursor }

def getAnswered (t : Tables) (map : Text) (a : Answer) (tolerateStale closed : Bool)
    (unavailable : Graph → Bool) (fresh : Nat) (clock : Nat → Int) : Tables × Outcome :=
  match a.version with
  | none => (t, .fallback .noGraph)
  | some version =>
    let t := pruneCursors cfg (noteAnswer t (map, version) a (clock 0)) (map, version)
    choose cfg (dropUnavailable t unavailable) (map, version) tolerateStale closed fresh clock

def warmAnswered (t : Tables) (map : Text) (a : Answer) (closed : Bool) (fresh : Nat)
    (now : Int) : Tables × Outcome :=
  match a.version with
  | none => (t, .warmed none)
  | some version =>
    let t := noteAnswer t (map, version) a now
    if (map, version) ∈ t.graphs.keys then (t, .warmed version)
    else match startLoad t (map, version) fresh closed with
      | none => (t, .fallback .executorClosed)
      | some (t, f) => (t, .wait f)

/-- `get` after the load it waited for. -/
def getLoaded (t : Tables) (key : Key) : Tables := { t with served := t.served.set key.1 key.2 }

end CloudServer.GraphCache
