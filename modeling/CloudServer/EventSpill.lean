import CloudServer.Scan

/-! Event rows, their lines in the spill file, and the table that they are inserted into. -/
namespace CloudServer.EventSpill

open List
open Scan (Text)

/-- A Python value in a payload; `other` is any object that JSON has no form for, by its `str`. -/
inductive Value
  | null
  | bool (b : Bool)
  | int (n : ℤ)
  | float (repr : Text)
  | str (t : Text)
  | list (vs : List Value)
  | dict (fields : List (Text × Value))
  | other (t : Text)

/-- `json.loads(json.dumps(value, default=str))`. -/
def Value.json : Value → Value
  | .list vs => .list (vs.attach.map fun v => v.1.json)
  | .dict fields => .dict (fields.attach.map fun f => (f.1.1, f.1.2.json))
  | .other t => .str t
  | v => v
termination_by v => sizeOf v
decreasing_by
  · have := sizeOf_lt_of_mem v.2
    simp
    omega
  · have h := sizeOf_lt_of_mem f.2
    have h2 : sizeOf f.1.2 < sizeOf f.1 := by
      cases f.1
      simp
    simp
    omega

lemma json_list (vs : List Value) : (Value.list vs).json = .list (vs.map Value.json) := by
  rw [Value.json, attach_map_val (f := Value.json)]

lemma json_dict (fields : List (Text × Value)) :
    (Value.dict fields).json = .dict (fields.map fun f => (f.1, f.2.json)) := by
  rw [Value.json, attach_map_val (f := fun f : Text × Value => (f.1, f.2.json))]

lemma Value.json_json (v : Value) : v.json.json = v.json := by
  induction v using Value.json.induct with
  | case1 vs ih =>
    simp only [json_list, map_map, Value.list.injEq]
    exact map_congr_left fun v hv => ih ⟨v, hv⟩
  | case2 fields ih =>
    simp only [json_dict, map_map, Value.dict.injEq]
    exact map_congr_left fun f hf => Prod.ext rfl (ih ⟨f, hf⟩)
  | case3 t => simp [Value.json]
  | case4 v h1 h2 h3 =>
    have h : v.json = v := by
      cases v with
      | list vs => exact absurd rfl (h1 vs)
      | dict fields => exact absurd rfl (h2 fields)
      | other t => exact absurd rfl (h3 t)
      | _ => simp [Value.json]
    rw [h, h]

structure Stamp where
  instant : ℤ
  offset : ℤ
deriving DecidableEq

/-- `normalize_ts`: the same moment in UTC. -/
def Stamp.normalize (ts : Stamp) : Stamp := ⟨ts.instant, 0⟩

/-- The columns of `fleet_events`. -/
structure Row where
  ts : Stamp
  eventId : ℕ
  robotName : Option Text
  runId : Option ℕ
  siteId : Option Text
  code : Text
  severity : Text
  swVersion : Option Text
  payload : Value
  source : Text

/-- The row as the table has it: `row_params` dumps the payload, and a timestamptz is a moment. -/
def Row.stored (r : Row) : Row :=
  { r with ts := r.ts.normalize, payload := r.payload.json }

@[simp]
lemma Row.stored_eventId (r : Row) : r.stored.eventId = r.eventId := rfl

@[simp]
lemma Row.stored_stored (r : Row) : r.stored.stored = r.stored := by
  simp [Row.stored, Stamp.normalize, Value.json_json]

/-- A line of the spill file. The texts that a line has for a datetime and for ids are kept as what
they spell. -/
inductive Line
  | blank
  | corrupt (t : Text)
  | event (r : Row)

def encodeEvent (r : Row) : Line := .event { r with payload := r.payload.json }

/-- `decode_event`; `none` is the error on a corrupt line. -/
def decodeEvent : Line → Option Row
  | .event r => some { r with ts := r.ts.normalize }
  | _ => none

lemma decode_encode (r : Row) : decodeEvent (encodeEvent r) = some r.stored := rfl

/-! ### The spill file -/

def append (lines : List Line) (rows : List Row) : List Line := lines ++ rows.map encodeEvent

/-- `read`: up to `limit` rows from the front and the number of lines that they span. -/
def read : ℕ → List Line → List Row × ℕ
  | 0, _ => ([], 0)
  | _ + 1, [] => ([], 0)
  | limit + 1, line :: lines => match decodeEvent line with
    | some r => (r :: (read limit lines).1, (read limit lines).2 + 1)
    | none => ((read (limit + 1) lines).1, (read (limit + 1) lines).2 + 1)

def Line.isBlank : Line → Bool
  | .blank => true
  | _ => false

/-- `consume`: the file without its first lines; it goes when nothing is left in it. -/
def consume (n : ℕ) (lines : List Line) : List Line :=
  if n = 0 then lines
  else if (lines.drop n).all Line.isBlank then [] else lines.drop n

def spilled (lines : List Line) : List Row := (lines.filterMap decodeEvent).map Row.stored

lemma spilled_append (lines : List Line) (rows : List Row) :
    spilled (append lines rows) = spilled lines ++ rows.map Row.stored := by
  simp [spilled, append, filterMap_append, filterMap_map, Function.comp_def, decode_encode]

lemma read_spec (limit : ℕ) (lines : List Line) :
    (read limit lines).1 = (lines.take (read limit lines).2).filterMap decodeEvent := by
  induction lines generalizing limit with
  | nil => cases limit <;> rfl
  | cons line lines ih =>
    cases limit with
    | zero => rfl
    | succ limit =>
      cases h : decodeEvent line with
      | some r => simp [read, h, ← ih]
      | none => simp [read, h, ← ih]

lemma spilled_consume (n : ℕ) (lines : List Line) :
    spilled (consume n lines) = spilled (lines.drop n) := by
  unfold consume
  split
  · rename_i h
    rw [h, drop_zero]
  · split
    · rename_i h
      have hnone : (lines.drop n).filterMap decodeEvent = [] := by
        rw [filterMap_eq_nil_iff]
        intro line hl
        have hb := all_eq_true.mp h line hl
        cases line with
        | blank => rfl
        | corrupt t => rfl
        | event r => cases hb
      simp [spilled, hnone]
    · rfl

lemma read_le (limit : ℕ) (lines : List Line) : (read limit lines).2 ≤ lines.length := by
  induction lines generalizing limit with
  | nil => cases limit <;> exact le_rfl
  | cons line lines ih =>
    cases limit with
    | zero => exact Nat.zero_le _
    | succ limit =>
      cases h : decodeEvent line with
      | some r => simpa [read, h] using ih limit
      | none => simpa [read, h] using ih (limit + 1)

lemma spilled_split (n : ℕ) (lines : List Line) :
    spilled lines = spilled (lines.take n) ++ spilled (consume n lines) := by
  rw [spilled_consume]
  simp only [spilled, ← map_append, ← filterMap_append, take_append_drop]

/-! ### The table -/

/-- The identity of a row: `UNIQUE (event_id, ts)`. -/
def Row.same (r q : Row) : Prop := r.eventId = q.eventId ∧ r.ts = q.ts

instance (r q : Row) : Decidable (r.same q) := inferInstanceAs (Decidable (_ ∧ _))

/-- `INSERT ... ON CONFLICT DO NOTHING`. -/
def insert (table : List Row) (r : Row) : List Row :=
  if table.any (·.same r.stored) then table else r.stored :: table

def insertAll (table : List Row) (rows : List Row) : List Row := rows.foldl insert table

variable {table : List Row} {c r : Row}

lemma mem_insert_of_mem (h : c ∈ table) : c ∈ insert table r := by
  unfold insert
  split
  · exact h
  · exact mem_cons_of_mem _ h

lemma mem_of_mem_insert (h : c ∈ insert table r) :
    c ∈ table ∨ c = r.stored := by
  unfold insert at h
  split at h
  · exact .inl h
  · exact (mem_cons.mp h).symm

lemma insert_unique (h : ∀ c ∈ table, c.eventId = r.eventId → c = r.stored) :
    r.stored ∈ insert table r ∧ ∀ id,
      (insert table r).filter (·.eventId = id) = table.filter (·.eventId = id) ∨
        r.eventId = id ∧ (insert table r).filter (·.eventId = id) = [r.stored] := by
  have hany : table.any (·.same r.stored) = true ↔ r.stored ∈ table := by
    simp only [any_eq_true, decide_eq_true_eq]
    constructor
    · rintro ⟨c, hc, hid, -⟩
      exact h c hc hid ▸ hc
    · exact fun hm => ⟨r.stored, hm, rfl, rfl⟩
  by_cases hm : r.stored ∈ table
  · have hsame : insert table r = table := if_pos (hany.mpr hm)
    rw [hsame]
    exact ⟨hm, fun id => .inl rfl⟩
  · have hcons : insert table r = r.stored :: table := if_neg fun ha => hm (hany.mp ha)
    rw [hcons]
    refine ⟨mem_cons_self, fun id => ?_⟩
    by_cases hid : r.eventId = id
    · have hnil : table.filter (·.eventId = id) = [] := by
        rw [filter_eq_nil_iff]
        intro c hc he
        have hcid : c.eventId = r.eventId := by
          rw [hid]
          simpa using he
        exact hm (h c hc hcid ▸ hc)
      exact .inr ⟨hid, by simp [hid, hnil]⟩
    · exact .inl (by simp [hid])

end CloudServer.EventSpill
