import CloudServer.Dict
import CloudServer.BlockedGeometry
import CloudServer.EvenOdd

/-! Polygon keep-out zones in the planner of graph nodes: whether a leg enters a zone, and the path
that is handed out. -/
namespace CloudServer.KeepoutPolygons
open Planar BlockedGeometry EvenOdd List

variable {𝕜 : Type} [Field 𝕜] [LinearOrder 𝕜]

-- one named instance for each numeral below
local instance atLeastTwo_two : Nat.AtLeastTwo 2 := inferInstance
local instance atLeastTwo_ten : Nat.AtLeastTwo 10 := inferInstance

def legCrossesPolygon (a b : 𝕜 × 𝕜) (poly : List (𝕜 × 𝕜)) : Bool :=
  if inside a poly || inside b poly then true
  else (edges poly).any fun e => segmentsIntersect a b e.1 e.2

/-- `leg_crosses_line` with its default half width, one step of 0.1 m. -/
def legCrossesLine (a b p q : 𝕜 × 𝕜) : Bool :=
  if segmentsIntersect a b p q then true
  else within (pointSegmentSq a p q) (1 / 10) || within (pointSegmentSq b p q) (1 / 10) ||
    within (pointSegmentSq p a b) (1 / 10) || within (pointSegmentSq q a b) (1 / 10)

inductive Spec (𝕜 : Type)
  | polygon (poly : List (𝕜 × 𝕜))
  | line (p q : 𝕜 × 𝕜)
  | legacy

structure Row (𝕜 : Type) where
  id : String
  spec : Spec 𝕜

structure Node (𝕜 : Type) where
  id : String
  xy : Option (𝕜 × 𝕜)

structure Edge where
  src : String
  dst : String
deriving DecidableEq

structure Report where
  applied : List String
  unresolved : List String
  detour : Bool
  forcedBy : List String
deriving DecidableEq

structure LegacyOutcome where
  path : List String
  error : Option String
  report : Report
deriving DecidableEq

namespace Row

def asPolygon (r : Row 𝕜) : Option (String × List (𝕜 × 𝕜)) :=
  match r.spec with
  | .polygon poly => some (r.id, poly)
  | _ => none

def asLine (r : Row 𝕜) : Option (String × (𝕜 × 𝕜) × (𝕜 × 𝕜)) :=
  match r.spec with
  | .line p q => some (r.id, p, q)
  | _ => none

end Row

/-- What `legacy_polygon_path` reads of the zones and the graph. -/
structure Scene (𝕜 : Type) where
  polys : List (String × List (𝕜 × 𝕜))
  lines : List (String × (𝕜 × 𝕜) × (𝕜 × 𝕜))
  xy : Dict String (Option (𝕜 × 𝕜))
  start : String

namespace Scene

def of (rows : List (Row 𝕜)) (nodes : List (Node 𝕜)) (start : String) : Scene 𝕜 :=
  ⟨rows.filterMap Row.asPolygon, rows.filterMap Row.asLine, Dict.ofList (nodes.map fun n => (n.id, n.xy)), start⟩

variable (s : Scene 𝕜)

/-- `xy.get(n)`. -/
def pose (n : String) : Option (𝕜 × 𝕜) := (s.xy.get n).getD none

/-- `zones_of(a)`. -/
def zonesOf (a : String) : List String :=
  (s.polys.filter fun z => (s.pose a).any fun p => inside p z.2).map Prod.fst

/-- `zones_of(a, b)`: the start node's legs are exempt. -/
def zonesOfLeg (a b : String) : List String :=
  match s.pose a, s.pose b with
  | some pa, some pb =>
    if a = s.start then []
    else ((s.polys.filter fun z => legCrossesPolygon pa pb z.2).map Prod.fst) ++
      ((s.lines.filter fun z => legCrossesLine pa pb z.2.1 z.2.2).map Prod.fst)
  | _, _ => []

def hits : List String → List String
  | [] => []
  | [n] => if n = s.start then [] else s.zonesOf n
  | n :: m :: rest => (if n = s.start then [] else s.zonesOf n) ++ s.zonesOfLeg n m ++ hits (m :: rest)

def pathHits (path : List String) : List String := (s.hits path).eraseDups

def excluded : List String :=
  s.xy.keys.filter fun n => n ≠ s.start && (s.zonesOf n ≠ [])

end Scene

def visit (excluded : List String) (node : String) (s : Dict String (Option String) × List String)
    (nxt : String) : Dict String (Option String) × List String :=
  if s.1.get nxt = none ∧ nxt ∉ excluded then (s.1.set nxt (some node), s.2 ++ [nxt]) else s

/-- Back along `previous` to the start. -/
def trace (previous : Dict String (Option String)) : ℕ → List String → List String
  | 0, path => path
  | fuel + 1, path =>
    match path.head?.bind fun n => (previous.get n).join with
    | none => path
    | some before => trace previous fuel (before :: path)

def search (neighbours : String → List String) (excluded : List String) (goal : String) :
    ℕ → Dict String (Option String) → List String → Option (List String)
  | 0, _, _ => none
  | _ + 1, _, [] => none
  | fuel + 1, previous, node :: queue =>
    if node = goal then some (trace previous previous.items.length [node])
    else
      let s := (neighbours node).foldl (visit excluded node) (previous, queue)
      search neighbours excluded goal fuel s.1 s.2

def shortestPathAvoiding (graph : List Edge) (start goal : String) (excluded : List String)
    (blocked : String → String → Bool) : Option (List String) :=
  if goal ∈ excluded ∧ goal ≠ start then none
  else
    let adjacency := graph.filter fun e => !blocked e.src e.dst
    search (fun n => (adjacency.filter fun e => e.src = n).map Edge.dst) excluded goal
      (graph.length + 1) (Dict.empty.set start none) [start]

def legacyPolygonPath (rows : List (Row 𝕜)) (nodes : List (Node 𝕜)) (graph : List Edge)
    (path : List String) (start goal : String) : LegacyOutcome :=
  let s := Scene.of rows nodes start
  let report := ⟨s.polys.map Prod.fst ++ s.lines.map Prod.fst, [], false, []⟩
  let forced := s.pathHits path
  if forced = [] then ⟨path, none, report⟩
  else
    let refused := ⟨path, some ("Every route to the goal goes through a keep-out zone (manually switched off " ++
      "regions of the map): " ++ String.intercalate ", " forced ++ ". Choose another goal or turn the zone off."),
      { report with forcedBy := forced }⟩
    let detour := if graph = [] then none
      else shortestPathAvoiding graph start goal s.excluded fun a b => s.zonesOfLeg a b ≠ []
    match detour with
    | none => refused
    | some detour =>
      if s.pathHits detour ≠ [] then refused
      else ⟨detour, none, { report with detour := true, forcedBy := forced }⟩

/-- Inside the polygon and on none of its edges. -/
def Interior (poly : List (𝕜 × 𝕜)) (x : 𝕜 × 𝕜) : Prop :=
  inside x poly ∧ ∀ e ∈ edges poly, x ∉ segment 𝕜 e.1 e.2

def Mark (a b : 𝕜 × 𝕜) (poly : List (𝕜 × 𝕜)) (t : 𝕜) : Prop :=
  t = 0 ∨ t = 1 ∨ (0 ≤ t ∧ t ≤ 1 ∧ along a b t ∈ poly)

structure Stretch (a b : 𝕜 × 𝕜) (poly : List (𝕜 × 𝕜)) (s t : 𝕜) : Prop where
  start : Mark a b poly s
  stop : Mark a b poly t
  lt : s < t
  free : ∀ r, Mark a b poly r → r ≤ s ∨ t ≤ r

/-- An end of the leg is inside or an edge is crossed properly, or no stretch of the leg between
neighbouring corners has its middle in the interior. -/
def NoSlip (a b : 𝕜 × 𝕜) (poly : List (𝕜 × 𝕜)) : Prop :=
  (inside a poly ∨ inside b poly ∨ ∃ e ∈ edges poly, segmentsIntersect a b e.1 e.2) ∨
    ∀ s t, Stretch a b poly s t → ¬Interior poly (along a b ((s + t) / 2))

theorem legCrossesPolygon_iff {a b : 𝕜 × 𝕜} {poly : List (𝕜 × 𝕜)} : legCrossesPolygon a b poly ↔
    inside a poly ∨ inside b poly ∨ ∃ e ∈ edges poly, segmentsIntersect a b e.1 e.2 := by
  unfold legCrossesPolygon
  split_ifs with h
  · rw [Bool.or_eq_true] at h
    exact iff_of_true rfl (h.imp id Or.inl)
  · rw [Bool.or_eq_true, not_or] at h
    rw [any_eq_true]
    constructor
    · intro he
      exact Or.inr (Or.inr he)
    · intro he
      exact (he.resolve_left h.1).resolve_left h.2

variable [IsStrictOrderedRing 𝕜] {a b c d x : 𝕜 × 𝕜} {poly : List (𝕜 × 𝕜)} {s t τ ρ : 𝕜}

theorem Mark.bounds (h : Mark a b poly t) : 0 ≤ t ∧ t ≤ 1 := by
  rcases h with rfl | rfl | ⟨h₀, h₁, -⟩
  · exact ⟨le_rfl, zero_le_one⟩
  · exact ⟨zero_le_one, le_rfl⟩
  · exact ⟨h₀, h₁⟩

theorem Stretch.corner (h : Stretch a b poly s t) (hc : along a b τ ∈ poly) : τ ≤ s ∨ t ≤ τ := by
  by_cases h₀ : 0 ≤ τ
  · by_cases h₁ : τ ≤ 1
    · exact h.free τ (Or.inr (Or.inr ⟨h₀, h₁, hc⟩))
    · exact Or.inr (h.stop.bounds.2.trans (not_le.mp h₁).le)
  · exact Or.inl ((not_le.mp h₀).le.trans h.start.bounds.1)

theorem Interior.not_corner (h : Interior poly x) : x ∉ poly := by
  intro hx
  obtain ⟨e, he, rfl⟩ := exists_edge hx
  exact h.2 e he (left_mem_segment 𝕜 _ _)

theorem Stretch.covered (h : Stretch a b poly s t) {u v r : 𝕜} (hu : along a b u ∈ poly)
    (hv : along a b v ∈ poly) (huv : u < v) (hr₀ : 0 ≤ r) (hr₁ : r ≤ 1) (hs : s < u + r * (v - u))
    (ht : u + r * (v - u) < t) (hτs : s < τ) (hτt : τ < t) :
    along a b τ ∈ segment 𝕜 (along a b u) (along a b v) := by
  have hlo : u ≤ u + r * (v - u) := le_add_of_nonneg_right (mul_nonneg hr₀ (sub_nonneg.mpr huv.le))
  have hhi : u + r * (v - u) ≤ v := by
    have hmul := mul_le_mul_of_nonneg_right hr₁ (sub_nonneg.mpr huv.le)
    linarith
  have hus : u ≤ s := (h.corner hu).resolve_right fun htu => by linarith
  have hvt : t ≤ v := (h.corner hv).resolve_left fun hvs => by linarith
  exact along_mem_along (hus.trans hτs.le) (hτt.le.trans hvt)

theorem Stretch.touches (h : Stretch a b poly s t) (hab : a ≠ b) (hc : c ∈ poly) (hd : d ∈ poly)
    (hno : ¬segmentsIntersect a b c d) (hρs : s < ρ) (hρt : ρ < t) (hρ : along a b ρ ∈ segment 𝕜 c d)
    (hτs : s < τ) (hτt : τ < t) : along a b τ ∈ segment 𝕜 c d := by
  have hout : along a b ρ ∉ poly := by
    intro hmem
    rcases h.corner hmem with hle | hle
    · exact hle.not_gt hρs
    · exact hle.not_gt hρt
  obtain ⟨r, hr₀, hr₁, hr⟩ := mem_segment_iff.mp hρ
  have hr₀' : 0 < r := by
    refine hr₀.lt_of_ne fun he => hout ?_
    rw [hr, ← he]
    simpa [along] using hc
  have hr₁' : r < 1 := by
    refine hr₁.lt_of_ne fun he => hout ?_
    rw [hr, he]
    simpa [along] using hd
  have hρ₀ : 0 < ρ := h.start.bounds.1.trans_lt hρs
  have hρ₁ : ρ < 1 := hρt.trans_le h.stop.bounds.2
  obtain ⟨hcl, hdl⟩ := (intersect_or_line hρ₀ hρ₁ hr₀' hr₁' hr).resolve_left hno
  obtain ⟨u, rfl⟩ := exists_share hab hcl
  obtain ⟨v, rfl⟩ := exists_share hab hdl
  rw [along_along] at hr
  have hρeq : ρ = u + r * (v - u) := along_injective hab hr
  rw [hρeq] at hρs hρt
  rcases lt_trichotomy u v with huv | huv | huv
  · exact h.covered hc hd huv hr₀ hr₁ hρs hρt hτs hτt
  · rw [hρeq, huv, sub_self, mul_zero, add_zero] at hout
    exact absurd hd hout
  · have hturn : u + r * (v - u) = v + (1 - r) * (u - v) := by ring
    rw [hturn] at hρs hρt
    rw [segment_symm]
    exact h.covered hd hc huv (sub_nonneg.mpr hr₁) (sub_le_self 1 hr₀) hρs hρt hτs hτt

theorem finite_marks (hab : a ≠ b) : {t | Mark a b poly t}.Finite := by
  have hcorners : (Set.preimage (along a b) {x | x ∈ poly}).Finite :=
    (finite_toSet poly).preimage (along_injective hab).injOn
  refine ((Set.toFinite {0, 1}).union hcorners).subset ?_
  rintro t (rfl | rfl | ⟨-, -, ht⟩)
  · simp
  · simp
  · exact Or.inr ht

theorem exists_stretch (hab : a ≠ b) (h₀ : 0 < τ) (h₁ : τ < 1) (hx : along a b τ ∉ poly) :
    ∃ s t, Stretch a b poly s t ∧ s < τ ∧ τ < t := by
  have hmark : ∀ r, Mark a b poly r → r ≠ τ := by
    rintro r (rfl | rfl | ⟨-, -, hr⟩) rfl
    · exact h₀.false
    · exact h₁.false
    · exact hx hr
  obtain ⟨s, ⟨hs, hsτ⟩, hmax⟩ := Set.exists_max_image {r | Mark a b poly r ∧ r < τ} id
    ((finite_marks hab).subset fun r hr => hr.1) ⟨0, Or.inl rfl, h₀⟩
  obtain ⟨t, ⟨ht, hτt⟩, hmin⟩ := Set.exists_min_image {r | Mark a b poly r ∧ τ < r} id
    ((finite_marks hab).subset fun r hr => hr.1) ⟨1, Or.inr (Or.inl rfl), h₁⟩
  refine ⟨s, t, ⟨hs, ht, hsτ.trans hτt, ?_⟩, hsτ, hτt⟩
  intro r hr
  rcases (hmark r hr).lt_or_gt with hlt | hgt
  · exact Or.inl (hmax r ⟨hr, hlt⟩)
  · exact Or.inr (hmin r ⟨hr, hgt⟩)

theorem Stretch.interior (h : Stretch a b poly s t) (hab : a ≠ b)
    (hno : ∀ e ∈ edges poly, ¬segmentsIntersect a b e.1 e.2) (hτs : s < τ) (hτt : τ < t)
    (hi : Interior poly (along a b τ)) (hρs : s < ρ) (hρt : ρ < t) : Interior poly (along a b ρ) := by
  have hfree : ∀ e ∈ edges poly, ∀ r, s < r → r < t → along a b r ∉ segment 𝕜 e.1 e.2 := by
    intro e he r hrs hrt hr
    obtain ⟨h₁, h₂⟩ := mem_of_mem_edges he
    exact hi.2 e he (h.touches hab h₁ h₂ (hno e he) hrs hrt hr hτs hτt)
  refine ⟨?_, fun e he => hfree e he ρ hρs hρt⟩
  rw [← inside_eq_of_apart (p := along a b τ)]
  · exact hi.1
  · rintro e he ⟨y, hy, hye⟩
    obtain ⟨r, hr₀, hr₁, rfl⟩ := mem_segment_iff.mp hy
    rw [along_along] at hye
    obtain ⟨hlo, hhi⟩ := between_of_share (u := τ) (v := ρ) hr₀ hr₁
    exact hfree e he _ ((lt_min hτs hρs).trans_le hlo) (hhi.trans_lt (max_lt hτt hρt)) hye

theorem mem_openSegment_iff : x ∈ openSegment 𝕜 a b ↔ ∃ t, 0 < t ∧ t < 1 ∧ x = along a b t := by
  rw [openSegment_eq_image']
  constructor
  · rintro ⟨t, ⟨h₀, h₁⟩, rfl⟩
    exact ⟨t, h₀, h₁, rfl⟩
  · rintro ⟨t, h₀, h₁, rfl⟩
    exact ⟨t, ⟨h₀, h₁⟩, rfl⟩

theorem Stretch.middle (h : Stretch a b poly s t) : along a b ((s + t) / 2) ∈ openSegment 𝕜 a b := by
  have h₀ := h.start.bounds.1
  have h₁ := h.stop.bounds.2
  have hlt := h.lt
  exact mem_openSegment_iff.mpr ⟨(s + t) / 2, by linarith, by linarith, rfl⟩

theorem reported_iff (a b : 𝕜 × 𝕜) (poly : List (𝕜 × 𝕜)) :
    (∀ x ∈ openSegment 𝕜 a b, Interior poly x → legCrossesPolygon a b poly) ↔ NoSlip a b poly := by
  unfold NoSlip
  rw [← legCrossesPolygon_iff]
  constructor
  · intro h
    by_cases hc : legCrossesPolygon a b poly
    · exact Or.inl hc
    · exact Or.inr fun s t hst hi => hc (h _ hst.middle hi)
  · rintro h x hx hi
    by_contra hc
    have hno := mt legCrossesPolygon_iff.mpr hc
    simp only [not_or, not_exists, not_and] at hno
    obtain ⟨τ, h₀, h₁, rfl⟩ := mem_openSegment_iff.mp hx
    by_cases hab : a = b
    · subst hab
      have hsame : along a a τ = a := by simp [along]
      exact hno.1 (hsame ▸ hi.1)
    · obtain ⟨s, t, hst, hs, ht⟩ := exists_stretch hab h₀ h₁ hi.not_corner
      have hlt := hst.lt
      exact h.resolve_left hc s t hst
        (hst.interior hab hno.2.2 hs ht hi (by linarith) (by linarith))

variable {start : String}

section
variable {targets excluded : List String} {goal : String} {neighbours : String → List String}

def room (targets : List String) (previous : Dict String (Option String)) : ℕ :=
  (targets.toFinset.filter fun n => previous.get n = none).card

variable {node : String} {previous : Dict String (Option String)}

theorem room_visit {nxt : String} (s : Dict String (Option String) × List String) (hnxt : nxt ∈ targets) :
    room targets (visit excluded node s nxt).1 + (visit excluded node s nxt).2.length ≤ room targets s.1 + s.2.length := by
  unfold visit
  split_ifs with h
  · have hlt : room targets (s.1.set nxt (some node)) < room targets s.1 := by
      apply Finset.card_lt_card
      rw [Finset.ssubset_iff_of_subset]
      · refine ⟨nxt, by simp [hnxt, h.1], ?_⟩
        simp [Dict.get_set]
      · intro n hn
        rw [Finset.mem_filter, Dict.get_set] at hn
        rw [Finset.mem_filter]
        refine ⟨hn.1, ?_⟩
        split_ifs at hn with he
        · exact absurd hn.2 (by simp)
        · exact hn.2
    simp only [length_append, length_singleton]
    omega
  · exact le_rfl

theorem room_foldl (excluded : List String) (node : String) (nexts : List String) (hn : ∀ n ∈ nexts, n ∈ targets)
    (s : Dict String (Option String) × List String) :
    room targets (nexts.foldl (visit excluded node) s).1 + (nexts.foldl (visit excluded node) s).2.length ≤
      room targets s.1 + s.2.length := by
  induction nexts generalizing s with
  | nil => exact le_rfl
  | cons nxt rest ih =>
    have hrest := ih (fun n hn' => hn n (mem_cons_of_mem _ hn')) (visit excluded node s nxt)
    exact hrest.trans (room_visit s (hn nxt mem_cons_self))

lemma visited_iff {nexts : List String} {s : Dict String (Option String) × List String} {n : String} :
    ((nexts.foldl (visit excluded node) s).1.get n ≠ none ↔ s.1.get n ≠ none ∨ n ∈ nexts ∧ n ∉ excluded) ∧
      (n ∈ (nexts.foldl (visit excluded node) s).2 ↔ n ∈ s.2 ∨ n ∈ nexts ∧ n ∉ excluded ∧ s.1.get n = none) := by
  induction nexts generalizing s with
  | nil => simp
  | cons nxt rest ih =>
    rw [foldl_cons, (ih (s := visit excluded node s nxt)).1, (ih (s := visit excluded node s nxt)).2]
    unfold visit
    split_ifs with h
    · by_cases hn : n = nxt
      · simp [hn, h, Dict.get_set]
      · simp [hn, Dict.get_set]
    · rw [not_and_not_right] at h
      by_cases hn : n = nxt
      · subst hn
        simp only [mem_cons, true_or, true_and]
        tauto
      · simp [hn]

/-- All that was visited can be reached, and a node that is not queued any more is not the goal and
has its neighbours visited. -/
structure Frontier (hop : String → String → Prop) (start goal : String)
    (previous : Dict String (Option String)) (queue : List String) : Prop where
  begun : previous.get start ≠ none
  reached : ∀ n, previous.get n ≠ none → Relation.ReflTransGen hop start n
  queued : ∀ n ∈ queue, previous.get n ≠ none
  left : ∀ n, previous.get n ≠ none → n ∈ queue ∨ n ≠ goal ∧ ∀ m, hop n m → previous.get m ≠ none

lemma Frontier.unreached {hop : String → String → Prop} (h : Frontier hop start goal previous []) :
    ¬ Relation.ReflTransGen hop start goal := by
  intro hgoal
  have hall : ∀ n, Relation.ReflTransGen hop start n → previous.get n ≠ none := by
    intro n hreach
    induction hreach with
    | refl => exact h.begun
    | tail _ hhop ih => exact ((h.left _ ih).resolve_left not_mem_nil).2 _ hhop
  exact ((h.left _ (hall goal hgoal)).resolve_left not_mem_nil).1 rfl

def Hop (neighbours : String → List String) (excluded : List String) (n m : String) : Prop :=
  m ∈ neighbours n ∧ m ∉ excluded

variable {queue : List String}

lemma Frontier.next
    (h : Frontier (Hop neighbours excluded) start goal previous (node :: queue)) (hg : node ≠ goal) :
    Frontier (Hop neighbours excluded) start goal ((neighbours node).foldl (visit excluded node) (previous, queue)).1
      ((neighbours node).foldl (visit excluded node) (previous, queue)).2 := by
  have hnode := h.queued node mem_cons_self
  refine ⟨visited_iff.1.mpr (.inl h.begun), fun n hv => ?_, fun n hq => ?_, fun n hv => ?_⟩
  · exact (visited_iff.1.mp hv).elim (h.reached n) fun hhop => (h.reached node hnode).tail hhop
  · rcases visited_iff.2.mp hq with hq | ⟨hm, hx, -⟩
    · exact visited_iff.1.mpr (.inl (h.queued n (mem_cons_of_mem _ hq)))
    · exact visited_iff.1.mpr (.inr ⟨hm, hx⟩)
  · by_cases hold : previous.get n = none
    · obtain ⟨hm, hx⟩ := (visited_iff.1.mp hv).resolve_left (not_not.mpr hold)
      exact .inl (visited_iff.2.mpr (.inr ⟨hm, hx, hold⟩))
    · rcases h.left n hold with hq | ⟨hne, hhops⟩
      · rcases mem_cons.mp hq with rfl | hq
        · exact .inr ⟨hg, fun m hhop => visited_iff.1.mpr (.inr hhop)⟩
        · exact .inl (visited_iff.2.mpr (.inl hq))
      · exact .inr ⟨hne, fun m hhop => visited_iff.1.mpr (.inl (hhops m hhop))⟩

theorem search_isSome_iff (hn : ∀ n, ∀ m ∈ neighbours n, m ∈ targets) {fuel : ℕ}
    (h : Frontier (Hop neighbours excluded) start goal previous queue)
    (hroom : room targets previous + queue.length ≤ fuel) :
    (search neighbours excluded goal fuel previous queue).isSome ↔
      Relation.ReflTransGen (Hop neighbours excluded) start goal := by
  induction fuel generalizing previous queue with
  | zero =>
    obtain rfl : queue = [] := length_eq_zero_iff.mp (by omega)
    simpa [search] using h.unreached
  | succ fuel ih =>
    cases queue with
    | nil => simpa [search] using h.unreached
    | cons node queue =>
      rw [search]
      split_ifs with hg
      · exact iff_of_true rfl (hg ▸ h.reached node (h.queued node mem_cons_self))
      · have hfold := room_foldl excluded node (neighbours node) (hn node) (previous, queue)
        dsimp only at hfold
        rw [length_cons] at hroom
        exact ih (h.next hg) (by omega)

/-- The search for a detour finds one exactly if there is one, along edges that are not blocked and
into nodes that are not excluded. -/
theorem detour_found_iff (graph : List Edge) (start goal : String) (excluded : List String)
    (blocked : String → String → Bool) :
    (shortestPathAvoiding graph start goal excluded blocked).isSome ↔
      Relation.ReflTransGen (fun n m => (∃ e ∈ graph, e.src = n ∧ e.dst = m ∧ blocked n m = false) ∧
        m ∉ excluded) start goal := by
  have hhop : (fun n m => (∃ e ∈ graph, e.src = n ∧ e.dst = m ∧ blocked n m = false) ∧ m ∉ excluded) =
      Hop (fun n => ((graph.filter fun e => !blocked e.src e.dst).filter fun e => e.src = n).map Edge.dst)
        excluded := by
    funext n m
    simp only [Hop, mem_map, mem_filter, Bool.not_eq_true', decide_eq_true_eq]
    refine propext (and_congr_left fun _ => exists_congr fun e => ?_)
    constructor
    · rintro ⟨he, rfl, rfl, hb⟩
      exact ⟨⟨⟨he, hb⟩, rfl⟩, rfl⟩
    · rintro ⟨⟨⟨he, hb⟩, rfl⟩, rfl⟩
      exact ⟨he, rfl, rfl, hb⟩
  unfold shortestPathAvoiding
  split_ifs with hx
  · refine iff_of_false (by simp) fun hgoal => ?_
    rcases hgoal.cases_tail with he | ⟨n, -, -, hm⟩
    · exact hx.2 he
    · exact hm hx.1
  · rw [hhop]
    have hget : ∀ n, (Dict.empty.set start none : Dict String (Option String)).get n ≠ none ↔ n = start := by
      intro n
      rw [Dict.get_set]
      split_ifs with h <;> simp [h]
    refine search_isSome_iff (fun n m hm => (?_ : m ∈ graph.map Edge.dst)) ⟨(hget start).mpr rfl,
      fun n h => (hget n).mp h ▸ .refl, fun n h => (hget n).mpr (mem_singleton.mp h),
      fun n h => .inl (mem_singleton.mpr ((hget n).mp h))⟩ ?_
    · obtain ⟨e, he, rfl⟩ := mem_map.mp hm
      exact mem_map_of_mem (mem_of_mem_filter (mem_of_mem_filter he))
    · have hcard : room (graph.map Edge.dst) (Dict.empty.set start none) ≤ (graph.map Edge.dst).toFinset.card :=
        Finset.card_filter_le _ _
      have hlen := toFinset_card_le (graph.map Edge.dst)
      rw [length_map] at hlen
      simp only [length_singleton]
      omega

end

section
variable {sc : Scene 𝕜} {path : List String}

omit [IsStrictOrderedRing 𝕜]

theorem Scene.pathHits_eq_nil (h : sc.pathHits path = []) : sc.hits path = [] := by
  unfold Scene.pathHits at h
  cases hh : sc.hits path with
  | nil => rfl
  | cons z zs =>
    rw [hh, eraseDups_cons] at h
    cases h

theorem Scene.zonesOfLeg_of_hits (h : sc.hits path = []) {l : String × String}
    (hl : l ∈ path.zip path.tail) : sc.zonesOfLeg l.1 l.2 = [] := by
  induction path with
  | nil => simp at hl
  | cons n rest ih =>
    cases rest with
    | nil => simp at hl
    | cons m rest =>
      rw [Scene.hits, append_eq_nil_iff, append_eq_nil_iff] at h
      rw [tail_cons, zip_cons_cons, mem_cons] at hl
      rcases hl with rfl | hl
      · exact h.1.2
      · exact ih h.2 hl

theorem Scene.not_crosses {n m : String} (h : sc.zonesOfLeg n m = []) (hn : n ≠ sc.start)
    {pa pb : 𝕜 × 𝕜} (ha : sc.pose n = some pa) (hb : sc.pose m = some pb) {z : String × List (𝕜 × 𝕜)}
    (hz : z ∈ sc.polys) : ¬legCrossesPolygon pa pb z.2 := by
  intro hc
  simp only [Scene.zonesOfLeg, ha, hb, if_neg hn, append_eq_nil_iff, map_eq_nil_iff] at h
  exact (filter_eq_nil_iff.mp h.1) z hz hc

theorem pathHits_of_no_error {rows : List (Row 𝕜)} {nodes : List (Node 𝕜)} {graph : List Edge}
    {goal : String}
    (h : (legacyPolygonPath rows nodes graph path start goal).error = none) :
    (Scene.of rows nodes start).pathHits (legacyPolygonPath rows nodes graph path start goal).path = [] := by
  unfold legacyPolygonPath at h ⊢
  dsimp only at h ⊢
  by_cases hforced : (Scene.of rows nodes start).pathHits path = []
  · rw [if_pos hforced]
    exact hforced
  · rw [if_neg hforced] at h ⊢
    generalize (if graph = [] then none else _) = detour at h ⊢
    cases detour with
    | none => cases h
    | some detour =>
      dsimp only at h ⊢
      by_cases hdetour : (Scene.of rows nodes start).pathHits detour ≠ []
      · rw [if_pos hdetour] at h
        cases h
      · rw [if_neg hdetour]
        exact not_not.mp hdetour

end

/-- A leg that enters the interior of a polygon is reported, and a leg of the route that is handed
out, not from the start, stays out of every polygon zone, unless it slips in through corners. -/
theorem legacy_route_iff :
    (∀ (a b : 𝕜 × 𝕜) (poly : List (𝕜 × 𝕜)),
      (∀ x ∈ openSegment 𝕜 a b, Interior poly x → legCrossesPolygon a b poly) ↔ NoSlip a b poly) ∧
    ∀ (rows : List (Row 𝕜)) (nodes : List (Node 𝕜)) (graph : List Edge) (path : List String)
      (start goal : String),
      (legacyPolygonPath rows nodes graph path start goal).error = none →
      ∀ l ∈ (legacyPolygonPath rows nodes graph path start goal).path.zip
          (legacyPolygonPath rows nodes graph path start goal).path.tail, l.1 ≠ start →
        ∀ pa pb, (Scene.of rows nodes start).pose l.1 = some pa → (Scene.of rows nodes start).pose l.2 = some pb →
          ∀ r ∈ rows, ∀ poly, r.spec = .polygon poly →
            ((∀ x ∈ openSegment 𝕜 pa pb, ¬Interior poly x) ↔ NoSlip pa pb poly) := by
  refine ⟨reported_iff, ?_⟩
  intro rows nodes graph path start goal herr l hl hstart pa pb ha hb r hr poly hpoly
  have hhits := Scene.pathHits_eq_nil (pathHits_of_no_error herr)
  have hz : (r.id, poly) ∈ (Scene.of rows nodes start).polys :=
    mem_filterMap.mpr ⟨r, hr, by simp [Row.asPolygon, hpoly]⟩
  have hc := Scene.not_crosses (Scene.zonesOfLeg_of_hits hhits hl) hstart ha hb hz
  rw [← reported_iff]
  constructor
  · intro h x hx hi
    exact absurd hi (h x hx)
  · intro h x hx hi
    exact hc (h x hx hi)

/-- A leg across two sides of a square. -/
theorem legacy_route_iff_across :
    let square : List (ℚ × ℚ) := [(0, 0), (2, 0), (2, 2), (0, 2)]
    ∀ x ∈ openSegment ℚ ((-1, 1) : ℚ × ℚ) (3, 1), Interior square x →
      legCrossesPolygon ((-1, 1) : ℚ × ℚ) (3, 1) square :=
  ((legacy_route_iff (𝕜 := ℚ)).1 _ _ _).mpr
    (Or.inl (Or.inr (Or.inr ⟨((2, 0), (2, 2)), by decide +kernel, by decide +kernel⟩)))

/-- A leg through two corners of a square is not reported, and a route along it is handed out. -/
theorem leg_slips_in :
    let square : List (ℚ × ℚ) := [(0, 0), (2, 0), (2, 2), (0, 2)]
    let out := legacyPolygonPath [⟨"zone", .polygon square⟩]
      [⟨"n0", some (-2, -1)⟩, ⟨"n1", some (-1, -1)⟩, ⟨"n2", some (3, 3)⟩] [] ["n0", "n1", "n2"] "n0" "n2"
    ((1, 1) ∈ openSegment ℚ ((-1, -1) : ℚ × ℚ) (3, 3) ∧ Interior square (1, 1)) ∧
      legCrossesPolygon (-1, -1) (3, 3) square = false ∧ out.error = none ∧ out.path = ["n0", "n1", "n2"] := by
  refine ⟨⟨?_, by decide +kernel, ?_⟩, by decide +kernel, by decide +kernel, by decide +kernel⟩
  · refine mem_openSegment_iff.mpr ⟨1 / 2, by norm_num, by norm_num, ?_⟩
    norm_num [along]
  · intro e he
    have hedges : edges [((0, 0) : ℚ × ℚ), (2, 0), (2, 2), (0, 2)] =
        [((0, 0), (2, 0)), ((2, 0), (2, 2)), ((2, 2), (0, 2)), ((0, 2), (0, 0))] := rfl
    rw [hedges] at he
    intro hx
    have hbox := box_of_mem hx
    fin_cases he <;> norm_num at hbox

end CloudServer.KeepoutPolygons
