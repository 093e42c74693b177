import CloudServer.TurnRoute

/-! The turn-cost search is exact and canonical. -/
namespace CloudServer.TurnRoute
open Shortest List Option

inductive Walk (E : List Edge) : ℕ → List Edge → ℕ → Prop
  | nil {x : ℕ} : Walk E x [] x
  | cons {e : Edge} {p : List Edge} {t : ℕ} (he : e ∈ E) (h : Walk E e.v p t) : Walk E e.u (e :: p) t

/-- The cell sequence of a walk from `s`. -/
def cells (s : ℕ) (p : List Edge) : List ℕ := s :: p.map Edge.v

def length (p : List Edge) : ℕ := (p.map Edge.w).sum

/-- The weights of a path with its turns, after a heading. -/
def turned (tab : Table) : Option ℤ → List Edge → ℕ
  | _, [] => 0
  | none, e :: p => e.w + turned tab (some e.h) p
  | some hd, e :: p => e.w + tab hd e.h + turned tab (some e.h) p

lemma nil_le_list (l : List ℕ) : [] ≤ l := by
  cases l with
  | nil => exact le_rfl
  | cons => exact le_of_lt List.Lex.nil

lemma cons_le_cons_iff {a b : ℕ} {l l' : List ℕ} : a :: l ≤ b :: l' ↔ a < b ∨ a = b ∧ l ≤ l' := by
  have hlt : a :: l < b :: l' ↔ a < b ∨ a = b ∧ l < l' := cons_lex_cons_iff
  rw [le_iff_lt_or_eq, le_iff_lt_or_eq, hlt, List.cons.injEq]
  tauto

lemma cells_nil_le (s : ℕ) (p : List Edge) : cells s [] ≤ cells s p :=
  cons_le_cons_iff.mpr (.inr ⟨rfl, nil_le_list _⟩)

/-- A cheapest walk, the first by its cells among the cheapest. -/
structure Best (cost : List Edge → ℕ) (E : List Edge) (s t : ℕ) (p : List Edge) : Prop where
  walk : Walk E s p t
  least : ∀ p', Walk E s p' t → cost p ≤ cost p'
  first : ∀ p', Walk E s p' t → cost p' = cost p → cells s p ≤ cells s p'

/-- Links join neighbouring cells under their heading, two cells at most once. -/
structure Lattice (g : Graph) : Prop where
  pos : ∀ e ∈ g.links, 0 < e.w
  step : ∀ e ∈ g.links, |g.ys e.v - g.ys e.u| ≤ 1 ∧ |g.xs e.v - g.xs e.u| ≤ 1 ∧
    ¬ (g.ys e.v = g.ys e.u ∧ g.xs e.v = g.xs e.u)
  head : ∀ e ∈ g.links, e.h = heading (g.ys e.v - g.ys e.u) (g.xs e.v - g.xs e.u)
  once : g.links.Pairwise fun e e' => s(e.u, e.v) ≠ s(e'.u, e'.v)

structure Steps (E : List Edge) : Prop where
  pos : ∀ e ∈ E, 0 < e.w
  head : ∀ e ∈ E, e.h ∈ headings
  unique : ∀ e ∈ E, ∀ e' ∈ E, e.u = e'.u → e.v = e'.v → e = e'

lemma heading_spec {dy dx : ℤ} (hy : |dy| ≤ 1) (hx : |dx| ≤ 1) (h0 : ¬ (dy = 0 ∧ dx = 0)) :
    heading dy dx ∈ headings ∧ heading (-dy) (-dx) = (heading dy dx + 4) % 8 := by
  obtain ⟨hy₁, hy₂⟩ := abs_le.mp hy
  obtain ⟨hx₁, hx₂⟩ := abs_le.mp hx
  interval_cases dy <;> interval_cases dx <;> first | exact absurd ⟨rfl, rfl⟩ h0 | decide

variable {E' p : List Edge} {s t : ℕ} {e : Edge}

lemma Lattice.edge_head {g : Graph} (h : Lattice g) (he : e ∈ g.edges) :
    e.h ∈ headings ∧ e.h = heading (g.ys e.v - g.ys e.u) (g.xs e.v - g.xs e.u) := by
  rcases mem_append.mp he with he | he
  · obtain ⟨hy, hx, h0⟩ := h.step e he
    rw [h.head e he]
    exact ⟨(heading_spec hy hx (by omega)).1, rfl⟩
  · obtain ⟨l, hl, rfl⟩ := mem_map.mp he
    obtain ⟨hy, hx, h0⟩ := h.step l hl
    have hs := heading_spec hy hx (by omega)
    have hback : l.back.h = heading (g.ys l.u - g.ys l.v) (g.xs l.u - g.xs l.v) := by
      change (l.h + 4) % 8 = _
      rw [h.head l hl, ← hs.2, neg_sub, neg_sub]
    refine ⟨?_, hback⟩
    rw [hback]
    refine (heading_spec ?_ ?_ (by omega)).1
    · rwa [abs_sub_comm]
    · rwa [abs_sub_comm]

lemma Lattice.steps {g : Graph} (h : Lattice g) : Steps g.edges := by
  have hone : ∀ e ∈ g.links, ∀ e' ∈ g.links, s(e.u, e.v) = s(e'.u, e'.v) → e = e' := by
    intro e he e' he' heq
    by_contra hne
    have : Std.Symm fun e e' : Edge => s(e.u, e.v) ≠ s(e'.u, e'.v) := ⟨fun _ _ h => h.symm⟩
    exact h.once.forall he he' hne heq
  have hself : ∀ e ∈ g.links, e.u ≠ e.v := by
    intro e he heq
    exact (h.step e he).2.2 ⟨by rw [heq], by rw [heq]⟩
  refine ⟨fun e he => ?_, fun e he => (h.edge_head he).1, fun e he e' he' hu hv => ?_⟩
  · rcases mem_append.mp he with he | he
    · exact h.pos e he
    · obtain ⟨l, hl, rfl⟩ := mem_map.mp he
      exact h.pos l hl
  · rcases mem_append.mp he with he | he <;> rcases mem_append.mp he' with he' | he'
    · exact hone e he e' he' (by rw [hu, hv])
    · obtain ⟨l, hl, rfl⟩ := mem_map.mp he'
      have heq : e = l := hone e he l hl (by rw [hu, hv]; exact Sym2.eq_swap)
      subst heq
      exact absurd hu (hself e he)
    · obtain ⟨l, hl, rfl⟩ := mem_map.mp he
      have heq : e' = l := hone e' he' l hl (by rw [← hu, ← hv]; exact Sym2.eq_swap)
      subst heq
      exact absurd hu.symm (hself e' he')
    · obtain ⟨l, hl, rfl⟩ := mem_map.mp he
      obtain ⟨l', hl', rfl⟩ := mem_map.mp he'
      have hu : l.v = l'.v := hu
      have hv : l.u = l'.u := hv
      rw [hone l hl l' hl' (by rw [hu, hv])]

lemma Steps.mono {E : List Edge} (h : Steps E) (hsub : ∀ e ∈ E', e ∈ E) : Steps E' :=
  ⟨fun e he => h.pos e (hsub e he), fun e he => h.head e (hsub e he),
    fun e he e' he' => h.unique e (hsub e he) e' (hsub e' he')⟩

lemma Walk.mem {E : List Edge} (h : Walk E s p t) : ∀ e ∈ p, e ∈ E := by
  induction h with
  | nil => simp
  | cons he _ ih => exact forall_mem_cons.mpr ⟨he, ih⟩

lemma Walk.of_mem {E : List Edge} (h : Walk E s p t) (hm : ∀ e ∈ p, e ∈ E') : Walk E' s p t := by
  induction h with
  | nil => exact .nil
  | cons _ _ ih =>
    obtain ⟨he, hp⟩ := forall_mem_cons.mp hm
    exact .cons he (ih hp)

lemma Walk.cons_inv {E : List Edge} (h : Walk E s (e :: p) t) :
    e ∈ E ∧ e.u = s ∧ Walk E e.v p t := by
  cases h with
  | cons he h => exact ⟨he, rfl, h⟩

lemma Walk.nil_inv {E : List Edge} (h : Walk E s [] t) : s = t := by
  cases h
  rfl

variable {d : ℕ} {hd : ℤ}

lemma trail_iff_walk {E : List Edge} (hE : Steps E) {tab : Table} {dst c : ℕ} :
    Trail (transposed tab E) (headings.map fun hin => (dst, hin)) (c, hd) d ↔
      hd ∈ headings ∧ ∃ p, Walk E c p dst ∧ turned tab (some hd) p = d := by
  constructor
  · intro h
    generalize hx : (c, hd) = x at h
    induction h generalizing c hd with
    | source hm =>
      obtain ⟨hin, hh, rfl⟩ := mem_map.mp hm
      cases hx
      exact ⟨hh, [], .nil, rfl⟩
    | arc _ he ih =>
      obtain ⟨e, heE, hm⟩ := mem_flatMap.mp he
      obtain ⟨hin, hh, heq⟩ := mem_map.mp hm
      cases heq
      cases hx
      obtain ⟨-, p, hp, hcost⟩ := ih rfl
      refine ⟨hh, e :: p, .cons heE hp, ?_⟩
      simp only [turned, hcost]
      omega
  · rintro ⟨hh, p, hp, rfl⟩
    induction p generalizing c hd with
    | nil =>
      rw [hp.nil_inv]
      exact .source (mem_map.mpr ⟨hd, hh, rfl⟩)
    | cons e p ih =>
      obtain ⟨he, rfl, hrest⟩ := hp.cons_inv
      have hcost : turned tab (some hd) (e :: p) =
          turned tab (some e.h) p + (e.w + tab hd e.h) := by
        simp only [turned]
        omega
      rw [hcost]
      refine .arc (ih (hE.head e he) hrest) ?_
      exact mem_flatMap.mpr ⟨e, he, mem_map.mpr ⟨hd, hh, rfl⟩⟩

/-- `D` gives the costs of the walks to the goal, up to a limit. -/
def Exact (tab : Table) (E : List Edge) (dst : ℕ) (limit : Option ℕ) (D : ℕ × ℤ → Option ℕ) : Prop :=
  ∀ c hd d, hd ∈ headings → (D (c, hd) = some d ↔
    IsLeast {d | ∃ p, Walk E c p dst ∧ turned tab (some hd) p = d} d ∧ Within limit d)

lemma exact_states {dijkstra : Search} (h : dijkstra.Exact) {E : List Edge} (hE : Steps E)
    (tab : Table) (dst : ℕ) (limit : Option ℕ) :
    Exact tab E dst limit (dijkstra (ℕ × ℤ) (transposed tab E) (headings.map fun hin => (dst, hin)) limit) := by
  intro c hd d hh
  rw [h]
  unfold Distance
  have hset : {d | Trail (transposed tab E) (headings.map fun hin => (dst, hin)) (c, hd) d} =
      {d | ∃ p, Walk E c p dst ∧ turned tab (some hd) p = d} := by
    ext d
    exact (trail_iff_walk hE).trans (and_iff_right hh)
  rw [hset]

lemma next_spec (val : Edge → Option ℕ) {best : Option ℕ} {out : List Edge} {e₀ : Edge} (he : e₀ ∈ out) (hv : val e₀ = best) :
    ∃ e, next val best out = some e ∧ e ∈ out ∧ val e = best ∧ ∀ e' ∈ out, val e' = best → e.v ≤ e'.v := by
  have hmem : ∀ e, e ∈ out.filter (fun e => val e = best) ↔ e ∈ out ∧ val e = best := by
    simp [mem_filter]
  unfold next
  cases hn : (out.filter fun e => val e = best).argmin Edge.v with
  | none =>
    rw [argmin_eq_none] at hn
    exact absurd ((hmem e₀).mpr ⟨he, hv⟩) (hn ▸ not_mem_nil)
  | some e =>
    obtain ⟨h₁, h₂⟩ := (hmem e).mp (argmin_mem hn)
    exact ⟨e, rfl, h₁, h₂, fun e' he' hv' => le_of_mem_argmin ((hmem e').mpr ⟨he', hv'⟩) hn⟩

section
variable {tab : Table} {E : List Edge} {D : ℕ × ℤ → Option ℕ} {dst : ℕ} {limit : Option ℕ}

lemma Exact.tail (hD : Exact tab E dst limit D) (hE : Steps E) {q : List Edge}
    (hq : Walk E e.u (e :: q) dst) (hcost : turned tab (some hd) (e :: q) = d)
    (hleast : ∀ q', Walk E e.u q' dst → d ≤ turned tab (some hd) q') (hw : Within limit d) :
    D (e.v, e.h) = some (turned tab (some e.h) q) := by
  obtain ⟨he, -, hq⟩ := hq.cons_inv
  refine (hD _ _ _ (hE.head e he)).mpr ⟨⟨⟨q, hq, rfl⟩, ?_⟩, fun l hl => ?_⟩
  · rintro _ ⟨q', hq', rfl⟩
    have := hleast (e :: q') (.cons he hq')
    simp only [turned] at this hcost
    omega
  · have := hw l hl
    simp only [turned] at hcost
    omega

lemma follow_spec (hD : Exact tab E dst limit D) (hE : Steps E) (k : ℕ) {cur : ℕ}
    (hh : hd ∈ headings) (hcur : D (cur, hd) = some d) (hk : d ≤ k) :
    ∃ p, follow tab E D dst k cur hd = some (p.map Edge.v) ∧
      Best (turned tab (some hd)) E cur dst p ∧ turned tab (some hd) p = d := by
  induction k generalizing cur hd d with
  | zero =>
    obtain ⟨⟨⟨p, hp, hcost⟩, hleast⟩, -⟩ := (hD cur hd d hh).mp hcur
    cases p with
    | nil =>
      obtain rfl := hp.nil_inv
      exact ⟨[], if_pos rfl, ⟨.nil, fun _ _ => Nat.zero_le _, fun p' _ _ => cells_nil_le _ p'⟩, hcost⟩
    | cons e p =>
      have := hE.pos e hp.cons_inv.1
      simp only [turned] at hcost
      omega
  | succ k ih =>
    obtain ⟨⟨⟨p, hp, hcost⟩, hleast⟩, hw⟩ := (hD cur hd d hh).mp hcur
    by_cases hdst : cur = dst
    · subst hdst
      have hd0 : d = 0 := Nat.le_zero.mp (hleast ⟨[], .nil, rfl⟩)
      exact ⟨[], if_pos rfl, ⟨.nil, fun _ _ => Nat.zero_le _, fun p' _ _ => cells_nil_le _ p'⟩, hd0.symm⟩
    · have hleast' : ∀ q, Walk E cur q dst → d ≤ turned tab (some hd) q :=
        fun q hq => hleast ⟨q, hq, rfl⟩
      -- the first edge of any cheapest walk is a candidate
      have hcand : ∀ e q, Walk E cur (e :: q) dst → turned tab (some hd) (e :: q) = d →
          e ∈ (E.filter fun e => e.u = cur) ∧ D (e.v, e.h) = some (turned tab (some e.h) q) ∧
            (D (e.v, e.h)).map (e.w + tab hd e.h + ·) = D (cur, hd) := by
        intro e q hq hc
        obtain ⟨he, heu, -⟩ := hq.cons_inv
        subst heu
        have hrest := hD.tail hE hq hc hleast' hw
        refine ⟨mem_filter.mpr ⟨he, by simp⟩, hrest, ?_⟩
        rw [hrest, hcur]
        exact congrArg some hc
      cases p with
      | nil => exact absurd hp.nil_inv hdst
      | cons e₀ q₀ =>
        obtain ⟨he₀, -, hv₀⟩ := hcand e₀ q₀ hp hcost
        obtain ⟨e, hnext, heout, hval, hmin⟩ := next_spec
          (fun e => (D (e.v, e.h)).map (e.w + tab hd e.h + ·)) he₀ hv₀
        obtain ⟨heE, heu⟩ := mem_filter.mp heout
        have heu : e.u = cur := of_decide_eq_true heu
        rw [hcur] at hval
        obtain ⟨d', hd', hsum⟩ := map_eq_some_iff.mp hval
        have hpos := hE.pos e heE
        obtain ⟨q, hfollow, hbest, hq⟩ := ih (hE.head e heE) hd' (by omega)
        have hcost' : turned tab (some hd) (e :: q) = d := by
          simp only [turned]
          omega
        refine ⟨e :: q, ?_, ⟨heu ▸ .cons heE hbest.walk, fun p' hp' => ?_, fun p' hp' hc' => ?_⟩, hcost'⟩
        · simp only [follow, if_neg hdst, hnext, hfollow, bind_eq_bind, bind_some]
          rfl
        · rw [hcost']
          exact hleast' p' hp'
        · rw [hcost'] at hc'
          cases p' with
          | nil => exact absurd hp'.nil_inv hdst
          | cons e' q' =>
            obtain ⟨he', hD', hv'⟩ := hcand e' q' hp' hc'
            obtain ⟨he'E, he'u⟩ := mem_filter.mp he'
            have he'u : e'.u = cur := of_decide_eq_true he'u
            refine cons_le_cons_iff.mpr (.inr ⟨rfl, cons_le_cons_iff.mpr ?_⟩)
            rcases (hmin e' he' hv').lt_or_eq with hlt | heq
            · exact .inl hlt
            · have hsame : e = e' := hE.unique e heE e' he'E (heu.trans he'u.symm) heq
              subst hsame
              have hqq : turned tab (some e.h) q' = turned tab (some e.h) q := by
                rw [hd'] at hD'
                rw [hq]
                exact (Option.some.inj hD').symm
              have hle := hbest.first q' hp'.cons_inv.2.2 hqq
              exact .inr ⟨rfl, ((cons_le_cons_iff.mp hle).resolve_left (lt_irrefl _)).2⟩

end

lemma turned_none_cons (tab : Table) (e : Edge) (p : List Edge) :
    turned tab none (e :: p) = e.w + turned tab (some e.h) p := rfl

section
variable {dijkstra : Search} {g : Graph} {tab : Table} {src dst : ℕ}

/-- The edges with both ends among the cells `sel`. -/
def inside (g : Graph) (sel : ℕ → Bool) : List Edge := g.edges.filter fun e => sel e.u && sel e.v

variable {sel : ℕ → Bool} {p₀ : List Edge}

lemma mem_inside :
    e ∈ inside g sel ↔ e ∈ g.edges ∧ sel e.u = true ∧ sel e.v = true := by
  simp [inside, mem_filter]

lemma expanded_spec (tab : Table) (limit : Option ℕ) (hx : dijkstra.Exact) (hg : Lattice g)
    (hne : src ≠ dst) (hp₀ : Walk (inside g sel) src p₀ dst)
    (hlim : Within limit (turned tab none p₀)) :
    ∃ p, g.expanded dijkstra sel src dst tab limit =
        some (some (turned tab none p, cells src p)) ∧
      Best (turned tab none) (inside g sel) src dst p := by
  have hE : Steps (inside g sel) := hg.steps.mono fun e he => (mem_inside.mp he).1
  have hD := exact_states hx hE tab dst limit
  generalize hDdef : dijkstra (ℕ × ℤ) (transposed tab (inside g sel))
    (headings.map fun hin => (dst, hin)) limit = D at hD
  -- the cheapest walk of all
  have hbest : ∃ d, IsLeast {d | ∃ p, Walk (inside g sel) src p dst ∧ turned tab none p = d} d ∧
      Within limit d := by
    classical
    have hex : ∃ d p, Walk (inside g sel) src p dst ∧ turned tab none p = d := ⟨_, p₀, hp₀, rfl⟩
    refine ⟨Nat.find hex, ⟨Nat.find_spec hex, fun d hd => Nat.find_min' hex hd⟩, fun l hl => ?_⟩
    exact (Nat.find_min' hex ⟨p₀, hp₀, rfl⟩).trans (hlim l hl)
  obtain ⟨d, ⟨⟨p₁, hp₁, hcost⟩, hleast⟩, hw⟩ := hbest
  have hleast' : ∀ q, Walk (inside g sel) src q dst → d ≤ turned tab none q :=
    fun q hq => hleast ⟨q, hq, rfl⟩
  have hcand : ∀ e q, Walk (inside g sel) src (e :: q) dst → turned tab none (e :: q) = d →
      e ∈ ((inside g sel).filter fun e => e.u = src) ∧
        D (e.v, e.h) = some (turned tab (some e.h) q) ∧ (D (e.v, e.h)).map (e.w + ·) = some d := by
    intro e q hq hc
    obtain ⟨he, heu, hrest⟩ := hq.cons_inv
    have hv : D (e.v, e.h) = some (turned tab (some e.h) q) := by
      refine (hD _ _ _ (hE.head e he)).mpr ⟨⟨⟨q, hrest, rfl⟩, ?_⟩, fun l hl => ?_⟩
      · rintro _ ⟨q', hq', rfl⟩
        have := hleast' (e :: q') (heu ▸ .cons he hq')
        rw [turned_none_cons] at this hc
        omega
      · have := hw l hl
        rw [turned_none_cons] at hc
        omega
    refine ⟨mem_filter.mpr ⟨he, by simpa using heu⟩, hv, ?_⟩
    rw [hv]
    exact congrArg some hc
  -- what a first edge offers is the cost of a walk
  have hoffer : ∀ e ∈ ((inside g sel).filter fun e => e.u = src), ∀ c,
      (D (e.v, e.h)).map (e.w + ·) = some c → d ≤ c := by
    intro e he c hc
    obtain ⟨heE, heu⟩ := mem_filter.mp he
    obtain ⟨d', hd', rfl⟩ := map_eq_some_iff.mp hc
    obtain ⟨⟨⟨q, hq, hcq⟩, -⟩, -⟩ := (hD _ _ _ (hE.head e heE)).mp hd'
    have heu : e.u = src := of_decide_eq_true heu
    have := hleast' (e :: q) (heu ▸ .cons heE hq)
    rw [turned_none_cons] at this
    omega
  cases p₁ with
  | nil => exact absurd hp₁.nil_inv hne
  | cons e₀ q₀ =>
    obtain ⟨he₀, -, hv₀⟩ := hcand e₀ q₀ hp₁ hcost
    have hmin : (((inside g sel).filter fun e => e.u = src).filterMap fun e =>
        (D (e.v, e.h)).map (e.w + ·)).min? = some d := by
      rw [List.min?_eq_some_iff]
      refine ⟨mem_filterMap.mpr ⟨e₀, he₀, hv₀⟩, fun c hc => ?_⟩
      obtain ⟨e, he, hec⟩ := mem_filterMap.mp hc
      exact hoffer e he c hec
    obtain ⟨e, hnext, heout, hval, hfirst⟩ := next_spec
      (fun e => (D (e.v, e.h)).map (e.w + ·)) he₀ hv₀
    obtain ⟨heE, heu⟩ := mem_filter.mp heout
    have heu : e.u = src := of_decide_eq_true heu
    obtain ⟨d', hd', hsum⟩ := map_eq_some_iff.mp hval
    obtain ⟨q, hfollow, hq, hcq⟩ := follow_spec hD hE d (hE.head e heE) hd' (by omega)
    have hcost' : turned tab none (e :: q) = d := by
      rw [turned_none_cons]
      omega
    refine ⟨e :: q, ?_, heu ▸ .cons heE hq.walk, fun p' hp' => ?_, fun p' hp' hc' => ?_⟩
    · have hin : (g.edges.filter fun e => sel e.u && sel e.v) = inside g sel := rfl
      rw [hcost']
      simp only [Graph.expanded, if_neg hne, hin, hDdef, hmin, hnext, hfollow, bind_eq_bind, bind_some]
      rfl
    · rw [hcost']
      exact hleast' p' hp'
    · rw [hcost'] at hc'
      cases p' with
      | nil => exact absurd hp'.nil_inv hne
      | cons e' q' =>
        obtain ⟨he', hD', hv'⟩ := hcand e' q' hp' hc'
        obtain ⟨he'E, he'u⟩ := mem_filter.mp he'
        have he'u : e'.u = src := of_decide_eq_true he'u
        refine cons_le_cons_iff.mpr (.inr ⟨rfl, cons_le_cons_iff.mpr ?_⟩)
        rcases (hfirst e' he' hv').lt_or_eq with hlt | heq
        · exact .inl hlt
        · have hsame : e = e' := hE.unique e heE e' he'E (heu.trans he'u.symm) heq
          subst hsame
          have hqq : turned tab (some e.h) q' = turned tab (some e.h) q := by
            rw [hd'] at hD'
            rw [hcq]
            exact (Option.some.inj hD').symm
          have hle := hq.first q' hp'.cons_inv.2.2 hqq
          exact .inr ⟨rfl, ((cons_le_cons_iff.mp hle).resolve_left (lt_irrefl _)).2⟩

lemma turned_eq (tab : Table) (hg : Lattice g) (h : Walk g.edges s p t) :
    turned tab none p = length p + g.pathTurn tab (cells s p) := by
  induction h with
  | nil => rfl
  | @cons e p t he h ih =>
    cases p with
    | nil => rfl
    | cons e' p =>
      obtain ⟨he', heu, -⟩ := h.cons_inv
      have hstep : g.pathTurn tab (cells e.u (e :: e' :: p)) =
          tab e.h e'.h + g.pathTurn tab (cells e.v (e' :: p)) := by
        rw [(hg.edge_head he).2, (hg.edge_head he').2, heu]
        rfl
      have hlen : length (e :: e' :: p) = e.w + length (e' :: p) := rfl
      rw [hstep, hlen]
      rw [turned_none_cons] at ih ⊢
      simp only [turned]
      omega

lemma length_le_turned (tab : Table) (hg : Lattice g) (h : Walk g.edges s p t) :
    length p ≤ turned tab none p := by
  rw [turned_eq tab hg h]
  exact Nat.le_add_right _ _

lemma length_append (p q : List Edge) : length (p ++ q) = length p + length q := by
  simp [length]

lemma length_cons (e : Edge) (p : List Edge) : length (e :: p) = e.w + length p := rfl

lemma Walk.split {E : List Edge} {q : List Edge}
    (h : Walk E s (p ++ e :: q) t) : Walk E s p e.u ∧ Walk E e.v q t := by
  induction p generalizing s with
  | nil =>
    obtain ⟨-, rfl, hq⟩ := h.cons_inv
    exact ⟨.nil, hq⟩
  | cons e' p ih =>
    obtain ⟨he', rfl, hq⟩ := h.cons_inv
    obtain ⟨h₁, h₂⟩ := ih hq
    exact ⟨.cons he' h₁, h₂⟩

lemma mem_plain (he : e ∈ g.edges) : (e.u, e.v, e.w) ∈ g.plain :=
  mem_map.mpr ⟨e, he, rfl⟩

lemma back_mem_plain (he : e ∈ g.edges) : (e.v, e.u, e.w) ∈ g.plain := by
  rcases mem_append.mp he with he | he
  · exact mem_plain (mem_append_right _ (mem_map_of_mem he))
  · obtain ⟨l, hl, rfl⟩ := mem_map.mp he
    exact mem_plain (mem_append_left _ hl)

variable {x : ℕ}

lemma Walk.trail (h : Walk g.edges x p t)
    (hx : Trail g.plain [s] x d) : Trail g.plain [s] t (d + length p) := by
  induction h generalizing d with
  | nil => exact hx
  | cons he _ ih =>
    rw [length_cons, ← Nat.add_assoc]
    exact ih (.arc hx (mem_plain he))

lemma Walk.trail_back (h : Walk g.edges x p t) :
    Trail g.plain [t] x (length p) := by
  induction h with
  | nil => exact .source mem_cons_self
  | cons he _ ih =>
    rw [length_cons, Nat.add_comm]
    exact .arc ih (back_mem_plain he)

/-- The distances to `dst`, from the caller or from a search with the limit. -/
def Found (g : Graph) (dst limit : ℕ) (dT : ℕ → Option ℕ) : Prop :=
  ∀ c d, Trail g.plain [dst] c d → d ≤ limit → ∃ d' ≤ d, dT c = some d'

lemma walk_inside (hx : dijkstra.Exact) {jInc : ℕ} {dT : ℕ → Option ℕ}
    (hdT : Found g dst jInc dT) (h : Walk g.edges src p dst) (hle : length p ≤ jInc) :
    Walk (inside g (Graph.reachable (dijkstra ℕ g.plain [src] (some jInc)) dT jInc)) src p dst := by
  have hcell : ∀ c a b, Trail g.plain [src] c a → Trail g.plain [dst] c b → a + b ≤ jInc →
      Graph.reachable (dijkstra ℕ g.plain [src] (some jInc)) dT jInc c = true := by
    intro c a b ha hb hab
    have hlim : Within (some jInc) a := fun l hl => by
      cases hl
      omega
    obtain ⟨a', haa, hda⟩ := Search.Exact.found hx ha hlim
    obtain ⟨b', hbb, hdb⟩ := hdT c b hb (by omega)
    unfold Graph.reachable
    rw [hda, hdb]
    exact decide_eq_true (by omega)
  refine h.of_mem fun e he => ?_
  obtain ⟨p₁, p₂, rfl⟩ := append_of_mem he
  obtain ⟨h₁, h₂⟩ := h.split
  have heE := h.mem e he
  rw [length_append, length_cons] at hle
  have hsu := h₁.trail (.source mem_cons_self)
  rw [Nat.zero_add] at hsu
  refine mem_inside.mpr ⟨heE, hcell e.u _ _ hsu (.arc h₂.trail_back (back_mem_plain heE)) ?_,
    hcell e.v _ _ (.arc hsu (mem_plain heE)) h₂.trail_back ?_⟩
  · omega
  · omega

lemma Walk.of_inside (h : Walk (inside g sel) s p t) :
    Walk g.edges s p t := h.of_mem fun e he => (mem_inside.mp (h.mem e he)).1

lemma restricted_spec (tab : Table) (jInc : ℕ) (dT : Option (ℕ → Option ℕ))
    (hx : dijkstra.Exact) (hg : Lattice g) (hne : src ≠ dst) (hdT : ∀ f, dT = some f → Found g dst jInc f)
    (hp₀ : Walk g.edges src p₀ dst) (hcost : turned tab none p₀ ≤ jInc) :
    ∃ p, g.restricted dijkstra src dst jInc tab dT =
        some (some (turned tab none p, cells src p)) ∧
      Best (turned tab none) g.edges src dst p := by
  have hfound : Found g dst jInc (dT.getD (dijkstra ℕ g.plain [dst] (some jInc))) := by
    cases dT with
    | some f => exact hdT f rfl
    | none =>
      intro c d hd hle
      exact Search.Exact.found hx hd fun l hl => by cases hl; exact hle
  have hall : ∀ p, Walk g.edges src p dst → turned tab none p ≤ jInc →
      Walk (inside g _) src p dst :=
    fun p hp hle => walk_inside hx hfound hp ((length_le_turned tab hg hp).trans hle)
  obtain ⟨p, hrun, hbest⟩ := expanded_spec tab (some jInc) hx hg hne
    (hall p₀ hp₀ hcost) fun l hl => by cases hl; exact hcost
  have hpj : turned tab none p ≤ jInc := (hbest.least p₀ (hall p₀ hp₀ hcost)).trans hcost
  refine ⟨p, hrun, hbest.walk.of_inside, fun p' hp' => ?_, fun p' hp' hc => ?_⟩
  · rcases le_or_gt (turned tab none p') jInc with hle | hgt
    · exact hbest.least p' (hall p' hp' hle)
    · omega
  · exact hbest.first p' (hall p' hp' (hc.trans_le hpj)) hc

lemma near_self {path : List ℕ} {c : ℕ} (h : c ∈ path) : g.near path c = true := by
  unfold Graph.near
  refine any_eq_true.mpr ⟨c, h, any_eq_true.mpr ⟨3, by decide, ?_⟩⟩
  exact any_eq_true.mpr ⟨3, by decide, decide_eq_true (by simp [BAND])⟩

lemma mem_cells {E : List Edge} (h : Walk E s p t) :
    ∀ e ∈ p, e.u ∈ cells s p ∧ e.v ∈ cells s p := by
  induction h with
  | nil => simp
  | @cons e p t he h ih =>
    intro e' he'
    rcases mem_cons.mp he' with rfl | he'
    · exact ⟨mem_cons_self, .tail _ mem_cons_self⟩
    · obtain ⟨h₁, h₂⟩ := ih e' he'
      exact ⟨.tail _ h₁, .tail _ h₂⟩

lemma incumbent_spec (tab : Table) (hx : dijkstra.Exact) (hg : Lattice g) (hne : src ≠ dst)
    (hp₀ : Walk g.edges src p₀ dst) :
    ∃ p, g.incumbent dijkstra src dst (cells src p₀) (length p₀) tab =
        some (turned tab none p, cells src p) ∧ Walk g.edges src p dst := by
  have hj := turned_eq tab hg hp₀
  unfold Graph.incumbent
  rw [← hj]
  dsimp only
  split_ifs with h0
  · exact ⟨p₀, rfl, hp₀⟩
  · have hin : Walk (inside g (g.near (cells src p₀))) src p₀ dst :=
      hp₀.of_mem fun e he => mem_inside.mpr ⟨hp₀.mem e he, near_self (mem_cells hp₀ e he).1, near_self (mem_cells hp₀ e he).2⟩
    obtain ⟨p, hrun, hbest⟩ := expanded_spec tab (some (turned tab none p₀)) hx hg hne
      hin fun l hl => by cases hl; exact le_rfl
    simp only [hrun, bind_eq_bind, bind_some]
    split_ifs
    · exact ⟨p, rfl, hbest.walk.of_inside⟩
    · exact ⟨p₀, rfl, hp₀⟩

/-- `turn.route` returns the minimum of edge weights plus turn costs over all paths, and among the
paths of that cost the one of the least cell sequence. -/
theorem route_exact (hx : dijkstra.Exact) (hg : Lattice g) {p₀ : List Edge}
    (hp₀ : Best length g.edges src dst p₀) (dT : Option (ℕ → Option ℕ))
    (hdT : ∀ f, dT = some f → ∀ c d, f c = some d ↔ Distance g.plain [dst] c d) :
    ∃ p, route dijkstra g src dst (cells src p₀) (length p₀) tab dT =
        some (turned tab none p, cells src p) ∧
      Best (turned tab none) g.edges src dst p := by
  -- a route of no turn cost is the canonical one, since it is so among the plain ones
  have hplain : ∀ p, Walk g.edges src p dst → turned tab none p = length p₀ →
      cells src p = cells src p₀ → Best (turned tab none) g.edges src dst p := by
    intro p hp hc hcells
    refine ⟨hp, fun p' hp' => ?_, fun p' hp' hc' => ?_⟩
    · rw [hc]
      exact (hp₀.least p' hp').trans (length_le_turned tab hg hp')
    · rw [hcells]
      have h₁ := hp₀.least p' hp'
      have h₂ := length_le_turned tab hg hp'
      exact hp₀.first p' hp' (by omega)
  by_cases hne : src = dst
  · subst hne
    have hnil : p₀ = [] := by
      have h0 := hp₀.least [] .nil
      cases p₀ with
      | nil => rfl
      | cons e p =>
        have := hg.steps.pos e hp₀.walk.cons_inv.1
        rw [length_cons] at h0
        simp [length] at h0
        omega
    subst hnil
    refine ⟨[], ?_, hplain [] .nil rfl rfl⟩
    simp [route, Graph.incumbent, cells, Graph.pathTurn, length, turned]
  · obtain ⟨p, hinc, hp⟩ := incumbent_spec tab hx hg hne hp₀.walk
    unfold route
    rw [hinc]
    simp only [bind_eq_bind, bind_some]
    split_ifs with hsame
    · exact ⟨p, rfl, hplain p hp hsame.1 hsame.2⟩
    · obtain ⟨q, hrun, hbest⟩ := restricted_spec tab (turned tab none p) dT
        hx hg hne (fun f hf c d hd _ => by
          obtain ⟨d', hle, hdist⟩ := exists_distance hd
          exact ⟨d', hle, (hdT f hf c d').mpr hdist⟩) hp le_rfl
      exact ⟨q, by rw [hrun]; rfl, hbest⟩

end

/-- A corner with a diagonal across it. -/
def corner : Graph where
  n := 3
  ys c := if c = 2 then 1 else 0
  xs c := if c = 0 then 0 else 1
  links := [⟨0, 1, 1, 0⟩, ⟨1, 2, 1, 2⟩, ⟨0, 2, 3, 1⟩]

def cornerTab : Table := fun hin hout => if hin = hout then 0 else 5

lemma corner_lattice : Lattice corner where
  pos := by decide
  step := by decide
  head := by decide
  once := by decide

lemma corner_out : ∀ e ∈ corner.edges, 1 ≤ e.w ∧
    (e.u = 0 → e = ⟨0, 1, 1, 0⟩ ∨ e = ⟨0, 2, 3, 1⟩) ∧
    (e.u = 1 → e = ⟨1, 2, 1, 2⟩ ∨ e = ⟨1, 0, 1, 4⟩) := by
  decide

/-- A path takes the diagonal, or turns at the corner, to the end or back. -/
lemma corner_walk (hp : Walk corner.edges 0 p 2) :
    (∃ q, p = ⟨0, 2, 3, 1⟩ :: q ∧ Walk corner.edges 2 q 2) ∨
    (∃ q, p = ⟨0, 1, 1, 0⟩ :: ⟨1, 2, 1, 2⟩ :: q) ∨
    ∃ e q, p = ⟨0, 1, 1, 0⟩ :: ⟨1, 0, 1, 4⟩ :: e :: q ∧ 1 ≤ e.w := by
  cases p with
  | nil => exact absurd hp.nil_inv (by decide)
  | cons e p =>
    obtain ⟨he, hu, hp⟩ := hp.cons_inv
    rcases (corner_out e he).2.1 hu with rfl | rfl
    · cases p with
      | nil => exact absurd hp.nil_inv (by decide)
      | cons e p =>
        obtain ⟨he, hu, hp⟩ := hp.cons_inv
        rcases (corner_out e he).2.2 hu with rfl | rfl
        · exact .inr (.inl ⟨p, rfl⟩)
        · cases p with
          | nil => exact absurd hp.nil_inv (by decide)
          | cons e p => exact .inr (.inr ⟨e, p, rfl, (corner_out e hp.cons_inv.1).1⟩)
    · exact .inl ⟨p, rfl, hp⟩

lemma corner_length (hp : Walk corner.edges 0 p 2) :
    2 ≤ length p ∧ (length p = 2 → ∃ q, p = ⟨0, 1, 1, 0⟩ :: ⟨1, 2, 1, 2⟩ :: q) := by
  rcases corner_walk hp with ⟨q, rfl, -⟩ | ⟨q, rfl⟩ | ⟨e, q, rfl, he⟩
  · simp only [length_cons]
    exact ⟨by omega, fun h => by omega⟩
  · simp only [length_cons]
    exact ⟨by omega, fun _ => ⟨q, rfl⟩⟩
  · simp only [length_cons]
    exact ⟨by omega, fun h => by omega⟩

lemma corner_best : Best length corner.edges 0 2 [⟨0, 1, 1, 0⟩, ⟨1, 2, 1, 2⟩] where
  walk := .cons (by decide : (⟨0, 1, 1, 0⟩ : Edge) ∈ corner.edges)
    (.cons (by decide : (⟨1, 2, 1, 2⟩ : Edge) ∈ corner.edges) .nil)
  least _ hp := (corner_length hp).1
  first p hp hc := by
    obtain ⟨q, rfl⟩ := (corner_length hp).2 hc
    have hrest : [2] ≤ 2 :: q.map Edge.v := cells_nil_le 2 q
    exact cons_le_cons_iff.mpr (.inr ⟨rfl, cons_le_cons_iff.mpr (.inr ⟨rfl, hrest⟩)⟩)

/-- The plain optimum turns at the corner, and the route takes the diagonal instead. -/
theorem route_exact_corner : corner.pathTurn cornerTab [0, 1, 2] = 5 ∧
    route lookup corner 0 2 [0, 1, 2] 2 cornerTab none = some (3, [0, 2]) := by
  refine ⟨by decide, ?_⟩
  obtain ⟨p, hroute, hbest⟩ : ∃ p, route lookup corner 0 2 [0, 1, 2] 2 cornerTab none =
        some (turned cornerTab none p, cells 0 p) ∧
      Best (turned cornerTab none) corner.edges 0 2 p :=
    route_exact lookup_exact corner_lattice corner_best none fun _ h => by cases h
  have hleast : turned cornerTab none p ≤ 3 :=
    hbest.least _ (.cons (by decide : (⟨0, 2, 3, 1⟩ : Edge) ∈ corner.edges) .nil)
  rcases corner_walk hbest.walk with ⟨q, rfl, hq⟩ | ⟨q, rfl⟩ | ⟨e, q, rfl, he⟩
  · cases q with
    | nil => exact hroute
    | cons e q =>
      have he := (corner_out e hq.cons_inv.1).1
      simp only [turned] at hleast
      omega
  · simp [turned, cornerTab] at hleast
    omega
  · simp [turned, cornerTab] at hleast
    omega

end CloudServer.TurnRoute
