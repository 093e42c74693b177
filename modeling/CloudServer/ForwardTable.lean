import CloudServer.Dict

/-! A dynamic program forward over the numbers: for every node and every weight used, the way there
with the fewest chords, of these the first in lexicographic order. -/
namespace CloudServer.ForwardTable

open List Function

abbrev Entry := ℕ ×ₗ List ℕ

abbrev Table := ℕ → Dict ℤ Entry

def entry (path : List ℕ) : Entry := toLex (path.length - 1, path)

/-- `if s not in d or v < d[s]: d[s] = v`. -/
def improve (d : Dict ℤ Entry) (s : ℤ) (v : Entry) : Dict ℤ Entry :=
  match d.get s with
  | none => d.set s v
  | some old => if v < old then d.set s v else d

def step (v : Entry) (j : ℕ) : Entry := toLex ((ofLex v).1 + 1, (ofLex v).2 ++ [j])

variable (chords : ℕ → List (ℕ × ℤ)) (budget : ℤ)

def relaxChord (source : Dict ℤ Entry) (j : ℕ) (w : ℤ) (target : Dict ℤ Entry) : Dict ℤ Entry :=
  source.items.foldl (fun target e => if budget < e.1 + w then target else improve target (e.1 + w) (step e.2 j)) target

def relax (best : Table) (i : ℕ) : Table :=
  (chords i).foldl (fun best c => update best c.1 (relaxChord budget (best i) c.1 c.2 (best c.1))) best

def start : Table := update (fun _ => Dict.empty) 0 (Dict.empty.set 0 (entry [0]))

def table (nodes : List ℕ) : Table := nodes.foldl (relax chords budget) start

inductive Way (sources : List ℕ) : List ℕ → ℕ → ℤ → Prop
  | start : Way sources [0] 0 0
  | chord {path : List ℕ} {i j : ℕ} {s w : ℤ} (h : Way sources path i s) (hi : i ∈ sources)
      (hc : (j, w) ∈ chords i) (hs : s + w ≤ budget) : Way sources (path ++ [j]) j (s + w)

/-- The entries of the table are the best ways, and there is one wherever there is a way. -/
def Holds (sources : List ℕ) (best : Table) : Prop :=
  ∀ j s, match (best j).get s with
    | none => ∀ path, ¬Way chords budget sources path j s
    | some v => (∃ path, Way chords budget sources path j s ∧ v = entry path) ∧
        ∀ path, Way chords budget sources path j s → v ≤ entry path

variable {chords} {budget} {sources : List ℕ} {path : List ℕ} {i j : ℕ} {s w : ℤ}

theorem Way.ne_nil (h : Way chords budget sources path j s) : path ≠ [] := by
  cases h with
  | start | chord => simp

theorem Way.mono {more : List ℕ} (hsub : ∀ i ∈ sources, i ∈ more) (h : Way chords budget sources path j s) :
    Way chords budget more path j s := by
  induction h with
  | start => exact .start
  | chord _ hi hc hs ih => exact ih.chord (hsub _ hi) hc hs

theorem entry_append (hne : path ≠ []) (j : ℕ) : entry (path ++ [j]) = step (entry path) j := by
  have hpos := length_pos_of_ne_nil hne
  unfold entry step
  simp only [length_append, length_singleton, ofLex_toLex]
  congr 2
  omega

theorem append_lt {p q : List ℕ} (hlen : p.length = q.length) (h : p < q) (j : ℕ) : p ++ [j] < q ++ [j] := by
  induction p generalizing q with
  | nil =>
    rw [length_nil, eq_comm, length_eq_zero_iff] at hlen
    subst hlen
    exact absurd h (lt_irrefl _)
  | cons a p ih =>
    cases q with
    | nil => cases hlen
    | cons b q =>
      rw [cons_append, cons_append, cons_lt_cons_iff]
      rcases cons_lt_cons_iff.mp h with hab | ⟨rfl, hpq⟩
      · exact Or.inl hab
      · exact Or.inr ⟨rfl, ih (Nat.succ.inj hlen) hpq⟩

theorem step_le {p q : List ℕ} (hp : p ≠ []) (hq : q ≠ []) (h : entry p ≤ entry q) (j : ℕ) :
    step (entry p) j ≤ step (entry q) j := by
  have hp' := length_pos_of_ne_nil hp
  have hq' := length_pos_of_ne_nil hq
  unfold entry at h
  unfold step entry
  rw [Prod.Lex.toLex_le_toLex] at h ⊢
  simp only [ofLex_toLex]
  rcases h with h | ⟨hlen, h⟩
  · exact Or.inl (by omega)
  · refine Or.inr ⟨by omega, ?_⟩
    dsimp only at hlen h
    have heq : p.length = q.length := by omega
    rcases h.lt_or_eq with hlt | rfl
    · exact (append_lt heq hlt j).le
    · exact le_rfl

def better (old : Option Entry) (v : Entry) : Entry :=
  match old with
  | none => v
  | some old => if v < old then v else old

theorem improve_get (d : Dict ℤ Entry) (s m : ℤ) (v : Entry) :
    (improve d s v).get m = if m = s then some (better (d.get s) v) else d.get m := by
  unfold improve better
  cases hs : d.get s with
  | none => rw [Dict.get_set]
  | some old =>
    dsimp only
    split_ifs with hv hm hm
    · rw [Dict.get_set, if_pos hm]
    · rw [Dict.get_set, if_neg hm]
    · rw [hm, hs]
    · rfl

theorem foldl_improve_get {items : List (ℤ × Entry)} (hn : (items.map Prod.fst).Nodup) (target : Dict ℤ Entry) (m : ℤ) :
    (items.foldl (fun target e =>
        if budget < e.1 + w then target else improve target (e.1 + w) (step e.2 j)) target).get m =
      match Dict.find items (m - w) with
      | none => target.get m
      | some v => if budget < m then target.get m else some (better (target.get m) (step v j)) := by
  induction items generalizing target with
  | nil => rfl
  | cons e items ih =>
    obtain ⟨hnot, hn⟩ := nodup_cons.mp hn
    rw [foldl_cons, ih hn, Dict.find_cons]
    by_cases hm : m - w = e.1
    · have hmw : e.1 + w = m := by omega
      rw [if_pos hm, hm, Dict.find_eq_none.mpr hnot]
      dsimp only
      rw [hmw]
      split_ifs
      · rfl
      · rw [improve_get, if_pos rfl]
    · rw [if_neg hm]
      have hother : (if budget < e.1 + w then target else improve target (e.1 + w) (step e.2 j)).get m =
          target.get m := by
        split_ifs
        · rfl
        · rw [improve_get, if_neg (by omega)]
      rw [hother]

theorem relaxChord_get (source target : Dict ℤ Entry) (m : ℤ) :
    (relaxChord budget source j w target).get m =
      match source.get (m - w) with
      | none => target.get m
      | some v => if budget < m then target.get m else some (better (target.get m) (step v j)) :=
  foldl_improve_get source.nodup target m

structure Forward (chords : ℕ → List (ℕ × ℤ)) : Prop where
  lt : ∀ {i j w}, (j, w) ∈ chords i → i < j
  once : ∀ i, ((chords i).map Prod.fst).Nodup

theorem foldl_relax (best : Table) (cs : List (ℕ × ℤ)) (hi : i ∉ cs.map Prod.fst) (hn : (cs.map Prod.fst).Nodup) :
    (∀ j w, (j, w) ∈ cs → (cs.foldl (fun best c =>
      update best c.1 (relaxChord budget (best i) c.1 c.2 (best c.1))) best) j =
        relaxChord budget (best i) j w (best j)) ∧
    ∀ j, j ∉ cs.map Prod.fst → (cs.foldl (fun best c =>
      update best c.1 (relaxChord budget (best i) c.1 c.2 (best c.1))) best) j = best j := by
  induction cs generalizing best with
  | nil =>
    refine ⟨fun j w hj => ?_, fun j hj => rfl⟩
    cases hj
  | cons c cs ih =>
    rw [map_cons, mem_cons, not_or] at hi
    obtain ⟨hnot, hn⟩ := nodup_cons.mp hn
    obtain ⟨hin, hout⟩ := ih (update best c.1 (relaxChord budget (best i) c.1 c.2 (best c.1))) hi.2 hn
    simp only [foldl_cons]
    constructor
    · intro j w hj
      rcases mem_cons.mp hj with rfl | hj
      · rw [hout _ hnot, update_self]
      · have hne : j ≠ c.1 := by
          rintro rfl
          exact hnot (mem_map.mpr ⟨_, hj, rfl⟩)
        rw [hin j w hj, update_of_ne hi.1, update_of_ne hne]
    · intro j hj
      rw [map_cons, mem_cons, not_or] at hj
      rw [hout j hj.2, update_of_ne hj.1]

theorem Forward.not_target (hf : Forward chords) (i : ℕ) : i ∉ (chords i).map Prod.fst := by
  intro hmem
  obtain ⟨c, hc, hi⟩ := mem_map.mp hmem
  exact (hf.lt hc).ne hi.symm

theorem relax_chord (hf : Forward chords) (best : Table) (hj : (j, w) ∈ chords i) :
    relax chords budget best i j = relaxChord budget (best i) j w (best j) :=
  (foldl_relax best (chords i) (hf.not_target i) (hf.once i)).1 j w hj

theorem relax_other (hf : Forward chords) (best : Table) (hj : j ∉ (chords i).map Prod.fst) :
    relax chords budget best i j = best j :=
  (foldl_relax best (chords i) (hf.not_target i) (hf.once i)).2 j hj

theorem Way.earlier (hf : Forward chords) (h : Way chords budget sources path j s) :
    Way chords budget (sources.filter (· < j)) path j s := by
  induction h with
  | start => exact .start
  | @chord path i j s w _ hi hc hs ih =>
    have hij := hf.lt hc
    refine Way.chord (ih.mono fun k hk => ?_) (mem_filter.mpr ⟨hi, by simpa using hij⟩) hc hs
    obtain ⟨hk, hlt⟩ := mem_filter.mp hk
    refine mem_filter.mpr ⟨hk, ?_⟩
    simp only [decide_eq_true_eq] at hlt ⊢
    omega

theorem way_snoc (hf : Forward chords) (hlt : ∀ k ∈ sources, k < i) :
    Way chords budget (sources ++ [i]) path j s ↔ Way chords budget sources path j s ∨
      ∃ p s' w, path = p ++ [j] ∧ Way chords budget sources p i s' ∧ (j, w) ∈ chords i ∧ s = s' + w ∧ s ≤ budget := by
  constructor
  · intro h
    cases h with
    | start => exact Or.inl .start
    | @chord p k _ s' w h hk hc hs =>
      have hold : Way chords budget sources p k s' := by
        refine (h.earlier hf).mono fun l hl => ?_
        obtain ⟨hl, hlk⟩ := mem_filter.mp hl
        simp only [decide_eq_true_eq] at hlk
        rcases mem_append.mp hl with hl | hl
        · exact hl
        · obtain rfl := mem_singleton.mp hl
          rcases mem_append.mp hk with hk | hk
          · exact absurd (hlt k hk) hlk.not_gt
          · exact absurd (mem_singleton.mp hk) hlk.ne'
      rcases mem_append.mp hk with hk | hk
      · exact Or.inl (hold.chord hk hc hs)
      · obtain rfl := mem_singleton.mp hk
        exact Or.inr ⟨p, s', w, rfl, hold, hc, rfl, hs⟩
  · rintro (h | ⟨p, s', w, rfl, h, hc, rfl, hs⟩)
    · exact h.mono fun k hk => mem_append_left _ hk
    · exact (h.mono fun k hk => mem_append_left _ hk).chord (mem_append_right _ (mem_singleton_self i)) hc hs

theorem better_le (old : Option Entry) (v : Entry) : better old v ≤ v := by
  unfold better
  cases old with
  | none => exact le_rfl
  | some old =>
    dsimp only
    split_ifs with h
    · exact le_rfl
    · exact not_lt.mp h

theorem better_le_old {old v : Entry} : better (some old) v ≤ old := by
  unfold better
  dsimp only
  split_ifs with h
  · exact h.le
  · exact le_rfl

theorem better_mem (old : Option Entry) (v : Entry) : better old v = v ∨ old = some (better old v) := by
  unfold better
  cases old with
  | none => exact Or.inl rfl
  | some old =>
    dsimp only
    split_ifs with h
    · exact Or.inl rfl
    · exact Or.inr rfl

/-- The entry is the best of the ways of a kind, and there is one if there is a way. -/
def Least (ways : List ℕ → Prop) (found : Option Entry) : Prop :=
  match found with
  | none => ∀ path, ¬ways path
  | some v => (∃ path, ways path ∧ v = entry path) ∧ ∀ path, ways path → v ≤ entry path

variable {best : Table} {ways ways' : List ℕ → Prop} {found : Option Entry}

theorem Least.congr (h : Least ways found)
    (hw : ∀ path, ways' path ↔ ways path) : Least ways' found := by
  have heq : ways' = ways := funext fun path => propext (hw path)
  rwa [heq]

theorem Least.better {more : List ℕ → Prop} {v : Entry} (h : Least ways found)
    (hv : Least more (some v)) (hne : ∀ path, more path → path ≠ []) (j : ℕ) :
    Least (fun path => ways path ∨ ∃ p, path = p ++ [j] ∧ more p) (some (better found (step v j))) := by
  obtain ⟨⟨p, hp, rfl⟩, hle⟩ := hv
  constructor
  · rcases better_mem found (step (entry p) j) with heq | heq
    · exact ⟨p ++ [j], Or.inr ⟨p, rfl, hp⟩, heq.trans (entry_append (hne p hp) j).symm⟩
    · rw [heq] at h
      obtain ⟨⟨q, hq, heq'⟩, -⟩ := h
      exact ⟨q, Or.inl hq, heq'⟩
  · rintro path (hpath | ⟨q, rfl, hq⟩)
    · cases found with
      | none => exact absurd hpath (h path)
      | some old => exact better_le_old.trans (h.2 path hpath)
    · rw [entry_append (hne q hq)]
      exact (better_le _ _).trans (step_le (hne p hp) (hne q hq) (hle q hq) j)

theorem holds_iff : Holds chords budget sources best ↔
    ∀ j s, Least (fun path => Way chords budget sources path j s) ((best j).get s) := Iff.rfl

theorem Holds.relax (h : Holds chords budget sources best) (hf : Forward chords)
    (hlt : ∀ k ∈ sources, k < i) : Holds chords budget (sources ++ [i]) (relax chords budget best i) := by
  rw [holds_iff] at h ⊢
  intro j s
  by_cases hj : ∃ w, (j, w) ∈ chords i
  · obtain ⟨w, hw⟩ := hj
    have honce : ∀ w', (j, w') ∈ chords i → w' = w := by
      intro w' hw'
      have heq := inj_on_of_nodup_map (hf.once i) hw' hw rfl
      exact (Prod.ext_iff.mp heq).2
    have hways : ∀ path, Way chords budget (sources ++ [i]) path j s ↔
        Way chords budget sources path j s ∨
          ∃ p, path = p ++ [j] ∧ (Way chords budget sources p i (s - w) ∧ s ≤ budget) := by
      intro path
      rw [way_snoc hf hlt]
      refine or_congr_right ?_
      constructor
      · rintro ⟨p, s', w', rfl, hp, hc, rfl, hs⟩
        rw [honce w' hc] at hs ⊢
        exact ⟨p, rfl, by rwa [add_sub_cancel_right], hs⟩
      · rintro ⟨p, rfl, hp, hs⟩
        exact ⟨p, s - w, w, rfl, hp, hw, (sub_add_cancel s w).symm, hs⟩
    rw [relax_chord hf best hw, relaxChord_get]
    have hsource := h i (s - w)
    refine Least.congr ?_ hways
    cases hget : (best i).get (s - w) with
    | none =>
      rw [hget] at hsource
      refine (h j s).congr fun path => or_iff_left ?_
      rintro ⟨p, -, hp, -⟩
      exact hsource p hp
    | some v =>
      rw [hget] at hsource
      dsimp only
      split_ifs with hs
      · refine (h j s).congr fun path => or_iff_left ?_
        rintro ⟨p, -, -, hle⟩
        omega
      · refine (h j s).better (hsource.congr fun path => and_iff_left (not_lt.mp hs)) (fun path hp => ?_) j
        exact hp.1.ne_nil
  · have hnot : j ∉ (chords i).map Prod.fst := by
      intro hmem
      obtain ⟨c, hc, rfl⟩ := mem_map.mp hmem
      exact hj ⟨c.2, hc⟩
    rw [relax_other hf best hnot]
    refine (h j s).congr fun path => ?_
    rw [way_snoc hf hlt]
    refine or_iff_left ?_
    rintro ⟨p, s', w, -, -, hc, -, -⟩
    exact hj ⟨w, hc⟩

theorem holds_start : Holds chords budget [] start := by
  rw [holds_iff]
  intro j s
  have hways : ∀ path, Way chords budget [] path j s ↔ path = [0] ∧ j = 0 ∧ s = 0 := by
    intro path
    constructor
    · intro h
      cases h with
      | start => exact ⟨rfl, rfl, rfl⟩
      | chord _ hi _ _ => cases hi
    · rintro ⟨rfl, rfl, rfl⟩
      exact .start
  unfold start
  by_cases hj : j = 0
  · subst hj
    rw [update_self, Dict.get_set]
    by_cases hs : s = 0
    · rw [if_pos hs]
      refine ⟨⟨[0], (hways _).mpr ⟨rfl, rfl, hs⟩, rfl⟩, fun path hp => ?_⟩
      rw [((hways path).mp hp).1]
    · rw [if_neg hs]
      exact fun path hp => hs ((hways path).mp hp).2.2
  · rw [update_of_ne hj]
    exact fun path hp => hj ((hways path).mp hp).2.1

theorem table_holds (hf : Forward chords) {nodes : List ℕ} (hn : nodes.Pairwise (· < ·)) :
    Holds chords budget nodes (table chords budget nodes) := by
  have hrun : ∀ (rest done : List ℕ) (best : Table), (done ++ rest).Pairwise (· < ·) →
      Holds chords budget done best → Holds chords budget (done ++ rest) (rest.foldl (relax chords budget) best) := by
    intro rest
    induction rest with
    | nil =>
      intro done best _ h
      rwa [append_nil]
    | cons i rest ih =>
      intro done best hpair h
      rw [append_cons] at hpair ⊢
      have hlt : ∀ k ∈ done, k < i := fun k hk =>
        (pairwise_append.mp (pairwise_append.mp hpair).1).2.2 k hk i (mem_singleton_self i)
      exact ih (done ++ [i]) _ hpair (h.relax hf hlt)
  exact hrun nodes [] start hn holds_start

/-- The smallest of the entries of a node: the fewest chords, then the least weight, then the order
of the ways. -/
def choose (d : Dict ℤ Entry) : Option (List ℕ) :=
  ((d.items.map fun e => (toLex ((ofLex e.2).1, toLex (e.1, (ofLex e.2).2)) : ℕ ×ₗ ℤ ×ₗ List ℕ)).min?).map
    fun v => (ofLex (ofLex v).2).2

def rank (path : List ℕ) (s : ℤ) : ℕ ×ₗ ℤ ×ₗ List ℕ := toLex (path.length - 1, toLex (s, path))

theorem choose_spec (h : Holds chords budget sources best) (j : ℕ) :
    match choose (best j) with
    | none => ∀ path s, ¬Way chords budget sources path j s
    | some path => ∃ s, Way chords budget sources path j s ∧
        ∀ path' s', Way chords budget sources path' j s' → rank path s ≤ rank path' s' := by
  rw [holds_iff] at h
  have hitem : ∀ {s v}, (s, v) ∈ (best j).items → ∃ path, Way chords budget sources path j s ∧ v = entry path := by
    intro s v hv
    have hleast := h j s
    rw [Dict.mem_items.mp hv] at hleast
    exact hleast.1
  have hentry : ∀ {path s}, Way chords budget sources path j s →
      ∃ v, (s, v) ∈ (best j).items ∧ v ≤ entry path := by
    intro path s hp
    have hleast := h j s
    cases hget : (best j).get s with
    | none =>
      rw [hget] at hleast
      exact absurd hp (hleast path)
    | some v =>
      rw [hget] at hleast
      exact ⟨v, Dict.mem_items.mpr hget, hleast.2 path hp⟩
  set ranks := (best j).items.map fun e =>
    (toLex ((ofLex e.2).1, toLex (e.1, (ofLex e.2).2)) : ℕ ×ₗ ℤ ×ₗ List ℕ) with hranks
  have hchoose : choose (best j) = ranks.min?.map fun v => (ofLex (ofLex v).2).2 := rfl
  rw [hchoose]
  cases hmin : ranks.min? with
  | none =>
    rw [List.min?_eq_none_iff, hranks, map_eq_nil_iff] at hmin
    intro path s hp
    obtain ⟨v, hv, -⟩ := hentry hp
    rw [hmin] at hv
    cases hv
  | some r =>
    obtain ⟨hmem, hle⟩ := List.min?_eq_some_iff.mp hmin
    obtain ⟨⟨s, v⟩, hv, rfl⟩ := mem_map.mp hmem
    obtain ⟨path, hpath, rfl⟩ := hitem hv
    refine ⟨s, hpath, fun path' s' hp' => ?_⟩
    obtain ⟨v', hv', hle'⟩ := hentry hp'
    obtain ⟨q, hq, rfl⟩ := hitem hv'
    have hrank := hle _ (mem_map_of_mem hv')
    refine le_trans (b := rank q s') hrank ?_
    unfold entry at hle'
    unfold rank
    rw [Prod.Lex.toLex_le_toLex] at hle' ⊢
    refine hle'.imp id fun hsame => ⟨hsame.1, ?_⟩
    rw [Prod.Lex.toLex_le_toLex]
    exact Or.inr ⟨rfl, hsame.2⟩

end CloudServer.ForwardTable
