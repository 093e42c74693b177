import CloudServer.Dict

/-! The greedy choice of camera views: it stops with views that see every wanted cell as often as
asked, where the views at hand allow it. Arrays over the wanted cells are functions of the cell. -/
namespace CloudServer.Leafcover

open List

variable {ν γ : Type}

def gain (need got : γ → ℕ) (idx : List γ) : ℕ := idx.countP fun c => got c < need c

theorem gain_pos {need got : γ → ℕ} {idx : List γ} {c : γ} (hc : c ∈ idx) (h : got c < need c) :
    0 < gain need got idx :=
  countP_pos_iff.mpr ⟨c, hc, by simpa using h⟩

structure State (ν γ : Type) where
  got : γ → ℕ
  left : List (ν × List γ)
  done : ℕ
  out : List (ν × ℚ)

structure Goal (γ : Type) where
  wanted : List γ
  reach : γ → Bool
  k : ℕ

namespace Goal

def need (g : Goal γ) (c : γ) : ℕ := if g.reach c then g.k else 0

def total (g : Goal γ) : ℕ := g.wanted.countP g.reach

def done (g : Goal γ) (got : γ → ℕ) : ℕ :=
  g.wanted.countP fun c => g.need c ≤ got c && g.reach c

end Goal

variable {g : Goal γ}
variable {taken : List (ν × List γ)} {got' : γ → ℕ}

theorem done_mono {got : γ → ℕ} (h : ∀ c, got c ≤ got' c) : g.done got ≤ g.done got' := by
  refine countP_mono_left fun c _ hc => ?_
  simp only [Bool.and_eq_true, decide_eq_true_eq] at hc ⊢
  exact ⟨hc.1.trans (h c), hc.2⟩

theorem done_le_total (got : γ → ℕ) : g.done got ≤ g.total := by
  refine countP_mono_left fun c _ hc => ?_
  simp only [Bool.and_eq_true] at hc
  exact hc.2

theorem done_eq_total {got : γ → ℕ} (h : g.done got = g.total) {c : γ} (hc : c ∈ g.wanted)
    (hr : g.reach c) : g.k ≤ got c := by
  have hsplit := countP_eq_countP_filter_add g.wanted g.reach fun c => g.need c ≤ got c
  have hdone : (g.wanted.filter fun c => g.need c ≤ got c).countP g.reach = g.total := by
    rw [← h, countP_filter]
    exact countP_congr fun c _ => by simp [and_comm]
  have hzero : (g.wanted.filter fun c => !decide (g.need c ≤ got c)).countP g.reach = 0 := by
    unfold Goal.total at hdone
    omega
  by_contra hlt
  have hneed : g.need c = g.k := if_pos hr
  refine countP_eq_zero.mp hzero c (mem_filter.mpr ⟨hc, ?_⟩) hr
  simpa [hneed] using hlt

variable [LinearOrder γ]

/-- `np.unique`. -/
def unique (cells : List γ) : List γ := cells.dedup.insertionSort (· ≤ ·)

@[simp] theorem mem_unique {cells : List γ} {c : γ} : c ∈ unique cells ↔ c ∈ cells := by
  simp [unique]

def hits (sights : Dict ν (List γ)) (wanted : List γ) : List (ν × List γ) :=
  (sights.items.map fun e => (e.1, e.2.filter (· ∈ wanted))).filter fun e => e.2 ≠ []

theorem hits_nodup (sights : Dict ν (List γ)) (wanted : List γ) :
    ((hits sights wanted).map Prod.fst).Nodup := by
  have hsub : ((hits sights wanted).map Prod.fst).Sublist (sights.items.map Prod.fst) := by
    have hmap : (sights.items.map fun e => (e.1, e.2.filter (· ∈ wanted))).map Prod.fst =
        sights.items.map Prod.fst := by
      rw [map_map]
      rfl
    rw [← hmap]
    exact filter_sublist.map Prod.fst
  exact hsub.nodup sights.nodup

/-- `cnt[idx] += 1` for each view: a cell repeated in one `idx` is counted once. -/
def count (hit : List (ν × List γ)) (c : γ) : ℕ := hit.countP fun e => c ∈ e.2

theorem count_perm {hit hit' : List (ν × List γ)} (h : hit.Perm hit') (c : γ) :
    count hit c = count hit' c :=
  h.countP_eq _

theorem count_append (hit hit' : List (ν × List γ)) (c : γ) :
    count (hit ++ hit') c = count hit c + count hit' c :=
  countP_append

variable {hit : List (ν × List γ)}

/-- The loop has taken `taken` out of the views at hand, and counts what they see. -/
structure Inv (g : Goal γ) (hit : List (ν × List γ)) (s : State ν γ) (taken : List (ν × List γ)) :
    Prop where
  perm : (taken ++ s.left).Perm hit
  names : s.out.map Prod.fst = taken.map Prod.fst
  got : ∀ c, s.got c = count taken c
  done : s.done = g.done s.got
  rising : (s.out.map Prod.snd).Pairwise (· ≤ ·)
  below : ∀ f ∈ s.out.map Prod.snd, f ≤ (s.done : ℚ) / g.wanted.length
  last : ∀ f, (s.out.map Prod.snd).getLast? = some f → f = (s.done : ℚ) / g.wanted.length

theorem Inv.start (hit : List (ν × List γ)) (hk : 1 ≤ g.k) :
    Inv g hit ⟨fun _ => 0, hit, 0, []⟩ [] := by
  refine ⟨List.Perm.refl _, rfl, fun c => rfl, ?_, List.Pairwise.nil, by simp, by simp⟩
  symm
  refine countP_eq_zero.mpr fun c _ => ?_
  by_cases hc : g.reach c
  · simp [Goal.need, hc]
    omega
  · simp [hc]

variable [LinearOrder ν]

/-- `max(sorted(gain), key=..)`: the first view, by key, of the greatest gain. -/
def best (need got : γ → ℕ) (left : List (ν × List γ)) : Option (ν × List γ) :=
  (left.insertionSort fun a b => a.1 ≤ b.1).argmax fun e => gain need got e.2

variable {e : ν × List γ} {sights : Dict ν (List γ)} {wanted : List γ}

omit [LinearOrder γ] in
theorem best_spec {need got : γ → ℕ} {left : List (ν × List γ)} {c : γ}
    (he : e ∈ left) (hc : c ∈ e.2) (h : got c < need c) :
    ∃ b, best need got left = some b ∧ b ∈ left ∧ gain need got b.2 ≠ 0 := by
  have hs : e ∈ left.insertionSort fun a b => a.1 ≤ b.1 := (mem_insertionSort _).mpr he
  cases hb : best need got left with
  | none =>
    have hnil := argmax_eq_none.mp hb
    rw [hnil] at hs
    simp at hs
  | some b =>
    refine ⟨b, rfl, (mem_insertionSort _).mp (argmax_mem hb), ?_⟩
    have hle : gain need got e.2 ≤ gain need got b.2 :=
      le_of_mem_argmax (f := fun e => gain need got e.2) hs hb
    have hpos := gain_pos hc h
    omega

namespace Goal

def take (g : Goal γ) (s : State ν γ) (e : ν × List γ) : State ν γ :=
  let got := fun c => s.got c + if c ∈ e.2 then 1 else 0
  ⟨got, s.left.erase e, g.done got, s.out ++ [(e.1, (g.done got : ℚ) / g.wanted.length)]⟩

/-- The loop; each turn takes a view out of `left`. -/
def loop (g : Goal γ) : ℕ → State ν γ → State ν γ
  | 0, s => s
  | fuel + 1, s =>
    if s.done < g.total then
      match best g.need s.got s.left with
      | none => s
      | some e => if gain g.need s.got e.2 = 0 then s else g.loop fuel (g.take s e)
    else s

end Goal

/-- The goal `cover` works towards: the cells that k views see. -/
def goal (sights : Dict ν (List γ)) (wanted : List γ) (k : ℕ) : Goal γ :=
  ⟨unique wanted, fun c => k ≤ count (hits sights (unique wanted)) c, k⟩

def cover (sights : Dict ν (List γ)) (wanted : List γ) (k : ℕ) : List (ν × ℚ) × ℚ :=
  let g := goal sights wanted k
  let left := hits sights g.wanted
  if g.wanted.any g.reach then
    ((g.loop left.length ⟨fun _ => 0, left, 0, []⟩).out, (g.total : ℚ) / g.wanted.length)
  else ([], 0)

/-- How many of the views see the cell. -/
def seen (sights : Dict ν (List γ)) (views : List ν) (c : γ) : ℕ :=
  views.countP fun v => c ∈ (sights.get v).getD []

theorem mem_hits :
    e ∈ hits sights wanted ↔ (∃ s, sights.get e.1 = some s ∧ e.2 = s.filter (· ∈ wanted)) ∧ e.2 ≠ [] := by
  simp only [hits, mem_filter, mem_map, decide_eq_true_eq]
  refine and_congr_left fun _ => ?_
  constructor
  · rintro ⟨⟨v, s⟩, hm, rfl⟩
    exact ⟨s, Dict.mem_items.mp hm, rfl⟩
  · rintro ⟨s, hs, he⟩
    exact ⟨(e.1, s), Dict.mem_items.mpr hs, Prod.ext rfl he.symm⟩

theorem count_hits (sights : Dict ν (List γ)) (wanted : List γ) {c : γ} (hc : c ∈ wanted) :
    count (hits sights wanted) c = seen sights sights.keys c := by
  unfold count hits seen Dict.keys
  rw [countP_filter, countP_map, countP_map]
  refine countP_congr fun e he => ?_
  have hget : sights.get e.1 = some e.2 := Dict.mem_items.mp he
  simp only [Function.comp, hget, Option.getD_some, Bool.and_eq_true, decide_eq_true_eq, mem_filter]
  constructor
  · exact fun h => h.1.1
  · exact fun h => ⟨⟨h, hc⟩, ne_nil_of_mem (mem_filter.mpr ⟨h, by simpa using hc⟩)⟩

theorem count_taken (ht : ∀ e ∈ taken, e ∈ hits sights wanted) {c : γ} (hc : c ∈ wanted) :
    count taken c = seen sights (taken.map Prod.fst) c := by
  unfold count seen
  rw [countP_map]
  refine countP_congr fun e he => ?_
  obtain ⟨⟨s, hs, hes⟩, -⟩ := mem_hits.mp (ht e he)
  simp [hs, hes, hc]

variable {s : State ν γ}

theorem Inv.take (h : Inv g hit s taken)
    (he : e ∈ s.left) : Inv g hit (g.take s e) (taken ++ [e]) := by
  have hmono : s.done ≤ g.done fun c => s.got c + if c ∈ e.2 then 1 else 0 := by
    rw [h.done]
    exact done_mono fun c => Nat.le_add_right _ _
  have hfrac : (s.done : ℚ) / g.wanted.length ≤ ((g.take s e).done : ℚ) / g.wanted.length := by
    gcongr
    exact hmono
  refine ⟨?_, ?_, fun c => ?_, rfl, ?_, fun f hf => ?_, fun f hf => ?_⟩
  · rw [append_assoc]
    exact ((perm_cons_erase he).symm.append_left taken).trans h.perm
  · simp [Goal.take, h.names]
  · simp only [Goal.take, count_append, h.got]
    simp [count, countP_cons]
  · simp only [Goal.take, map_append, map_cons, map_nil]
    refine pairwise_append.mpr ⟨h.rising, pairwise_singleton _ _, fun f hf f' hf' => ?_⟩
    rw [mem_singleton.mp hf']
    exact (h.below f hf).trans hfrac
  · simp only [Goal.take, map_append, map_cons, map_nil, mem_append, mem_singleton] at hf
    rcases hf with hf | rfl
    · exact (h.below f hf).trans hfrac
    · exact le_rfl
  · simp only [Goal.take, map_append, map_cons, map_nil,
      List.getLast?_append, List.getLast?_singleton, Option.some_or, Option.some.injEq] at hf
    exact hf.symm

omit [LinearOrder ν] in
theorem Inv.short (h : Inv g hit s taken)
    (hreach : ∀ c, g.reach c ↔ g.k ≤ count hit c) (hd : s.done < g.total) :
    ∃ c, s.got c < g.need c ∧ ∃ e ∈ s.left, c ∈ e.2 := by
  rw [h.done] at hd
  have hex : ∃ c, g.reach c ∧ s.got c < g.need c := by
    by_contra hno
    push Not at hno
    refine hd.not_ge (countP_mono_left fun c _ hc => ?_)
    simp [hc, hno c hc]
  obtain ⟨c, hc, hlt⟩ := hex
  have hk : g.need c = g.k := if_pos hc
  have hcount := (hreach c).mp hc
  rw [← count_perm h.perm, count_append, ← h.got] at hcount
  have hpos : 0 < count s.left c := by omega
  obtain ⟨e, he, hce⟩ := countP_pos_iff.mp hpos
  exact ⟨c, hlt, e, he, by simpa using hce⟩

theorem Inv.loop (h : Inv g hit s taken)
    (hreach : ∀ c, g.reach c ↔ g.k ≤ count hit c) {fuel : ℕ} (hf : s.left.length ≤ fuel) :
    ∃ taken', Inv g hit (g.loop fuel s) taken' ∧ (g.loop fuel s).done = g.total := by
  have hle : s.done ≤ g.total := h.done ▸ done_le_total _
  induction fuel generalizing s taken with
  | zero =>
    refine ⟨taken, h, le_antisymm hle (not_lt.mp fun hd => ?_)⟩
    obtain ⟨c, -, e, he, -⟩ := h.short hreach hd
    have hpos := length_pos_of_mem he
    omega
  | succ fuel ih =>
    unfold Goal.loop
    by_cases hd : s.done < g.total
    · obtain ⟨c, hlt, e, he, hce⟩ := h.short hreach hd
      obtain ⟨b, hb, hbl, hgain⟩ := best_spec he hce hlt
      simp only [if_pos hd, hb, if_neg hgain]
      refine ih (h.take hbl) ?_ (done_le_total _)
      have hlen := length_erase_of_mem hbl
      have hpos := length_pos_of_mem hbl
      simp only [Goal.take]
      omega
    · rw [if_neg hd]
      exact ⟨taken, h, le_antisymm hle (not_lt.mp hd)⟩

/-- The greedy cover, for every table of views: distinct views of the table that see each wanted
cell `k` times wherever `k` views of the table do, with fractions that rise to the ceiling. -/
theorem cover_complete (sights : Dict ν (List γ)) (wanted : List γ) {k : ℕ} (hk : 1 ≤ k) :
    let views := (cover sights wanted k).1.map Prod.fst
    let fractions := (cover sights wanted k).1.map Prod.snd
    let ceiling := (cover sights wanted k).2
    views.Nodup ∧ (∀ v ∈ views, v ∈ sights.keys) ∧
      (∀ c ∈ wanted, k ≤ seen sights sights.keys c → k ≤ seen sights views c) ∧
      fractions.Pairwise (· ≤ ·) ∧ (∀ f, fractions.getLast? = some f → f = ceiling) ∧
      ceiling = ((unique wanted).countP fun c => k ≤ seen sights sights.keys c) /
        (unique wanted).length := by
  intro views fractions ceiling
  have hreach : ∀ c ∈ unique wanted, ((goal sights wanted k).reach c ↔ k ≤ seen sights sights.keys c) := by
    intro c hc
    rw [← count_hits sights (unique wanted) hc]
    exact decide_eq_true_iff
  have htotal : (goal sights wanted k).total =
      (unique wanted).countP fun c => k ≤ seen sights sights.keys c :=
    countP_congr fun c hc => by rw [hreach c hc, decide_eq_true_iff]
  by_cases hany : (unique wanted).any (goal sights wanted k).reach
  · obtain ⟨taken, hinv, hdone⟩ := (Inv.start (g := goal sights wanted k)
      (hits sights (unique wanted)) hk).loop (fun c => decide_eq_true_iff) le_rfl
    have hcover : cover sights wanted k = (((goal sights wanted k).loop
        (hits sights (unique wanted)).length ⟨fun _ => 0, hits sights (unique wanted), 0, []⟩).out,
          ((goal sights wanted k).total : ℚ) / (unique wanted).length) := if_pos hany
    have hviews : views = taken.map Prod.fst := by
      simp only [views, hcover, hinv.names]
    have hmem : ∀ e ∈ taken, e ∈ hits sights (unique wanted) := fun e he =>
      hinv.perm.subset (mem_append_left _ he)
    refine ⟨?_, fun v hv => ?_, fun c hc hsee => ?_, ?_, fun f hf => ?_, ?_⟩
    · have hnd := (hinv.perm.map Prod.fst).nodup_iff.mpr (hits_nodup sights (unique wanted))
      rw [map_append] at hnd
      rw [hviews]
      exact hnd.of_append_left
    · rw [hviews] at hv
      obtain ⟨e, he, rfl⟩ := mem_map.mp hv
      obtain ⟨⟨s, hs, -⟩, -⟩ := mem_hits.mp (hmem e he)
      exact Dict.mem_keys.mpr ⟨s, hs⟩
    · have hcu : c ∈ unique wanted := mem_unique.mpr hc
      have hgot := done_eq_total (hinv.done.symm.trans hdone) hcu ((hreach c hcu).mpr hsee)
      rw [hinv.got, count_taken hmem hcu, ← hviews] at hgot
      exact hgot
    · simp only [fractions, hcover]
      exact hinv.rising
    · simp only [fractions, hcover] at hf
      simp only [ceiling, hcover]
      rw [hinv.last f hf, hdone]
      rfl
    · simp only [ceiling, hcover, htotal]
  · have hcover : cover sights wanted k = ([], 0) := if_neg hany
    have hzero : (unique wanted).countP (fun c => k ≤ seen sights sights.keys c) = 0 := by
      refine countP_eq_zero.mpr fun c hc hsee => hany (any_eq_true.mpr ⟨c, hc, ?_⟩)
      exact (hreach c hc).mpr (of_decide_eq_true hsee)
    simp only [views, fractions, ceiling, hcover, hzero]
    refine ⟨nodup_nil, by simp, fun c hc hsee => ?_, List.Pairwise.nil, by simp, by simp⟩
    have hcu : c ∈ unique wanted := mem_unique.mpr hc
    exact (countP_eq_zero.mp hzero c hcu (by simpa using hsee)).elim

theorem cover_complete_pair :
    let sights : Dict ℕ (List ℕ) := ⟨[(0, [1, 2]), (1, [2, 3])], by decide⟩
    2 ≤ seen sights ((cover sights [2] 2).1.map Prod.fst) 2 :=
  (cover_complete _ [2] (by decide)).2.2.1 2 (by decide) (by decide)

end CloudServer.Leafcover
