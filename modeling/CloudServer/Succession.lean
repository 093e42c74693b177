import CloudServer.Dict

/-! Names that are retired in favour of other names, step after step. A step lists the names
it retires with their successors; steps compose by simultaneous replacement, and a running
table computes the composition by replacing one name after the other. -/
namespace CloudServer.Succession

open List Dict

variable {α : Type} [DecidableEq α]

def retiredBy (es : List (α × List α)) : List α := es.map Prod.fst

def leads (es : List (α × List α)) (k : α) : List α := (Dict.find es k).getD [k]

def compose (steps : List (List (α × List α))) (k : α) : List α :=
  steps.foldl (fun s es => s.flatMap (leads es)) [k]

def substitute (k : α) (succ s : List α) : List α :=
  if k ∈ s then (s.flatMap fun y => if y = k then succ else [y]).eraseDups else s

def retire (res : Dict α (List α)) (e : α × List α) : Dict α (List α) :=
  (res.map fun _ s => substitute e.1 e.2 s).set e.1 e.2

def retireAll (res : Dict α (List α)) (es : List (α × List α)) : Dict α (List α) :=
  es.foldl retire res

def table (steps : List (List (α × List α))) : Dict α (List α) := steps.foldl retireAll .empty

/-- The names of `res` are those of all steps, each with what the composition makes of it. -/
def Composes (steps : List (List (α × List α))) (res : Dict α (List α)) : Prop :=
  ∀ k, (k ∈ res.keys ↔ ∃ es ∈ steps, k ∈ retiredBy es) ∧
    ∀ s, res.get k = some s → ∀ x, x ∈ s ↔ x ∈ compose steps k

/-- When one more step keeps the table right. A name leads to what its successors lead to, a
successor that the same step retires later counting with what the composition makes of it; and
a name retired before leads to what its successors so far lead to, the ones retired now counting
with what the composition makes of them. -/
structure Settled (steps : List (List (α × List α))) (es : List (α × List α)) : Prop where
  own : ∀ l k succ r, es = l ++ (k, succ) :: r → ∀ x, x ∈ compose (steps ++ [es]) k ↔
    ∃ y ∈ succ, if y ∈ retiredBy r then x ∈ compose (steps ++ [es]) y else x = y
  passed : ∀ d, (∃ es' ∈ steps, d ∈ retiredBy es') → d ∉ retiredBy es → ∀ x,
    x ∈ compose (steps ++ [es]) d ↔ ∃ y ∈ compose steps d,
      if y ∈ retiredBy es then x ∈ compose (steps ++ [es]) y else x = y

omit [DecidableEq α] in
@[simp]
lemma retiredBy_nil : retiredBy ([] : List (α × List α)) = [] := rfl

omit [DecidableEq α] in
@[simp]
lemma retiredBy_cons (e : α × List α) (es : List (α × List α)) : retiredBy (e :: es) = e.1 :: retiredBy es := rfl

omit [DecidableEq α] in
@[simp]
lemma retiredBy_append (l r : List (α × List α)) : retiredBy (l ++ r) = retiredBy l ++ retiredBy r := map_append

lemma compose_append (steps : List (List (α × List α))) (es : List (α × List α)) (k : α) :
    compose (steps ++ [es]) k = (compose steps k).flatMap (leads es) := by
  simp [compose]

lemma leads_of_notMem {es : List (α × List α)} {k : α} (h : k ∉ retiredBy es) :
    leads es k = [k] := by
  unfold leads
  rw [find_eq_none.mpr h]
  rfl

lemma leads_of_mem {es : List (α × List α)} (hnd : (retiredBy es).Nodup) {k : α} {succ : List α}
    (h : (k, succ) ∈ es) : leads es k = succ := by
  unfold leads
  rw [(mem_iff_find hnd).mp h]
  rfl

lemma compose_of_notMem {steps : List (List (α × List α))} {k : α}
    (h : ∀ es ∈ steps, k ∉ retiredBy es) : compose steps k = [k] := by
  induction steps using List.reverseRecOn with
  | nil => rfl
  | append_singleton steps es ih =>
    rw [compose_append, ih fun e he => h e (by simp [he])]
    simp [leads_of_notMem (h es (by simp))]

lemma mem_substitute {k : α} {succ s : List α} {x : α} :
    x ∈ substitute k succ s ↔ ∃ y ∈ s, if y = k then x ∈ succ else x = y := by
  unfold substitute
  split_ifs with hk
  · rw [mem_eraseDups, mem_flatMap]
    refine exists_congr fun y => and_congr_right fun _ => ?_
    split_ifs <;> simp
  · constructor
    · intro hx
      refine ⟨x, hx, ?_⟩
      rw [if_neg fun he : x = k => hk (he ▸ hx)]
    · rintro ⟨y, hy, hxy⟩
      rw [if_neg fun he : y = k => hk (he ▸ hy)] at hxy
      rwa [hxy]

def reach : List (α × List α) → α → List α
  | [], y => [y]
  | e :: es, y => if y = e.1 then e.2.flatMap (reach es) else reach es y

lemma reach_of_notMem {es : List (α × List α)} {y : α} (h : y ∉ retiredBy es) :
    reach es y = [y] := by
  induction es with
  | nil => rfl
  | cons e es ih =>
    obtain ⟨h1, h2⟩ := not_or.mp (fun hm => h (mem_cons.mpr hm))
    rw [reach, if_neg h1, ih h2]

lemma reach_append {l r : List (α × List α)} {y : α} (h : y ∉ retiredBy l) :
    reach (l ++ r) y = reach r y := by
  induction l with
  | nil => rfl
  | cons e l ih =>
    obtain ⟨h1, h2⟩ := not_or.mp (fun hm => h (mem_cons.mpr hm))
    rw [cons_append, reach, if_neg h1, ih h2]

lemma retire_get (res : Dict α (List α)) (e : α × List α) (d : α) :
    (retire res e).get d = if d = e.1 then some e.2
      else (res.get d).map (substitute e.1 e.2) := by
  unfold retire
  rw [get_set, get_map]

lemma mem_keys_retireAll (res : Dict α (List α)) (es : List (α × List α)) (d : α) :
    d ∈ (retireAll res es).keys ↔ d ∈ res.keys ∨ d ∈ retiredBy es := by
  induction es generalizing res with
  | nil => simp [retireAll]
  | cons e es ih =>
    have h := ih (retire res e)
    unfold retireAll at h ⊢
    rw [foldl_cons, h]
    unfold retire
    rw [mem_keys_set, keys_map, retiredBy_cons, mem_cons]
    tauto

lemma mem_retireAll {es : List (α × List α)} (hnd : (retiredBy es).Nodup)
    {res : Dict α (List α)} {d : α} {s : List α} (hs : (retireAll res es).get d = some s) (x : α) :
    x ∈ s ↔ if d ∈ retiredBy es then x ∈ reach es d
      else ∃ t, res.get d = some t ∧ ∃ y ∈ t, x ∈ reach es y := by
  induction es generalizing res with
  | nil =>
    change res.get d = some s at hs
    simp [reach, hs]
  | cons e es ih =>
    rw [retiredBy_cons, nodup_cons] at hnd
    obtain ⟨he, hnd'⟩ := hnd
    have h := @ih hnd' (retire res e) hs
    rw [h]
    simp only [retiredBy_cons, mem_cons]
    by_cases hd : d = e.1
    · subst hd
      rw [if_neg he, if_pos (.inl rfl), retire_get, if_pos rfl, reach, if_pos rfl]
      simp
    · by_cases hmem : d ∈ retiredBy es
      · rw [if_pos hmem, if_pos (.inr hmem), reach, if_neg hd]
      · rw [if_neg hmem, if_neg (not_or.mpr ⟨hd, hmem⟩), retire_get, if_neg hd]
        cases hres : res.get d with
        | none => simp
        | some t =>
          simp only [Option.map_some, Option.some.injEq, exists_eq_left', mem_substitute]
          constructor
          · rintro ⟨z, ⟨y, hy, hz⟩, hx⟩
            refine ⟨y, hy, ?_⟩
            rw [reach]
            split_ifs at hz ⊢ with hye
            · exact mem_flatMap.mpr ⟨z, hz, hx⟩
            · rwa [← hz]
          · rintro ⟨y, hy, hx⟩
            rw [reach] at hx
            split_ifs at hx with hye
            · obtain ⟨z, hz, hx⟩ := mem_flatMap.mp hx
              exact ⟨z, ⟨y, hy, by rwa [if_pos hye]⟩, hx⟩
            · exact ⟨y, ⟨y, hy, by rw [if_neg hye]⟩, hx⟩

section Step
variable {steps : List (List (α × List α))} {es : List (α × List α)}

lemma Settled.reach (h : Settled steps es) {l r : List (α × List α)} (he : es = l ++ r) (y x : α) :
    x ∈ reach r y ↔ if y ∈ retiredBy r then x ∈ compose (steps ++ [es]) y else x = y := by
  induction r generalizing l y x with
  | nil => simp [Succession.reach]
  | cons e r ih =>
    have ih' := @ih (l ++ [e]) (by simp [he])
    rw [Succession.reach]
    by_cases hy : y = e.1
    · subst hy
      rw [if_pos rfl, if_pos (by simp), mem_flatMap, h.own l e.1 e.2 r he]
      exact exists_congr fun z => and_congr_right fun _ => ih' z x
    · rw [if_neg hy, ih' y x]
      simp [hy]

lemma step_composes_iff (hnd : (retiredBy es).Nodup) {res : Dict α (List α)} (hres : Composes steps res) :
    Composes (steps ++ [es]) (retireAll res es) ↔ Settled steps es := by
  have hkeys : ∀ k, k ∈ (retireAll res es).keys ↔ ∃ es' ∈ steps ++ [es], k ∈ retiredBy es' := by
    intro k
    rw [mem_keys_retireAll, (hres k).1]
    simp [or_and_right, exists_or]
  have hgot : ∀ d, (∃ es' ∈ steps, d ∈ retiredBy es') →
      ∃ t, res.get d = some t ∧ ∀ y, y ∈ t ↔ y ∈ compose steps d := by
    intro d hd
    obtain ⟨t, ht⟩ := mem_keys.mp ((hres d).1.mpr hd)
    exact ⟨t, ht, (hres d).2 t ht⟩
  constructor
  · intro h
    have hreach : ∀ k ∈ retiredBy es, ∀ x, x ∈ reach es k ↔ x ∈ compose (steps ++ [es]) k := by
      intro k hk x
      obtain ⟨s, hs⟩ := mem_keys.mp ((hkeys k).mpr ⟨es, by simp, hk⟩)
      rw [← (h k).2 s hs x, mem_retireAll hnd hs x, if_pos hk]
    refine ⟨fun l k succ r he x => ?_, fun d hd hnot x => ?_⟩
    · have hsplit : (retiredBy l ++ k :: retiredBy r).Nodup := by
        rw [he] at hnd
        simpa using hnd
      obtain ⟨-, hr, hdis⟩ := nodup_append.mp hsplit
      obtain ⟨hkr, -⟩ := nodup_cons.mp hr
      have hkl : k ∉ retiredBy l := fun hm => hdis k hm k (by simp) rfl
      rw [← hreach k (by simp [he]) x]
      conv_lhs => rw [he, reach_append hkl, reach, if_pos rfl]
      rw [mem_flatMap]
      refine exists_congr fun y => and_congr_right fun _ => ?_
      split_ifs with hy
      · have hyl : y ∉ retiredBy l := fun hm => hdis y hm y (by simp [hy]) rfl
        have hyk : y ≠ k := fun e => hkr (e ▸ hy)
        rw [← hreach y (by rw [he]; simp [hy]) x]
        conv_rhs => rw [he, reach_append hyl, reach, if_neg hyk]
      · rw [reach_of_notMem hy, mem_singleton]
    · obtain ⟨t, ht, hmem⟩ := hgot d hd
      obtain ⟨s, hs⟩ := mem_keys.mp
        ((hkeys d).mpr ⟨hd.choose, by simp [hd.choose_spec.1], hd.choose_spec.2⟩)
      rw [← (h d).2 s hs x, mem_retireAll hnd hs x, if_neg hnot]
      simp only [ht, Option.some.injEq, exists_eq_left', hmem]
      refine exists_congr fun y => and_congr_right fun _ => ?_
      split_ifs with hy
      · exact hreach y hy x
      · rw [reach_of_notMem hy, mem_singleton]
  · intro h k
    refine ⟨hkeys k, fun s hs x => ?_⟩
    have hreach := fun y x => @Settled.reach α _ steps es h [] es rfl y x
    rw [mem_retireAll hnd hs x]
    split_ifs with hk
    · rw [hreach k x, if_pos hk]
    · have hold : ∃ es' ∈ steps, k ∈ retiredBy es' := by
        obtain ⟨es', hes', hk'⟩ := (hkeys k).mp (mem_keys.mpr ⟨s, hs⟩)
        rcases mem_append.mp hes' with h' | h'
        · exact ⟨es', h', hk'⟩
        · exact absurd (mem_singleton.mp h' ▸ hk') hk
      obtain ⟨t, ht, hmem⟩ := hgot k hold
      rw [h.passed k hold hk x]
      simp only [ht, Option.some.injEq, exists_eq_left', hmem]
      exact exists_congr fun y => and_congr_right fun _ => hreach y x

lemma Settled.of_fresh (hnd : (retiredBy es).Nodup) (hfresh : ∀ es' ∈ steps, ∀ k ∈ retiredBy es, k ∉ retiredBy es')
    (hlater : ∀ l k succ r, es = l ++ (k, succ) :: r → ∀ y ∈ succ, y ∉ retiredBy r) :
    Settled steps es := by
  have hnow : ∀ k ∈ retiredBy es, compose (steps ++ [es]) k = leads es k := by
    intro k hk
    rw [compose_append, compose_of_notMem fun es' he => hfresh es' he k hk]
    simp
  refine ⟨fun l k succ r he x => ?_, fun d _ _ x => ?_⟩
  · rw [hnow k (by simp [he]), @leads_of_mem α _ es hnd k succ (by simp [he])]
    constructor
    · intro hx
      exact ⟨x, hx, by rw [if_neg (hlater l k succ r he x hx)]⟩
    · rintro ⟨y, hy, hx⟩
      rw [if_neg (hlater l k succ r he y hy)] at hx
      rwa [hx]
  · rw [compose_append, mem_flatMap]
    refine exists_congr fun y => and_congr_right fun _ => ?_
    split_ifs with hy
    · rw [hnow y hy]
    · rw [leads_of_notMem hy, mem_singleton]

end Step

theorem table_composes_iff {steps : List (List (α × List α))} (hnd : ∀ es ∈ steps, (retiredBy es).Nodup) :
    (∀ p, p <+: steps → Composes p (table p)) ↔ ∀ p es, p ++ [es] <+: steps → Settled p es := by
  induction steps using List.reverseRecOn with
  | nil =>
    constructor
    · intro _ p es h
      simp at h
    · intro _ p h
      obtain rfl := prefix_nil.mp h
      exact fun k => by simp [table, keys_empty]
  | append_singleton steps es ih =>
    have ih := ih fun e he => hnd e (by simp [he])
    have hes := hnd es (by simp)
    have hlast : table (steps ++ [es]) = retireAll (table steps) es := by simp [table]
    constructor
    · intro h p e hp
      rcases prefix_concat_iff.mp hp with heq | hp
      · obtain ⟨rfl, he⟩ := append_inj' heq rfl
        cases he
        rw [← step_composes_iff hes (h p (prefix_append _ _)), ← hlast]
        exact h _ prefix_rfl
      · exact ih.mp (fun q hq => h q (hq.trans (prefix_append _ _))) p e hp
    · intro h
      have hpre := ih.mpr fun p e hp => h p e (hp.trans (prefix_append _ _))
      intro p hp
      rcases prefix_concat_iff.mp hp with rfl | hp
      · rw [hlast]
        exact (step_composes_iff hes (hpre steps prefix_rfl)).mpr (h steps es prefix_rfl)
      · exact hpre p hp

end CloudServer.Succession
