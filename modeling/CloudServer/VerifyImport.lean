import CloudServer.Dict
import CloudServer.Scan

/-! The look at the destination after a transfer: which items of the plan are complete there, so
that a move may delete them at their source. -/
namespace CloudServer.VerifyImport

open Option
open Scan (Text str)

section Model

abbrev RunId := ℕ

abbrev Leg := RunId × ℕ

structure MapEntry where
  source_name : Text
  target_name : Text
  nodes : Option ℕ
  edges : Option ℕ
  deriving DecidableEq

structure Plan where
  maps : List MapEntry
  runs : List Text
  rosbags : List (Text × Text)

/-- The files of a bundle: per map its graph and its objects with their sizes, per mission its runs
and legs, per recording its size. -/
structure Bundle where
  nodes : Text → List Text
  edges : Text → List Text
  objects : Text → Option (List (Text × ℕ))
  runs : Text → Option (List RunId)
  legs : Text → Option (List Leg)
  size : Text → Text → Option ℕ

structure Row where
  lifecycle : Text
  phase : Option Text

structure Server where
  rows : Text → Option Row
  nodes : Text → Option (Finset Text)
  edges : Text → Option (Finset Text)
  bucket : Text → Option (Dict Text ℕ)
  runs : Finset RunId
  legs : Finset Leg
  rosbag_size : Text → Text → Option ℕ

structure Report where
  ok : Bool
  problems : List Text
  maps : Dict Text Text
  runs : Dict Text (List RunId)
  rosbags : List (Text × Text)
  deriving DecidableEq

def Report.empty : Report := ⟨true, [], .empty, .empty, []⟩

def Report.problem (out : Report) (text : Text) : Report :=
  { out with ok := false, problems := out.problems ++ [text] }

def Server.get_row (D : Server) (name : Text) : Option Row :=
  (D.rows name).filter fun row => row.lifecycle ≠ "DELETED".toList

def Server.nodesOf (D : Server) (name : Text) : Finset Text := (D.nodes name).getD ∅

def Server.edgesOf (D : Server) (name : Text) : Finset Text := (D.edges name).getD ∅

def Server.map_counts (D : Server) (name : Text) : ℕ × ℕ :=
  ((D.nodesOf name).card, (D.edgesOf name).card)

def Server.object_sizes (D : Server) (name : Text) : Dict Text ℕ := (D.bucket name).getD .empty

def Server.existing_runs (D : Server) (ids : List RunId) : ℕ × ℕ :=
  ((D.runs.filter fun r => r ∈ ids).card, (D.legs.filter fun leg => leg.1 ∈ ids).card)

/-- `ids[i:i + 500]` for each `i` of `range(0, len(ids), 500)`. -/
def slices (ids : List RunId) : List (List RunId) :=
  (List.range' 0 ((ids.length + 499) / 500) 500).map fun i => (ids.drop i).take 500

def strOption : Option ℕ → Text
  | none => "None".toList
  | some n => str n

variable (repr : Text → Text) (B : Bundle) (D : Server)

/-- The objects the bundle lists for a map that are not there with their size. -/
def missing (e : MapEntry) : List (Text × ℕ) :=
  ((B.objects e.source_name).getD []).filter fun o =>
    (D.object_sizes e.target_name).get o.1 ≠ some o.2

def map_problem (e : MapEntry) : Option Text :=
  match D.get_row e.target_name with
  | none => some ("map ".toList ++ repr e.target_name ++ " is not on the destination".toList)
  | some row =>
    if row.phase ≠ some "complete".toList then
      some ("map ".toList ++ repr e.target_name ++ " was not completed on the destination".toList)
    else if (D.map_counts e.target_name).1 < e.nodes.getD 0 ∨
        (D.map_counts e.target_name).2 < e.edges.getD 0 then
      some ("map ".toList ++ repr e.target_name ++ " has ".toList ++
        str (D.map_counts e.target_name).1 ++ " nodes and ".toList ++
        str (D.map_counts e.target_name).2 ++ " edges, the source had ".toList ++
        strOption e.nodes ++ " and ".toList ++ strOption e.edges)
    else match missing B D e with
      | [] => none
      | o :: rest =>
        some ("map ".toList ++ repr e.target_name ++ " is missing ".toList ++
          str (rest.length + 1) ++ " of ".toList ++
          str ((B.objects e.source_name).getD []).length ++ " files (for example ".toList ++ o.1 ++
          ")".toList)

def verify_map (out : Report) (e : MapEntry) : Report :=
  match map_problem repr B D e with
  | some text => out.problem text
  | none => { out with maps := out.maps.set e.source_name e.target_name }

def verify_runs (out : Report) (mission : Text) : Option Report :=
  (B.runs mission).bind fun ids => (B.legs mission).map fun legs =>
    let found := (slices ids).map D.existing_runs
    let found := ((found.map Prod.fst).sum, (found.map Prod.snd).sum)
    if found.1 < ids.length ∨ found.2 < legs.length then
      out.problem ("mission ".toList ++ repr mission ++ ": ".toList ++ str found.1 ++
        " of ".toList ++ str ids.length ++ " runs and ".toList ++ str found.2 ++ " of ".toList ++
        str legs.length ++ " legs are on the destination".toList)
    else { out with runs := out.runs.set mission ids }

def verify_rosbag (out : Report) (bag : Text × Text) : Option Report :=
  (B.size bag.1 bag.2).map fun size =>
    if D.rosbag_size bag.1 bag.2 ≠ some size then
      out.problem ("recording ".toList ++ bag.1 ++ "/".toList ++ bag.2 ++ " is ".toList ++
        (match D.rosbag_size bag.1 bag.2 with
          | none => "missing".toList
          | some n => str n ++ " bytes".toList) ++ " on the destination, expected ".toList ++
        str size ++ " bytes".toList)
    else { out with rosbags := out.rosbags ++ [bag] }

def verify_import (plan : Plan) : Option Report :=
  (plan.runs.foldlM (verify_runs repr B D)
    (plan.maps.foldl (verify_map repr B D) .empty)).bind fun out =>
      plan.rosbags.foldlM (verify_rosbag B D) out

end Model

/-- What is reported as complete is on the destination. -/
structure Arrived (B : Bundle) (D : Server) (out : Report) : Prop where
  maps : ∀ src dst, out.maps.get src = some dst →
    (∀ k ∈ B.nodes src, k ∈ D.nodesOf dst) ∧ (∀ k ∈ B.edges src, k ∈ D.edgesOf dst) ∧
      ∀ o ∈ (B.objects src).getD [], (D.object_sizes dst).get o.1 = some o.2
  runs : ∀ mission ids, out.runs.get mission = some ids → B.runs mission = some ids ∧
    (∀ r ∈ ids, r ∈ D.runs) ∧ ∀ legs, B.legs mission = some legs → ∀ leg ∈ legs, leg ∈ D.legs
  rosbags : ∀ bag ∈ out.rosbags, ∃ size, B.size bag.1 bag.2 = some size ∧
    D.rosbag_size bag.1 bag.2 = some size

section Counting
variable {α : Type} [DecidableEq α]

/-- The strangers the destination holds make up for what it lacks, up to the count that is wanted:
where the bundle has as many, at least as many strangers as items are missing. -/
def MadeUp (μ : Finset α → ℕ) (want : ℕ) (ours theirs : Finset α) : Prop :=
  want + μ (ours \ theirs) ≤ μ ours + μ (theirs \ ours)

def Additive (μ : Finset α → ℕ) : Prop := ∀ s t, Disjoint s t → μ (s ∪ t) = μ s + μ t

variable {μ : Finset α → ℕ}

lemma Additive.split (hμ : Additive μ) (s t : Finset α) : μ s = μ (s ∩ t) + μ (s \ t) := by
  rw [← hμ _ _ (Finset.disjoint_sdiff_inter s t).symm, Finset.union_comm, Finset.sdiff_union_inter]

lemma madeUp_iff (hμ : Additive μ) {want : ℕ} {ours theirs : Finset α} :
    MadeUp μ want ours theirs ↔ want ≤ μ theirs := by
  have hours := hμ.split ours theirs
  have htheirs := hμ.split theirs ours
  rw [Finset.inter_comm] at htheirs
  unfold MadeUp
  omega

lemma card_additive : Additive (@Finset.card α) := fun _ _ => Finset.card_union_of_disjoint

lemma sum_additive {ι : Type} (cs : List ι) (p : ι → α → Prop) [∀ c, DecidablePred (p c)] :
    Additive fun s => (cs.map fun c => (s.filter (p c)).card).sum := by
  intro s t hst
  simp only
  rw [← List.sum_map_add]
  refine congrArg List.sum (List.map_congr_left fun c _ => ?_)
  rw [Finset.filter_union, Finset.card_union_of_disjoint (Finset.disjoint_filter_filter hst)]

lemma sum_full {β : Type} {cs : List (List β)} {f : List β → ℕ} (hf : ∀ c ∈ cs, f c ≤ c.length) :
    cs.flatten.length ≤ (cs.map f).sum ↔ ∀ c ∈ cs, f c = c.length := by
  induction cs with
  | nil => simp
  | cons c cs ih =>
    have hc := hf c (by simp)
    have ih' := ih fun d hd => hf d (by simp [hd])
    have hle : (cs.map f).sum ≤ cs.flatten.length := by
      rw [List.length_flatten]
      exact List.sum_le_sum fun d hd => hf d (by simp [hd])
    rw [List.forall_mem_cons, ← ih', List.flatten_cons, List.length_append, List.map_cons, List.sum_cons]
    omega

lemma card_filter_mem_le (s : Finset α) (c : List α) :
    (s.filter fun x => x ∈ c).card ≤ c.length := by
  have hsub : (s.filter fun x => x ∈ c) ⊆ c.toFinset := fun x hx => by
    rw [List.mem_toFinset]
    exact (Finset.mem_filter.mp hx).2
  exact (Finset.card_le_card hsub).trans (List.toFinset_card_le c)

lemma card_filter_mem_eq {s : Finset α} {c : List α} :
    (s.filter fun x => x ∈ c).card = c.length ↔ c.Nodup ∧ ∀ x ∈ c, x ∈ s := by
  have hsub : (s.filter fun x => x ∈ c) ⊆ c.toFinset := fun x hx => by
    rw [List.mem_toFinset]
    exact (Finset.mem_filter.mp hx).2
  constructor
  · intro h
    have hcard := Finset.card_le_card hsub
    have hle := List.toFinset_card_le c
    have heq := Finset.eq_of_subset_of_card_le hsub (by omega)
    refine ⟨?_, fun x hx => ?_⟩
    · have hlen : c.dedup.length = c.length := by
        rw [← List.card_toFinset]
        omega
      exact List.dedup_eq_self.mp ((List.dedup_sublist c).eq_of_length hlen)
    · rw [← List.mem_toFinset, ← heq] at hx
      exact (Finset.mem_filter.mp hx).1
  · rintro ⟨hnd, hs⟩
    have heq : (s.filter fun x => x ∈ c) = c.toFinset := by
      ext x
      rw [Finset.mem_filter, List.mem_toFinset]
      exact ⟨fun h => h.2, fun h => ⟨hs x h, h⟩⟩
    rw [heq, List.toFinset_card_of_nodup hnd]

end Counting

lemma slices_from (ids : List RunId) (k start : ℕ) :
    ((List.range' start k 500).map fun i => (ids.drop i).take 500).flatten = (ids.drop start).take (500 * k) := by
  induction k generalizing start with
  | zero => simp
  | succ k ih =>
    rw [List.range'_succ, List.map_cons, List.flatten_cons, ih, Nat.mul_succ,
      Nat.add_comm (500 * k) 500, List.take_add, List.drop_drop]

lemma slices_flatten (ids : List RunId) : (slices ids).flatten = ids := by
  unfold slices
  rw [slices_from, List.drop_zero, List.take_of_length_le]
  omega

section Spec
variable (B : Bundle) (D : Server)

def Committed (name : Text) : Prop :=
  ∃ row, D.get_row name = some row ∧ row.phase = some "complete".toList

def Passes (e : MapEntry) : Prop :=
  Committed D e.target_name ∧ e.nodes.getD 0 ≤ (D.map_counts e.target_name).1 ∧
    e.edges.getD 0 ≤ (D.map_counts e.target_name).2 ∧ missing B D e = []

/-- A map is committed and its objects are there, it lacks a node or an edge, and for both the
strangers make up for what is missing. -/
def MapMasked (e : MapEntry) : Prop :=
  Committed D e.target_name ∧ missing B D e = [] ∧
    ((∃ k ∈ B.nodes e.source_name, k ∉ D.nodesOf e.target_name) ∨
      ∃ k ∈ B.edges e.source_name, k ∉ D.edgesOf e.target_name) ∧
    MadeUp Finset.card (e.nodes.getD 0) (B.nodes e.source_name).toFinset (D.nodesOf e.target_name) ∧
    MadeUp Finset.card (e.edges.getD 0) (B.edges e.source_name).toFinset (D.edgesOf e.target_name)

def counted (ids : List RunId) (legs : Finset Leg) : ℕ :=
  ((slices ids).map fun c => (legs.filter fun leg => leg.1 ∈ c).card).sum

def RunsThere (ids : List RunId) : Prop := ∀ c ∈ slices ids, c.Nodup ∧ ∀ r ∈ c, r ∈ D.runs

/-- A mission has its runs there and lacks a leg, and the other legs of its runs make up for it. -/
def LegsMasked (mission : Text) : Prop :=
  ∃ ids legs, B.runs mission = some ids ∧ B.legs mission = some legs ∧ RunsThere D ids ∧
    (∃ leg ∈ legs, leg ∉ D.legs) ∧ MadeUp (counted ids) legs.length legs.toFinset D.legs

/-- No later entry of the same map takes its place. -/
def Stands (entries : List MapEntry) (e : MapEntry) : Prop :=
  ∃ pre post, entries = pre ++ e :: post ∧
    ∀ x ∈ post, x.source_name = e.source_name → ¬Passes B D x

variable {B D} {repr : Text → Text} {e : MapEntry} {out : Report}

lemma map_problem_none : map_problem repr B D e = none ↔ Passes B D e := by
  unfold map_problem Passes Committed
  cases hrow : D.get_row e.target_name with
  | none => simp
  | some row =>
    simp only [Option.some.injEq, exists_eq_left']
    by_cases hphase : row.phase = some "complete".toList
    · rw [if_neg (not_not.mpr hphase)]
      by_cases hcount : (D.map_counts e.target_name).1 < e.nodes.getD 0 ∨
          (D.map_counts e.target_name).2 < e.edges.getD 0
      · rw [if_pos hcount]
        refine iff_of_false (by simp) fun h => ?_
        omega
      · rw [if_neg hcount]
        cases hmissing : missing B D e with
        | nil =>
          refine iff_of_true rfl ⟨hphase, ?_, ?_, rfl⟩
          · omega
          · omega
        | cons o rest => simp
    · rw [if_pos hphase]
      exact iff_of_false (by simp) fun h => hphase h.1

lemma nothing_missing (h : missing B D e = []) : ∀ o ∈ (B.objects e.source_name).getD [],
    (D.object_sizes e.target_name).get o.1 = some o.2 := by
  intro o ho
  by_contra hno
  have hmem : o ∈ missing B D e := List.mem_filter.mpr ⟨ho, by simpa using hno⟩
  rw [h] at hmem
  cases hmem

lemma mapMasked_iff : MapMasked B D e ↔ Passes B D e ∧
    ¬((∀ k ∈ B.nodes e.source_name, k ∈ D.nodesOf e.target_name) ∧
      ∀ k ∈ B.edges e.source_name, k ∈ D.edgesOf e.target_name) := by
  unfold MapMasked Passes
  rw [madeUp_iff card_additive, madeUp_iff card_additive]
  simp only [Server.map_counts]
  constructor
  · rintro ⟨hc, hm, hlack, hn, he⟩
    refine ⟨⟨hc, hn, he, hm⟩, fun hall => ?_⟩
    rcases hlack with ⟨k, hk, hno⟩ | ⟨k, hk, hno⟩
    · exact hno (hall.1 k hk)
    · exact hno (hall.2 k hk)
  · rintro ⟨⟨hc, hn, he, hm⟩, hno⟩
    refine ⟨hc, hm, ?_, hn, he⟩
    by_contra hlack
    simp only [not_or, not_exists, not_and, not_not] at hlack
    exact hno hlack

lemma stands_concat {entries : List MapEntry} {x : MapEntry} :
    Stands B D (entries ++ [x]) e ↔ e = x ∨ Stands B D entries e ∧ (x.source_name = e.source_name → ¬Passes B D x) := by
  constructor
  · rintro ⟨pre, post, hsplit, hpost⟩
    rcases List.eq_nil_or_concat post with rfl | ⟨post', y, rfl⟩
    · exact .inl (List.singleton_inj.mp (List.append_inj' hsplit rfl).2).symm
    · rw [List.concat_eq_append] at hsplit hpost
      have hparts : entries ++ [x] = (pre ++ e :: post') ++ [y] := by simpa using hsplit
      obtain ⟨hentries, hx⟩ := List.append_inj' hparts rfl
      obtain rfl : x = y := by simpa using hx
      exact .inr ⟨⟨pre, post', hentries, fun z hz => hpost z (by simp [hz])⟩, hpost x (by simp)⟩
  · rintro (rfl | ⟨⟨pre, post, rfl, hpost⟩, hx⟩)
    · exact ⟨entries, [], rfl, fun z hz => by cases hz⟩
    · refine ⟨pre, post ++ [x], by simp, fun z hz => ?_⟩
      rcases List.mem_append.mp hz with hz | hz
      · exact hpost z hz
      · obtain rfl := List.mem_singleton.mp hz
        exact hx

lemma maps_get (repr : Text → Text) (entries : List MapEntry) (src dst : Text) :
    (entries.foldl (verify_map repr B D) .empty).maps.get src = some dst ↔
      ∃ e, Stands B D entries e ∧ Passes B D e ∧ e.source_name = src ∧ e.target_name = dst := by
  induction entries using List.reverseRecOn with
  | nil =>
    refine iff_of_false (fun h => nomatch h) ?_
    rintro ⟨e, ⟨pre, post, hnil, -⟩, -⟩
    simp at hnil
  | append_singleton entries x ih =>
    rw [List.foldl_append, List.foldl_cons, List.foldl_nil]
    generalize entries.foldl (verify_map repr B D) .empty = out at ih ⊢
    simp only [stands_concat]
    unfold verify_map
    by_cases hx : Passes B D x
    · rw [map_problem_none.mpr hx]
      simp only [Dict.get_set]
      by_cases hsrc : src = x.source_name
      · rw [if_pos hsrc]
        constructor
        · rintro hdst
          exact ⟨x, .inl rfl, hx, hsrc.symm, Option.some.inj hdst⟩
        · rintro ⟨e, rfl | ⟨-, hno⟩, he, hs, hd⟩
          · rw [hd]
          · exact absurd hx (hno (hsrc.symm.trans hs.symm))
      · rw [if_neg hsrc, ih]
        refine exists_congr fun e => ⟨?_, ?_⟩
        · rintro ⟨hst, he, hs, hd⟩
          exact ⟨.inr ⟨hst, fun heq => absurd (hs.symm.trans heq.symm) hsrc⟩, he, hs, hd⟩
        · rintro ⟨rfl | ⟨hst, -⟩, he, hs, hd⟩
          · exact absurd hs.symm hsrc
          · exact ⟨hst, he, hs, hd⟩
    · obtain ⟨text, htext⟩ := ne_none_iff_exists'.mp (mt map_problem_none.mp hx)
      rw [htext]
      change out.maps.get src = some dst ↔ _
      rw [ih]
      refine exists_congr fun e => ⟨?_, ?_⟩
      · rintro ⟨hst, he, hs, hd⟩
        exact ⟨.inr ⟨hst, fun _ => hx⟩, he, hs, hd⟩
      · rintro ⟨rfl | ⟨hst, -⟩, he, hs, hd⟩
        · exact absurd he hx
        · exact ⟨hst, he, hs, hd⟩

def RunsPass (B : Bundle) (D : Server) (mission : Text) (ids : List RunId) : Prop :=
  ∃ legs, B.runs mission = some ids ∧ B.legs mission = some legs ∧ RunsThere D ids ∧
    legs.length ≤ counted ids D.legs

lemma found_runs (ids : List RunId) :
    ids.length ≤ (((slices ids).map D.existing_runs).map Prod.fst).sum ↔ RunsThere D ids := by
  rw [List.map_map]
  conv_lhs => lhs; rw [← slices_flatten ids]
  refine (sum_full fun c _ => card_filter_mem_le D.runs c).trans ?_
  exact forall₂_congr fun c _ => card_filter_mem_eq

lemma found_legs (ids : List RunId) :
    (((slices ids).map D.existing_runs).map Prod.snd).sum = counted ids D.legs := by
  rw [List.map_map]
  rfl

variable {out' : Report} {mission : Text} {ids ids' : List RunId}

lemma verify_runs_cases (h : verify_runs repr B D out mission = some out') :
    (∃ ids, RunsPass B D mission ids ∧ out' = { out with runs := out.runs.set mission ids }) ∨
      (∀ ids, ¬RunsPass B D mission ids) ∧ ∃ text, out' = out.problem text := by
  unfold verify_runs at h
  obtain ⟨ids, hids, h⟩ := bind_eq_some_iff.mp h
  obtain ⟨legs, hlegs, rfl⟩ := map_eq_some_iff.mp h
  simp only
  split
  · rename_i hshort
    refine .inr ⟨?_, _, rfl⟩
    rintro ids' ⟨legs', hids', hlegs', hthere, hcount⟩
    rw [hids] at hids'
    rw [hlegs] at hlegs'
    cases hids'
    cases hlegs'
    rw [← found_legs] at hcount
    have hruns := (found_runs (D := D) ids).mpr hthere
    omega
  · rename_i hfull
    refine .inl ⟨ids, ⟨legs, hids, hlegs, (found_runs ids).mp ?_, ?_⟩, rfl⟩
    · omega
    · rw [← found_legs]
      omega

lemma RunsPass.unique (h : RunsPass B D mission ids)
    (h' : RunsPass B D mission ids') : ids = ids' := by
  obtain ⟨-, hids, -⟩ := h
  obtain ⟨-, hids', -⟩ := h'
  exact Option.some.inj (hids.symm.trans hids')

lemma runs_get {missions : List Text} (hempty : out.runs = .empty)
    (h : missions.foldlM (verify_runs repr B D) out = some out') :
    out'.maps = out.maps ∧ out'.rosbags = out.rosbags ∧ ∀ mission ids,
      out'.runs.get mission = some ids ↔ mission ∈ missions ∧ RunsPass B D mission ids := by
  induction missions using List.reverseRecOn generalizing out' with
  | nil =>
    cases h
    refine ⟨rfl, rfl, fun mission ids => iff_of_false ?_ ?_⟩
    · rw [hempty]
      exact nofun
    · exact fun hm => nomatch hm.1
  | append_singleton missions x ih =>
    rw [List.foldlM_append] at h
    obtain ⟨mid, hmid, hx⟩ := bind_eq_some_iff.mp h
    obtain ⟨hmaps, hbags, hget⟩ := ih hmid
    have hx' : verify_runs repr B D mid x = some out' := by simpa using hx
    rcases verify_runs_cases hx' with ⟨ids, hpass, rfl⟩ | ⟨hno, text, rfl⟩
    · refine ⟨hmaps, hbags, fun mission ids' => ?_⟩
      simp only [Dict.get_set, List.mem_append, List.mem_singleton]
      by_cases hm : mission = x
      · subst hm
        rw [if_pos rfl]
        constructor
        · rintro heq
          cases heq
          exact ⟨.inr rfl, hpass⟩
        · rintro ⟨-, hpass'⟩
          rw [hpass.unique hpass']
      · rw [if_neg hm, hget]
        exact and_congr_left fun _ => ⟨.inl, fun h => h.resolve_right hm⟩
    · refine ⟨hmaps, hbags, fun mission ids' => ?_⟩
      change mid.runs.get mission = some ids' ↔ _
      rw [hget, List.mem_append, List.mem_singleton]
      refine and_congr_left fun hpass => ⟨.inl, fun h => h.resolve_right ?_⟩
      rintro rfl
      exact hno ids' hpass

lemma legsMasked_iff : LegsMasked B D mission ↔
    ∃ ids legs, RunsPass B D mission ids ∧ B.legs mission = some legs ∧ ¬∀ leg ∈ legs, leg ∈ D.legs := by
  have hadd : ∀ ids, Additive (counted ids) := fun ids =>
    sum_additive (slices ids) fun c (leg : Leg) => leg.1 ∈ c
  constructor
  · rintro ⟨ids, legs, hids, hlegs, hthere, ⟨leg, hleg, hno⟩, hmade⟩
    exact ⟨ids, legs, ⟨legs, hids, hlegs, hthere, (madeUp_iff (hadd ids)).mp hmade⟩, hlegs, fun hall => hno (hall leg hleg)⟩
  · rintro ⟨ids, legs, ⟨legs', hids, hlegs', hthere, hcount⟩, hlegs, hlack⟩
    rw [hlegs] at hlegs'
    cases hlegs'
    simp only [not_forall] at hlack
    obtain ⟨leg, hleg, hno⟩ := hlack
    exact ⟨ids, legs, hids, hlegs, hthere, ⟨leg, hleg, hno⟩, (madeUp_iff (hadd ids)).mpr hcount⟩

lemma RunsThere.mem (h : RunsThere D ids) : ∀ r ∈ ids, r ∈ D.runs := by
  intro r hr
  rw [← slices_flatten ids, List.mem_flatten] at hr
  obtain ⟨c, hc, hrc⟩ := hr
  exact (h c hc).2 r hrc

def BagsThere (B : Bundle) (D : Server) (out : Report) : Prop := ∀ bag ∈ out.rosbags, ∃ size,
  B.size bag.1 bag.2 = some size ∧ D.rosbag_size bag.1 bag.2 = some size

lemma verify_rosbag_keeps {bag : Text × Text} (hout : BagsThere B D out)
    (h : verify_rosbag B D out bag = some out') :
    out'.maps = out.maps ∧ out'.runs = out.runs ∧ BagsThere B D out' := by
  unfold verify_rosbag at h
  obtain ⟨size, hsize, rfl⟩ := map_eq_some_iff.mp h
  split
  · exact ⟨rfl, rfl, hout⟩
  · rename_i hthere
    refine ⟨rfl, rfl, fun b hb => ?_⟩
    rcases List.mem_append.mp hb with hb | hb
    · exact hout b hb
    · obtain rfl := List.mem_singleton.mp hb
      exact ⟨size, hsize, not_not.mp hthere⟩

lemma rosbags_there {bags : List (Text × Text)} (hout : BagsThere B D out)
    (h : bags.foldlM (verify_rosbag B D) out = some out') :
    out'.maps = out.maps ∧ out'.runs = out.runs ∧ BagsThere B D out' := by
  induction bags generalizing out with
  | nil =>
    cases h
    exact ⟨rfl, rfl, hout⟩
  | cons bag bags ih =>
    rw [List.foldlM_cons] at h
    obtain ⟨mid, hmid, hrest⟩ := bind_eq_some_iff.mp h
    obtain ⟨hmaps, hruns, hmidbags⟩ := verify_rosbag_keeps hout hmid
    obtain ⟨hmaps', hruns', hbags⟩ := ih hmidbags hrest
    exact ⟨hmaps'.trans hmaps, hruns'.trans hruns, hbags⟩

/-- What is listed has arrived exactly if no map that stands and no mission of the plan is
masked: whatever lacks something has too few strangers to hide it. -/
theorem listed_arrived_iff {plan : Plan} {report : Report}
    (h : verify_import repr B D plan = some report) : Arrived B D report ↔
      (∀ e, Stands B D plan.maps e → ¬MapMasked B D e) ∧
        ∀ mission ∈ plan.runs, ¬LegsMasked B D mission := by
  obtain ⟨out, hruns, hbags⟩ := bind_eq_some_iff.mp h
  have hfirst : (plan.maps.foldl (verify_map repr B D) .empty).runs = .empty ∧
      (plan.maps.foldl (verify_map repr B D) .empty).rosbags = [] := by
    induction plan.maps using List.reverseRecOn with
    | nil => exact ⟨rfl, rfl⟩
    | append_singleton entries x ih =>
      rw [List.foldl_append, List.foldl_cons, List.foldl_nil]
      unfold verify_map
      split
      · exact ih
      · exact ih
  obtain ⟨hmaps, hnone, hget⟩ := runs_get hfirst.1 hruns
  have hstart : BagsThere B D out := by
    unfold BagsThere
    rw [hnone, hfirst.2]
    exact fun bag hbag => nomatch hbag
  obtain ⟨hmaps', hruns', hthere⟩ := rosbags_there hstart hbags
  constructor
  · intro ha
    refine ⟨fun e hst hmask => ?_, fun mission hm hmask => ?_⟩
    · obtain ⟨hpass, hlack⟩ := mapMasked_iff.mp hmask
      have hin := (maps_get repr plan.maps e.source_name e.target_name).mpr
        ⟨e, hst, hpass, rfl, rfl⟩
      rw [← hmaps, ← hmaps'] at hin
      obtain ⟨hn, he, -⟩ := ha.maps _ _ hin
      exact hlack ⟨hn, he⟩
    · obtain ⟨ids, legs, hpass, hlegs, hlack⟩ := legsMasked_iff.mp hmask
      have hin := (hget mission ids).mpr ⟨hm, hpass⟩
      rw [← hruns'] at hin
      exact hlack ((ha.runs _ _ hin).2.2 legs hlegs)
  · rintro ⟨hnomap, hnolegs⟩
    refine ⟨fun src dst hin => ?_, fun mission ids hin => ?_, hthere⟩
    · rw [hmaps', hmaps] at hin
      obtain ⟨e, hst, hpass, rfl, rfl⟩ := (maps_get repr plan.maps src dst).mp hin
      have hall := not_not.mp fun hlack => hnomap e hst (mapMasked_iff.mpr ⟨hpass, hlack⟩)
      exact ⟨hall.1, hall.2, nothing_missing hpass.2.2.2⟩
    · rw [hruns'] at hin
      obtain ⟨hm, hpass⟩ := (hget mission ids).mp hin
      obtain ⟨legs, hids, hlegs, hrt, hcount⟩ := id hpass
      refine ⟨hids, hrt.mem, fun legs' hlegs' => ?_⟩
      exact not_not.mp fun hlack => hnolegs mission hm
        (legsMasked_iff.mpr ⟨ids, legs', hpass, hlegs', hlack⟩)

end Spec

def hall : Bundle where
  nodes name := if name = ['h'] then [['a'], ['b']] else []
  edges _ := []
  objects _ := some []
  runs _ := none
  legs _ := none
  size _ _ := none

def holding (nodes : Finset Text) : Server where
  rows _ := some ⟨"ALIVE".toList, some "complete".toList⟩
  nodes _ := some nodes
  edges _ := none
  bucket _ := none
  runs := ∅
  legs := ∅
  rosbag_size _ _ := none

def hallEntry : MapEntry := ⟨['h'], ['h'], some 2, some 0⟩

def hallPlan : Plan := ⟨[hallEntry], [], []⟩

def listed : Report := ⟨true, [], .ofList [(['h'], ['h'])], .empty, []⟩

theorem listed_arrived_hall :
    verify_import id hall (holding {['a'], ['b'], ['c']}) hallPlan = some listed ∧
      Arrived hall (holding {['a'], ['b'], ['c']}) listed := by
  have h : verify_import id hall (holding {['a'], ['b'], ['c']}) hallPlan = some listed := by
    decide
  refine ⟨h, (listed_arrived_iff h).mpr ⟨?_, fun mission hm => nomatch hm⟩⟩
  rintro e ⟨pre, post, hsplit, -⟩ ⟨-, -, hlack, -⟩
  have he : e ∈ hallPlan.maps := by
    rw [hsplit]
    simp
  obtain rfl := List.mem_singleton.mp he
  revert hlack
  decide

/-- A node was deleted on the destination and another one added. -/
theorem node_lost_unnoticed :
    verify_import id hall (holding {['a'], ['c']}) hallPlan = some listed ∧
      ¬Arrived hall (holding {['a'], ['c']}) listed := by
  refine ⟨by decide, fun h => ?_⟩
  have hb := (h.maps ['h'] ['h'] (by decide)).1 ['b'] (by decide)
  revert hb
  decide

end CloudServer.VerifyImport
