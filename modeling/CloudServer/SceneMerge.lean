import CloudServer.ChartKeysRule
import CloudServer.StoreLineage
import CloudServer.SuccessionMerge

/-! The summaries of consecutive folds, merged and saved as one version: what a later reader makes of the
keys they retired. -/
namespace CloudServer.SceneMerge
open SceneFold SceneApi StoreTiles StoreSave StoreOps StoreObjects StoreRun StoreHistory StoreSequence
open StoreCalls StoreCodec StoreRetain StoreLineage Succession Interact List

section Model

def unionBox (a b : BBox) : BBox := ⟨min a.x0 b.x0, min a.y0 b.y0, max a.x1 b.x1, max a.y1 b.y1⟩

def merge_dirty (a : Option Dirty) (b : Dirty) : Dirty :=
  match a with
  | none => b
  | some a =>
    let boxes := [a.bbox, b.bbox].reduceOption
    ⟨match boxes with
      | [] => none
      | x :: xs => some (xs.foldl unionBox x),
      (a.changed ++ b.changed).eraseDups, a.retired.update b.retired.items,
      (a.links ++ b.links).eraseDups, max a.watermark b.watermark⟩

def merged (ds : List Dirty) : Option Dirty := ds.foldl (fun a d => some (merge_dirty a d)) none

def canonical : Enumeration := fun _ retired => retired.sorted.items

abbrev KeyT := ChartKeys.Key String

def text (k : KeyT) : SceneApi.Key := fmt (ofLex k)

/-- A solve of the engine: the canvas, the previous owner plane on it, the charts of the new one (`none`
where nothing is navigable) and the leaf that names new charts. -/
structure Solve where
  H : ℕ
  W : ℕ
  key_plane : ChartKeys.Plane
  part : Option (ChartKeys.Plane × List (ℤ × ℤ))
  birth : String

/-- The charts that took over cells of the retired keys, the largest overlap first. -/
def successors (prev_keys : List KeyT) (ov : Dict (ℕ × ℕ) ℕ) (keys_t retired_t : List KeyT) :
    Dict KeyT (List KeyT) :=
  (ov.items.insertionSort fun (e e' : (ℕ × ℕ) × ℕ) => e'.2 ≤ e.2).foldl (fun succ e =>
    match prev_keys[e.1.2]?, keys_t[e.1.1]? with
    | some k, some j => if k ∈ retired_t then succ.set k ((succ.get k).getD [] ++ [j]) else succ
    | _, _ => succ) .empty

def evaluate (keys : List KeyT) (f : Solve) : List KeyT × Dict SceneApi.Key (List SceneApi.Key) :=
  match f.part with
  | none => ([], Dict.ofList (keys.map fun k => (text k, [])))
  | some (plane, anchors) =>
    let ov := ChartKeys.overlaps f.H f.W f.key_plane plane keys.length
    let r := ChartKeys.assign_A keys f.H f.W f.key_plane plane anchors f.birth (some ov)
    let succ := successors keys ov r.1 r.2
    (r.1, Dict.ofList (r.2.map fun k => (text k, ((succ.get k).getD []).map text)))

def retiredOf (keys : List KeyT) (f : Solve) : Dict SceneApi.Key (List SceneApi.Key) :=
  (evaluate keys f).2.filter fun k _ => k ∈ keys.map text

def retirements : List KeyT → List Solve → List (Dict SceneApi.Key (List SceneApi.Key))
  | _, [] => []
  | keys, f :: fs => retiredOf keys f :: retirements (evaluate keys f).1 fs

/-- The keys after the first `i` folds. -/
def keysAfter : List KeyT → List Solve → ℕ → List KeyT
  | keys, _, 0 => keys
  | keys, [], _ + 1 => keys
  | keys, f :: fs, i + 1 => keysAfter (evaluate keys f).1 fs i

/-- Solves one after the other: the owner plane of each holds indices of the keys before it, and no leaf names
new charts twice. -/
structure Folds (keys : List KeyT) (fs : List Solve) : Prop where
  nodup : keys.Nodup
  planes : ∀ i f, fs[i]? = some f → ∀ y < f.H, ∀ x < f.W, f.key_plane y x < ((keysAfter keys fs i).length : ℤ)
  anchors : ∀ f ∈ fs, ∀ p ∈ f.part, p.2.Nodup
  fresh : ∀ f ∈ fs, ∀ k ∈ keys, (ofLex k).1 ≠ f.birth
  births : (fs.map Solve.birth).Nodup

end Model

section Keys
variable {keys : List KeyT} {f : Solve} {fs : List Solve} {k : KeyT}

@[simp]
lemma keysAfter_zero : keysAfter keys fs 0 = keys := by
  cases fs <;> rfl

lemma keysAfter_one : keysAfter keys (f :: fs) 1 = (evaluate keys f).1 := keysAfter_zero

lemma retirements_length : (retirements keys fs).length = fs.length := by
  induction fs generalizing keys with
  | nil => rfl
  | cons f fs ih => exact congrArg Nat.succ ih

lemma text_injective : Function.Injective text := by
  intro k k' h
  have hp := congrArg parse h
  unfold text at hp
  rw [parse_fmt, parse_fmt] at hp
  exact ofLex.injective hp

lemma mem_successors {prev_keys keys_t retired_t : List KeyT} {ov : Dict (ℕ × ℕ) ℕ} {s : List KeyT}
    (h : (successors prev_keys ov keys_t retired_t).get k = some s) : ∀ y ∈ s, y ∈ keys_t := by
  unfold successors at h
  generalize (ov.items.insertionSort fun (e e' : (ℕ × ℕ) × ℕ) => e'.2 ≤ e.2) = es at h
  induction es using List.reverseRecOn generalizing k s with
  | nil => cases h
  | append_singleton es e ih =>
    rw [foldl_concat] at h
    generalize List.foldl _ Dict.empty es = d at h ih
    split at h
    · rename_i key j hkey hj
      split_ifs at h with hr
      · rw [Dict.get_set] at h
        split_ifs at h with hk
        · cases h
          intro y hy
          rcases mem_append.mp hy with hy | hy
          · cases hget : d.get key with
            | none =>
              rw [hget] at hy
              cases hy
            | some t =>
              rw [hget] at hy
              exact ih hget y hy
          · obtain rfl := mem_singleton.mp hy
            exact mem_of_getElem? hj
        · exact ih h
      · exact ih h
    · exact ih h

structure Solved (keys : List KeyT) (f : Solve) : Prop where
  nodup : (evaluate keys f).1.Nodup
  old : ∀ k ∈ (evaluate keys f).1, k ∈ keys ∨ (ofLex k).1 = f.birth
  retired : ∀ t, t ∈ retiredBy (retiredOf keys f).items ↔ ∃ k ∈ keys, k ∉ (evaluate keys f).1 ∧ text k = t
  succ : ∀ t s, (t, s) ∈ (retiredOf keys f).items → ∀ y ∈ s, ∃ k ∈ (evaluate keys f).1, text k = y

lemma retiredBy_filter {d : Dict SceneApi.Key (List SceneApi.Key)} {t : SceneApi.Key} :
    t ∈ retiredBy (d.filter fun t _ => t ∈ keys.map text).items ↔ t ∈ d.keys ∧ t ∈ keys.map text := by
  change t ∈ (d.filter fun t _ => t ∈ keys.map text).keys ↔ _
  simp only [Dict.mem_keys, Dict.get_filter, Option.filter_eq_some_iff, decide_eq_true_eq]
  constructor
  · rintro ⟨v, hv, ht⟩
    exact ⟨⟨v, hv⟩, ht⟩
  · rintro ⟨⟨v, hv⟩, ht⟩
    exact ⟨v, hv, ht⟩

lemma evaluate_part {plane : ChartKeys.Plane} {anchors : List (ℤ × ℤ)}
    (hpart : f.part = some (plane, anchors)) :
    let r := ChartKeys.assign_A keys f.H f.W f.key_plane plane anchors f.birth none
    let ov := ChartKeys.overlaps f.H f.W f.key_plane plane keys.length
    evaluate keys f = (r.1, Dict.ofList (r.2.map fun k =>
      (text k, (((successors keys ov r.1 r.2).get k).getD []).map text))) := by
  unfold evaluate
  rw [hpart]
  rfl

lemma solved (hnd : keys.Nodup) (hplane : ∀ y < f.H, ∀ x < f.W, f.key_plane y x < keys.length)
    (hanchors : ∀ p ∈ f.part, p.2.Nodup) (hfresh : ∀ k ∈ keys, (ofLex k).1 ≠ f.birth) : Solved keys f := by
  cases hpart : f.part with
  | none =>
    have heval : evaluate keys f = ([], Dict.ofList (keys.map fun k => (text k, []))) := by
      unfold evaluate
      rw [hpart]
    have hitems : (Dict.ofList (keys.map fun k => (text k, ([] : List SceneApi.Key)))).items =
        keys.map fun k => (text k, []) := Dict.ofList_items (by
      rw [map_map]
      exact hnd.map text_injective)
    refine ⟨by simp [heval], by simp [heval], fun t => ?_, fun t s ht y hy => ?_⟩
    · unfold retiredOf
      rw [retiredBy_filter, heval]
      simp [Dict.keys, hitems]
    · unfold retiredOf at ht
      rw [heval] at ht
      obtain ⟨hmem, -⟩ := mem_filter.mp ht
      rw [hitems] at hmem
      obtain ⟨k, -, he⟩ := mem_map.mp hmem
      cases he
      cases hy
  | some p =>
    obtain ⟨plane, anchors⟩ := p
    have hanch : anchors.Nodup := hanchors (plane, anchors) hpart
    have hretired := @ChartKeys.assign_retired _ _ keys anchors f.H f.W f.key_plane plane f.birth
        hnd hplane hanch
      hfresh
    have hnodup := @ChartKeys.assign_nodup _ _ keys anchors f.H f.W f.key_plane plane f.birth hnd
        hplane hanch hfresh
    have heval := @evaluate_part keys f plane anchors hpart
    dsimp only at heval
    have hold := fun k =>
      @ChartKeys.assign_old _ _ keys anchors f.H f.W f.key_plane plane f.birth hnd hplane hanch k
    generalize ChartKeys.assign_A keys f.H f.W f.key_plane plane anchors f.birth none =
      r at heval hretired hnodup hold
    have hitems : (evaluate keys f).2.items = r.2.map fun k => (text k, (((successors keys
        (ChartKeys.overlaps f.H f.W f.key_plane plane keys.length) r.1 r.2).get k).getD []).map text) := by
      rw [heval]
      refine Dict.ofList_items ?_
      rw [map_map, hretired]
      exact (hnd.filter _).map text_injective
    have hkeys : (evaluate keys f).1 = r.1 := by rw [heval]
    refine ⟨hkeys ▸ hnodup, fun k hk => hold k (hkeys ▸ hk), fun t => ?_, fun t s ht y hy => ?_⟩
    · unfold retiredOf
      rw [retiredBy_filter]
      unfold Dict.keys
      rw [hitems, map_map, hretired, hkeys]
      simp only [mem_map, mem_filter, decide_eq_true_eq, Function.comp_apply]
      constructor
      · rintro ⟨⟨k, ⟨hk, hnot⟩, rfl⟩, -⟩
        exact ⟨k, hk, hnot, rfl⟩
      · rintro ⟨k, hk, hnot, rfl⟩
        exact ⟨⟨k, ⟨hk, hnot⟩, rfl⟩, k, hk, rfl⟩
    · obtain ⟨hmem, -⟩ := mem_filter.mp ht
      rw [hitems] at hmem
      obtain ⟨k, -, he⟩ := mem_map.mp hmem
      cases he
      obtain ⟨j, hj, rfl⟩ := mem_map.mp hy
      rw [hkeys]
      cases hget : (successors keys (ChartKeys.overlaps f.H f.W f.key_plane plane keys.length) r.1
        r.2).get k with
      | none =>
        rw [hget] at hj
        cases hj
      | some s =>
        rw [hget] at hj
        exact ⟨j, mem_successors hget j hj, rfl⟩

namespace Folds

lemma solved (h : Folds keys (f :: fs)) : Solved keys f :=
  SceneMerge.solved h.nodup (h.planes 0 f rfl) (h.anchors f mem_cons_self) (h.fresh f mem_cons_self)

lemma tail (h : Folds keys (f :: fs)) : Folds (evaluate keys f).1 fs where
  nodup := h.solved.nodup
  planes := fun i g hg => h.planes (i + 1) g hg
  anchors := fun g hg => h.anchors g (mem_cons_of_mem _ hg)
  fresh := by
    intro g hg k hk he
    rcases h.solved.old k hk with hold | hnew
    · exact h.fresh g (mem_cons_of_mem _ hg) k hold he
    · have hnd := h.births
      rw [map_cons, nodup_cons] at hnd
      exact hnd.1 (mem_map.mpr ⟨g, hg, he.symm.trans hnew⟩)
  births := by
    have hnd := h.births
    rw [map_cons, nodup_cons] at hnd
    exact hnd.2

lemma notMem (h : Folds keys fs) (hk : k ∉ keys) (hb : ∀ g ∈ fs, (ofLex k).1 ≠ g.birth) (j : ℕ) :
    k ∉ keysAfter keys fs j := by
  induction fs generalizing keys j with
  | nil => cases j <;> exact hk
  | cons f fs ih =>
    cases j with
    | zero => exact hk
    | succ j =>
      refine ih h.tail (fun hmem => ?_) (fun g hg => hb g (mem_cons_of_mem _ hg)) j
      rcases h.solved.old k hmem with hold | hnew
      · exact hk hold
      · exact hb f mem_cons_self hnew

lemma consecutive (h : Folds keys fs) :
    Consecutive (fun i t => ∃ k ∈ keysAfter keys fs i, text k = t) ((retirements keys fs).map Dict.items) := by
  induction fs generalizing keys with
  | nil => exact .nil
  | cons f fs ih =>
    have hs := h.solved
    refine .cons (retiredOf keys f).nodup (fun t ht => ?_) (fun t ht j hj => ?_) (fun t ht hnot => ?_)
      (fun t s he y hy => ?_) (ih h.tail)
    · obtain ⟨k, hk, -, rfl⟩ := (hs.retired t).mp ht
      exact ⟨k, hk, rfl⟩
    · obtain ⟨k, hk, hgone, rfl⟩ := (hs.retired t).mp ht
      obtain ⟨k', hk', he⟩ := hj
      obtain rfl := text_injective he
      exact h.tail.notMem hgone (fun g hg => h.fresh g (mem_cons_of_mem _ hg) k' hk) j hk'
    · obtain ⟨k, hk, rfl⟩ := ht
      refine ⟨k, ?_, rfl⟩
      rw [keysAfter_one]
      by_contra hgone
      exact hnot ((hs.retired (text k)).mpr ⟨k, hk, hgone, rfl⟩)
    · obtain ⟨k, hk, rfl⟩ := hs.succ t s he y hy
      exact ⟨k, by rwa [keysAfter_one], rfl⟩

end Folds

end Keys

section Merge
variable {ds : List Dirty} {d : Dirty} {m : Dirty}

def Within (a b : BBox) : Prop := b.x0 ≤ a.x0 ∧ b.y0 ≤ a.y0 ∧ a.x1 ≤ b.x1 ∧ a.y1 ≤ b.y1

lemma Within.refl (a : BBox) : Within a a := ⟨le_rfl, le_rfl, le_rfl, le_rfl⟩

lemma Within.trans {a b c : BBox} (h : Within a b) (h' : Within b c) : Within a c :=
  ⟨h'.1.trans h.1, h'.2.1.trans h.2.1, h.2.2.1.trans h'.2.2.1, h.2.2.2.trans h'.2.2.2⟩

lemma within_union (a b : BBox) : Within a (unionBox a b) ∧ Within b (unionBox a b) :=
  ⟨⟨min_le_left _ _, min_le_left _ _, le_max_left _ _, le_max_left _ _⟩,
    ⟨min_le_right _ _, min_le_right _ _, le_max_right _ _, le_max_right _ _⟩⟩

lemma sorted_keys (retired : Dict SceneApi.Key (List SceneApi.Key)) :
    (retiredBy retired.sorted.items).Pairwise (· ≤ ·) := by
  have h := @pairwise_mergeSort _ (fun a b : SceneApi.Key × List SceneApi.Key => decide (a.1 ≤ b.1))
    (fun a b c hab hbc => by
      simp only [decide_eq_true_eq] at hab hbc ⊢
      exact hab.trans hbc)
    (fun a b => by
      simp only [Bool.or_eq_true, decide_eq_true_eq]
      exact le_total a.1 b.1) retired.items
  exact pairwise_map.mpr (h.imp fun h => of_decide_eq_true h)

lemma merged_append : merged (ds ++ [d]) = some (merge_dirty (merged ds) d) := by
  simp [merged]

lemma merge_bbox (a : Option Dirty) (b : Dirty) :
    (∀ box ∈ a.bind Dirty.bbox, ∃ u ∈ (merge_dirty a b).bbox, Within box u) ∧
      ∀ box ∈ b.bbox, ∃ u ∈ (merge_dirty a b).bbox, Within box u := by
  cases a with
  | none => exact ⟨fun box h => (nomatch h), fun box h => ⟨box, h, .refl box⟩⟩
  | some a =>
    unfold merge_dirty
    cases ha : a.bbox with
    | none =>
      cases hb : b.bbox with
      | none => simp [ha]
      | some y => simp [ha, Within.refl]
    | some x =>
      cases hb : b.bbox with
      | none => simp [ha, Within.refl]
      | some y => simpa [ha] using within_union x y

lemma merged_bbox (hd : d ∈ ds) {box : BBox} (hbox : box ∈ d.bbox) :
    ∃ m ∈ merged ds, ∃ u ∈ m.bbox, Within box u := by
  induction ds using List.reverseRecOn generalizing box d with
  | nil => cases hd
  | append_singleton ds e ih =>
    rw [merged_append]
    refine ⟨_, rfl, ?_⟩
    rcases mem_append.mp hd with hd | hd
    · obtain ⟨m, hm, u, hu, hw⟩ := ih hd hbox
      obtain ⟨v, hv, hw'⟩ := (merge_bbox (merged ds) e).1 u (by
        rw [Option.mem_def.mp hm]
        exact hu)
      exact ⟨v, hv, hw.trans hw'⟩
    · obtain rfl := mem_singleton.mp hd
      exact (merge_bbox (merged ds) d).2 box hbox

lemma merged_retired (hnd : (retiredBy (ds.map fun d => d.retired.items).flatten).Nodup) :
    ((merged ds).elim .empty Dirty.retired).items = (ds.map fun d => d.retired.items).flatten := by
  induction ds using List.reverseRecOn with
  | nil => rfl
  | append_singleton ds e ih =>
    rw [map_append, flatten_append, retiredBy_append] at hnd
    obtain ⟨hleft, hright, hdis⟩ := nodup_append.mp hnd
    have ih := ih hleft
    rw [merged_append, map_append, flatten_append, ← ih]
    cases hm : merged ds with
    | none =>
      change e.retired.items = [] ++ (e.retired.items ++ [])
      simp
    | some a =>
      rw [hm] at ih
      change (a.retired.update e.retired.items).items = a.retired.items ++ (e.retired.items ++ [])
      rw [append_nil]
      refine Dict.update_items e.retired.nodup fun k hk hmem => hdis k ?_ k (by simpa [retiredBy] using hk) rfl
      rw [← ih]
      exact hmem

end Merge

section Saved
variable {codec : Codec} {cfg : Config} {indexed : Bool} {ι : Type} [DecidableEq ι]

lemma commits_retired {H : History} {S : World ι} (hS : WorldOk codec H S) {i : ι} {c : SaveCall} {v : ℕ}
    {n : Name} {b : Body}
    (h : (v, n, b) ∈ commits S.store (S.call codec cfg indexed i (.save c)).store) :
    0 < v ∧ b.retired = c.dirty.elim .empty Dirty.retired := by
  have hr := @WorldOk.save_run codec cfg indexed ι H S hS i c
  rw [store_save] at h
  generalize (save codec cfg c (S.memory i)).run (perform indexed) S.store = r at hr h
  unfold commits at h
  cases hr with
  | error e he mem' hM' =>
    cases hdoc : S.store.doc <;> simp [hdoc] at h
  | @same gen pend prev full d hb o r ho mem' hM' =>
    cases ho' : o with
    | none => cases hdoc : S.store.doc <;> simp [ho', hdoc] at h
    | some m' =>
      subst ho'
      obtain ⟨m, hm, ⟨p, -, rfl⟩ | rfl⟩ := planSave_same ho
      · simp [hm] at h
      · simp [hm] at h
  | @write gen pend prev full d hb w hw index mem' hM' =>
    rcases planSave_numbers hw with ⟨m, p, hm, hp, rfl⟩ | ⟨-, rfl⟩
    · simp [hm, Draft.write] at h
    · dsimp only [Draft.write] at h
      split_ifs at h
      · cases h
      · rw [show (commitMeta S.store.doc c gen (S.store.doc.elim 0 Meta.version + 1)
          (.manifest gen (S.store.doc.elim 0 Meta.version + 1))
          (d.body codec gen (some (S.store.doc.elim 0 Meta.version + 1)) c)).manifest =
            .manifest gen (S.store.doc.elim 0 Meta.version + 1) from rfl, Dict.get_set, if_pos rfl] at h
        obtain ⟨rfl, -, rfl⟩ := by simpa using h
        exact ⟨Nat.succ_pos _, rfl⟩

lemma lineage_saved (hx : Codec.Exact codec) {S : World ι} (h : Reached codec cfg indexed S) {i : ι}
    {c : SaveCall}
    {m : Meta} (hdoc : (S.call codec cfg indexed i (.save c)).store.doc = some m) {n : Name} {b : Body}
    (hv : (m.version, n, b) ∈ commits S.store (S.call codec cfg indexed i (.save c)).store) :
    b.retired = c.dirty.elim .empty Dirty.retired ∧
    ∃ mem', (lineage canonical (m.version - 1) Memory.blank).run (perform indexed)
      (S.call codec cfg indexed i (.save c)).store = ((.ok (retireAll .empty b.retired.sorted.items), mem'),
        (S.call codec cfg indexed i (.save c)).store) := by
  obtain ⟨H, hS⟩ := h.ok hx
  obtain ⟨H', hT⟩ := (h.call i (.save c) trivial).ok hx
  obtain ⟨hpos, hret⟩ := commits_retired hS hv
  have hlive : (m.version, n, b) ∈ (S.call codec cfg indexed i (.save c)).live :=
    mem_append_right _ hv
  obtain ⟨mem', hrun⟩ := @lineageOver_run codec indexed H' _ hT.store m hdoc (fun _ => b) canonical [m.version]
    (fun w hw => by
      obtain rfl := mem_singleton.mp hw
      exact ⟨n, hT.wanted hdoc hlive⟩) .empty Memory.blank (MemOk.blank codec _)
  have hafter : versionsAfter (m.version - 1) m.version = [m.version] := by
    unfold versionsAfter
    rw [show m.version - (m.version - 1) = 1 by omega, show m.version - 1 + 1 = m.version by omega]
    rfl
  refine ⟨hret, mem', ?_⟩
  unfold lineage
  rw [run_readMeta, hdoc]
  dsimp only
  rw [hafter]
  exact hrun

/-- What a process that opens the map after the save reads as the successors of the keys the folds retired:
it is the composition of the folds, over live keys only, exactly when no fold retires a key that is named as
a successor of a greater one. The merged box holds the box of every fold. -/
theorem merged_lineage_iff (hx : Codec.Exact codec) {S : World ι} (h : Reached codec cfg indexed S)
    {keys : List KeyT} {fs : List Solve} (hf : Folds keys fs) {ds : List Dirty}
    (hds : ds.map Dirty.retired = retirements keys fs) {i : ι} {c : SaveCall} (hc : c.dirty = merged ds)
    {m : Meta} (hdoc : (S.call codec cfg indexed i (.save c)).store.doc = some m) {n : Name} {b : Body}
    (hv : (m.version, n, b) ∈ commits S.store (S.call codec cfg indexed i (.save c)).store) :
    (∀ d ∈ ds, ∀ box ∈ d.bbox, ∃ u ∈ merged ds, ∃ v ∈ u.bbox, Within box v) ∧
    ∃ res mem', (lineage canonical (m.version - 1) Memory.blank).run (perform indexed)
        (S.call codec cfg indexed i (.save c)).store =
          ((.ok res, mem'), (S.call codec cfg indexed i (.save c)).store) ∧
      ((∀ d ∈ ds, ∀ t ∈ d.retired.keys, ∃ s, res.get t = some s ∧
          (∀ x, x ∈ s ↔ x ∈ compose (ds.map fun d => d.retired.items) t) ∧
          ∀ x ∈ s, ∃ k ∈ keysAfter keys fs fs.length, text k = x) ↔
        Ascending (ds.map fun d => d.retired.items)) := by
  refine ⟨fun d hd box hbox => merged_bbox hd hbox, ?_⟩
  obtain ⟨hret, mem', hrun⟩ := lineage_saved hx h hdoc hv
  have hsteps : (retirements keys fs).map Dict.items = ds.map fun d => d.retired.items := by
    rw [← hds, map_map]
    rfl
  have hcons := hf.consecutive
  rw [hsteps] at hcons
  have hlen : (ds.map fun d => d.retired.items).length = fs.length := by
    rw [← hsteps, length_map]
    exact retirements_length
  have hperm : b.retired.sorted.items.Perm (ds.map fun d => d.retired.items).flatten := by
    rw [← merged_retired hcons.flatten_nodup, ← hc, ← hret]
    exact mergeSort_perm _ _
  have hnd : (retiredBy b.retired.sorted.items).Nodup := b.retired.sorted.nodup
  refine ⟨retireAll .empty b.retired.sorted.items, mem', hrun, ?_⟩
  rw [← later_iff hnd (sorted_keys b.retired) hperm, ← hcons.merged_iff hperm, hlen]
  simp only [Consecutive.mem_merged hperm, mem_map]
  constructor
  · rintro hall t ⟨es, ⟨d, hd, rfl⟩, ht⟩
    exact hall d hd t ht
  · intro hall d hd t ht
    exact hall t ⟨_, ⟨d, hd, rfl⟩, ht⟩

end Saved

section Example

/-- One row of charts `a`, `b` and `z`, the first `c` cells being those of `a`. -/
def rowKeys : List KeyT := [toLex ("a", 0), toLex ("b", 0), toLex ("z", 0)]

def rowPlane (c : ℕ) : ChartKeys.Plane := fun _ x => if x < c then 0 else if x < c + 6 then 1 else 2

/-- `a` and `z` become one chart. -/
def joinedPlane (c : ℕ) : ChartKeys.Plane := fun _ x => if x < c ∨ c + 6 ≤ x then 0 else 1

/-- Two folds: the larger of `a` and `z` takes over the other one's cells, then `b` takes over all cells. -/
def rowSolves (c : ℕ) : List Solve :=
  [⟨1, 11, rowPlane c, some (joinedPlane c, [(0, 0), (3, 0)]), "c"⟩,
    ⟨1, 11, joinedPlane c, some (fun _ _ => 0, [(3, 0)]), "d"⟩]

/-- `k` is joined to `y`, then `y` to `b`. -/
def rowDirty (k y : SceneApi.Key) : List Dirty :=
  [⟨some ⟨0, 0, 1, 1⟩, [y], Dict.ofList [(k, [y])], [], toLex (2, "c")⟩,
    ⟨none, ["b:0"], Dict.ofList [(y, ["b:0"])], [], toLex (3, "d")⟩]

lemma rowSolves_folds {c : ℕ} (hlen : (keysAfter rowKeys (rowSolves c) 1).length = 2) :
    Folds rowKeys (rowSolves c) where
  nodup := by decide
  planes := by
    intro i f hf y _ x _
    cases i with
    | zero =>
      cases hf
      change rowPlane c y x < 3
      unfold rowPlane
      split_ifs <;> norm_num
    | succ i =>
      obtain rfl : i = 0 := by
        have := (List.getElem?_eq_some_iff.mp hf).1
        simp only [rowSolves, length_cons, length_nil] at this
        omega
      cases hf
      rw [hlen]
      change joinedPlane c y x < 2
      unfold joinedPlane
      split_ifs <;> norm_num
  anchors := by
    intro f hf p hp
    rcases mem_cons.mp hf with rfl | hf
    · cases hp
      exact show [((0 : ℤ), (0 : ℤ)), (3, 0)].Nodup by decide
    · obtain rfl := mem_singleton.mp hf
      cases hp
      exact nodup_singleton _
  fresh := by
    intro f hf
    rcases mem_cons.mp hf with rfl | hf
    · exact show ∀ k ∈ rowKeys, (ofLex k).1 ≠ "c" by decide
    · obtain rfl := mem_singleton.mp hf
      exact show ∀ k ∈ rowKeys, (ofLex k).1 ≠ "d" by decide
  births := show ["c", "d"].Nodup by decide

def rowState (t : ℤ) (leaf : String) (keys : List KeyT) (plane : ℤ → ℤ → ℤ) : EngineState :=
  { emptyState t with
    canvas := ⟨0, 0, 2, 22⟩
    V := fun _ _ => 0
    T := fun _ _ => t
    keys := keys.map ofLex
    plane := some plane
    watermark := toLex (t, leaf) }

def rowChart (key : SceneApi.Key) : Chart :=
  ⟨key, (1 / 20, 1 / 20), 3, 3 / 100, 1 / 10, 0, 0, none, .empty, 1, 0⟩

def rowSave (c : ℕ) : SaveCall :=
  { emptySave 1 none with
    state := some (rowState 1 "b" rowKeys fun _ x => if x < c then 0 else if x < c + 6 then 1 else 2)
    charts := [rowChart "a:0", rowChart "b:0", rowChart "z:0"] }

def joinedSave (ds : List Dirty) : SaveCall :=
  { emptySave 2 (some 1) with
    state := some (rowState 3 "d" [toLex ("b", 0)] fun _ _ => 0)
    charts := [rowChart "b:0"]
    dirty := merged ds }

noncomputable def rowWorld (c : ℕ) : World Bool :=
  (World.fresh Bool).call exactCodec lazyConfig false false (.save (rowSave c))

noncomputable def joinedWorld (c : ℕ) (ds : List Dirty) : World Bool :=
  (rowWorld c).call exactCodec lazyConfig false false (.save (joinedSave ds))

lemma rowWorld_reached (c : ℕ) : Reached exactCodec lazyConfig false (rowWorld c) :=
  .call .fresh false (.save (rowSave c)) trivial

lemma rowWorld_doc (c : ℕ) : ∃ m b, (rowWorld c).store.doc = some m ∧ m.version = 1 ∧
    (rowWorld c).store.blobs.get m.manifest = some (.manifest b) ∧ b.watermark = toLex (1, "b") := by
  obtain ⟨m, b, -, hdoc, hv, hb, hw, -⟩ := @charted_save exactCodec lazyConfig false (fun _ => none)
    (World.fresh Bool).store ((World.fresh Bool).memory false) exactCodec_exact
    (WorldOk.fresh exactCodec Bool).store (MemOk.blank exactCodec _) rfl (rowSave c)
    (rowState 1 "b" rowKeys fun _ x => if x < c then 0 else if x < c + 6 then 1 else 2) rfl
    (by
      intro k hk
      have hk' : k ∈ ["a:0", "b:0", "z:0"] := hk
      exact (show ∀ k ∈ ["a:0", "b:0", "z:0"],
        (chartOf [rowChart "a:0", rowChart "b:0", rowChart "z:0"] k).isSome by decide) k hk') rfl
          rfl rfl rfl (by simp [World.fresh, Backend.empty])
  unfold rowWorld
  rw [store_save]
  exact ⟨m, b, hdoc, hv, hb, hw⟩

lemma joinedWorld_commits (c : ℕ) (ds : List Dirty) : ∃ m n b, (joinedWorld c ds).store.doc = some m ∧
    m.version = 2 ∧ (m.version, n, b) ∈ commits (rowWorld c).store (joinedWorld c ds).store := by
  obtain ⟨H, hS⟩ := (rowWorld_reached c).ok exactCodec_exact
  obtain ⟨m, b, hdoc, hv, hb, hw⟩ := rowWorld_doc c
  obtain ⟨m', b', -, hdoc', hv', hb', -⟩ := @charted_save exactCodec lazyConfig false H (rowWorld c).store
    ((rowWorld c).memory false) exactCodec_exact hS.store (hS.memory false) rfl (joinedSave ds)
    (rowState 3 "d" [toLex ("b", 0)] fun _ _ => 0) rfl
    (by
      intro k hk
      obtain rfl := mem_singleton.mp hk
      exact show (chartOf [rowChart "b:0"] "b:0").isSome by decide) rfl rfl
        (by rw [hdoc, Option.map_some, hv]; rfl) rfl (by
      intro m1 hm1 b1 hb1
      obtain rfl : m = m1 := Option.some.inj (hdoc.symm.trans hm1)
      rw [hb] at hb1
      cases hb1
      rw [hw]
      simp [rowState])
  rw [← store_save] at hdoc' hb'
  rw [hdoc, Option.elim_some, hv] at hv'
  refine ⟨m', m'.manifest, b', hdoc', hv', ?_⟩
  unfold commits
  change (joinedWorld c ds).store.doc = some m' at hdoc'
  change (joinedWorld c ds).store.blobs.get m'.manifest = _ at hb'
  simp [hdoc', hb', hdoc, hv, hv']

lemma rowDirty_folds : Folds rowKeys (rowSolves 2) ∧
    (rowDirty "a:0" "z:0").map Dirty.retired = retirements rowKeys (rowSolves 2) :=
  ⟨rowSolves_folds (by decide), by decide⟩

/-- `a` is joined to `z` and `z` to `b`: a later reader follows the key to `b`. -/
theorem merged_lineage_iff_row :
    ∃ m, (joinedWorld 2 (rowDirty "a:0" "z:0")).store.doc = some m ∧ m.version = 2 ∧
    ∃ res mem', (lineage canonical 1 Memory.blank).run (perform false)
        (joinedWorld 2 (rowDirty "a:0" "z:0")).store =
          ((.ok res, mem'), (joinedWorld 2 (rowDirty "a:0" "z:0")).store) ∧
      ∀ d ∈ rowDirty "a:0" "z:0", ∀ t ∈ d.retired.keys, ∃ s, res.get t = some s ∧
        (∀ x, x ∈ s ↔ x ∈ compose ((rowDirty "a:0" "z:0").map fun d => d.retired.items) t) ∧
        ∀ x ∈ s, ∃ k ∈ keysAfter rowKeys (rowSolves 2) (rowSolves 2).length, text k = x := by
  obtain ⟨m, n, b, hdoc, hv, hcommit⟩ := joinedWorld_commits 2 (rowDirty "a:0" "z:0")
  obtain ⟨-, res, mem', hrun, hiff⟩ := merged_lineage_iff exactCodec_exact (rowWorld_reached 2) rowDirty_folds.1
    rowDirty_folds.2 rfl hdoc hcommit
  rw [hv] at hrun
  refine ⟨m, hdoc, hv, res, mem', hrun, hiff.mpr ?_⟩
  intro es hes es' hes' k s hk
  exact (show ∀ es ∈ (rowDirty "a:0" "z:0").map fun d => d.retired.items,
    ∀ es' ∈ (rowDirty "a:0" "z:0").map fun d => d.retired.items, ∀ e ∈ es, ∀ y ∈ e.2,
      y ∈ retiredBy es' → e.1 < y
    by decide) es hes es' hes' (k, s) hk

/-- `z` is joined to `a` and `a` to `b`: a later reader is told that `a`, which is gone, took over the cells of `z`. -/
theorem merged_lineage_stale : Folds rowKeys (rowSolves 3) ∧
    (rowDirty "z:0" "a:0").map Dirty.retired = retirements rowKeys (rowSolves 3) ∧
    keysAfter rowKeys (rowSolves 3) 2 = [toLex ("b", 0)] ∧
    compose ((rowDirty "z:0" "a:0").map fun d => d.retired.items) "z:0" = ["b:0"] ∧
    ∃ m res mem', (joinedWorld 3 (rowDirty "z:0" "a:0")).store.doc = some m ∧ m.version = 2 ∧
      (lineage canonical 1 Memory.blank).run (perform false) (joinedWorld 3 (rowDirty "z:0" "a:0")).store =
        ((.ok res, mem'), (joinedWorld 3 (rowDirty "z:0" "a:0")).store) ∧ res.get "z:0" = some ["a:0"] := by
  refine ⟨rowSolves_folds (by decide), by decide, by decide, by decide, ?_⟩
  obtain ⟨m, n, b, hdoc, hv, hcommit⟩ := joinedWorld_commits 3 (rowDirty "z:0" "a:0")
  obtain ⟨hret, mem', hrun⟩ := lineage_saved exactCodec_exact (rowWorld_reached 3) hdoc hcommit
  rw [hv] at hrun
  refine ⟨m, _, mem', hdoc, hv, hrun, ?_⟩
  have hitems : b.retired.items = [("z:0", ["a:0"]), ("a:0", ["b:0"])] := by
    rw [hret]
    rfl
  have hsorted : b.retired.sorted.items = [("a:0", ["b:0"]), ("z:0", ["a:0"])] := by
    simp [Dict.sorted, hitems, List.mergeSort, List.MergeSort.Internal.splitInTwo]
  rw [hsorted]
  decide

end Example

end CloudServer.SceneMerge
