import CloudServer.StoreOps

/-! The objects of a save: every object is named by its content, and everything a new
version references is put by the save or referenced by its base. -/
namespace CloudServer.StoreObjects
open SceneFold SceneApi StoreTiles StoreSave StoreOps List Dict

def Packed (codec : Codec) : Name → Obj → Prop
  | .tile _ h, .tile t => codec.tile t = h
  | .segment _ h, .segment rows => codec.segment rows = h
  | .page _ h, .page p => codec.page p = h
  | _, _ => False

def Named (codec : Codec) : Name → Obj → Prop
  | .tile _ h, .tile t => codec.tile t = h
  | .segment _ h, .segment rows => codec.segment rows = h
  | .page _ h, .page p => codec.page p = h
  | .manifest _ _, .manifest _ => True
  | .pending _ _, .manifest _ => True
  | _, _ => False

variable {n : Name}
variable {o : Obj}

lemma Packed.named {codec : Codec} (h : Packed codec n o) : Named codec n o := by
  cases n <;> cases o <;> first | exact h | exact h.elim

lemma Packed.ne_manifest {codec : Codec} (h : Packed codec n o) (b : Body) :
    ¬Named codec n (.manifest b) := by
  cases n <;> cases o <;> first | exact h.elim | exact fun h => h

/-- No two objects have one hash. -/
structure Codec.Exact (codec : Codec) : Prop where
  tile : Function.Injective codec.tile
  segment : Function.Injective codec.segment
  page : Function.Injective codec.page
  content : Function.Injective codec.content

def AllOf (P : Name → Obj → Prop) (d : Dict Name Obj) : Prop := ∀ n o, d.get n = some o → P n o

abbrev AllPacked (codec : Codec) (d : Dict Name Obj) : Prop := AllOf (Packed codec) d
abbrev AllNamed (codec : Codec) (d : Dict Name Obj) : Prop := AllOf (Named codec) d

section AllOf
variable {P : Name → Obj → Prop} {d e : Dict Name Obj}

lemma AllOf.set (h : AllOf P d) (ho : P n o) : AllOf P (d.set n o) := by
  intro m p hm
  rw [get_set] at hm
  split_ifs at hm with he
  · cases hm
    rw [he]
    exact ho
  · exact h m p hm

lemma AllOf.empty (P : Name → Obj → Prop) : AllOf P .empty := by
  intro n o h
  simp at h

lemma AllOf.update (hd : AllOf P d) {es : List (Name × Obj)} (he : ∀ e ∈ es, P e.1 e.2) :
    AllOf P (d.update es) := by
  intro n o h
  rcases get_update d es n with ⟨-, hg⟩ | ⟨w, hw, hg⟩
  · exact hd n o (hg ▸ h)
  · rw [hg] at h
    cases h
    exact he _ hw

lemma AllOf.items (h : AllOf P d) (e : Name × Obj) (he : e ∈ d.items) : P e.1 e.2 :=
  h e.1 e.2 (mem_items.mp he)

end AllOf

section Tiles
variable {codec : Codec} {st : EngineState} {lut : Option (List ℕ)} {gen : ℕ}
  {against : Dict Coord Hash} {known : List Name}

lemma packTiles_cons (acc : Dict Coord Hash × Dict Name Obj) (s : Coord) (coords : List Coord) :
    packTiles codec st lut gen against known acc (s :: coords) =
      packTiles codec st lut gen against known (packTile codec st lut gen against known acc s) coords := by
  unfold packTiles
  rw [foldl_cons]

lemma packTile_get (acc : Dict Coord Hash × Dict Name Obj) (s t : Coord) :
    (packTile codec st lut gen against known acc s).1.get t =
      if t = s then (tileArrays st (ofLex s).1 (ofLex s).2 lut).map codec.tile
      else acc.1.get t := by
  unfold packTile
  cases tileArrays st (ofLex s).1 (ofLex s).2 lut with
  | none => exact get_erase _ _ _
  | some arrs => exact get_set _ _ _ _

lemma packTiles_get (coords : List Coord) (acc : Dict Coord Hash × Dict Name Obj) (t : Coord) :
    (packTiles codec st lut gen against known acc coords).1.get t =
      if t ∈ coords then (tileArrays st (ofLex t).1 (ofLex t).2 lut).map codec.tile
      else acc.1.get t := by
  induction coords generalizing acc with
  | nil => simp [packTiles]
  | cons s coords ih =>
    rw [packTiles_cons, ih]
    rw [packTile_get]
    by_cases hm : t ∈ coords
    · rw [if_pos hm, if_pos (mem_cons_of_mem _ hm)]
    · rw [if_neg hm]
      by_cases hs : t = s
      · rw [if_pos hs, if_pos (hs ▸ mem_cons_self), hs]
      · rw [if_neg hs, if_neg (by simp [hm, hs])]

variable {acc : Dict Coord Hash × Dict Name Obj}
variable {t : Coord} {h : Hash} {m : Manifest} {coords : List Coord}

lemma packTile_blob (h : (acc.2.get n).isSome) :
    ((packTile codec st lut gen against known acc t).2.get n).isSome := by
  unfold packTile
  cases tileArrays st (ofLex t).1 (ofLex t).2 lut with
  | none => exact h
  | some arrs =>
    dsimp only
    split_ifs
    · rw [get_set]
      split_ifs
      · rfl
      · exact h
    · exact h

lemma packTiles_blob (h : (acc.2.get n).isSome) :
    ((packTiles codec st lut gen against known acc coords).2.get n).isSome := by
  induction coords generalizing acc with
  | nil => exact h
  | cons t coords ih =>
    rw [packTiles_cons]
    exact ih (packTile_blob h)

lemma packTiles_named (h : AllPacked codec acc.2) :
    AllPacked codec (packTiles codec st lut gen against known acc coords).2 := by
  induction coords generalizing acc with
  | nil => exact h
  | cons t coords ih =>
    rw [packTiles_cons]
    refine ih ?_
    unfold packTile
    cases tileArrays st (ofLex t).1 (ofLex t).2 lut with
    | none => exact h
    | some arrs =>
      dsimp only
      split_ifs
      · exact h.set rfl
      · exact h

lemma packTiles_present (ht : t ∈ coords)
    (hh : (packTiles codec st lut gen against known acc coords).1.get t = some h) :
    ((packTiles codec st lut gen against known acc coords).2.get (.tile gen h)).isSome ∨
      Name.tile gen h ∈ known ∨ against.get t = some h := by
  rw [packTiles_get, if_pos ht] at hh
  obtain ⟨arrs, harrs, rfl⟩ := Option.map_eq_some_iff.mp hh
  clear hh
  induction coords generalizing acc with
  | nil => simp at ht
  | cons s coords ih =>
    rw [packTiles_cons]
    rcases mem_cons.mp ht with rfl | ht
    · by_cases hn : against.get t ≠ some (codec.tile arrs) ∧
          (acc.2.get (.tile gen (codec.tile arrs))).isNone ∧ Name.tile gen (codec.tile arrs) ∉ known
      · refine .inl (packTiles_blob ?_)
        unfold packTile
        rw [harrs]
        dsimp only
        rw [if_pos hn, get_set, if_pos rfl]
        rfl
      · simp only [ne_eq, not_and_or, not_not] at hn
        rcases hn with hn | hn | hn
        · exact .inr (.inr hn)
        · refine .inl (packTiles_blob (packTile_blob ?_))
          simpa [Option.isNone_iff_eq_none, Option.isSome_iff_ne_none] using hn
        · exact .inr (.inl hn)
    · exact ih ht

lemma mem_known_tile (ht : m.tiles.get t = some h) :
    Name.tile m.body.generation h ∈ knownNames (some m) := by
  refine mem_append_left _ (mem_append_left _ ?_)
  exact mem_map.mpr ⟨(t, h), mem_items.mpr ht, rfl⟩

lemma mem_known_segment (hh : h ∈ m.body.segments) :
    Name.segment m.body.generation h ∈ knownNames (some m) := by
  refine mem_append_left _ (mem_append_right _ ?_)
  exact mem_map.mpr ⟨h, hh, rfl⟩

lemma mem_known_page {s : Coord} (hh : m.body.pages.get s = some h) :
    Name.page m.body.generation h ∈ knownNames (some m) := by
  refine mem_append_right _ ?_
  exact mem_map.mpr ⟨(s, h), mem_items.mpr hh, rfl⟩

lemma isSome_update {d e : Dict Name Obj} (h : (d.get n).isSome ∨ (e.get n).isSome) :
    ((d.update e.items).get n).isSome := by
  have hm : n ∈ (d.update e.items).keys := by
    rw [mem_keys_update]
    rcases h with h | h
    · exact .inl (mem_keys.mpr (Option.isSome_iff_exists.mp h))
    · exact .inr (mem_keys.mpr (Option.isSome_iff_exists.mp h))
  exact Option.isSome_iff_exists.mpr (mem_keys.mp hm)

section Save
variable {cfg : Config} {ids : Ids} {pend : Option Pending} {prev : Option Manifest}
  {dirty : Option Dirty} {full : Bool} {r : Dict Coord Hash × Dict Name Obj}

def freshTiles (codec : Codec) (st : EngineState) (lut : Option (List ℕ)) (gen : ℕ)
    (prev : Option Manifest) : Dict Coord Hash × Dict Name Obj :=
  packTiles codec st lut gen .empty (knownNames prev) (.empty, .empty) (allTiles st.canvas)

def overTiles (codec : Codec) (st : EngineState) (lut : Option (List ℕ)) (gen : ℕ)
    (m : Manifest) (dirty : Option Dirty) : Dict Coord Hash × Dict Name Obj :=
  packTiles codec st lut gen m.tiles (knownNames (some m)) (m.tiles, .empty)
    (dirtyTiles st.canvas dirty)

def checkTiles (codec : Codec) (st : EngineState) (lut : Option (List ℕ)) (gen : ℕ)
    (m : Manifest) (dirty : Option Dirty) : Dict Coord Hash × Dict Name Obj :=
  packTiles codec st lut gen (overTiles codec st lut gen m dirty).1 (knownNames (some m))
    (.empty, .empty) (allTiles st.canvas)

lemma saveTiles_cases (h : saveTiles codec cfg st ids gen pend prev dirty full = .ok r) :
    r = freshTiles codec st ids.lut gen prev ∨ ∃ m, prev = some m ∧ restarts pend prev st = false ∧
      (r = overTiles codec st ids.lut gen m dirty ∨
        r = ((checkTiles codec st ids.lut gen m dirty).1,
          (overTiles codec st ids.lut gen m dirty).2.update (checkTiles codec st ids.lut gen m dirty).2.items)) := by
  unfold saveTiles at h
  cases prev with
  | none => exact .inl (Except.ok.inj h).symm
  | some m =>
    dsimp only at h
    split_ifs at h with hr
    · exact .inl (Except.ok.inj h).symm
    · exact .inr ⟨m, rfl, Bool.not_eq_true _ ▸ hr, .inl (Except.ok.inj h).symm⟩
    · exact .inr ⟨m, rfl, Bool.not_eq_true _ ▸ hr, .inr (Except.ok.inj h).symm⟩
    · exact .inr ⟨m, rfl, Bool.not_eq_true _ ▸ hr, .inl (Except.ok.inj h).symm⟩

lemma saveTiles_named (h : saveTiles codec cfg st ids gen pend prev dirty full = .ok r) :
    AllPacked codec r.2 := by
  have hover : ∀ m, AllPacked codec (overTiles codec st ids.lut gen m dirty).2 := fun m =>
    packTiles_named (AllOf.empty _)
  rcases saveTiles_cases h with rfl | ⟨m, -, -, rfl | rfl⟩
  · exact packTiles_named (AllOf.empty _)
  · exact hover m
  · exact (hover m).update (AllOf.items (packTiles_named (AllOf.empty _)))

lemma overTiles_present (hg : m.body.generation = gen)
    (ht : (overTiles codec st lut gen m dirty).1.get t = some h) :
    ((overTiles codec st lut gen m dirty).2.get (.tile gen h)).isSome ∨ Name.tile gen h ∈ knownNames (some m) := by
  have hbase : m.tiles.get t = some h → Name.tile gen h ∈ knownNames (some m) := fun hb =>
    hg ▸ mem_known_tile hb
  unfold overTiles at *
  by_cases hm : t ∈ dirtyTiles st.canvas dirty
  · rcases packTiles_present hm ht with hp | hp | hp
    · exact .inl hp
    · exact .inr hp
    · exact .inr (hbase hp)
  · rw [packTiles_get, if_neg hm] at ht
    exact .inr (hbase ht)

lemma saveTiles_present (h : saveTiles codec cfg st ids gen pend prev dirty full = .ok r)
    (hg : ∀ m ∈ prev, m.body.generation = gen) {hh : Hash}
    (ht : r.1.get t = some hh) :
    (r.2.get (.tile gen hh)).isSome ∨ Name.tile gen hh ∈ knownNames prev := by
  rcases saveTiles_cases h with rfl | ⟨m, rfl, -, rfl | rfl⟩
  · unfold freshTiles at *
    by_cases hm : t ∈ allTiles st.canvas
    · rcases packTiles_present hm ht with hp | hp | hp
      · exact .inl hp
      · exact .inr hp
      · simp at hp
    · rw [packTiles_get, if_neg hm] at ht
      simp at ht
  · exact overTiles_present (hg m rfl) ht
  · dsimp only at ht ⊢
    by_cases hm : t ∈ allTiles st.canvas
    · rcases packTiles_present hm ht with hp | hp | hp
      · exact .inl (isSome_update (.inr hp))
      · exact .inr hp
      · rcases overTiles_present (hg m rfl) hp with ho | ho
        · exact .inl (isSome_update (.inl ho))
        · exact .inr ho
    · unfold checkTiles at ht
      rw [packTiles_get, if_neg hm] at ht
      simp at ht

end Save
end Tiles

def TrustSegments (codec : Codec) (gen : ℕ) (known : List Name)
    (last : Option (List (List LeafRecord) × List Hash)) : Prop :=
  ∀ l ∈ last, ∀ (i : ℕ) rows h, l.1[i]? = some rows → l.2[i]? = some h →
    h = codec.segment rows ∧ Name.segment gen h ∈ known

def TrustPages (codec : Codec) (gen : ℕ) (known : List Name)
    (last : Option (Dict Coord (Page × Hash))) : Prop :=
  ∀ l ∈ last, ∀ s pg h, l.get s = some (pg, h) → h = codec.page pg ∧ Name.page gen h ∈ known

lemma isSome_set {d : Dict Name Obj} {m : Name} (h : (d.get n).isSome) :
    ((d.set m o).get n).isSome := by
  rw [get_set]
  split_ifs
  · rfl
  · exact h

section Packs
variable {codec : Codec} {gen : ℕ} {known : List Name}
variable {last : Option (List (List LeafRecord) × List Hash)}

lemma saveSegment_spec (ht : TrustSegments codec gen known last) (acc : List Hash × Dict Name Obj)
    (hn : AllPacked codec acc.2) (e : List LeafRecord × ℕ) :
    (saveSegment codec gen last acc e).1 = acc.1 ++ [codec.segment e.1] ∧
      AllPacked codec (saveSegment codec gen last acc e).2 ∧
      (∀ n, (acc.2.get n).isSome → ((saveSegment codec gen last acc e).2.get n).isSome) ∧
      (((saveSegment codec gen last acc e).2.get (.segment gen (codec.segment e.1))).isSome ∨
        Name.segment gen (codec.segment e.1) ∈ known) := by
  unfold saveSegment
  cases hr : last.bind fun l => if l.1[e.2]? = some e.1 then l.2[e.2]? else none with
  | some h =>
    obtain ⟨l, hl, hl'⟩ := Option.bind_eq_some_iff.mp hr
    split_ifs at hl' with hrow
    obtain ⟨rfl, hkn⟩ := ht l hl e.2 e.1 h hrow hl'
    exact ⟨rfl, hn, fun _ h => h, .inr hkn⟩
  | none =>
    refine ⟨rfl, hn.set rfl, fun _ h => isSome_set h, .inl ?_⟩
    rw [get_set, if_pos rfl]
    rfl

lemma saveSegment_run (ht : TrustSegments codec gen known last) (es : List (List LeafRecord × ℕ))
    (acc : List Hash × Dict Name Obj) (hn : AllPacked codec acc.2) :
    let r := es.foldl (saveSegment codec gen last) acc
    r.1 = acc.1 ++ es.map (fun e => codec.segment e.1) ∧ AllPacked codec r.2 ∧
      (∀ n, (acc.2.get n).isSome → (r.2.get n).isSome) ∧
      ∀ e ∈ es, (r.2.get (.segment gen (codec.segment e.1))).isSome ∨
        Name.segment gen (codec.segment e.1) ∈ known := by
  induction es generalizing acc with
  | nil => exact ⟨by simp, hn, fun _ h => h, by simp⟩
  | cons e es ih =>
    obtain ⟨h1, h2, h3, h4⟩ := saveSegment_spec ht acc hn e
    obtain ⟨g1, g2, g3, g4⟩ := ih (saveSegment codec gen last acc e) h2
    refine ⟨by simpa [h1] using g1, g2, fun n h => g3 n (h3 n h), fun d hd => ?_⟩
    rcases mem_cons.mp hd with rfl | hd
    · exact h4.imp_left (g3 _)
    · exact g4 d hd

lemma saveSegments_spec (ht : TrustSegments codec gen known last) (segs : List (List LeafRecord))
    {blobs : Dict Name Obj} (hn : AllPacked codec blobs) :
    (saveSegments codec gen last segs blobs).1 = segs.map codec.segment ∧
      AllPacked codec (saveSegments codec gen last segs blobs).2 ∧
      (∀ n, (blobs.get n).isSome → ((saveSegments codec gen last segs blobs).2.get n).isSome) ∧
      ∀ rows ∈ segs, ((saveSegments codec gen last segs blobs).2.get
        (.segment gen (codec.segment rows))).isSome ∨ Name.segment gen (codec.segment rows) ∈ known := by
  obtain ⟨h1, h2, h3, h4⟩ := saveSegment_run ht segs.zipIdx ([], blobs) hn
  refine ⟨?_, h2, h3, fun rows hrows => ?_⟩
  · have hfst : segs.zipIdx.map (fun e => codec.segment e.1) =
        (segs.zipIdx.map Prod.fst).map codec.segment := by rw [map_map]; rfl
    rw [hfst, zipIdx_map_fst] at h1
    exact h1
  · obtain ⟨i, hi⟩ := mem_iff_getElem?.mp hrows
    exact h4 (rows, i) (mk_mem_zipIdx_iff_getElem?.mpr hi)

variable {last : Option (Dict Coord (Page × Hash))}

lemma savePage_spec (ht : TrustPages codec gen known last) (acc : Dict Coord Hash × Dict Name Obj)
    (hn : AllPacked codec acc.2) (e : Coord × Page) :
    (savePage codec gen last acc e).1 = acc.1.set e.1 (codec.page e.2) ∧ AllPacked codec (savePage codec gen last acc e).2 ∧
      (∀ n, (acc.2.get n).isSome → ((savePage codec gen last acc e).2.get n).isSome) ∧
      (((savePage codec gen last acc e).2.get (.page gen (codec.page e.2))).isSome ∨
        Name.page gen (codec.page e.2) ∈ known) := by
  unfold savePage
  cases hr : last.bind fun l => (l.get e.1).bind fun s => if s.1 = e.2 then some s.2 else none with
  | some h =>
    obtain ⟨l, hl, hl'⟩ := Option.bind_eq_some_iff.mp hr
    obtain ⟨⟨pg, h'⟩, hs, hs'⟩ := Option.bind_eq_some_iff.mp hl'
    split_ifs at hs' with hpg
    cases hs'
    obtain ⟨rfl, hkn⟩ := ht l hl e.1 pg h' hs
    dsimp only at hpg
    subst hpg
    exact ⟨rfl, hn, fun _ h => h, .inr hkn⟩
  | none =>
    refine ⟨rfl, hn.set rfl, fun _ h => isSome_set h, .inl ?_⟩
    rw [get_set, if_pos rfl]
    rfl

lemma savePage_run (ht : TrustPages codec gen known last) (es : List (Coord × Page))
    (acc : Dict Coord Hash × Dict Name Obj) (hn : AllPacked codec acc.2) :
    let r := es.foldl (savePage codec gen last) acc
    r.1 = acc.1.update (es.map fun e => (e.1, codec.page e.2)) ∧ AllPacked codec r.2 ∧
      (∀ n, (acc.2.get n).isSome → (r.2.get n).isSome) ∧
      ∀ e ∈ es, (r.2.get (.page gen (codec.page e.2))).isSome ∨
        Name.page gen (codec.page e.2) ∈ known := by
  induction es generalizing acc with
  | nil => exact ⟨rfl, hn, fun _ h => h, by simp⟩
  | cons e es ih =>
    obtain ⟨h1, h2, h3, h4⟩ := savePage_spec ht acc hn e
    obtain ⟨g1, g2, g3, g4⟩ := ih (savePage codec gen last acc e) h2
    refine ⟨?_, g2, fun n h => g3 n (h3 n h), fun d hd => ?_⟩
    · rw [map_cons, update_cons, ← h1]
      exact g1
    · rcases mem_cons.mp hd with rfl | hd
      · exact h4.imp_left (g3 _)
      · exact g4 d hd

end Packs

end CloudServer.StoreObjects
