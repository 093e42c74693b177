import CloudServer.ClearanceRuns
import CloudServer.DrivenRebuild
import CloudServer.Steps

/-! Histories of batches: as long as the growing canvas uncovers nothing driven, the kept evidence is the
rebuilt one. -/
namespace CloudServer.DrivenEvidence
open Planes List

structure Images.Same (i j : Images) : Prop where
  G : Plane.Same i.G j.G
  W : Plane.Same i.W j.W
  S : Plane.Same i.S j.S
  P : Plane.Same i.P j.P

section
variable {K S 𝕜 : Type}

structure Kept.Same (a b : Kept K S 𝕜) : Prop where
  height : a.H = b.H
  width : a.W = b.W
  images : a.images.Same b.images
  last : a.last = b.last

lemma Kept.Same.refl (a : Kept K S 𝕜) : a.Same a :=
  ⟨rfl, rfl, ⟨.refl _, .refl _, .refl _, .refl _⟩, rfl⟩

variable [Field 𝕜] [LinearOrder 𝕜] [FloorRing 𝕜] {ρ : Rule 𝕜} {c : Canvas} {hist : S → Leaves K S 𝕜}
  {a b : Kept K S 𝕜}

lemma Shows.of_same (h : Shows ρ c hist b) (hs : a.Same b) : Shows ρ c hist a where
  height := hs.height.trans h.height
  width := hs.width.trans h.width
  G := h.G.of_same hs.images.G
  W := h.W.of_same hs.images.W
  S := h.S.of_same hs.images.S
  P := h.P.of_same hs.images.P
  last := fun s => (congrFun hs.last s).trans (h.last s)

lemma Shows.same (h : Shows ρ c hist a) (h' : Shows ρ c hist b) : a.Same b where
  height := h.height.trans h'.height.symm
  width := h.width.trans h'.width.symm
  images := ⟨h.G.same h'.G, h.W.same h'.W, h.S.same h'.S, h.P.same h'.P⟩
  last := funext fun s => (h.last s).trans (h'.last s).symm

end

section
variable {K S 𝕜 : Type} [LinearOrder K] {leaves : Leaves K S 𝕜} {k : K} {o : Rec S 𝕜} {e : K × Rec S 𝕜}

lemma lookup_mem (h : lookup leaves k = some o) : (k, o) ∈ leaves := by
  obtain ⟨e, he, rfl⟩ := Option.map_eq_some_iff.mp h
  have hk : e.1 = k := by simpa using List.find?_some he
  subst hk
  exact mem_of_find?_eq_some he

lemma lookup_eq_none (h : lookup leaves k = none) : k ∉ leaves.map Prod.fst := by
  intro hk
  obtain ⟨e, he, rfl⟩ := mem_map.mp hk
  have hall := List.find?_eq_none.mp (Option.map_eq_none_iff.mp h)
  exact hall e he (by simp)

lemma put_new (h : lookup leaves e.1 = none) : put leaves e = leaves ++ [e] := by
  simp [put, h]

lemma put_keys (h : lookup leaves e.1 = some o) : (put leaves e).map Prod.fst = leaves.map Prod.fst := by
  unfold put
  rw [if_pos (Option.isSome_iff_exists.mpr ⟨o, h⟩), map_map]
  refine map_congr_left fun e' _ => ?_
  simp only [Function.comp_apply]
  split_ifs with hk
  · exact hk.symm
  · rfl

lemma put_again (hnd : (leaves.map Prod.fst).Nodup) (h : lookup leaves e.1 = some e.2) :
    put leaves e = leaves := by
  unfold put
  rw [if_pos (Option.isSome_iff_exists.mpr ⟨e.2, h⟩)]
  refine (map_congr_left fun e' he' => ?_).trans (map_id leaves)
  simp only [id_eq]
  split_ifs with hk
  · exact (inj_on_of_nodup_map hnd he' (lookup_mem h) hk).symm
  · rfl

end

section
variable {K S 𝕜 : Type} [LinearOrder K] [DecidableEq S] [LinearOrder 𝕜] {leaves : Leaves K S 𝕜}

lemma fold_new {es : List (K × Rec S 𝕜)} {e : K × Rec S 𝕜} (h : lookup (fold leaves es).1 e.1 = none) :
    fold leaves (es ++ [e]) = ((fold leaves es).1 ++ [e], (fold leaves es).2.1 ++ [e], (fold leaves es).2.2) := by
  rw [← put_new h]
  unfold fold at h ⊢
  rw [foldl_concat, h]

lemma fold_stored {es : List (K × Rec S 𝕜)} {e : K × Rec S 𝕜} {o : Rec S 𝕜}
    (h : lookup (fold leaves es).1 e.1 = some o) : fold leaves (es ++ [e]) =
      (put (fold leaves es).1 e, (fold leaves es).2.1, (fold leaves es).2.2 || decide (o ≠ e.2)) := by
  unfold fold at h ⊢
  rw [foldl_concat, h]

lemma fold_nodup (hnd : (leaves.map Prod.fst).Nodup) (es : List (K × Rec S 𝕜)) :
    ((fold leaves es).1.map Prod.fst).Nodup := by
  induction es using List.reverseRecOn with
  | nil => exact hnd
  | append_singleton es e ih =>
    cases h : lookup (fold leaves es).1 e.1 with
    | none =>
      rw [fold_new h, map_append, map_singleton]
      exact ih.append (nodup_singleton _) (by simpa using lookup_eq_none h)
    | some o =>
      rw [fold_stored h, put_keys h]
      exact ih

lemma fold_leaves (hnd : (leaves.map Prod.fst).Nodup) (es : List (K × Rec S 𝕜))
    (h : (fold leaves es).2.2 = false) : (fold leaves es).1 = leaves ++ (fold leaves es).2.1 := by
  induction es using List.reverseRecOn with
  | nil => exact (append_nil leaves).symm
  | append_singleton es e ih =>
    cases hl : lookup (fold leaves es).1 e.1 with
    | none =>
      rw [fold_new hl] at h ⊢
      dsimp only at h ⊢
      rw [ih h, append_assoc]
    | some o =>
      rw [fold_stored hl] at h ⊢
      simp only [ne_eq, Bool.or_eq_false_iff, decide_eq_false_iff_not, not_not] at h
      dsimp only
      rw [put_again (fold_nodup hnd es) (h.2 ▸ hl), ih h.1]

end

section
variable {K S 𝕜 : Type} [LinearOrder K] [DecidableEq S] [LinearOrder 𝕜] (g : Engine K S 𝕜) (b : Batch K S 𝕜)

namespace Engine

/-- The leaves that the batch does not delete, what it makes of them, and whether more than new leaves
came. -/
def left : Leaves K S 𝕜 := g.leaves.filter fun e => !dropped b e
def folded : Leaves K S 𝕜 × Leaves K S 𝕜 × Bool := fold (g.left b) (b.leaves.map fun e => (e.1, e.2.1))
def anew : Bool := (g.folded b).2.2 || decide ((g.left b).length < g.leaves.length)

end Engine

variable {g b}

omit [DecidableEq S] in
lemma Engine.left_nodup (h : (g.leaves.map Prod.fst).Nodup) : ((g.left b).map Prod.fst).Nodup :=
  h.sublist (filter_sublist.map _)

lemma Engine.folded_eq (h : (g.leaves.map Prod.fst).Nodup) (hnew : g.anew b = false) :
    (g.folded b).1 = g.leaves ++ (g.folded b).2.1 := by
  obtain ⟨hsame, hlen⟩ := Bool.or_eq_false_iff.mp hnew
  have hleft : g.left b = g.leaves :=
    filter_sublist.eq_of_length_le (not_lt.mp (of_decide_eq_false hlen))
  unfold folded at hsame ⊢
  rw [hleft] at hsame ⊢
  exact fold_leaves h _ hsame

end

lemma Canvas.plan_inside (c : Canvas) (x0 y0 x1 y1 : ℤ) :
    c.Inside (Canvas.plan (some c) x0 y0 x1 y1).1 (Canvas.plan (some c) x0 y0 x1 y1).2 := by
  unfold Canvas.plan
  dsimp only
  have heven := c.even
  split_ifs with h
  · exact ⟨by simp, by simp, by simp, by simp⟩
  · refine ⟨?_, ?_, ?_, ?_⟩
    all_goals simp only [Canvas.grow, Canvas.rows, Canvas.cols]
    all_goals omega

section
variable {K S 𝕜 : Type} [LinearOrder K] [DecidableEq S] [Field 𝕜] [LinearOrder 𝕜] [IsStrictOrderedRing 𝕜]
  [FloorRing 𝕜]

namespace Engine

variable (g : Engine K S 𝕜) (b : Batch K S 𝕜)

/-- When the batch only appends leaves to their sessions, every robot that drove has a driven cell on the
canvas, before it and after it, and what the old leaves prove on the canvas after it lies on the canvas
before it. -/
def Calm (ρ : Rule 𝕜) : Prop :=
  ∀ c st w, g.canvas = some c → g.kept = some st → bounds (b.leaves.map fun e => e.2.2) = some w →
    g.anew b = false → Appends st (g.folded b).2.1 →
    let p := Canvas.plan (some c) w.1 w.2.1 w.2.2.1 w.2.2.2
    (g.folded b).2.1 ≠ [] ∨ p.1 ≠ c →
    Seen ρ c g.leaves ∧ Seen ρ p.1 (g.folded b).1 ∧
      ∀ reach ∈ [ρ.centre, ρ.proven, ρ.body], Still ρ c p.1 p.2 reach (Driven ρ p.1 (items g.leaves))

def step (ρ : Rule 𝕜) (edt : Plane Bool → ℕ → ℕ → ℕ) (g : Engine K S 𝕜) (b : Batch K S 𝕜) :
    Option (Engine K S 𝕜) := some (g.apply ρ edt b)

structure Ok (ρ : Rule 𝕜) (edt : Plane Bool → ℕ → ℕ → ℕ) : Prop where
  nodup : (g.leaves.map Prod.fst).Nodup
  fresh : g.canvas = none → g.kept = none
  kept : ∀ c, g.canvas = some c → ∃ st, g.kept = some st ∧ st.Same (rebuild ρ edt c g.leaves)

end Engine

variable {ρ : Rule 𝕜} {edt : Plane Bool → ℕ → ℕ → ℕ} {g : Engine K S 𝕜} {b : Batch K S 𝕜} {c c' : Canvas}
  {t : ℕ × ℕ} {leaves new : Leaves K S 𝕜} {st : Kept K S 𝕜}

omit [IsStrictOrderedRing 𝕜] in
lemma evidence_idle (hh : st.H = c.rows) (hw : st.W = c.cols) :
    evidence ρ edt (some st) c t leaves [] false = st := by
  simp [evidence, Kept.onto, hh, hw, sessions]

lemma evidence_same (he : Exact edt) (hst : st.Same (rebuild ρ edt c leaves)) (hin : c.Inside c' t)
    (hnd : ((leaves ++ new).map Prod.fst).Nodup) (happ : Appends st new)
    (hcalm : new ≠ [] ∨ c' ≠ c → Seen ρ c leaves ∧ Seen ρ c' (leaves ++ new) ∧
      ∀ reach ∈ [ρ.centre, ρ.proven, ρ.body], Still ρ c c' t reach (Driven ρ c' (items leaves))) :
    (evidence ρ edt (some st) c' t (leaves ++ new) new false).Same (rebuild ρ edt c' (leaves ++ new)) := by
  by_cases hq : new ≠ [] ∨ c' ≠ c
  · obtain ⟨hold, hnew, hstill⟩ := hcalm hq
    have hshows := (rebuild_shows he hold).of_same hst
    exact (evidence_shows hshows hin hstill hnd happ).same (rebuild_shows he hnew)
  · push Not at hq
    obtain ⟨rfl, rfl⟩ := hq
    rw [evidence_idle hst.height hst.width, append_nil]
    exact hst

def Engine.after (g : Engine K S 𝕜) (b : Batch K S 𝕜) (ρ : Rule 𝕜) (edt : Plane Bool → ℕ → ℕ → ℕ) (c : Canvas)
    (t : ℕ × ℕ) : Engine K S 𝕜 where
  canvas := some c
  leaves := (g.folded b).1
  kept := some (evidence ρ edt g.kept c t (g.folded b).1 (g.folded b).2.1 (g.anew b))

omit [IsStrictOrderedRing 𝕜] in
lemma Engine.apply_leaves {w : ℤ × ℤ × ℤ × ℤ} (hb : bounds (b.leaves.map fun e => e.2.2) = some w) :
    g.apply ρ edt b = g.after b ρ edt (Canvas.plan g.canvas w.1 w.2.1 w.2.2.1 w.2.2.2).1
      (Canvas.plan g.canvas w.1 w.2.1 w.2.2.1 w.2.2.2).2 := by
  unfold Engine.apply
  rw [hb]
  generalize g.canvas = o
  cases o <;> rfl

lemma bounds_eq_none {l : List Window} (h : bounds l = none) : l = [] := by
  cases l with
  | nil => rfl
  | cons w l =>
    unfold bounds at h
    split at h <;> cases h

omit [IsStrictOrderedRing 𝕜] in
lemma Engine.apply_empty (hb : bounds (b.leaves.map fun e => e.2.2) = none) :
    g.apply ρ edt b = g ∨ ∃ c, g.canvas = some c ∧ g.apply ρ edt b = g.after b ρ edt c (0, 0) := by
  have hnil : b.leaves = [] := map_eq_nil_iff.mp (bounds_eq_none hb)
  cases hc : g.canvas with
  | none =>
    left
    simp only [Engine.apply, hc, hb]
  | some c =>
    cases hbox : b.bbox with
    | none =>
      left
      simp [Engine.apply, hc, hb, hbox]
    | some box =>
      right
      refine ⟨c, rfl, ?_⟩
      simp only [Engine.apply, hc, hbox, Option.isSome_some, if_true, Engine.after, Engine.anew,
        Engine.folded, hnil, map_nil]
      rfl

lemma Engine.Ok.after (he : Exact edt) (h : g.Ok ρ edt) (hin : ∀ c, g.canvas = some c → c.Inside c' t)
    (hcalm : ∀ c st, g.canvas = some c → g.kept = some st → g.anew b = false → Appends st (g.folded b).2.1 →
      (g.folded b).2.1 ≠ [] ∨ c' ≠ c → Seen ρ c g.leaves ∧ Seen ρ c' (g.folded b).1 ∧
        ∀ reach ∈ [ρ.centre, ρ.proven, ρ.body], Still ρ c c' t reach (Driven ρ c' (items g.leaves))) :
    (g.after b ρ edt c' t).Ok ρ edt := by
  have hnd : ((g.folded b).1.map Prod.fst).Nodup := fold_nodup (left_nodup h.nodup) _
  refine ⟨hnd, fun hn => (nomatch hn), ?_⟩
  rintro _ ⟨⟩
  refine ⟨_, rfl, ?_⟩
  by_cases hd : ∃ st, g.kept = some st ∧ g.anew b = false ∧ Appends st (g.folded b).2.1
  · obtain ⟨st, hst, hnew, happ⟩ := hd
    cases hc : g.canvas with
    | none =>
      rw [h.fresh hc] at hst
      cases hst
    | some c =>
      obtain ⟨st', hst', hsame⟩ := h.kept c hc
      cases hst.symm.trans hst'
      have hleaves := Engine.folded_eq h.nodup hnew
      have hcalm' := hcalm c st hc hst hnew happ
      simp only [Engine.after, hst, hnew]
      rw [hleaves] at hnd hcalm' ⊢
      exact evidence_same he hsame (hin c hc) hnd happ hcalm'
  · have hev : evidence ρ edt g.kept c' t (g.folded b).1 (g.folded b).2.1 (g.anew b) =
        rebuild ρ edt c' (g.folded b).1 :=
      evidence_rebuild fun st hst hnew happ => hd ⟨st, hst, hnew, happ⟩
    simp only [Engine.after, hev]
    exact .refl _

lemma Engine.Ok.apply (he : Exact edt) (h : g.Ok ρ edt) (hcalm : g.Calm b ρ) : (g.apply ρ edt b).Ok ρ edt := by
  cases hb : bounds (b.leaves.map fun e => e.2.2) with
  | none =>
    have hempty : g.apply ρ edt b = g ∨ ∃ c, g.canvas = some c ∧ g.apply ρ edt b = g.after b ρ edt c (0, 0) :=
      Engine.apply_empty hb
    rcases hempty with happly | ⟨c, hc, happly⟩
    · rwa [happly]
    · rw [happly]
      refine h.after he ?_ ?_
      · intro c' hc'
        cases hc.symm.trans hc'
        exact ⟨by simp, by simp, by simp, by simp⟩
      · intro c' st hc' _ _ _ hne
        cases hc.symm.trans hc'
        have hnil : b.leaves = [] := map_eq_nil_iff.mp (bounds_eq_none hb)
        have hnew : (g.folded b).2.1 = [] := by
          unfold Engine.folded
          rw [hnil]
          rfl
        rw [hnew] at hne
        simp at hne
  | some w =>
    rw [Engine.apply_leaves hb]
    refine h.after he ?_ ?_
    · intro c hc
      rw [hc]
      exact c.plan_inside _ _ _ _
    · intro c st hc hst hnew happ hne
      rw [hc] at hne ⊢
      exact hcalm c st w hc hst hb hnew happ hne

end

def robot : Rule ℚ := ⟨1 / 20, 3 / 10, 1 / 10, 1 / 10 ^ 9, fun x => round (x * 10 ^ 4) / 10 ^ 4, by norm_num⟩

instance {c : Canvas} {leaves : Leaves ℕ ℕ ℚ} : Decidable (Seen robot c leaves) :=
  inferInstanceAs (Decidable (∀ m ∈ _, _))

end CloudServer.DrivenEvidence
