import CloudServer.MorseTree

/-! The loop over the lazily emptied heap computes the greedy merges. -/
namespace CloudServer.Morse
open Merging List Option Dict

variable {𝕜 : Type} [LinearOrder 𝕜] [Sub 𝕜]

/-- The entry of the pair `(a, b)` under the versions `vr`. -/
def entry (P : Peaks ℕ 𝕜) (vr : ℕ → ℤ) (a b : ℕ) (s : 𝕜) : Entry 𝕜 := toLex (key P a b s, toLex (vr a, vr b))

def pairEntry (P : Peaks ℕ 𝕜) (vr : ℕ → ℤ) (k x : ℕ) (s : 𝕜) : Entry 𝕜 :=
  if k < x then entry P vr k x s else entry P vr x k s

structure Queue (P : Peaks ℕ 𝕜) (limit : WithTop 𝕜) (S : Saddles ℕ 𝕜) (vr : ℕ → ℤ)
    (heap : List (Entry 𝕜)) : Prop where
  old : ∀ e ∈ heap, 0 ≤ e.va ∧ 0 ≤ e.vb ∧ (0 ≤ vr e.a → e.va ≤ vr e.a) ∧ (0 ≤ vr e.b → e.vb ≤ vr e.b)
  fresh : ∀ e ∈ heap, vr e.a = e.va → vr e.b = e.vb → ∀ s, S e.a e.b = (s : 𝕜) →
    e.a < e.b ∧ Below limit (persistence P e.a e.b s) ∧ e = entry P vr e.a e.b s
  known : ∀ a b s, a < b → S a b = (s : 𝕜) → Below limit (persistence P a b s) →
    entry P vr a b s ∈ heap

/-- The versions after `drop` was merged into `keep`. -/
def bumped (vr : ℕ → ℤ) (keep drop : ℕ) : ℕ → ℤ := fun r =>
  if r = drop then -1 else if r = keep then vr keep + 1 else vr r

variable {a b drop keep r : ℕ} {s t : 𝕜} {e : Entry 𝕜} {heap rest : List (Entry 𝕜)}

lemma Queue.of_stale {P : Peaks ℕ 𝕜} {limit : WithTop 𝕜} {S : Saddles ℕ 𝕜} {vr : ℕ → ℤ}
    (h : Queue P limit S vr (e :: rest))
    (hs : vr e.a ≠ e.va ∨ vr e.b ≠ e.vb ∨ S e.a e.b = ⊥) : Queue P limit S vr rest := by
  refine ⟨fun e' he => h.old e' (.tail _ he), fun e' he => h.fresh e' (.tail _ he), ?_⟩
  intro a b s hab hS hb
  rcases mem_cons.mp (h.known a b s hab hS hb) with rfl | hm
  · rcases hs with hs | hs | hs
    · exact absurd rfl hs
    · exact absurd rfl hs
    · have : S a b = ⊥ := hs
      rw [this] at hS
      cases hS
  · exact hm

lemma key_le_of_entry {P : Peaks ℕ 𝕜} (vr : ℕ → ℤ) {c d : ℕ}
    (h : entry P vr a b s ≤ entry P vr c d t) : key P a b s ≤ key P c d t := by
  rw [entry, entry, Prod.Lex.toLex_le_toLex] at h
  rcases h with h | h
  · exact h.le
  · exact h.1.le

lemma Queue.least {P : Peaks ℕ 𝕜} {limit : WithTop 𝕜} {S : Saddles ℕ 𝕜} {vr : ℕ → ℤ}
    (h : Queue P limit S vr (e :: rest))
    (hsort : (e :: rest).Pairwise (· ≤ ·)) (ha : vr e.a = e.va) (hb : vr e.b = e.vb)
    (hs : S e.a e.b = s) : Least P S e.a e.b s ∧ Below limit (persistence P e.a e.b s) := by
  obtain ⟨hlt, hbelow, he⟩ := h.fresh e mem_cons_self ha hb s hs
  refine ⟨⟨hlt, hs, fun c d t hcd ht => ?_⟩, hbelow⟩
  by_cases hp : Below limit (persistence P c d t)
  · refine key_le_of_entry vr ?_
    rw [← he]
    rcases mem_cons.mp (h.known c d t hcd ht hp) with hm | hm
    · exact hm.ge
    · exact rel_of_pairwise_cons hsort hm
  · have hlt : persistence P e.a e.b s < persistence P c d t :=
      WithTop.coe_lt_coe.mp (lt_of_lt_of_le hbelow (not_lt.mp hp))
    exact (Prod.Lex.lt_iff.mpr (.inl hlt)).le

lemma entry_bumped {P : Peaks ℕ 𝕜} {vr : ℕ → ℤ} (s : 𝕜)
    (ha : a ≠ keep ∧ a ≠ drop) (hb : b ≠ keep ∧ b ≠ drop) :
    entry P (bumped vr keep drop) a b s = entry P vr a b s := by
  simp [entry, bumped, ha, hb]

lemma bumped_stale {vr : ℕ → ℤ} {v : ℤ} (hv : 0 ≤ v) (hk : 0 ≤ vr keep)
    (hold : 0 ≤ vr r → v ≤ vr r) (h : bumped vr keep drop r = v) : r ≠ keep ∧ r ≠ drop := by
  unfold bumped at h
  refine ⟨fun hr => ?_, fun hr => ?_⟩
  · subst hr
    have := hold hk
    split_ifs at h <;> omega
  · rw [if_pos hr] at h
    omega

lemma bumped_old {vr : ℕ → ℤ} {v : ℤ} (hk : 0 ≤ vr keep)
    (hold : 0 ≤ vr r → v ≤ vr r) (h : 0 ≤ bumped vr keep drop r) : v ≤ bumped vr keep drop r := by
  unfold bumped at h ⊢
  split_ifs at h ⊢ with h₁ h₂
  · omega
  · subst h₂
    have := hold hk
    omega
  · exact hold h

lemma pairEntry_ends (P : Peaks ℕ 𝕜) (vr : ℕ → ℤ) (k x : ℕ) (s : 𝕜) (h : k ≠ x) :
    ∃ a b, a < b ∧ pairEntry P vr k x s = entry P vr a b s ∧ (a = k ∧ b = x ∨ a = x ∧ b = k) := by
  unfold pairEntry
  split_ifs with hlt
  · exact ⟨k, x, hlt, rfl, .inl ⟨rfl, rfl⟩⟩
  · exact ⟨x, k, by omega, rfl, .inr ⟨rfl, rfl⟩⟩

lemma Queue.merged {P : Peaks ℕ 𝕜} {limit : WithTop 𝕜} {S : Saddles ℕ 𝕜} {vr : ℕ → ℤ}
    (h : Queue P limit S vr (e :: rest))
    (hS : Symmetric S) (hk : 0 ≤ vr keep) (hends : ∀ a b, S a b ≠ ⊥ → 0 ≤ vr a)
    (he : e.a = drop ∨ e.b = drop) (hne : keep ≠ drop)
    (hheap : ∀ e', e' ∈ heap ↔ e' ∈ rest ∨ ∃ x v, merged S keep drop keep x = (v : 𝕜) ∧
      Below limit (persistence P keep x v) ∧ e' = pairEntry P (bumped vr keep drop) keep x v) :
    Queue P limit (merged S keep drop) (bumped vr keep drop) heap := by
  have hsym := hS.merged keep drop
  have halive : ∀ x v, Merging.merged S keep drop keep x = (v : 𝕜) →
      0 ≤ bumped vr keep drop keep ∧ 0 ≤ bumped vr keep drop x := by
    intro x v hv
    obtain ⟨-, hxd, hkx⟩ := merged_ne_drop hv
    rw [merged_keep hne hxd hkx.symm] at hv
    have hx : 0 ≤ vr x := by
      rcases max_choice (S keep x) (S drop x) with hm | hm <;> rw [hm] at hv
      · exact hends x keep (by rw [hS.symm, hv]; simp)
      · exact hends x drop (by rw [hS.symm, hv]; simp)
    unfold bumped
    rw [if_neg hne, if_pos rfl, if_neg hxd, if_neg hkx.symm]
    omega
  refine ⟨fun e' he' => ?_, fun e' he' ha hb s hs => ?_, fun a b s hab hs hp => ?_⟩
  · rcases (hheap e').mp he' with hm | ⟨x, v, hv, -, rfl⟩
    · obtain ⟨h₁, h₂, h₃, h₄⟩ := h.old e' (.tail _ hm)
      exact ⟨h₁, h₂, bumped_old hk h₃, bumped_old hk h₄⟩
    · obtain ⟨h₁, h₂⟩ := halive x v hv
      obtain ⟨a, b, -, hq, hc⟩ := pairEntry_ends P (bumped vr keep drop) keep x v (merged_ne_drop hv).2.2
      rw [hq]
      rcases hc with ⟨rfl, rfl⟩ | ⟨rfl, rfl⟩
      · exact ⟨h₁, h₂, fun _ => le_rfl, fun _ => le_rfl⟩
      · exact ⟨h₂, h₁, fun _ => le_rfl, fun _ => le_rfl⟩
  · rcases (hheap e').mp he' with hm | ⟨x, v, hv, hp, rfl⟩
    · obtain ⟨h₁, h₂, h₃, h₄⟩ := h.old e' (.tail _ hm)
      have hna := bumped_stale h₁ hk h₃ ha
      have hnb := bumped_stale h₂ hk h₄ hb
      rw [merged_other hS hna hnb] at hs
      rw [entry_bumped s hna hnb]
      refine h.fresh e' (.tail _ hm) ?_ ?_ s hs
      · rw [← ha, bumped, if_neg hna.2, if_neg hna.1]
      · rw [← hb, bumped, if_neg hnb.2, if_neg hnb.1]
    · obtain ⟨a, b, hab, hq, hc⟩ := pairEntry_ends P (bumped vr keep drop) keep x v (merged_ne_drop hv).2.2
      rw [hq] at hs ⊢
      have hs : Merging.merged S keep drop a b = (s : 𝕜) := hs
      have hvs : Merging.merged S keep drop a b = (v : 𝕜) ∧ Below limit (persistence P a b v) := by
        rcases hc with ⟨rfl, rfl⟩ | ⟨rfl, rfl⟩
        · exact ⟨hv, hp⟩
        · rw [hsym.symm, persistence_comm]
          exact ⟨hv, hp⟩
      have hsv : s = v := by
        rw [hvs.1] at hs
        exact (WithBot.coe_inj.mp hs).symm
      subst hsv
      exact ⟨hab, hvs.2, rfl⟩
  · rw [hheap]
    obtain ⟨hda, hdb, -⟩ := merged_ne_drop hs
    by_cases hka : a = keep
    · subst hka
      exact .inr ⟨b, s, hs, hp, by rw [pairEntry, if_pos hab]⟩
    by_cases hkb : b = keep
    · subst hkb
      rw [hsym.symm] at hs
      rw [persistence_comm] at hp
      exact .inr ⟨a, s, hs, hp, by rw [pairEntry, if_neg (by omega)]⟩
    rw [merged_other hS ⟨hka, hda⟩ ⟨hkb, hdb⟩] at hs
    have hm := h.known a b s hab hs hp
    rw [entry_bumped s ⟨hka, hda⟩ ⟨hkb, hdb⟩]
    rcases mem_cons.mp hm with rfl | hm
    · rcases he with he | he
      · exact absurd he hda
      · exact absurd he hdb
    · exact .inl hm

structure Table.Lawful {α T : Type} (A : Table α T) : Prop where
  get_set : ∀ t k v w r, A.get t k = some v → A.get (A.set t k w) r = if r = k then some w else A.get t r
  get_del : ∀ t k r, r ≠ k → A.get (A.del t k) r = A.get t r

section
variable {P R V S : Type}

structure Layout.Lawful (L : Layout 𝕜 P R V S) : Prop where
  value : L.value.Lawful
  rank : L.rank.Lawful
  ver : L.ver.Lawful
  sad : L.sad.Lawful
  ver_del : ∀ t k v, L.ver.get t k = some v → (L.ver.get (L.ver.del t k) k).getD (-1) = -1
  sad_del : ∀ t k d, L.sad.get t k = some d → L.sad.get (L.sad.del t k) k = none
  pop : ∀ d k v, d.get k = some v → L.pop d k = some (d.erase k)

variable {u : ℕ} {row : Dict ℕ 𝕜}

namespace Layout

variable {L : Layout 𝕜 P R V S}

/-- The saddle that the row of `u` gives for `w`. -/
def cell (L : Layout 𝕜 P R V S) (sad : S) (u w : ℕ) : Option 𝕜 :=
  (L.sad.get sad u).bind fun row => row.get w

section
variable {sad : S} {w : ℕ} {new : Dict ℕ 𝕜}

omit [LinearOrder 𝕜] [Sub 𝕜]

lemma cell_eq (h : L.sad.get sad u = some row) (w : ℕ) :
    L.cell sad u w = row.get w := by
  rw [cell, h]
  rfl

lemma row_of_cell (h : L.cell sad u w = some s) :
    ∃ row, L.sad.get sad u = some row ∧ row.get w = some s := by
  unfold cell at h
  obtain ⟨row, hrow, hw⟩ := bind_eq_some_iff.mp h
  exact ⟨row, hrow, hw⟩

lemma cell_set (hL : L.Lawful) {k : ℕ} (h : L.sad.get sad k = some row) (u w : ℕ) :
    L.cell (L.sad.set sad k new) u w = if u = k then new.get w else L.cell sad u w := by
  unfold cell
  rw [hL.sad.get_set sad k row new u h]
  split_ifs <;> rfl

end

/-- The saddles after the neighbours in `f` were handed from `drop` to `keep`. -/
def handed (f : ℕ → Option 𝕜) (c : ℕ → ℕ → Option 𝕜) (keep drop u w : ℕ) : Option 𝕜 :=
  if u = keep then
    match f w with
    | some v => some (joined (c keep w) v)
    | none => c keep w
  else
    match f u with
    | some v => if w = keep then some (joined (c keep u) v) else if w = drop then none else c u w
    | none => c u w

omit [Sub 𝕜] in
lemma absorb_spec (hL : L.Lawful) (hne : keep ≠ drop) (items : List (ℕ × 𝕜))
    (sad : S) (hnd : (items.map Prod.fst).Nodup)
    (hx : ∀ e ∈ items, e.1 ≠ keep ∧ e.1 ≠ drop ∧ ∃ s, L.cell sad e.1 drop = some s)
    (hk : ∃ row, L.sad.get sad keep = some row) :
    ∃ sad', L.absorb keep drop items sad = some sad' ∧ (∃ row, L.sad.get sad' keep = some row) ∧
      (∀ row, L.sad.get sad drop = some row → L.sad.get sad' drop = some row) ∧
      ∀ u w, L.cell sad' u w = handed (Dict.find items) (L.cell sad) keep drop u w := by
  induction items generalizing sad with
  | nil =>
    refine ⟨sad, rfl, hk, fun _ h => h, fun u w => ?_⟩
    by_cases h : u = keep <;> simp [handed, h]
  | cons e rest ih =>
    obtain ⟨x, v⟩ := e
    obtain ⟨hxn, hnd⟩ := nodup_cons.mp hnd
    obtain ⟨hxk, hxd, s, hs⟩ := hx (x, v) mem_cons_self
    obtain ⟨sk, hsk⟩ := hk
    obtain ⟨sx, hsx, hsd⟩ := row_of_cell hs
    dsimp only at hxk hxd hsx
    have hgx : L.sad.get (L.sad.set sad keep (sk.set x (joined (sk.get x) v))) x = some sx := by
      rw [hL.sad.get_set sad keep sk _ x hsk, if_neg hxk, hsx]
    have hcell : ∀ u w, L.cell (L.sad.set (L.sad.set sad keep (sk.set x (joined (sk.get x) v))) x
        ((sx.erase drop).set keep (joined (sk.get x) v))) u w =
        if u = x then (if w = keep then some (joined (sk.get x) v) else if w = drop then none
          else L.cell sad x w)
        else if u = keep then (if w = x then some (joined (sk.get x) v) else L.cell sad keep w)
        else L.cell sad u w := by
      intro u w
      rw [cell_set hL hgx, cell_set hL hsk, get_set, get_set, get_erase, cell_eq hsx, cell_eq hsk]
    obtain ⟨sad', hab, hrow, hdrop, hcells⟩ := ih
      (L.sad.set (L.sad.set sad keep (sk.set x (joined (sk.get x) v))) x ((sx.erase drop).set keep (joined (sk.get x) v))) hnd
      (fun e he => by
        obtain ⟨h₁, h₂, s', h₃⟩ := hx e (.tail _ he)
        have hex : e.1 ≠ x := fun h => hxn (mem_map.mpr ⟨e, he, h⟩)
        exact ⟨h₁, h₂, s', by rw [hcell, if_neg hex, if_neg h₁, h₃]⟩)
      ⟨_, by rw [hL.sad.get_set _ x sx _ keep hgx, if_neg hxk.symm, hL.sad.get_set sad keep sk _ keep hsk, if_pos rfl]⟩
    refine ⟨sad', ?_, hrow, fun row h => hdrop row ?_, fun u w => ?_⟩
    · simp only [absorb, hsk, bind_eq_bind, bind_some, hgx, hL.pop sx drop s hsd, hab]
    · rw [hL.sad.get_set _ x sx _ drop hgx, if_neg hxd.symm, hL.sad.get_set sad keep sk _ drop hsk, if_neg hne.symm, h]
    · have hfx : Dict.find rest x = none := find_eq_none.mpr hxn
      have hck : L.cell sad keep x = sk.get x := cell_eq hsk x
      rw [hcells]
      unfold handed
      simp only [hcell, find_cons]
      by_cases huk : u = keep
      · subst huk
        by_cases hwx : w = x
        · subst hwx
          simp [hfx, hxk.symm, hck]
        · simp [hxk.symm, hwx]
      · by_cases hux : u = x
        · subst hux
          simp [huk, hfx, hck]
        · simp [huk, hux, hxk.symm]

/-- The pairs of `keep` that a push adds. -/
def Pushed (P' : Peaks ℕ 𝕜) (limit : WithTop 𝕜) (vr : ℕ → ℤ) (keep : ℕ) (items : List (ℕ × 𝕜))
    (e : Entry 𝕜) : Prop :=
  ∃ x v, (x, v) ∈ items ∧ Below limit (persistence P' keep x v) ∧ e = pairEntry P' vr keep x v

lemma record_eq (P' : Peaks ℕ 𝕜) (vr : ℕ → ℤ) (k x : ℕ) (v : 𝕜) :
    (if k < x then
      Entry.record (min (P'.value k) (P'.value x) - v) v (min (P'.rank k) (P'.rank x))
        (max (P'.rank k) (P'.rank x)) k x (vr k) (vr x)
    else
      Entry.record (min (P'.value k) (P'.value x) - v) v (min (P'.rank k) (P'.rank x))
        (max (P'.rank k) (P'.rank x)) x k (vr x) (vr k)) = pairEntry P' vr k x v := by
  unfold pairEntry
  split_ifs
  · rfl
  · rw [min_comm (P'.value k), min_comm (P'.rank k), max_comm (P'.rank k)]
    rfl

variable {e' : Entry 𝕜}

omit [Sub 𝕜] in
lemma mem_heappush :
    e' ∈ heappush heap e ↔ e' = e ∨ e' ∈ heap := mem_orderedInsert _

omit [Sub 𝕜] in
lemma sorted_heappush (h : heap.Pairwise (· ≤ ·)) (e : Entry 𝕜) :
    (heappush heap e).Pairwise (· ≤ ·) := h.orderedInsert e _

lemma push_spec (L : Layout 𝕜 P R V S) (P' : Peaks ℕ 𝕜) (limit : WithTop 𝕜) (vr : ℕ → ℤ)
    (keep : ℕ) (peakv : P) (peakr : R) (ver : V) (items : List (ℕ × 𝕜)) (heap : List (Entry 𝕜))
    (hv : ∀ e ∈ items, L.value.get peakv e.1 = some (P'.value e.1) ∧
      L.rank.get peakr e.1 = some (P'.rank e.1) ∧ L.ver.get ver e.1 = some (vr e.1))
    (hs : heap.Pairwise (· ≤ ·)) :
    ∃ heap', L.push limit keep (P'.value keep) (P'.rank keep) (vr keep) peakv peakr ver items heap =
        some heap' ∧ heap'.Pairwise (· ≤ ·) ∧ heap'.length ≤ heap.length + items.length ∧
      ∀ e, e ∈ heap' ↔ e ∈ heap ∨ Pushed P' limit vr keep items e := by
  induction items generalizing heap with
  | nil => exact ⟨heap, rfl, hs, le_rfl, fun e => by simp [Pushed]⟩
  | cons xv rest ih =>
    obtain ⟨x, v⟩ := xv
    obtain ⟨h₁, h₂, h₃⟩ := hv (x, v) mem_cons_self
    dsimp only at h₁ h₂ h₃
    have hrest := fun heap => ih heap fun e he => hv e (.tail _ he)
    simp only [push, h₁, h₂, h₃, bind_eq_bind, bind_some, record_eq]
    split_ifs with hb
    · obtain ⟨heap', hp, hsort, hlen, hmem⟩ := hrest _ (sorted_heappush hs (pairEntry P' vr keep x v))
      refine ⟨heap', hp, hsort, ?_, fun e => ?_⟩
      · have : (heappush heap (pairEntry P' vr keep x v)).length = heap.length + 1 :=
          orderedInsert_length _ _ _
        rw [this] at hlen
        simp only [length_cons]
        omega
      · rw [hmem, mem_heappush]
        constructor
        · rintro ((rfl | he) | ⟨x', v', hm, hq⟩)
          · exact .inr ⟨x, v, mem_cons_self, hb, rfl⟩
          · exact .inl he
          · exact .inr ⟨x', v', .tail _ hm, hq⟩
        · rintro (he | ⟨x', v', hm, hq, rfl⟩)
          · exact .inl (.inr he)
          · rcases mem_cons.mp hm with hm | hm
            · cases hm
              exact .inl (.inl rfl)
            · exact .inr ⟨x', v', hm, hq, rfl⟩
    · obtain ⟨heap', hp, hsort, hlen, hmem⟩ := hrest heap hs
      refine ⟨heap', hp, hsort, by simp only [length_cons]; omega, fun e => ?_⟩
      rw [hmem]
      constructor
      · rintro (he | ⟨x', v', hm, hq⟩)
        · exact .inl he
        · exact .inr ⟨x', v', .tail _ hm, hq⟩
      · rintro (he | ⟨x', v', hm, hq, rfl⟩)
        · exact .inl he
        · rcases mem_cons.mp hm with hm | hm
          · cases hm
            exact absurd hq hb
          · exact .inr ⟨x', v', hm, hq, rfl⟩

end Layout

def asSaddle (o : Option 𝕜) : WithBot 𝕜 := o.elim ⊥ fun s => s

section
variable {o : Option 𝕜}

omit [LinearOrder 𝕜] [Sub 𝕜]

lemma asSaddle_eq : asSaddle o = s ↔ o = some s := by
  cases o <;> simp [asSaddle]

lemma asSaddle_bot : asSaddle o = ⊥ ↔ o = none := by
  cases o <;> simp [asSaddle]

end

omit [Sub 𝕜] in
lemma asSaddle_joined (o : Option 𝕜) (v : 𝕜) :
    asSaddle (some (joined o v)) = max (asSaddle o) (asSaddle (some v)) := by
  cases o <;> simp [asSaddle, joined]

omit [Sub 𝕜] in
lemma handed_merged {Sa : Saddles ℕ 𝕜} {c : ℕ → ℕ → Option 𝕜} (hS : Symmetric Sa)
    (hc : ∀ u w, Sa u w = asSaddle (c u w)) (hne : keep ≠ drop) (hu : u ≠ drop) (w : ℕ) :
    merged Sa keep drop u w = asSaddle (Layout.handed (fun w => if w = keep then none else c drop w)
      (fun u w => if u = keep then if w = drop then none else c keep w else c u w) keep drop u w) := by
  have hirr : ∀ x, c x x = none := fun x => asSaddle_bot.mp (by rw [← hc, hS.irrefl])
  have hsym : ∀ x y, asSaddle (c x y) = asSaddle (c y x) := fun x y => by rw [← hc, ← hc, hS.symm]
  have hbot : asSaddle (none : Option 𝕜) = ⊥ := rfl
  unfold merged Layout.handed
  by_cases hk : u = keep
  · subst hk
    by_cases hwd : w = drop
    · subst hwd
      simp [hirr, hbot, hu]
    · by_cases hwu : w = u
      · subst hwu
        simp [hirr, hbot]
      · rw [if_neg (by tauto), if_pos rfl, hc, hc]
        simp only [if_true, if_neg hwu, if_neg hwd]
        cases hd : c drop w with
        | none => simp [hbot]
        | some v => simp only [asSaddle_joined]
  · simp only [if_neg hk]
    have hud : asSaddle (c u drop) = asSaddle (c drop u) := hsym u drop
    cases hd : c drop u with
    | none =>
      rw [hd, hbot] at hud
      by_cases hwd : w = drop
      · subst hwd
        rw [if_pos (by tauto)]
        exact hud.symm
      · by_cases hwu : u = w
        · subst hwu
          simp [hirr, hbot]
        · rw [if_neg (by tauto)]
          by_cases hwk : w = keep
          · subst hwk
            simp only [if_true, hc, hud]
            exact max_bot_right _
          · simp only [if_neg hwk, hc]
    | some v =>
      rw [hd] at hud
      by_cases hwk : w = keep
      · subst hwk
        rw [if_neg (by tauto)]
        simp only [if_true, if_neg hu, asSaddle_joined]
        rw [hc, hc, hud, hsym w u]
      · by_cases hwd : w = drop
        · subst hwd
          rw [if_pos (by tauto)]
          simp only [if_neg hwk, if_true, hbot]
        · by_cases hwu : u = w
          · subst hwu
            simp [hirr, hbot, hwd, hwk]
          · rw [if_neg (by tauto)]
            simp only [if_neg hwk, if_neg hwd, hc]

/-- The containers hold the saddles `Sa` and the versions `vr` of the regions `alive`. -/
structure Inv (L : Layout 𝕜 P R V S) (P' : Peaks ℕ 𝕜) (limit : WithTop 𝕜) (Sa : Saddles ℕ 𝕜)
    (vr : ℕ → ℤ) (alive : Finset ℕ) (st : State 𝕜 P R V S) : Prop where
  sym : Symmetric Sa
  ends : ∀ a b, Sa a b ≠ ⊥ → 0 ≤ vr a
  alive : ∀ a, a ∈ alive ↔ 0 ≤ vr a
  value : ∀ a, 0 ≤ vr a → L.value.get st.peakv a = some (P'.value a)
  rank : ∀ a, 0 ≤ vr a → L.rank.get st.peakr a = some (P'.rank a)
  ver : ∀ a, (L.ver.get st.ver a).getD (-1) = vr a
  cell : ∀ a b, Sa a b = asSaddle (L.cell st.sad a b)
  sorted : st.heap.Pairwise (· ≤ ·)
  queue : Queue P' limit Sa vr st.heap

variable {L : Layout 𝕜 P R V S} {P' : Peaks ℕ 𝕜} {limit : WithTop 𝕜} {Sa : Saddles ℕ 𝕜}
  {vr : ℕ → ℤ} {alive : Finset ℕ} {st : State 𝕜 P R V S}

lemma Inv.get_ver (h : Inv L P' limit Sa vr alive st) (ha : 0 ≤ vr a) :
    L.ver.get st.ver a = some (vr a) := by
  have hv := h.ver a
  cases hg : L.ver.get st.ver a with
  | none =>
    rw [hg] at hv
    simp only [getD_none] at hv
    omega
  | some v =>
    rw [hg] at hv
    exact congrArg some hv

lemma Inv.stale_iff (h : Inv L P' limit Sa vr alive st) (e : Entry 𝕜) :
    L.Stale st e ↔ vr e.a ≠ e.va ∨ vr e.b ≠ e.vb ∨ Sa e.a e.b = ⊥ := by
  unfold Layout.Stale
  rw [h.ver, h.ver, h.cell, asSaddle_bot]
  rfl

omit [Sub 𝕜] in
lemma ends_merged (keep drop : ℕ) (hends : ∀ a b, Sa a b ≠ ⊥ → 0 ≤ vr a)
    (hk : 0 ≤ vr keep) (a b : ℕ) (h : merged Sa keep drop a b ≠ ⊥) : 0 ≤ bumped vr keep drop a := by
  obtain ⟨s, hs⟩ := WithBot.ne_bot_iff_exists.mp h
  obtain ⟨had, -, -⟩ := merged_ne_drop hs.symm
  unfold bumped
  rw [if_neg had]
  split_ifs with hak
  · omega
  · unfold merged at h
    rw [if_neg hak] at h
    split_ifs at h with h₁ h₂
    · exact absurd rfl h
    · rcases max_choice (Sa a keep) (Sa a drop) with hm | hm <;> rw [hm] at h
      · exact hends _ _ h
      · exact hends _ _ h
    · exact hends _ _ h

lemma alive_bumped (drop : ℕ) (halive : ∀ a, a ∈ alive ↔ 0 ≤ vr a) (hk : 0 ≤ vr keep)
    (a : ℕ) : a ∈ alive.erase drop ↔ 0 ≤ bumped vr keep drop a := by
  rw [Finset.mem_erase, halive]
  unfold bumped
  split_ifs with h₁ h₂
  · simp [h₁]
  · subst h₂
    exact ⟨fun _ => by omega, fun _ => ⟨h₁, hk⟩⟩
  · exact ⟨fun h => h.2, fun h => ⟨h₁, h⟩⟩

lemma Inv.rows_merged (hL : L.Lawful) (h : Inv L P' limit Sa vr alive st)
    (hne : keep ≠ drop) (hs : Sa keep drop = s) :
    ∃ sk sd sad row, L.sad.get st.sad keep = some sk ∧ L.sad.get st.sad drop = some sd ∧
      L.pop sk drop = some (sk.erase drop) ∧ L.pop sd keep = some (sd.erase keep) ∧
      L.absorb keep drop (sd.erase keep).items (L.sad.set st.sad keep (sk.erase drop)) = some sad ∧
      L.sad.get (L.sad.del sad drop) keep = some row ∧
      ∀ u w, merged Sa keep drop u w = asSaddle (L.cell (L.sad.del sad drop) u w) := by
  have hkd : L.cell st.sad keep drop = some s := asSaddle_eq.mp (by rw [← h.cell, hs])
  have hdk : L.cell st.sad drop keep = some s :=
    asSaddle_eq.mp (by rw [← h.cell, h.sym.symm, hs])
  obtain ⟨sk, hsk, hskd⟩ := Layout.row_of_cell hkd
  obtain ⟨sd, hsd, hsdk⟩ := Layout.row_of_cell hdk
  have hcell₀ : ∀ u w, L.cell (L.sad.set st.sad keep (sk.erase drop)) u w =
      if u = keep then if w = drop then none else L.cell st.sad keep w else L.cell st.sad u w := by
    intro u w
    rw [Layout.cell_set hL hsk, get_erase, Layout.cell_eq hsk]
  have hitems : ∀ e ∈ (sd.erase keep).items, e.1 ≠ keep ∧ e.1 ≠ drop ∧
      ∃ s, L.cell (L.sad.set st.sad keep (sk.erase drop)) e.1 drop = some s := by
    rintro ⟨x, v⟩ hx
    have hg : (sd.erase keep).get x = some v := mem_items.mp hx
    rw [get_erase] at hg
    split_ifs at hg with hxk
    have hSx : Sa drop x = v := by
      rw [h.cell, Layout.cell_eq hsd]
      exact asSaddle_eq.mpr hg
    have hxd : x ≠ drop := by
      rintro rfl
      rw [h.sym.irrefl] at hSx
      cases hSx
    refine ⟨hxk, hxd, v, ?_⟩
    rw [hcell₀, if_neg hxk]
    exact asSaddle_eq.mp (by rw [← h.cell, h.sym.symm, hSx])
  obtain ⟨sad, hab, ⟨row, hrow⟩, hkeepdrop, hcells⟩ := Layout.absorb_spec hL hne
    (sd.erase keep).items (L.sad.set st.sad keep (sk.erase drop)) (sd.erase keep).nodup hitems
    ⟨_, by rw [hL.sad.get_set _ _ _ _ keep hsk, if_pos rfl]⟩
  have hgone : L.sad.get (L.sad.del sad drop) drop = none :=
    hL.sad_del sad drop sd (hkeepdrop sd (by
      rw [hL.sad.get_set _ _ _ _ drop hsk, if_neg hne.symm, hsd]))
  refine ⟨sk, sd, sad, row, hsk, hsd, hL.pop sk drop s hskd, hL.pop sd keep s hsdk, hab, ?_, ?_⟩
  · rw [hL.sad.get_del sad drop keep hne, hrow]
  · intro u w
    by_cases hu : u = drop
    · subst hu
      unfold merged Layout.cell
      rw [if_pos (.inl rfl), hgone]
      rfl
    · rw [handed_merged h.sym h.cell hne hu w]
      have hdel : L.cell (L.sad.del sad drop) u w = L.cell sad u w := by
        unfold Layout.cell
        rw [hL.sad.get_del sad drop u hu]
      rw [hdel, hcells]
      have hfind : Dict.find (sd.erase keep).items =
          fun w => if w = keep then none else L.cell st.sad drop w := by
        funext w
        have := get_erase sd keep w
        rw [← Layout.cell_eq hsd w] at this
        exact this
      rw [hfind]
      congr 2
      funext u w
      exact (hcell₀ u w).symm

omit [LinearOrder 𝕜] [Sub 𝕜] in
lemma length_row_le {ids : Finset ℕ} (h : ∀ x v, (x, v) ∈ row.items → x ∈ ids) :
    row.items.length ≤ ids.card := by
  have hsub : row.keys.toFinset ⊆ ids := by
    intro x hx
    obtain ⟨⟨x', v⟩, hm, rfl⟩ := mem_map.mp (mem_toFinset.mp hx)
    exact h x' v hm
  have hcard : row.keys.toFinset.card = row.items.length := by
    rw [toFinset_card_of_nodup (show row.keys.Nodup from row.nodup)]
    exact length_map _
  rw [← hcard]
  exact Finset.card_le_card hsub

lemma Inv.join (hL : L.Lawful) (h : Inv L P' limit Sa vr alive st)
    (hheap : st.heap = e :: rest) (ha : vr e.a = e.va) (hb : vr e.b = e.vb)
    (hs : Sa e.a e.b = s) :
    ∃ st', L.join limit st e rest = some st' ∧
      st'.out = st.out ++ [(persistence P' e.a e.b s, elder P' e.a e.b, younger P' e.a e.b)] ∧
      st'.heap.length ≤ rest.length + (alive.erase (younger P' e.a e.b)).card ∧
      younger P' e.a e.b ∈ alive ∧
      Inv L P' limit (merged Sa (elder P' e.a e.b) (younger P' e.a e.b))
        (bumped vr (elder P' e.a e.b) (younger P' e.a e.b)) (alive.erase (younger P' e.a e.b)) st' := by
  have hq := h.queue
  have hsort := h.sorted
  rw [hheap] at hq hsort
  obtain ⟨hlt, -, he⟩ := hq.fresh e mem_cons_self ha hb s hs
  have hea : 0 ≤ vr e.a := h.ends e.a e.b (by rw [hs]; simp)
  have heb : 0 ≤ vr e.b := h.ends e.b e.a (by rw [h.sym.symm, hs]; simp)
  have hpe : e.p = persistence P' e.a e.b s := congrArg (fun e => e.1.1) he
  have hkeep : (if P'.value e.b < P'.value e.a ∨ P'.value e.a = P'.value e.b ∧
      P'.rank e.a ≤ P'.rank e.b then e.a else e.b) = elder P' e.a e.b := rfl
  have hdrop : (if P'.value e.b < P'.value e.a ∨ P'.value e.a = P'.value e.b ∧
      P'.rank e.a ≤ P'.rank e.b then e.b else e.a) = younger P' e.a e.b := rfl
  have hpk : max (P'.value e.a) (P'.value e.b) = P'.value (elder P' e.a e.b) := by
    unfold elder
    split_ifs with hc
    · exact max_eq_left (hc.elim (fun h => h.le) fun h => h.1.ge)
    · rw [not_or] at hc
      exact max_eq_right (not_lt.mp hc.1)
  have hrk : P'.value e.a = P'.value e.b →
      min (P'.rank e.a) (P'.rank e.b) = P'.rank (elder P' e.a e.b) := by
    intro heq
    unfold elder
    split_ifs with hc
    · exact min_eq_left (hc.elim (fun h => absurd heq h.ne') fun h => h.2)
    · rw [not_or, not_and] at hc
      exact min_eq_right (not_le.mp (hc.2 heq)).le
  have hends : (elder P' e.a e.b = e.a ∧ younger P' e.a e.b = e.b) ∨
      (elder P' e.a e.b = e.b ∧ younger P' e.a e.b = e.a) := elder_younger P' e.a e.b
  generalize elder P' e.a e.b = keep at *
  generalize younger P' e.a e.b = drop at *
  have hne : keep ≠ drop := by
    rcases hends with ⟨rfl, rfl⟩ | ⟨rfl, rfl⟩
    · exact hlt.ne
    · exact hlt.ne'
  have hsk : Sa keep drop = s := by
    rcases hends with ⟨rfl, rfl⟩ | ⟨rfl, rfl⟩
    · exact hs
    · rw [h.sym.symm, hs]
  have hvk : 0 ≤ vr keep := by rcases hends with ⟨rfl, -⟩ | ⟨rfl, -⟩ <;> assumption
  have hvd : 0 ≤ vr drop := by rcases hends with ⟨-, rfl⟩ | ⟨-, rfl⟩ <;> assumption
  obtain ⟨sk, sd, sad, row, hgk, hgd, hpop, hpop', hab, hrow, hcells⟩ := h.rows_merged hL hne hsk
  have hvalue : ∀ r, 0 ≤ vr r → r ≠ drop → L.value.get
      (L.value.del (L.value.set st.peakv keep (P'.value keep)) drop) r = some (P'.value r) := by
    intro r hr hrd
    rw [hL.value.get_del _ _ _ hrd, hL.value.get_set _ _ _ _ _ (h.value keep hvk)]
    split_ifs with hrk
    · rw [hrk]
    · exact h.value r hr
  have hrank : ∀ r, 0 ≤ vr r → r ≠ drop → L.rank.get
      (L.rank.del (if P'.value e.a = P'.value e.b then
        L.rank.set st.peakr keep (min (P'.rank e.a) (P'.rank e.b)) else st.peakr) drop) r =
        some (P'.rank r) := by
    intro r hr hrd
    rw [hL.rank.get_del _ _ _ hrd]
    split_ifs with heq
    · rw [hL.rank.get_set _ _ _ _ _ (h.rank keep hvk), hrk heq]
      split_ifs with hrk
      · rw [hrk]
      · exact h.rank r hr
    · exact h.rank r hr
  have hgver : L.ver.get (L.ver.del st.ver drop) keep = some (vr keep) := by
    rw [hL.ver.get_del _ _ _ hne, h.get_ver hvk]
  have hver : ∀ r, (L.ver.get (L.ver.set (L.ver.del st.ver drop) keep (vr keep + 1)) r).getD (-1) =
      bumped vr keep drop r := by
    intro r
    rw [hL.ver.get_set _ _ _ _ _ hgver]
    unfold bumped
    by_cases hrd : r = drop
    · rw [if_neg (hrd ▸ hne.symm), if_pos hrd, hrd]
      exact hL.ver_del st.ver drop _ (h.get_ver hvd)
    · rw [if_neg hrd]
      split_ifs with hrk
      · rfl
      · rw [hL.ver.get_del _ _ _ hrd, h.ver]
  have halive := alive_bumped drop h.alive hvk
  have hrowS : ∀ x v, (x, v) ∈ row.items ↔ merged Sa keep drop keep x = (v : 𝕜) := by
    intro x v
    rw [mem_items, hcells, Layout.cell_eq hrow, asSaddle_eq]
  have hnew := ends_merged keep drop h.ends hvk
  have hxs : ∀ x v, (x, v) ∈ row.items → 0 ≤ vr x ∧ x ≠ drop ∧ 0 ≤ bumped vr keep drop x := by
    intro x v hx
    have hm := (hrowS x v).mp hx
    obtain ⟨-, hxd, hkx⟩ := merged_ne_drop hm
    have hbx := hnew x keep (by rw [(h.sym.merged keep drop).symm, hm]; simp)
    have hmem := (halive x).mpr hbx
    exact ⟨(h.alive x).mp (Finset.mem_of_mem_erase hmem), hxd, hbx⟩
  have hbk : bumped vr keep drop keep = vr keep + 1 := by
    unfold bumped
    rw [if_neg hne, if_pos rfl]
  obtain ⟨heap, hpush, hheap', hlen, hmem⟩ := Layout.push_spec L P' limit (bumped vr keep drop) keep
    (L.value.del (L.value.set st.peakv keep (P'.value keep)) drop)
    (L.rank.del (if P'.value e.a = P'.value e.b then
        L.rank.set st.peakr keep (min (P'.rank e.a) (P'.rank e.b)) else st.peakr) drop)
    (L.ver.set (L.ver.del st.ver drop) keep (vr keep + 1)) row.items rest
    (fun xv hxv => by
      obtain ⟨h₁, h₂, h₃⟩ := hxs xv.1 xv.2 hxv
      refine ⟨hvalue _ h₁ h₂, hrank _ h₁ h₂, ?_⟩
      have := hver xv.1
      cases hg : L.ver.get (L.ver.set (L.ver.del st.ver drop) keep (vr keep + 1)) xv.1 with
      | none =>
        rw [hg] at this
        simp only [getD_none] at this
        omega
      | some v =>
        rw [hg] at this
        exact congrArg some this)
    (List.Pairwise.of_cons hsort)
  rw [hbk] at hpush
  refine ⟨⟨L.value.del (L.value.set st.peakv keep (P'.value keep)) drop,
    L.rank.del (if P'.value e.a = P'.value e.b then
        L.rank.set st.peakr keep (min (P'.rank e.a) (P'.rank e.b)) else st.peakr) drop,
    L.ver.set (L.ver.del st.ver drop) keep (vr keep + 1), L.sad.del sad drop, heap, _⟩,
    ?_, rfl, ?_, (h.alive drop).mpr hvd, ?_⟩
  · simp only [Layout.join, h.value _ hea, h.value _ heb, h.rank _ hea, h.rank _ heb,
      bind_eq_bind, bind_some, hkeep, hdrop, hpk, hgk, hgd, hpop, hpop', hab, hgver,
      hvalue keep hvk hne, hrank keep hvk hne, hrow, hpush, hpe]
  · exact hlen.trans (Nat.add_le_add_left (length_row_le fun x v hx => (halive x).mpr (hxs x v hx).2.2) _)
  · refine ⟨h.sym.merged keep drop, hnew, halive, fun r hr => ?_, fun r hr => ?_, hver, hcells,
      hheap', hq.merged h.sym hvk h.ends ?_ hne fun e' => ?_⟩
    · have hmem := Finset.mem_erase.mp ((halive r).mpr hr)
      exact hvalue r ((h.alive r).mp hmem.2) hmem.1
    · have hmem := Finset.mem_erase.mp ((halive r).mpr hr)
      exact hrank r ((h.alive r).mp hmem.2) hmem.1
    · rcases hends with ⟨-, h₂⟩ | ⟨-, h₂⟩
      · exact .inr h₂.symm
      · exact .inl h₂.symm
    · rw [hmem]
      unfold Layout.Pushed
      simp only [hrowS]

lemma Inv.loop (hL : L.Lawful) (fuel : ℕ) (h : Inv L P' limit Sa vr alive st)
    (hfuel : st.heap.length + alive.card ^ 2 ≤ fuel) :
    ∃ st' out T, L.loop limit fuel st = some st' ∧ st'.out = st.out ++ out ∧ Greedy P' limit Sa out T := by
  induction fuel generalizing Sa vr alive st with
  | zero =>
    have hnil : st.heap = [] := length_eq_zero_iff.mp (by omega)
    refine ⟨st, [], Sa, by simp [Layout.loop, hnil], by simp, .stop fun a b s hab hs hb => ?_⟩
    have := h.queue.known a b s hab hs hb
    rw [hnil] at this
    cases this
  | succ k ih =>
    cases hheap : st.heap with
    | nil =>
      refine ⟨st, [], Sa, by simp [Layout.loop, hheap], by simp, .stop fun a b s hab hs hb => ?_⟩
      have := h.queue.known a b s hab hs hb
      rw [hheap] at this
      cases this
    | cons e rest =>
      rw [hheap, length_cons] at hfuel
      have hq := h.queue
      have hsort := h.sorted
      rw [hheap] at hq hsort
      by_cases hst : L.Stale st e
      · have hinv : Inv L P' limit Sa vr alive { st with heap := rest } :=
          { h with
            sorted := List.Pairwise.of_cons hsort
            queue := hq.of_stale ((h.stale_iff e).mp hst) }
        obtain ⟨st', out, T, hl, hout, hg⟩ := ih hinv (by dsimp only; omega)
        refine ⟨st', out, T, ?_, hout, hg⟩
        simp [Layout.loop, hheap, Layout.pass, hst, hl]
      · have hlive := hst
        rw [h.stale_iff, not_or, not_or, not_not, not_not] at hlive
        obtain ⟨ha, hb, hs⟩ := hlive
        obtain ⟨s, hs⟩ := WithBot.ne_bot_iff_exists.mp hs
        obtain ⟨hleast, hbelow⟩ := hq.least hsort ha hb hs.symm
        obtain ⟨st₁, hj, hout₁, hlen, hmem, hinv⟩ := h.join hL hheap ha hb hs.symm
        have hcard := Finset.card_erase_add_one hmem
        obtain ⟨st', out, T, hl, hout, hg⟩ := ih hinv (by nlinarith)
        refine ⟨st', _ :: out, T, ?_, ?_, .merge hleast hbelow hg⟩
        · simp [Layout.loop, hheap, Layout.pass, hst, hj, hl]
        · rw [hout, hout₁, append_assoc]
          rfl

end

end CloudServer.Morse
