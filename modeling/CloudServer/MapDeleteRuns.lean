import CloudServer.MapDelete

/-! When a map delete removes what was marked and nothing else. -/
namespace CloudServer.MapDelete
open Function Steps List Option

namespace World

variable (w : World)

def Marked (mark : ℕ) : Prop := ∃ inc, w.row = some ⟨inc, some mark⟩

def NoFold : Prop :=
  ∀ k, w.workers k = some .checked ∨ w.workers k = some .probed → w.sceneLock ≠ some (.worker k)

structure Clean : Prop where
  deleting : w.isDeleting = true
  noFold : w.NoFold
  scene : w.content .scene = false

end World

def Good (enabled : Bool) (w : World) : Pc → Prop
  | .connecting | .loading | .failing | .sleeping => True
  | .probing mark | .locking mark => w.Marked mark
  | .deleting mark serial scene s rest failed =>
    w.Marked mark ∧ w.NoFold ∧ (scene = false → enabled = false) ∧
      (failed = false → (∀ x ∈ steps scene, x ∉ s :: rest → (serial, mark, x) ∈ w.cleared) ∧
        (.scene ∉ s :: rest → w.content .scene = false))
  | .finishing mark serial scene =>
    w.Marked mark ∧ w.NoFold ∧ (scene = false → enabled = false) ∧
      (∀ x ∈ steps scene, (serial, mark, x) ∈ w.cleared) ∧ w.content .scene = false
  | .orphan _ => False

structure Inv (enabled : Bool) (w : World) : Prop where
  round : ∀ r run, w.runners r = some run → run.pc ≠ .connecting → w.deleteLock = some r
  pcs : ∀ r run, w.runners r = some run → Good enabled w run.pc
  off : enabled = false → ∀ k, w.workers k = none
  gone : w.gone = true → w.Clean
  row : ∀ row, w.row = some row → row.inc < w.next ∧ row.inc ∉ w.deletedEvents
  born : ∀ i ∈ w.deletedEvents, i < w.next
  once : w.deletedEvents.Nodup

variable {m : ℕ} {enabled : Bool} {w w' : World}

lemma Inv.empty : Inv enabled World.empty := by
  refine ⟨?_, ?_, ?_, ?_, ?_, ?_, .nil⟩ <;> simp [World.empty]

variable {mark r serial : ℕ} {a : Act}

lemma World.Marked.deleting (h : w.Marked mark) : w.deleting = true := by
  obtain ⟨inc, hrow⟩ := h
  rw [World.deleting, hrow]
  rfl

lemma World.Marked.mono (h : w.Marked mark) (hrow : w'.row = w.row) : w'.Marked mark := by
  obtain ⟨inc, hinc⟩ := h
  exact ⟨inc, hrow.trans hinc⟩

lemma World.isDeleting_of_deleting (h : w.deleting = true) : w.isDeleting = true := by
  unfold World.deleting at h
  unfold World.isDeleting
  cases hrow : w.row with
  | none => rfl
  | some row =>
    rw [hrow] at h
    exact h

lemma Good.mono {pc : Pc} (h : Good enabled w pc) (hrow : w.deleting = true → w'.row = w.row)
    (hfold : w.deleting = true → w.NoFold → w'.NoFold) (hcleared : w.cleared ⊆ w'.cleared)
    (hscene : w.deleting = true → w.NoFold → w.content .scene = false → w'.content .scene = false) :
    Good enabled w' pc := by
  have hmarked {mark : ℕ} (hm : w.Marked mark) : w'.Marked mark := hm.mono (hrow hm.deleting)
  cases pc with
  | connecting | loading | failing | sleeping => trivial
  | probing mark | locking mark => exact hmarked h
  | deleting mark serial scene s rest failed =>
    obtain ⟨hm, hf, hoff, hdone⟩ := h
    refine ⟨hmarked hm, hfold hm.deleting hf, hoff, fun hfailed => ?_⟩
    obtain ⟨hclear, hsc⟩ := hdone hfailed
    exact ⟨fun x hx hrest => hcleared (hclear x hx hrest), fun hrest => hscene hm.deleting hf (hsc hrest)⟩
  | finishing mark serial scene =>
    obtain ⟨hm, hf, hoff, hclear, hsc⟩ := h
    exact ⟨hmarked hm, hfold hm.deleting hf, hoff, fun x hx => hcleared (hclear x hx), hscene hm.deleting hf hsc⟩
  | orphan s => exact h

lemma World.Clean.mono (h : w.Clean) (hrow : w'.isDeleting = true) (hfold : w.NoFold → w'.NoFold)
    (hscene : w.NoFold → w.content .scene = false → w'.content .scene = false) : w'.Clean :=
  ⟨hrow, hfold h.noFold, hscene h.noFold h.scene⟩

lemma Inv.others (h : Inv enabled w) (hrun : w'.runners = w.runners) (hlock : w'.deleteLock = w.deleteLock)
    (hoff : enabled = false → w'.workers = w.workers) (hrow : w'.row = w.row) (hnext : w'.next = w.next)
    (hgone : w'.gone = w.gone) (hcleared : w.cleared ⊆ w'.cleared)
    (hev : w'.deletedEvents = w.deletedEvents)
    (hfold : w.isDeleting = true → w.NoFold → w'.NoFold)
    (hscene : w.isDeleting = true → w.NoFold → w.content .scene = false → w'.content .scene = false) :
    Inv enabled w' := by
  refine ⟨?_, fun r run hr => ?_, fun he => ?_, fun hg => ?_, ?_, ?_, ?_⟩
  · rw [hrun, hlock]
    exact h.round
  · rw [hrun] at hr
    exact (h.pcs r run hr).mono (fun _ => hrow) (fun hd => hfold (World.isDeleting_of_deleting hd))
      hcleared fun hd => hscene (World.isDeleting_of_deleting hd)
  · rw [hoff he]
    exact h.off he
  · rw [hgone] at hg
    have hclean := h.gone hg
    refine hclean.mono ?_ (hfold hclean.deleting) (hscene hclean.deleting)
    have := hclean.deleting
    rw [World.isDeleting] at this ⊢
    rw [hrow]
    exact this
  · rw [hrow, hnext, hev]
    exact h.row
  · rw [hev, hnext]
    exact h.born
  · rw [hev]
    exact h.once

variable {x : Option Holder} {failed ok scene takes : Bool} {k : ℕ} {rest : List Store}
variable {run : Runner} {f : Option Fold} {c : Store → Bool}

lemma World.NoFold.lock (h : w.NoFold) (hx : x = none ∨ x = w.sceneLock ∨ ∃ r, x = some (.runner r)) :
    World.NoFold { w with sceneLock := x } := by
  intro k hk
  rcases hx with rfl | rfl | ⟨r, rfl⟩
  · exact fun he => (nomatch he)
  · exact h k hk
  · exact fun he => (nomatch he)

lemma Inv.moves (h : Inv enabled w) {a : ℕ} {pc : Pc} (hlock : w.deleteLock = some r)
    (hl : w'.deleteLock = some r) (hrun : w'.runners = update w.runners r (some ⟨a, pc⟩))
    (hgood : Good enabled w' pc) (hworkers : w'.workers = w.workers) (hgone : w'.gone = w.gone)
    (hclean : w.Clean → w'.Clean) (hrow : w'.row = w.row) (hnext : w.next ≤ w'.next)
    (hev : w'.deletedEvents = w.deletedEvents) : Inv enabled w' := by
  have hother {r' : ℕ} {run : Runner} (hr : w'.runners r' = some run) (hne : r' ≠ r) :
      run.pc = .connecting := by
    rw [hrun, update_of_ne hne] at hr
    by_contra hpc
    exact hne (Option.some.inj ((h.round r' run hr hpc).symm.trans hlock))
  refine ⟨fun r' run hr hpc => ?_, fun r' run hr => ?_, ?_, fun hg => hclean (h.gone (hgone ▸ hg)),
    fun row hr => ?_, fun i hi => ?_, ?_⟩
  · by_cases hne : r' = r
    · rw [hne, hl]
    · exact absurd (hother hr hne) hpc
  · by_cases hne : r' = r
    · rw [hne, hrun, update_self] at hr
      cases hr
      exact hgood
    · rw [hother hr hne]
      trivial
  · rw [hworkers]
    exact h.off
  · rw [hrow] at hr
    rw [hev]
    exact ⟨(h.row row hr).1.trans_le hnext, (h.row row hr).2⟩
  · rw [hev] at hi
    exact (h.born i hi).trans_le hnext
  · rw [hev]
    exact h.once

lemma Inv.endRunner (h : Inv enabled w) (r : ℕ) : Inv enabled (w.endRunner r) := by
  have hfold (hf : w.NoFold) : (w.endRunner r).NoFold := by
    refine (hf.lock ?_ : World.NoFold { w with sceneLock := (w.closeScene r).sceneLock })
    unfold World.closeScene
    dsimp only
    split
    · exact .inl rfl
    · exact .inr (.inl rfl)
  have hother {r' : ℕ} {run : Runner} (hr : (w.endRunner r).runners r' = some run) :
      r' ≠ r ∧ w.runners r' = some run := by
    rw [World.endRunner] at hr
    dsimp only at hr
    by_cases hne : r' = r
    · rw [hne, update_self] at hr
      cases hr
    · rw [update_of_ne hne] at hr
      exact ⟨hne, hr⟩
  refine ⟨fun r' run hr hpc => ?_, fun r' run hr => ?_, h.off, fun hg => ?_, h.row, h.born, h.once⟩
  · obtain ⟨hne, hr⟩ := hother hr
    have hlock := h.round r' run hr hpc
    unfold World.endRunner
    dsimp only
    rw [hlock, if_neg (fun he => hne (Option.some.inj he))]
  · exact (h.pcs r' run (hother hr).2).mono (fun _ => rfl) (fun _ => hfold) (List.Subset.refl _)
      fun _ _ => id
  · exact (h.gone hg).mono (h.gone hg).deleting hfold fun _ => id

lemma Inv.lock (h : Inv enabled w) {a : ℕ} (hlock : w.deleteLock = none) :
    Inv enabled { w.setPc r a .loading with deleteLock := some r } := by
  refine ⟨fun r' run hr hpc => ?_, fun r' run hr => ?_, h.off, fun hg => ?_, h.row, h.born, h.once⟩
  · by_cases hne : r' = r
    · rw [hne]
    · rw [World.setPc] at hr
      dsimp only at hr
      rw [update_of_ne hne] at hr
      have := h.round r' run hr hpc
      rw [hlock] at this
      cases this
  · rw [World.setPc] at hr
    dsimp only at hr
    by_cases hne : r' = r
    · rw [hne, update_self] at hr
      cases hr
      trivial
    · rw [update_of_ne hne] at hr
      exact (h.pcs r' run hr).mono (fun _ => rfl) (fun _ => id) (List.Subset.refl _) fun _ _ => id
  · exact (h.gone hg).mono (h.gone hg).deleting id fun _ => id

lemma Inv.begin (h : Inv enabled w) {a : ℕ} (hlock : w.deleteLock = some r)
    (hm : w.Marked mark) (hf : w.NoFold) (hoff : scene = false → enabled = false)
    (hsc : scene = false → w.content .scene = false) : Inv enabled (begin w r a mark scene) := by
  have hclean (hc : w.Clean) : (MapDelete.begin w r a mark scene).Clean :=
    hc.mono hc.deleting id fun _ => id
  have hscene : scene = true ∨ .scene ∉ steps scene := by
    cases scene
    · exact .inr (by decide)
    · exact .inl rfl
  refine h.moves hlock hlock rfl ?_ rfl rfl hclean rfl (Nat.le_succ _) rfl
  cases hsteps : steps scene with
  | nil => cases scene <;> cases hsteps
  | cons s rest =>
    refine ⟨hm, hf, hoff, fun _ => ⟨fun x hx hrest => absurd (hsteps ▸ hx) hrest, fun hrest => ?_⟩⟩
    refine hsc ?_
    cases scene
    · rfl
    · cases hsteps
      exact absurd mem_cons_self hrest

lemma World.NoFold.closeScene (h : w.NoFold) (r : ℕ) : (w.closeScene r).NoFold := by
  refine (h.lock ?_ : World.NoFold { w with sceneLock := (w.closeScene r).sceneLock })
  unfold World.closeScene
  dsimp only
  split
  · exact .inl rfl
  · exact .inr (.inl rfl)

lemma Inv.answered (h : Inv enabled w) {a : ℕ}
    (hlock : w.deleteLock = some r) (hm : w.Marked mark) (hf : w.NoFold)
    (hoff : scene = false → enabled = false)
    (hdone : failed = false → (∀ x ∈ steps scene, x ∉ rest → (serial, mark, x) ∈ w.cleared) ∧
      (.scene ∉ rest → w.content .scene = false)) :
    Inv enabled (answered w r a mark serial scene rest failed) := by
  cases rest with
  | cons s rest =>
    have hclean (hc : w.Clean) : (w.setPc r a (.deleting mark serial scene s rest failed)).Clean :=
      hc.mono hc.deleting id fun _ => id
    exact h.moves hlock hlock rfl ⟨hm, hf, hoff, hdone⟩ rfl rfl hclean rfl le_rfl rfl
  | nil =>
    have hfold := hf.closeScene r
    have hclean {pc : Pc} (hc : w.Clean) : ((w.closeScene r).setPc r a pc).Clean :=
      hc.mono hc.deleting (fun h => h.closeScene r) fun _ => id
    refine h.moves hlock hlock rfl ?_ rfl rfl hclean rfl le_rfl rfl
    cases failed with
    | true => trivial
    | false =>
      obtain ⟨hclear, hsc⟩ := hdone rfl
      exact ⟨hm, hfold, hoff, fun x hx => hclear x hx not_mem_nil, hsc not_mem_nil⟩

lemma Inv.erase (h : Inv enabled w) (s : Store) : Inv enabled (w.erase s) := by
  refine h.others rfl rfl (fun _ => rfl) rfl rfl rfl (List.Subset.refl _) rfl (fun _ => id) ?_
  intro _ _ hsc
  by_cases hs : .scene = s
  · rw [World.erase, hs]
    exact update_self ..
  · exact (update_of_ne hs _ _).trans hsc

lemma Inv.deleteStore (h : Inv enabled w) {a : ℕ} {s : Store} (hlock : w.deleteLock = some r)
    (hgood : Good enabled w (.deleting mark serial scene s rest failed))
    (hstep : stepRunner m enabled w r ⟨a, .deleting mark serial scene s rest failed⟩
      (.deleteStore r takes ok) = some w') : Inv enabled w' := by
  obtain ⟨hm, hf, hoff, hdone⟩ := hgood
  obtain ⟨inc, hrow⟩ := hm
  have hfailed {v : World} (hv : Inv enabled v) (hl : v.deleteLock = some r) (hr : v.row = w.row)
      (hfv : v.NoFold) : Inv enabled (MapDelete.answered v r a mark serial scene rest true) :=
    hv.answered hl ⟨inc, hr.trans hrow⟩ hfv hoff fun he => (nomatch he)
  cases ok with
  | false =>
    cases takes with
    | false =>
      cases hstep
      exact hfailed h hlock rfl hf
    | true =>
      cases hstep
      exact hfailed (h.erase s) hlock rfl hf
  | true =>
    cases takes with
    | false => cases hstep
    | true =>
      have hlog : Inv enabled { w.erase s with cleared := (serial, mark, s) :: w.cleared } :=
        (h.erase s).others rfl rfl (fun _ => rfl) rfl rfl rfl (subset_cons_self _ _) rfl
          (fun _ => id) fun _ _ => id
      unfold stepRunner at hstep
      dsimp only at hstep
      rw [if_pos rfl, if_pos rfl, if_pos rfl] at hstep
      have hrow' : (w.erase s).row = some ⟨inc, some mark⟩ := hrow
      split at hstep
      case h_2 hnone => exact absurd hrow' (hnone inc mark)
      rename_i inc' mark' hcur
      cases hrow'.symm.trans hcur
      cases hstep
      refine hlog.answered hlock ⟨inc, hrow⟩ hf hoff fun he => ?_
      obtain ⟨hclear, hsc⟩ := hdone he
      refine ⟨fun x hx hrest => ?_, fun hrest => ?_⟩
      · by_cases hxs : x = s
        · rw [hxs]
          exact mem_cons_self
        · exact mem_cons_of_mem _ (hclear x hx fun hm => (mem_cons.mp hm).elim hxs hrest)
      · by_cases hs : .scene = s
        · rw [hs]
          exact update_self ..
        · exact (update_of_ne hs _ _).trans (hsc fun hm => (mem_cons.mp hm).elim hs hrest)

lemma remove_endRunner (w : World) (r : ℕ) (emitted : Bool) :
    (remove w emitted).endRunner r = remove (w.endRunner r) emitted := by
  have hrow : (w.endRunner r).row = w.row := rfl
  unfold remove
  rw [hrow]
  split <;> rfl

lemma Inv.remove (h : Inv enabled w) (hidle : ∀ r run, w.runners r = some run → run.pc = .connecting)
    (hf : w.NoFold) (hsc : w.content .scene = false) (emitted : Bool) : Inv enabled (remove w emitted) := by
  unfold MapDelete.remove
  split
  case h_2 => exact h
  rename_i inc mark hrow
  obtain ⟨hinc, hfresh⟩ := h.row _ hrow
  refine ⟨fun r run hr hpc => absurd (hidle r run hr) hpc, fun r run hr => ?_, h.off,
    fun _ => ⟨rfl, hf, hsc⟩, fun _ hr => (nomatch hr), fun i hi => ?_, ?_⟩
  · rw [hidle r run hr]
    trivial
  · dsimp only at hi
    split at hi
    · rcases mem_cons.mp hi with rfl | hi
      · exact hinc
      · exact h.born i hi
    · exact h.born i hi
  · dsimp only
    split
    · exact nodup_cons.mpr ⟨hfresh, h.once⟩
    · exact h.once

lemma Inv.newRow (h : Inv enabled w) (hdel : w.deleting = false) {inc : ℕ} {req : Option ℕ} {g : Bool}
    (hinc : inc ≤ w.next) (hev : inc ∉ w.deletedEvents)
    (hg : g = true → w.gone = true ∧ req.isSome = true) :
    Inv enabled { w with row := some ⟨inc, req⟩, next := w.next + 1, gone := g } := by
  refine ⟨h.round, fun r run hr => ?_, h.off, fun he => ?_, fun row hr => ?_,
    fun i hi => (h.born i hi).trans (Nat.lt_succ_self _), h.once⟩
  · refine (h.pcs r run hr).mono (fun hd => ?_) (fun _ => id) (List.Subset.refl _) fun _ _ => id
    rw [hdel] at hd
    cases hd
  · obtain ⟨hgone, hreq⟩ := hg he
    exact (h.gone hgone).mono hreq id fun _ => id
  · cases hr
    exact ⟨Nat.lt_succ_of_le hinc, hev⟩

lemma Inv.spawn (h : Inv enabled w) (r : ℕ) : Inv enabled (w.setPc r 0 .connecting) := by
  have hother {r' : ℕ} {run : Runner} (hr : (w.setPc r 0 .connecting).runners r' = some run) :
      run.pc = .connecting ∨ w.runners r' = some run := by
    rw [World.setPc] at hr
    dsimp only at hr
    by_cases hne : r' = r
    · rw [hne, update_self] at hr
      cases hr
      exact .inl rfl
    · rw [update_of_ne hne] at hr
      exact .inr hr
  refine ⟨fun r' run hr hpc => ?_, fun r' run hr => ?_, h.off, fun hg => ?_, h.row, h.born, h.once⟩
  · exact h.round r' run ((hother hr).resolve_left hpc) hpc
  · rcases hother hr with hpc | hr
    · rw [hpc]
      trivial
    · exact (h.pcs r' run hr).mono (fun _ => rfl) (fun _ => id) (List.Subset.refl _) fun _ _ => id
  · exact (h.gone hg).mono (h.gone hg).deleting id fun _ => id

lemma Inv.runner (h : Inv enabled w) (hrun : w.runners r = some run)
    (hstop : ∀ r', a = .stop r' → ∀ mark serial scene s rest failed, run.pc ≠ .deleting mark serial scene s rest failed)
    (hstep : stepRunner m enabled w r run a = some w') : Inv enabled w' := by
  obtain ⟨n, pc⟩ := run
  have hgood := h.pcs r _ hrun
  have hround := h.round r _ hrun
  have hmove {n' : ℕ} {pc' : Pc} (hne : pc ≠ .connecting) (hg : Good enabled w pc') :
      Inv enabled (w.setPc r n' pc') :=
    h.moves (hround hne) (hround hne) rfl (hg.mono (fun _ => rfl) (fun _ => id) (List.Subset.refl _)
      fun _ _ => id) rfl rfl (fun hc => hc.mono hc.deleting id fun _ => id) rfl le_rfl rfl
  cases a <;> dsimp only [stepRunner] at hstep
  case tryLock =>
    split at hstep
    case h_2 => cases hstep
    split at hstep <;> cases hstep
    · exact h.lock ‹_›
    · exact h.endRunner r
  case load =>
    split at hstep
    case h_2 => cases hstep
    split at hstep <;> cases hstep
    · exact hmove (fun he => by cases he) ⟨_, ‹_›⟩
    · exact h.endRunner r
  case probe raises =>
    split at hstep
    case h_2 => cases hstep
    split at hstep <;> cases hstep
    · exact hmove (fun he => by cases he) hgood
    · rename_i mark hno
      obtain ⟨⟨-, hoff⟩, hsc⟩ : (raises = false ∧ enabled = false) ∧ w.content .scene = false := by
        simpa [Bool.or_eq_true, not_or] using hno
      have hf : w.NoFold := fun k hk => by
        rw [h.off hoff k] at hk
        rcases hk with hk | hk <;> cases hk
      exact h.begin (hround fun he => by cases he) hgood hf (fun _ => hoff) fun _ => hsc
  case takeSceneLock =>
    split at hstep
    case h_2 => cases hstep
    split at hstep <;> cases hstep
    have hf : World.NoFold { w with sceneLock := some (.runner r) } := fun _ _ he => by cases he
    have hlock : Inv enabled { w with sceneLock := some (.runner r) } :=
      h.others rfl rfl (fun _ => rfl) rfl rfl rfl (List.Subset.refl _) rfl (fun _ _ => hf) fun _ _ => id
    exact hlock.begin (hround fun he => by cases he) hgood hf (fun he => by cases he)
      fun he => by cases he
  case sceneLockFails busy =>
    split at hstep <;> cases hstep
    refine hmove (fun he => by cases he) ?_
    cases busy <;> trivial
  case deleteStore takes ok =>
    cases pc
    case deleting =>
      exact h.deleteStore (m := m) (hround fun he => by cases he) hgood hstep
    case orphan => exact hgood.elim
    all_goals cases hstep
  case finish emitted =>
    split at hstep <;> cases hstep
    obtain ⟨-, hf, -, -, hsc⟩ := hgood
    rw [remove_endRunner]
    have hend := h.endRunner r
    refine hend.remove (fun r' run hr => ?_) ?_ hsc emitted
    · by_contra hpc
      have hlock := hend.round r' run hr hpc
      rw [World.endRunner] at hlock
      dsimp only at hlock
      rw [hround (fun he => by cases he), if_pos rfl] at hlock
      cases hlock
    · exact hf.closeScene r
  case record =>
    split at hstep
    case h_2 => cases hstep
    split at hstep <;> cases hstep
    · exact hmove (fun he => by cases he) trivial
    · exact h.endRunner r
  case wake =>
    split at hstep <;> cases hstep
    exact hmove (fun he => by cases he) trivial
  case giveUp =>
    split at hstep <;> cases hstep
    exact h.endRunner r
  case crash =>
    cases hstep
    exact h.endRunner r
  case stop r' =>
    split at hstep
    · exact absurd rfl (hstop r' rfl _ _ _ _ _ _)
    · cases hstep
    · cases hstep
      exact h.endRunner r
  all_goals cases hstep

lemma World.NoFold.worker (h : w.NoFold) (k : ℕ)
    (hf : f = some .checked ∨ f = some .probed → x ≠ some (.worker k))
    (hx : ∀ k', k' ≠ k → x = some (.worker k') → w.sceneLock = some (.worker k')) :
    World.NoFold { w with workers := update w.workers k f, sceneLock := x, content := c } := by
  intro k' hk' hlock
  dsimp only at hk' hlock
  by_cases hne : k' = k
  · rw [hne, update_self] at hk'
    exact hf hk' (hne ▸ hlock)
  · rw [update_of_ne hne] at hk'
    exact h k' hk' (hx k' hne hlock)

lemma Inv.worker (h : Inv enabled w) (henabled : enabled = true)
    (hf : w.isDeleting = true → w.NoFold → f = some .checked ∨ f = some .probed → x ≠ some (.worker k))
    (hx : ∀ k', k' ≠ k → x = some (.worker k') → w.sceneLock = some (.worker k'))
    (hc : w.isDeleting = true → w.NoFold → w.content .scene = false → c .scene = false) :
    Inv enabled { w with workers := update w.workers k f, sceneLock := x, content := c } := by
  refine h.others rfl rfl (fun he => ?_) rfl rfl rfl (List.Subset.refl _) rfl
    (fun hd hn => hn.worker k (hf hd hn) hx) hc
  rw [henabled] at he
  cases he

lemma dropped (w : World) (k : ℕ) : ∀ k', k' ≠ k →
    (if w.sceneLock = some (.worker k) then none else w.sceneLock) = some (.worker k') → w.sceneLock = some (.worker k') := by
  intro k' _ he
  split at he
  · cases he
  · exact he

lemma Inv.stepWorker (h : Inv true w) (hsave : ∀ k', a = .save k' → w.sceneLock = some (.worker k))
    (hstep : stepWorker w k a = some w') : Inv true w' := by
  cases a <;> dsimp only [MapDelete.stepWorker] at hstep
  case acquire =>
    split at hstep <;> cases hstep
    refine h.worker rfl (fun _ _ hf => ?_) (fun k' hne he => ?_) fun _ _ => id
    · rcases hf with hf | hf <;> cases hf
    · exact absurd (Holder.worker.inj (Option.some.inj he)).symm hne
  case check =>
    split at hstep
    · cases hstep
    split at hstep <;> cases hstep
    · refine h.worker rfl (fun _ _ hf => ?_) (dropped w k) fun _ _ => id
      rcases hf with hf | hf <;> cases hf
    · exact h.worker rfl (fun hd => absurd hd ‹_›) (fun _ _ => id) fun _ _ => id
  case held =>
    split at hstep <;> cases hstep
    rename_i hchecked
    refine h.worker rfl (fun _ hn _ => ?_) (fun _ _ => id) fun _ _ => id
    exact hn k (.inl hchecked)
  case save k' =>
    split at hstep <;> cases hstep
    rename_i hprobed
    have hno (hn : w.NoFold) : False := hn k (.inr hprobed) (hsave k' rfl)
    exact h.worker rfl (fun _ hn => (hno hn).elim) (fun _ _ => id) fun _ hn => (hno hn).elim
  case release =>
    cases hstep
    refine h.worker rfl (fun _ _ hf => ?_) (dropped w k) fun _ _ => id
    rcases hf with hf | hf <;> cases hf
  all_goals cases hstep

lemma Inv.step (h : Inv enabled w) (ha : Held w a) (hstep : step m enabled w a = some w') :
    Inv enabled w' := by
  have hrunner {r : ℕ} (hs : ((w.runners r).bind fun run => stepRunner m enabled w r run a) = some w')
      (hstop : ∀ r', a = .stop r' → r' = r) : Inv enabled w' := by
    obtain ⟨run, hrun, hs⟩ := bind_eq_some_iff.mp hs
    refine h.runner hrun (fun r' he => ?_) hs
    subst he
    exact ha run (hstop r' rfl ▸ hrun)
  have hworker {k : ℕ} (hs : (if enabled = true then MapDelete.stepWorker w k a else none) = some w')
      (hsave : ∀ k', a = .save k' → w.sceneLock = some (.worker k)) : Inv enabled w' := by
    split at hs
    · rename_i he
      subst he
      exact h.stepWorker hsave hs
    · cases hs
  have hdel (hrow : ∀ inc mark, w.row ≠ some ⟨inc, some mark⟩) : w.deleting = false := by
    by_contra hd
    rw [World.deleting, Bool.not_eq_false, Option.any_eq_true] at hd
    obtain ⟨⟨inc, req⟩, hinc, hreq⟩ := hd
    obtain ⟨mark, rfl⟩ := isSome_iff_exists.mp hreq
    exact hrow inc mark hinc
  have hfresh : w.next ∉ w.deletedEvents := fun hm => (h.born _ hm).false
  cases a
  case create =>
    dsimp only [MapDelete.step] at hstep
    split at hstep <;> cases hstep
    rename_i hrow
    refine h.newRow (hdel fun inc mark he => ?_) le_rfl hfresh fun he => (nomatch he)
    rw [hrow] at he
    cases he
  case fill s =>
    dsimp only [MapDelete.step] at hstep
    split at hstep <;> cases hstep
    rename_i hs
    exact h.others rfl rfl (fun _ => rfl) rfl rfl rfl (List.Subset.refl _) rfl (fun _ => id)
      fun _ _ hsc => (update_of_ne (Ne.symm hs.1) _ _).trans hsc
  case request =>
    dsimp only [MapDelete.step] at hstep
    split at hstep <;> cases hstep
    · rename_i hrow
      refine h.newRow (hdel fun inc mark he => ?_) le_rfl hfresh fun hg => ⟨hg, rfl⟩
      rw [hrow] at he
      cases he
    · rename_i inc hrow
      obtain ⟨hinc, hev⟩ := h.row _ hrow
      refine h.newRow (hdel fun inc' mark he => ?_) hinc.le hev fun hg => ⟨hg, rfl⟩
      rw [hrow] at he
      cases he
    · exact h
  case spawn r =>
    dsimp only [MapDelete.step] at hstep
    split at hstep <;> cases hstep
    exact h.spawn r
  case dropDeleteLock =>
    cases hstep
    exact h.others rfl ha.symm (fun _ => rfl) rfl rfl rfl (List.Subset.refl _) rfl (fun _ => id)
      fun _ _ => id
  case dropSceneLock =>
    cases hstep
    exact h.others rfl rfl (fun _ => rfl) rfl rfl rfl (List.Subset.refl _) rfl
      (fun _ hn => hn.lock (.inl rfl)) fun _ _ => id
  case acquire k | check k | held k | release k => exact hworker hstep fun _ he => (nomatch he)
  case save k => exact hworker hstep fun _ _ => ha
  case stop r => exact hrunner hstep fun r' he => (Act.stop.inj he).symm
  all_goals exact hrunner hstep fun _ he => (nomatch he)

/-- A delete removes what was marked and nothing else: store deletes take effect while the row is
DELETING, the row goes only after an attempt whose every step succeeded under the row's mark, with
at most one MAP.DELETED, and nothing of the scene graph is there until the map is created again. -/
structure Precise (enabled : Bool) (w : World) (a : Act) (w' : World) : Prop where
  effect : ∀ r ok, a = .deleteStore r true ok → w.deleting = true
  erased : ∀ s, w.content s = true → w'.content s = false → w.deleting = true
  removed : w.row ≠ none → w'.row = none → ∃ inc mark serial scene, w.row = some ⟨inc, some mark⟩ ∧
    (scene = false → enabled = false) ∧ ∀ s ∈ steps scene, (serial, mark, s) ∈ w.cleared
  once : w'.deletedEvents.Nodup
  gone : w'.gone = true → w'.content .scene = false

lemma answered_row (w : World) (r n mark serial : ℕ) (scene : Bool) (rest : List Store) (failed : Bool) :
    (answered w r n mark serial scene rest failed).row = w.row ∧
      (answered w r n mark serial scene rest failed).content = w.content := by
  cases rest <;> exact ⟨rfl, rfl⟩

lemma remove_content (w : World) (emitted : Bool) : (remove w emitted).content = w.content := by
  unfold remove
  split <;> rfl

lemma stepRunner_frame (hstep : stepRunner m enabled w r run a = some w') :
    ((∀ r' e, a ≠ .finish r' e) → w'.row = w.row) ∧ ((∀ r' ok, a ≠ .deleteStore r' true ok) → w'.content = w.content) := by
  cases a <;> dsimp only [stepRunner] at hstep
  case deleteStore r' takes ok =>
    split at hstep
    · split at hstep
      · split at hstep
        · split at hstep <;> cases hstep
          · refine ⟨fun _ => (answered_row ..).1.trans ?_, fun h => (h r' ok ?_).elim⟩
            · cases takes <;> rfl
            · exact congrArg (fun t => Act.deleteStore r' t ok) ‹takes = true›
          · refine ⟨fun _ => (answered_row ..).1.trans ?_, fun h => (h r' ok ?_).elim⟩
            · cases takes <;> rfl
            · exact congrArg (fun t => Act.deleteStore r' t ok) ‹takes = true›
        · cases hstep
      · cases hstep
        cases takes with
        | false => exact ⟨fun _ => (answered_row ..).1, fun _ => (answered_row ..).2⟩
        | true => exact ⟨fun _ => (answered_row ..).1, fun h => (h r' ok rfl).elim⟩
    · cases hstep
      cases takes with
      | false => exact ⟨fun _ => rfl, fun _ => rfl⟩
      | true => exact ⟨fun _ => rfl, fun h => (h r' ok rfl).elim⟩
    · cases hstep
  case finish r' e =>
    split at hstep <;> cases hstep
    exact ⟨fun h => (h r' e rfl).elim, fun _ => remove_content w e⟩
  all_goals
    repeat' split at hstep
    all_goals cases hstep <;> exact ⟨fun _ => rfl, fun _ => rfl⟩

lemma stepWorker_frame (hstep : stepWorker w k a = some w') :
    w'.row = w.row ∧ ∀ s, w.content s = true → w'.content s = true := by
  cases a <;> dsimp only [stepWorker] at hstep
  case save k' =>
    split at hstep <;> cases hstep
    refine ⟨rfl, fun s hs => ?_⟩
    by_cases he : s = .scene
    · rw [he]
      exact update_self Store.scene true w.content
    · exact (update_of_ne he _ _).trans hs
  all_goals
    repeat' split at hstep
    all_goals cases hstep <;> exact ⟨rfl, fun _ => id⟩

lemma step_frame (hstep : step m enabled w a = some w') :
    ((∀ r e, a ≠ .finish r e) → w.row ≠ none → w'.row ≠ none) ∧
      ((∀ r ok, a ≠ .deleteStore r true ok) → ∀ s, w.content s = true → w'.content s = true) := by
  have hrunner {r : ℕ} (hs : ((w.runners r).bind fun run => stepRunner m enabled w r run a) = some w') :
      ((∀ r e, a ≠ .finish r e) → w.row ≠ none → w'.row ≠ none) ∧
        ((∀ r ok, a ≠ .deleteStore r true ok) → ∀ s, w.content s = true → w'.content s = true) := by
    obtain ⟨run, -, hs⟩ := bind_eq_some_iff.mp hs
    obtain ⟨hrow, hcontent⟩ := stepRunner_frame hs
    refine ⟨fun hf => ?_, fun hd s hc => ?_⟩
    · rw [hrow hf]
      exact id
    · rw [hcontent hd]
      exact hc
  have hworker {k : ℕ} (hs : (if enabled = true then stepWorker w k a else none) = some w') :
      ((∀ r e, a ≠ .finish r e) → w.row ≠ none → w'.row ≠ none) ∧
        ((∀ r ok, a ≠ .deleteStore r true ok) → ∀ s, w.content s = true → w'.content s = true) := by
    split at hs
    · obtain ⟨hrow, hcontent⟩ := stepWorker_frame hs
      refine ⟨fun _ => ?_, fun _ => hcontent⟩
      rw [hrow]
      exact id
    · cases hs
  cases a
  case create =>
    dsimp only [step] at hstep
    split at hstep <;> cases hstep
    exact ⟨fun _ _ he => (nomatch he), fun _ _ => id⟩
  case fill s =>
    dsimp only [step] at hstep
    split at hstep <;> cases hstep
    refine ⟨fun _ => id, fun _ s' hc => ?_⟩
    by_cases he : s' = s
    · rw [he]
      exact update_self s true w.content
    · exact (update_of_ne he _ _).trans hc
  case request =>
    dsimp only [step] at hstep
    split at hstep <;> cases hstep
    · exact ⟨fun _ _ he => (nomatch he), fun _ _ => id⟩
    · exact ⟨fun _ _ he => (nomatch he), fun _ _ => id⟩
    · exact ⟨fun _ => id, fun _ _ => id⟩
  case spawn r =>
    dsimp only [step] at hstep
    split at hstep <;> cases hstep
    exact ⟨fun _ => id, fun _ _ => id⟩
  case dropDeleteLock | dropSceneLock =>
    cases hstep
    exact ⟨fun _ => id, fun _ _ => id⟩
  case acquire | check | held | save | release => exact hworker hstep
  all_goals exact hrunner hstep

lemma Inv.effect (h : Inv enabled w)
    (hstep : MapDelete.step m enabled w (.deleteStore r takes ok) = some w') : w.deleting = true := by
  obtain ⟨⟨n, pc⟩, hrun, hs⟩ := bind_eq_some_iff.mp hstep
  have hgood := h.pcs r _ hrun
  cases pc
  case deleting => exact World.Marked.deleting hgood.1
  case orphan => exact hgood.elim
  all_goals cases hs

lemma Inv.precise (h : Inv enabled w) (ha : Held w a)
    (hstep : MapDelete.step m enabled w a = some w') : Precise enabled w a w' := by
  have hnext := h.step ha hstep
  obtain ⟨hrow, hcontent⟩ := step_frame hstep
  refine ⟨fun r ok he => ?_, fun s hs hs' => ?_, fun hsome hnone => ?_, hnext.once, fun hg => (hnext.gone hg).scene⟩
  · subst he
    exact h.effect hstep
  · by_cases hd : ∃ r ok, a = .deleteStore r true ok
    · obtain ⟨r, ok, rfl⟩ := hd
      exact h.effect hstep
    · push Not at hd
      rw [hcontent hd s hs] at hs'
      cases hs'
  · by_cases hf : ∃ r e, a = .finish r e
    · obtain ⟨r, e, rfl⟩ := hf
      obtain ⟨⟨n, pc⟩, hrun, hs⟩ := bind_eq_some_iff.mp hstep
      have hgood := h.pcs r _ hrun
      cases pc
      case finishing mark serial scene =>
        obtain ⟨⟨inc, hinc⟩, -, hoff, hclear, -⟩ := hgood
        exact ⟨inc, mark, serial, scene, hinc, hoff, hclear⟩
      all_goals cases hs
    · push Not at hf
      exact absurd hnone (hrow hf hsome)

/-- While every lock is lost only with the work under it, a map delete is precise. -/
theorem deletes_only_marked (h : Runs (step m enabled) Held World.empty w) {a : Act} (ha : Held w a)
    (hstep : step m enabled w a = some w') : Precise enabled w a w' :=
  (h.invariant Inv.empty fun _ _ _ hc hi hs => hi.step hc hs).precise ha hstep

/-- `Held` as a test. -/
def heldTest (w : World) : Act → Bool
  | .dropDeleteLock => w.deleteLock.isNone
  | .stop r => (w.runners r).all fun run => match run.pc with
    | .deleting _ _ _ _ _ _ => false
    | _ => true
  | .save k => decide (w.sceneLock = some (.worker k))
  | _ => true

lemma heldTest_sound (w : World) (a : Act) (h : heldTest w a = true) : Held w a := by
  cases a
  case dropDeleteLock => exact isNone_iff_eq_none.mp h
  case stop r =>
    intro run hrun mark serial scene s rest failed hpc
    rw [heldTest, hrun, all_some, hpc] at h
    cases h
  case save k => exact (decide_eq_true_iff (p := w.sceneLock = some (.worker k))).mp h
  all_goals trivial

/-- A map with a scene graph, saved by a worker that keeps its lock while the delete starts. -/
def deleteActs : List Act :=
  [.create, .fill .graph, .fill .images, .acquire 0, .check 0, .held 0, .save 0, .request, .spawn 0,
    .spawn 1, .tryLock 0, .load 0, .probe 0 false, .check 0, .takeSceneLock 0, .deleteStore 0 true true,
    .deleteStore 0 true false, .deleteStore 0 true true, .record 0, .dropSceneLock, .wake 0, .load 0,
    .probe 0 false, .takeSceneLock 0, .deleteStore 0 true true, .deleteStore 0 true true,
    .deleteStore 0 true true]

theorem deletes_only_marked_full : ∃ w w', Runs (step 3 true) Held World.empty w ∧
    step 3 true w (.finish 0 true) = some w' ∧ w'.gone = true ∧ w'.deletedEvents = [0] ∧
    Precise true w (.finish 0 true) w' := by
  obtain ⟨w, hw, hend⟩ := Runs.of_play_any (P := fun w => (step 3 true w (.finish 0 true)).any fun w' : World =>
      w'.gone && decide (w'.deletedEvents = [0])) heldTest_sound
    (show (play (step 3 true) heldTest World.empty deleteActs).any _ = true by decide)
  obtain ⟨w', hstep, hgone⟩ := (any_eq_true _ _).mp hend
  rw [Bool.and_eq_true] at hgone
  exact ⟨w, w', hw, hstep, hgone.1, of_decide_eq_true hgone.2, deletes_only_marked hw trivial hstep⟩

/-- The first runner's lock connection drops while it deletes; a second runner finishes, and the map
is created again. -/
def lostActs : List Act :=
  [.create, .fill .graph, .request, .spawn 0, .tryLock 0, .load 0, .probe 0 false, .dropDeleteLock, .spawn 1,
    .tryLock 1, .load 1, .probe 1 false, .deleteStore 1 true true, .deleteStore 1 true true,
    .finish 1 true, .create, .fill .graph]

/-- The first runner's delete then takes the new map's graph. -/
theorem live_graph_deleted : ¬ ∀ (m : ℕ) (enabled : Bool) (w w' : World) (a : Act),
    Runs (step m enabled) (fun _ _ => True) World.empty w → step m enabled w a = some w' →
      Precise enabled w a w' := by
  intro hall
  obtain ⟨w, hw, hend⟩ := Runs.of_play_any (P := fun w => !w.deleting &&
      (step 3 false w (.deleteStore 0 true false)).isSome) (fun _ _ _ => trivial)
    (show (play (step 3 false) (fun _ _ => true) World.empty lostActs).any _ = true by decide)
  rw [Bool.and_eq_true] at hend
  obtain ⟨w', hstep⟩ := isSome_iff_exists.mp hend.2
  have hmarked := (hall 3 false w w' _ hw hstep).effect 0 false rfl
  rw [hmarked] at hend
  cases hend.1

/-- While every lock is lost only with the work under it, one runner at a time is past its
connection, and no delete is announced for a map that is there. -/
theorem one_runner_deletes (h : Runs (step m enabled) Held World.empty w) :
    (∀ r r' run run', w.runners r = some run → w.runners r' = some run' → run.pc ≠ .connecting →
      run'.pc ≠ .connecting → r = r') ∧ ∀ row, w.row = some row → row.inc ∉ w.deletedEvents := by
  have hI := h.invariant Inv.empty fun _ _ _ hc hi hs => hi.step hc hs
  refine ⟨fun r r' run run' hr hr' hp hp' => ?_, fun row hrow => (hI.row row hrow).2⟩
  exact Option.some.inj ((hI.round r run hr hp).symm.trans (hI.round r' run' hr' hp'))

theorem one_runner_deletes_full : ∃ w, Runs (step 3 true) Held World.empty w ∧
    (w.runners 0).isSome ∧ (w.runners 1).isSome ∧ ∀ run run', w.runners 0 = some run →
      w.runners 1 = some run' → run.pc ≠ .connecting → run'.pc = .connecting := by
  obtain ⟨w, hw, hend⟩ := Runs.of_play_any heldTest_sound (show (play (step 3 true) heldTest World.empty
    deleteActs).any (fun w => (w.runners 0).isSome && (w.runners 1).isSome) = true by decide)
  obtain ⟨h0, h1⟩ := Bool.and_eq_true_iff.mp hend
  refine ⟨w, hw, h0, h1, fun run run' hr hr' hp => ?_⟩
  by_contra hp'
  exact absurd ((one_runner_deletes hw).1 0 1 run run' hr hr' hp hp') (by decide)

end CloudServer.MapDelete
