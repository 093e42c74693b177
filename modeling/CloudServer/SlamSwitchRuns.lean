import CloudServer.SlamSwitch

/-! When the SLAM switch never forgets or mixes up an unsaved map. -/
namespace CloudServer.SlamSwitch
open Steps List Option

variable {μ : Type}

def Outside.keeps : Outside μ → Bool
  | .persisting _ _ row | .ending _ row | .reload row => row.isSome
  | _ => true

/-- The call under the lock has made the robot leave slam mode, or found it so. -/
def Held.left : Held μ → Bool
  | .saved _ _ | .restored | .clearing _ => true
  | _ => false

def Outside.recovers : Outside μ → Bool
  | .load | .loaded (some _) => true
  | _ => false

structure Known (w : World μ) : Prop where
  stored : w.robot.isSome → w.row.isSome ∨ w.unstored = true
  known : w.robot.isSome → w.slamState.isSome ∨ (∃ m, w.held = some (.switched m)) ∨
    ∃ t ∈ w.outside, t.recovers = true
  own : ∀ m, w.held = some (.switched m) → w.robot = some m
  storing : ∀ m row, w.held = some (.storing m row) →
    w.robot = some m ∧ row.isSome ∧ w.slamState.isSome
  left : ∀ h, w.held = some h → h.left = true → w.robot = none
  kept : ∀ t ∈ w.outside, t.keeps = false → w.robot = none ∧ ∃ id, t.saveId = some id
  pending : w.slamTask.isSome → w.robot.isSome → w.slamState.isSome
  alone : w.starting = true → w.slamTask = none

/-- Of a careful run: the save that is under way, if there is one, is the one that is remembered. -/
structure Inv (w : World μ) : Prop extends Known w where
  saves : w.saves.Perm w.slamTask.toList

lemma Inv.empty : Inv (World.empty : World μ) := by
  refine ⟨⟨?_, ?_, ?_, ?_, ?_, ?_, ?_, ?_⟩, .refl _⟩ <;> simp [World.empty]

variable {t : Outside μ} {x : Held μ}
variable {id : ℕ} {m : μ} {row : Option (Row μ)} {s : Option (Slam μ)}

section
variable {w w' : World μ}

lemma Inv.no_save (h : Inv w) (ht : w.slamTask = none) : w.saves = [] := by
  have := h.saves
  rw [ht] at this
  exact perm_nil.mp this

lemma Known.row_of (h : Known w) (hu : w.unstored = false) (hr : w.robot.isSome) : w.row.isSome :=
  (h.stored hr).resolve_right (by rw [hu]; exact Bool.false_ne_true)

lemma starting_outside (h : w.outside.any Outside.starts = true) : w.starting = true :=
  Bool.or_eq_true_iff.mpr (.inr h)

lemma starting_held (hx : w.held = some x) (hs : x.starts = true) :
    w.starting = true := by
  unfold World.starting
  rw [hx]
  exact Bool.or_eq_true_iff.mpr (.inl hs)

lemma Known.reheld (h : Known w) (hu : w.unstored = false) (x : Option (Held μ)) (p : Bool)
    (hxu : x.any Held.unstored = false) (hxl : ∀ y, x = some y → y.left = true → w.robot = none)
    (hxa : x.any Held.starts = true → w.starting = true) :
    Known { w with held := x, prevIntent := p } := by
  have hno : ∀ y, x = some y → y.unstored = false := by
    rintro y rfl
    exact hxu
  refine ⟨fun hr => .inl (h.row_of hu hr), fun hr => ?_, fun m hm => ?_, fun m row hm => ?_, hxl,
    h.kept, h.pending, fun ha => h.alone ?_⟩
  · rcases h.known hr with hs | ⟨m, hm⟩ | hl
    · exact .inl hs
    · rw [World.unstored, hm] at hu
      cases hu
    · exact .inr (.inr hl)
  · cases hno _ hm
  · cases hno _ hm
  · rcases Bool.or_eq_true_iff.mp ha with ha | ha
    · exact hxa ha
    · exact starting_outside ha

lemma Known.leaves (h : Known w) (x : Held μ) (hxu : x.unstored = false) (hxa : x.starts = false) :
    Known { w with robot := none, held := some x } := by
  refine ⟨fun hr => (nomatch hr), fun hr => (nomatch hr), fun m hm => ?_, fun m row hm => ?_,
    fun _ _ _ => rfl, fun t ht hk => ⟨rfl, (h.kept t ht hk).2⟩, fun _ hr => (nomatch hr),
    fun ha => h.alone (starting_outside ?_)⟩
  · cases hm
    cases hxu
  · cases hm
    cases hxu
  · unfold World.starting at ha
    simpa only [any_some, hxa, Bool.false_or] using ha

lemma persisted_none {prev : Bool} (h : (persisted s prev).isSome = false) :
    s = none := by
  cases s with
  | none => rfl
  | some s => cases h

lemma Known.saveDone (h : Known w) (hx : w.held = some x)
    (hid : x.saveId = some id) (s : Option (Slam μ)) (prev : Bool) (hs : s = none → w.robot = none) :
    Known (w.saveDone id s prev) := by
  have hun : w.unstored = false := by
    unfold World.unstored
    rw [hx]
    cases x <;> simp_all [Held.saveId, Held.unstored]
  have hsome : w.robot.isSome → s.isSome := by
    intro hr
    cases s with
    | none =>
      rw [hs rfl] at hr
      cases hr
    | some s => rfl
  refine ⟨fun hr => .inl (h.row_of hun hr), fun hr => .inl (hsome hr), fun _ hm => (nomatch hm),
    fun _ _ hm => (nomatch hm), fun _ hm => (nomatch hm), fun t ht hk => ?_, fun _ => hsome,
    fun ha => h.alone (starting_outside ?_)⟩
  · rcases mem_cons.mp ht with rfl | ht
    · exact ⟨hs (persisted_none hk), id, rfl⟩
    · exact h.kept t ht hk
  · simpa [World.starting, World.saveDone, Outside.starts] using ha

lemma Known.joins (h : Known w) (t : Outside μ) (hk : t.keeps = true)
    (ha : t.starts = true → w.slamTask = none) : Known { w with outside := t :: w.outside } := by
  refine ⟨h.stored, fun hr => ?_, h.own, h.storing, h.left, fun t' ht' hk' => ?_, h.pending,
    fun ha' => ?_⟩
  · rcases h.known hr with h₁ | h₁ | ⟨t', ht', hr'⟩
    · exact .inl h₁
    · exact .inr (.inl h₁)
    · exact .inr (.inr ⟨t', .tail _ ht', hr'⟩)
  · rcases mem_cons.mp ht' with rfl | ht'
    · rw [hk] at hk'
      cases hk'
    · exact h.kept t' ht' hk'
  · unfold World.starting at ha'
    rw [any_cons] at ha'
    by_cases hts : t.starts = true
    · exact ha hts
    · refine h.alone ?_
      unfold World.starting
      rw [Bool.not_eq_true] at hts
      rw [hts, Bool.false_or] at ha'
      exact ha'

lemma Known.scheduled (h : Known w) (m : μ) (hstart : w.starting = false) :
    Known { w with
      slamState := some ⟨some m, .saving⟩
      slamTask := some w.next
      outside := .save w.next m :: w.outside
      next := w.next + 1 } := by
  refine ⟨h.stored, fun _ => .inl rfl, h.own, fun m row hm => ?_, h.left, fun t ht hk => ?_,
    fun _ _ => rfl, fun ha => ?_⟩
  · obtain ⟨hr, hrow, _⟩ := h.storing m row hm
    exact ⟨hr, hrow, rfl⟩
  · rcases mem_cons.mp ht with rfl | ht
    · cases hk
    · exact h.kept t ht hk
  · unfold World.starting at hstart ha
    rw [any_cons] at ha
    have : Outside.starts (.save w.next m) = false := rfl
    rw [this, Bool.false_or, hstart] at ha
    cases ha

lemma Inv.no_saveId (h : Inv w) (hstart : w.starting = true) (ht : t ∈ w.outside) :
    t.saveId = none := by
  have hsave := h.no_save (h.alone hstart)
  unfold World.saves at hsave
  rw [append_eq_nil_iff, filterMap_eq_nil_iff] at hsave
  exact hsave.2 t ht

lemma Inv.switches (h : Inv w) (hx : w.held = some (.put m)) :
    Known { w with robot := some m, held := some (.switched m) } := by
  have hstart := starting_held hx rfl
  have hno := h.alone hstart
  refine ⟨fun _ => .inr rfl, fun _ => .inr (.inl ⟨m, rfl⟩), fun n hn => ?_, fun n row hn => ?_,
    fun y hy hl => ?_, fun t ht hk => ?_, fun hs => ?_, fun _ => hno⟩
  · cases hn
    rfl
  · cases hn
  · cases hy
    cases hl
  · obtain ⟨-, id, hid⟩ := h.kept t ht hk
    rw [h.no_saveId hstart ht] at hid
    cases hid
  · dsimp only at hs
    rw [hno] at hs
    cases hs

lemma Known.records (h : Known w) (hx : w.held = some (.switched m)) :
    Known { w with
      prevIntent := true
      slamState := some ⟨some m, .recording⟩
      held := some (.storing m (persisted (some ⟨some m, .recording⟩) true)) } := by
  have hstart := starting_held hx rfl
  refine ⟨fun _ => .inr rfl, fun _ => .inl rfl, fun n hn => ?_, fun n row hn => ?_, fun y hy hl => ?_,
    h.kept, fun _ _ => rfl, fun _ => h.alone hstart⟩
  · cases hn
  · cases hn
    exact ⟨h.own m hx, rfl, rfl⟩
  · cases hy
    cases hl

lemma Known.stores (h : Known w) (hrow : w.robot.isSome → row.isSome ∧ w.slamState.isSome) :
    Known { w.release with row := row } := by
  refine ⟨fun hr => .inl (hrow hr).1, fun hr => .inl (hrow hr).2, fun _ hm => (nomatch hm),
    fun _ _ hm => (nomatch hm), fun _ hm => (nomatch hm), h.kept, h.pending,
    fun ha => h.alone (starting_outside ha)⟩

lemma Known.restarts (h : Known w) (hu : w.unstored = false) :
    Known { w with
      slamState := none
      prevIntent := false
      slamTask := none
      held := none
      outside := [.load] } := by
  refine ⟨fun hr => .inl (h.row_of hu hr), fun _ => .inr (.inr ⟨.load, .head _, rfl⟩),
    fun _ hm => (nomatch hm), fun _ _ hm => (nomatch hm), fun _ hm => (nomatch hm),
    fun t ht hk => ?_, fun hs => (nomatch hs), fun _ => rfl⟩
  obtain rfl := mem_singleton.mp ht
  cases hk

lemma Known.keeps_of_robot (h : Known w) (ht : t ∈ w.outside)
    (hrob : w.robot.isSome) : t.keeps = true := by
  by_contra hk
  rw [Bool.not_eq_true] at hk
  rw [(h.kept t ht hk).1] at hrob
  cases hrob

lemma Known.releases (h : Known w) (hx : w.held = some x) (hu : x.unstored = false)
    (p : Bool) : Known { w with held := none, prevIntent := p } :=
  h.reheld (by rw [World.unstored, hx]; exact hu) none p rfl (fun _ hy => (nomatch hy))
    (fun ha => (nomatch ha))

variable {y : Held μ}

lemma Known.goesOn (h : Known w) (hx : w.held = some x) (hu : x.unstored = false)
    (ha : x.starts = true) (hyu : y.unstored = false) (hyl : y.left = false) :
    Known { w with held := some y } := by
  refine h.reheld (by rw [World.unstored, hx]; exact hu) (some y) w.prevIntent hyu
    (fun z hz hl => ?_) (fun _ => starting_held hx ha)
  cases hz
  rw [hyl] at hl
  cases hl

lemma Known.saveResult (h : Known w) (switched : Bool)
    (hx : w.held = some x) (hid : x.saveId = some id) (hsw : switched = true → w.robot = none)
    {a : SaveAnswer} (hw : w.saveResult id m switched a = some w') : Known w' := by
  cases a with
  | saved =>
    unfold World.saveResult at hw
    dsimp only at hw
    split at hw
    · rename_i hs
      cases hw
      exact h.saveDone hx hid none false fun _ => hsw hs
    · cases hw
  | nothing =>
    unfold World.saveResult at hw
    dsimp only at hw
    split at hw
    · rename_i hs
      cases hw
      exact h.saveDone hx hid none false fun _ => isNone_iff_eq_none.mp hs
    · cases hw
  | notice | failed =>
    cases hw
    exact h.saveDone hx hid _ _ fun hs => (nomatch hs)

lemma Known.restored (h : Known w) (hx : w.held = some .restored) :
    Known { w with
      prevIntent := false
      slamState := none
      held := some (.clearing (persisted none false)) } := by
  have hrob := h.left _ hx rfl
  refine ⟨fun hr => ?_, fun hr => ?_, fun m hm => (nomatch hm), fun m row hm => (nomatch hm),
    fun _ _ _ => hrob, h.kept, fun _ hr => ?_, fun ha => h.alone (starting_outside ha)⟩
  all_goals
    dsimp only at hr
    rw [hrob] at hr
    cases hr

lemma Known.busy (h : Known w) (hidle : w.Idle) (hrob : w.robot.isSome) : w.slamBusy ≠ none := by
  unfold World.slamBusy
  split
  · exact some_ne_none _
  rcases h.known hrob with hs | ⟨m, hm⟩ | ⟨t, ht, -⟩
  · rw [ne_eq, map_eq_none_iff]
    exact isSome_iff_ne_none.mp hs
  · rw [hidle.1] at hm
    cases hm
  · rw [hidle.2] at ht
    cases ht

end

section
variable [DecidableEq μ] {w w' : World μ}

lemma saves_perm (h : t ∈ w.outside) :
    w.saves.Perm ((w.held.bind Held.saveId).toList ++ (t.saveId.toList ++ (w.outside.erase t).filterMap Outside.saveId)) := by
  unfold World.saves
  refine List.Perm.append_left _ ?_
  have := (perm_cons_erase h).filterMap Outside.saveId
  cases ht : t.saveId <;> simpa [ht] using this

/-- What a step does to the saves under way and to the one that is remembered. -/
inductive Saves (a : Act μ) (w w' : World μ) : Prop
  | same (saves : w'.saves.Perm w.saves) (task : w'.slamTask = w.slamTask) (next : w'.next = w.next)
  | scheduled (m : μ) (act : a = .schedule m) (saves : w'.saves.Perm (w.next :: w.saves))
      (task : w'.slamTask = some w.next) (next : w'.next = w.next + 1)
  | ended (id : ℕ) (saves : w.saves.Perm (id :: w'.saves))
      (task : w'.slamTask = if w.slamTask = some id then none else w.slamTask)
      (next : w'.next = w.next)
  | forgotten (saves : w'.saves = []) (task : w'.slamTask = none)

variable {a : Act μ} {ans : Option (μ × Status)} {t' : Outside μ}

lemma moved_saves (ht : t ∈ w.outside) (hs : t'.saveId = t.saveId) :
    ((w.held.bind Held.saveId).toList ++
      (t' :: w.outside.erase t).filterMap Outside.saveId).Perm w.saves := by
  refine .trans (.append_left _ ?_) (saves_perm ht).symm
  rw [← hs]
  cases hid : t'.saveId <;> simp [hid]

lemma advance_saves (ht : t ∈ w.outside) (hw : advance w t = some w') :
    Saves a w w' := by
  cases t <;> cases hw
  case save id m => exact .same (moved_saves ht rfl) rfl rfl
  case persisting id m row => exact .same (moved_saves ht rfl) rfl rfl
  case ending id row => exact .ended id ((saves_perm ht).trans perm_middle) rfl rfl
  case load => exact .same (moved_saves ht rfl) rfl rfl
  case loaded row =>
    cases row with
    | none => exact .same (saves_perm ht).symm rfl rfl
    | some r =>
      unfold World.takeOver
      dsimp only
      split <;> exact .same (saves_perm ht).symm rfl rfl
  case reload row => exact .same (saves_perm ht).symm rfl rfl

omit [DecidableEq μ] in
lemma Saves.of_held {y : Option (Held μ)} {robot : Option μ}
    {p : Bool} (hx : w.held = some x) (hy : y.bind Held.saveId = x.saveId) :
    Saves a w ⟨robot, row, s, p, w.slamTask, y, w.outside, w.next⟩ := by
  refine .same (.of_eq ?_) rfl rfl
  unfold World.saves
  rw [hx, hy]
  rfl

omit [DecidableEq μ] in
lemma saveResult_saves {a' : Act μ} (switched : Bool) (hx : w.held = some x)
    (hid : x.saveId = some id) {a : SaveAnswer} (hw : w.saveResult id m switched a = some w') :
    Saves a' w w' := by
  have hdone (s : Option (Slam μ)) (prev : Bool) : Saves a' w (w.saveDone id s prev) := by
    refine .same (.of_eq ?_) rfl rfl
    simp [World.saves, World.saveDone, hx, hid, Outside.saveId]
  cases a <;> dsimp only [World.saveResult] at hw
  case saved | nothing =>
    split at hw <;> cases hw
    exact hdone ..
  case notice | failed =>
    cases hw
    exact hdone ..

lemma stepAnswer_saves (hw : stepAnswer w a = some (w', ans)) : Saves a w w' := by
  cases a <;> dsimp only [stepAnswer] at hw
  case schedule m =>
    cases hw
    exact .scheduled m rfl perm_middle rfl rfl
  case restart =>
    cases hw
    exact .forgotten rfl rfl
  case start m => split_ifs at hw <;> cases hw <;> exact .same (.refl _) rfl rfl
  case discard =>
    split_ifs at hw
    cases hw
    exact .same (.refl _) rfl rfl
  case lock t =>
    split_ifs at hw with ht
    obtain ⟨x, hx, ⟨⟩⟩ := map_eq_some_iff.mp hw
    refine .same (.trans (.of_eq ?_) (saves_perm ht.2).symm) rfl rfl
    unfold World.saves
    rw [ht.1]
    cases t <;> cases hx <;> rfl
  case run t =>
    split_ifs at hw with ht
    obtain ⟨v, hv, ⟨⟩⟩ := map_eq_some_iff.mp hw
    exact advance_saves ht hv
  case saveAnswer a =>
    split at hw
    · obtain ⟨v, hv, ⟨⟩⟩ := map_eq_some_iff.mp hw
      exact saveResult_saves false ‹_› rfl hv
    · obtain ⟨v, hv, ⟨⟩⟩ := map_eq_some_iff.mp hw
      exact saveResult_saves true ‹_› rfl hv
    · cases hw
  all_goals
    split at hw
    all_goals
      repeat' split at hw
      all_goals
        cases hw
        try exact .of_held ‹_› rfl

lemma mem_of_erase (h : t' ∈ w.outside.erase t) : t' ∈ w.outside :=
  mem_of_mem_erase h

lemma any_of_erase {p : Outside μ → Bool} (h : (w.outside.erase t).any p = true) :
    w.outside.any p = true := by
  obtain ⟨t', ht, hp⟩ := any_eq_true.mp h
  exact any_eq_true.mpr ⟨t', mem_of_mem_erase ht, hp⟩

lemma starting_erase
    (h : (w.held.any Held.starts || (w.outside.erase t).any Outside.starts) = true) :
    w.starting = true := by
  rcases Bool.or_eq_true_iff.mp h with h | h
  · exact Bool.or_eq_true_iff.mpr (.inl h)
  · exact starting_outside (any_of_erase h)

lemma mem_erase_of_recovers (ht' : t' ∈ w.outside) (hr : t'.recovers = true)
    (ht : t.recovers = false) : t' ∈ w.outside.erase t := by
  refine (mem_erase_of_ne ?_).mpr ht'
  rintro rfl
  rw [ht] at hr
  cases hr

lemma Known.enters (h : Known w) (ht : t ∈ w.outside) (hfree : w.held = none)
    (hx : entered t = some x) :
    Known { w with held := some x, outside := w.outside.erase t } := by
  have hun : w.unstored = false := by
    unfold World.unstored
    rw [hfree]
    rfl
  have hxs : x.starts = t.starts ∧ x.unstored = false ∧ x.left = false ∧ t.recovers = false := by
    cases t <;> cases hx <;> exact ⟨rfl, rfl, rfl, rfl⟩
  obtain ⟨hstarts, hxu, hxl, htr⟩ := hxs
  refine ⟨fun hr => .inl (h.row_of hun hr), fun hr => ?_, fun m hm => ?_, fun m row hm => ?_,
    fun y hy hl => ?_, fun t' ht' hk => h.kept t' (mem_of_erase ht') hk, h.pending,
    fun ha => h.alone (starting_outside ?_)⟩
  · rcases h.known hr with hs | ⟨m, hm⟩ | ⟨t', ht', hr'⟩
    · exact .inl hs
    · rw [hfree] at hm
      cases hm
    · exact .inr (.inr ⟨t', mem_erase_of_recovers ht' hr' htr, hr'⟩)
  · cases hm
    cases hxu
  · cases hm
    cases hxu
  · cases hy
    rw [hxl] at hl
    cases hl
  · rcases Bool.or_eq_true_iff.mp ha with ha | ha
    · exact any_eq_true.mpr ⟨t, ht, hstarts ▸ ha⟩
    · exact any_of_erase ha

lemma Inv.pending_of_mem (h : Inv w) (ht : t ∈ w.outside)
    (hid : t.saveId = some id) : w.slamTask = some id := by
  have hs := (saves_perm ht).symm.trans h.saves
  rw [hid] at hs
  have hmem : id ∈ w.slamTask.toList :=
    hs.subset (mem_append_right _ (.head _))
  exact mem_toList.mp hmem

lemma Known.moves (h : Known w) (t' : Outside μ) (ha : t'.starts = false) (row : Option (Row μ))
    (hrow : w.robot.isSome → w.row.isSome → row.isSome)
    (hk : t'.keeps = false → w.robot = none ∧ ∃ id, t'.saveId = some id)
    (hr : w.robot.isSome → t.recovers = true → t'.recovers = true ∨ w.slamState.isSome ∨ ∃ m, w.held = some (.switched m)) :
    Known { w with row := row, outside := t' :: w.outside.erase t } := by
  refine ⟨fun hrob => ?_, fun hrob => ?_, h.own, h.storing, h.left, fun u hu huk => ?_, h.pending,
    fun hst => h.alone ?_⟩
  · rcases h.stored hrob with hw | hu
    · exact .inl (hrow hrob hw)
    · exact .inr hu
  · rcases h.known hrob with hsl | hsw | ⟨u, hu, hur⟩
    · exact .inl hsl
    · exact .inr (.inl hsw)
    · by_cases htr : t.recovers = true
      · rcases hr hrob htr with hr | hr | hr
        · exact .inr (.inr ⟨t', .head _, hr⟩)
        · exact .inl hr
        · exact .inr (.inl hr)
      · rw [Bool.not_eq_true] at htr
        exact .inr (.inr ⟨u, .tail _ (mem_erase_of_recovers hu hur htr), hur⟩)
  · rcases mem_cons.mp hu with rfl | hu
    · exact hk huk
    · exact h.kept u (mem_of_erase hu) huk
  · unfold World.starting at hst
    rw [any_cons, ha, Bool.false_or] at hst
    exact starting_erase hst

lemma Inv.ends (h : Inv w) (ht : .ending id row ∈ w.outside) :
    Known { w with
      row := row
      outside := w.outside.erase (.ending id row)
      slamTask := if w.slamTask = some id then none else w.slamTask } := by
  rw [if_pos (h.pending_of_mem ht rfl)]
  refine ⟨fun hrob => ?_, fun hrob => ?_, h.own, h.storing, h.left,
    fun u hu huk => h.kept u (mem_of_erase hu) huk, fun hs => (nomatch hs), fun _ => rfl⟩
  · by_cases hrow : row.isSome
    · exact .inl hrow
    · rw [Bool.not_eq_true] at hrow
      rw [(h.kept _ ht hrow).1] at hrob
      cases hrob
  · rcases h.known hrob with hsl | hsw | ⟨u, hu, hur⟩
    · exact .inl hsl
    · exact .inr (.inl hsw)
    · exact .inr (.inr ⟨u, mem_erase_of_recovers hu hur rfl, hur⟩)

lemma Known.drops (h : Known w) (t : Outside μ) (row : Option (Row μ))
    (hrow : w.robot.isSome → w.row.isSome → row.isSome)
    (s : Option (Slam μ)) (hs : w.slamState.isSome → s.isSome) (hr : t.recovers = true → s.isSome)
    (p : Bool) :
    Known { w with row := row, slamState := s, prevIntent := p, outside := w.outside.erase t } := by
  refine ⟨fun hrob => ?_, fun hrob => ?_, h.own, fun m row hm => ?_, h.left,
    fun u hu huk => h.kept u (mem_of_erase hu) huk, fun hp hrob => hs (h.pending hp hrob),
    fun hst => h.alone (starting_erase hst)⟩
  · rcases h.stored hrob with hw | hu
    · exact .inl (hrow hrob hw)
    · exact .inr hu
  · rcases h.known hrob with hsl | hsw | ⟨u, hu, hur⟩
    · exact .inl (hs hsl)
    · exact .inr (.inl hsw)
    · by_cases htr : t.recovers = true
      · exact .inl (hr htr)
      · rw [Bool.not_eq_true] at htr
        exact .inr (.inr ⟨u, mem_erase_of_recovers hu hur htr, hur⟩)
  · obtain ⟨hrob, hrow, hsl⟩ := h.storing m row hm
    exact ⟨hrob, hrow, hs hsl⟩

lemma Known.takesOver (h : Known w) (row : Option (Row μ)) :
    Known (w.takeOver (w.outside.erase (.loaded row)) row) := by
  cases row with
  | none => exact h.drops (.loaded none) _ (fun _ => id) _ id (fun hr => (nomatch hr)) _
  | some r =>
    have hdrop (s : Slam μ) := h.drops (.loaded (some r)) _ (fun _ => id) (some s) (fun _ => rfl) (fun _ => rfl)
      (w.prevIntent || r.prev)
    unfold World.takeOver
    dsimp only
    split
    · exact (hdrop ⟨r.map, .failed⟩).joins (.reload _) rfl fun hst => (nomatch hst)
    · exact hdrop ⟨r.map, r.state⟩

lemma Inv.advances (h : Inv w) (ht : t ∈ w.outside) (hw : advance w t = some w') :
    Known w' := by
  cases t <;> cases hw
  case save id m =>
    refine h.moves (.persisting id m _) rfl w.row (fun _ hrow => hrow)
      (fun hk => ⟨?_, id, rfl⟩) (fun _ hr => (nomatch hr))
    have hnone := persisted_none hk
    by_contra hrob
    have hp := h.pending (by rw [h.pending_of_mem ht rfl]; rfl) (isSome_iff_ne_none.mpr hrob)
    rw [hnone] at hp
    cases hp
  case persisting id m row =>
    exact h.moves (.locking id m) rfl row (fun hrob _ => h.keeps_of_robot ht hrob)
      (fun hk => (nomatch hk)) (fun _ hr => (nomatch hr))
  case ending id row => exact h.ends ht
  case load =>
    refine h.moves (.loaded w.row) rfl w.row (fun _ => id) (fun hk => (nomatch hk))
      (fun hrob _ => ?_)
    rcases h.stored hrob with hrow | hu
    · obtain ⟨r, hr⟩ := isSome_iff_exists.mp hrow
      rw [hr]
      exact .inl rfl
    · unfold World.unstored at hu
      cases hx : w.held with
      | none =>
        rw [hx] at hu
        cases hu
      | some x =>
        rw [hx] at hu
        cases x with
        | switched m => exact .inr (.inr ⟨m, rfl⟩)
        | storing m row => exact .inr (.inl (h.storing m row hx).2.2)
        | _ => cases hu
  case loaded row => exact h.takesOver row
  case reload row =>
    exact h.drops (.reload row) row (fun hrob _ => h.keeps_of_robot ht hrob) _ id (fun hr => (nomatch hr)) _

lemma Inv.keeps_known (h : Inv w) (hc : Careful w a)
    (hw : stepAnswer w a = some (w', ans)) : Known w' := by
  cases a <;> dsimp only [stepAnswer] at hw
  case start m =>
    split at hw
    · cases hw
      exact h.toKnown
    · rename_i hpend
      split at hw
      · cases hw
        exact h.toKnown
      · cases hw
        exact h.joins (.start m) rfl fun _ => not_isSome_iff_eq_none.mp hpend
  case schedule m =>
    cases hw
    exact h.scheduled m hc.1
  case discard =>
    split at hw
    · cases hw
      exact h.joins .discard rfl fun ha => (nomatch ha)
    · cases hw
  case restart =>
    cases hw
    exact h.restarts hc
  case lock t =>
    split at hw
    · rename_i hfree
      obtain ⟨x, hx, hw⟩ := map_eq_some_iff.mp hw
      cases hw
      exact h.enters hfree.2 hfree.1 hx
    · cases hw
  case run t =>
    split at hw
    · rename_i ht
      obtain ⟨v, hv, hw⟩ := map_eq_some_iff.mp hw
      cases hw
      exact h.advances ht hv
    · cases hw
  case mapAnswer a =>
    split at hw
    case h_1 m hx | h_3 m hx =>
      cases hw
      exact h.releases hx rfl w.prevIntent
    case h_2 m hx =>
      cases hw
      exact h.goesOn hx rfl rfl rfl rfl
    case h_4 => cases hw
  case locAnswer ok =>
    split at hw
    · rename_i m hx
      split at hw
      · cases hw
        exact h.releases hx rfl w.prevIntent
      split at hw
      · cases hw
        exact h.releases hx rfl w.prevIntent
      · cases hw
        exact h.goesOn hx rfl rfl rfl rfl
    · cases hw
  case putAnswer a =>
    obtain rfl : a = .applied := hc
    split at hw
    · rename_i m hx
      cases hw
      exact h.records hx
    · cases hw
  case written =>
    split at hw
    · rename_i m row hx
      cases hw
      exact h.stores fun _ => (h.storing m row hx).2
    · rename_i row hx
      cases hw
      refine h.stores fun hrob => ?_
      rw [h.left _ hx rfl] at hrob
      cases hrob
    · cases hw
  case saveAnswer a =>
    split at hw
    · rename_i id m hx
      obtain ⟨v, hv, hw⟩ := map_eq_some_iff.mp hw
      cases hw
      exact h.saveResult false hx rfl (fun hs => (nomatch hs)) hv
    · rename_i id m hx
      obtain ⟨v, hv, hw⟩ := map_eq_some_iff.mp hw
      cases hw
      exact h.saveResult true hx rfl (fun _ => h.left _ hx rfl) hv
    · cases hw
  case restoreAnswer ok =>
    split at hw
    · rename_i hx
      split at hw
      · cases hw
        exact h.restored hx
      · cases hw
        exact h.releases hx rfl w.prevIntent
    · cases hw
  all_goals
    split at hw
    · rename_i hx
      cases hw
      first
      | exact h.releases hx rfl _
      | exact h.switches hx
      | exact h.leaves _ rfl rfl
    · cases hw

lemma Inv.answers (h : Inv w) (hc : Careful w a) {s : Status}
    (hw : stepAnswer w a = some (w', some (m, s))) (hs : s = .started ∨ s = .alreadyRunning) :
    w'.robot = some m ∧ w'.slamSavePending = false := by
  have alone {x : Held μ} (hx : w.held = some x) (hstart : x.starts = true) :
      w.slamSavePending = false := by
    rw [World.slamSavePending, h.alone (starting_held hx hstart)]
    rfl
  cases a <;> dsimp only [stepAnswer] at hw
  case locAnswer ok =>
    split at hw
    · rename_i n hx
      split at hw
      · cases hw
        cases hs <;> contradiction
      split at hw
      · rename_i hrob
        cases hw
        obtain ⟨k, hk⟩ := isSome_iff_exists.mp hrob
        exact ⟨hk.trans (congrArg some (hc _ _ hx hk)), alone hx rfl⟩
      · cases hw
    · cases hw
  case written =>
    split at hw
    · rename_i n row hx
      cases hw
      exact ⟨(h.storing _ _ hx).1, alone hx rfl⟩
    · cases hw
    · cases hw
  case schedule m | restart => cases hw
  case lock t | run t =>
    split at hw
    · obtain ⟨_, -, hw⟩ := map_eq_some_iff.mp hw
      cases hw
    · cases hw
  case saveAnswer b =>
    split at hw
    iterate 2
      obtain ⟨_, -, hw⟩ := map_eq_some_iff.mp hw
      cases hw
    cases hw
  -- every other answer is a refusal or none
  all_goals
    repeat' split at hw
    all_goals
      cases hw
      try (cases hs <;> contradiction)

lemma step_eq (hw : step w a = some w') : ∃ ans, stepAnswer w a = some (w', ans) := by
  obtain ⟨⟨v, ans⟩, hv, rfl⟩ := map_eq_some_iff.mp hw
  exact ⟨ans, hv⟩

lemma Inv.next (h : Inv w) (hc : Careful w a) (hw : stepAnswer w a = some (w', ans)) : Inv w' := by
  refine ⟨h.keeps_known hc hw, ?_⟩
  cases stepAnswer_saves hw with
  | same saves task next =>
    rw [task]
    exact saves.trans h.saves
  | scheduled m act saves task next =>
    subst act
    rw [task]
    rwa [hc.2] at saves
  | ended id saves task next =>
    have hlone := saves.symm.trans h.saves
    rw [task]
    cases hid : w.slamTask with
    | none =>
      rw [hid] at hlone
      cases hlone.eq_nil
    | some k =>
      rw [hid] at hlone
      obtain ⟨rfl, hnil⟩ := cons.inj (perm_singleton.mp hlone)
      rw [if_pos rfl, hnil]
      exact .refl _
  | forgotten saves task =>
    rw [saves, task]
    exact .refl _

lemma Inv.of_runs (h : Runs step Careful World.empty w) : Inv w :=
  h.invariant .empty fun _ _ _ hc hi hw => hi.next hc (step_eq hw).choose_spec

/-- The save that is remembered is the newest one, and only while that is under way. -/
structure Tracked (w : World μ) : Prop where
  nodup : w.saves.Nodup
  old : ∀ id ∈ w.saves, id < w.next
  newest : ∀ id, w.slamTask = some id ↔ id ∈ w.saves ∧ id + 1 = w.next

lemma Tracked.next (h : Tracked w) (hw : stepAnswer w a = some (w', ans)) : Tracked w' := by
  cases stepAnswer_saves hw with
  | same saves task next =>
    refine ⟨saves.nodup_iff.mpr h.nodup, fun id hid => ?_, fun id => ?_⟩
    · rw [next]
      exact h.old id (saves.mem_iff.mp hid)
    · rw [task, next, saves.mem_iff]
      exact h.newest id
  | scheduled m act saves task next =>
    have hfresh : w.next ∉ w.saves := fun hid => (h.old _ hid).false
    refine ⟨saves.nodup_iff.mpr (nodup_cons.mpr ⟨hfresh, h.nodup⟩), fun id hid => ?_, fun id => ?_⟩
    · rw [next]
      rcases mem_cons.mp (saves.mem_iff.mp hid) with rfl | hid
      · exact Nat.lt_succ_self _
      · exact (h.old id hid).trans w.next.lt_succ_self
    · rw [task, next, saves.mem_iff, mem_cons, some_inj, Nat.succ_inj]
      exact ⟨fun hid => ⟨.inl hid.symm, hid.symm⟩, fun hid => hid.2.symm⟩
  | ended id saves task next =>
    obtain ⟨hgone, hnodup⟩ := nodup_cons.mp (saves.nodup_iff.mp h.nodup)
    have hmem (k : ℕ) : k ∈ w.saves ↔ k = id ∨ k ∈ w'.saves := saves.mem_iff.trans mem_cons
    refine ⟨hnodup, fun k hk => ?_, fun k => ?_⟩
    · rw [next]
      exact h.old k ((hmem k).mpr (.inr hk))
    · have hk := h.newest k
      rw [hmem] at hk
      rw [task, next]
      split
      · rename_i hid
        have hlast := ((h.newest id).mp hid).2
        refine iff_of_false (some_ne_none k).symm fun hk' => hgone ?_
        rw [Nat.succ_injective (hlast.trans hk'.2.symm)]
        exact hk'.1
      · rename_i hid
        refine hk.trans (and_congr_left fun hnext => or_iff_right ?_)
        rintro rfl
        exact hid (hk.mpr ⟨.inl rfl, hnext⟩)
  | forgotten saves task =>
    refine ⟨by rw [saves]; exact nodup_nil, fun id hid => ?_, fun id => ?_⟩
    · rw [saves] at hid
      cases hid
    · rw [saves, task]
      exact iff_of_false (some_ne_none id).symm fun hid => not_mem_nil hid.1

theorem never_mixed_up (h : Runs step Careful World.empty w) :
    (w.Idle → w.robot.isSome → w.slamBusy ≠ none) ∧
      ∀ a, Careful w a → ∀ w' m s, stepAnswer w a = some (w', some (m, s)) →
        s = .started ∨ s = .alreadyRunning → w'.robot = some m ∧ w'.slamSavePending = false := by
  have hi := Inv.of_runs h
  exact ⟨hi.busy, fun a hc w' m s hw hs => hi.answers hc hw hs⟩

end

instance (w : World Bool) : ∀ a, Decidable (Careful w a)
  | .locAnswer _ => inferInstanceAs
    (Decidable (∀ m n, w.held = some (.localization m) → w.robot = some n → n = m))
  | .schedule _ => inferInstanceAs (Decidable (w.starting = false ∧ w.saves = []))
  | .restart => inferInstanceAs (Decidable (w.unstored = false))
  | .putAnswer a => inferInstanceAs (Decidable (a = .applied))
  | .start _ | .discard | .lock _ | .run _ | .mapAnswer _ | .putRefused _ | .putTakes | .written
  | .saveSwitches | .saveAnswer _ | .restoreRefused | .restoreTakes | .restoreAnswer _ => .isTrue trivial

/-- The calls of a `start_slam` that switches the robot. -/
def sampleStart (m : Bool) : List (Act Bool) :=
  [.start m, .lock (.start m), .mapAnswer .missing, .locAnswer true, .putTakes, .putAnswer .applied,
    .written]

/-- A map that is not saved survives a failed save and a restart, and starting it again is fine. -/
theorem never_mixed_up_restarted : ∃ w, Runs step Careful (World.empty : World Bool) w ∧
    (w.robot = some true ∧ w.held = some (.localization true)) ∧
      (w.Idle → w.robot.isSome → w.slamBusy ≠ none) ∧
      ∀ a, Careful w a → ∀ w' m s, stepAnswer w a = some (w', some (m, s)) →
        s = .started ∨ s = .alreadyRunning → w'.robot = some m ∧ w'.slamSavePending = false := by
  obtain ⟨w, hruns, hend⟩ := Runs.of_play_any (fun _ _ => of_decide_eq_true)
    (show (play step (fun w a => decide (Careful w a)) (World.empty : World Bool)
      (sampleStart true ++ [.schedule true, .run (.save 0 true),
        .run (.persisting 0 true (some ⟨some true, .saving, true⟩)), .lock (.locking 0 true),
        .saveAnswer .failed, .run (.ending 0 (some ⟨some true, .failed, true⟩)), .restart, .start true,
        .run .load, .lock (.start true), .mapAnswer .missing])).any
      (fun w => w.robot = some true ∧ w.held = some (.localization true)) = true by decide)
  exact ⟨w, hruns, of_decide_eq_true hend, never_mixed_up hruns⟩

/-- A start for another map finds the robot in slam mode and takes it for its own recording. -/
theorem other_map_already_running : ∃ w, Runs step (fun _ _ => True) (World.empty : World Bool) w ∧
    ∃ a w' m, stepAnswer w a = some (w', some (m, .alreadyRunning)) ∧ w'.robot ≠ some m := by
  obtain ⟨w, hruns, hend⟩ := Runs.of_play_any (fun _ _ _ => trivial)
    (show (play step (fun _ _ => true) (World.empty : World Bool)
      (sampleStart false ++ [.start true, .lock (.start true), .mapAnswer .missing])).any
      (fun w => (stepAnswer w (.locAnswer true)).any fun r =>
        r.2 = some (true, .alreadyRunning) && r.1.robot ≠ some true) = true by decide)
  obtain ⟨⟨w', ans⟩, hw', hr⟩ := (any_eq_true _ _).mp hend
  obtain ⟨hans, hrob⟩ := Bool.and_eq_true_iff.mp hr
  obtain rfl : ans = some (true, .alreadyRunning) := of_decide_eq_true hans
  exact ⟨w, hruns, .locAnswer true, w', true, hw', of_decide_eq_true hrob⟩

/-- Whatever is called in whatever order: `start_slam` answers busy exactly while the save scheduled
last is under way. -/
theorem busy_while_newest {μ : Type} [DecidableEq μ] {w : World μ}
    (h : Runs step (fun _ _ => True) World.empty w) :
    w.saves.Nodup ∧ (∀ id ∈ w.saves, id < w.next) ∧
      (∀ id, w.slamTask = some id ↔ id ∈ w.saves ∧ id + 1 = w.next) ∧
      ∀ m, (stepAnswer w (.start m)).bind Prod.snd = some (m, .busy) ↔
        ∃ id ∈ w.saves, id + 1 = w.next := by
  have ht : Tracked w := h.invariant ⟨nodup_nil, fun _ hid => (not_mem_nil hid).elim, fun id =>
    iff_of_false (some_ne_none id).symm fun hid => not_mem_nil hid.1⟩
    fun _ _ _ _ hi hw => hi.next (step_eq hw).choose_spec
  refine ⟨ht.nodup, ht.old, ht.newest, fun m => ?_⟩
  have hpending : w.slamSavePending = true ↔ ∃ id ∈ w.saves, id + 1 = w.next :=
    isSome_iff_exists.trans (exists_congr ht.newest)
  rw [← hpending]
  dsimp only [stepAnswer]
  split
  · rename_i hbusy
    exact iff_of_true rfl hbusy
  · rename_i hfree
    refine iff_of_false (fun hanswer => ?_) hfree
    split at hanswer <;> cases hanswer

/-- Two saves are under way, and the newest is remembered. -/
theorem busy_while_newest_two : ∃ w, Runs step (fun _ _ => True) (World.empty : World Bool) w ∧
    w.saves = [1, 0] ∧ w.slamTask = some 1 ∧
      (stepAnswer w (.start false)).bind Prod.snd = some (false, .busy) := by
  obtain ⟨w, hruns, hend⟩ := Runs.of_play_any (fun _ _ _ => trivial)
    (show (play step (fun _ _ => true) (World.empty : World Bool)
      (sampleStart true ++ [.schedule true, .run (.save 0 true), .schedule true])).any
      (fun w => w.saves = [1, 0] ∧ w.next = 2) = true by decide)
  obtain ⟨hsaves, hnext⟩ := of_decide_eq_true hend
  have hlast : 1 ∈ w.saves ∧ 1 + 1 = w.next := by simp [hsaves, hnext]
  obtain ⟨-, -, hnewest, hbusy⟩ := busy_while_newest hruns
  exact ⟨w, hruns, hsaves, (hnewest 1).mpr hlast, (hbusy false).mpr ⟨1, hlast⟩⟩

end CloudServer.SlamSwitch
