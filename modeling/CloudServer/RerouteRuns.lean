import CloudServer.Reroute

/-! When every accepted reroute ends in the row and in the dispatcher's tree. -/
namespace CloudServer.Reroute
open Function Steps List Option

variable {ν ρ κ : Type} [DecidableEq ν]

def setter (log : List (Put ν ρ κ)) (n : ν) : Option (Put ν ρ κ) := log.find? fun p => p.sets n

def rerouted (log : List (Put ν ρ κ)) (n : ν) : Bool :=
  (setter log n).any fun p => (p.updateNodes.lookup n).isSome

def Request.Fresh (row : Row ν ρ κ) : Request ν ρ κ → Prop
  | .measuring p m => p.setsTree = true → row.spec.view = m.spec.view
  | .storingStatus s => row.status.commit = s.commit

/-- Before the dispatch the delivery is not older than the copy; after it, it brings no edit. -/
def Mission.Takes (c : Mission ν ρ κ) (m : Spec ν ρ κ) : Prop :=
  match c.stage with
  | .waiting => c.spec.routeRev ≤ m.routeRev
  | .dispatched => (m.routeRev = c.status.appliedRouteRev → m.missionTree = c.spec.missionTree) ∧
    (c.status.appliedRouteRev < m.routeRev →
      (fun n => (m.missionTree n).isSome) = fun n => (c.spec.missionTree n).isSome)
  | _ => True

/-- Nobody writes back a tree or a status that is not the row's any more, the dispatcher's writes
are stored and leave an accepted reroute as it is, and no edit reaches it too late. -/
def Careful (w : World ν ρ κ) : Act ν ρ κ → Prop
  | .write i | .writeStatus i => ∀ q ∈ w.requests i, q.Fresh w.row
  | .handle => ∀ m ∈ w.inbox.head?, ∀ c ∈ w.mission, c.Takes m.spec
  | .store ok => ok = true ∧ ∀ c ∈ w.mission, c.known.view = w.row.spec.view
  | .replan n r _ => ∀ c ∈ w.mission, rerouted w.log n = true → c.spec.missionTree n = some r
  | .enrich us => ∀ c ∈ w.mission, ∀ u ∈ us, rerouted w.log u.1 = true →
    c.spec.missionTree u.1 = some u.2
  | _ => True

structure Mission.Ok (c : Mission ν ρ κ) (rev : ℕ) (log : List (Put ν ρ κ)) : Prop where
  known : c.known.routeRev ≤ rev
  applied : c.status.appliedRouteRev ≤ c.spec.routeRev
  settled : c.stage ≠ .waiting → c.status.appliedRouteRev = c.spec.routeRev
  storing : ∀ base planned, c.stage = .storing base planned →
    c.spec.routeRev = base.routeRev + 1 ∧ (rev = base.routeRev →
      ∀ n, rerouted log n = true → c.spec.missionTree n = base.missionTree n)

def Request.status : Request ν ρ κ → Status ν
  | .measuring _ m => m.status
  | .storingStatus s => s

structure Inv (w : World ν ρ κ) : Prop where
  inbox : ∀ m ∈ w.inbox, m.spec.routeRev ≤ w.row.spec.routeRev
  sorted : w.inbox.Pairwise fun a b => a.spec.routeRev ≤ b.spec.routeRev
  last : w.owed = false → ∀ m ∈ w.inbox.getLast?, m.spec.view = w.row.spec.view ∨
    (m.spec.routeRev < w.row.spec.routeRev ∧
      (w.finished = true ∨ ∃ c ∈ w.mission, c.known.view = w.row.spec.view))
  calm : w.Quiet → ∀ c ∈ w.mission, c.known.view = w.row.spec.view
  copy : ∀ c ∈ w.mission, c.Ok w.row.spec.routeRev w.log
  ended : w.finished = true → w.mission = none
  first : w.mission = none → w.finished = false → w.row.status.appliedRouteRev = 0 ∧
    (∀ m ∈ w.inbox, m.status.appliedRouteRev = 0) ∧
      (∀ i, ∀ q ∈ w.requests i, q.status.appliedRouteRev = 0) ∧ w.writing = none
  routes : ∀ n, ∀ p ∈ setter w.log n, ∀ r ∈ p.updateNodes.lookup n,
    w.row.spec.missionTree n = some r
  given : w.revs.Nodup
  top : ∀ x ∈ w.revs, x ≤ w.row.spec.routeRev
  commit : w.row.status.commit = w.committed

variable {w w' : World ν ρ κ} {c c' : Mission ν ρ κ}

lemma Inv.created (tree : ν → Option ρ) (path : Option κ) : Inv (World.created tree path) := by
  refine ⟨?_, .nil, ?_, ?_, ?_, ?_, ?_, ?_, .nil, ?_, rfl⟩ <;>
    simp [World.created, World.Quiet, setter]

section
variable {s t : Spec ν ρ κ}

omit [DecidableEq ν]

lemma Spec.view_tree (h : s.view = t.view) : s.missionTree = t.missionTree :=
  congrArg Prod.fst h

lemma Spec.view_rev (h : s.view = t.view) : s.routeRev = t.routeRev :=
  congrArg Prod.snd h

lemma Mission.known_eq (h : ∀ base planned, c.stage ≠ .storing base planned) : c.known = c.spec := by
  unfold Mission.known
  split
  · exact absurd ‹_› (h _ _)
  · rfl

end

lemma Inv.onCopy (h : Inv w) (hc : w.mission = some c) (hknown : c'.known.view = c.known.view)
    (hok : c'.Ok w.row.spec.routeRev w.log) : Inv { w with mission := some c' } := by
  refine ⟨h.inbox, h.sorted, fun ho m hm => ?_, fun hq => ?_, ?_, fun hf => ?_,
    fun hn => (nomatch hn), h.routes, h.given, h.top, h.commit⟩
  · rcases h.last ho m hm with he | ⟨hlt, hf | ⟨d, hd, he⟩⟩
    · exact .inl he
    · exact .inr ⟨hlt, .inl hf⟩
    · cases hc.symm.trans hd
      exact .inr ⟨hlt, .inr ⟨c', rfl, hknown.trans he⟩⟩
  · rintro d ⟨⟩
    exact hknown.trans (h.calm hq c hc)
  · rintro d ⟨⟩
    exact hok
  · rw [h.ended hf] at hc
    cases hc

lemma Inv.onRequests (h : Inv w) {i : ℕ} {q : Option (Request ν ρ κ)}
    (hq : w.mission = none → w.finished = false → ∀ x ∈ q, x.status.appliedRouteRev = 0) :
    Inv { w with requests := update w.requests i q } := by
  refine { h with first := fun hn hf => ?_ }
  obtain ⟨hrow, hin, hreq, hwrite⟩ := h.first hn hf
  refine ⟨hrow, hin, fun j x hx => ?_, hwrite⟩
  dsimp only at hx
  by_cases hj : j = i
  · rw [hj, update_self] at hx
    exact hq hn hf x hx
  · rw [update_of_ne hj] at hx
    exact hreq j x hx

variable {owed planned : Bool} {n : ν} {r : ρ} {new tree : ν → Option ρ} {log : List (Put ν ρ κ)}
variable {revs : List ℕ}

lemma Inv.onStatus (h : Inv w) {s : Status ν} (howed : owed = false → w.owed = false)
    (hs : w.mission = none → w.finished = false → s.appliedRouteRev = 0)
    (hcommit : s.commit = w.row.status.commit) :
    Inv { w with row := { w.row with status := s }, owed := owed } := by
  refine { h with
    last := fun ho => h.last (howed ho)
    calm := fun hq => h.calm ⟨howed hq.1, hq.2⟩
    first := fun hn hf => ?_
    commit := hcommit.trans h.commit }
  obtain ⟨-, hin, hreq, hwrite⟩ := h.first hn hf
  exact ⟨hs hn hf, hin, hreq, hwrite⟩

lemma Inv.deliver (h : Inv w) : Inv { w with inbox := w.inbox ++ [w.row], owed := false } := by
  refine ⟨fun m hm => ?_, ?_, fun _ m hm => ?_, fun hq => ?_, h.copy, h.ended, fun hn hf => ?_,
    h.routes, h.given, h.top, h.commit⟩
  · rcases mem_append.mp hm with hm | hm
    · exact h.inbox m hm
    · rw [mem_singleton.mp hm]
  · refine pairwise_append.mpr ⟨h.sorted, pairwise_singleton _ _, fun a ha b hb => ?_⟩
    rw [mem_singleton.mp hb]
    exact h.inbox a ha
  · rw [List.getLast?_concat] at hm
    cases hm
    exact .inl rfl
  · exact absurd hq.2 (append_ne_nil_of_right_ne_nil _ (cons_ne_nil _ _))
  · obtain ⟨hrow, hin, hreq, hwrite⟩ := h.first hn hf
    refine ⟨hrow, fun m hm => ?_, hreq, hwrite⟩
    rcases mem_append.mp hm with hm | hm
    · exact hin m hm
    · rw [mem_singleton.mp hm]
      exact hrow

lemma Inv.land (h : Inv w) {s : Status ν} (hs : w.writing = some s) :
    Inv { w with row := { w.row with status := s }, writing := none, committed := s.commit } := by
  refine { h with first := fun hn hf => ?_, commit := rfl }
  obtain ⟨-, -, -, hwrite⟩ := h.first hn hf
  rw [hs] at hwrite
  cases hwrite

lemma Inv.onWriting (h : Inv w) {x : Option (Status ν)} (hx : w.mission = none → x = none) :
    Inv { w with writing := x } := by
  refine { h with first := fun hn hf => ?_ }
  obtain ⟨hrow, hin, hreq, -⟩ := h.first hn hf
  exact ⟨hrow, hin, hreq, hx hn⟩

lemma Inv.finish (h : Inv w) : Inv { w with mission := none, finished := true } := by
  refine ⟨h.inbox, h.sorted, fun ho m hm => ?_, fun _ _ hc => (nomatch hc),
    fun _ hc => (nomatch hc), fun _ => rfl, fun _ hf => (nomatch hf), h.routes, h.given, h.top,
    h.commit⟩
  rcases h.last ho m hm with he | ⟨hlt, -⟩
  · exact .inl he
  · exact .inr ⟨hlt, .inl rfl⟩

variable {p : Put ν ρ κ} {edited m : Row ν ρ κ} {rest : List (Row ν ρ κ)}

lemma Inv.popped (h : Inv w) {x : Option (Mission ν ρ κ)} (hin : w.inbox = m :: rest)
    (hlast : w.owed = false → ∀ m' ∈ rest.getLast?, m' ∈ w.inbox.getLast? →
      m'.spec.view = w.row.spec.view ∨ (m'.spec.routeRev < w.row.spec.routeRev ∧
        (w.finished = true ∨ ∃ c ∈ x, c.known.view = w.row.spec.view)))
    (hcalm : w.owed = false → m ∈ w.inbox.getLast? → ∀ c ∈ x, c.known.view = w.row.spec.view)
    (hcopy : ∀ c ∈ x, c.Ok w.row.spec.routeRev w.log) (hended : w.finished = true → x = none)
    (hfirst : x = none → w.finished = false → w.mission = none) :
    Inv { w with inbox := rest, mission := x } := by
  have hsorted := h.sorted
  rw [hin] at hsorted
  refine ⟨fun m' hm => h.inbox m' (hin ▸ mem_cons_of_mem _ hm), hsorted.of_cons,
    fun ho m' hm => hlast ho m' hm ?_, fun hq => hcalm hq.1 ?_, hcopy, hended, fun hn hf => ?_,
    h.routes, h.given, h.top, h.commit⟩
  · dsimp only at hm
    rw [hin, List.getLast?_cons, mem_def.mp hm]
    rfl
  · have hrest : rest = [] := hq.2
    rw [hin, hrest]
    rfl
  · obtain ⟨hrow, hall, hreq, hwrite⟩ := h.first (hfirst hn hf) hf
    exact ⟨hrow, fun m' hm => hall m' (hin ▸ mem_cons_of_mem _ hm), hreq, hwrite⟩

lemma Inv.taken (h : Inv w) (hin : w.inbox = m :: rest)
    (hc : w.mission = some c) (hview : c'.known.view = m.spec.view)
    (hle : c.known.routeRev ≤ m.spec.routeRev) (hok : c'.Ok w.row.spec.routeRev w.log) :
    Inv { w with inbox := rest, mission := some c' } := by
  have hnot (m' : Row ν ρ κ) (hm : m.spec.routeRev ≤ m'.spec.routeRev)
      (hlt : m'.spec.routeRev < w.row.spec.routeRev)
      (hk : w.finished = true ∨ ∃ d ∈ w.mission, d.known.view = w.row.spec.view) : False := by
    rcases hk with hf | ⟨d, hd, he⟩
    · rw [h.ended hf] at hc
      cases hc
    · cases hc.symm.trans hd
      have := Spec.view_rev he
      omega
  have hsorted := h.sorted
  rw [hin] at hsorted
  refine h.popped hin (fun ho m' hm hm' => ?_) (fun ho hm d hd => ?_) (fun d hd => ?_)
    (fun hf => ?_) fun hn => (nomatch hn)
  · rcases h.last ho m' hm' with he | ⟨hlt, hk⟩
    · exact .inl he
    · exact (hnot m' (rel_of_pairwise_cons hsorted (mem_of_getLast? hm)) hlt hk).elim
  · cases hd
    rcases h.last ho m hm with he | ⟨hlt, hk⟩
    · exact hview.trans he
    · exact (hnot m le_rfl hlt hk).elim
  · cases hd
    exact hok
  · rw [h.ended hf] at hc
    cases hc

omit [DecidableEq ν] in
lemma adopt_eq
    (h : (fun n => (new n).isSome) = fun n => (tree n).isSome) : Mission.adopt tree new = new := by
  funext n
  have hn := congrFun h n
  unfold Mission.adopt
  cases htree : tree n <;> cases hnew : new n <;> simp_all

lemma Inv.handle (h : Inv w) (hin : w.inbox = m :: rest)
    (htakes : ∀ c ∈ w.mission, c.Takes m.spec) (hstep : handle w m rest = some w') : Inv w' := by
  have hm : m.spec.routeRev ≤ w.row.spec.routeRev := h.inbox m (hin ▸ mem_cons_self)
  unfold Reroute.handle at hstep
  split at hstep
  · rename_i hn
    split at hstep <;> cases hstep
    · rename_i hignored
      have hpop := h.popped (x := none) hin (fun ho m' hm hm' => ?_) (fun _ _ _ hd => (nomatch hd))
        (fun _ hd => (nomatch hd)) (fun _ => rfl) fun _ _ => hn
      · rw [← hn] at hpop
        exact hpop
      · have := h.last ho m' hm'
        rw [hn] at this
        exact this
    · rename_i htaken
      rw [Bool.or_eq_true, not_or, Bool.not_eq_true] at htaken
      obtain ⟨-, hall, -, -⟩ := h.first hn htaken.1
      have hsync {m' : Row ν ρ κ} (ho : w.owed = false) (hm' : m' ∈ w.inbox.getLast?) :
          m'.spec.view = w.row.spec.view := by
        rcases h.last ho m' hm' with he | ⟨-, hf | ⟨c, hc, -⟩⟩
        · exact he
        · rw [htaken.1] at hf
          cases hf
        · rw [hn] at hc
          cases hc
      refine h.popped hin (fun ho m' _ hm' => .inl (hsync ho hm')) (fun ho hm' d hd => ?_)
        (fun d hd => ?_) (fun hf => ?_) fun hx => (nomatch hx)
      · cases hd
        exact hsync ho hm'
      · cases hd
        refine ⟨hm, ?_, fun hs => absurd rfl hs, fun _ _ hs => (nomatch hs)⟩
        exact (hall m (hin ▸ mem_cons_self)).trans_le (Nat.zero_le _)
      · rw [htaken.1] at hf
        cases hf
  · rename_i c hc
    have hok := h.copy c hc
    have ht := htakes c hc
    unfold Mission.Takes at ht
    split at hstep
    · rename_i hstage
      rw [hstage] at ht
      cases hstep
      have hidle {base : Spec ν ρ κ} {planned : Bool} : c.stage ≠ .storing base planned :=
        hstage ▸ fun hs => (nomatch hs)
      have hknown : c.known = c.spec := Mission.known_eq fun _ _ => hidle
      have hknown' : (c.applySpecEdit m.spec).known = m.spec := Mission.known_eq fun _ _ => hidle
      refine h.taken hin hc (congrArg Spec.view hknown') (hknown ▸ ht) ⟨?_, hok.applied.trans ht,
        fun hs => absurd hstage hs, fun _ _ hs => absurd hs hidle⟩
      rw [hknown']
      exact hm
    · rename_i hstage
      rw [hstage] at ht
      cases hstep
      have hidle {base : Spec ν ρ κ} {planned : Bool} : c.stage ≠ .storing base planned :=
        hstage ▸ fun hs => (nomatch hs)
      have hknown : c.known = c.spec := Mission.known_eq fun _ _ => hidle
      have hsettled := hok.settled (hstage ▸ fun hs => (nomatch hs))
      unfold Mission.updateFromApi
      split
      · rename_i hlt
        have htree := adopt_eq (ht.2 hlt)
        have hknown' := Mission.known_eq (c := { c with
          spec := ⟨Mission.adopt c.spec.missionTree m.spec.missionTree, m.spec.plannedPath, m.spec.routeRev⟩
          status := { c.status with appliedRouteRev := m.spec.routeRev } }) fun _ _ => hidle
        refine h.taken hin hc ?_ ?_ ⟨?_, le_rfl, fun _ => rfl, fun _ _ hs => absurd hs hidle⟩
        · rw [hknown', Spec.view, htree]
          rfl
        · rw [hknown]
          omega
        · rw [hknown']
          exact hm
      · rename_i hle
        refine h.popped hin (fun ho m' _ hm' => ?_) (fun ho hm' d hd => ?_) (fun d hd => ?_)
          (fun hf => ?_) fun hx => (nomatch hx)
        · rw [← hc]
          exact h.last ho m' hm'
        · cases hd
          rcases h.last ho m hm' with he | ⟨-, hf | ⟨d, hd, he⟩⟩
          · have hrev := Spec.view_rev he
            have hk := hok.known
            rw [hknown] at hk
            have htree := ht.1 (by omega)
            rw [hknown, ← he]
            exact Prod.ext htree.symm (by unfold Spec.view; dsimp only; omega)
          · rw [h.ended hf] at hc
            cases hc
          · cases hc.symm.trans hd
            exact he
        · cases hd
          exact hok
        · rw [h.ended hf] at hc
          cases hc
    · cases hstep

lemma rerouted_of_setter
    (hp : p ∈ setter log n) (hr : r ∈ p.updateNodes.lookup n) : rerouted log n = true := by
  unfold rerouted
  rw [mem_def.mp hp, any_some, mem_def.mp hr]
  rfl

lemma Inv.store (h : Inv w) (hc : w.mission = some c) {base : Spec ν ρ κ}
    (hstage : c.stage = .storing base planned) (hview : c.known.view = w.row.spec.view) :
    Inv (store w c planned true) := by
  have hok := h.copy c hc
  have hknown : c.known = base := by
    unfold Mission.known
    rw [hstage]
  rw [hknown] at hview
  have hrev := Spec.view_rev hview
  obtain ⟨hnext, hkeep⟩ := hok.storing base planned hstage
  have hlt : w.row.spec.routeRev < c.spec.routeRev := by omega
  have hmission : (Reroute.store w c planned true).mission = some { c with stage := .starting } := rfl
  refine ⟨fun m hm => (h.inbox m hm).trans hlt.le, h.sorted,
    fun _ m hm => .inr ⟨(h.inbox m (mem_of_getLast? hm)).trans_lt hlt, .inr ⟨_, hmission, rfl⟩⟩,
    fun _ d hd => ?_, fun d hd => ?_, fun hf => ?_, fun hn => (nomatch hn), fun n p hp r hr => ?_,
    nodup_cons.mpr ⟨fun hm => ?_, h.given⟩, fun x hx => ?_, h.commit⟩
  · cases hmission.symm.trans hd
    rfl
  · cases hmission.symm.trans hd
    exact ⟨le_rfl, hok.applied, fun _ => hok.settled (hstage ▸ fun hs => (nomatch hs)), fun _ _ hs => (nomatch hs)⟩
  · have hf : w.finished = true := hf
    rw [h.ended hf] at hc
    cases hc
  · have hkept : rerouted w.log n = true := rerouted_of_setter hp hr
    have htree := h.routes n p hp r hr
    exact (hkeep hrev.symm n hkept).trans ((congrFun (Spec.view_tree hview) n).trans htree)
  · have := h.top _ hm
    omega
  · rcases mem_cons.mp hx with rfl | hx
    · exact le_rfl
    · exact (h.top x hx).trans hlt.le

lemma setter_cons (p : Put ν ρ κ) (log : List (Put ν ρ κ)) (n : ν) :
    setter (p :: log) n = if p.sets n then some p else setter log n := by
  unfold setter
  rw [List.find?_cons]
  cases p.sets n <;> rfl

lemma rerouted_cons (p : Put ν ρ κ) (log : List (Put ν ρ κ)) (n : ν) :
    rerouted (p :: log) n = if p.sets n then (p.updateNodes.lookup n).isSome else rerouted log n := by
  unfold rerouted
  rw [setter_cons]
  split <;> rfl

lemma Put.apply_spec (h : p.apply m = some edited) :
    edited.spec.missionTree = foldRoutes (p.missionTree.getD m.spec.missionTree) p.updateNodes ∧
      edited.spec.routeRev = m.spec.routeRev + (if p.updateNodes.isEmpty then 0 else 1) := by
  unfold Put.apply at h
  split at h
  · rename_i hempty
    cases h
    rw [isEmpty_iff.mp hempty]
    exact ⟨rfl, rfl⟩
  · rename_i hne
    unfold Row.update at h
    split at h
    · cases h
    · split at h <;> cases h
      refine ⟨rfl, ?_⟩
      rw [if_neg hne]
      rfl

lemma Put.apply_status (h : p.apply m = some edited) :
    edited.status = (p.edit m).status := by
  unfold Put.apply at h
  split at h
  · cases h
    rfl
  · unfold Row.update at h
    split at h
    · cases h
    · split at h <;> cases h
      rfl

omit [DecidableEq ν] in
lemma Put.edit_status (p : Put ν ρ κ) (m : Row ν ρ κ) :
    (p.edit m).status.appliedRouteRev = m.status.appliedRouteRev ∧ (p.edit m).status.commit = m.status.commit := by
  unfold Put.edit
  cases p.missionTree <;> exact ⟨rfl, rfl⟩

lemma Put.keeps (h : p.setsTree = false) (edited stored : Spec ν ρ κ) :
    (p.store edited stored).view = stored.view ∧ ∀ n, p.sets n = false := by
  unfold Put.setsTree at h
  rw [Bool.or_eq_false_iff, Bool.not_eq_false', List.isEmpty_iff] at h
  obtain ⟨htree, hnodes⟩ := h
  refine ⟨?_, fun n => ?_⟩
  · unfold Put.store Put.setsTree Spec.view
    rw [htree, hnodes]
    rfl
  · unfold Put.sets
    rw [htree, hnodes]
    rfl

lemma Put.store_fresh {stored : Spec ν ρ κ}
    (hp : p.setsTree = true) (h : p.apply m = some edited) (hfresh : stored.view = m.spec.view) :
    (p.store edited.spec stored).missionTree = edited.spec.missionTree ∧
      (p.store edited.spec stored).routeRev = edited.spec.routeRev ∧
      edited.spec.routeRev = stored.routeRev + (if p.updateNodes.isEmpty then 0 else 1) ∧
      (∀ n, p.sets n = false → edited.spec.missionTree n = stored.missionTree n) ∧
      ∀ n, ∀ r ∈ p.updateNodes.lookup n, edited.spec.missionTree n = some r := by
  obtain ⟨htree, hrev⟩ := Put.apply_spec h
  have hstored := Spec.view_rev hfresh
  rw [← hstored] at hrev
  refine ⟨?_, ?_, hrev, fun n hn => ?_, fun n r hr => ?_⟩
  · unfold Put.store
    rw [hp]
    rfl
  · unfold Put.store
    dsimp only
    split
    · rename_i hempty
      rw [hrev, if_pos hempty, Nat.add_zero]
    · rfl
  · unfold Put.sets at hn
    rw [Bool.or_eq_false_iff] at hn
    have hedit := isNone_iff_eq_none.mp (isSome_eq_false_iff.mp hn.1)
    have hnode := isNone_iff_eq_none.mp (isSome_eq_false_iff.mp hn.2)
    rw [htree, foldRoutes, hnode, hedit, Spec.view_tree hfresh]
    rfl
  · rw [htree, foldRoutes, mem_def.mp hr]

lemma Inv.onSpec (h : Inv w) {spec : Spec ν ρ κ} (hrev : w.row.spec.routeRev ≤ spec.routeRev)
    (howed : owed = false → w.owed = false ∧ spec.view = w.row.spec.view)
    (hcopy : ∀ c ∈ w.mission, c.Ok spec.routeRev log)
    (hroutes : ∀ n, ∀ p ∈ setter log n, ∀ r ∈ p.updateNodes.lookup n, spec.missionTree n = some r)
    (hgiven : revs.Nodup) (htop : ∀ x ∈ revs, x ≤ spec.routeRev) :
    Inv { w with row := { w.row with spec := spec }, owed := owed, log := log, revs := revs } := by
  refine ⟨fun m hm => (h.inbox m hm).trans hrev, h.sorted, fun ho m hm => ?_, fun hq c hc => ?_, hcopy,
    h.ended, h.first, hroutes, hgiven, htop, h.commit⟩
  · obtain ⟨ho, hview⟩ := howed ho
    have := h.last ho m hm
    rw [← hview, ← Spec.view_rev hview] at this
    exact this
  · obtain ⟨ho, hview⟩ := howed hq.1
    exact (h.calm ⟨ho, hq.2⟩ c hc).trans hview.symm

lemma Inv.writeOther (h : Inv w) {edited : Spec ν ρ κ}
    (hp : p.setsTree = false) (howed : owed = false → w.owed = false) (hrevs : revs = w.revs) :
    Inv { w with
      row := { w.row with spec := p.store edited w.row.spec }
      owed := owed
      log := p :: w.log
      revs := revs } := by
  obtain ⟨hview, hsets⟩ := Put.keeps hp edited w.row.spec
  have hrev := Spec.view_rev hview
  have hsetter (n : ν) : setter (p :: w.log) n = setter w.log n := by
    rw [setter_cons, hsets n]
    rfl
  have hrerouted (n : ν) : rerouted (p :: w.log) n = rerouted w.log n := by
    unfold rerouted
    rw [hsetter]
  refine h.onSpec hrev.ge (fun ho => ⟨howed ho, hview⟩) (fun c hc => ?_) (fun n q hq r hr => ?_)
    (hrevs ▸ h.given) (hrevs ▸ hrev ▸ h.top)
  · have hok := h.copy c hc
    refine ⟨hrev ▸ hok.known, hok.applied, hok.settled, fun base planned hs => ?_⟩
    obtain ⟨hnext, hkeep⟩ := hok.storing base planned hs
    refine ⟨hnext, fun he n hn => ?_⟩
    rw [hrerouted] at hn
    exact hkeep (hrev ▸ he) n hn
  · rw [hsetter] at hq
    rw [Spec.view_tree hview]
    exact h.routes n q hq r hr

lemma Inv.writeTree (h : Inv w) (hp : p.setsTree = true)
    (happly : p.apply m = some edited) (hfresh : w.row.spec.view = m.spec.view) :
    Inv { w with
      row := { w.row with spec := p.store edited.spec w.row.spec }
      owed := true
      log := p :: w.log
      revs := if p.updateNodes.isEmpty then w.revs else edited.spec.routeRev :: w.revs } := by
  obtain ⟨htree, hrev, hnext, hkept, hset⟩ := Put.store_fresh hp happly hfresh
  have hle : w.row.spec.routeRev ≤ (p.store edited.spec w.row.spec).routeRev := by
    rw [hrev, hnext]
    exact Nat.le_add_right _ _
  refine h.onSpec hle (fun ho => (nomatch ho)) (fun c hc => ?_) (fun n q hq r hr => ?_) ?_
    fun x hx => ?_
  · have hok := h.copy c hc
    refine ⟨hok.known.trans hle, hok.applied, hok.settled, fun base planned hs => ?_⟩
    obtain ⟨hbase, -⟩ := hok.storing base planned hs
    refine ⟨hbase, fun he n hn => ?_⟩
    have hknown : base.routeRev ≤ w.row.spec.routeRev := by
      have hk := hok.known
      unfold Mission.known at hk
      rw [hs] at hk
      exact hk
    cases hempty : p.updateNodes.isEmpty with
    | false =>
      rw [hempty] at hnext
      have : edited.spec.routeRev = w.row.spec.routeRev + 1 := hnext
      omega
    | true =>
      -- the request was an edit of the whole tree, so no node was last set by a reroute
      rw [rerouted_cons, isEmpty_iff.mp hempty] at hn
      unfold Put.setsTree at hp
      unfold Put.sets at hn
      rw [hempty, Bool.not_true, Bool.or_false] at hp
      rw [hp] at hn
      cases hn
  · rw [setter_cons] at hq
    rw [htree]
    split at hq
    · cases hq
      exact hset n r hr
    · rename_i hsets
      rw [Bool.not_eq_true] at hsets
      rw [hkept n hsets]
      exact h.routes n q hq r hr
  · split
    · exact h.given
    · rename_i hne
      rw [if_neg hne] at hnext
      refine nodup_cons.mpr ⟨fun hm => ?_, h.given⟩
      have := h.top _ hm
      omega
  · split at hx
    · exact (h.top x hx).trans hle
    · rcases mem_cons.mp hx with rfl | hx
      · exact hrev.ge
      · exact (h.top x hx).trans hle

lemma Inv.write (h : Inv w) {i : ℕ}
    (hreq : w.requests i = some (.measuring p m)) (hfresh : (Request.measuring p m).Fresh w.row)
    (happly : p.apply m = some edited) : Inv (write w i p edited) := by
  have hspec : Inv { w with
      row := { w.row with spec := p.store edited.spec w.row.spec }
      owed := w.owed || p.edits || p.setsTree
      log := p :: w.log
      revs := if p.updateNodes.isEmpty then w.revs else edited.spec.routeRev :: w.revs } := by
    cases hp : p.setsTree with
    | true =>
      rw [Bool.or_true]
      exact h.writeTree hp happly (hfresh hp)
    | false =>
      have hempty : p.updateNodes.isEmpty = true := by
        unfold Put.setsTree at hp
        rw [Bool.or_eq_false_iff, Bool.not_eq_false'] at hp
        exact hp.2
      refine h.writeOther hp (fun ho => ?_) (if_pos hempty)
      rw [Bool.or_false, Bool.or_eq_false_iff] at ho
      exact ho.1
  refine hspec.onRequests fun hn hf x hx => ?_
  obtain ⟨-, -, hall, -⟩ := h.first hn hf
  split at hx <;> cases hx
  have hread : m.status.appliedRouteRev = 0 := hall i _ hreq
  rw [← hread, ← (p.edit_status m).1, ← Put.apply_status happly]
  rfl

lemma lookup_mem {us : List (ν × ρ)} (h : us.lookup n = some r) : (n, r) ∈ us := by
  induction us with
  | nil => cases h
  | cons u us ih =>
    rw [lookup_cons] at h
    split at h
    · rename_i he
      cases h
      rw [eq_of_beq he]
      exact mem_cons_self
    · exact mem_cons_of_mem _ (ih h)

lemma Inv.bump (h : Inv w) (hc : w.mission = some c) (hstage : c.stage = .starting)
    {path : Option κ}
    (hkeep : ∀ n, rerouted w.log n = true → tree n = c.spec.missionTree n) :
    Inv { w with mission := some (c.bump tree path planned) } := by
  have hknown : c.known = c.spec := Mission.known_eq fun _ _ => hstage ▸ fun hs => (nomatch hs)
  have hok := h.copy c hc
  refine h.onCopy hc (congrArg Spec.view hknown.symm) ⟨?_, le_rfl, fun _ => rfl, fun base _ hs => ?_⟩
  · have hk := hok.known
    rw [hknown] at hk
    exact hk
  · obtain ⟨rfl, -⟩ := Stage.storing.inj hs
    exact ⟨rfl, fun _ => hkeep⟩

lemma Inv.onStage (h : Inv w) (hc : w.mission = some c) (hidle : ∀ base planned, c.stage ≠ .storing base planned)
    (hidle' : ∀ base planned, c'.stage ≠ .storing base planned) (hspec : c'.spec = c.spec)
    (happlied : c'.status.appliedRouteRev ≤ c.spec.routeRev)
    (hsettled : c'.stage ≠ .waiting → c'.status.appliedRouteRev = c.spec.routeRev) :
    Inv { w with mission := some c' } := by
  have hknown := Mission.known_eq hidle
  have hknown' := Mission.known_eq hidle'
  refine h.onCopy hc (by rw [hknown, hknown', hspec]) ⟨?_, hspec ▸ happlied, hspec ▸ hsettled,
    fun base planned hs => absurd hs (hidle' base planned)⟩
  have hk := (h.copy c hc).known
  rw [hknown] at hk
  rw [hknown', hspec]
  exact hk

lemma Inv.step (h : Inv w) {a : Act ν ρ κ} (ha : Careful w a) (hstep : step w a = some w') :
    Inv w' := by
  have hmission {f : Mission ν ρ κ → Option (World ν ρ κ)} (hs : w.mission.bind f = some w') :
      ∃ c, w.mission = some c ∧ f c = some w' := bind_eq_some_iff.mp hs
  cases a <;> dsimp only [Reroute.step] at hstep
  case put i p =>
    split at hstep
    · split at hstep <;> cases hstep
      refine h.onRequests fun hn hf x hx => ?_
      cases hx
      exact (h.first hn hf).1
    · cases hstep
  case refuse i =>
    split at hstep <;> cases hstep
    exact h.onRequests fun _ _ _ hx => (nomatch hx)
  case write i =>
    split at hstep
    · rename_i p m hreq
      split at hstep <;> cases hstep
      · rename_i happly
        exact h.write hreq (ha _ hreq) happly
      · exact h.onRequests fun _ _ _ hx => (nomatch hx)
    · cases hstep
  case writeStatus i =>
    split at hstep <;> cases hstep
    rename_i s hreq
    have hfresh : w.row.status.commit = s.commit := ha _ hreq
    have hstored : Inv { w with row := { w.row with status := s }, owed := true } :=
      h.onStatus (fun ho => (nomatch ho)) (fun hn hf => (h.first hn hf).2.2.1 i _ hreq) hfresh.symm
    exact hstored.onRequests fun _ _ _ hx => (nomatch hx)
  case deliver =>
    cases hstep
    exact h.deliver
  case handle =>
    split at hstep
    · rename_i m rest hin
      refine h.handle hin (fun c hc => ha m ?_ c hc) hstep
      rw [hin]
      rfl
    · cases hstep
  case settle =>
    obtain ⟨c, hc, hs⟩ := hmission hstep
    split at hs <;> cases hs
    rename_i hstage
    have hok := h.copy c hc
    have hsettled : c.settle.status.appliedRouteRev = c.spec.routeRev := by
      unfold Mission.settle
      dsimp only
      split
      · exact le_antisymm hok.applied ‹_›
      · rfl
    exact h.onStage hc (fun _ _ => hstage ▸ fun hs => (nomatch hs)) (fun _ _ hs => (nomatch hs)) rfl
      hsettled.le fun _ => hsettled
  case replan n r path =>
    obtain ⟨c, hc, hs⟩ := hmission hstep
    split at hs
    · rename_i hstage
      split at hs <;> cases hs
      refine h.bump hc hstage fun n' hn' => ?_
      by_cases he : n' = n
      · subst he
        rw [update_self]
        exact (ha c hc hn').symm
      · exact update_of_ne he _ _
    · cases hs
  case enrich us =>
    obtain ⟨c, hc, hs⟩ := hmission hstep
    split at hs
    · rename_i hstage
      split at hs <;> cases hs
      refine h.bump hc hstage fun n hn => ?_
      unfold foldRoutes
      split
      · rename_i r hr
        exact (ha c hc (n, r) (lookup_mem hr) hn).symm
      · rfl
    · cases hs
  case store ok =>
    obtain ⟨c, hc, hs⟩ := hmission hstep
    obtain ⟨rfl, hview⟩ := ha
    split at hs <;> cases hs
    exact h.store hc ‹_› (hview c hc)
  case giveUp =>
    obtain ⟨c, hc, hs⟩ := hmission hstep
    split at hs <;> cases hs
    rename_i hstage
    exact h.onStage hc (fun _ _ => hstage ▸ fun hs => (nomatch hs)) (fun _ _ hs => (nomatch hs)) rfl
      (h.copy c hc).applied fun hs => absurd rfl hs
  case dispatch =>
    obtain ⟨c, hc, hs⟩ := hmission hstep
    split at hs <;> cases hs
    rename_i hstage
    exact h.onStage hc (fun _ _ => hstage ▸ fun hs => (nomatch hs)) (fun _ _ hs => (nomatch hs)) rfl
      (h.copy c hc).applied fun _ => (h.copy c hc).settled (hstage ▸ fun hs => (nomatch hs))
  case progress state nodeDone =>
    obtain ⟨c, hc, hs⟩ := hmission hstep
    split at hs <;> cases hs
    rename_i hstage
    have hidle {base : Spec ν ρ κ} {planned : Bool} : c.stage ≠ .storing base planned :=
      hstage ▸ fun hs => (nomatch hs)
    exact h.onStage hc (fun _ _ => hidle) (fun _ _ => hidle) rfl (h.copy c hc).applied
      (h.copy c hc).settled
  case startCommit =>
    obtain ⟨c, hc, hs⟩ := hmission hstep
    split at hs <;> cases hs
    refine h.onWriting fun hn => ?_
    rw [hn] at hc
    cases hc
  case land =>
    obtain ⟨s, hs, he⟩ := bind_eq_some_iff.mp hstep
    cases he
    exact h.land hs
  case lose =>
    obtain ⟨s, -, he⟩ := bind_eq_some_iff.mp hstep
    cases he
    exact h.onWriting fun _ => rfl
  case finish =>
    obtain ⟨c, -, hs⟩ := hmission hstep
    split at hs <;> cases hs
    exact h.finish

/-- Once all deliveries are handled, every accepted reroute is in the row and in the dispatcher's
tree unless a later accepted request set the node, the dispatcher has the row's tree, and no
revision stands for two trees; the row's status is the last the dispatcher committed. -/
structure Kept (w : World ν ρ κ) : Prop where
  reroutes : w.Quiet → ∀ later p earlier, w.log = later ++ p :: earlier → ∀ n r,
    p.updateNodes.lookup n = some r → (∀ q ∈ later, q.sets n = false) →
      w.row.spec.missionTree n = some r ∧ ∀ c ∈ w.mission, c.spec.missionTree n = some r
  applied : w.Quiet → ∀ c ∈ w.mission, (∀ base planned, c.stage ≠ .storing base planned) →
    c.spec.view = w.row.spec.view
  revs : w.Quiet → ∀ c ∈ w.mission, c.spec.routeRev = w.row.spec.routeRev →
    c.spec.missionTree = w.row.spec.missionTree
  given : w.revs.Nodup
  status : w.row.status.commit = w.committed

lemma setter_append {later earlier : List (Put ν ρ κ)}
    (hp : p.updateNodes.lookup n = some r) (hlater : ∀ q ∈ later, q.sets n = false) :
    setter (later ++ p :: earlier) n = some p := by
  induction later with
  | nil =>
    have hsets : p.sets n = true := by
      unfold Put.sets
      rw [hp, isSome_some, Bool.or_true]
    rw [nil_append, setter_cons, hsets]
    rfl
  | cons q later ih =>
    rw [cons_append, setter_cons, hlater q mem_cons_self]
    exact ih fun x hx => hlater x (mem_cons_of_mem _ hx)

lemma Inv.kept (h : Inv w) : Kept w := by
  refine ⟨fun hq later p earlier hlog n r hr hlater => ?_, fun hq c hc hs => ?_, fun hq c hc hrev => ?_, h.given, h.commit⟩
  · have hsetter : setter w.log n = some p := hlog ▸ setter_append hr hlater
    have hrow := h.routes n p hsetter r hr
    refine ⟨hrow, fun c hc => ?_⟩
    have hview := h.calm hq c hc
    by_cases hs : ∃ base planned, c.stage = .storing base planned
    · obtain ⟨base, planned, hs⟩ := hs
      have hknown : c.known = base := by
        unfold Mission.known
        rw [hs]
      rw [hknown] at hview
      obtain ⟨-, hkeep⟩ := (h.copy c hc).storing base planned hs
      rw [hkeep (Spec.view_rev hview).symm n (rerouted_of_setter hsetter hr), Spec.view_tree hview]
      exact hrow
    · push Not at hs
      rw [Mission.known_eq hs] at hview
      rw [Spec.view_tree hview]
      exact hrow
  · rw [← Mission.known_eq hs]
    exact h.calm hq c hc
  · have hview := h.calm hq c hc
    by_cases hs : ∃ base planned, c.stage = .storing base planned
    · obtain ⟨base, planned, hs⟩ := hs
      have hknown : c.known = base := by
        unfold Mission.known
        rw [hs]
      rw [hknown] at hview
      have hbase := Spec.view_rev hview
      have hnext := ((h.copy c hc).storing base planned hs).1
      omega
    · push Not at hs
      rw [Mission.known_eq hs] at hview
      exact Spec.view_tree hview

/-- In a run in which nobody writes over what it has not read, accepted edits are kept. -/
theorem edits_kept {tree : ν → Option ρ} {path : Option κ}
    (h : Runs step Careful (World.created tree path) w) : Kept w :=
  (h.invariant (Inv.created tree path) fun _ _ _ hc hi hs => hi.step hc hs).kept

section Tests
variable [Fintype ν] [DecidableEq ρ]

instance (row : Row ν ρ κ) (q : Request ν ρ κ) : Decidable (q.Fresh row) :=
  match q with
  | .measuring p m => inferInstanceAs (Decidable (p.setsTree = true → row.spec.view = m.spec.view))
  | .storingStatus s => inferInstanceAs (Decidable (row.status.commit = s.commit))

instance (c : Mission ν ρ κ) (m : Spec ν ρ κ) : Decidable (c.Takes m) :=
  match c with
  | ⟨s, _, .waiting⟩ => inferInstanceAs (Decidable (s.routeRev ≤ m.routeRev))
  | ⟨s, t, .dispatched⟩ => inferInstanceAs (Decidable
      ((m.routeRev = t.appliedRouteRev → m.missionTree = s.missionTree) ∧
        (t.appliedRouteRev < m.routeRev →
          (fun n => (m.missionTree n).isSome) = fun n => (s.missionTree n).isSome)))
  | ⟨_, _, .starting⟩ | ⟨_, _, .storing _ _⟩ => isTrue trivial

instance (w : World ν ρ κ) (a : Act ν ρ κ) : Decidable (Careful w a) :=
  match a with
  | .write i | .writeStatus i => inferInstanceAs (Decidable (∀ q ∈ w.requests i, q.Fresh w.row))
  | .handle => inferInstanceAs (Decidable (∀ m ∈ w.inbox.head?, ∀ c ∈ w.mission, c.Takes m.spec))
  | .store ok =>
    inferInstanceAs (Decidable (ok = true ∧ ∀ c ∈ w.mission, c.known.view = w.row.spec.view))
  | .replan n r _ => inferInstanceAs (Decidable
      (∀ c ∈ w.mission, rerouted w.log n = true → c.spec.missionTree n = some r))
  | .enrich us => inferInstanceAs (Decidable (∀ c ∈ w.mission, ∀ u ∈ us,
      rerouted w.log u.1 = true → c.spec.missionTree u.1 = some u.2))
  | .put _ _ | .refuse _ | .deliver | .settle | .giveUp | .dispatch | .progress _ _ | .startCommit
  | .land | .lose | .finish => isTrue trivial

end Tests

/-- An edit of the queued mission, an enrichment at its start, and two reroutes while it runs. -/
def editedActs : List (Act Bool ℕ ℕ) :=
  [.deliver, .handle, .put 0 ⟨some fun _ => some 1, none, []⟩, .write 0, .writeStatus 0, .deliver,
    .handle, .settle, .enrich [(true, 2)], .store true, .dispatch,
    .progress .running fun _ => false, .startCommit, .land, .put 1 ⟨none, none, [(true, 3)]⟩, .write 1,
    .put 2 ⟨none, none, [(false, 4)]⟩, .deliver, .write 2, .handle, .deliver, .handle]

theorem edits_kept_rerouted : ∃ w : World Bool ℕ ℕ,
    Runs step Careful (World.created (fun _ => some 0) none) w ∧ w.Quiet ∧ w.log.length = 3 ∧
      w.row.spec.routeRev = 3 ∧ Kept w := by
  obtain ⟨w, hw, hend⟩ := Runs.of_play_any (P := fun w : World Bool ℕ ℕ => decide
      ((w.owed = false ∧ w.inbox.isEmpty = true) ∧ w.log.length = 3 ∧ w.row.spec.routeRev = 3))
    (fun _ _ => of_decide_eq_true : ∀ w a, decide (Careful w a) = true → Careful w a)
    (show (play step _ (World.created (fun _ => some 0) none) editedActs).any _ = true by
      decide)
  obtain ⟨⟨howed, hin⟩, hlog, hrev⟩ := of_decide_eq_true hend
  exact ⟨w, hw, ⟨howed, isEmpty_iff.mp hin⟩, hlog, hrev, edits_kept hw⟩

/-- Two reroutes of different nodes that both read the row before either writes it. -/
def crossedActs : List (Act Bool ℕ ℕ) :=
  [.deliver, .handle, .settle, .dispatch, .put 0 ⟨none, none, [(true, 1)]⟩,
    .put 1 ⟨none, none, [(false, 2)]⟩, .write 0, .write 1, .deliver, .handle]

/-- The first of them is lost. -/
theorem reroute_lost : ¬ ∀ w : World Bool ℕ ℕ,
    Runs step (fun _ _ => True) (World.created (fun _ => some 0) none) w → Kept w := by
  intro hall
  obtain ⟨w, hw, hend⟩ := Runs.of_play_any
    (P := fun w : World Bool ℕ ℕ => decide ((w.owed = false ∧ w.inbox.isEmpty = true) ∧
      w.log.map (fun p => p.updateNodes) = [[(false, 2)], [(true, 1)]] ∧
      w.log.all (fun p => p.missionTree.isNone) = true ∧
      w.row.spec.missionTree true = some 0)) (fun _ _ _ => trivial)
    (show (play step (fun _ _ => true) (World.created (fun _ => some 0) none) crossedActs).any _ = true
      by decide)
  obtain ⟨⟨howed, hin⟩, hlog, hno, hrow⟩ := of_decide_eq_true hend
  obtain ⟨q, p, hpq⟩ : ∃ q p, w.log = [q, p] := by
    have hlen := congrArg List.length hlog
    rw [length_map] at hlen
    exact length_eq_two.mp hlen
  rw [hpq] at hlog hno
  obtain ⟨hq, hp⟩ : q.updateNodes = [(false, 2)] ∧ p.updateNodes = [(true, 1)] := by
    simpa using hlog
  have hsets : q.sets true = false := by
    unfold Put.sets
    rw [hq, isNone_iff_eq_none.mp (all_eq_true.mp hno q mem_cons_self)]
    rfl
  have hkept := (hall w hw).reroutes ⟨howed, isEmpty_iff.mp hin⟩ [q] p [] hpq true 1
    (by rw [hp]; rfl) fun x hx => by rw [mem_singleton.mp hx]; exact hsets
  rw [hrow] at hkept
  cases hkept.1

end CloudServer.Reroute
