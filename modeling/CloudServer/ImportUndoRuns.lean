import CloudServer.ImportUndo

/-! Undo after any sequence of imports: it removes what its import inserted and nothing that it has
to leave, as long as no import is remembered for what it did not insert. -/
namespace CloudServer.ImportUndo

open Provenance List

/-- No step remembers an import for something that its undo has to leave, or leaves something
that an import inserted unremembered. -/
def Clean (S : State) : Act → Prop
  | .commitMap x map => ∀ row ∈ S.maps, row.name = map → ¬Spared x row.origin
  | .addRuns x runs legs =>
    (∀ run ∈ runs, S.hasRun run = false → ∀ y, y ≠ x → (y, Item.run run) ∉ S.items) ∧
      ∀ leg ∈ legs, S.hasLeg leg = false →
        ((x, legItem leg) ∈ S.items ∨ leg.1 ∈ runs ∧ S.hasRun leg.1 = false) ∧
          ∀ y, y ≠ x → (y, legItem leg) ∉ S.items
  | .addHistory x kind run keys => S.newKeys kind run keys ≠ [] →
      (∀ t ∈ S.rows, rowItem t.key = .history kind run → ¬Spared x t.origin) ∧
        ∀ y, y ≠ x → (y, Item.history kind run) ∉ S.items
  | .recordBag x bag => ∀ t ∈ S.bags, t.key = bag → ¬Spared x t.origin
  | .copyBag x bag => ∀ y, y ≠ x → (y, Item.rosbag bag) ∉ S.items
  | .rollback x refused => ∀ t ∈ S.bags, t.origin = .imported x → t.key ∉ refused
  | _ => True

structure Tracked (S : State) : Prop where
  sound : ∀ row ∈ S.maps, ∀ x ∈ row.finds, ¬Spared x row.origin
  complete : ∀ row ∈ S.maps, ∀ x, row.origin = .imported x → x ∈ row.finds
  marked : ∀ row ∈ S.maps, ∀ x ∈ row.finds, x ∈ S.started
  names : (S.maps.map (·.name)).Nodup
  opened : ∀ o ∈ S.opened, ∀ row ∈ S.maps, row.name = o.map →
    (∀ x, row.origin = .imported x → x ∈ o.marker.finds) ∧
      ∀ x ∈ o.marker.finds, x ≠ o.importId → ¬Spared x row.origin
  openers : ∀ o ∈ S.opened, ∀ x ∈ o.marker.finds, x ∈ S.started
  runs : Remembered S.items .run S.runs
  legs : Remembered S.items legItem S.legs
  rows : Remembered S.items rowItem S.rows
  bags : Remembered S.items .rosbag S.bags
  foreign : ∀ leg ∈ S.legs, S.hasRun leg.key.1 = true
  items : ∀ p ∈ S.items, p.1 ∈ S.started
  copying : ∀ p ∈ S.copying, (p.1, Item.rosbag p.2) ∈ S.items

variable {S T : State} {x : ImportId}
variable {run : RunId} {maps : List MapRow} {row row' : MapRow} {copying : List (ImportId × Bag)}
variable {refused : List Bag}

lemma hasRun_iff : S.hasRun run = true ↔ ∃ t ∈ S.runs, t.key = run := by
  simp [State.hasRun]

lemma Tracked.start (h : Tracked S) (x : ImportId) : Tracked (S.start x) where
  sound := h.sound
  complete := h.complete
  marked row hr y hy := mem_cons_of_mem _ (h.marked row hr y hy)
  names := h.names
  opened := h.opened
  openers o ho y hy := mem_cons_of_mem _ (h.openers o ho y hy)
  runs := h.runs
  legs := h.legs
  rows := h.rows
  bags := h.bags
  foreign := h.foreign
  items p hp := mem_cons_of_mem _ (h.items p hp)
  copying := h.copying

lemma Tracked.onMaps (h : Tracked S) {opened : List Open}
    (hsound : ∀ row ∈ maps, ∀ x ∈ row.finds, ¬Spared x row.origin)
    (hcomplete : ∀ row ∈ maps, ∀ x, row.origin = .imported x → x ∈ row.finds)
    (hmarked : ∀ row ∈ maps, ∀ x ∈ row.finds, x ∈ S.started)
    (hnames : (maps.map (·.name)).Nodup)
    (hopened : ∀ o ∈ opened, ∀ row ∈ maps, row.name = o.map →
      (∀ x, row.origin = .imported x → x ∈ o.marker.finds) ∧ ∀ x ∈ o.marker.finds, x ≠ o.importId → ¬Spared x row.origin)
    (hopeners : ∀ o ∈ opened, ∀ x ∈ o.marker.finds, x ∈ S.started) :
    Tracked { S with maps := maps, opened := opened } where
  sound := hsound
  complete := hcomplete
  marked := hmarked
  names := hnames
  opened := hopened
  openers := hopeners
  runs := h.runs
  legs := h.legs
  rows := h.rows
  bags := h.bags
  foreign := h.foreign
  items := h.items
  copying := h.copying

def Hides (row row' : MapRow) : Prop :=
  row.name = row'.name ∧ row.marker = row'.marker ∧ row.origin = row'.origin

lemma Hides.finds (h : Hides row row') : row.finds = row'.finds :=
  congrArg (fun m : Option Marker => (m.map Marker.finds).getD []) h.2.1

lemma Tracked.fewerMaps (h : Tracked S)
    (hsub : ∀ row ∈ maps, ∃ row' ∈ S.maps, Hides row row') (hnames : (maps.map (·.name)).Nodup) :
    Tracked { S with maps := maps } := by
  refine h.onMaps ?_ ?_ ?_ hnames ?_ h.openers
  · intro row hr y hy
    obtain ⟨row', hr', hh⟩ := hsub row hr
    rw [hh.2.2]
    exact h.sound row' hr' y (hh.finds ▸ hy)
  · intro row hr y hy
    obtain ⟨row', hr', hh⟩ := hsub row hr
    rw [hh.finds]
    exact h.complete row' hr' y (hh.2.2 ▸ hy)
  · intro row hr y hy
    obtain ⟨row', hr', hh⟩ := hsub row hr
    exact h.marked row' hr' y (hh.finds ▸ hy)
  · intro o ho row hr hname
    obtain ⟨row', hr', hh⟩ := hsub row hr
    rw [hh.2.2]
    exact h.opened o ho row' hr' (hh.1 ▸ hname)

lemma Tracked.hide (h : Tracked S) (p : MapRow → Prop) [DecidablePred p] :
    Tracked { S with maps := S.maps.map fun row => if p row then { row with alive := false } else row } := by
  have hhides : ∀ row : MapRow, Hides (if p row then { row with alive := false } else row) row := by
    intro row
    split <;> exact ⟨rfl, rfl, rfl⟩
  refine h.fewerMaps (fun row hr => ?_) ?_
  · obtain ⟨row', hr', rfl⟩ := mem_map.mp hr
    exact ⟨row', hr', hhides row'⟩
  · rw [map_map]
    have hsame : (fun row : MapRow => row.name) ∘ (fun row => if p row then { row with alive := false }
        else row) = fun row => row.name := funext fun row => (hhides row).1
    rw [hsame]
    exact h.names

lemma mem_finds_begin {m : Marker} {y : ImportId} :
    y ∈ ({ m with importIds := if x ∈ m.ids then m.ids else m.ids ++ [x] } : Marker).finds ↔ y ∈ m.finds ∨ y = x := by
  have hids : ∀ z, z ∈ m.finds ↔ z = m.importId ∨ z ∈ m.ids := by
    intro z
    unfold Marker.finds Marker.ids
    split
    · rename_i he
      simp [isEmpty_iff.mp he]
    · simp
  rw [hids]
  split
  · rename_i hx
    simp only [Marker.finds, mem_cons]
    constructor
    · exact .inl
    · rintro (hy | rfl)
      · exact hy
      · exact .inr hx
  · simp [Marker.finds, or_assoc]

lemma row_of_name (h : Tracked S) (hr : row ∈ S.maps) (hr' : row' ∈ S.maps)
    (hn : row.name = row'.name) : row = row' := inj_on_of_nodup_map h.names hr hr' hn

lemma Tracked.beginMap (h : Tracked S) (hx : x ∈ S.started) {map : MapName} (source : Source)
    (hlock : S.opened.any (·.map = map) = false) : Tracked (S.beginMap x map source) := by
  unfold State.beginMap
  split
  · rename_i row hrow
    have hmem : row ∈ S.maps := mem_of_find?_eq_some hrow
    have hname : row.name = map := by simpa using List.find?_some hrow
    split
    · rename_i m hm
      have hfinds : row.finds = m.finds := by simp [MapRow.finds, hm]
      split
      · refine h.onMaps h.sound h.complete h.marked h.names (fun o ho => ?_) fun o ho => ?_
        · obtain rfl | ho := mem_cons.mp ho
          · intro row' hr' hn'
            obtain rfl := row_of_name h hr' hmem (hn'.trans hname.symm)
            refine ⟨fun y hy => ?_, fun y hy hne => ?_⟩
            · exact mem_finds_begin.mpr (.inl (hfinds ▸ h.complete row' hr' y hy))
            · have hy' := (mem_finds_begin.mp hy).resolve_right hne
              exact h.sound row' hr' y (hfinds ▸ hy')
          · exact h.opened o ho
        · obtain rfl | ho := mem_cons.mp ho
          · intro y hy
            obtain hy | rfl := mem_finds_begin.mp hy
            · exact h.marked row hmem y (hfinds ▸ hy)
            · exact hx
          · exact h.openers o ho
      · exact h
    · exact h
  · rename_i hrow
    have hnew : ∀ row ∈ S.maps, row.name ≠ map := by
      intro row hr
      simpa using List.find?_eq_none.mp hrow row hr
    have hfree : ∀ o ∈ S.opened, o.map ≠ map := by simpa using hlock
    refine h.onMaps (fun row hr => ?_) (fun row hr => ?_) (fun row hr => ?_) ?_ (fun o ho => ?_)
      fun o ho => ?_
    · obtain rfl | hr := mem_cons.mp hr
      · intro y hy
        obtain rfl : y = x := by simpa [MapRow.finds, Marker.finds] using hy
        exact not_spared_self
      · exact h.sound row hr
    · obtain rfl | hr := mem_cons.mp hr
      · intro y hy
        obtain rfl : x = y := by simpa using hy
        simp [MapRow.finds, Marker.finds]
      · exact h.complete row hr
    · obtain rfl | hr := mem_cons.mp hr
      · intro y hy
        obtain rfl : y = x := by simpa [MapRow.finds, Marker.finds] using hy
        exact hx
      · exact h.marked row hr
    · rw [map_cons, nodup_cons]
      refine ⟨fun hm => ?_, h.names⟩
      obtain ⟨row, hr, hn⟩ := mem_map.mp hm
      exact hnew row hr hn
    · obtain rfl | ho := mem_cons.mp ho
      · intro row hr hn
        obtain rfl | hr := mem_cons.mp hr
        · refine ⟨fun y hy => ?_, fun y hy hne => ?_⟩
          · obtain rfl : x = y := by simpa using hy
            simp [Marker.finds]
          · exact absurd (by simpa [Marker.finds] using hy) hne
        · exact absurd hn (hnew row hr)
      · intro row hr hn
        obtain rfl | hr := mem_cons.mp hr
        · exact absurd hn.symm (hfree o ho)
        · exact h.opened o ho row hr hn
    · obtain rfl | ho := mem_cons.mp ho
      · intro y hy
        obtain rfl : y = x := by simpa [Marker.finds] using hy
        exact hx
      · exact h.openers o ho

lemma Tracked.commitMap (h : Tracked S) {o : Open} (ho : o ∈ S.opened)
    (hclean : ∀ row ∈ S.maps, row.name = o.map → ¬Spared o.importId row.origin) :
    Tracked (S.commitMap o) := by
  have hrow : ∀ row ∈ (S.commitMap o).maps, ∃ row' ∈ S.maps, row.name = row'.name ∧
      row.origin = row'.origin ∧ (row'.name = o.map ∧ row.finds = o.marker.finds ∨
        row'.name ≠ o.map ∧ row.finds = row'.finds) := by
    intro row hr
    obtain ⟨row', hr', rfl⟩ := mem_map.mp hr
    refine ⟨row', hr', ?_⟩
    by_cases hn : row'.name = o.map
    · simp [hn, MapRow.finds, Marker.finds]
    · simp [hn]
  refine h.onMaps (fun row hr => ?_) (fun row hr => ?_) (fun row hr => ?_) ?_ (fun q hq => ?_)
    fun q hq => h.openers q (mem_of_mem_erase hq)
  · obtain ⟨row', hr', -, horigin, ⟨hn, hfinds⟩ | ⟨hn, hfinds⟩⟩ := hrow row hr
    · intro y hy
      rw [hfinds] at hy
      rw [horigin]
      by_cases hyx : y = o.importId
      · exact hyx ▸ hclean row' hr' hn
      · exact (h.opened o ho row' hr' hn).2 y hy hyx
    · rw [hfinds, horigin]
      exact h.sound row' hr'
  · obtain ⟨row', hr', -, horigin, ⟨hn, hfinds⟩ | ⟨hn, hfinds⟩⟩ := hrow row hr
    · rw [hfinds, horigin]
      exact (h.opened o ho row' hr' hn).1
    · rw [hfinds, horigin]
      exact h.complete row' hr'
  · obtain ⟨row', hr', -, -, ⟨hn, hfinds⟩ | ⟨hn, hfinds⟩⟩ := hrow row hr
    · rw [hfinds]
      exact h.openers o ho
    · rw [hfinds]
      exact h.marked row' hr'
  · have hsame : (S.commitMap o).maps.map (·.name) = S.maps.map (·.name) := by
      simp only [State.commitMap, map_map]
      refine map_congr_left fun row _ => ?_
      simp only [Function.comp_apply]
      split <;> rfl
    exact hsame ▸ h.names
  · intro row hr hn
    obtain ⟨row', hr', hname, horigin, -⟩ := hrow row hr
    rw [horigin]
    exact h.opened q (mem_of_mem_erase hq) row' hr' (hname ▸ hn)

lemma Tracked.onItems (h : Tracked S) {runs : List (Thing ImportId RunId)}
    {legs : List (Thing ImportId (RunId × ℕ))} {rows : List (Thing ImportId History)}
    {bags : List (Thing ImportId Bag)} {items : List (ImportId × Item)}
    (hruns : Remembered items .run runs)
    (hlegs : Remembered items legItem legs) (hrows : Remembered items rowItem rows)
    (hbags : Remembered items .rosbag bags)
    (hforeign : ∀ leg ∈ legs, ∃ run ∈ runs, run.key = leg.key.1)
    (hitems : ∀ p ∈ items, p.1 ∈ S.started)
    (hcopying : ∀ p ∈ copying, (p.1, Item.rosbag p.2) ∈ items) :
    Tracked { S with
      runs := runs
      legs := legs
      rows := rows
      bags := bags
      items := items
      copying := copying } where
  sound := h.sound
  complete := h.complete
  marked := h.marked
  names := h.names
  opened := h.opened
  openers := h.openers
  runs := hruns
  legs := hlegs
  rows := hrows
  bags := hbags
  foreign leg hl := by
    simpa [State.hasRun] using hforeign leg hl
  items := hitems
  copying := hcopying

lemma Tracked.foreign' (h : Tracked S) : ∀ leg ∈ S.legs, ∃ run ∈ S.runs, run.key = leg.key.1 :=
  fun leg hl => hasRun_iff.mp (h.foreign leg hl)

lemma Tracked.remember (h : Tracked S) (hx : x ∈ S.started) (g : Item)
    (hruns : ∀ t ∈ S.runs, Item.run t.key = g → ¬Spared x t.origin)
    (hlegs : ∀ t ∈ S.legs, legItem t.key = g → ¬Spared x t.origin)
    (hrows : ∀ t ∈ S.rows, rowItem t.key = g → ¬Spared x t.origin)
    (hbags : ∀ t ∈ S.bags, Item.rosbag t.key = g → ¬Spared x t.origin) :
    Tracked { S with items := (x, g) :: S.items } := by
  refine h.onItems (h.runs.remember hruns) (h.legs.remember hlegs) (h.rows.remember hrows)
    (h.bags.remember hbags) h.foreign' (fun p hp => ?_) fun p hp => ?_
  · obtain rfl | hp := mem_cons.mp hp
    · exact hx
    · exact h.items p hp
  · exact mem_cons_of_mem _ (h.copying p hp)

lemma Tracked.addRun (h : Tracked S) (hx : x ∈ S.started)
    (hothers : S.hasRun run = false → ∀ y, y ≠ x → (y, Item.run run) ∉ S.items) :
    Tracked (S.addRun x run) := by
  unfold State.addRun
  split
  · exact h
  · rename_i hnew
    have hnone : ∀ t ∈ S.runs, t.key ≠ run := by simpa [State.hasRun] using hnew
    have hnoleg : ∀ t ∈ S.legs, t.key.1 ≠ run := by
      intro t ht he
      obtain ⟨r, hr, hk⟩ := h.foreign' t ht
      exact hnone r hr (hk.trans he)
    have h1 := h.remember hx (.run run) (fun t ht he => absurd (Item.run.inj he) (hnone t ht))
      (fun t ht he => absurd (Item.run.inj he) (hnoleg t ht)) (fun t _ he => by cases he)
      fun t _ he => by cases he
    refine h1.onItems ?_ h1.legs h1.rows h1.bags (fun leg hl => ?_) h1.items h1.copying
    · refine h1.runs.insert_imported rfl mem_cons_self fun y hy hm => ?_
      obtain heq | hm := mem_cons.mp hm
      · exact hy (congrArg Prod.fst heq)
      · exact hothers (by simpa using hnew) y hy hm
    · obtain ⟨r, hr, hk⟩ := h.foreign' leg hl
      exact ⟨r, mem_cons_of_mem _ hr, hk⟩

lemma Tracked.addLeg (h : Tracked S) {leg : RunId × ℕ} (hrun : S.hasRun leg.1 = true)
    (hclean : S.hasLeg leg = false → (x, legItem leg) ∈ S.items ∧ ∀ y, y ≠ x → (y, legItem leg) ∉ S.items) :
    Tracked (S.addLeg x leg) := by
  unfold State.addLeg
  split
  · exact h
  · rename_i hnew
    obtain ⟨hmine, hothers⟩ := hclean (by simpa using hnew)
    refine h.onItems h.runs (h.legs.insert_imported rfl hmine hothers) h.rows h.bags
      (fun t ht => ?_) h.items h.copying
    obtain rfl | ht := mem_cons.mp ht
    · exact hasRun_iff.mp hrun
    · exact h.foreign' t ht

structure RunsAdded (x : ImportId) (S T : State) : Prop where
  started : T.started = S.started
  legs : T.legs = S.legs
  others : ∀ y, y ≠ x → ∀ g, (y, g) ∈ T.items ↔ (y, g) ∈ S.items
  kept : ∀ p ∈ S.items, p ∈ T.items
  runs : ∀ run, S.hasRun run = true → T.hasRun run = true

lemma runsAdded_addRun (run : RunId) : RunsAdded x S (S.addRun x run) := by
  unfold State.addRun
  split
  · exact ⟨rfl, rfl, fun _ _ _ => Iff.rfl, fun _ hp => hp, fun _ hr => hr⟩
  · refine ⟨rfl, rfl, fun y hy g => ?_, fun _ hp => mem_cons_of_mem _ hp, fun r hr => ?_⟩
    · simp [hy]
    · obtain ⟨t, ht, hk⟩ := hasRun_iff.mp hr
      exact hasRun_iff.mpr ⟨t, mem_cons_of_mem _ ht, hk⟩

lemma addRun_hasRun (S : State) (run : RunId) : (S.addRun x run).hasRun run = true := by
  unfold State.addRun
  split
  · assumption
  · exact hasRun_iff.mpr ⟨_, mem_cons_self, rfl⟩

lemma RunsAdded.trans {U : State} (h1 : RunsAdded x S T) (h2 : RunsAdded x T U) :
    RunsAdded x S U where
  started := h2.started.trans h1.started
  legs := h2.legs.trans h1.legs
  others y hy g := (h2.others y hy g).trans (h1.others y hy g)
  kept p hp := h2.kept p (h1.kept p hp)
  runs r hr := h2.runs r (h1.runs r hr)

lemma Tracked.addRuns (h : Tracked S) (hx : x ∈ S.started) (runs : List RunId)
    (hothers : ∀ run ∈ runs, S.hasRun run = false → ∀ y, y ≠ x → (y, Item.run run) ∉ S.items) :
    Tracked (runs.foldl (State.addRun x) S) ∧ RunsAdded x S (runs.foldl (State.addRun x) S) ∧
      ∀ run ∈ runs, S.hasRun run = false → (x, Item.run run) ∈ (runs.foldl (State.addRun x) S).items := by
  induction runs generalizing S with
  | nil => exact ⟨h, ⟨rfl, rfl, fun _ _ _ => Iff.rfl, fun _ hp => hp, fun _ hr => hr⟩, by simp⟩
  | cons run runs ih =>
    have hadd := runsAdded_addRun (x := x) (S := S) run
    have h1 := h.addRun hx (hothers run mem_cons_self)
    obtain ⟨h2, h3, h4⟩ := ih h1 (hadd.started ▸ hx) fun r hr hno y hy hm => by
      have hno' : S.hasRun r = false := by
        by_contra hc
        exact absurd (hadd.runs r (by simpa using hc)) (by simp [hno])
      exact hothers r (mem_cons_of_mem _ hr) hno' y hy ((hadd.others y hy _).mp hm)
    refine ⟨h2, hadd.trans h3, fun r hr hno => ?_⟩
    by_cases hr1 : (S.addRun x run).hasRun r = true
    · apply h3.kept
      have hnew : r = run := by
        unfold State.addRun at hr1
        split at hr1
        · rw [hno] at hr1
          cases hr1
        · obtain ⟨t, ht, hk⟩ := hasRun_iff.mp hr1
          obtain rfl | ht := mem_cons.mp ht
          · exact hk.symm
          · exact absurd (hasRun_iff.mpr ⟨t, ht, hk⟩) (by simp [hno])
      subst hnew
      simp [State.addRun, hno]
    · obtain rfl | hr := mem_cons.mp hr
      · exact absurd (addRun_hasRun S r) hr1
      · exact h4 r hr (by simpa using hr1)

lemma Tracked.addLegs (h : Tracked S) (legs : List (RunId × ℕ)) (hrun : ∀ leg ∈ legs, S.hasRun leg.1 = true)
    (hclean : ∀ leg ∈ legs, S.hasLeg leg = false → (x, legItem leg) ∈ S.items ∧ ∀ y, y ≠ x → (y, legItem leg) ∉ S.items) :
    Tracked (legs.foldl (State.addLeg x) S) := by
  induction legs generalizing S with
  | nil => exact h
  | cons leg legs ih =>
    have hsame : (S.addLeg x leg).items = S.items ∧ (S.addLeg x leg).runs = S.runs := by
      unfold State.addLeg
      split <;> exact ⟨rfl, rfl⟩
    have hleg : ∀ l, (S.addLeg x leg).hasLeg l = false → S.hasLeg l = false := by
      intro l hl
      unfold State.addLeg at hl
      split at hl
      · exact hl
      · simp only [State.hasLeg, any_cons, Bool.or_eq_false_iff] at hl
        exact hl.2
    refine ih (h.addLeg (hrun leg mem_cons_self) (hclean leg mem_cons_self)) ?_ ?_
    · intro l hl
      simp only [State.hasRun, hsame.2]
      exact hrun l (mem_cons_of_mem _ hl)
    · intro l hl hno
      rw [hsame.1]
      exact hclean l (mem_cons_of_mem _ hl) (hleg l hno)

lemma Tracked.addHistory (h : Tracked S) (hx : x ∈ S.started) {kind : Kind}
    {keys : List ℕ} (hclean : S.newKeys kind run keys ≠ [] →
      (∀ t ∈ S.rows, rowItem t.key = .history kind run → ¬Spared x t.origin) ∧
        ∀ y, y ≠ x → (y, Item.history kind run) ∉ S.items) :
    Tracked (S.addHistory x kind run keys) := by
  unfold State.addHistory
  dsimp only
  split
  · exact h
  · rename_i hne
    obtain ⟨hrows, hothers⟩ := hclean (by simpa using hne)
    have h1 := h.remember hx (.history kind run) (fun t _ he => by cases he)
      (fun t _ he => by cases he) hrows fun t _ he => by cases he
    refine h1.onItems h1.runs h1.legs ?_ h1.bags h1.foreign' h1.items h1.copying
    generalize S.newKeys kind run keys = new
    induction new with
    | nil => exact h1.rows
    | cons key new ih =>
      refine ih.insert_imported rfl mem_cons_self fun y hy hm => ?_
      obtain heq | hm := mem_cons.mp hm
      · exact hy (congrArg Prod.fst heq)
      · exact hothers y hy hm

/-- Of import `x` nothing is left, and all that its rollback is to spare is still there. -/
structure Exact (S : State) (x : ImportId) (T : State) : Prop where
  maps : (∀ row ∈ T.maps, row.origin = .imported x → row.alive = false) ∧
    ∀ row ∈ S.maps, Spared x row.origin → row ∈ T.maps
  runs : (∀ t ∈ T.runs, t.origin ≠ .imported x) ∧ ∀ t ∈ S.runs, Spared x t.origin → t ∈ T.runs
  legs : (∀ t ∈ T.legs, t.origin ≠ .imported x) ∧ ∀ t ∈ S.legs, Spared x t.origin → t ∈ T.legs
  rows : (∀ t ∈ T.rows, t.origin ≠ .imported x) ∧ ∀ t ∈ S.rows, Spared x t.origin → t ∈ T.rows
  bags : (∀ t ∈ T.bags, t.origin ≠ .imported x) ∧ ∀ t ∈ S.bags, Spared x t.origin → t ∈ T.bags

lemma Tracked.exact (h : Tracked S) (x : ImportId)
    (hrefused : ∀ t ∈ S.bags, t.origin = .imported x → t.key ∉ refused) :
    Exact S x (S.rollback x refused) := by
  constructor
  · constructor
    · intro row hr ho
      obtain ⟨row', hr', rfl⟩ := mem_map.mp hr
      have ho' : row'.origin = .imported x := by
        split at ho <;> exact ho
      simp [h.complete row' hr' x ho']
    · intro row hr hs
      refine mem_map.mpr ⟨row, hr, if_neg fun hx => ?_⟩
      exact h.sound row hr x hx hs
  · exact h.runs.removed_exact x
  · exact h.legs.removed_exact x
  · exact h.rows.removed_exact x
  · constructor
    · intro t ht ho
      obtain ⟨hin, hnot⟩ := mem_filter.mp ht
      have hmem := h.bags.complete t hin x ho
      simp only [hmem, not_true_eq_false, false_or, decide_eq_true_eq] at hnot
      exact hrefused t hin ho hnot
    · intro t ht hs
      refine mem_filter.mpr ⟨ht, ?_⟩
      have hnot : (x, Item.rosbag t.key) ∉ S.items := fun hm => h.bags.sound t ht x hm hs
      simp [hnot]

lemma Tracked.rollback (h : Tracked S) (hidle : ∀ p ∈ S.copying, p.1 ≠ x)
    (hrefused : ∀ t ∈ S.bags, t.origin = .imported x → t.key ∉ refused) :
    Tracked (S.rollback x refused) := by
  have hexact := h.exact x hrefused
  have h1 := h.hide (fun row => x ∈ row.finds)
  have hsub : ∀ {α : Type} (grain : α → Item) (things : List (Thing ImportId α)),
      removed S.items grain x things ⊆ things := fun _ _ _ ht => (mem_removed.mp ht).1
  refine h1.onItems ?_ ?_ ?_ ?_ (fun leg hl => ?_) (fun p hp => ?_) fun p hp => ?_
  · exact (h.runs.subset (hsub _ _)).forget hexact.runs.1
  · exact (h.legs.subset (hsub _ _)).forget hexact.legs.1
  · exact (h.rows.subset (hsub _ _)).forget hexact.rows.1
  · exact (h.bags.subset fun t ht => (mem_filter.mp ht).1).forget hexact.bags.1
  · obtain ⟨hin, hnot⟩ := mem_removed.mp hl
    obtain ⟨r, hr, hk⟩ := h.foreign' leg hin
    refine ⟨r, mem_removed.mpr ⟨hr, ?_⟩, hk⟩
    rw [hk]
    exact hnot
  · exact h.items p (mem_filter.mp hp).1
  · exact mem_filter.mpr ⟨h.copying p hp, by simpa using hidle p hp⟩

lemma Tracked.copyBag (h : Tracked S) {bag : Bag}
    (hmine : (x, Item.rosbag bag) ∈ S.items) (hsub : copying ⊆ S.copying)
    (hothers : ∀ y, y ≠ x → (y, Item.rosbag bag) ∉ S.items) :
    Tracked { S with
      bags := ⟨bag, .imported x⟩ :: S.bags.filter (·.key ≠ bag)
      copying := copying } := by
  refine h.onItems h.runs h.legs h.rows ?_ h.foreign' h.items fun p hp => h.copying p (hsub hp)
  exact (h.bags.subset fun t ht => (mem_filter.mp ht).1).insert_imported rfl hmine hothers

lemma Tracked.step (h : Tracked S) {a : Act} (hclean : Clean S a) (hs : step S a = some T) :
    Tracked T := by
  have hself : ∀ y, y ∈ (S.start y).started := fun y => mem_cons_self
  cases a with
  | beginMap x map source =>
    simp only [ImportUndo.step] at hs
    split at hs
    · cases hs
    · rename_i hlock
      cases hs
      have hfree : S.opened.any (·.map = map) = false := by simpa using hlock
      exact (h.start x).beginMap (hself x) source hfree
  | commitMap x map =>
    obtain ⟨o, ho, rfl⟩ := Option.map_eq_some_iff.mp hs
    obtain ⟨rfl, rfl⟩ : o.map = map ∧ o.importId = x := by
      simpa using List.find?_some ho
    exact h.commitMap (mem_of_find?_eq_some ho) hclean
  | leaveMap x map =>
    cases hs
    refine h.onMaps h.sound h.complete h.marked h.names (fun o ho => ?_) fun o ho => ?_
    · exact h.opened o (mem_filter.mp ho).1
    · exact h.openers o (mem_filter.mp ho).1
  | addRuns x runs legs =>
    simp only [ImportUndo.step] at hs
    split at hs
    · rename_i hforeign
      cases hs
      obtain ⟨h1, hadded, hnew⟩ := (h.start x).addRuns (hself x) runs hclean.1
      refine h1.addLegs legs (fun leg hl => by simpa using all_eq_true.mp hforeign leg hl) ?_
      intro leg hl hno
      have hno' : S.hasLeg leg = false := by
        unfold State.hasLeg at hno ⊢
        rw [hadded.legs] at hno
        exact hno
      obtain ⟨hmine, hothers⟩ := hclean.2 leg hl hno'
      refine ⟨?_, fun y hy hm => hothers y hy ((hadded.others y hy _).mp hm)⟩
      obtain hm | ⟨hr, hnorun⟩ := hmine
      · exact hadded.kept _ hm
      · exact hnew leg.1 hr hnorun
    · cases hs
  | addHistory x kind run keys =>
    cases hs
    exact (h.start x).addHistory (hself x) hclean
  | recordBag x bag =>
    cases hs
    have h1 := (h.start x).remember (hself x) (.rosbag bag) (fun t _ he => by cases he)
      (fun t _ he => by cases he) (fun t _ he => by cases he)
      fun t ht he => hclean t ht (Item.rosbag.inj he)
    refine h1.onItems h1.runs h1.legs h1.rows h1.bags h1.foreign' h1.items fun p hp => ?_
    obtain rfl | hp := mem_cons.mp hp
    · exact mem_cons_self
    · exact h1.copying p hp
  | copyBag x bag =>
    simp only [ImportUndo.step] at hs
    split at hs
    · rename_i hmem
      cases hs
      exact h.copyBag (h.copying _ hmem) (fun p hp => mem_of_mem_erase hp) hclean
    · cases hs
  | leaveBag x bag =>
    cases hs
    exact h.onItems h.runs h.legs h.rows h.bags h.foreign' h.items
      fun p hp => h.copying p (mem_filter.mp hp).1
  | rollback x refused =>
    simp only [ImportUndo.step] at hs
    split at hs
    · cases hs
    · rename_i hidle
      cases hs
      simp only [Bool.or_eq_true, not_or, Bool.not_eq_true, any_eq_false, decide_eq_true_eq]
        at hidle
      exact h.rollback hidle.2 hclean
  | otherMap map =>
    simp only [ImportUndo.step] at hs
    split at hs
    · cases hs
    · rename_i hrow
      cases hs
      have hnew : ∀ row ∈ S.maps, row.name ≠ map := by
        intro row hr
        simpa using List.find?_eq_none.mp (Option.not_isSome_iff_eq_none.mp hrow) row hr
      refine h.onMaps (fun row hr => ?_) (fun row hr => ?_) (fun row hr => ?_) ?_
        (fun o ho row hr hn => ?_) h.openers
      · obtain rfl | hr := mem_cons.mp hr
        · exact fun y hy => by simp [MapRow.finds] at hy
        · exact h.sound row hr
      · obtain rfl | hr := mem_cons.mp hr
        · exact fun y hy => by cases hy
        · exact h.complete row hr
      · obtain rfl | hr := mem_cons.mp hr
        · exact fun y hy => by simp [MapRow.finds] at hy
        · exact h.marked row hr
      · rw [map_cons, nodup_cons]
        refine ⟨fun hm => ?_, h.names⟩
        obtain ⟨row, hr, hn⟩ := mem_map.mp hm
        exact hnew row hr hn
      · obtain rfl | hr := mem_cons.mp hr
        · exact ⟨fun y hy => (by cases hy), fun y hy _ => not_spared_other (h.openers o ho y hy)⟩
        · exact h.opened o ho row hr hn
  | otherRun run =>
    simp only [ImportUndo.step] at hs
    split at hs
    · cases hs
    · cases hs
      refine h.onItems (h.runs.insert_other rfl h.items) h.legs h.rows h.bags (fun leg hl => ?_)
        h.items h.copying
      obtain ⟨r, hr, hk⟩ := h.foreign' leg hl
      exact ⟨r, mem_cons_of_mem _ hr, hk⟩
  | otherLeg leg =>
    simp only [ImportUndo.step] at hs
    split at hs
    · cases hs
    · rename_i hrun
      cases hs
      refine h.onItems h.runs (h.legs.insert_other rfl h.items) h.rows h.bags (fun t ht => ?_)
        h.items h.copying
      obtain rfl | ht := mem_cons.mp ht
      · have hrun' : S.hasRun leg.1 = true := by
          simp only [Bool.or_eq_true, not_or, Bool.not_eq_true', Bool.not_eq_false] at hrun
          exact hrun.2
        exact hasRun_iff.mp hrun'
      · exact h.foreign' t ht
  | otherRow row =>
    cases hs
    exact h.onItems h.runs h.legs (h.rows.insert_other rfl h.items) h.bags h.foreign' h.items
      h.copying
  | otherBag bag =>
    cases hs
    refine h.onItems h.runs h.legs h.rows ?_ h.foreign' h.items h.copying
    exact (h.bags.subset fun t ht => (mem_filter.mp ht).1).insert_other rfl h.items
  | hideMap map =>
    cases hs
    exact h.hide (fun row => row.name = map)
  | dropMap map =>
    cases hs
    refine h.fewerMaps (fun row hr => ⟨row, (mem_filter.mp hr).1, rfl, rfl, rfl⟩) ?_
    exact h.names.sublist (filter_sublist.map _)
  | dropRun run =>
    cases hs
    refine h.onItems (h.runs.subset fun t ht => (mem_filter.mp ht).1)
      (h.legs.subset fun t ht => (mem_filter.mp ht).1) h.rows h.bags (fun leg hl => ?_) h.items
      h.copying
    obtain ⟨hin, hne⟩ := mem_filter.mp hl
    obtain ⟨r, hr, hk⟩ := h.foreign' leg hin
    refine ⟨r, mem_filter.mpr ⟨hr, ?_⟩, hk⟩
    rw [hk]
    exact hne
  | dropRow row =>
    cases hs
    exact h.onItems h.runs h.legs (h.rows.subset fun t ht => (mem_filter.mp ht).1) h.bags
      h.foreign' h.items h.copying
  | dropBag bag =>
    cases hs
    exact h.onItems h.runs h.legs h.rows (h.bags.subset fun t ht => (mem_filter.mp ht).1)
      h.foreign' h.items h.copying

/-- The states that steps reach, each meeting a condition on the state before it. -/
abbrev Runs (cond : State → Act → Prop) : State → State → Prop :=
  Relation.ReflTransGen fun S T => ∃ a, cond S a ∧ ImportUndo.step S a = some T

def untouched (maps : List MapName) (runs : List RunId) (legs : List (RunId × ℕ))
    (rows : List History) (bags : List Bag) : State where
  maps := maps.map fun map => ⟨map, true, none, .other []⟩
  runs := runs.map fun run => ⟨run, .other []⟩
  legs := legs.map fun leg => ⟨leg, .other []⟩
  rows := rows.map fun row => ⟨row, .other []⟩
  bags := bags.map fun bag => ⟨bag, .other []⟩
  items := []
  opened := []
  copying := []
  started := []

lemma remembered_others {α : Type} (grain : α → Item) (keys : List α) :
    Remembered ([] : List (ImportId × Item)) grain (keys.map fun key => ⟨key, .other []⟩) := by
  constructor
  · exact fun _ _ _ hm => by cases hm
  · intro t ht y hy
    obtain ⟨key, -, rfl⟩ := mem_map.mp ht
    cases hy

lemma Tracked.untouched {maps : List MapName} {runs : List RunId} {legs : List (RunId × ℕ)}
    {rows : List History} {bags : List Bag} (hmaps : maps.Nodup)
    (hforeign : ∀ leg ∈ legs, leg.1 ∈ runs) : Tracked (untouched maps runs legs rows bags) := by
  have hrow : ∀ row ∈ (ImportUndo.untouched maps runs legs rows bags).maps, row.finds = [] ∧
      row.origin = .other [] := by
    intro row hr
    obtain ⟨map, -, rfl⟩ := mem_map.mp hr
    exact ⟨rfl, rfl⟩
  constructor
  · exact fun row hr y hy => by simp [(hrow row hr).1] at hy
  · exact fun row hr y hy => by simp [(hrow row hr).2] at hy
  · exact fun row hr y hy => by simp [(hrow row hr).1] at hy
  · simpa [ImportUndo.untouched, Function.comp_def] using hmaps
  · exact fun o ho => by cases ho
  · exact fun o ho => by cases ho
  · exact remembered_others .run runs
  · exact remembered_others legItem legs
  · exact remembered_others rowItem rows
  · exact remembered_others .rosbag bags
  · intro leg hl
    obtain ⟨l, hin, rfl⟩ := mem_map.mp hl
    exact hasRun_iff.mpr ⟨_, mem_map_of_mem (hforeign l hin), rfl⟩
  · exact fun p hp => by cases hp
  · exact fun p hp => by cases hp

/-- After any sequence of imports, stopped, failed, resumed, repeated or undone, the undo of one
is exact, as long as no step made an import remembered for what it did not insert. -/
theorem rollback_exact (maps : List MapName) (runs : List RunId) (legs : List (RunId × ℕ))
    (rows : List History) (bags : List Bag) (hmaps : maps.Nodup)
    (hforeign : ∀ leg ∈ legs, leg.1 ∈ runs) (T : State)
    (h : Runs Clean (untouched maps runs legs rows bags) T) (x : ImportId) (refused : List Bag)
    (hrefused : ∀ t ∈ T.bags, t.origin = .imported x → t.key ∉ refused) :
    Exact T x (T.rollback x refused) := by
  have hT : Tracked T := by
    clear hrefused
    induction h with
    | refl => exact Tracked.untouched hmaps hforeign
    | tail _ hstep ih =>
      obtain ⟨a, hclean, hs⟩ := hstep
      exact ih.step hclean hs
  exact hT.exact x hrefused

/-! Two imports of one map under two ids, and two that bring different things. -/
section Sample

def play (check : State → Act → Bool) (S : State) : List Act → Option State
  | [] => some S
  | a :: acts => if check S a then (step S a).bind fun T => play check T acts else none

lemma Runs.of_play {check : State → Act → Bool} {cond : State → Act → Prop}
    {acts : List Act} (hcheck : ∀ S a, check S a = true → cond S a)
    (h : play check S acts = some T) : Runs cond S T := by
  induction acts generalizing S with
  | nil =>
    cases h
    exact .refl
  | cons a acts ih =>
    simp only [play] at h
    split at h
    · obtain ⟨U, hU, hrest⟩ := Option.bind_eq_some_iff.mp h
      exact Relation.ReflTransGen.head ⟨a, hcheck S a ‹_›, hU⟩ (ih hrest)
    · cases h

/-- A map is completed by the import that inserted it, and runs come with their legs while there
is no other import that remembers anything. -/
def own (S : State) : Act → Bool
  | .commitMap x map => S.maps.all fun row => row.name ≠ map || row.origin = .imported x
  | .addRuns x runs legs => S.items.all (·.1 = x) &&
      legs.all fun leg => leg.1 ∈ runs && !S.hasRun leg.1
  | .beginMap .. => true
  | _ => false

lemma clean_of_own (S : State) (a : Act) (h : own S a = true) : Clean S a := by
  cases a with
  | beginMap x map source => trivial
  | commitMap x map =>
    intro row hr hn
    have hrow := all_eq_true.mp h row hr
    simp only [hn, ne_eq, not_true_eq_false, decide_false, Bool.false_or, decide_eq_true_eq] at hrow
    rw [hrow]
    exact not_spared_self
  | addRuns x runs legs =>
    obtain ⟨hitems, hlegs⟩ := Bool.and_eq_true_iff.mp h
    have hothers : ∀ y, y ≠ x → ∀ g, (y, g) ∉ S.items := by
      intro y hy g hm
      exact hy (by simpa using all_eq_true.mp hitems (y, g) hm)
    refine ⟨fun run _ _ y hy => hothers y hy _, fun leg hl _ => ⟨.inr ?_, fun y hy => hothers y hy _⟩⟩
    simpa using all_eq_true.mp hlegs leg hl
  | _ => cases h

theorem import_undone : ∃ T, Runs Clean (untouched [5] [10] [(10, 1)] [] []) T ∧
    Exact T 1 (T.rollback 1 []) ∧ T.runs.map (·.key) = [11, 10] ∧
      (T.rollback 1 []).runs.map (·.key) = [10] := by
  have hplay : (play own (untouched [5] [10] [(10, 1)] [] []) [.beginMap 1 7 (3, 4), .commitMap 1 7,
      .addRuns 1 [10, 11] [(11, 1)]]).map (fun T => (T.runs.map (·.key),
        (T.rollback 1 []).runs.map (·.key))) = some ([11, 10], [10]) := by
    decide
  obtain ⟨T, hT, he⟩ := Option.map_eq_some_iff.mp hplay
  rw [Prod.mk.injEq] at he
  have hrun := Runs.of_play clean_of_own hT
  exact ⟨T, hrun, rollback_exact [5] [10] [(10, 1)] [] [] (by decide) (by decide) T hrun 1 []
    (by simp), he.1, he.2⟩

theorem repeated_map_undone : ∃ T, Runs (fun _ _ => True) (untouched [] [] [] [] []) T ∧
    ¬Exact T 2 (T.rollback 2 []) := by
  have hplay : (play (fun _ _ => true) (untouched [] [] [] [] []) [.beginMap 1 7 (3, 4), .commitMap 1 7,
      .beginMap 2 7 (3, 4), .commitMap 2 7]).map (fun T =>
        (T.maps, (T.rollback 2 []).maps.map (·.alive))) =
      some ([⟨7, true, some ⟨(3, 4), 1, [1, 2], true⟩, .imported 1⟩], [false]) := by
    decide
  obtain ⟨T, hT, he⟩ := Option.map_eq_some_iff.mp hplay
  rw [Prod.mk.injEq] at he
  obtain ⟨hmaps, halive⟩ := he
  refine ⟨T, Runs.of_play (fun _ _ _ => trivial) hT, fun hexact => ?_⟩
  have hkept := hexact.maps.2 ⟨7, true, some ⟨(3, 4), 1, [1, 2], true⟩, .imported 1⟩
    (by simp [hmaps]) (by simp [Spared])
  have hin := mem_map_of_mem (f := MapRow.alive) hkept
  rw [halive] at hin
  simp at hin

end Sample
end CloudServer.ImportUndo
