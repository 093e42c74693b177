import CloudServer.LatestWrites
import CloudServer.Lists

/-! What the columns of `robot_latest` hold: each column by itself keeps an order of its updates
from the table over the transaction and the batch to the pending map. -/
namespace CloudServer.LatestWrites

open Steps Option

variable {R C V P : Type} [DecidableEq R] [DecidableEq C]

/-- What there is of a column: pending, in the batch of the flush, in a transaction that has not
ended, and in the table, with the last value put. -/
structure Cell (V P : Type) where
  pend : Option (Put V)
  held : Option (Put V)
  sent : Option (Put V)
  table : Option (Put P)
  last : Option (Put V)

def Writer.cell (W : Writer R C V P) (r : R) (c : C) : Cell V P where
  pend := W.latest.find r c
  held := W.batch.bind fun b => b.1.find r c
  sent := W.server.bind fun s => s.1.find r c
  table := W.table r c
  last := W.last r c

def stored (param : V → P) (old : Option P) : Option (Put V) → Option (Put P)
  | some p => some ⟨p.number, param p.value⟩
  | none => old.map (Put.mk 0)

structure Cell.Kept (param : V → P) (old : Option P) (puts : ℕ) (x : Cell V P) : Prop where
  table_sent : ∀ t ∈ x.table, ∀ s ∈ x.sent, t.number ≤ s.number
  table_held : ∀ t ∈ x.table, ∀ h ∈ x.held, t.number ≤ h.number
  table_pend : ∀ t ∈ x.table, ∀ p ∈ x.pend, t.number ≤ p.number
  sent_held : ∀ s ∈ x.sent, ∀ h ∈ x.held, s.number ≤ h.number
  sent_pend : ∀ s ∈ x.sent, ∀ p ∈ x.pend, s.number ≤ p.number
  held_pend : ∀ h ∈ x.held, ∀ p ∈ x.pend, h.number ≤ p.number
  table_puts : ∀ t ∈ x.table, t.number ≤ puts
  sent_puts : ∀ s ∈ x.sent, s.number ≤ puts
  held_puts : ∀ h ∈ x.held, h.number ≤ puts
  pend_puts : ∀ p ∈ x.pend, p.number ≤ puts
  pend : ∀ p ∈ x.pend, x.last = some p
  held : x.pend = none → ∀ h ∈ x.held, x.last = some h
  table : x.pend = none → x.held = none → x.table = stored param old x.last

variable {cfg : Columns R C V P} {old : R → C → Option P} {W W' : Writer R C V P}

/-- What holds of all columns. What a transaction that has not ended may still write is in the batch,
or pending, again. -/
structure Kept (cfg : Columns R C V P) (old : R → C → Option P) (W : Writer R C V P) : Prop where
  cell : ∀ r c, (W.cell r c).Kept (cfg.param c) (old r c) W.puts
  own : ∀ s, W.server = some (s, true) → W.batch = some (s, .sent) ∧ s.items ≠ []
  lost : W.batch = none → ∀ s own, W.server = some (s, own) → ∀ r c, s.find r c ≠ none →
    W.latest.find r c ≠ none
  batch : ∀ b f, W.batch = some (b, f) → ∀ s own, W.server = some (s, own) → ∀ r c,
    s.find r c ≠ none → b.find r c ≠ none
  landed : ∀ b, W.batch = some (b, .landed) → W.server = none ∧
    ∀ r c, ∀ p ∈ b.find r c, W.table r c = some ⟨p.number, cfg.param c p.value⟩

/-! ### Merging -/

lemma get_update_ofList {α : Type} (d : Dict C α) (pairs : List (C × α)) (c : C) :
    (d.update pairs).get c = ((Dict.ofList pairs).get c).or (d.get c) := by
  induction pairs using List.reverseRecOn with
  | nil => rfl
  | append_singleton pairs e ih =>
    have hupdate : ∀ f : Dict C α, f.update (pairs ++ [e]) = (f.update pairs).set e.1 e.2 := by
      intro f
      simp [Dict.update]
    unfold Dict.ofList at ih ⊢
    rw [hupdate, hupdate, Dict.get_set, Dict.get_set, ih]
    by_cases he : c = e.1
    · simp [he]
    · simp [he]

lemma ofList_get {α : Type} (d : Dict C α) (c : C) : (Dict.ofList d.items).get c = d.get c := by
  refine Dict.get_congr (fun e => ?_) c
  rw [Dict.ofList_items d.nodup]

lemma find_set (d : Latest R C V) (r r' : R) (fields : Dict C (Put V)) (c : C) :
    Latest.find (d.set r fields) r' c = if r' = r then fields.get c else Latest.find d r' c := by
  unfold Latest.find
  rw [Dict.get_set]
  by_cases h : r' = r
  · simp [h]
  · simp [h]

lemma find_restore_items (latest : Latest R C V) {failed : List (R × Dict C (Put V))}
    (hnd : (failed.map Prod.fst).Nodup) (r : R) (c : C) :
    (restore_latest latest failed).find r c =
      (latest.find r c).or ((Dict.find failed r).bind fun fields => fields.get c) := by
  induction failed generalizing latest with
  | nil => simp [restore_latest]
  | cons f failed ih =>
    obtain ⟨robot, fields⟩ := f
    obtain ⟨hnot, hnd⟩ := List.nodup_cons.mp hnd
    have hrec := ih (latest.set robot (fields.update ((latest.get robot).getD .empty).items)) hnd
    change (restore_latest _ failed).find r c = _
    rw [hrec, find_set, Dict.find_cons]
    by_cases h : r = robot
    · subst h
      rw [if_pos rfl, if_pos rfl, Dict.find_eq_none.mpr hnot, get_update_ofList, ofList_get]
      unfold Latest.find
      cases latest.get r with
      | none => simp
      | some newer => simp
    · rw [if_neg h, if_neg h]

lemma find_restore (latest failed : Latest R C V) (r : R) (c : C) :
    (restore_latest latest failed.items).find r c = (latest.find r c).or (failed.find r c) :=
  find_restore_items latest failed.nodup r c

/-! ### One column -/

section
variable {param : V → P} {was : Option P} {puts : ℕ} {x : Cell V P}

lemma Cell.Kept.later (h : x.Kept param was puts) : x.Kept param was (puts + 1) where
  __ := h
  table_puts t ht := (h.table_puts t ht).trans (Nat.le_succ puts)
  sent_puts s hs := (h.sent_puts s hs).trans (Nat.le_succ puts)
  held_puts y hy := (h.held_puts y hy).trans (Nat.le_succ puts)
  pend_puts p hp := (h.pend_puts p hp).trans (Nat.le_succ puts)

lemma Cell.Kept.put (h : x.Kept param was puts) (v : V) :
    { x with pend := some ⟨puts + 1, v⟩, last := some ⟨puts + 1, v⟩ : Cell V P }.Kept param was (puts + 1) := by
  have hl := h.later
  refine ⟨h.table_sent, h.table_held, fun t ht p hp => ?_, h.sent_held, fun s hs p hp => ?_,
    fun y hy p hp => ?_, hl.table_puts, hl.sent_puts, hl.held_puts, fun p hp => ?_, fun p hp => hp,
    fun hnone => ?_, fun hnone => ?_⟩
  · obtain rfl := mem_some_iff.mp hp
    exact hl.table_puts t ht
  · obtain rfl := mem_some_iff.mp hp
    exact hl.sent_puts s hs
  · obtain rfl := mem_some_iff.mp hp
    exact hl.held_puts y hy
  · obtain rfl := mem_some_iff.mp hp
    exact le_rfl
  · cases hnone
  · cases hnone

lemma Cell.Kept.take (h : x.Kept param was puts) (hheld : x.held = none) :
    { x with pend := none, held := x.pend : Cell V P }.Kept param was puts := by
  refine ⟨h.table_sent, h.table_pend, by simp, h.sent_pend, by simp, by simp, h.table_puts,
    h.sent_puts, h.pend_puts, by simp, by simp, fun _ => h.pend, fun _ hnone => ?_⟩
  exact h.table hnone hheld

lemma Cell.Kept.send (h : x.Kept param was puts) :
    { x with sent := x.held : Cell V P }.Kept param was puts := by
  refine { h with
    table_sent := h.table_held
    sent_held := fun s hs y hy => ?_
    sent_pend := h.held_pend
    sent_puts := h.held_puts }
  obtain rfl := mem_unique hs hy
  exact le_rfl

lemma Cell.Kept.abort (h : x.Kept param was puts) :
    { x with sent := none : Cell V P }.Kept param was puts :=
  { h with table_sent := by simp, sent_held := by simp, sent_pend := by simp, sent_puts := by simp }

lemma Cell.Kept.commit (h : x.Kept param was puts) {s : Put V} (hs : x.sent = some s)
    (hagain : x.held = none → x.pend ≠ none) :
    { x with sent := none, table := some ⟨s.number, param s.value⟩ : Cell V P }.Kept param was puts := by
  refine ⟨by simp, fun t ht => ?_, fun t ht => ?_, by simp, by simp, h.held_pend, fun t ht => ?_,
    by simp, h.held_puts, h.pend_puts, h.pend, h.held, fun hp hh => absurd hp (hagain hh)⟩
  all_goals obtain rfl := mem_some_iff.mp ht
  · exact h.sent_held s hs
  · exact h.sent_pend s hs
  · exact h.sent_puts s hs

lemma Cell.Kept.answer (h : x.Kept param was puts) (hlanded : ∀ p ∈ x.held, x.table = some ⟨p.number, param p.value⟩) :
    { x with held := none : Cell V P }.Kept param was puts := by
  refine ⟨h.table_sent, by simp, h.table_pend, by simp, h.sent_pend, by simp, h.table_puts,
    h.sent_puts, by simp, h.pend_puts, h.pend, by simp, fun hp _ => ?_⟩
  cases hheld : x.held with
  | none => exact h.table hp hheld
  | some p =>
    rw [h.held hp p hheld]
    exact hlanded p hheld

lemma Cell.Kept.lose (h : x.Kept param was puts) :
    { x with pend := x.pend.or x.held, held := none : Cell V P }.Kept param was puts := by
  cases hp : x.pend with
  | none =>
    refine ⟨h.table_sent, by simp, h.table_held, by simp, h.sent_held, by simp, h.table_puts,
      h.sent_puts, by simp, h.held_puts, h.held hp, by simp, fun hnone _ => h.table hp hnone⟩
  | some p =>
    refine ⟨h.table_sent, by simp, ?_, by simp, ?_, by simp, h.table_puts, h.sent_puts, by simp, ?_, ?_, by simp, nofun⟩
    · simpa [hp] using h.table_pend
    · simpa [hp] using h.sent_pend
    · simpa [hp] using h.pend_puts
    · simpa [hp] using h.pend

end

/-! ### Steps -/

omit [DecidableEq R] in
lemma fields_number {number : ℕ} {fields : Dict C V} {puts : List (C × Put V)}
    (h : cfg.fields number fields = some puts) {c : C} {p : Put V}
    (hp : (Dict.ofList puts).get c = some p) : p = ⟨number, p.value⟩ := by
  rcases Dict.get_update (.empty : Dict C (Put V)) puts c with ⟨-, hnone⟩ | ⟨q, hq, hsome⟩
  · cases hnone.symm.trans hp
  · cases hsome.symm.trans hp
    obtain ⟨f, -, hf⟩ := (mapM_mem h).2 _ hq
    obtain ⟨v, -, hv⟩ := map_eq_some_iff.mp hf
    rw [← (Prod.mk.inj hv).2]

lemma put_cases (robot_name : R) (fields : Dict C V) (W : Writer R C V P) :
    put_latest cfg robot_name fields W = W ∨
      ∃ puts, cfg.fields (W.puts + 1) fields = some puts ∧
        put_latest cfg robot_name fields W = { W with
          latest := W.latest.set robot_name (((W.latest.get robot_name).getD .empty).update puts)
          puts := W.puts + 1
          last := fun r c => if r = robot_name then ((Dict.ofList puts).get c).or (W.last r c)
            else W.last r c } := by
  unfold put_latest
  split
  · exact .inl rfl
  · split
    · exact .inl rfl
    · rename_i puts hputs
      exact .inr ⟨puts, hputs, rfl⟩

lemma put_step (h : Kept cfg old W) (robot_name : R) (fields : Dict C V) :
    Kept cfg old (put_latest cfg robot_name fields W) := by
  rcases put_cases robot_name fields W with heq | ⟨puts, hputs, heq⟩
  · rw [heq]
    exact h
  · rw [heq]
    have hfind : ∀ r c, Latest.find (W.latest.set robot_name
        (((W.latest.get robot_name).getD .empty).update puts)) r c =
          if r = robot_name then ((Dict.ofList puts).get c).or (W.latest.find r c)
          else W.latest.find r c := by
      intro r c
      rw [find_set]
      by_cases hr : r = robot_name
      · subst hr
        rw [if_pos rfl, if_pos rfl, get_update_ofList]
        unfold Latest.find
        cases W.latest.get r with
        | none => simp
        | some newer => simp
      · rw [if_neg hr, if_neg hr]
    refine ⟨fun r c => ?_, h.own, fun hb s own hs r c hne => ?_, h.batch, h.landed⟩
    · have hcell := h.cell r c
      have heq : ({ W with
          latest := W.latest.set robot_name (((W.latest.get robot_name).getD .empty).update puts)
          puts := W.puts + 1
          last := fun r c => if r = robot_name then ((Dict.ofList puts).get c).or (W.last r c)
            else W.last r c } : Writer R C V P).cell r c =
        { W.cell r c with
          pend := if r = robot_name then ((Dict.ofList puts).get c).or (W.latest.find r c)
            else W.latest.find r c
          last := if r = robot_name then ((Dict.ofList puts).get c).or (W.last r c)
            else W.last r c } := by
        unfold Writer.cell
        rw [hfind]
      rw [heq]
      by_cases hr : r = robot_name
      · cases hget : (Dict.ofList puts).get c with
        | none =>
          simp only [if_pos hr, none_or]
          exact hcell.later
        | some p =>
          simp only [if_pos hr, some_or]
          rw [fields_number hputs hget]
          exact hcell.put p.value
      · simp only [if_neg hr]
        exact hcell.later
    · rw [hfind]
      have hold := h.lost hb s own hs r c hne
      split
      · intro hnone
        exact hold (or_eq_none_iff.mp hnone).2
      · exact hold

lemma commit_cell {s : Latest R C V} {own : Bool} (hs : W.server = some (s, own))
    (hown : ∀ s, W.server = some (s, true) → W.batch = some (s, .sent)) (r : R) (c : C) :
    ({ W with
      table := upsert cfg s W.table
      server := none
      batch := if own then W.batch.map fun b => (b.1, .landed) else W.batch } :
      Writer R C V P).cell r c = { W.cell r c with
        sent := none
        table := match s.find r c with
          | some p => some ⟨p.number, cfg.param c p.value⟩
          | none => W.table r c } := by
  cases own with
  | false => rfl
  | true =>
    unfold Writer.cell
    rw [hown s hs]
    rfl

lemma take_step (h : Kept cfg old W) (hstep : step cfg W .take = some W') : Kept cfg old W' := by
  simp only [step] at hstep
  split at hstep
  · rename_i hb
    cases hstep
    refine ⟨fun r c => ?_, fun s hs => ?_, nofun, fun b f hbatch s own hs r c hne => ?_, fun b hbatch => ?_⟩
    · exact (h.cell r c).take (by simp [Writer.cell, hb])
    · have hbatch := (h.own s hs).1
      rw [hb] at hbatch
      cases hbatch
    · obtain ⟨rfl, -⟩ := Prod.mk.inj (Option.some.inj hbatch)
      exact h.lost hb s own hs r c hne
    · cases (Prod.mk.inj (Option.some.inj hbatch)).2
  · cases hstep

lemma send_step (h : Kept cfg old W) (hstep : step cfg W .send = some W') : Kept cfg old W' := by
  simp only [step] at hstep
  split at hstep
  · rename_i batch hb
    split at hstep
    · rename_i hgo
      cases hstep
      refine ⟨fun r c => ?_, fun s hs => ?_, nofun, fun b f hbatch s own hs r c hne => ?_, fun b hbatch => ?_⟩
      · have hcell := (h.cell r c).send
        unfold Writer.cell at hcell ⊢
        simpa only [hb, bind_some] using hcell
      · obtain ⟨rfl, -⟩ := Prod.mk.inj (Option.some.inj hs)
        exact ⟨rfl, hgo.2⟩
      · obtain ⟨rfl, -⟩ := Prod.mk.inj (Option.some.inj hs)
        obtain ⟨rfl, -⟩ := Prod.mk.inj (Option.some.inj hbatch)
        exact hne
      · cases (Prod.mk.inj (Option.some.inj hbatch)).2
    · cases hstep
  · cases hstep

lemma commit_step (h : Kept cfg old W) (hstep : step cfg W .commit = some W') :
    Kept cfg old W' := by
  simp only [step] at hstep
  split at hstep
  · rename_i s own hs
    cases hstep
    have hagain : ∀ r c, s.find r c ≠ none → (W.cell r c).held = none →
        (W.cell r c).pend ≠ none := by
      intro r c hne hheld
      cases hb : W.batch with
      | none => exact h.lost hb s own hs r c hne
      | some b =>
        refine absurd ?_ (h.batch b.1 b.2 hb s own hs r c hne)
        simpa [Writer.cell, hb] using hheld
    refine ⟨fun r c => ?_, nofun, fun _ => nofun, fun _ _ _ => nofun, fun b hbatch => ⟨rfl, fun r c p hp => ?_⟩⟩
    · rw [commit_cell hs (fun b hown => (h.own b hown).1)]
      cases hfind : s.find r c with
      | none => exact (h.cell r c).abort
      | some p =>
        have hsent : (W.cell r c).sent = some p := by
          simp [Writer.cell, hs, hfind]
        exact (h.cell r c).commit hsent (hagain r c (by simp [hfind]))
    · cases own with
      | false =>
        rw [(h.landed b hbatch).1] at hs
        cases hs
      | true =>
        simp only [if_true, (h.own s hs).1, map_some, Option.some.injEq, Prod.mk.injEq, and_true] at hbatch
        subst hbatch
        change upsert cfg s W.table r c = _
        unfold upsert
        rw [mem_def.mp hp]
  · cases hstep

lemma answer_step (h : Kept cfg old W) (hstep : step cfg W .answer = some W') :
    Kept cfg old W' := by
  simp only [step] at hstep
  split at hstep
  · rename_i b f hb
    split at hstep
    · rename_i hgo
      cases hstep
      have hempty : b.items = [] → ∀ r c, b.find r c = none := by
        intro hnil r c
        unfold Latest.find Dict.get
        rw [hnil]
        rfl
      refine ⟨fun r c => (h.cell r c).answer fun p hp => ?_, fun s hs => ?_, fun _ s own hs r c hne => ?_, nofun, nofun⟩
      · have hp : p ∈ b.find r c := by
          simpa [Writer.cell, hb] using hp
        rcases hgo with rfl | hnil
        · exact (h.landed b hb).2 r c p hp
        · rw [hempty hnil] at hp
          cases hp
      · obtain ⟨hsent, hne⟩ := h.own s hs
        obtain ⟨rfl, rfl⟩ := Prod.mk.inj (Option.some.inj (hb.symm.trans hsent))
        rcases hgo with hf | hnil
        · cases hf
        · exact absurd hnil hne
      · have hheld := h.batch b f hb s own hs r c hne
        rcases hgo with rfl | hnil
        · rw [(h.landed b hb).1] at hs
          cases hs
        · exact absurd (hempty hnil r c) hheld
    · cases hstep
  · cases hstep

lemma lose_step (h : Kept cfg old W) (hstep : step cfg W .lose = some W') : Kept cfg old W' := by
  simp only [step] at hstep
  split at hstep
  · rename_i b f hb
    cases hstep
    refine ⟨fun r c => ?_, fun s hs => ?_, fun _ s own hs r c hne => ?_, nofun, nofun⟩
    · have hcell := (h.cell r c).lose
      unfold Writer.cell at hcell ⊢
      simp only [hb, bind_some] at hcell
      rw [find_restore]
      simp only [bind_map]
      exact hcell
    · obtain ⟨t, -, ht⟩ := map_eq_some_iff.mp hs
      cases (Prod.mk.inj ht).2
    · obtain ⟨t, ht, heq⟩ := map_eq_some_iff.mp hs
      obtain ⟨rfl, -⟩ := Prod.mk.inj heq
      rw [find_restore]
      intro hnone
      exact h.batch b f hb t.1 t.2 ht r c hne (or_eq_none_iff.mp hnone).2
  · cases hstep

lemma step_kept {a : Act R C V} (h : Kept cfg old W) (hstep : step cfg W a = some W') :
    Kept cfg old W' := by
  cases a with
  | put robot_name fields =>
    cases hstep
    exact put_step h robot_name fields
  | take => exact take_step h hstep
  | send => exact send_step h hstep
  | commit => exact commit_step h hstep
  | abort =>
    simp only [step] at hstep
    cases hstep
    exact ⟨fun r c => (h.cell r c).abort, nofun, fun _ => nofun, fun _ _ _ => nofun,
      fun b hbatch => ⟨rfl, (h.landed b hbatch).2⟩⟩
  | answer => exact answer_step h hstep
  | lose => exact lose_step h hstep

/-! ### Runs -/

lemma new_kept : Kept cfg old (.new V old) := by
  refine ⟨fun r c => ?_, nofun, fun _ => nofun, fun _ => nofun, nofun⟩
  refine ⟨by simp [Writer.cell, Writer.new], by simp [Writer.cell, Writer.new],
    by simp [Writer.cell, Writer.new, Latest.find], by simp [Writer.cell, Writer.new],
    by simp [Writer.cell, Writer.new], by simp [Writer.cell, Writer.new], fun t ht => ?_,
    by simp [Writer.cell, Writer.new], by simp [Writer.cell, Writer.new],
    by simp [Writer.cell, Writer.new, Latest.find],
    by simp [Writer.cell, Writer.new, Latest.find], by simp [Writer.cell, Writer.new], fun _ _ => rfl⟩
  obtain ⟨p, -, rfl⟩ := map_eq_some_iff.mp ht
  exact le_rfl

variable {cond : Writer R C V P → Act R C V → Prop}

lemma runs_kept (h : Kept cfg old W) (hruns : Runs (step cfg) cond W W') : Kept cfg old W' :=
  hruns.invariant h fun _ _ _ _ hW hstep => step_kept hW hstep

lemma table_step {a : Act R C V} (h : Kept cfg old W) (hstep : step cfg W a = some W') {r : R}
    {c : C} {t : Put P} (ht : W.table r c = some t) :
    ∃ t', W'.table r c = some t' ∧ t.number ≤ t'.number := by
  have hsame : W'.table r c = W.table r c → ∃ t', W'.table r c = some t' ∧ t.number ≤ t'.number :=
    fun heq => ⟨t, heq.trans ht, le_rfl⟩
  cases a with
  | put robot_name fields =>
    cases hstep
    refine hsame ?_
    rcases (put_cases robot_name fields W : put_latest cfg robot_name fields W = W ∨ _) with
      heq | ⟨puts, -, heq⟩
    · rw [heq]
    · rw [heq]
  | commit =>
    simp only [step] at hstep
    split at hstep
    · rename_i s own hs
      cases hstep
      cases hfind : s.find r c with
      | none =>
        refine hsame ?_
        simp only [upsert, hfind]
      | some p =>
        refine ⟨⟨p.number, cfg.param c p.value⟩, by simp only [upsert, hfind], ?_⟩
        exact (h.cell r c).table_sent t ht p (by simp [Writer.cell, hs, hfind])
    · cases hstep
  | abort =>
    cases hstep
    exact hsame rfl
  | take =>
    simp only [step] at hstep
    split at hstep
    · cases hstep
      exact hsame rfl
    · cases hstep
  | send | answer =>
    simp only [step] at hstep
    split at hstep
    · split at hstep
      · cases hstep
        exact hsame rfl
      · cases hstep
    · cases hstep
  | lose =>
    simp only [step] at hstep
    split at hstep
    · cases hstep
      exact hsame rfl
    · cases hstep

lemma table_runs (h : Kept cfg old W)
    (hruns : Runs (step cfg) cond W W') {r : R} {c : C} {t : Put P} (ht : W.table r c = some t) :
    ∃ t', W'.table r c = some t' ∧ t.number ≤ t'.number := by
  induction hruns with
  | refl => exact ⟨t, ht, le_rfl⟩
  | tail hruns hlast ih =>
    obtain ⟨u, hu, hle⟩ := ih
    obtain ⟨a, -, hstep⟩ := hlast
    obtain ⟨t', ht', hle'⟩ := table_step (runs_kept h hruns) hstep hu
    exact ⟨t', ht', hle.trans hle'⟩

/-- With nothing pending and no flush running, every column of `robot_latest` holds the last value
put, or what it held at first; and at no time does a column go back to an older value. -/
theorem latest_ends_on_last (h : Runs (step cfg) (fun _ _ => True) (.new V old) W) :
    (W.latest.items = [] → W.batch = none →
      ∀ r c, W.table r c = stored (cfg.param c) (old r c) (W.last r c)) ∧
    ∀ W', Runs (step cfg) (fun _ _ => True) W W' → ∀ r c t, W.table r c = some t →
      ∃ t', W'.table r c = some t' ∧ t.number ≤ t'.number := by
  have hkept := runs_kept new_kept h
  refine ⟨fun hlatest hbatch r c => ?_, fun W' hruns r c t ht => table_runs hkept hruns ht⟩
  refine (hkept.cell r c).table ?_ ?_
  · simp [Writer.cell, Latest.find, Dict.get, hlatest]
  · simp [Writer.cell, hbatch]

def plain : Columns Unit ℕ ℕ ℕ := ⟨fun _ => true, fun _ => true, fun _ v => some v, fun _ v => v⟩

/-- A flush loses its connection after the COMMIT, which takes effect later, with a newer value
already pending. -/
theorem latest_ends_on_last_lost : ∃ W : Writer Unit ℕ ℕ ℕ,
    ((W.latest.items = [] → W.batch = none →
        ∀ r c, W.table r c = stored (plain.param c) none (W.last r c)) ∧
      ∀ W', Runs (step plain) (fun _ _ => True) W W' → ∀ r c t, W.table r c = some t →
        ∃ t', W'.table r c = some t' ∧ t.number ≤ t'.number) ∧
    W.latest.items = [] ∧ W.batch = none ∧ W.table () 3 = some ⟨2, 8⟩ := by
  obtain ⟨W, hruns, hend⟩ := Runs.of_play_any (fun _ _ _ => trivial)
    (show (play (step plain) (fun _ _ => true) (.new ℕ fun _ _ => none)
      [.put () (.ofList [(3, 5)]), .take, .send, .put () (.ofList [(3, 8)]), .lose, .take, .commit,
        .send, .commit, .answer]).any
      (fun W => W.latest.items = [] ∧ W.batch = none ∧ W.table () 3 = some ⟨2, 8⟩) = true by decide)
  exact ⟨W, latest_ends_on_last hruns, by simpa using hend⟩

end CloudServer.LatestWrites
