import CloudServer.StoreObjects

/-! Hashes without collisions exist: everything a store hashes is a finite record of numbers
and texts. -/
namespace CloudServer.StoreCodec
open SceneLeaf SceneFold SceneApi StoreTiles StoreSave StoreObjects

instance {κ α : Type} [Countable κ] [Countable α] : Countable (Dict κ α) :=
  Function.Injective.countable (f := Dict.items) fun a b h => by
    cases a
    cases b
    cases h
    rfl

instance lex_countable {α β : Type} [Countable α] [Countable β] : Countable (α ×ₗ β) :=
  inferInstanceAs (Countable (α × β))

instance char_countable : Countable Char := Function.Injective.countable (f := Char.toNat) fun _ _ h =>
  Char.toNat_inj.mp h

instance string_countable : Countable String :=
  Function.Injective.countable (f := String.toList) fun _ _ => String.ext

instance {n : ℕ} {α : Type} [Countable α] : Countable (Square n α) :=
  inferInstanceAs (Countable (Fin n → Fin n → α))

instance : Countable Tile :=
  Function.Injective.countable
    (f := fun t : Tile => (t.v, t.t, t.b, t.fn, t.bn, t.hold, t.val, t.chans, t.own))
    fun a b h => by
      cases a
      cases b
      simp_all

instance : Countable View :=
  Function.Injective.countable (f := fun v : View => (v.x, v.y, v.yaw, v.fov, v.rng))
    fun a b h => by
      cases a
      cases b
      simp_all

instance : Countable LeafRecord :=
  Function.Injective.countable
    (f := fun r : LeafRecord => (r.key, r.session, r.t, r.x, r.y, r.r_d, r.view)) fun a b h => by
      cases a
      cases b
      simp_all

instance : Countable ChartDoc :=
  Function.Injective.countable
    (f := fun c : ChartDoc => (c.key, c.id, c.peak, c.region, c.anchor, c.cell, c.cells, c.area,
      c.clearance, c.driven, c.ever_blocked, c.leaf)) fun a b h => by
      cases a
      cases b
      simp_all

instance : Countable LinkDoc :=
  Function.Injective.countable
    (f := fun l : LinkDoc => (l.a, l.b, l.length, l.width, l.saddle, l.portal, l.channels))
    fun a b h => by
      cases a
      cases b
      simp_all

instance : Countable Page :=
  Function.Injective.countable (f := fun p : Page => (p.tiles, p.charts, p.links)) fun a b h => by
    cases a
    cases b
    simp_all

instance : Countable SceneParams :=
  Function.Injective.countable
    (f := fun p : SceneParams => (p.robot_half_side, p.lattice, p.chart_radius, p.near_range_m,
      p.near_min_clearance_m, p.place_peak_m, p.place_path_m)) fun a b h => by
      cases a
      cases b
      simp_all

instance : Countable Content :=
  Function.Injective.countable
    (f := fun c : Content => (c.pipeline, c.generation, c.params, c.params_hash, c.watermark,
      c.channels, c.next_id, c.pages, c.order, c.chart_count, c.tile_count, c.segments,
      c.leaf_count)) fun a b h => by
      cases a
      cases b
      simp_all

lemma exists_hash (α : Type) [Countable α] : ∃ f : α → Hash, Function.Injective f := by
  obtain ⟨f, hf⟩ := exists_injective_nat α
  refine ⟨fun a => String.ofList (List.replicate (f a) 'x'), fun a b h => hf ?_⟩
  have := congrArg (fun s => s.toList.length) h
  simpa using this

noncomputable def exactCodec : Codec :=
  ⟨(exists_hash Tile).choose, (exists_hash (List LeafRecord)).choose, (exists_hash Page).choose,
    (exists_hash SceneParams).choose, (exists_hash Content).choose⟩

lemma exactCodec_exact : Codec.Exact exactCodec :=
  ⟨(exists_hash Tile).choose_spec, (exists_hash (List LeafRecord)).choose_spec,
    (exists_hash Page).choose_spec, (exists_hash Content).choose_spec⟩

end CloudServer.StoreCodec
