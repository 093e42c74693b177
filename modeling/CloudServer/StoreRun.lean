import CloudServer.StoreExpand

/-! The calls of a store run one after the other: what each program does to the backend
when nobody interferes. -/
namespace CloudServer.StoreRun
open SceneFold SceneApi StoreTiles StoreSave StoreOps StoreObjects StoreExpand Interact

inductive Call
  | save (c : SaveCall)
  | begin (c : BeginCall)
  | commit (generation : ℕ)
  | gc (c : GcCall)
  | drop

def program (codec : Codec) (cfg : Config) : Call → Memory → StoreProg (Except SaveError ℕ × Memory)
  | .save c, mem => save codec cfg c mem
  | .begin c, mem => do return (← beginGeneration c, mem)
  | .commit g, mem => do
    let r ← commitGeneration g mem
    return (r.1.map Prod.fst, r.2)
  | .gc c, mem => gc c mem
  | .drop, mem => drop mem

section Run
variable {indexed : Bool} {α : Type}

@[simp]
lemma run_readMeta (f : Option Meta → StoreProg α) (s : Backend) :
    (readMeta >>= f).run (perform indexed) s = (f s.doc).run (perform indexed) s := rfl

@[simp]
lemma run_get (n : Name) (f : Option Obj → StoreProg α) (s : Backend) :
    (StoreOps.get n >>= f).run (perform indexed) s = (f (s.blobs.get n)).run (perform indexed) s := rfl

@[simp]
lemma run_put (n : Name) (o : Obj) (f : Unit → StoreProg α) (s : Backend) :
    (StoreOps.put n o >>= f).run (perform indexed) s = (f ()).run (perform indexed) { s with blobs := s.blobs.set n o } := rfl

lemma run_cas {s : Backend} {expected : Option ℕ} (h : s.doc.map Meta.version = expected) (m : Meta)
    (f : Bool → StoreProg α) :
    (cas expected m >>= f).run (perform indexed) s = (f true).run (perform indexed) { s with doc := some m } := by
  change (f (perform indexed (.cas expected m) s).1).run (perform indexed)
    (perform indexed (.cas expected m) s).2 = _
  simp [perform, h]

lemma putAll_run (es : List (Name × Obj)) (s : Backend) :
    (putAll es).run (perform indexed) s = ((), { s with blobs := s.blobs.update es }) := by
  induction es generalizing s with
  | nil => rfl
  | cons e es ih => exact ih _

lemma deleteAll_run (ns : List Name) (s : Backend) :
    (deleteAll ns).run (perform indexed) s = ((), { s with blobs := ns.foldl Dict.erase s.blobs }) := by
  induction ns generalizing s with
  | nil => rfl
  | cons n ns ih => exact ih _

lemma readPages_run {codec : Codec} {s : Backend} (hs : AllNamed codec s.blobs) {g : ℕ}
    {hashes : List Hash} (h : ∀ h ∈ hashes, ∃ p, s.blobs.get (.page g h) = some (.page p)) :
    ∃ ps, (readPages g hashes).run (perform indexed) s = (.ok ps, s) ∧ hashes = ps.map codec.page := by
  induction hashes with
  | nil => exact ⟨[], rfl, rfl⟩
  | cons a hashes ih =>
    obtain ⟨p, hp⟩ := h a (by simp)
    obtain ⟨ps, hrun, hps⟩ := ih fun b hb => h b (List.mem_cons_of_mem _ hb)
    have ha : codec.page p = a := hs _ _ hp
    refine ⟨p :: ps, ?_, by rw [List.map_cons, ha, ← hps]⟩
    unfold readPages
    rw [run_get, hp]
    dsimp only
    rw [Prog.run_bind, hrun]
    rfl

lemma expand_run {codec : Codec} {s : Backend} {n : Name} {b : Body}
    (hs : AllNamed codec s.blobs) (hn : s.blobs.get n = some (.manifest b))
    (hc : Complete s.blobs b) :
    ∃ man ps, (expand n).run (perform indexed) s = (.ok man, s) ∧ man.body = b ∧ Expands codec man ps := by
  obtain ⟨ps, hrun, hmap⟩ := @readPages_run indexed codec s hs b.generation
    (b.pages.items.map Prod.snd) fun h hh => (hc.pages h hh).imp fun _ hp => hp.1
  have hraw : (rawManifest n).run (perform indexed) s = (.ok b, s) := by
    unfold rawManifest
    rw [run_get, hn]
    rfl
  refine ⟨expandWith b ps, ps, ?_, rfl, expandWith_expands hmap⟩
  unfold expand
  rw [Prog.run_bind, hraw]
  dsimp only
  rw [Prog.run_bind, hrun]
  rfl

end Run
end CloudServer.StoreRun
