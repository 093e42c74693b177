import CloudServer.CloudLodRewrite

/-! The line that is rewritten in a header: the file is read again exactly if it is the vertex line. -/
namespace CloudServer.CloudLod

open Scan Substrings List

/-! ### The header that is read -/

lemma checked_ok {h : Header} {total : ℕ} {props : List (Text × Text)}
    (hc : checked h = .ok (total, props)) : h.count = some (total : ℤ) ∧ h.props = props ∧
      props ≠ [] ∧ ∀ m : ℕ, checked { h with count := some (m : ℤ) } = .ok (m, props) := by
  unfold checked at hc ⊢
  split at hc
  · cases hc
  · rename_i hfmt
    cases hcount : h.count with
    | none =>
      rw [hcount] at hc
      cases hc
    | some count =>
      simp only [hcount] at hc
      split at hc
      · cases hc
      · rename_i hneg
        split at hc
        · cases hc
        · rename_i hnames
          obtain ⟨rfl, rfl⟩ := Prod.mk.inj (Except.ok.inj hc)
          refine ⟨?_, rfl, ?_, fun m => ?_⟩
          · rw [Int.toNat_of_nonneg (by omega)]
          · intro hnil
            rw [hnil] at hnames
            exact hnames (.inl not_mem_nil)
          · simp only
            rw [if_neg hfmt, if_neg (by omega), if_neg hnames]
            rfl

section Of
variable {source ply last body : Bytes} {ls : List Bytes} {h : Header} {total : ℕ}
  {props : List (Text × Text)}

lemma HeaderOf.vertex (hof : HeaderOf source ply ls last body h) (hc : checked h = .ok (total, props)) :
    ∃ m ∈ ls, VertexLine (clean m) := by
  obtain ⟨hcount, hprops, hne, -⟩ := checked_ok hc
  obtain ⟨a, line, count, b, h₁, hr⟩ := exists_readsVertex hof.reads hcount
  have hline : VertexLine line := ⟨count, hr.words⟩
  rcases eq_nil_or_concat b with rfl | ⟨b, l, rfl⟩
  · exfalso
    obtain rfl := Except.ok.inj hr.read_after
    exact hne (hprops.symm.trans hr.no_props)
  · have hlines := hr.lines_eq
    rw [concat_eq_append, ← cons_append, ← append_assoc] at hlines
    have hls : ls.map clean = a ++ line :: b := (append_inj' hlines rfl).1
    have hmem : line ∈ ls.map clean := by
      rw [hls]
      exact mem_append_right _ mem_cons_self
    obtain ⟨m, hm, rfl⟩ := mem_map.mp hmem
    exact ⟨m, hm, hline⟩

lemma HeaderOf.total_lt (hof : HeaderOf source ply ls last body h)
    (hc : checked h = .ok (total, props)) : total < 10 ^ MAX_DIGITS := by
  obtain ⟨hcount, -⟩ := checked_ok hc
  obtain ⟨a, line, count, b, h₁, hr⟩ := exists_readsVertex hof.reads hcount
  exact int_word_lt hr.number

lemma HeaderOf.take (hof : HeaderOf source ply ls last body h) :
    source.take ((unlines nl (ply :: ls) ++ last).length + marker.length) =
      unlines nl (ply :: (ls ++ [last ++ END_HEADER])) := by
  have hsource : source = unlines nl (ply :: (ls ++ [last ++ END_HEADER])) ++ body := by
    rw [hof.source_eq, ← cons_append, unlines_append]
    simp [unlines]
  have hlen : (unlines nl (ply :: ls) ++ last).length + marker.length =
      (unlines nl (ply :: (ls ++ [last ++ END_HEADER]))).length := by
    rw [← cons_append, unlines_append]
    simp [unlines, marker]
    omega
  rw [hlen, hsource, take_left]

lemma HeaderOf.complete (hof : HeaderOf source ply ls last body h) :
    ∀ l ∈ ply :: (ls ++ [last ++ END_HEADER]), nl ∉ l := by
  intro l hl
  rcases mem_cons.mp hl with rfl | hl
  · exact hof.ply_line.headerLine.1
  · rcases mem_append.mp hl with hl | hl
    · exact (hof.header_line l hl).1
    · rw [mem_singleton.mp hl, mem_append, not_or]
      exact ⟨hof.last_line, nl_notMem_end_header⟩

end Of

/-! ### The line that is found -/

/-- The first line of the header that `rewrite_header` finds declares the vertices, and is not the last
line. -/
structure FoundLine (header : Bytes) (before : List Bytes) (line : Bytes) (after : List Bytes) : Prop where
  header_eq : header = unlines nl (before ++ line :: after)
  complete : ∀ l ∈ before ++ line :: after, nl ∉ l
  not_last : after ≠ []
  first : ∀ l ∈ before, vertex_prefix l = false
  found : vertex_prefix line = true
  vertex : VertexLine (clean line)

lemma append_cons_inj {α : Type} {p : α → Bool} {a b a' b' : List α} {x x' : α}
    (h : a ++ x :: b = a' ++ x' :: b') (ha : ∀ y ∈ a, p y = false) (ha' : ∀ y ∈ a', p y = false)
    (hx : p x = true) (hx' : p x' = true) : a = a' ∧ x = x' ∧ b = b' := by
  induction a generalizing a' with
  | nil =>
    cases a' with
    | nil =>
      obtain ⟨rfl, rfl⟩ := List.cons.inj h
      exact ⟨rfl, rfl, rfl⟩
    | cons y a' =>
      obtain ⟨rfl, -⟩ := List.cons.inj h
      rw [ha' x mem_cons_self] at hx
      cases hx
  | cons y a ih =>
    cases a' with
    | nil =>
      obtain ⟨rfl, -⟩ := List.cons.inj h
      rw [ha y mem_cons_self] at hx'
      cases hx'
    | cons y' a' =>
      obtain ⟨rfl, hrest⟩ := List.cons.inj h
      obtain ⟨rfl, rfl, rfl⟩ := ih hrest (fun z hz => ha z (mem_cons_of_mem _ hz))
        fun z hz => ha' z (mem_cons_of_mem _ hz)
      exact ⟨rfl, rfl, rfl⟩

lemma unlines_inj {a b : List Bytes} (ha : ∀ l ∈ a, nl ∉ l) (hb : ∀ l ∈ b, nl ∉ l)
    (h : unlines nl a = unlines nl b) : a = b := by
  have hsplit := congrArg (List.splitOn nl) h
  rw [← append_nil (unlines nl a), ← append_nil (unlines nl b), splitOn_unlines_append ha,
    splitOn_unlines_append hb] at hsplit
  exact (append_inj' hsplit rfl).1

variable {x y : List Bytes} {line : Bytes}

lemma FoundLine.eq {l : Bytes} (hcomplete : ∀ m ∈ x ++ l :: y, nl ∉ m)
    (hx : ∀ m ∈ x, vertex_prefix m = false) (hl : vertex_prefix l = true) {before after : List Bytes}
    (h : FoundLine (unlines nl (x ++ l :: y)) before line after) :
    before = x ∧ line = l ∧ after = y := by
  have heq := unlines_inj hcomplete h.complete h.header_eq
  obtain ⟨rfl, rfl, rfl⟩ := append_cons_inj heq hx h.first hl h.found
  exact ⟨rfl, rfl, rfl⟩

def rewritten (before after : List Bytes) (total returned stride : ℕ) : Bytes :=
  unlines nl (before ++ comment_line stride total :: element_line returned :: after)

section Rewritten
variable {source ply last body : Bytes} {ls : List Bytes} {h : Header} {total : ℕ}
  {props : List (Text × Text)}

lemma PlyLine.not_found (h : PlyLine line) : vertex_prefix line = false := by
  rcases h with rfl | rfl
  · decide
  · decide

lemma headerLine_inserted (h : ∀ m ∈ x ++ y, HeaderLine m) (total returned stride : ℕ) :
    ∀ m ∈ x ++ comment_line stride total :: element_line returned :: y, HeaderLine m := by
  intro m hm
  simp only [mem_append, mem_cons] at hm h
  rcases hm with hm | rfl | rfl | hm
  · exact h m (.inl hm)
  · exact headerLine_comment stride total
  · exact headerLine_element returned
  · exact h m (.inr hm)

lemma read_doubled (hply : PlyLine ply) (h : ∀ m ∈ x ++ y, HeaderLine m)
    (hr : ∃ r ∈ x ++ y, VertexLine (clean r)) (total returned stride : ℕ) (t : Bytes) :
    ∃ f, read_ply_header (unlines nl (ply :: (x ++ comment_line stride total :: element_line returned ::
      y)) ++ t) = .error f := by
  have hline := headerLine_inserted h total returned stride
  obtain ⟨r, hr, hvertex⟩ := hr
  rcases mem_append.mp hr with hr | hr
  · obtain ⟨u, v, rfl⟩ := append_of_mem hr
    rw [append_assoc, cons_append] at hline ⊢
    exact read_ply_header_two hply hline hvertex
      ⟨element_line returned, by simp, _, split_element returned⟩ t
  · have hsplit : x ++ comment_line stride total :: element_line returned :: y =
        (x ++ [comment_line stride total]) ++ element_line returned :: y := by simp
    rw [hsplit] at hline ⊢
    exact read_ply_header_two hply hline ⟨_, split_element returned⟩ ⟨r, hr, hvertex⟩ t

lemma HeaderOf.read_rewritten (hof : HeaderOf source ply ls last body h)
    (hc : checked h = .ok (total, props)) {l : Bytes} (hls : ls = x ++ l :: y)
    (hvertex : VertexLine (clean l)) {returned : ℕ} (hreturned : returned ≤ total) (stride : ℕ)
    (out : Bytes) :
    read_ply_header (rewritten (ply :: x) (y ++ [last ++ END_HEADER]) total returned stride ++ out) =
      if (rewritten (ply :: x) (y ++ [last ++ END_HEADER]) total returned stride).length >
          MAX_HEADER + marker.length then .error .no_end_header
      else .ok ((rewritten (ply :: x) (y ++ [last ++ END_HEADER]) total returned stride).length, returned, props) := by
  obtain ⟨hcount, -, -, hchecked⟩ := checked_ok hc
  have hlt := (hreturned.trans_lt (hof.total_lt hc))
  have hline : ∀ m ∈ x ++ comment_line stride total :: element_line returned :: y, HeaderLine m := by
    apply headerLine_inserted
    intro m hm
    apply hof.header_line
    rw [hls]
    exact ((sublist_cons_self l y).append_left x).subset hm
  have hbytes : rewritten (ply :: x) (y ++ [last ++ END_HEADER]) total returned stride ++ out =
      unlines nl (ply :: (x ++ comment_line stride total :: element_line returned :: y)) ++
        (last ++ (END_HEADER ++ nl :: out)) := by
    unfold rewritten
    simp [unlines]
  have hlen : (rewritten (ply :: x) (y ++ [last ++ END_HEADER]) total returned stride).length =
      (unlines nl (ply :: (x ++ comment_line stride total :: element_line returned :: y)) ++
        last).length + marker.length := by
    unfold rewritten
    simp [unlines, marker]
    omega
  have hread : read_lines start ((x ++ comment_line stride total :: element_line returned :: y).map clean
      ++ [clean last]) = .ok { h with count := some (returned : ℤ) } := by
    have hreads := hof.reads
    rw [hls, map_append, map_cons, append_assoc, cons_append] at hreads
    obtain ⟨n, count, h₁, hr, -⟩ := readsVertex_of hvertex hreads
    obtain ⟨words, hcomment⟩ := split_comment stride total
    have hrew := hr.rewritten hcomment (split_element returned) (int_word_str hlt)
    rw [map_append, map_cons, map_cons, append_assoc, cons_append, cons_append]
    exact hrew
  rw [hbytes, read_ply_header_lines hof.ply_line hline hof.last_line, hread, hlen]
  simp only [hchecked]
  by_cases hlong : (unlines nl (ply :: (x ++ comment_line stride total :: element_line returned :: y)) ++
      last).length > MAX_HEADER
  · rw [if_pos hlong, if_pos (by omega)]
  · rw [if_neg hlong, if_neg (by omega)]
    rfl

def header_bytes (ply : Bytes) (ls : List Bytes) (last : Bytes) : Bytes :=
  unlines nl (ply :: (ls ++ [last ++ END_HEADER]))

lemma HeaderOf.rewrite_cases (hof : HeaderOf source ply ls last body h)
    (hc : checked h = .ok (total, props)) (returned stride : ℕ) :
    (∃ x l y, ls = x ++ l :: y ∧ FoundLine (header_bytes ply ls last) (ply :: x) l (y ++ [last ++ END_HEADER]) ∧
      rewrite_header (header_bytes ply ls last) total returned stride =
        .ok (rewritten (ply :: x) (y ++ [last ++ END_HEADER]) total returned stride)) ∨
    (¬ ∃ before line after, FoundLine (header_bytes ply ls last) before line after) ∧
      (rewrite_header (header_bytes ply ls last) total returned stride = .error .no_vertex_line ∨
        ∃ head, rewrite_header (header_bytes ply ls last) total returned stride = .ok head ∧
          ∀ out, ∃ f, read_ply_header (head ++ out) = .error f) := by
  have hcomplete := hof.complete
  have hrewrite := rewrite_header_unlines hcomplete total returned stride
  obtain ⟨r, hr, hrvertex⟩ := hof.vertex hc
  change rewrite_header (header_bytes ply ls last) total returned stride = _ at hrewrite
  rcases rewrite_lines_cases total returned stride (ply :: (ls ++ [last ++ END_HEADER])) with
    ⟨hall, herr⟩ | ⟨x, l, y, hlines, hx, hl, hok⟩
  · right
    rw [herr] at hrewrite
    refine ⟨?_, .inl hrewrite⟩
    rintro ⟨before, line, after, hfound⟩
    have heq := unlines_inj hcomplete hfound.complete hfound.header_eq
    have hfalse := hall line (heq ▸ mem_append_right _ mem_cons_self)
    rw [hfound.found] at hfalse
    cases hfalse
  · rw [hok] at hrewrite
    cases x with
    | nil =>
      obtain ⟨rfl, -⟩ := List.cons.inj hlines
      rw [hof.ply_line.not_found] at hl
      cases hl
    | cons p x =>
      rw [cons_append] at hlines
      obtain ⟨rfl, hrest⟩ := List.cons.inj hlines
      have hheader : header_bytes ply ls last = unlines nl (ply :: x ++ l :: y) :=
        congrArg (unlines nl) hlines
      have hcomplete' : ∀ m ∈ ply :: x ++ l :: y, nl ∉ m := by
        rw [cons_append, ← hlines]
        exact hcomplete
      rcases eq_nil_or_concat y with rfl | ⟨y, m, rfl⟩
      · -- the last line is found: the vertex line stays where it is
        right
        obtain ⟨rfl, hlast⟩ := append_inj' hrest rfl
        constructor
        · rintro ⟨before, line, after, hfound⟩
          rw [hheader] at hfound
          exact hfound.not_last (hfound.eq hcomplete' hx hl).2.2
        · refine .inr ⟨_, hrewrite, fun out => ?_⟩
          exact read_doubled hof.ply_line (x := ls) (y := [])
            (by simpa using hof.header_line) ⟨r, by simpa using hr, hrvertex⟩ total returned stride out
      · rw [concat_eq_append] at hrest hheader hcomplete' hrewrite
        rw [← cons_append, ← append_assoc] at hrest
        obtain ⟨rfl, hlast⟩ := append_inj' hrest rfl
        obtain rfl : last ++ END_HEADER = m := (List.cons.inj hlast).1
        by_cases hvertex : VertexLine (clean l)
        · exact .inl ⟨x, l, y, rfl, ⟨hheader, hcomplete', by simp, hx, hl, hvertex⟩, hrewrite⟩
        · -- another line is found: two vertex lines
          right
          constructor
          · rintro ⟨before, line, after, hfound⟩
            rw [hheader] at hfound
            obtain ⟨-, rfl, -⟩ := hfound.eq hcomplete' hx hl
            exact hvertex hfound.vertex
          · refine .inr ⟨_, hrewrite, fun out => ?_⟩
            have hmem : ∃ r ∈ x ++ y, VertexLine (clean r) := by
              refine ⟨r, ?_, hrvertex⟩
              have hne : r ≠ l := fun heq => hvertex (heq ▸ hrvertex)
              simpa [hne] using hr
            have hlines : ∀ m ∈ x ++ y, HeaderLine m := by
              intro m hm
              apply hof.header_line
              exact ((sublist_cons_self l y).append_left x).subset hm
            have htwo := read_doubled hof.ply_line hlines hmem total returned stride
              (unlines nl [last ++ END_HEADER] ++ out)
            rw [← append_assoc, ← unlines_append] at htwo
            simpa using htwo

end Rewritten

end CloudServer.CloudLod
