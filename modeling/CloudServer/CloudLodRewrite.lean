import CloudServer.CloudLodHeader

/-! The bytes of a header as lines, read and rewritten. -/
namespace CloudServer.CloudLod

open Scan Substrings List

/-! ### Lines of bytes -/

def text_lines (data : Bytes) : List Text := (clean data).splitOn '\n'

lemma clean_unlines (ls : List Bytes) : clean (unlines nl ls) = unlines '\n' (ls.map clean) := by
  induction ls with
  | nil => rfl
  | cons l ls ih =>
    have hnl : clean (nl :: unlines nl ls) = '\n' :: clean (unlines nl ls) := by
      rw [← singleton_append, clean_append]
      rfl
    rw [unlines_cons, clean_append, hnl, ih, map_cons, unlines_cons]

variable {ls : List Bytes} {last line : Bytes} {t : Text}

lemma text_lines_append (h : ∀ l ∈ ls, nl ∉ l) (t : Bytes) :
    text_lines (unlines nl ls ++ t) = ls.map clean ++ text_lines t := by
  unfold text_lines
  rw [clean_append, clean_unlines]
  apply splitOn_unlines_append
  intro l hl
  obtain ⟨m, hm, rfl⟩ := mem_map.mp hl
  exact newline_notMem_clean (h m hm)

lemma text_lines_last (h : nl ∉ last) : text_lines last = [clean last] :=
  splitOn_eq_singleton (newline_notMem_clean h)

def HeaderLine (line : Bytes) : Prop := nl ∉ line ∧ ¬ END_HEADER <:+ line

lemma nl_notMem_end_header : nl ∉ END_HEADER := by decide

lemma find_unlines (h : ∀ l ∈ ls, HeaderLine l) (t : Bytes) :
    find marker (unlines nl ls ++ t) = (find marker t).map fun e => e + (unlines nl ls).length := by
  induction ls with
  | nil =>
    rw [unlines_nil, nil_append]
    simp
  | cons l ls ih =>
    obtain ⟨hl, hnot⟩ := h l mem_cons_self
    rw [unlines_cons, append_assoc, cons_append]
    unfold marker at ih ⊢
    rw [find_marker_skip nl_notMem_end_header hl hnot, ih fun m hm => h m (mem_cons_of_mem _ hm), Option.map_map]
    congr 1
    funext e
    simp only [Function.comp, length_append, length_cons]
    omega

/-! ### Reading -/

def PlyLine (line : Bytes) : Prop := line = encode "ply".toList ∨ line = encode "ply\r".toList

lemma PlyLine.headerLine (h : PlyLine line) : HeaderLine line := by
  rcases h with rfl | rfl
  · exact ⟨by decide, by decide⟩
  · exact ⟨by decide, by decide⟩

lemma ply_prefix_iff (h : nl ∉ line) (t : Bytes) :
    (encode "ply\n".toList <+: line ++ nl :: t ∨ encode "ply\r\n".toList <+: line ++ nl :: t) ↔ PlyLine line := by
  have h1 := prefix_drop_iff (w := encode "ply".toList) (by decide) h t (Nat.zero_le _)
  have h2 := prefix_drop_iff (w := encode "ply\r".toList) (by decide) h t (Nat.zero_le _)
  rw [drop_zero, drop_zero] at h1 h2
  unfold PlyLine
  rw [eq_comm, ← h1, @eq_comm _ line, ← h2]
  rfl

lemma read_ply_header_lines {ply : Bytes} (hply : PlyLine ply)
    (hls : ∀ l ∈ ls, HeaderLine l) (hlast : nl ∉ last) (body : Bytes) :
    read_ply_header (unlines nl (ply :: ls) ++ (last ++ (END_HEADER ++ nl :: body))) =
      if (unlines nl (ply :: ls) ++ last).length > MAX_HEADER then .error .no_end_header
      else
        match read_lines start (ls.map clean ++ [clean last]) with
        | .error failure => .error failure
        | .ok h => (checked h).map fun r =>
            ((unlines nl (ply :: ls) ++ last).length + marker.length, r) := by
  have hall : ∀ l ∈ ply :: ls, HeaderLine l := by
    intro l hl
    rcases mem_cons.mp hl with rfl | hl
    · exact hply.headerLine
    · exact hls l hl
  have hfind : find marker (unlines nl (ply :: ls) ++ (last ++ (END_HEADER ++ nl :: body))) =
      some (unlines nl (ply :: ls) ++ last).length :=
    find_marker nl_notMem_end_header hall hlast body
  have hstart := (ply_prefix_iff hply.headerLine.1 (unlines nl ls ++ (last ++ (END_HEADER ++ nl :: body)))).mpr hply
  have htake : (unlines nl (ply :: ls) ++ (last ++ (END_HEADER ++ nl :: body))).take
      (unlines nl (ply :: ls) ++ last).length = unlines nl (ply :: ls) ++ last := by
    rw [← append_assoc, take_left]
  have hlines : header_lines (unlines nl (ply :: ls) ++ last) = ls.map clean ++ [clean last] := by
    change (text_lines (unlines nl (ply :: ls) ++ last)).drop 1 = _
    rw [text_lines_append (fun l hl => (hall l hl).1), text_lines_last hlast]
    rfl
  unfold read_ply_header
  rw [if_neg, hfind]
  · simp only [htake, hlines]
    rfl
  · rw [unlines_cons, append_assoc, cons_append]
    intro hnot
    rcases hstart with hs | hs
    · exact hnot.1 hs
    · exact hnot.2 hs

structure HeaderOf (source : Bytes) (ply : Bytes) (ls : List Bytes) (last body : Bytes) (h : Header) :
    Prop where
  source_eq : source = unlines nl (ply :: ls) ++ (last ++ (END_HEADER ++ nl :: body))
  ply_line : PlyLine ply
  header_line : ∀ l ∈ ls, HeaderLine l
  last_line : nl ∉ last
  short : (unlines nl (ply :: ls) ++ last).length ≤ MAX_HEADER
  reads : read_lines start (ls.map clean ++ [clean last]) = .ok h

lemma read_ply_header_inv {source : Bytes} {header_len total : ℕ} {props : List (Text × Text)}
    (hread : read_ply_header source = .ok (header_len, total, props)) :
    ∃ ply ls last body h, HeaderOf source ply ls last body h ∧ checked h = .ok (total, props) ∧
      header_len = (unlines nl (ply :: ls) ++ last).length + marker.length := by
  unfold read_ply_header at hread
  split at hread
  · cases hread
  · rename_i hply
    cases hfind : find marker source with
    | none =>
      rw [hfind] at hread
      cases hread
    | some e =>
      rw [hfind] at hread
      simp only at hread
      split at hread
      · cases hread
      · rename_i hmax
        obtain ⟨ls, last, body, hsource, htake, hls, hlast⟩ := find_marker_inv nl_notMem_end_header hfind
        have he : e = (unlines nl ls ++ last).length := by
          have hle := find_le hfind
          rw [← htake, length_take]
          omega
        have hlines : header_lines (source.take e) = (ls.map clean ++ [clean last]).drop 1 := by
          change (text_lines (source.take e)).drop 1 = _
          rw [htake, text_lines_append (fun l hl => (hls l hl).1), text_lines_last hlast]
        rw [hlines] at hread
        cases ls with
        | nil => cases hread
        | cons ply ls =>
          obtain ⟨hline, -⟩ := hls ply mem_cons_self
          have hplyLine : PlyLine ply := by
            apply (ply_prefix_iff hline (unlines nl ls ++ (last ++ (END_HEADER ++ nl :: body)))).mp
            rw [hsource, unlines_cons, append_assoc, cons_append] at hply
            by_contra hnot
            exact hply (not_or.mp hnot)
          change (match read_lines start (ls.map clean ++ [clean last]) with | .error _ => _ | .ok _ => _) =
            _ at hread
          cases hlns : read_lines start (ls.map clean ++ [clean last]) with
          | error f =>
            rw [hlns] at hread
            cases hread
          | ok h =>
            rw [hlns] at hread
            cases hchecked : checked h with
            | error f =>
              simp only [hchecked] at hread
              cases hread
            | ok r =>
              simp only [hchecked] at hread
              obtain ⟨rfl, rfl⟩ := Prod.mk.inj (Except.ok.inj hread)
              refine ⟨ply, ls, last, body, h, ⟨hsource, hplyLine, ?_, hlast, ?_, hlns⟩, hchecked, ?_⟩
              · exact fun l hl => hls l (mem_cons_of_mem _ hl)
              · omega
              · rw [he]

lemma read_ply_header_two {ply : Bytes} (hply : PlyLine ply) {a b : List Bytes}
    (hls : ∀ l ∈ a ++ line :: b, HeaderLine l) (hline : VertexLine (clean line))
    (hb : ∃ l ∈ b, VertexLine (clean l)) (t : Bytes) :
    ∃ f, read_ply_header (unlines nl (ply :: (a ++ line :: b)) ++ t) = .error f := by
  cases hread : read_ply_header (unlines nl (ply :: (a ++ line :: b)) ++ t) with
  | error f => exact ⟨f, rfl⟩
  | ok r =>
    exfalso
    obtain ⟨ply', ls, last, body, h, hof, -, -⟩ := read_ply_header_inv hread
    have hall : ∀ l ∈ ply :: (a ++ line :: b), HeaderLine l := forall_mem_cons.mpr
      ⟨hply.headerLine, hls⟩
    have hall' : ∀ l ∈ ply' :: ls, HeaderLine l := forall_mem_cons.mpr
      ⟨hof.ply_line.headerLine, hof.header_line⟩
    -- the header that is found goes beyond these lines
    have hfind := find_unlines hall t
    have hfind' : find marker (unlines nl (ply' :: ls) ++ (last ++ (END_HEADER ++ nl :: body))) =
        some (unlines nl (ply' :: ls) ++ last).length :=
      find_marker nl_notMem_end_header hall' hof.last_line body
    rw [hof.source_eq, hfind'] at hfind
    obtain ⟨e, -, he⟩ := Option.map_eq_some_iff.mp hfind.symm
    have htake := congrArg (List.take (unlines nl (ply' :: ls) ++ last).length) hof.source_eq
    rw [← append_assoc (unlines nl (ply' :: ls)) last, take_left, ← he, Nat.add_comm,
      take_length_add_append] at htake
    have hlines := congrArg text_lines htake
    rw [text_lines_append (fun l hl => (hall l hl).1), text_lines_append (fun l hl => (hall' l hl).1),
      text_lines_last hof.last_line] at hlines
    have htail := (List.cons.inj hlines).2
    rw [append_eq, append_eq, map_append, map_cons, append_assoc, cons_append] at htail
    have hvertex : ∃ l ∈ b.map clean ++ text_lines (t.take e), VertexLine l := by
      obtain ⟨l, hl, hvertex⟩ := hb
      exact ⟨clean l, mem_append_left _ (mem_map_of_mem hl), hvertex⟩
    obtain ⟨f, hf⟩ := read_lines_two (a := a.map clean) hline hvertex start
    rw [htail, hof.reads] at hf
    cases hf

/-! ### Rewriting -/

lemma rewrite_lines_cases (total returned stride : ℕ) (lines : List Bytes) :
    ((∀ l ∈ lines, vertex_prefix l = false) ∧ rewrite_lines total returned stride lines = .error .no_vertex_line) ∨
    ∃ x l y, lines = x ++ l :: y ∧ (∀ m ∈ x, vertex_prefix m = false) ∧ vertex_prefix l = true ∧
      rewrite_lines total returned stride lines = .ok (x ++ comment_line stride total :: element_line returned :: y) := by
  induction lines with
  | nil => exact .inl ⟨fun l hl => absurd hl not_mem_nil, rfl⟩
  | cons line lines ih =>
    by_cases hline : vertex_prefix line = true
    · exact .inr ⟨[], line, lines, rfl, fun m hm => absurd hm not_mem_nil, hline, if_pos hline⟩
    · have hfalse : vertex_prefix line = false := Bool.eq_false_of_not_eq_true hline
      rw [rewrite_lines, if_neg hline]
      rcases ih with ⟨hall, herr⟩ | ⟨x, l, y, rfl, hx, hl, hok⟩
      · rw [herr]
        exact .inl ⟨forall_mem_cons.mpr ⟨hfalse, hall⟩, rfl⟩
      · rw [hok]
        exact .inr ⟨line :: x, l, y, rfl, forall_mem_cons.mpr ⟨hfalse, hx⟩, hl, rfl⟩

lemma intercalate_append_nl (h : ls ≠ []) : [nl].intercalate ls ++ [nl] = unlines nl ls := by
  induction ls with
  | nil => exact absurd rfl h
  | cons l ls ih =>
    cases ls with
    | nil => simp [unlines]
    | cons m ls =>
      rw [intercalate_cons_cons, unlines_cons, ← ih (cons_ne_nil m ls)]
      simp

lemma rewrite_header_unlines {lines : List Bytes} (h : ∀ l ∈ lines, nl ∉ l)
    (total returned stride : ℕ) : rewrite_header (unlines nl lines) total returned stride =
      (rewrite_lines total returned stride lines).map (unlines nl) := by
  have hsplit : (unlines nl lines).splitOn nl = lines ++ [[]] := by
    rw [← append_nil (unlines nl lines), splitOn_unlines_append h]
    rfl
  unfold rewrite_header
  rw [hsplit, dropLast_concat]
  rcases rewrite_lines_cases total returned stride lines with ⟨-, herr⟩ | ⟨x, l, y, -, -, -, hok⟩
  · rw [herr]
    rfl
  · rw [hok]
    exact congrArg Except.ok (intercalate_append_nl (by simp))

lemma plain_of_all (h : (t.all fun c => c.toNat < 128 ∧ c ≠ '\r') = true) : Plain t :=
  fun c hc => of_decide_eq_true (all_eq_true.mp h c hc)

def comment_text (stride total : ℕ) : Text :=
  "comment satinav lod stride=".toList ++ str stride ++ " total=".toList ++ str total

def element_text (returned : ℕ) : Text := "element vertex ".toList ++ str returned

lemma plain_comment (stride total : ℕ) : Plain (comment_text stride total) :=
  .append (.append (.append (plain_of_all (by decide)) (plain_str stride)) (plain_of_all (by decide))) (plain_str total)

lemma plain_element (returned : ℕ) : Plain (element_text returned) :=
  .append (plain_of_all (by decide)) (plain_str returned)

lemma decode_mem (h : Plain t) {b : UInt8} (hb : b ∈ encode t) : decode b ∈ t := by
  obtain ⟨c, hc, rfl⟩ := mem_map.mp hb
  rwa [decode_encode (h c hc).1]

lemma notMem_str {c : Char} (h : c.isDigit = false) (n : ℕ) : c ∉ str n := fun hmem => by
  rw [isDigit_of_mem_str hmem] at h
  cases h

lemma headerLine_encode {n : ℕ} (hplain : Plain (t ++ str n)) (hnl : '\n' ∉ t) :
    HeaderLine (encode (t ++ str n)) := by
  constructor
  · intro hmem
    have hdec := decode_mem hplain hmem
    rcases mem_append.mp hdec with hdec | hdec
    · exact hnl hdec
    · exact notMem_str (by decide) n hdec
  · intro hsuffix
    have hnum : encode (str n) <:+ encode (t ++ str n) := ⟨encode t, by simp [encode]⟩
    rcases suffix_or_suffix_of_suffix hsuffix hnum with hs | hs
    · have hr : (114 : UInt8) ∈ encode (str n) := hs.subset (by decide)
      exact notMem_str (by decide) n (decode_mem (plain_str n) hr)
    · obtain ⟨c, hc⟩ := exists_mem_of_ne_nil _ (str_ne_nil n)
      have hb : c.toNat.toUInt8 ∈ END_HEADER := hs.subset (mem_map_of_mem hc)
      have hchar : c ∈ "end_header".toList := by
        have hdec := decode_mem (t := "end_header".toList) (plain_of_all (by decide)) hb
        rwa [decode_encode (plain_str n c hc).1] at hdec
      have hnone : "end_header".toList.any Char.isDigit = false := by decide
      rw [any_eq_true.mpr ⟨c, hchar, isDigit_of_mem_str hc⟩] at hnone
      cases hnone

lemma headerLine_comment (stride total : ℕ) : HeaderLine (comment_line stride total) := by
  apply headerLine_encode (t := "comment satinav lod stride=".toList ++ str stride ++ " total=".toList)
    (plain_comment stride total)
  simp only [mem_append, not_or]
  exact ⟨⟨by decide, notMem_str (by decide) stride⟩, by decide⟩

lemma headerLine_element (returned : ℕ) : HeaderLine (element_line returned) :=
  headerLine_encode (plain_element returned) (by decide)

lemma not_space_of_all {w : Text} (h : w.any isSpace = false) : ∀ c ∈ w, isSpace c = false :=
  fun c hc => by simpa using any_eq_false.mp h c hc

lemma split_comment (stride total : ℕ) : ∃ words,
    split isSpace (clean (comment_line stride total)) = "comment".toList :: words := by
  have hclean : clean (comment_line stride total) = comment_text stride total :=
    clean_encode (plain_comment stride total)
  have hword := split_cons (w := "comment".toList) (s := ' ') (p := isSpace) (by decide)
    (not_space_of_all (by decide)) (by decide)
    ("satinav lod stride=".toList ++ str stride ++ " total=".toList ++ str total)
  rw [hclean]
  exact ⟨_, hword⟩

lemma split_element (returned : ℕ) : split isSpace (clean (element_line returned)) =
    ["element".toList, "vertex".toList, str returned] := by
  have hclean : clean (element_line returned) = element_text returned :=
    clean_encode (plain_element returned)
  have hdigits : ∀ c ∈ str returned, isSpace c = false := by
    intro c hc
    have hbounds := digit_bounds (isDigit_of_mem_str hc)
    unfold isSpace
    simp only [mem_cons, not_mem_nil, or_false, decide_eq_false_iff_not]
    omega
  rw [hclean]
  have h1 := split_cons (w := "element".toList) (s := ' ') (p := isSpace) (by decide)
    (not_space_of_all (by decide)) (by decide) ("vertex".toList ++ ' ' :: str returned)
  have h2 := split_cons (w := "vertex".toList) (s := ' ') (p := isSpace) (by decide)
    (not_space_of_all (by decide)) (by decide) (str returned)
  rw [h2, split_single (str_ne_nil returned) hdigits] at h1
  exact h1

end CloudServer.CloudLod
