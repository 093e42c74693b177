import CloudServer.CloudLodRewrite

/-! The total that is read back from a decimated cloud. -/
namespace CloudServer.CloudLod

open Scan Substrings List

/-! ### The loop over the words and lines -/

/-- A loop that fails, keeps what it was given, or ends with a value of its own. -/
def Decided (f : ℤ → Option ℤ) : Prop :=
  (∀ d, f d = none) ∨ (∀ d, f d = some d) ∨ ∃ t, ∀ d, f d = some t

lemma Decided.bind {f g : ℤ → Option ℤ} (hf : Decided f) (hg : Decided g) :
    Decided fun d => (f d).bind g := by
  rcases hf with hf | hf | ⟨t, hf⟩
  · exact .inl fun d => congrArg (·.bind g) (hf d)
  · have heq : (fun d => (f d).bind g) = g := funext fun d => congrArg (·.bind g) (hf d)
    rwa [heq]
  · cases ht : g t with
    | none => exact .inl fun d => (congrArg (·.bind g) (hf d)).trans ht
    | some u => exact .inr (.inr ⟨u, fun d => (congrArg (·.bind g) (hf d)).trans ht⟩)

lemma decided_words (words : List Bytes) : Decided fun d => lod_words d words := by
  induction words with
  | nil => exact .inr (.inl fun _ => rfl)
  | cons word words ih =>
    by_cases hword : encode "total=".toList <+: word
    · have heq : (fun d => lod_words d (word :: words)) = fun _ =>
          (int_word ((word.drop 6).map decode)).bind fun t => lod_words t words := by
        funext d
        rw [lod_words, if_pos hword]
      rw [heq]
      cases hint : int_word ((word.drop 6).map decode) with
      | none => exact .inl fun _ => rfl
      | some t =>
        cases ht : lod_words t words with
        | none => exact .inl fun _ => ht
        | some u => exact .inr (.inr ⟨u, fun _ => ht⟩)
    · have heq : (fun d => lod_words d (word :: words)) = fun d => lod_words d words := by
        funext d
        rw [lod_words, if_neg hword]
      rwa [heq]

lemma decided_total (lines : List Bytes) : Decided fun d => lod_total d lines := by
  induction lines with
  | nil => exact .inr (.inl fun _ => rfl)
  | cons line lines ih =>
    by_cases hline : encode "comment satinav lod ".toList <+: line
    · have heq : (fun d => lod_total d (line :: lines)) = fun d =>
          (lod_words d (split isSpaceByte line)).bind fun t => lod_total t lines := by
        funext d
        rw [lod_total, if_pos hline]
      rw [heq]
      exact (decided_words _).bind ih
    · have heq : (fun d => lod_total d (line :: lines)) = fun d => lod_total d lines := by
        funext d
        rw [lod_total, if_neg hline]
      rwa [heq]

lemma lod_total_append (d : ℤ) (a b : List Bytes) :
    lod_total d (a ++ b) = (lod_total d a).bind fun t => lod_total t b := by
  induction a generalizing d with
  | nil => rfl
  | cons line a ih =>
    rw [cons_append]
    by_cases hline : encode "comment satinav lod ".toList <+: line
    · rw [lod_total, lod_total, if_pos hline, if_pos hline, Option.bind_assoc]
      congr 1
      funext t
      exact ih t
    · rw [lod_total, lod_total, if_neg hline, if_neg hline, ih]

/-! ### The lines that are added -/

lemma encode_append (s t : Text) : encode (s ++ t) = encode s ++ encode t := map_append

lemma not_spaceByte_of_digits {n : ℕ} {b : UInt8} (hb : b ∈ encode (str n)) : isSpaceByte b = false := by
  obtain ⟨c, hc, rfl⟩ := mem_map.mp hb
  have hbounds := digit_bounds (isDigit_of_mem_str hc)
  have hnat : c.toNat.toUInt8.toNat = c.toNat := by simp; omega
  unfold isSpaceByte
  rw [decide_eq_false_iff_not]
  intro hmem
  have hmap := mem_map_of_mem (f := UInt8.toNat) hmem
  rw [hnat] at hmap
  simp at hmap
  omega

lemma split_comment_bytes (stride total : ℕ) : split isSpaceByte (comment_line stride total) =
    [encode "comment".toList, encode "satinav".toList, encode "lod".toList,
      encode ("stride=".toList ++ str stride), encode ("total=".toList ++ str total)] := by
  have hplain : ∀ {w : Bytes}, w.any isSpaceByte = false → ∀ b ∈ w, isSpaceByte b = false :=
    fun h b hb => by simpa using any_eq_false.mp h b hb
  have hnum : ∀ {w : Text} (n : ℕ), (encode w).any isSpaceByte = false →
      ∀ b ∈ encode (w ++ str n), isSpaceByte b = false := by
    intro w n hw b hb
    rw [encode_append] at hb
    rcases mem_append.mp hb with hb | hb
    · exact hplain hw b hb
    · exact not_spaceByte_of_digits hb
  have h5 := split_single (p := isSpaceByte) (w := encode ("total=".toList ++ str total))
    (by simp [encode]) (hnum total (by decide))
  have h4 := split_cons (p := isSpaceByte) (w := encode ("stride=".toList ++ str stride)) (s := 32)
    (by simp [encode]) (hnum stride (by decide)) (by decide)
    (encode ("total=".toList ++ str total))
  have h3 := split_cons (p := isSpaceByte) (w := encode "lod".toList) (s := 32) (by decide)
    (hplain (by decide)) (by decide)
    (encode ("stride=".toList ++ str stride) ++ 32 :: encode ("total=".toList ++ str total))
  have h2 := split_cons (p := isSpaceByte) (w := encode "satinav".toList) (s := 32) (by decide)
    (hplain (by decide)) (by decide) (encode "lod".toList ++ 32 ::
      (encode ("stride=".toList ++ str stride) ++ 32 :: encode ("total=".toList ++ str total)))
  have h1 := split_cons (p := isSpaceByte) (w := encode "comment".toList) (s := 32) (by decide)
    (hplain (by decide)) (by decide) (encode "satinav".toList ++ 32 :: (encode "lod".toList ++
      32 :: (encode ("stride=".toList ++ str stride) ++ 32 :: encode ("total=".toList ++ str total))))
  rw [h2, h3, h4, h5] at h1
  rw [← h1]
  congr 1
  have htext : "comment satinav lod stride=".toList = "comment".toList ++ ' ' :: ("satinav".toList ++
      ' ' :: ("lod".toList ++ ' ' :: "stride=".toList)) := by decide
  have htotal : " total=".toList = ' ' :: "total=".toList := by decide
  unfold comment_line
  rw [htext, htotal]
  simp only [encode, map_append, map_cons, append_assoc, cons_append]
  rfl

lemma comment_starts (stride total : ℕ) :
    encode "comment satinav lod ".toList <+: comment_line stride total := by
  have htext : "comment satinav lod stride=".toList = "comment satinav lod ".toList ++
      "stride=".toList := by decide
  unfold comment_line
  rw [htext, append_assoc, append_assoc, append_assoc, encode_append]
  exact prefix_append _ _

lemma lod_total_comment {total : ℕ} (h : total < 10 ^ MAX_DIGITS) (d : ℤ) (stride returned : ℕ)
    (lines : List Bytes) : lod_total d (comment_line stride total :: element_line returned :: lines) =
      lod_total total lines := by
  have hplain : Plain (str total) := plain_str total
  have hword : lod_words d (split isSpaceByte (comment_line stride total)) = some (total : ℤ) := by
    have hdec : ((encode ("total=".toList ++ str total)).drop 6).map decode = str total := by
      rw [encode_append]
      change (encode (str total)).map decode = str total
      unfold encode
      rw [map_map]
      conv_rhs => rw [← map_id (str total)]
      exact map_congr_left fun c hc => decode_encode (hplain c hc).1
    have hprefix : encode "total=".toList <+: encode ("total=".toList ++ str total) := by
      rw [encode_append]
      exact prefix_append _ _
    have hstride : ¬ encode "total=".toList <+: encode ("stride=".toList ++ str stride) := by
      rw [encode_append]
      rintro ⟨t, ht⟩
      have hhead : some (116 : UInt8) = some 115 := congrArg List.head? ht
      exact absurd (Option.some.inj hhead) (by decide)
    rw [split_comment_bytes, lod_words, if_neg (by decide), lod_words, if_neg (by decide), lod_words,
      if_neg (by decide), lod_words, if_neg hstride, lod_words, if_pos hprefix, hdec, int_word_str h]
    rfl
  have helement : ¬ encode "comment satinav lod ".toList <+: element_line returned := by
    unfold element_line
    rw [encode_append]
    rintro ⟨t, ht⟩
    have hhead : some (99 : UInt8) = some 101 := congrArg List.head? ht
    exact absurd (Option.some.inj hhead) (by decide)
  rw [lod_total, if_pos (comment_starts stride total), hword]
  change lod_total total (element_line returned :: lines) = _
  rw [lod_total, if_neg helement]

/-! ### The whole header -/

/-- The comments before the vertex line hold only numbers as totals and those after it no other one than
this; where `end_header` occurs before the vertex line, the comments before it say this total. -/
def Told (before after : List Bytes) (total : ℕ) : Prop :=
  if find END_HEADER (unlines nl before) = none then
    lod_total 0 before ≠ none ∧
      lod_total total ((upto END_HEADER (unlines nl after)).splitOn nl) = some (total : ℤ)
  else ∀ d, lod_total d ((upto END_HEADER (unlines nl before)).splitOn nl) = some (total : ℤ)

lemma underscore_notMem {t : Text} (hplain : Plain t) (h : '_' ∉ t) : (95 : UInt8) ∉ encode t :=
  fun hmem => h (decode_mem hplain hmem)

lemma find_added (stride total returned : ℕ) : find END_HEADER
    (unlines nl [comment_line stride total, element_line returned]) = none := by
  have hcomment : (95 : UInt8) ∉ comment_line stride total := by
    apply underscore_notMem (plain_comment stride total)
    unfold comment_text
    simp only [mem_append, not_or]
    exact ⟨⟨⟨by decide, notMem_str (by decide) stride⟩, by decide⟩, notMem_str (by decide) total⟩
  have helement : (95 : UInt8) ∉ element_line returned := by
    apply underscore_notMem (plain_element returned)
    unfold element_text
    simp only [mem_append, not_or]
    exact ⟨by decide, notMem_str (by decide) returned⟩
  apply find_of_notMem (c := 95) (by decide)
  rw [unlines_cons, unlines_cons]
  simp only [mem_append, mem_cons, not_or]
  exact ⟨hcomment, by decide, helement, by decide, not_mem_nil⟩

lemma lod_total_rewritten {before after : List Bytes} (hbefore : ∀ l ∈ before, nl ∉ l) {e : ℕ}
    (hafter : find END_HEADER (unlines nl after) = some e) {total returned : ℕ}
    (htotal : total < 10 ^ MAX_DIGITS) (hne : (returned : ℤ) ≠ total) (stride : ℕ) (body : Bytes) :
    lod_total returned ((upto END_HEADER (unlines nl (before ++ comment_line stride total ::
      element_line returned :: after) ++ body)).splitOn nl) = some (total : ℤ) ↔ Told before after total := by
  have hunlines : unlines nl (before ++ comment_line stride total :: element_line returned :: after) ++
      body = unlines nl before ++ (unlines nl [comment_line stride total, element_line returned] ++
        (unlines nl after ++ body)) := by
    rw [unlines_append, unlines_cons, unlines_cons]
    simp [unlines]
  rw [hunlines]
  unfold Told
  by_cases hfind : find END_HEADER (unlines nl before) = none
  · have hlines : ∀ l ∈ [comment_line stride total, element_line returned], nl ∉ l := by
      simp [(headerLine_comment stride total).1, (headerLine_element returned).1]
    rw [if_pos hfind, upto_unlines nl_notMem_end_header hfind,
      upto_unlines nl_notMem_end_header (find_added stride total returned), upto_append hafter,
      splitOn_unlines_append hbefore, splitOn_unlines_append hlines, lod_total_append]
    have hcomment : ∀ d, lod_total d ([comment_line stride total, element_line returned] ++
        (upto END_HEADER (unlines nl after)).splitOn nl) =
          lod_total total ((upto END_HEADER (unlines nl after)).splitOn nl) := fun d =>
      lod_total_comment htotal d stride returned _
    simp only [hcomment]
    rcases decided_total before with hdec | hdec | ⟨t, hdec⟩
    · simp [hdec]
    · simp [hdec]
    · simp [hdec]
  · obtain ⟨e', he'⟩ := Option.ne_none_iff_exists'.mp hfind
    rw [if_neg hfind, upto_append he']
    rcases decided_total ((upto END_HEADER (unlines nl before)).splitOn nl) with hdec | hdec | ⟨t, hdec⟩
    · simp [hdec]
    · simp only [hdec, Option.some.injEq]
      constructor
      · exact fun heq => absurd heq hne
      · exact fun hall => hall returned
    · simp [hdec]

end CloudServer.CloudLod
