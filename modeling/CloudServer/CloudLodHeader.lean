import CloudServer.CloudLod

/-! The header that is rewritten, as the reader of PLY headers sees it. -/
namespace CloudServer.CloudLod

open Scan Substrings List

/-! ### Characters and words -/

variable {c : Char} {word : Text} {words : List Text}

lemma decode_encode (h : c.toNat < 128) : decode c.toNat.toUInt8 = c := by
  have hlt : c.toNat.toUInt8 < 128 := by
    rw [UInt8.lt_iff_toNat_lt]
    simp
    omega
  unfold decode
  rw [if_pos hlt]
  have hnat : c.toNat.toUInt8.toNat = c.toNat := by simp; omega
  rw [hnat, Char.ofNat_toNat]

lemma decode_eq_newline {b : UInt8} : decode b = '\n' ↔ b = nl := by
  unfold decode
  by_cases hb : b < 128
  · rw [if_pos hb]
    constructor
    · intro h
      have hnat := congrArg Char.toNat h
      rw [Char.toNat_ofNat] at hnat
      split at hnat
      · exact UInt8.toNat_inj.mp hnat
      · exact absurd hnat (by decide)
    · rintro rfl
      rfl
  · rw [if_neg hb]
    constructor
    · intro h
      exact absurd h (by decide)
    · rintro rfl
      exact absurd (by decide) hb

def clean (line : Bytes) : Text := (line.map decode).filter (· ≠ '\r')

lemma clean_append (a b : Bytes) : clean (a ++ b) = clean a ++ clean b := by
  simp [clean]

lemma newline_notMem_clean {line : Bytes} (h : nl ∉ line) : '\n' ∉ clean line := by
  intro hmem
  obtain ⟨b, hb, hd⟩ := mem_map.mp (mem_of_mem_filter hmem)
  exact h (decode_eq_newline.mp hd ▸ hb)

def Plain (t : Text) : Prop := ∀ c ∈ t, c.toNat < 128 ∧ c ≠ '\r'

lemma clean_encode {t : Text} (h : Plain t) : clean (encode t) = t := by
  unfold clean encode
  rw [map_map]
  have hmap : t.map (decode ∘ fun c => c.toNat.toUInt8) = t := by
    conv_rhs => rw [← map_id t]
    exact map_congr_left fun c hc => decode_encode (h c hc).1
  rw [hmap, filter_eq_self]
  intro c hc
  simpa using (h c hc).2

lemma Plain.append {s t : Text} (hs : Plain s) (ht : Plain t) : Plain (s ++ t) := by
  intro c hc
  rcases mem_append.mp hc with hc | hc
  · exact hs c hc
  · exact ht c hc

lemma isDigit_of_mem_str {n : ℕ} (h : c ∈ str n) : c.isDigit = true :=
  Nat.isDigit_of_mem_toDigits (by omega) (by omega) h

lemma digit_bounds (h : c.isDigit = true) : 48 ≤ c.toNat ∧ c.toNat ≤ 57 := by
  simp only [Char.isDigit, ge_iff_le, Bool.and_eq_true, decide_eq_true_eq] at h
  obtain ⟨h1, h2⟩ := h
  have h1' : (48 : ℕ) ≤ c.val.toNat := h1
  have h2' : c.val.toNat ≤ 57 := h2
  exact ⟨h1', h2'⟩

lemma plain_str (n : ℕ) : Plain (str n) := by
  intro c hc
  obtain ⟨h1, h2⟩ := digit_bounds (isDigit_of_mem_str hc)
  refine ⟨by omega, ?_⟩
  rintro rfl
  exact absurd h1 (by decide)

section Split
variable {α : Type} {p : α → Bool} {w : List α}

lemma split_cons (hw : w ≠ []) (hspace : ∀ c ∈ w, p c = false) {s : α} (hs : p s = true)
    (rest : List α) : split p (w ++ s :: rest) = w :: split p rest := by
  unfold split
  rw [splitOnP_append_cons_of_forall_mem hspace s hs, filter_cons_of_pos (by simpa using hw)]

lemma split_single (hw : w ≠ []) (hspace : ∀ c ∈ w, p c = false) : split p w = [w] := by
  unfold split
  rw [splitOnP_eq_singleton hspace, filter_cons_of_pos (by simpa using hw)]
  rfl

end Split

/-! ### Numbers -/

lemma int_lt_pow (ds : Text) (h : ∀ c ∈ ds, c.isDigit = true) : int ds < 10 ^ ds.length := by
  have hfold : ∀ (ds : Text) (k : ℕ), (∀ c ∈ ds, c.isDigit = true) →
      ds.foldl (fun n c => 10 * n + (digitValue c).getD 0) k < (k + 1) * 10 ^ ds.length := by
    intro ds
    induction ds with
    | nil => simp
    | cons c ds ih =>
      intro k h
      have hc := h c mem_cons_self
      have hrest := ih (10 * k + (digitValue c).getD 0) fun d hd => h d (mem_cons_of_mem _ hd)
      have hbounds := digit_bounds hc
      rw [digitValue_of_isDigit hc, Option.getD_some] at hrest
      rw [foldl_cons, digitValue_of_isDigit hc, Option.getD_some, length_cons, pow_succ]
      have hle : (10 * k + (c.toNat - 48) + 1) * 10 ^ ds.length ≤ (10 * (k + 1)) * 10 ^ ds.length :=
        Nat.mul_le_mul_right _ (by omega)
      calc _ < _ := hrest
        _ ≤ _ := hle
        _ = _ := by ring
  have h0 := hfold ds 0 h
  rwa [zero_add, one_mul] at h0

lemma int_digits_lt {n : ℕ} (h : int_digits word = some n) : n < 10 ^ MAX_DIGITS := by
  simp only [int_digits] at h
  split at h
  · rename_i hgroups
    obtain ⟨hall, hlen⟩ := hgroups
    rw [← Option.some.inj h]
    have hlt := int_lt_pow (word.splitOn '_').flatten fun c hc => by
      obtain ⟨group, hgroup, hmem⟩ := mem_flatten.mp hc
      exact all_eq_true.mp (hall group hgroup).2 c hmem
    exact hlt.trans_le (Nat.pow_le_pow_right (by omega) hlen)
  · cases h

lemma int_word_lt {n : ℕ} (h : int_word word = some (n : ℤ)) : n < 10 ^ MAX_DIGITS := by
  have hpos : ∀ w, (int_digits w).map (fun n : ℕ => (n : ℤ)) = some (n : ℤ) → n < 10 ^ MAX_DIGITS := by
    intro w hw
    obtain ⟨m, hm, heq⟩ := Option.map_eq_some_iff.mp hw
    obtain rfl : m = n := Nat.cast_injective heq
    exact int_digits_lt hm
  unfold int_word at h
  split at h
  · obtain ⟨m, hm, heq⟩ := Option.map_eq_some_iff.mp h
    obtain rfl : n = 0 := by omega
    exact Nat.pow_pos (by omega)
  · exact hpos _ h
  · exact hpos _ h

lemma int_word_str {n : ℕ} (h : n < 10 ^ MAX_DIGITS) : int_word (str n) = some (n : ℤ) := by
  have hdigits : ∀ c ∈ str n, c.isDigit = true := fun c => isDigit_of_mem_str
  have hunderscore : '_' ∉ str n := fun hmem => absurd (hdigits _ hmem) (by decide)
  have hint : int_digits (str n) = some n := by
    unfold int_digits
    rw [splitOn_eq_singleton hunderscore]
    simp only [flatten_singleton, int_str]
    rw [if_pos]
    refine ⟨?_, (Nat.length_toDigits_le_iff (by omega) (by decide)).mpr h⟩
    intro group hgroup
    rw [mem_singleton.mp hgroup]
    exact ⟨str_ne_nil n, all_eq_true.mpr hdigits⟩
  unfold int_word
  split
  · rename_i word heq
    exact absurd (hdigits '-' (heq ▸ mem_cons_self)) (by decide)
  · rename_i word heq
    exact absurd (hdigits '+' (heq ▸ mem_cons_self)) (by decide)
  · rw [hint]
    rfl

/-! ### The loop over the lines -/

def VertexLine (line : Text) : Prop :=
  ∃ count, split isSpace line = ["element".toList, "vertex".toList, count]

/-- The loop of `read_ply_header`. -/
abbrev read_lines (h : Header) (lines : List Text) : Except Failure Header := lines.foldlM read_line h

lemma read_lines_append (h : Header) (a b : List Text) :
    read_lines h (a ++ b) = (read_lines h a).bind fun h' => read_lines h' b := foldlM_append

lemma read_other_count (h : Header) (line word : Text) (words : List Text) (c : Option ℤ) :
    read_other { h with count := c } line word words =
      (read_other h line word words).map fun h' => { h' with count := c } := by
  unfold read_other
  simp only
  split
  · split
    · split
      · rfl
      · rfl
    · rfl
  · split
    · rfl
    · rfl

lemma read_line_count {line : Text} (hline : ¬ VertexLine line) (h : Header) (c : Option ℤ) :
    read_line { h with count := c } line = (read_line h line).map fun h' => { h' with count := c } := by
  rcases hsplit : split isSpace line with _ | ⟨word, words⟩
  · simp only [read_line, hsplit]
    rfl
  · simp only [read_line, hsplit]
    split
    · rfl
    · split
      · rfl
      · split
        · rename_i hel
          split
          · rename_i element count
            split
            · rename_i hvertex
              exact absurd ⟨count, by rw [hsplit, hel, hvertex]⟩ hline
            · split
              · rfl
              · split
                · rfl
                · rfl
          · exact read_other_count h line word words c
        · exact read_other_count h line word words c

lemma read_line_vertex_again {line : Text} (hline : VertexLine line) {h : Header}
    (hcount : h.count ≠ none) : read_line h line = .error .two_vertex_elements := by
  obtain ⟨count, hsplit⟩ := hline
  simp only [read_line, hsplit]
  rw [if_neg (by decide), if_neg (by decide), if_pos trivial, if_pos trivial, if_pos hcount]

lemma read_line_vertex {line count : Text}
    (hsplit : split isSpace line = ["element".toList, "vertex".toList, count]) {h : Header}
    (hcount : h.count = none) {n : ℤ} (hn : int_word count = some n) :
    read_line h line = .ok { h with element := some "vertex".toList, count := some n } := by
  simp only [read_line, hsplit]
  rw [if_neg (by decide), if_neg (by decide), if_pos trivial, if_pos trivial, if_neg (not_not.mpr hcount), hn]

lemma read_line_vertex_inv {line count : Text}
    (hsplit : split isSpace line = ["element".toList, "vertex".toList, count]) {h h' : Header}
    (hcount : h.count = none) (hread : read_line h line = .ok h') :
    ∃ n, int_word count = some n ∧ h' = { h with element := some "vertex".toList, count := some n } := by
  cases hn : int_word count with
  | none =>
    simp only [read_line, hsplit] at hread
    rw [if_neg (by decide), if_neg (by decide), if_pos trivial, if_pos trivial, if_neg (not_not.mpr hcount), hn] at hread
    cases hread
  | some n =>
    rw [read_line_vertex hsplit hcount hn] at hread
    exact ⟨n, rfl, (Except.ok.inj hread).symm⟩

lemma read_line_comment {line : Text}
    (hsplit : split isSpace line = "comment".toList :: words) (h : Header) :
    read_line h line = .ok h := by
  simp only [read_line, hsplit]
  rw [if_pos (.inl trivial)]

lemma read_line_props {line : Text} (hline : ¬ VertexLine line) {h h' : Header}
    (hel : h.element ≠ some "vertex".toList) (hread : read_line h line = .ok h') :
    h'.element ≠ some "vertex".toList ∧ h'.props = h.props := by
  have hother : ∀ word words, read_other h line word words = .ok h' →
      h'.element ≠ some "vertex".toList ∧ h'.props = h.props := by
    intro word words hr
    unfold read_other at hr
    rw [if_neg fun hand => hel hand.2] at hr
    split at hr
    · cases hr
      exact ⟨hel, rfl⟩
    · cases hr
  rcases hsplit : split isSpace line with _ | ⟨word, words⟩
  · simp only [read_line, hsplit] at hread
    cases hread
    exact ⟨hel, rfl⟩
  · simp only [read_line, hsplit] at hread
    split at hread
    · cases hread
      exact ⟨hel, rfl⟩
    · split at hread
      · cases hread
        exact ⟨hel, rfl⟩
      · split at hread
        · rename_i heq
          split at hread
          · rename_i element count
            split at hread
            · rename_i hvertex
              exact absurd ⟨count, by rw [hsplit, heq, hvertex]⟩ hline
            · rename_i hvertex
              split at hread
              · cases hread
              · split at hread
                · cases hread
                · cases hread
                  exact ⟨fun hsome => hvertex (Option.some.inj hsome), rfl⟩
          · exact hother word words hread
        · exact hother word words hread

def Typed (h : Header) : Prop := ∀ p ∈ h.props, p.2 ∈ PLY_TYPES.map (·.1)

lemma Typed.add {h : Header} (ht : Typed h) {name type : Text} (htype : type ∈ PLY_TYPES.map (·.1)) :
    Typed { h with props := h.props ++ [(name, type)] } := by
  intro p hp
  rcases mem_append.mp hp with hp | hp
  · exact ht p hp
  · rw [mem_singleton.mp hp]
    exact htype

lemma Typed.read_other {h h' : Header} (ht : Typed h) {line : Text}
    (hread : read_other h line word words = .ok h') : Typed h' := by
  unfold CloudLod.read_other at hread
  split at hread
  · split at hread
    · split at hread
      · rename_i htype
        cases hread
        exact ht.add htype
      · cases hread
    · cases hread
  · split at hread
    · cases hread
      exact ht
    · cases hread

lemma Typed.read_line {h h' : Header} (ht : Typed h) {line : Text}
    (hread : read_line h line = .ok h') : Typed h' := by
  unfold CloudLod.read_line at hread
  split at hread
  · cases hread
    exact ht
  · split at hread
    · cases hread
      exact ht
    · split at hread
      · cases hread
        exact ht
      · split at hread
        · split at hread
          · split at hread
            · split at hread
              · cases hread
              · split at hread
                · cases hread
                · cases hread
                  exact ht
            · split at hread
              · cases hread
              · split at hread
                · cases hread
                · cases hread
                  exact ht
          · exact ht.read_other hread
        · exact ht.read_other hread

section Lines
variable {h h' : Header} {lines : List Text}

lemma read_lines_cons {line : Text} : read_lines h (line :: lines) =
    (read_line h line).bind fun h' => read_lines h' lines := foldlM_cons

lemma read_lines_cons_ok {line : Text} (hread : read_lines h (line :: lines) = .ok h') :
    ∃ h₁, read_line h line = .ok h₁ ∧ read_lines h₁ lines = .ok h' := by
  rw [read_lines_cons] at hread
  cases hline : read_line h line with
  | error f =>
    rw [hline] at hread
    cases hread
  | ok h₁ =>
    rw [hline] at hread
    exact ⟨h₁, rfl, hread⟩

lemma read_lines_append_ok {a b : List Text} (hread : read_lines h (a ++ b) = .ok h') :
    ∃ h₁, read_lines h a = .ok h₁ ∧ read_lines h₁ b = .ok h' := by
  rw [read_lines_append] at hread
  cases ha : read_lines h a with
  | error f =>
    rw [ha] at hread
    cases hread
  | ok h₁ =>
    rw [ha] at hread
    exact ⟨h₁, rfl, hread⟩

lemma read_lines_count (hlines : ∀ l ∈ lines, ¬ VertexLine l) (h : Header) (c : Option ℤ) :
    read_lines { h with count := c } lines = (read_lines h lines).map fun h' => { h' with count := c } := by
  induction lines generalizing h with
  | nil => rfl
  | cons l lines ih =>
    rw [read_lines_cons, read_lines_cons, read_line_count (hlines l mem_cons_self)]
    cases hl : read_line h l with
    | error f => rfl
    | ok h₁ => exact ih (fun m hm => hlines m (mem_cons_of_mem _ hm)) h₁

lemma read_lines_count_eq (hlines : ∀ l ∈ lines, ¬ VertexLine l)
    (hread : read_lines h lines = .ok h') : h'.count = h.count := by
  have hcount := read_lines_count hlines h h.count
  have hsame : h' = { h' with count := h.count } := by
    change read_lines h lines = _ at hcount
    rw [hread] at hcount
    exact Except.ok.inj hcount
  rw [hsame]

lemma read_lines_props (hlines : ∀ l ∈ lines, ¬ VertexLine l)
    (hel : h.element ≠ some "vertex".toList) (hread : read_lines h lines = .ok h') :
    h'.element ≠ some "vertex".toList ∧ h'.props = h.props := by
  induction lines generalizing h with
  | nil =>
    cases hread
    exact ⟨hel, rfl⟩
  | cons l lines ih =>
    obtain ⟨h₁, hl, hrest⟩ := read_lines_cons_ok hread
    obtain ⟨hel₁, hprops₁⟩ := read_line_props (hlines l mem_cons_self) hel hl
    obtain ⟨hel', hprops'⟩ := ih (fun m hm => hlines m (mem_cons_of_mem _ hm)) hel₁ hrest
    exact ⟨hel', hprops'.trans hprops₁⟩

lemma Typed.read_lines (ht : Typed h) (hread : read_lines h lines = .ok h') : Typed h' := by
  induction lines generalizing h with
  | nil =>
    cases hread
    exact ht
  | cons l lines ih =>
    obtain ⟨h₁, hl, hrest⟩ := read_lines_cons_ok hread
    exact ih (ht.read_line hl) hrest

lemma read_lines_vertex_again (hcount : h.count ≠ none) (hmem : ∃ l ∈ lines, VertexLine l) :
    ∃ f, read_lines h lines = .error f := by
  induction lines generalizing h with
  | nil =>
    obtain ⟨l, hl, -⟩ := hmem
    cases hl
  | cons l lines ih =>
    rw [read_lines_cons]
    by_cases hline : VertexLine l
    · rw [read_line_vertex_again hline hcount]
      exact ⟨_, rfl⟩
    · cases hl : read_line h l with
      | error f => exact ⟨f, rfl⟩
      | ok h₁ =>
        have hcount₁ : h₁.count = h.count := by
          have hone : read_lines h [l] = .ok h₁ := by
            rw [read_lines_cons, hl]
            rfl
          exact read_lines_count_eq (by simpa using hline) hone
        refine ih (hcount₁ ▸ hcount) ?_
        obtain ⟨m, hm, hvertex⟩ := hmem
        rcases mem_cons.mp hm with rfl | hm
        · exact absurd hvertex hline
        · exact ⟨m, hm, hvertex⟩

lemma read_line_vertex_count {line : Text} (hline : VertexLine line)
    (hread : read_line h line = .ok h') : h'.count ≠ none := by
  cases hcount : h.count with
  | none =>
    obtain ⟨count, hwords⟩ := hline
    obtain ⟨n, -, rfl⟩ := read_line_vertex_inv hwords hcount hread
    exact Option.some_ne_none n
  | some n =>
    rw [read_line_vertex_again hline (by rw [hcount]; exact Option.some_ne_none n)] at hread
    cases hread

lemma read_lines_two {a b : List Text} {line : Text} (hline : VertexLine line) (hb : ∃ l ∈ b, VertexLine l) (h : Header) :
    ∃ f, read_lines h (a ++ line :: b) = .error f := by
  cases hread : read_lines h (a ++ line :: b) with
  | error f => exact ⟨f, rfl⟩
  | ok h' =>
    obtain ⟨h₁, -, hrest⟩ := read_lines_append_ok hread
    obtain ⟨h₂, hl, hrest₂⟩ := read_lines_cons_ok hrest
    obtain ⟨f, hf⟩ := read_lines_vertex_again (read_line_vertex_count hline hl) hb
    rw [hrest₂] at hf
    cases hf

end Lines

def start : Header := ⟨none, none, [], none⟩

structure ReadsVertex (lines : List Text) (h : Header) (n : ℤ) (a : List Text) (line count : Text)
    (b : List Text) (h₁ : Header) : Prop where
  lines_eq : lines = a ++ line :: b
  words : split isSpace line = ["element".toList, "vertex".toList, count]
  before : ∀ l ∈ a, ¬ VertexLine l
  after : ∀ l ∈ b, ¬ VertexLine l
  read_before : read_lines start a = .ok h₁
  no_count : h₁.count = none
  no_props : h₁.props = []
  number : int_word count = some n
  read_after : read_lines { h₁ with element := some "vertex".toList, count := some n } b = .ok h

lemma readsVertex_of {a b : List Text} {line : Text} {h : Header} (hline : VertexLine line)
    (hread : read_lines start (a ++ line :: b) = .ok h) :
    ∃ n count h₁, ReadsVertex (a ++ line :: b) h n a line count b h₁ ∧ h.count = some n := by
  have ha : ∀ l ∈ a, ¬ VertexLine l := by
    intro l hl hvertex
    obtain ⟨x, y, rfl⟩ := append_of_mem hl
    obtain ⟨f, hf⟩ := read_lines_two (a := x) (b := y ++ line :: b) hvertex
      ⟨line, mem_append_right _ mem_cons_self, hline⟩ start
    rw [append_assoc, cons_append, hf] at hread
    cases hread
  have hb : ∀ l ∈ b, ¬ VertexLine l := by
    intro l hl hvertex
    obtain ⟨f, hf⟩ := read_lines_two (a := a) hline ⟨l, hl, hvertex⟩ start
    rw [hf] at hread
    cases hread
  obtain ⟨count, hwords⟩ := hline
  obtain ⟨h₁, hread₁, hrest⟩ := read_lines_append_ok hread
  have hcount₁ : h₁.count = none := read_lines_count_eq ha hread₁
  have hprops₁ := (read_lines_props ha (by simp [start]) hread₁).2
  obtain ⟨h₂, hread₂, hrest₂⟩ := read_lines_cons_ok hrest
  obtain ⟨n, hn, rfl⟩ := read_line_vertex_inv hwords hcount₁ hread₂
  exact ⟨n, count, h₁, ⟨rfl, hwords, ha, hb, hread₁, hcount₁, hprops₁, hn, hrest₂⟩, read_lines_count_eq hb hrest₂⟩

lemma exists_readsVertex {lines : List Text} {h : Header} {n : ℤ}
    (hread : read_lines start lines = .ok h) (hn : h.count = some n) :
    ∃ a line count b h₁, ReadsVertex lines h n a line count b h₁ := by
  classical
  by_cases hex : ∃ l ∈ lines, VertexLine l
  · obtain ⟨line, hmem, hline⟩ := hex
    obtain ⟨a, b, rfl⟩ := append_of_mem hmem
    obtain ⟨m, count, h₁, hr, hm⟩ := readsVertex_of hline hread
    obtain rfl : n = m := Option.some.inj (hn.symm.trans hm)
    exact ⟨a, line, count, b, h₁, hr⟩
  · have hall : ∀ l ∈ lines, ¬ VertexLine l := fun l hl hline => hex ⟨l, hl, hline⟩
    have hcount := read_lines_count_eq hall hread
    rw [hn] at hcount
    cases hcount

section Rewritten
variable {lines : List Text} {h : Header} {n : ℤ} {a : List Text} {line count : Text} {b : List Text}
  {h₁ : Header}

lemma ReadsVertex.rewritten (hr : ReadsVertex lines h n a line count b h₁) {comment element : Text}
    (hcomment : split isSpace comment = "comment".toList :: words) {count' : Text}
    (hel : split isSpace element = ["element".toList, "vertex".toList, count']) {m : ℤ}
    (hm : int_word count' = some m) :
    read_lines start (a ++ comment :: element :: b) = .ok { h with count := some m } := by
  have hafter := read_lines_count hr.after
    { h₁ with element := some "vertex".toList, count := some n } (some m)
  rw [hr.read_after] at hafter
  rw [read_lines_append, hr.read_before]
  change read_lines h₁ (comment :: element :: b) = _
  rw [read_lines_cons, read_line_comment hcomment]
  change read_lines h₁ (element :: b) = _
  rw [read_lines_cons, read_line_vertex hel hr.no_count hm]
  exact hafter

end Rewritten

end CloudServer.CloudLod
