import CloudServer.Scan

/-! The names imported maps get: the map's own when it is free, else one made of it, of the source and of a
counter. -/
namespace CloudServer.ImportNames
open Scan List

section Model

/-- `[A-Za-z0-9]`. -/
def alnum (c : Char) : Bool := ('A' ≤ c ∧ c ≤ 'Z') ∨ ('a' ≤ c ∧ c ≤ 'z') ∨ ('0' ≤ c ∧ c ≤ '9')

/-- `[A-Za-z0-9_-]`. -/
def word (c : Char) : Bool := alnum c ∨ c = '_' ∨ c = '-'

def MAX_NAME : ℕ := 59

def RESERVED : List Text := [['G', 'E', 'O'], ['L', 'O', 'C', 'A', 'L']]

/-- `[A-Za-z0-9](?:[A-Za-z0-9_-]{0,57}[A-Za-z0-9])?` on a whole text. -/
def pattern (t : Text) : Bool :=
  1 ≤ t.length ∧ t.length ≤ MAX_NAME ∧ (t.all word : Bool) ∧ (t.head?.any alnum : Bool) ∧
    (t.getLast?.any alnum : Bool)

/-- `NAME_RE.match`: the pattern up to the end of the text or to the line feed that ends it. -/
def name_re (t : Text) : Bool := (List.range (t.length + 1)).any fun i => pattern (t.take i) && atEnd (t.drop i)

/-- Python's `str.lower`. -/
abbrev Lower := Text → Text

variable (lower : Lower)

def bucket_of (name : Text) : Text := (lower name).map fun c => if c = '_' then '-' else c

def squash : Bool → Text → Text
  | _, [] => []
  | run, c :: t => if alnum c then c :: squash false t else if run then squash true t else '-' :: squash true t

def rstrip (p : Char → Bool) (t : Text) : Text := t.rdropWhile p

def strip (p : Char → Bool) (t : Text) : Text := rstrip p (t.dropWhile p)

def slug (text : Text) : Text :=
  let slug := strip (fun c => c = '-') (squash false text)
  if slug.take 20 = [] then ['i', 'm', 'p', 'o', 'r', 't'] else slug.take 20

def Agree (a b : Text) : Prop := lower a = lower b ∨ bucket_of lower a = bucket_of lower b

instance (a b : Text) : Decidable (Agree lower a b) := inferInstanceAs (Decidable (_ ∨ _))

def taken (name : Text) (existing : List Text) : Bool := existing.any fun e => Agree lower e name

def dashed (p : Char) : Bool := p = '-' ∨ p = '_'

def base (name : Text) : Text :=
  let base := strip dashed (name.map fun c => if word c then c else '-')
  if base = [] then ['m', 'a', 'p'] else base

/-- `t[:k]`: a negative end counts from the right. -/
def upto (t : Text) (k : ℤ) : Text := if 0 ≤ k then t.take k.toNat else t.take (t.length - (-k).toNat)

def candidate (base tail : Text) : Text := rstrip dashed (upto base (MAX_NAME - tail.length)) ++ tail

def numbered (suffix : Text) (n : ℕ) : Text := suffix ++ '-' :: str n

def refused (existing : List Text) (cand : Text) : Bool :=
  taken lower cand existing ∨ cand ∈ RESERVED ∨ name_re cand = false

/-- At most `fuel` turns of the loop, `n` being the next number. -/
def next_name (base suffix : Text) (existing : List Text) : ℕ → ℕ → Text → Option Text
  | fuel, n, cand =>
    if refused lower existing cand then
      match fuel with
      | 0 => none
      | fuel + 1 => next_name base suffix existing fuel (n + 1) (candidate base (numbered suffix n))
    else some cand

def choose_name (fuel : ℕ) (name : Text) (existing : List Text) (source_label : Text) : Option Text :=
  if name_re name ∧ name ∉ RESERVED ∧ taken lower name existing = false then some name
  else
    let suffix := '-' :: slug source_label
    next_name lower (base name) suffix existing fuel 2 (candidate (base name) suffix)

/-- 1 to 59 characters of letters, digits, `_` and `-`, the first and the last a letter or digit, and not
reserved. -/
structure Legal (t : Text) : Prop where
  length : 1 ≤ t.length ∧ t.length ≤ 59
  chars : ∀ c ∈ t, word c
  first : ∀ c ∈ t.head?, alnum c
  last : ∀ c ∈ t.getLast?, alnum c
  free : t ∉ RESERVED

/-- `str.lower` on ASCII texts. -/
def LowersAscii (lower : Lower) : Prop := ∀ t : Text, (∀ c ∈ t, c.toNat < 128) → lower t = t.map Char.toLower

end Model

/-! ### Characters -/

section Chars
variable {c : Char}

lemma alnum_iff : alnum c = true ↔ (65 ≤ c.toNat ∧ c.toNat ≤ 90) ∨ (97 ≤ c.toNat ∧ c.toNat ≤ 122) ∨
    (48 ≤ c.toNat ∧ c.toNat ≤ 57) := by
  unfold alnum
  simp only [decide_eq_true_eq]
  exact Iff.rfl

lemma ofNat_toNat (h : c.toNat < 128) : ∃ n < 128, c = Char.ofNat n :=
  ⟨c.toNat, h, (Char.ofNat_toNat c).symm⟩

lemma word_ascii (h : word c) : c.toNat < 128 := by
  simp only [word, decide_eq_true_eq, alnum_iff] at h
  rcases h with h | rfl | rfl
  · omega
  · decide
  · decide

lemma alnum_word (h : alnum c) : word c := by
  simp [word, h]

lemma word_not_dashed (h : word c) (hd : dashed c = false) : alnum c := by
  simp only [word, decide_eq_true_eq] at h
  simp only [dashed, decide_eq_false_iff_not, not_or] at hd
  tauto

lemma alnum_not_dashed (h : alnum c) : dashed c = false := by
  by_contra hd
  simp only [Bool.not_eq_false, dashed, decide_eq_true_eq] at hd
  rcases hd with rfl | rfl <;> revert h <;> decide

lemma word_ne_newline (h : word c) : c ≠ '\n' := by
  rintro rfl
  revert h
  decide

lemma word_lower_ne (h : word c) : c.toLower ≠ '\n' := by
  obtain ⟨n, hn, rfl⟩ := ofNat_toNat (word_ascii h)
  have hall : ∀ n < 128, word (Char.ofNat n) → (Char.ofNat n).toLower ≠ '\n' := by decide
  exact hall n hn h

lemma digit_alnum (h : c.isDigit) : alnum c := by
  have : c.isDigit → alnum c := by
    simp only [alnum_iff, Char.isDigit, ge_iff_le, Bool.and_eq_true, decide_eq_true_eq]
    rintro ⟨h1, h2⟩
    exact .inr (.inr ⟨h1, h2⟩)
  exact this h

lemma digit_lower (h : c.isDigit) : c.toLower = c := by
  obtain ⟨n, hn, rfl⟩ := ofNat_toNat (word_ascii (alnum_word (digit_alnum h)))
  have hall : ∀ n < 128, (Char.ofNat n).isDigit → (Char.ofNat n).toLower = Char.ofNat n := by decide
  exact hall n hn h

end Chars

variable {fuel k n : ℕ}

section Words
variable {lower : Lower} {t : Text}

lemma str_digit {c : Char} (h : c ∈ str n) : c.isDigit :=
  Nat.isDigit_of_mem_toDigits (by omega) (by omega) h

lemma str_length (h : n < 10 ^ 36) : (str n).length ≤ 36 :=
  Nat.toDigits_length 10 n 36 (by omega) h

lemma lower_words (hl : LowersAscii lower) (ht : ∀ c ∈ t, word c) : lower t = t.map Char.toLower :=
  hl t fun c hc => word_ascii (ht c hc)

lemma bucket_words (hl : LowersAscii lower) (ht : ∀ c ∈ t, word c) :
    bucket_of lower t = t.map fun c => if c.toLower = '_' then '-' else c.toLower := by
  unfold bucket_of
  rw [lower_words hl ht, map_map]
  rfl

lemma atEnd_iff : atEnd t = true ↔ t = [] ∨ t = ['\n'] := by
  unfold atEnd
  split
  · simp
  · simp
  · rename_i h1 h2
    simp only [Bool.false_eq_true, false_iff, not_or]
    exact ⟨h1, h2⟩

lemma name_re_iff : name_re t = true ↔ pattern t ∨ ∃ l, t = l ++ ['\n'] ∧ pattern l := by
  unfold name_re
  simp only [any_eq_true, mem_range, Bool.and_eq_true, atEnd_iff]
  constructor
  · rintro ⟨i, hi, hp, hend | hend⟩
    · have := take_append_drop i t
      rw [hend, append_nil] at this
      exact .inl (this ▸ hp)
    · exact .inr ⟨t.take i, by rw [← hend, take_append_drop], hp⟩
  · rintro (hp | ⟨l, rfl, hp⟩)
    · exact ⟨t.length, by omega, by simpa using hp, .inl (by simp)⟩
    · exact ⟨l.length, by simp, by simpa using hp, .inr (by simp)⟩

lemma pattern_iff : pattern t = true ↔ 1 ≤ t.length ∧ t.length ≤ 59 ∧ (∀ c ∈ t, word c) ∧
      (∀ c ∈ t.head?, alnum c) ∧
    ∀ c ∈ t.getLast?, alnum c := by
  unfold pattern MAX_NAME
  simp only [decide_eq_true_eq, all_eq_true]
  refine and_congr_right fun h1 => and_congr_right fun h2 => and_congr_right fun h3 => ?_
  have hne : t ≠ [] := by
    rintro rfl
    simp at h1
  obtain ⟨c, r, rfl⟩ := exists_cons_of_ne_nil hne
  rw [List.getLast?_eq_some_getLast hne]
  simp

lemma legal_of_match (ht : ∀ c ∈ t, word c) (hm : name_re t = true) (hr : t ∉ RESERVED) : Legal t := by
  rcases name_re_iff.mp hm with hp | ⟨l, rfl, -⟩
  · obtain ⟨h1, h2, h3, h4, h5⟩ := pattern_iff.mp hp
    exact ⟨⟨h1, h2⟩, h3, h4, h5, hr⟩
  · exact absurd rfl (word_ne_newline (ht '\n' (by simp)))

lemma Legal.match (h : Legal t) : name_re t = true :=
  name_re_iff.mpr (.inl (pattern_iff.mpr ⟨h.length.1, h.length.2, h.chars, h.first, h.last⟩))

end Words

/-! ### The base of a name and its tail -/

section Parts
variable {p : Char → Bool} {t : Text}

lemma mem_rstrip {c : Char} (h : c ∈ rstrip p t) : c ∈ t := (List.rdropWhile_prefix p t).subset h

lemma mem_strip {c : Char} (h : c ∈ strip p t) : c ∈ t := (dropWhile_suffix p).subset (mem_rstrip h)

lemma mem_upto {k : ℤ} {c : Char} (h : c ∈ upto t k) : c ∈ t := by
  unfold upto at h
  split_ifs at h
  · exact mem_of_mem_take h
  · exact mem_of_mem_take h

lemma rstrip_head {c : Char} (h : c ∈ t.head?) (hc : p c = false) : c ∈ (rstrip p t).head? := by
  obtain ⟨r, rfl⟩ := List.head?_eq_some_iff.mp h
  have hne : rstrip p (c :: r) ≠ [] := by
    intro he
    have := rdropWhile_eq_nil_iff.mp he c (by simp)
    rw [hc] at this
    cases this
  obtain ⟨d, s, hs⟩ := exists_cons_of_ne_nil hne
  have hp : rstrip p (c :: r) <+: c :: r := List.rdropWhile_prefix p _
  rw [hs] at hp ⊢
  rw [(cons_prefix_cons.mp hp).1]
  simp

lemma strip_head {c : Char} (h : c ∈ (strip p t).head?) : p c = false := by
  have hp : strip p t <+: t.dropWhile p := List.rdropWhile_prefix p _
  obtain ⟨r, hr⟩ := List.head?_eq_some_iff.mp h
  rw [hr] at hp
  obtain ⟨s, hs⟩ := hp
  have hne : t.dropWhile p ≠ [] := by
    rw [← hs]
    simp
  have hhead := head_dropWhile_not p hne
  simpa [← hs] using hhead

lemma base_words (name : Text) : ∀ c ∈ base name, word c := by
  intro c hc
  unfold base at hc
  simp only at hc
  split_ifs at hc
  · have hall : List.all ['m', 'a', 'p'] word := by decide
    exact all_eq_true.mp hall c hc
  · obtain ⟨d, -, rfl⟩ := mem_map.mp (mem_strip hc)
    split_ifs with hd
    · exact hd
    · decide

lemma base_head (name : Text) : ∃ c ∈ (base name).head?, alnum c := by
  have hw := base_words name
  unfold base at hw ⊢
  simp only at hw ⊢
  split_ifs at hw ⊢ with he
  · exact ⟨'m', by decide, by decide⟩
  · obtain ⟨c, r, hr⟩ := exists_cons_of_ne_nil he
    refine ⟨c, by simp [hr],
      word_not_dashed (hw c (by simp [hr]))
        (strip_head (p := dashed) (t := name.map fun c => if word c then c else '-') ?_)⟩
    simp [hr]

lemma squash_words (run : Bool) (t : Text) : ∀ c ∈ squash run t, word c := by
  induction t generalizing run with
  | nil => simp [squash]
  | cons d t ih =>
    unfold squash
    split_ifs with h1 h2
    · simpa [alnum_word h1] using ih false
    · exact ih true
    · simpa [show word '-' by decide] using ih true

lemma slug_words (text : Text) : ∀ c ∈ slug text, word c := by
  intro c hc
  unfold slug at hc
  simp only at hc
  split_ifs at hc
  · have hall : List.all ['i', 'm', 'p', 'o', 'r', 't'] word := by decide
    exact all_eq_true.mp hall c hc
  · exact squash_words _ _ c (mem_strip (mem_of_mem_take hc))

lemma slug_length (text : Text) : (slug text).length ≤ 20 := by
  unfold slug
  simp only
  split_ifs
  · decide
  · simp

end Parts

/-! ### Candidates -/

section Candidates
variable {b tail : Text}

lemma candidate_words (hb : ∀ c ∈ b, word c) (ht : ∀ c ∈ tail, word c) : ∀ c ∈ candidate b tail, word c := by
  intro c hc
  rcases mem_append.mp hc with h | h
  · exact hb c (mem_upto (mem_rstrip h))
  · exact ht c h

lemma upto_fits (h : tail.length ≤ MAX_NAME) :
    upto b ((MAX_NAME : ℤ) - tail.length) = b.take (MAX_NAME - tail.length) := by
  have hk : (MAX_NAME : ℤ) - tail.length = ((MAX_NAME - tail.length : ℕ) : ℤ) := by omega
  unfold upto
  rw [hk, if_pos (by omega), Int.toNat_natCast]

lemma candidate_legal (hb : ∀ c ∈ b, word c) (hh : ∃ c ∈ b.head?, alnum c) (ht : ∀ c ∈ tail, word c)
    (hlast : ∃ c ∈ tail.getLast?, alnum c) (hdash : '-' ∈ tail) (hlen : tail.length ≤ 58) :
    Legal (candidate b tail) := by
  obtain ⟨c, hc, hca⟩ := hh
  obtain ⟨d, hd, hda⟩ := hlast
  have hhead : c ∈ (b.take (MAX_NAME - tail.length)).head? := by
    rwa [List.head?_take, if_neg (by unfold MAX_NAME; omega)]
  have hstem : c ∈ (rstrip dashed (upto b ((MAX_NAME : ℤ) - tail.length))).head? := by
    rw [upto_fits (by unfold MAX_NAME; omega)]
    exact rstrip_head hhead (alnum_not_dashed hca)
  have hcut : (rstrip dashed (upto b ((MAX_NAME : ℤ) - tail.length))).length ≤ MAX_NAME - tail.length := by
    rw [upto_fits (by unfold MAX_NAME; omega)]
    exact ((List.rdropWhile_prefix dashed _).length_le).trans (length_take_le _ _)
  have hne : tail ≠ [] := by
    rintro rfl
    cases hdash
  have hpos := length_pos_of_ne_nil hne
  constructor
  · unfold candidate MAX_NAME at *
    rw [length_append]
    omega
  · exact candidate_words hb ht
  · intro c' hc'
    unfold candidate at hc'
    rw [List.head?_append, Option.mem_def.mp hstem] at hc'
    obtain rfl : c = c' := by simpa using hc'
    exact hca
  · intro d' hd'
    unfold candidate at hd'
    rw [List.getLast?_append, Option.mem_def.mp hd] at hd'
    obtain rfl : d = d' := by simpa using hd'
    exact hda
  · intro hr
    have hm : '-' ∈ candidate b tail := mem_append_right _ hdash
    have hno : ∀ r ∈ RESERVED, '-' ∉ r := by decide
    exact hno _ hr hm

lemma numbered_words {suffix : Text} (hs : ∀ c ∈ suffix, word c) (n : ℕ) : ∀ c ∈ numbered suffix n, word c := by
  intro c hc
  unfold numbered at hc
  rw [mem_append, mem_cons] at hc
  rcases hc with h | rfl | h
  · exact hs c h
  · decide
  · exact alnum_word (digit_alnum (str_digit h))

lemma numbered_last (suffix : Text) (n : ℕ) : ∃ c ∈ (numbered suffix n).getLast?, alnum c := by
  have hne := str_ne_nil n
  refine ⟨(str n).getLast hne, ?_, digit_alnum (str_digit (getLast_mem hne))⟩
  unfold numbered
  rw [List.getLast?_append, List.getLast?_cons, List.getLast?_eq_some_getLast hne]
  simp

variable {suffix : Text}

lemma numbered_legal (hb : ∀ c ∈ b, word c) (hh : ∃ c ∈ b.head?, alnum c) (hs : ∀ c ∈ suffix, word c)
    (hlen : suffix.length ≤ 21) (hn : n < 10 ^ 36) : Legal (candidate b (numbered suffix n)) := by
  refine candidate_legal hb hh (numbered_words hs n) (numbered_last suffix n) (by simp [numbered]) ?_
  have := str_length hn
  unfold numbered
  rw [length_append, length_cons]
  omega

end Candidates

/-! ### The loop -/

section Loop
variable {lower : Lower} {a b suffix : Text} {existing : List Text}

lemma agree_iff : Agree lower a b ↔ bucket_of lower a = bucket_of lower b := by
  constructor
  · rintro (h | h)
    · unfold bucket_of
      rw [h]
    · exact h
  · exact .inr

lemma taken_iff : taken lower a existing = true ↔ ∃ e ∈ existing, Agree lower e a := by
  simp [taken]

lemma bucket_numbered (hl : LowersAscii lower) (hb : ∀ c ∈ b, word c) (hs : ∀ c ∈ suffix, word c) (n : ℕ) :
    ∃ p, bucket_of lower (candidate b (numbered suffix n)) = p ++ '-' :: str n := by
  rw [bucket_words hl (candidate_words hb (numbered_words hs n))]
  have hdigits : (str n).map (fun c => if c.toLower = '_' then '-' else c.toLower) = str n := by
    refine (map_congr_left fun c hc => ?_).trans (map_id _)
    have hd := str_digit hc
    rw [digit_lower hd, if_neg]
    · rfl
    · rintro rfl
      revert hd
      decide
  unfold candidate numbered
  simp only [map_append, map_cons, hdigits]
  rw [← append_assoc]
  exact ⟨_, rfl⟩

variable {m : ℕ}

lemma bucket_inj (hl : LowersAscii lower) (hb : ∀ c ∈ b, word c) (hs : ∀ c ∈ suffix, word c)
    (h : bucket_of lower (candidate b (numbered suffix n)) =
      bucket_of lower (candidate b (numbered suffix m))) :
    n = m := by
  obtain ⟨p, hp⟩ := bucket_numbered hl hb hs n
  obtain ⟨q, hq⟩ := bucket_numbered hl hb hs m
  rw [hp, hq] at h
  exact str_injective (cut_unique (dash_notMem_str n) (dash_notMem_str m) h).2

lemma exists_free (hl : LowersAscii lower) (hb : ∀ c ∈ b, word c) (hs : ∀ c ∈ suffix, word c)
    (existing : List Text) (n : ℕ) :
    ∃ m, n ≤ m ∧ m ≤ n + existing.length ∧ taken lower (candidate b (numbered suffix m)) existing = false := by
  by_contra hno
  push Not at hno
  have hsub : ((List.range (existing.length + 1)).map fun i =>
      bucket_of lower (candidate b (numbered suffix (n + i)))) ⊆ existing.map (bucket_of lower) := by
    intro x hx
    obtain ⟨i, hi, rfl⟩ := mem_map.mp hx
    rw [mem_range] at hi
    have htaken := hno (n + i) (by omega) (by omega)
    rw [ne_eq, Bool.not_eq_false] at htaken
    obtain ⟨e, he, hagree⟩ := taken_iff.mp htaken
    exact mem_map.mpr ⟨e, he, agree_iff.mp hagree⟩
  have hnodup : ((List.range (existing.length + 1)).map fun i =>
      bucket_of lower (candidate b (numbered suffix (n + i)))).Nodup := by
    refine nodup_range.map fun i j hij => ?_
    have := bucket_inj hl hb hs hij
    omega
  have := (hnodup.subperm hsub).length_le
  simp at this

lemma refused_iff {c : Text} :
    refused lower existing c = false ↔ taken lower c existing = false ∧ c ∉ RESERVED ∧ name_re c = true := by
  simp [refused]

lemma refused_legal {c : Text} (h : Legal c) (ht : taken lower c existing = false) :
    refused lower existing c = false :=
  refused_iff.mpr ⟨ht, h.free, h.match⟩

lemma next_name_kept {cand : Text} (h : refused lower existing cand = false) :
    next_name lower b suffix existing fuel n cand = some cand := by
  cases fuel with
  | zero => simp [next_name, h]
  | succ fuel => simp [next_name, h]

lemma next_name_returns {cand : Text} (h1 : n ≤ m) (h2 : m < n + fuel)
    (hm : refused lower existing (candidate b (numbered suffix m)) = false) :
    ∃ c, next_name lower b suffix existing fuel n cand = some c := by
  induction fuel generalizing n cand with
  | zero => omega
  | succ fuel ih =>
    unfold next_name
    split_ifs with hr
    · rcases Nat.eq_or_lt_of_le h1 with rfl | hlt
      · exact ⟨_, next_name_kept hm⟩
      · exact ih hlt (by omega)
    · exact ⟨_, rfl⟩

lemma next_name_spec {cand c : Text} (h : next_name lower b suffix existing fuel n cand = some c) :
    refused lower existing c = false ∧ (c = cand ∨ ∃ m, c = candidate b (numbered suffix m)) := by
  induction fuel generalizing n cand with
  | zero =>
    unfold next_name at h
    split_ifs at h with hr
    cases h
    exact ⟨by simpa using hr, .inl rfl⟩
  | succ fuel ih =>
    unfold next_name at h
    split_ifs at h with hr
    · obtain ⟨hc, rfl | ⟨m, rfl⟩⟩ := ih h
      · exact ⟨hc, .inr ⟨n, rfl⟩⟩
      · exact ⟨hc, .inr ⟨m, rfl⟩⟩
    · cases h
      exact ⟨by simpa using hr, .inl rfl⟩

lemma next_name_mono {cand c : Text} (h : next_name lower b suffix existing fuel n cand = some c) :
    next_name lower b suffix existing (fuel + k) n cand = some c := by
  induction fuel generalizing n cand with
  | zero =>
    unfold next_name at h ⊢
    split_ifs at h ⊢ with hr
    exact h
  | succ fuel ih =>
    rw [Nat.add_right_comm]
    unfold next_name at h ⊢
    split_ifs at h ⊢ with hr
    · exact ih h
    · exact h

end Loop

/-! ### The name a map gets -/

section Choose
variable {lower : Lower} {name label : Text} {existing : List Text}

def Broken (name : Text) : Prop := ∃ l, name = l ++ ['\n'] ∧ pattern l

lemma suffix_words (label : Text) : ∀ c ∈ '-' :: slug label, word c := by
  intro c hc
  rcases mem_cons.mp hc with rfl | h
  · decide
  · exact slug_words label c h

lemma choose_name_spec {c : Text} (h : choose_name lower fuel name existing label = some c) :
    taken lower c existing = false ∧ (Legal c ∨ c = name ∧ Broken name) := by
  unfold choose_name at h
  split_ifs at h with hkeep
  · cases h
    obtain ⟨hm, hr, ht⟩ := hkeep
    refine ⟨ht, ?_⟩
    rcases name_re_iff.mp hm with hp | hb
    · obtain ⟨-, -, hw, -⟩ := pattern_iff.mp hp
      exact .inl (legal_of_match hw hm hr)
    · exact .inr ⟨rfl, hb⟩
  · obtain ⟨hc, hcand⟩ := next_name_spec h
    obtain ⟨ht, hr, hm⟩ := refused_iff.mp hc
    refine ⟨ht, .inl (legal_of_match ?_ hm hr)⟩
    rcases hcand with rfl | ⟨m, rfl⟩
    · exact candidate_words (base_words name) (suffix_words label)
    · exact candidate_words (base_words name) (numbered_words (suffix_words label) m)

lemma choose_name_returns (hl : LowersAscii lower) (name label : Text) (hlen : existing.length < 10 ^ 36 - 3)
    (hf : existing.length < fuel) : ∃ c, choose_name lower fuel name existing label = some c := by
  unfold choose_name
  split_ifs with hkeep
  · exact ⟨_, rfl⟩
  · obtain ⟨m, h1, h2, hm⟩ :=
      exists_free hl (base_words name) (suffix_words label) existing 2
    refine next_name_returns h1 (by omega) (refused_legal ?_ hm)
    refine numbered_legal (base_words name) (base_head name) (suffix_words label) ?_ (by omega)
    have := slug_length label
    rw [length_cons]
    omega

lemma choose_name_mono {c : Text} (h : choose_name lower fuel name existing label = some c) :
    choose_name lower (fuel + k) name existing label = some c := by
  unfold choose_name at h ⊢
  split_ifs at h ⊢ with hkeep
  · exact h
  · exact next_name_mono h

lemma choose_name_broken (hb : Broken name) (ht : taken lower name existing = false) :
    choose_name lower fuel name existing label = some name := by
  unfold choose_name
  rw [if_pos]
  refine ⟨name_re_iff.mpr (.inr hb), ?_, ht⟩
  obtain ⟨l, rfl, -⟩ := hb
  intro hr
  have hm : '\n' ∈ l ++ ['\n'] := by simp
  have hno : ∀ r ∈ RESERVED, '\n' ∉ r := by decide
  exact hno _ hr hm

lemma Broken.not_legal (hb : Broken name) : ¬Legal name := by
  obtain ⟨l, rfl, -⟩ := hb
  intro h
  exact word_ne_newline (h.chars '\n' (by simp)) rfl

lemma Broken.not_agree (hl : LowersAscii lower) (hb : Broken name) {t : Text} (ht : Legal t) :
    ¬Agree lower t name := by
  intro h
  have hbucket := agree_iff.mp h
  obtain ⟨l, rfl, hp⟩ := hb
  obtain ⟨-, -, hw, -⟩ := pattern_iff.mp hp
  have hascii : ∀ c ∈ l ++ ['\n'], c.toNat < 128 := by
    intro c hc
    rcases mem_append.mp hc with h | h
    · exact word_ascii (hw c h)
    · obtain rfl := mem_singleton.mp h
      decide
  have hmem : '\n' ∈ bucket_of lower (l ++ ['\n']) := by
    unfold bucket_of
    rw [hl _ hascii, map_map]
    exact mem_map.mpr ⟨'\n', by simp, by decide⟩
  rw [← hbucket, bucket_words hl ht.chars] at hmem
  obtain ⟨c, hc, he⟩ := mem_map.mp hmem
  split_ifs at he with hd
  · revert he
    decide
  · exact word_lower_ne (ht.chars c hc) he

end Choose

end CloudServer.ImportNames
