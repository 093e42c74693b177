import CloudServer.CloudLod

/-! The stream of a cloud, however it is cut into chunks: its header and the records that are kept. -/
namespace CloudServer.CloudLod

open Scan Substrings List

/-! ### The header in the chunks -/

/-- No chunk ends in the header after its first 64 KiB, `buf` having been read before. -/
def HeaderCut (header_len : ℕ) (buf : Bytes) (chunks : List Bytes) : Prop :=
  ∀ c, c <+: chunks → (buf ++ c.flatten).length < header_len →
    (buf ++ c.flatten).length ≤ MAX_HEADER

variable {buf chunk header rest : Bytes} {first header_len index step stop : ℕ}

lemma HeaderCut.tail {chunks : List Bytes}
    (h : HeaderCut header_len buf (chunk :: chunks)) : HeaderCut header_len (buf ++ chunk) chunks := by
  intro c hc
  have hcons := h (chunk :: c) (cons_prefix_cons.mpr ⟨rfl, hc⟩)
  rwa [flatten_cons, ← append_assoc] at hcons

lemma HeaderCut.cons {chunks : List Bytes}
    (hbuf : buf.length ≤ MAX_HEADER) (h : HeaderCut header_len (buf ++ chunk) chunks) :
    HeaderCut header_len buf (chunk :: chunks) := by
  intro c hc hlt
  cases c with
  | nil => simpa using hbuf
  | cons d c =>
    obtain ⟨rfl, hprefix⟩ := cons_prefix_cons.mp hc
    rw [flatten_cons, ← append_assoc] at hlt ⊢
    exact h c hprefix hlt

lemma header_and_rest_spec {source : Bytes} {e : ℕ} (he : find marker source = some e)
    (chunks : List Bytes) (buf : Bytes) (hsource : buf ++ chunks.flatten = source)
    (hbuf : buf.length < e + marker.length) (hmax : buf.length ≤ MAX_HEADER) :
    (HeaderCut (e + marker.length) buf chunks ∧ ∃ rest chunks',
      header_and_rest buf chunks = .ok (source.take (e + marker.length), rest, chunks') ∧
        rest ++ chunks'.flatten = source.drop (e + marker.length)) ∨
    ¬ HeaderCut (e + marker.length) buf chunks ∧ header_and_rest buf chunks = .error .no_end_header := by
  induction chunks generalizing buf with
  | nil =>
    exfalso
    rw [flatten_nil, append_nil] at hsource
    have hle := find_le he
    rw [← hsource] at hle
    omega
  | cons chunk chunks ih =>
    have hread : buf ++ chunk ++ chunks.flatten = source := by
      rw [← hsource, flatten_cons, append_assoc]
    have hfind := find_take he (buf ++ chunk).length
    rw [← hread, take_left] at hfind
    by_cases hle : e + marker.length ≤ (buf ++ chunk).length
    · rw [if_pos hle] at hfind
      refine .inl ⟨?_, (buf ++ chunk).drop (e + marker.length), chunks, ?_, ?_⟩
      · apply HeaderCut.cons hmax
        intro c _ hlt
        rw [length_append] at hlt
        omega
      · rw [← hread, take_append_of_le_length hle]
        simp only [header_and_rest, hfind]
      · rw [← hread, drop_append_of_le_length hle]
    · rw [if_neg hle] at hfind
      by_cases hlong : MAX_HEADER < (buf ++ chunk).length
      · refine .inr ⟨fun hcut => ?_, ?_⟩
        · have hnil := hcut.tail [] nil_prefix
          rw [flatten_nil, append_nil] at hnil
          have hle' := hnil (by omega)
          omega
        · simp only [header_and_rest, hfind, if_pos hlong]
      · have hstep : header_and_rest buf (chunk :: chunks) =
            header_and_rest (buf ++ chunk) chunks := by
          simp only [header_and_rest, hfind, if_neg hlong]
        rw [hstep]
        rcases ih _ hread (by omega) (by omega) with ⟨hcut, hrest⟩ | ⟨hcut, herr⟩
        · exact .inl ⟨hcut.cons hmax, hrest⟩
        · exact .inr ⟨fun h => hcut h.tail, herr⟩

lemma header_and_rest_ok {chunks : List Bytes} {chunks' : List Bytes}
    (h : header_and_rest buf chunks = .ok (header, rest, chunks')) :
    ∃ e, find marker (buf ++ chunks.flatten) = some e ∧
      header = (buf ++ chunks.flatten).take (e + marker.length) ∧
        rest ++ chunks'.flatten = (buf ++ chunks.flatten).drop (e + marker.length) := by
  induction chunks generalizing buf with
  | nil => cases h
  | cons chunk chunks ih =>
    simp only [header_and_rest] at h
    rw [flatten_cons, ← append_assoc]
    cases hf : find marker (buf ++ chunk) with
    | some e =>
      rw [hf] at h
      simp only [Except.ok.injEq, Prod.mk.injEq] at h
      obtain ⟨rfl, rfl, rfl⟩ := h
      have hle := find_le hf
      refine ⟨e, find_append hf _, ?_, ?_⟩
      · exact (take_append_of_le_length hle).symm
      · exact (drop_append_of_le_length hle).symm
    | none =>
      rw [hf] at h
      simp only at h
      split at h
      · cases h
      · exact ih h

/-! ### The records that are kept -/

/-- The numbers below `n` that are kept. -/
def kept (stride n : ℕ) : List ℕ := (List.range n).filter fun i => i % stride = 0

/-- Record `i` of a list of records. -/
def record (body : Bytes) (rec i : ℕ) : Bytes := (body.drop (i * rec)).take rec

def kept_records (body : Bytes) (rec stride n : ℕ) : Bytes :=
  (kept stride n).flatMap fun i => record body rec i

lemma mem_range (hstep : 0 < step) (j : ℕ) :
    j ∈ range first stop step ↔ j < stop ∧ first ≤ j ∧ (j - first) % step = 0 := by
  unfold range
  simp only [List.mem_map, List.mem_range]
  constructor
  · rintro ⟨i, hi, rfl⟩
    have hle := (Nat.le_div_iff_mul_le hstep).mp (Nat.succ_le_of_lt hi)
    rw [Nat.succ_mul, Nat.mul_comm i step] at hle
    have hsub : first + step * i - first = step * i := by omega
    refine ⟨by omega, by omega, ?_⟩
    rw [hsub, Nat.mul_mod_right]
  · rintro ⟨hlt, hle, hmod⟩
    obtain ⟨i, hi⟩ := Nat.dvd_of_mod_eq_zero hmod
    refine ⟨i, Nat.lt_of_succ_le ((Nat.le_div_iff_mul_le hstep).mpr ?_), by omega⟩
    rw [Nat.succ_mul, Nat.mul_comm i step, ← hi]
    omega

lemma range_eq_filter (hstep : 0 < step) : range first stop step =
    (List.range stop).filter fun j => first ≤ j ∧ (j - first) % step = 0 := by
  have hleft : (range first stop step).Pairwise (· < ·) := by
    unfold range
    rw [List.pairwise_map]
    exact pairwise_lt_range.imp fun hlt =>
      Nat.add_lt_add_left (Nat.mul_lt_mul_of_pos_left hlt hstep) first
  have hright : ((List.range stop).filter fun j => first ≤ j ∧ (j - first) % step = 0).Pairwise
      (· < ·) := pairwise_lt_range.filter _
  refine hleft.eq_of_mem_iff hright fun j => ?_
  rw [mem_range hstep, List.mem_filter, List.mem_range, decide_eq_true_eq]

lemma range_zero (hstep : 0 < step) : range 0 stop step = kept step stop := by
  rw [range_eq_filter hstep]
  simp [kept]

lemma phase_iff {stride : ℕ} (hstride : 0 < stride) (j : ℕ) :
    (index + j) % stride = 0 ↔ ((-(index : ℤ)) % (stride : ℤ)).toNat ≤ j ∧
      (j - ((-(index : ℤ)) % (stride : ℤ)).toNat) % stride = 0 := by
  set first := ((-(index : ℤ)) % (stride : ℤ)).toNat with hfirst
  have hcast : (first : ℤ) = (-(index : ℤ)) % (stride : ℤ) :=
    Int.toNat_of_nonneg (Int.emod_nonneg _ (by omega))
  have hlt : first < stride := by
    have hbound := Int.emod_lt_of_pos (-(index : ℤ)) (show (0 : ℤ) < stride by omega)
    omega
  have hdvd : stride ∣ index + first := by
    have hdvd : (stride : ℤ) ∣ (index : ℤ) + first := by
      rw [hcast]
      have hsub := Int.dvd_self_sub_emod (x := -(index : ℤ)) (m := (stride : ℤ))
      have hneg := (dvd_neg (a := (stride : ℤ))).mpr hsub
      have heq : -(-(index : ℤ) - -(index : ℤ) % stride) = index + -(index : ℤ) % stride := by ring
      rwa [heq] at hneg
    exact_mod_cast hdvd
  rw [← Nat.dvd_iff_mod_eq_zero, ← Nat.dvd_iff_mod_eq_zero]
  by_cases hle : first ≤ j
  · have hsum : index + j = index + first + (j - first) := by omega
    rw [hsum, Nat.dvd_add_right hdvd]
    exact (and_iff_right hle).symm
  · constructor
    · intro h
      exfalso
      have hsub := Nat.dvd_sub hdvd h
      have heq : index + first - (index + j) = first - j := by omega
      rw [heq] at hsub
      have hpos := Nat.le_of_dvd (by omega) hsub
      omega
    · exact fun h => absurd h.1 hle

lemma kept_add {stride : ℕ} (hstride : 0 < stride) (index n : ℕ) : kept stride (index + n) =
    kept stride index ++ (range ((-(index : ℤ)) % (stride : ℤ)).toNat n stride).map fun j => index + j := by
  unfold kept
  rw [range_add, filter_append, filter_map, range_eq_filter hstride]
  congr 2
  apply filter_congr
  intro j _
  exact decide_eq_decide.mpr (phase_iff hstride j)

/-! ### The loop over the chunks -/

section Decimate
variable {body : Bytes} {total rec stride : ℕ} {S : Decimation} {chunks : List Bytes}

/-- The records before `index` are done, the buffer goes on with the rest of the body. -/
structure Decimates (body : Bytes) (total rec stride : ℕ) (S : Decimation) (chunks : List Bytes) :
    Prop where
  index_le : S.index ≤ total
  within : S.index * rec ≤ body.length
  rest : S.buf ++ chunks.flatten = body.drop (S.index * rec)
  written : S.written = (kept stride S.index).length
  out : S.out = kept_records body rec stride S.index

variable {tail : Bytes} {j : ℕ}

lemma record_buf (h : buf ++ tail = body.drop (index * rec)) (hj : (j + 1) * rec ≤ buf.length) :
    (buf.drop (j * rec)).take rec = record body rec (index + j) := by
  rw [Nat.succ_mul] at hj
  unfold record
  rw [Nat.add_mul, ← drop_drop, ← h, drop_append_of_le_length (by omega),
    take_append_of_le_length (by rw [length_drop]; omega)]

lemma Decimates.take (hrec : 0 < rec) (hstride : 0 < stride) (h : Decimates body total rec stride S chunks) :
    Decimates body total rec stride (S.take total rec stride) chunks ∧
      ((S.take total rec stride).index = total ∨ (S.take total rec stride).buf.length < rec) := by
  have hle := h.index_le
  unfold Decimation.take
  set n := min (S.buf.length / rec) (total - S.index) with hn
  by_cases hzero : n = 0
  · simp only [if_pos hzero]
    refine ⟨h, ?_⟩
    by_cases hbuf : S.buf.length / rec = 0
    · exact .inr ((Nat.div_eq_zero_iff_lt hrec).mp hbuf)
    · exact .inl (by omega)
  · simp only [if_neg hzero]
    have hnbuf : n * rec ≤ S.buf.length :=
      (Nat.le_div_iff_mul_le hrec).mp (Nat.min_le_left _ _)
    refine ⟨⟨by simp only; omega, ?_, ?_, ?_, ?_⟩, ?_⟩
    · have hlen := congrArg List.length h.rest
      have hwithin := h.within
      rw [length_append, length_drop] at hlen
      simp only
      rw [Nat.add_mul]
      omega
    · simp only
      rw [Nat.add_mul, ← drop_drop, ← h.rest, drop_append_of_le_length hnbuf]
    · simp only
      rw [kept_add hstride, h.written, length_append, length_map]
    · simp only
      unfold kept_records
      rw [kept_add hstride, flatMap_append, flatMap_map, h.out]
      congr 1
      apply flatMap_congr
      intro j hj
      have hjn : j + 1 ≤ n := ((mem_range hstride j).mp hj).1
      exact record_buf h.rest ((Nat.mul_le_mul_right rec hjn).trans hnbuf)
    · by_cases hall : total - S.index ≤ S.buf.length / rec
      · exact .inl (by omega)
      · right
        have hdiv : n = S.buf.length / rec := by omega
        rw [length_drop, hdiv]
        have hmod := Nat.mod_lt S.buf.length hrec
        have hadd := Nat.div_add_mod S.buf.length rec
        rw [Nat.mul_comm] at hadd
        omega

lemma decimate_from_spec (hrec : 0 < rec) (hstride : 0 < stride) (h : Decimates body total rec stride S chunks)
    (hstuck : S.index = total ∨ S.buf.length < rec) :
    (total * rec ≤ body.length ∧ ∃ T, decimate_from total rec stride S chunks = .ok T ∧
      T.written = (kept stride total).length ∧ T.out = kept_records body rec stride total) ∨
    body.length < total * rec ∧ ∃ i, decimate_from total rec stride S chunks = .error (.truncated i total) := by
  induction chunks generalizing S with
  | nil =>
    have hrest := congrArg List.length h.rest
    have hindex := h.index_le
    rw [flatten_nil, append_nil, length_drop] at hrest
    unfold decimate_from
    by_cases hlt : S.index < total
    · have hmul := Nat.mul_le_mul_right rec (Nat.succ_le_of_lt hlt)
      rw [Nat.succ_mul] at hmul
      rw [if_pos hlt]
      exact .inr ⟨by omega, S.index, rfl⟩
    · have heq : S.index = total := by omega
      rw [if_neg hlt]
      exact .inl ⟨heq ▸ h.within, S, rfl, heq ▸ h.written, heq ▸ h.out⟩
  | cons chunk chunks ih =>
    have hindex := h.index_le
    unfold decimate_from
    by_cases hlt : S.index < total
    · rw [if_pos hlt]
      have hfed : Decimates body total rec stride { S with buf := S.buf ++ chunk } chunks := by
        refine { h with rest := ?_ }
        rw [← h.rest, flatten_cons, append_assoc]
      obtain ⟨htaken, hstuck'⟩ := hfed.take hrec hstride
      exact ih htaken hstuck'
    · have heq : S.index = total := by omega
      rw [if_neg hlt]
      exact .inl ⟨heq ▸ h.within, S, rfl, heq ▸ h.written, heq ▸ h.out⟩

lemma decimate_stream_spec (total : ℕ) (hrec : 0 < rec) (hstride : 0 < stride)
    (h : rest ++ chunks.flatten = body) :
    (total * rec ≤ body.length ∧ ∃ T, decimate_stream chunks total rec stride rest = .ok T ∧
      T.written = (range 0 total stride).length ∧ T.out = kept_records body rec stride total) ∨
    body.length < total * rec ∧ ∃ i, decimate_stream chunks total rec stride rest = .error (.truncated i total) := by
  have hstart : Decimates body total rec stride ⟨rest, 0, 0, []⟩ chunks := by
    refine ⟨Nat.zero_le _, by simp, ?_, rfl, rfl⟩
    rw [Nat.zero_mul, drop_zero, h]
  obtain ⟨htaken, hstuck⟩ := hstart.take hrec hstride
  rw [range_zero hstride]
  exact decimate_from_spec hrec hstride htaken hstuck

end Decimate

end CloudServer.CloudLod
