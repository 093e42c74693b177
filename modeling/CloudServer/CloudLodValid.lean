import CloudServer.CloudLodCached
import CloudServer.CloudLodFound
import CloudServer.CloudLodStream

/-! A decimated cloud is a valid cloud exactly if its header is found, short enough and read back; no file
is left by a stream that ends too early. -/
namespace CloudServer.CloudLod

open Scan Substrings List Function

/-! ### Sizes -/

lemma lookup_pos {type : Text} (h : type ∈ PLY_TYPES.map (·.1)) :
    0 < (PLY_TYPES.lookup type).getD 0 := by
  have hall : ∀ t ∈ PLY_TYPES.map (·.1), 0 < (PLY_TYPES.lookup t).getD 0 := by decide
  exact hall type h

lemma record_size_pos {h : Header} (ht : Typed h) (hne : h.props ≠ []) : 0 < _record_size h.props := by
  obtain ⟨p, hp⟩ := exists_mem_of_ne_nil _ hne
  have hle := single_le_sum (l := h.props.map fun p => (PLY_TYPES.lookup p.2).getD 0)
    (fun _ _ => Nat.zero_le _) _ (mem_map_of_mem hp)
  exact (lookup_pos (ht p hp)).trans_le hle

variable {bucket header_len stride : ℕ}

lemma stride_of_eq {total : ℕ} (hbucket : 0 < bucket) :
    stride_of total bucket = total ⌈/⌉ bucket := by
  refine eq_of_forall_ge_iff fun c => ?_
  have hmul : (-(c : ℤ)) ≤ (-(total : ℤ)) / (bucket : ℤ) ↔ -(c : ℤ) * bucket ≤ -(total : ℤ) :=
    Int.le_ediv_iff_mul_le (by omega)
  have hcast : (total : ℤ) ≤ bucket * c ↔ total ≤ bucket * c := by exact_mod_cast Iff.rfl
  rw [ceilDiv_le_iff_le_mul hbucket, ← hcast]
  unfold stride_of
  rw [Int.toNat_le]
  constructor
  · intro h
    have hle := hmul.mp (by omega)
    linarith
  · intro h
    have hle := hmul.mpr (by linarith)
    omega

lemma ceilDiv_pos {total : ℕ} (hbucket : 0 < bucket) (htotal : 0 < total) :
    0 < total ⌈/⌉ bucket := by
  by_contra hnot
  have hle := (ceilDiv_le_iff_le_mul hbucket).mp (Nat.le_of_not_lt hnot)
  omega

lemma range_zero_length {total : ℕ} (hstride : 0 < stride) :
    (range 0 total stride).length = total ⌈/⌉ stride := by
  have hsum : total - 0 + (stride - 1) = total + stride - 1 := by omega
  unfold range
  rw [length_map, length_range, hsum, Nat.ceilDiv_eq_add_pred_div]

lemma returned_le {total : ℕ} (hbucket : 0 < bucket) (htotal : 0 < total) :
    total ⌈/⌉ (total ⌈/⌉ bucket) ≤ bucket := by
  rw [ceilDiv_le_iff_le_mul (ceilDiv_pos hbucket htotal), Nat.mul_comm]
  exact le_smul_ceilDiv hbucket

lemma kept_records_eq (body : Bytes) (rec : ℕ) (hstride : 0 < stride) (total : ℕ) :
    kept_records body rec stride total = (List.range (total ⌈/⌉ stride)).flatMap fun i => record body rec (i * stride) := by
  unfold kept_records
  rw [← range_zero hstride, ← range_zero_length hstride]
  unfold range
  rw [length_map, length_range, flatMap_map]
  simp only [Nat.zero_add, Nat.mul_comm stride]

/-! ### Complete streams -/

/-- The stream has a header and all the records that it announces. -/
def Complete (stream : Bytes) : Prop :=
  ∃ header_len total props, read_ply_header stream = .ok (header_len, total, props) ∧
    header_len + total * _record_size props ≤ stream.length

lemma read_ply_header_append {header : Bytes} {r : ℕ × ℕ × List (Text × Text)}
    (hread : read_ply_header header = .ok r) (t : Bytes) :
    read_ply_header (header ++ t) = .ok r ∧ find marker header = some (r.1 - marker.length) ∧ marker.length ≤ r.1 := by
  obtain ⟨header_len, total, props⟩ := r
  obtain ⟨ply, ls, last, body, h, hof, hc, hlen⟩ := read_ply_header_inv hread
  have hall : ∀ l ∈ ply :: ls, HeaderLine l :=
    forall_mem_cons.mpr ⟨hof.ply_line.headerLine, hof.header_line⟩
  refine ⟨?_, ?_, by simp only; omega⟩
  · have hbytes : header ++ t = unlines nl (ply :: ls) ++ (last ++ (END_HEADER ++ nl :: (body ++ t))) := by
      rw [hof.source_eq]
      simp
    rw [hbytes, read_ply_header_lines hof.ply_line hof.header_line hof.last_line, if_neg
      (Nat.not_lt.mpr hof.short), hof.reads]
    simp only [hc, hlen]
    rfl
  · rw [hof.source_eq]
    have hfind := find_marker nl_notMem_end_header hall hof.last_line body
    have hsub : (unlines nl (ply :: ls) ++ last).length + marker.length - marker.length =
        (unlines nl (ply :: ls) ++ last).length := by omega
    rw [hlen, hsub]
    exact hfind

lemma typed_of_read {source : Bytes} {total : ℕ} {props : List (Text × Text)}
    (hread : read_ply_header source = .ok (header_len, total, props)) : 0 < _record_size props := by
  obtain ⟨ply, ls, last, body, h, hof, hc, -⟩ := read_ply_header_inv hread
  obtain ⟨-, rfl, hne, -⟩ := checked_ok hc
  have hstart : Typed start := fun p hp => absurd hp not_mem_nil
  exact record_size_pos (hstart.read_lines hof.reads) hne

lemma build_incomplete {chunks : List Bytes} (h : ¬ Complete chunks.flatten) (files : Files)
    (source_size : Option ℕ) (hbucket : 0 < bucket) {final tmp : Text}
    (htmp : tmp ≠ final) : (build files chunks source_size bucket final tmp).1 final = files final := by
  unfold build
  cases hheader : header_and_rest [] chunks with
  | error f => rfl
  | ok r =>
    obtain ⟨header, rest, chunks'⟩ := r
    obtain ⟨e, he, hbytes, hrest⟩ := header_and_rest_ok hheader
    rw [nil_append] at he hbytes hrest
    cases hread : read_ply_header header with
    | error f => simp only [hread]
    | ok s =>
      obtain ⟨header_len, total, props⟩ := s
      simp only [hread]
      split
      · rfl
      · split
        · rfl
        · rename_i hsize hlarge
          have hstride : 0 < stride_of total bucket := by
            rw [stride_of_eq hbucket]
            exact ceilDiv_pos hbucket (by omega)
          have hupdate : update files tmp none final = files final :=
            update_of_ne htmp.symm none files
          unfold decimated
          cases hrewrite : rewrite_header header total
              (range 0 total (stride_of total bucket)).length (stride_of total bucket) with
          | error f => simpa only [hrewrite] using hupdate
          | ok head =>
            simp only
            rcases decimate_stream_spec total (typed_of_read hread) hstride hrest with
              ⟨hlen, -⟩ | ⟨-, i, herr⟩
            · exfalso
              apply h
              obtain ⟨hread', hfind, hle⟩ := read_ply_header_append hread
                (chunks.flatten.drop (e + marker.length))
              rw [hbytes, take_append_drop] at hread'
              refine ⟨header_len, total, props, hread', ?_⟩
              have hhere := find_take he (e + marker.length)
              rw [if_pos (Nat.le_refl _), ← hbytes, hfind] at hhere
              have heq := Option.some.inj hhere
              have hbound := find_le he
              rw [length_drop] at hlen
              simp only at heq hle
              omega
            · simpa only [herr] using hupdate

/-! ### Valid clouds -/

/-- What a cloud built with at most `bucket` vertices is: its header is read as the source's with
ceil(total / k) vertices, k = ceil(total / bucket), at most `bucket`; it holds the records 0, k, 2k, ...
of the source; and its total is read back. -/
structure ValidCloud (source : Bytes) (header_len total : ℕ) (props : List (Text × Text)) (bucket : ℕ)
    (final : Text) (built : Files × Except Failure Lod) (file : Bytes) (header_len' : ℕ) : Prop where
  done : built.2 = .ok ⟨total, total ⌈/⌉ (total ⌈/⌉ bucket), some final⟩
  written : built.1 final = some file
  header : read_ply_header file = .ok (header_len', total ⌈/⌉ (total ⌈/⌉ bucket), props)
  few : total ⌈/⌉ (total ⌈/⌉ bucket) ≤ bucket
  records : file.drop header_len' = (List.range (total ⌈/⌉ (total ⌈/⌉ bucket))).flatMap fun i =>
    record (source.drop header_len) (_record_size props) (i * (total ⌈/⌉ bucket))
  cached : cached_info built.1 final = some ⟨total, total ⌈/⌉ (total ⌈/⌉ bucket), some final⟩

/-- No chunk ends in the header after its first 64 KiB; the line that is found declares the vertices; with
the new lines the header still ends within 64 KiB; and no other comment changes the total. -/
def Decimable (source : Bytes) (header_len total bucket : ℕ) (chunks : List Bytes) : Prop :=
  HeaderCut header_len [] chunks ∧ ∃ before line after,
    FoundLine (source.take header_len) before line after ∧
      header_len + (comment_line (total ⌈/⌉ bucket) total).length + 1 +
        (element_line (total ⌈/⌉ (total ⌈/⌉ bucket))).length ≤
          MAX_HEADER + marker.length + line.length ∧
      Told before after total

lemma rewritten_length (before after : List Bytes) (line : Bytes) (total returned stride : ℕ) :
    (rewritten before after total returned stride).length + line.length =
      (unlines nl (before ++ line :: after)).length + (comment_line stride total).length + 1 +
        (element_line returned).length := by
  unfold rewritten
  rw [unlines_append, unlines_append, unlines_cons, unlines_cons, unlines_cons]
  simp only [length_append, length_cons]
  omega

section Build
variable {source ply last body : Bytes} {ls : List Bytes} {h : Header} {total : ℕ}
  {props : List (Text × Text)}

lemma find_last (y : List Bytes) (last : Bytes) :
    ∃ e, find END_HEADER (unlines nl (y ++ [last ++ END_HEADER])) = some e := by
  cases hf : find END_HEADER (unlines nl (y ++ [last ++ END_HEADER])) with
  | some e => exact ⟨e, rfl⟩
  | none =>
    exfalso
    have hbytes : unlines nl (y ++ [last ++ END_HEADER]) =
        (unlines nl y ++ last) ++ (END_HEADER ++ [nl]) := by
      rw [unlines_append]
      simp [unlines]
    rw [hbytes, find_eq_none_iff] at hf
    apply hf (unlines nl y ++ last).length (by simp)
    rw [drop_left]
    exact prefix_append _ _

lemma HeaderOf.cached_iff (hof : HeaderOf source ply ls last body h)
    (hc : checked h = .ok (total, props)) {x y : List Bytes} {l : Bytes} (hls : ls = x ++ l :: y)
    (hvertex : VertexLine (clean l)) {returned : ℕ} (hreturned : returned < total) (stride : ℕ)
    (out : Bytes) {files : Files} {final : Text}
    (hfile : files final = some (rewritten (ply :: x) (y ++ [last ++ END_HEADER]) total returned stride ++ out))
    (hlen : (rewritten (ply :: x) (y ++ [last ++ END_HEADER]) total returned stride).length ≤ MAX_HEADER + marker.length) :
    cached_info files final = some ⟨total, returned, some final⟩ ↔ Told (ply :: x) (y ++ [last ++ END_HEADER]) total := by
  set head := rewritten (ply :: x) (y ++ [last ++ END_HEADER]) total returned stride with hhead
  obtain ⟨e, he⟩ := find_last y last
  obtain ⟨j, hj⟩ : ∃ j, MAX_HEADER + 16 = head.length + j :=
    Nat.exists_eq_add_of_le (hlen.trans (by decide))
  have htake : (head ++ out).take (MAX_HEADER + 16) = head ++ out.take j := by
    rw [hj, take_length_add_append]
  have hread := hof.read_rewritten hc hls hvertex hreturned.le stride (out.take j)
  rw [← hhead, if_neg (Nat.not_lt.mpr hlen)] at hread
  have hcomplete := hof.complete
  have hbefore : ∀ m ∈ ply :: x, nl ∉ m := by
    intro m hm
    apply hcomplete m
    rw [hls]
    rcases mem_cons.mp hm with rfl | hm
    · exact mem_cons_self
    · exact mem_cons_of_mem _ (mem_append_left _ (mem_append_left _ hm))
  have hne : (returned : ℤ) ≠ total := by
    intro heq
    omega
  have htold := lod_total_rewritten hbefore he (hof.total_lt hc) hne stride (out.take j)
  rw [← htold]
  unfold cached_info
  simp only [hfile, Option.bind_some, htake, hread]
  change (lod_total returned ((upto END_HEADER (head ++ out.take j)).splitOn nl)).map _ = _ ↔
    lod_total returned ((upto END_HEADER (head ++ out.take j)).splitOn nl) = _
  cases lod_total returned ((upto END_HEADER (head ++ out.take j)).splitOn nl) with
  | none => simp
  | some t => simp

lemma HeaderOf.find_source (hof : HeaderOf source ply ls last body h) :
    find marker source = some (unlines nl (ply :: ls) ++ last).length := by
  have hall : ∀ l ∈ ply :: ls, HeaderLine l :=
    forall_mem_cons.mpr ⟨hof.ply_line.headerLine, hof.header_line⟩
  rw [hof.source_eq]
  exact find_marker nl_notMem_end_header hall hof.last_line body

lemma HeaderOf.read_header (hof : HeaderOf source ply ls last body h)
    (hc : checked h = .ok (total, props)) : read_ply_header (header_bytes ply ls last) =
      .ok ((unlines nl (ply :: ls) ++ last).length + marker.length, total, props) := by
  have hbytes : header_bytes ply ls last =
      unlines nl (ply :: ls) ++ (last ++ (END_HEADER ++ nl :: [])) := by
    unfold header_bytes
    rw [← cons_append, unlines_append]
    simp [unlines]
  rw [hbytes, read_ply_header_lines hof.ply_line hof.header_line hof.last_line, if_neg (Nat.not_lt.mpr hof.short), hof.reads]
  simp only [hc]
  rfl

lemma HeaderOf.build_eq (hof : HeaderOf source ply ls last body h) (hc : checked h = .ok (total, props))
    (hlen : header_len = (unlines nl (ply :: ls) ++ last).length + marker.length)
    (hsize : source.length = header_len + total * _record_size props) {chunks : List Bytes}
    (hchunks : chunks.flatten = source) (hcut : HeaderCut header_len [] chunks)
    (hbucket : 0 < bucket) (hlarge : bucket < total) {source_size : Option ℕ}
    (hsource : ∀ n ∈ source_size, n = source.length) (files : Files) (final tmp : Text) :
    build files chunks source_size bucket final tmp =
      match rewrite_header (header_bytes ply ls last) total (total ⌈/⌉ (total ⌈/⌉ bucket))
        (total ⌈/⌉ bucket) with
      | .error f => (update files tmp none, .error f)
      | .ok head => (update (update files tmp none) final
          (some (head ++ kept_records (source.drop header_len) (_record_size props) (total ⌈/⌉ bucket)
            total)), .ok ⟨total, total ⌈/⌉ (total ⌈/⌉ bucket), some final⟩) := by
  have hread := hof.read_header hc
  obtain ⟨-, hprops, hne, -⟩ := checked_ok hc
  have hstart : Typed start := fun p hp => absurd hp not_mem_nil
  have hrec : 0 < _record_size props := by
    rw [← hprops] at hne ⊢
    exact record_size_pos (hstart.read_lines hof.reads) hne
  have hstride : 0 < total ⌈/⌉ bucket := ceilDiv_pos hbucket (by omega)
  rcases header_and_rest_spec hof.find_source chunks [] hchunks (by simp [marker])
    (Nat.zero_le _) with ⟨-, rest, chunks', hheader, hrest⟩ | ⟨hnot, -⟩
  · rw [hof.take] at hheader
    change header_and_rest [] chunks = .ok (header_bytes ply ls last, rest, chunks') at hheader
    have hno : ¬ ∃ size ∈ source_size, size ≠
        (unlines nl (ply :: ls) ++ last).length + marker.length + total * _record_size props := by
      rintro ⟨size, hmem, hne⟩
      apply hne
      rw [hsource size hmem, hsize, hlen]
    rw [← hlen] at hrest
    unfold build
    simp only [hheader, hread]
    rw [if_neg hno, if_neg (by omega), stride_of_eq hbucket, range_zero_length hstride]
    unfold decimated
    cases rewrite_header (header_bytes ply ls last) total (total ⌈/⌉ (total ⌈/⌉ bucket))
        (total ⌈/⌉ bucket) with
    | error f => rfl
    | ok head =>
      rcases decimate_stream_spec total hrec hstride hrest with
        ⟨-, T, hT, hwritten, hout⟩ | ⟨hshort, -⟩
      · rw [range_zero_length hstride] at hwritten
        simp only [hT, hwritten, hout, ne_eq, not_true_eq_false, if_false]
      · rw [length_drop, hsize] at hshort
        omega
  · exact absurd (hlen ▸ hcut) hnot

end Build

/-- For a source that is read and has its header's size, however it is cut: `build` writes a valid cloud
exactly if the source is decimable; and a stream that is not complete leaves nothing at the final path. -/
theorem valid_cloud_iff {source : Bytes} {header_len total : ℕ} {props : List (Text × Text)}
    (hread : read_ply_header source = .ok (header_len, total, props))
    (hsize : source.length = header_len + total * _record_size props) {chunks : List Bytes}
    (hchunks : chunks.flatten = source) {bucket : ℕ} (hbucket : 0 < bucket) (hlarge : bucket < total)
    {source_size : Option ℕ} (hsource : ∀ n ∈ source_size, n = source.length) (files : Files)
    {final tmp : Text} (htmp : tmp ≠ final) :
    ((∃ file header_len', ValidCloud source header_len total props bucket final
      (build files chunks source_size bucket final tmp) file header_len') ↔
        Decimable source header_len total bucket chunks) ∧
    ∀ (stream : List Bytes) (size : Option ℕ), ¬ Complete stream.flatten →
      (build files stream size bucket final tmp).1 final = files final := by
  refine ⟨?_, fun stream size h => build_incomplete h files size hbucket htmp⟩
  obtain ⟨ply, ls, last, body, h, hof, hc, hlen⟩ := read_ply_header_inv hread
  have hreturned : total ⌈/⌉ (total ⌈/⌉ bucket) < total :=
    (returned_le hbucket (by omega)).trans_lt hlarge
  have hstride : 0 < total ⌈/⌉ bucket := ceilDiv_pos hbucket (by omega)
  have htake : source.take header_len = header_bytes ply ls last := hlen ▸ hof.take
  by_cases hcut : HeaderCut header_len [] chunks
  · rw [hof.build_eq hc hlen hsize hchunks hcut hbucket hlarge hsource files final tmp]
    rcases hof.rewrite_cases hc (total ⌈/⌉ (total ⌈/⌉ bucket)) (total ⌈/⌉ bucket) with
      ⟨x, l, y, hls, hfound, hok⟩ | ⟨hnone, herr | ⟨head, hok, hunread⟩⟩
    · -- the vertex line is found
      rw [hok]
      simp only
      set head := rewritten (ply :: x) (y ++ [last ++ END_HEADER]) total (total ⌈/⌉ (total ⌈/⌉ bucket))
        (total ⌈/⌉ bucket) with hhead
      set out := kept_records (source.drop header_len) (_record_size props) (total ⌈/⌉ bucket) total
        with hout
      have hagain := hof.read_rewritten hc hls hfound.vertex hreturned.le (total ⌈/⌉ bucket) out
      have hlength := rewritten_length (ply :: x) (y ++ [last ++ END_HEADER]) l total
        (total ⌈/⌉ (total ⌈/⌉ bucket)) (total ⌈/⌉ bucket)
      have hheader_len : header_len = (unlines nl (ply :: x ++ l :: (y ++ [last ++ END_HEADER]))).length := by
        rw [← hfound.header_eq, ← htake, length_take]
        omega
      have hfile : update (update files tmp none) final (some (head ++ out)) final =
          some (head ++ out) := update_self ..
      have hcached := fun hshort => hof.cached_iff hc hls hfound.vertex hreturned (total ⌈/⌉ bucket) out
        hfile hshort
      rw [← hhead, ← hheader_len] at hlength
      rw [← hhead] at hagain
      constructor
      · rintro ⟨file, header_len', hvalid⟩
        obtain rfl : head ++ out = file := Option.some.inj (hfile.symm.trans hvalid.written)
        have hshort : head.length ≤ MAX_HEADER + marker.length := by
          by_contra hlong
          rw [if_pos (Nat.lt_of_not_le hlong), hvalid.header] at hagain
          cases hagain
        refine ⟨hcut, ply :: x, l, y ++ [last ++ END_HEADER], htake ▸ hfound, by omega, ?_⟩
        exact (hcached hshort).mp hvalid.cached
      · rintro ⟨-, before, line, after, hfound', hshort', htold⟩
        rw [htake, hfound.header_eq] at hfound'
        obtain ⟨rfl, rfl, rfl⟩ := hfound'.eq hfound.complete hfound.first hfound.found
        have hshort : head.length ≤ MAX_HEADER + marker.length := by omega
        rw [if_neg (Nat.not_lt.mpr hshort)] at hagain
        refine ⟨head ++ out, head.length, rfl, hfile, hagain, returned_le hbucket (by omega), ?_,
          (hcached hshort).mpr htold⟩
        rw [drop_left, hout]
        exact kept_records_eq _ _ hstride total
    · -- no line is found
      rw [herr]
      constructor
      · rintro ⟨file, header_len', hvalid⟩
        cases hvalid.done
      · rintro ⟨-, before, line, after, hfound, -⟩
        exact absurd ⟨before, line, after, htake ▸ hfound⟩ hnone
    · -- another line is found
      rw [hok]
      constructor
      · rintro ⟨file, header_len', hvalid⟩
        exfalso
        have hfile := hvalid.written
        simp only [update_self, Option.some.injEq] at hfile
        obtain ⟨f, hf⟩ := hunread (kept_records (source.drop header_len) (_record_size props)
          (total ⌈/⌉ bucket) total)
        rw [hfile, hvalid.header] at hf
        cases hf
      · rintro ⟨-, before, line, after, hfound, -⟩
        exact absurd ⟨before, line, after, htake ▸ hfound⟩ hnone
  · constructor
    · rintro ⟨file, header_len', hvalid⟩
      exfalso
      rcases header_and_rest_spec hof.find_source chunks [] hchunks (by simp [marker])
        (Nat.zero_le _) with ⟨hcut', -⟩ | ⟨-, herr⟩
      · exact hcut (hlen ▸ hcut')
      · have hdone := hvalid.done
        unfold build at hdone
        simp only [herr] at hdone
        cases hdone
    · exact fun hdec => absurd hdec.1 hcut

section Cube

def final_path : Text := "lod-2.ply".toList

def tmp_path : Text := ".tmp-0".toList

def no_files : Files := fun _ => none

def uchar_props : List (Text × Text) :=
  [("x".toList, "uchar".toList), ("y".toList, "uchar".toList), ("z".toList, "uchar".toList)]

def cube_before : List Bytes :=
  [encode "ply".toList, encode "format binary_little_endian 1.0".toList]

def cube_line : Bytes := encode "element vertex 3".toList

def cube_after : List Bytes :=
  [encode "property uchar x".toList, encode "property uchar y".toList, encode "property uchar z".toList,
    encode "end_header".toList]

def cube : Bytes := unlines nl (cube_before ++ cube_line :: cube_after) ++ [1, 2, 3, 4, 5, 6, 7, 8, 9]

def cube_chunks : List Bytes := [cube.take 50, (cube.drop 50).take 69, cube.drop 119]

lemma cube_cut : HeaderCut 115 [] cube_chunks := fun _ _ hlt => hlt.le.trans (by decide)

lemma cube_told : Told cube_before cube_after 3 := by
  unfold Told
  rw [if_pos (by decide)]
  exact ⟨by decide, by decide⟩

/-- The cube with at most two vertices. -/
theorem valid_cube : ∃ file header_len', ValidCloud cube 115 3 uchar_props 2 final_path
    (build no_files cube_chunks (some 124) 2 final_path tmp_path) file header_len' := by
  have hread : read_ply_header cube = .ok (115, 3, uchar_props) := by decide +kernel
  have hfound : FoundLine (cube.take 115) cube_before cube_line cube_after := by
    refine ⟨by decide, by decide, by decide, by decide, by decide, ?_⟩
    exact ⟨"3".toList, by decide⟩
  refine ((valid_cloud_iff hread (by decide) (by decide) (by decide) (by decide) ?_ no_files
    (by decide)).1).mpr ⟨cube_cut, cube_before, cube_line, cube_after, hfound, by decide, cube_told⟩
  intro n hn
  cases hn
  decide

def meshed : Bytes :=
  unlines nl (cube_before ++ encode "element vertex_group 0".toList :: cube_line :: cube_after) ++
    [1, 2, 3, 4, 5, 6, 7, 8, 9]

/-- The source is read and has its size; the file left at the final path is not read. -/
theorem meshed_invalid : read_ply_header meshed = .ok (138, 3, uchar_props) ∧
    meshed.length = 138 + 3 * _record_size uchar_props ∧
    ∃ file, (build no_files [meshed] (some 147) 2 final_path tmp_path).1 final_path = some file ∧
      read_ply_header file = .error .two_vertex_elements := by
  refine ⟨by decide +kernel, by decide +kernel, ?_⟩
  have hsome : ((build no_files [meshed] (some 147) 2 final_path tmp_path).1 final_path).isSome = true := by
    decide +kernel
  obtain ⟨file, hfile⟩ := Option.isSome_iff_exists.mp hsome
  have hget : ((build no_files [meshed] (some 147) 2 final_path tmp_path).1 final_path).getD [] = file := by
    rw [hfile]
    rfl
  refine ⟨file, hfile, ?_⟩
  rw [← hget]
  decide +kernel

end Cube

end CloudServer.CloudLod
