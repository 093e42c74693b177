import CloudServer.Scan
import CloudServer.Substrings

/-! A reconstruction's cloud with fewer points: the header of a PLY file, the file of every k-th vertex
that is built from a stream of its bytes, and what is read back from that file. -/
namespace CloudServer.CloudLod

open Scan Substrings

abbrev Bytes := List UInt8

def encode (t : Text) : Bytes := t.map fun c => c.toNat.toUInt8

/-- One byte of `decode("ascii", "replace")`. -/
def decode (b : UInt8) : Char := if b < 128 then Char.ofNat b.toNat else '\uFFFD'

def nl : UInt8 := 10

def END_HEADER : Bytes := encode "end_header".toList

def marker : Bytes := END_HEADER ++ [nl]

def MAX_HEADER : ℕ := 64 * 1024

section Model

/-! ### Words and numbers -/

/-- White space of `str.split` among the characters that `decode` gives. -/
def isSpace (c : Char) : Bool := c.toNat ∈ [9, 10, 11, 12, 13, 28, 29, 30, 31, 32]

def isSpaceByte (b : UInt8) : Bool := b ∈ [9, 10, 11, 12, 13, 32]

def split {α : Type} (space : α → Bool) (line : List α) : List (List α) :=
  (line.splitOnP space).filter (· ≠ [])

def strip (line : Bytes) : Bytes :=
  ((line.dropWhile isSpaceByte).reverse.dropWhile isSpaceByte).reverse

/-- `sys.get_int_max_str_digits()`. -/
def MAX_DIGITS : ℕ := 4300

def int_digits (word : Text) : Option ℕ :=
  let groups := word.splitOn '_'
  if (∀ group ∈ groups, group ≠ [] ∧ group.all Char.isDigit) ∧ groups.flatten.length ≤ MAX_DIGITS then
    some (int groups.flatten)
  else none

/-- `int(word)`, `none` for a ValueError. -/
def int_word : Text → Option ℤ
  | '-' :: word => (int_digits word).map fun n : ℕ => -(n : ℤ)
  | '+' :: word => (int_digits word).map fun n : ℕ => (n : ℤ)
  | word => (int_digits word).map fun n : ℕ => (n : ℤ)

/-! ### The header of a PLY file -/

def PLY_TYPES : List (Text × ℕ) :=
  [("char".toList, 1), ("int8".toList, 1), ("uchar".toList, 1), ("uint8".toList, 1),
    ("short".toList, 2), ("int16".toList, 2), ("ushort".toList, 2), ("uint16".toList, 2),
    ("int".toList, 4), ("int32".toList, 4), ("uint".toList, 4), ("uint32".toList, 4),
    ("float".toList, 4), ("float32".toList, 4), ("double".toList, 8), ("float64".toList, 8)]

inductive Failure
  /-- not a PLY file -/
  | not_a_ply
  /-- no end_header in the first 64 KiB -/
  | no_end_header
  /-- two vertex elements -/
  | two_vertex_elements
  /-- bad count 'word' -/
  | bad_count (word : Text)
  /-- unexpected element 'name' -/
  | unexpected_element (name : Text)
  /-- unsupported vertex property: line -/
  | unsupported_property (line : Text)
  /-- unexpected header line: line -/
  | unexpected_line (line : Text)
  /-- format must be binary_little_endian 1.0, not fmt -/
  | format (fmt : Option Text)
  /-- no vertex element -/
  | no_vertex_element
  /-- vertex needs x, y, z (each once) -/
  | vertex_names
  /-- no element vertex line -/
  | no_vertex_line
  /-- size source_size does not match the header (total x rec B) -/
  | size_mismatch (source_size total rec : ℕ)
  /-- PLY truncated: index of total vertices -/
  | truncated (index total : ℕ)
  /-- wrote written vertices, expected returned -/
  | wrote (written returned : ℕ)
  deriving DecidableEq

structure Header where
  fmt : Option Text
  count : Option ℤ
  props : List (Text × Text)
  element : Option Text
  deriving DecidableEq

/-- The last branches of the loop body, for a line that is no element with a count. -/
def read_other (h : Header) (line word : Text) (words : List Text) : Except Failure Header :=
  if word = "property".toList ∧ h.element = some "vertex".toList then
    match words with
    | [type, name] =>
      if type ∈ PLY_TYPES.map (·.1) then .ok { h with props := h.props ++ [(name, type)] }
      else .error (.unsupported_property line)
    | _ => .error (.unsupported_property line)
  else if word = "property".toList then .ok h
  else .error (.unexpected_line line)

/-- The loop body of `read_ply_header`. -/
def read_line (h : Header) (line : Text) : Except Failure Header :=
  match split isSpace line with
  | [] => .ok h
  | word :: words =>
    if word = "comment".toList ∨ word = "obj_info".toList then .ok h
    else if word = "format".toList then .ok { h with fmt := some ([' '].intercalate words) }
    else if word = "element".toList then
      match words with
      | [element, count] =>
        if element = "vertex".toList then
          if h.count ≠ none then .error .two_vertex_elements
          else
            match int_word count with
            | none => .error (.bad_count count)
            | some n => .ok { h with element := some element, count := some n }
        else
          match int_word count with
          | none => .error (.bad_count count)
          | some n =>
            if n ≠ 0 then .error (.unexpected_element element)
            else .ok { h with element := some element }
      | _ => read_other h line word words
    else read_other h line word words

def checked (h : Header) : Except Failure (ℕ × List (Text × Text)) :=
  if h.fmt ≠ some "binary_little_endian 1.0".toList then .error (.format h.fmt)
  else
    match h.count with
    | none => .error .no_vertex_element
    | some count =>
      let names := h.props.map (·.1)
      if count < 0 then .error .no_vertex_element
      else if "x".toList ∉ names ∨ "y".toList ∉ names ∨ "z".toList ∉ names ∨ ¬ names.Nodup then
        .error .vertex_names
      else .ok (count.toNat, h.props)

def header_lines (data : Bytes) : List Text :=
  (((data.map decode).filter (· ≠ '\r')).splitOn '\n').drop 1

/-- `read_ply_header`: the length of the header, the vertex count and the properties with their types. -/
def read_ply_header (data : Bytes) : Except Failure (ℕ × ℕ × List (Text × Text)) :=
  if ¬ encode "ply\n".toList <+: data ∧ ¬ encode "ply\r\n".toList <+: data then .error .not_a_ply
  else
    match find marker data with
    | none => .error .no_end_header
    | some e =>
      if e > MAX_HEADER then .error .no_end_header
      else
        match (header_lines (data.take e)).foldlM read_line ⟨none, none, [], none⟩ with
        | .error failure => .error failure
        | .ok h => (checked h).map fun r => (e + marker.length, r)

def _record_size (props : List (Text × Text)) : ℕ :=
  (props.map fun p => ((PLY_TYPES.lookup p.2).getD 0)).sum

/-! ### The file of every k-th vertex -/

/-- The loop of `_header_and_rest`: the header, what followed in the chunks read, and the other chunks. -/
def header_and_rest (buf : Bytes) : List Bytes → Except Failure (Bytes × Bytes × List Bytes)
  | [] => .error .no_end_header
  | chunk :: chunks =>
    match find marker (buf ++ chunk) with
    | some e =>
      let cut := e + marker.length
      .ok ((buf ++ chunk).take cut, (buf ++ chunk).drop cut, chunks)
    | none =>
      if MAX_HEADER < (buf ++ chunk).length then .error .no_end_header
      else header_and_rest (buf ++ chunk) chunks

def comment_line (stride total : ℕ) : Bytes :=
  encode ("comment satinav lod stride=".toList ++ str stride ++ " total=".toList ++ str total)

def element_line (returned : ℕ) : Bytes := encode ("element vertex ".toList ++ str returned)

/-- The test by which `rewrite_header` finds its line. -/
def vertex_prefix (line : Bytes) : Bool := encode "element vertex".toList <+: strip line

/-- The loop of `rewrite_header`, until its line is found. -/
def rewrite_lines (total returned stride : ℕ) : List Bytes → Except Failure (List Bytes)
  | [] => .error .no_vertex_line
  | line :: lines =>
    if vertex_prefix line then .ok (comment_line stride total :: element_line returned :: lines)
    else (rewrite_lines total returned stride lines).map fun out => line :: out

def rewrite_header (header : Bytes) (total returned stride : ℕ) : Except Failure Bytes :=
  (rewrite_lines total returned stride (header.splitOn nl).dropLast).map fun out =>
    [nl].intercalate out ++ [nl]

/-- `range(first, stop, step)`. -/
def range (first stop step : ℕ) : List ℕ :=
  (List.range ((stop - first + (step - 1)) / step)).map fun i => first + step * i

structure Decimation where
  buf : Bytes
  index : ℕ
  written : ℕ
  out : Bytes
  deriving DecidableEq

/-- `take` of `decimate_stream`. -/
def Decimation.take (total rec stride : ℕ) (S : Decimation) : Decimation :=
  let n := min (S.buf.length / rec) (total - S.index)
  if n = 0 then S
  else
    let first := ((-(S.index : ℤ)) % (stride : ℤ)).toNat
    let picked := range first n stride
    { buf := S.buf.drop (n * rec)
      index := S.index + n
      written := S.written + picked.length
      out := S.out ++ picked.flatMap fun j => (S.buf.drop (j * rec)).take rec }

/-- The loop of `decimate_stream`. -/
def decimate_from (total rec stride : ℕ) (S : Decimation) : List Bytes → Except Failure Decimation
  | [] => if S.index < total then .error (.truncated S.index total) else .ok S
  | chunk :: chunks =>
    if S.index < total then
      decimate_from total rec stride ({ S with buf := S.buf ++ chunk }.take total rec stride) chunks
    else .ok S

def decimate_stream (chunks : List Bytes) (total rec stride : ℕ) (rest : Bytes) :
    Except Failure Decimation :=
  decimate_from total rec stride (Decimation.take total rec stride ⟨rest, 0, 0, []⟩) chunks

structure Lod where
  total : ℤ
  returned : ℕ
  path : Option Text
  deriving DecidableEq

/-- `-(-total // bucket)`. -/
def stride_of (total bucket : ℕ) : ℕ := (-((-(total : ℤ)) / (bucket : ℤ))).toNat

/-- The header and the records that `build` writes to its temporary file. -/
def decimated (header : Bytes) (total returned stride rec : ℕ) (chunks : List Bytes) (rest : Bytes) :
    Except Failure Bytes :=
  match rewrite_header header total returned stride with
  | .error failure => .error failure
  | .ok head =>
    match decimate_stream chunks total rec stride rest with
    | .error failure => .error failure
    | .ok S => if S.written ≠ returned then .error (.wrote S.written returned) else .ok (head ++ S.out)

abbrev Files := Text → Option Bytes

/-- `build`, with the files of the cache before and after: the temporary file is renamed to the final
path, or removed. -/
def build (files : Files) (chunks : List Bytes) (source_size : Option ℕ) (bucket : ℕ)
    (final tmp : Text) : Files × Except Failure Lod :=
  match header_and_rest [] chunks with
  | .error failure => (files, .error failure)
  | .ok (header, rest, chunks) =>
    match read_ply_header header with
    | .error failure => (files, .error failure)
    | .ok (header_len, total, props) =>
      let record_size := _record_size props
      if ∃ size ∈ source_size, size ≠ header_len + total * record_size then
        (files, .error (.size_mismatch (source_size.getD 0) total record_size))
      else if total ≤ bucket then (files, .ok ⟨total, total, none⟩)
      else
        let stride := stride_of total bucket
        let returned := (range 0 total stride).length
        match decimated header total returned stride record_size chunks rest with
        | .error failure => (Function.update files tmp none, .error failure)
        | .ok file =>
          (Function.update (Function.update files tmp none) final (some file),
            .ok ⟨total, returned, some final⟩)

/-! ### Reading it back -/

/-- The words of a line of `cached_info`. -/
def lod_words (total : ℤ) : List Bytes → Option ℤ
  | [] => some total
  | word :: words =>
    if encode "total=".toList <+: word then
      (int_word ((word.drop 6).map decode)).bind fun total => lod_words total words
    else lod_words total words

/-- The loop of `cached_info`; `none` for a ValueError. -/
def lod_total (total : ℤ) : List Bytes → Option ℤ
  | [] => some total
  | line :: lines =>
    if encode "comment satinav lod ".toList <+: line then
      (lod_words total (split isSpaceByte line)).bind fun total => lod_total total lines
    else lod_total total lines

def cached_info (files : Files) (path : Text) : Option Lod :=
  (files path).bind fun file =>
    let head := file.take (MAX_HEADER + 16)
    match read_ply_header head with
    | .error _ => none
    | .ok (_, returned, _) =>
      (lod_total returned ((upto END_HEADER head).splitOn nl)).map fun total =>
        ⟨total, returned, some path⟩

end Model
end CloudServer.CloudLod
