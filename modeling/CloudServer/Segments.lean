import CloudServer.SceneFold
import CloudServer.ObjectBytes

/-! The leaf segments of a snapshot: records as arrays and back, and named arrays as the bytes of an
object and back. Coordinates are finite; a view row holds `none` where the array holds NaN. -/
namespace CloudServer.Segments
open SceneLeaf SceneFold List

def NUL : Char := Char.ofNat 0

def pad (width : ℕ) (s : String) : List Char := s.toList ++ List.replicate (width - s.length) NUL

variable {leaves : List LeafRecord} {sessions : List (Option String)}

inductive Dtype
  | u4
  | i8
deriving DecidableEq

def Dtype.str : Dtype → List Char
  | .u4 => ['<', 'u', '4']
  | .i8 => ['<', 'i', '8']

def Dtype.itemsize : Dtype → ℕ
  | .u4 => 4
  | .i8 => 8

end CloudServer.Segments
