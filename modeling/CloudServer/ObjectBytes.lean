import CloudServer.Dict

/-! The byte format of a stored object: magic, header length, header and compressed payload. The
payload is the bytes of the named arrays one after another. -/
namespace CloudServer.ObjectBytes

open List

abbrev Bytes := List UInt8

structure NdArray (δ : Type) (itemsize : δ → ℕ) where
  dtype : δ
  shape : List ℕ
  bytes : Bytes
  size : bytes.length = shape.prod * itemsize dtype

structure Entry (δ : Type) where
  name : String
  dtype : δ
  shape : List ℕ

structure Header (δ μ : Type) where
  a : List (Entry δ)
  m : μ

structure Lib (δ μ : Type) where
  itemsize : δ → ℕ
  noMeta : μ
  dumps : Header δ μ → Bytes
  loads : Bytes → Option (Header δ μ)
  compress : Bytes → Bytes
  decompress : Bytes → Option Bytes
  sha256 : Bytes → String

section
variable {δ μ : Type} (lib : Lib δ μ)

abbrev Lib.Array (lib : Lib δ μ) := NdArray δ lib.itemsize

def header (arrays : Dict String lib.Array) (info : Option μ) : Header δ μ :=
  ⟨arrays.items.map fun e => ⟨e.1, e.2.dtype, e.2.shape⟩, info.getD lib.noMeta⟩

end

section
variable {δ μ : Type} {lib : Lib δ μ}

theorem NdArray.ext {itemsize : δ → ℕ} {a b : NdArray δ itemsize} (hd : a.dtype = b.dtype)
    (hs : a.shape = b.shape) (hb : a.bytes = b.bytes) : a = b := by
  cases a
  cases b
  cases hd
  cases hs
  cases hb
  rfl

end

end CloudServer.ObjectBytes
