import Mathlib.Data.List.Basic

/-! `HASH`, the 128-bit x64 murmur3 of `github.com/spaolacci/murmur3` with seed 0 (`Sum128`). Go's
`uint64` arithmetic wraps, as `UInt64`'s does. -/

set_option autoImplicit false

namespace ContainerFs.Image

/-- The bytes of `[]byte(s)`: the UTF-8 encoding of `s`. -/
def bytes (s : String) : List UInt8 := s.toUTF8.data.toList

namespace Murmur3

def c1 : UInt64 := 0x87c37b91114253d5

def c2 : UInt64 := 0x4cf5ad432745937f

/-- `bits.RotateLeft64`, for `0 < k < 64`. -/
def rotateLeft64 (x k : UInt64) : UInt64 := x <<< k ||| x >>> (64 - k)

def le64 : List UInt8 → UInt64
  | [] => 0
  | b :: bs => b.toUInt64 ||| le64 bs <<< 8

def mixK1 (k1 : UInt64) : UInt64 := rotateLeft64 (k1 * c1) 31 * c2

def mixK2 (k2 : UInt64) : UInt64 := rotateLeft64 (k2 * c2) 33 * c1

/-- `bmix`: the first `n` 16-byte blocks of `p`, folded into `(h1, h2)`. -/
def bmix : Nat → UInt64 × UInt64 → List UInt8 → UInt64 × UInt64
  | 0, h, _ => h
  | n + 1, (h1, h2), p =>
    let h1 := (rotateLeft64 (h1 ^^^ mixK1 (le64 (p.take 8))) 27 + h2) * 5 + 0x52dce729
    let h2 := (rotateLeft64 (h2 ^^^ mixK2 (le64 ((p.drop 8).take 8))) 31 + h1) * 5 + 0x38495ab5
    bmix n (h1, h2) (p.drop 16)

def fmix64 (k : UInt64) : UInt64 :=
  let k := (k ^^^ k >>> 33) * 0xff51afd7ed558ccd
  let k := (k ^^^ k >>> 33) * 0xc4ceb9fe1a85ec53
  k ^^^ k >>> 33

/-- `Sum128`: the blocks, then the tail, then the length and the final mix. -/
def sum128 (data : List UInt8) : UInt64 × UInt64 :=
  let (h1, h2) := bmix (data.length / 16) (0, 0) data
  let tail := data.drop (data.length / 16 * 16)
  let h2 := if 8 < tail.length then h2 ^^^ mixK2 (le64 (tail.drop 8)) else h2
  let h1 := if 0 < tail.length then h1 ^^^ mixK1 (le64 (tail.take 8)) else h1
  let h1 := h1 ^^^ data.length.toUInt64
  let h2 := h2 ^^^ data.length.toUInt64
  let h1 := h1 + h2
  let h2 := h2 + h1
  let h1 := fmix64 h1
  let h2 := fmix64 h2
  let h1 := h1 + h2
  (h1, h2 + h1)

example : sum128 (bytes "") = (0, 0) := by decide

example : sum128 (bytes "hello") = (0xcbd8a7b341bd9b02, 0x5b1e906a48ae1d19) := by decide

example : sum128 (bytes "The quick brown fox jumps over the lazy dog.") =
    (0xcd99481f9ee902c9, 0x695da1a38987b6e7) := by decide

end Murmur3

end ContainerFs.Image
