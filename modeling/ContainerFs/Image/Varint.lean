import ContainerFs.Image.Bloom

/-! The varints of `encoding/binary` in Go 1.12, as the image generator writes and reads its
header's location. `uint64` arithmetic wraps as `UInt64`'s does; a Go shift by 64 or more gives 0,
where `UInt64`'s shift takes its count modulo 64, so that shift is written out. -/

set_option autoImplicit false

namespace ContainerFs.Image.Binary

def maxVarintLen64 : Nat := 10

/-- `overflow`, the error `ReadUvarint` returns for a varint longer than 64 bits. -/
def overflow : String := "binary: varint overflows a 64-bit integer"

/-- `uint64(x)` of an `int64` `x`: its two's-complement bits. -/
def ofInt64 (x : Int) : UInt64 := (x % 18446744073709551616).toNat.toUInt64

/-- `x << s` on `uint64`: a shift by 64 or more gives 0. -/
def shl (x : UInt64) (s : Nat) : UInt64 := if s < 64 then x <<< s.toUInt64 else 0

/-! ## `uint64` and `byte` operations on their values -/

section Words

theorem toNat_or (a b : UInt64) : (a ||| b).toNat = a.toNat ||| b.toNat := BitVec.toNat_or ..

theorem toNat_not (x : UInt64) : (~~~x).toNat = 2 ^ 64 - 1 - x.toNat := BitVec.toNat_not

theorem toNat_shr (x : UInt64) (s : Nat) (hs : s < 64) :
    (x >>> s.toUInt64).toNat = x.toNat / 2 ^ s := by
  show (x.toBitVec >>> (UInt64.mod s.toUInt64 64).toBitVec).toNat = _
  rw [BitVec.ushiftRight_eq', BitVec.toNat_ushiftRight, Nat.shiftRight_eq_div_pow]
  show x.toNat / 2 ^ (s % 2 ^ 64 % 64) = _
  rw [Nat.mod_eq_of_lt (by omega : s < 2 ^ 64), Nat.mod_eq_of_lt hs]

theorem toNat_shl (x : UInt64) (s : Nat) (hs : s < 64) :
    (x <<< s.toUInt64).toNat = x.toNat * 2 ^ s % 2 ^ 64 := by
  show (x.toBitVec <<< (UInt64.mod s.toUInt64 64).toBitVec).toNat = _
  rw [BitVec.shiftLeft_eq', BitVec.toNat_shiftLeft, Nat.shiftLeft_eq]
  show x.toNat * 2 ^ (s % 2 ^ 64 % 64) % 2 ^ 64 = _
  rw [Nat.mod_eq_of_lt (by omega : s < 2 ^ 64), Nat.mod_eq_of_lt hs]

@[simp] theorem toNat_toUInt8 (x : UInt64) : x.toUInt8.toNat = x.toNat % 256 := rfl

@[simp] theorem toNat_toUInt64 (b : UInt8) : b.toUInt64.toNat = b.toNat := rfl

@[simp] theorem toNat_ofInt64 (x : Int) : ((ofInt64 x).toNat : Int) = x % 18446744073709551616 := by
  have := Int.emod_nonneg x (by decide : (18446744073709551616 : Int) ≠ 0)
  have := Int.emod_lt_of_pos x (by decide : (0 : Int) < 18446744073709551616)
  simp only [ofInt64, Nat.toUInt64, UInt64.toNat, UInt64.ofNat, BitVec.toNat_ofNat]
  omega

theorem le_0x80_iff (x : UInt64) : 0x80 ≤ x ↔ 128 ≤ x.toNat := Iff.rfl

theorem lt_0x80_iff (b : UInt8) : b < 0x80 ↔ b.toNat < 128 := Iff.rfl

theorem one_lt_iff (b : UInt8) : 1 < b ↔ 1 < b.toNat := Iff.rfl

theorem eq_iff_toNat_eq (a b : UInt64) : a = b ↔ a.toNat = b.toNat :=
  ⟨congrArg UInt64.toNat, UInt64.toNat.inj⟩

theorem toNat_or_0x80 (b : UInt8) : (b ||| 0x80).toNat = b.toNat % 128 + 128 := by
  have high : b.toNat / 128 = 0 ∨ b.toNat / 128 = 1 := by
    have : b.toNat < 256 := b.toBitVec.isLt
    omega
  have low : b.toNat % 128 < 2 ^ 7 := Nat.mod_lt _ (by decide)
  have split : b.toNat = 2 ^ 7 * (b.toNat / 128) ||| b.toNat % 128 := by
    rw [← Nat.mul_add_lt_is_or low]; omega
  show b.toNat ||| 2 ^ 7 * 1 = _
  generalize b.toNat % 128 = r at split low ⊢
  rcases high with h | h <;> rw [h] at split <;> rw [split]
  · rw [Nat.mul_zero, Nat.zero_or, Nat.or_comm, ← Nat.mul_add_lt_is_or low]; omega
  · rw [Nat.or_assoc, Nat.or_comm r, ← Nat.or_assoc, Nat.or_self, ← Nat.mul_add_lt_is_or low]
    omega

theorem toNat_and_0x7f (b : UInt8) : (b &&& 0x7f).toNat = b.toNat % 128 :=
  Nat.and_pow_two_sub_one_eq_mod b.toNat 7

theorem toNat_or_shl (x v : UInt64) (s : Nat) (hs : s < 64) (low : x.toNat < 2 ^ s)
    (fit : x.toNat + 2 ^ s * v.toNat < 2 ^ 64) :
    (x ||| shl v s).toNat = x.toNat + 2 ^ s * v.toNat := by
  rw [shl, if_pos hs, toNat_or, toNat_shl v s hs, Nat.mul_comm, Nat.mod_eq_of_lt (by omega),
    Nat.or_comm, ← Nat.mul_add_lt_is_or low, Nat.add_comm]

end Words

/-! ## Writing -/

/-- `PutUvarint`: the bytes it writes at the head of its buffer. -/
def putUvarint (x : UInt64) : List UInt8 :=
  if 0x80 ≤ x then (x.toUInt8 ||| 0x80) :: putUvarint (x >>> 7) else [x.toUInt8]
termination_by x.toNat
decreasing_by
  rw [show (x >>> 7).toNat = x.toNat / 2 ^ 7 from toNat_shr x 7 (by decide)]
  rw [le_0x80_iff] at *
  omega

/-- `PutVarint`: `x`'s bits shifted up one, complemented when negative, then `PutUvarint`. -/
def putVarint (x : Int) : List UInt8 :=
  let ux := ofInt64 x <<< 1
  putUvarint (if x < 0 then ~~~ux else ux)

/-- The buffer `WriteInt64` writes: `MaxVarintLen64` zero bytes, the varint at its head. -/
def varintBuffer (v : Int) : List UInt8 :=
  putVarint v ++ List.replicate (maxVarintLen64 - (putVarint v).length) 0

/-! ## Reading -/

/-- The loop of `ReadUvarint` from value `x`, shift `s` and count `i`. -/
def readUvarintLoop (x : UInt64) (s i : Nat) : List UInt8 → Except String UInt64
  | [] => .error "EOF"
  | b :: r =>
    if b < 0x80 then
      if 9 < i ∨ i = 9 ∧ 1 < b then .error overflow else .ok (x ||| shl b.toUInt64 s)
    else readUvarintLoop (x ||| shl (b &&& 0x7f).toUInt64 s) (s + 7) (i + 1) r

def readUvarint (r : List UInt8) : Except String UInt64 := readUvarintLoop 0 0 0 r

/-- `ReadVarint`: `ux >> 1`, complemented when the low bit of `ux` is set. -/
def readVarint (r : List UInt8) : Except String Int :=
  (readUvarint r).map fun (ux : UInt64) =>
    let x := toInt64 (ux >>> 1)
    if ux &&& 1 ≠ 0 then -x - 1 else x

/-! ## Reading back what was written -/

theorem putUvarint_small {u : UInt64} (small : u.toNat < 128) : putUvarint u = [u.toUInt8] := by
  rw [putUvarint.eq_1, if_neg ((le_0x80_iff u).not.mpr (Nat.not_le.mpr small))]

theorem putUvarint_large {u : UInt64} (large : 128 ≤ u.toNat) :
    putUvarint u = (u.toUInt8 ||| 0x80) :: putUvarint (u >>> 7) := by
  rw [putUvarint.eq_1, if_pos ((le_0x80_iff u).mpr large)]

theorem length_putUvarint (u : UInt64) (k : Nat) (fits : u.toNat < 128 ^ (k + 1)) :
    (putUvarint u).length ≤ k + 1 := by
  induction u using putUvarint.induct generalizing k with
  | case1 u large ih =>
    rw [le_0x80_iff] at large
    have shr : (u >>> 7).toNat = u.toNat / 128 := toNat_shr u 7 (by decide)
    obtain _ | k := k
    · omega
    have := ih k (by rw [shr, Nat.div_lt_iff_lt_mul (by decide), ← Nat.pow_succ]; exact fits)
    rw [putUvarint_large large, List.length_cons]
    omega
  | case2 u small =>
    rw [le_0x80_iff, Nat.not_le] at small
    rw [putUvarint_small small, List.length_singleton]
    omega

theorem length_putVarint (x : Int) : (putVarint x).length ≤ maxVarintLen64 :=
  length_putUvarint _ 9 (Nat.lt_trans (UInt64.toNat_lt_size _) (by decide))

theorem varintBuffer_eq (v : Int) :
    ∃ pad, varintBuffer v = putVarint v ++ pad ∧ (varintBuffer v).length = maxVarintLen64 := by
  refine ⟨_, rfl, ?_⟩
  have := length_putVarint v
  simp only [varintBuffer, List.length_append, List.length_replicate]
  omega

theorem readUvarintLoop_putUvarint (rest : List UInt8) (u : UInt64) :
    ∀ (x : UInt64) (i : Nat), i ≤ 9 → x.toNat < 2 ^ (7 * i) →
      x.toNat + 2 ^ (7 * i) * u.toNat < 2 ^ 64 →
      readUvarintLoop x (7 * i) i (putUvarint u ++ rest) =
        .ok (UInt64.ofNat (x.toNat + 2 ^ (7 * i) * u.toNat)) := by
  induction u using putUvarint.induct with
  | case1 u large ih =>
    intro x i le low fit
    rw [le_0x80_iff] at large
    have shr : (u >>> 7).toNat = u.toNat / 128 := toNat_shr u 7 (by decide)
    have byte : (u.toUInt8 ||| 0x80).toNat = u.toNat % 128 + 128 := by
      rw [toNat_or_0x80, toNat_toUInt8]; omega
    have group : ((u.toUInt8 ||| 0x80) &&& 0x7f).toUInt64.toNat = u.toNat % 128 := by
      rw [toNat_toUInt64, toNat_and_0x7f, byte]; omega
    have lt9 : i < 9 := by
      rcases Nat.lt_or_ge i 9 with lt | ge
      · exact lt
      · have : i = 9 := by omega
        subst this
        rw [show 2 ^ (7 * 9) = 9223372036854775808 from rfl] at fit
        omega
    have mul_le : 2 ^ (7 * i) * (u.toNat % 128) ≤ 2 ^ (7 * i) * 127 :=
      Nat.mul_le_mul_left _ (by omega)
    have split : 2 ^ (7 * i) * u.toNat =
        2 ^ (7 * i) * (u.toNat % 128) + 2 ^ (7 * (i + 1)) * (u.toNat / 128) := by
      rw [Nat.mul_add 7 i 1, Nat.pow_add, Nat.mul_assoc, ← Nat.mul_add, Nat.mod_add_div]
    have acc := toNat_or_shl x _ (7 * i) (by omega) low (by rw [group]; omega)
    rw [group] at acc
    rw [putUvarint_large large, List.cons_append, readUvarintLoop,
      if_neg (by rw [lt_0x80_iff, byte]; omega),
      show 7 * i + 7 = 7 * (i + 1) by omega,
      ih _ (i + 1) (by omega) (by rw [acc, Nat.mul_add 7 i 1, Nat.pow_add]; omega)
        (by rw [acc, shr]; omega),
      acc, shr, Nat.add_assoc, ← split]
  | case2 u small =>
    intro x i le low fit
    rw [le_0x80_iff, Nat.not_le] at small
    have byte : u.toUInt8.toNat = u.toNat := by rw [toNat_toUInt8]; omega
    have one : i = 9 → u.toNat ≤ 1 := by
      rintro rfl; rw [show 2 ^ (7 * 9) = 9223372036854775808 from rfl] at fit; omega
    rw [putUvarint_small small, List.singleton_append, readUvarintLoop,
      if_pos (by rw [lt_0x80_iff, byte]; omega), if_neg (by rw [one_lt_iff, byte]; omega)]
    congr 1
    rw [eq_iff_toNat_eq, toNat_or_shl x _ (7 * i) (by omega) low (by rw [toNat_toUInt64, byte]; omega),
      toNat_toUInt64, byte, UInt64.toNat_ofNat_of_lt fit]

theorem readUvarint_putUvarint (u : UInt64) (rest : List UInt8) :
    readUvarint (putUvarint u ++ rest) = .ok u := by
  have := readUvarintLoop_putUvarint rest u 0 0 (by decide) (by decide)
    (by simpa using UInt64.toNat_lt_size u)
  rw [readUvarint, this]
  simp only [UInt64.toNat_zero, Nat.zero_add, Nat.mul_zero, Nat.pow_zero, Nat.one_mul]
  exact congrArg _ ((eq_iff_toNat_eq _ _).mpr (UInt64.toNat_ofNat_of_lt (UInt64.toNat_lt_size u)))

example : putVarint 300 = [0xd8, 0x04] := by
  rw [putVarint, putUvarint_large (by decide), putUvarint_small (by decide)]
  decide

theorem toNat_zigzag (x : Int) (lo : -9223372036854775808 ≤ x) (hi : x < 9223372036854775808) :
    ((if x < 0 then ~~~(ofInt64 x <<< 1) else ofInt64 x <<< 1).toNat : Int) =
      if x < 0 then -2 * x - 1 else 2 * x := by
  have bits := toNat_ofInt64 x
  have shifted : (ofInt64 x <<< 1).toNat = (ofInt64 x).toNat * 2 % 2 ^ 64 :=
    toNat_shl _ 1 (by decide)
  split_ifs with neg
  · rw [toNat_not, shifted]; omega
  · rw [shifted]; omega

/-- `ReadVarint` reads back every `int64` that `PutVarint` wrote, whatever follows. -/
theorem readVarint_putVarint (x : Int) (lo : -9223372036854775808 ≤ x)
    (hi : x < 9223372036854775808) (rest : List UInt8) :
    readVarint (putVarint x ++ rest) = .ok x := by
  have word := toNat_zigzag x lo hi
  rw [readVarint, putVarint, readUvarint_putUvarint]
  generalize (if x < 0 then ~~~(ofInt64 x <<< 1) else ofInt64 x <<< 1) = ux at word ⊢
  have half : toInt64 (ux >>> 1) = ux.toNat / 2 := by
    rw [toInt64, show (ux >>> 1).toNat = ux.toNat / 2 ^ 1 from toNat_shr ux 1 (by decide), wrap64]
    have := UInt64.toNat_lt_size ux
    simp only [UInt64.size] at this
    omega
  have odd : ux &&& 1 ≠ 0 ↔ ux.toNat % 2 = 1 := by
    rw [Ne, eq_iff_toNat_eq, UInt64.and_toNat, show (1 : UInt64).toNat = 1 from rfl,
      Nat.and_one_is_mod, UInt64.toNat_zero]
    omega
  show Except.ok (if ux &&& 1 ≠ 0 then -toInt64 (ux >>> 1) - 1 else toInt64 (ux >>> 1)) = _
  by_cases neg : x < 0
  · rw [if_pos neg] at word
    rw [if_pos (odd.mpr (by omega)), half]
    exact congrArg Except.ok (by omega)
  · rw [if_neg neg] at word
    rw [if_neg fun o => by have := odd.mp o; omega, half]
    exact congrArg Except.ok (by omega)

theorem readVarint_putVarint_negative :
    -9223372036854775808 ≤ (-300 : Int) ∧ (-300 : Int) < 9223372036854775808 ∧
      readVarint (putVarint (-300) ++ [0, 7]) = .ok (-300) :=
  ⟨by decide, by decide, readVarint_putVarint (-300) (by decide) (by decide) [0, 7]⟩

end ContainerFs.Image.Binary
