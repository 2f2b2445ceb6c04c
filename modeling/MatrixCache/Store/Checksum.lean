/-
# `MatrixCache.Store.Checksum` — the checksum of a cache record

`crc32c_with_seed` runs a shift register over the bytes.  A register that is injective and
linear tells any two strings apart that differ in no more bytes side by side than it holds.
-/
import MatrixCache.Lib.LittleEndian
import MatrixCache.Lib.Register
import MatrixCache.Lib.Text

namespace MatrixCache.Store

open Lib List

/-- The bits of `0x82f6_3b78`, the Castagnoli polynomial. -/
def castagnoli : BitVec 32 := 0x82f63b78

/-- `*byte as u32`. -/
def word (byte : UInt8) : BitVec 32 := byte.toBitVec.setWidth 32

/-- One byte goes in, and the register turns eight times. -/
def crcByte (crc : BitVec 32) (byte : UInt8) : BitVec 32 :=
  (shift castagnoli)^[8] (crc ^^^ word byte)

def crc32cWithSeed (bytes : List UInt8) (seed : BitVec 32) : BitVec 32 :=
  ~~~ bytes.foldl crcByte (~~~ seed)

def crc32c (bytes : List UInt8) : BitVec 32 := crc32cWithSeed bytes 0

namespace MemStorage

/-- The header: both lengths as `u32`, the low four bytes of each. -/
def lengths (key : String) (value : List UInt8) : List UInt8 :=
  leBytes 4 value.length ++ leBytes 4 key.utf8ByteSize

def computeCrc (key : String) (value : List UInt8) : BitVec 32 :=
  crc32cWithSeed (utf8Bytes key) (crc32cWithSeed value (crc32c (lengths key value)))

def doPut (key : String) (value : List UInt8) : List UInt8 :=
  lengths key value ++ value ++ utf8Bytes key

end MemStorage

theorem shifts_injective : Function.Injective (shift castagnoli)^[8] :=
  (shift_injective (by decide)).iterate 8

theorem toNat_word (byte : UInt8) : (word byte).toNat = byte.toNat := by
  rw [word, BitVec.toNat_setWidth]
  exact Nat.mod_eq_of_lt (byte.toNat_lt.trans (by decide))

theorem crc32cWithSeed_append (a b : List UInt8) (seed : BitVec 32) :
    crc32cWithSeed b (crc32cWithSeed a seed) = crc32cWithSeed (a ++ b) seed := by
  rw [crc32cWithSeed, crc32cWithSeed, BitVec.not_not, crc32cWithSeed, foldl_append]

theorem foldl_crcByte_injective {a : List UInt8} {crc crc' : BitVec 32}
    (h : a.foldl crcByte crc = a.foldl crcByte crc') : crc = crc' := by
  induction a generalizing crc crc' with
  | nil => exact h
  | cons byte a ih => exact (BitVec.xor_left_inj _).mp (shifts_injective (ih h))

/-- The register holds four bytes: where it ends the same but for those still to come, the same
bytes went in. -/
theorem eq_of_foldl_close {u v : List UInt8} {crc : BitVec 32} {k : Nat} (hl : u.length = v.length)
    (hk : u.length + k ≤ 4)
    (hc : (u.foldl crcByte crc ^^^ v.foldl crcByte crc).toNat < 2 ^ (8 * k)) : u = v := by
  -- from the last byte on: the difference before it is the one behind it, a byte further up
  induction u using reverseRecOn generalizing v k with
  | nil => exact (length_eq_zero_iff.mp hl.symm).symm
  | append_singleton u x ih =>
    obtain rfl | ⟨v, y, rfl⟩ := eq_nil_or_concat' v
    · simp at hl
    simp only [length_append, length_singleton] at hl hk
    rw [foldl_concat, foldl_concat, crcByte, crcByte, ← shift_iterate_xor] at hc
    set d := u.foldl crcByte crc ^^^ word x ^^^ (v.foldl crcByte crc ^^^ word y) with hd
    have hm : 2 ^ (8 * k) ≤ 2 ^ 24 := Nat.pow_le_pow_right (by decide) (by omega)
    have ha : ((shift castagnoli)^[8] d) <<< 8 = d :=
      shifts_injective (shift_iterate_shiftLeft (by decide) (hc.trans_le hm))
    have hu : d.toNat = ((shift castagnoli)^[8] d).toNat * 2 ^ 8 := by
      conv_lhs => rw [← ha]
      rw [BitVec.toNat_shiftLeft, Nat.shiftLeft_eq, Nat.mod_eq_of_lt (by omega)]
    have hw : (word x ^^^ word y).toNat < 2 ^ 8 := by
      rw [BitVec.toNat_xor, toNat_word, toNat_word]
      exact Nat.xor_lt_two_pow x.toNat_lt y.toNat_lt
    have hb : u.foldl crcByte crc ^^^ v.foldl crcByte crc = d ^^^ (word x ^^^ word y) := by
      ext i hi
      simp only [hd, BitVec.getElem_xor]
      cases (word x)[i] <;> cases (word y)[i] <;> simp
    obtain rfl : u = v := by
      refine ih (by omega) (k := k + 1) (by omega) ?_
      rw [hb, BitVec.toNat_xor]
      refine Nat.xor_lt_two_pow ?_ (hw.trans_le (Nat.pow_le_pow_right (by decide) (by omega)))
      rw [Nat.mul_succ, Nat.pow_add]
      omega
    rw [BitVec.xor_self] at hb
    have hs : d = word x ^^^ word y := BitVec.xor_eq_zero_iff.mp hb.symm
    rw [← hs] at hw
    have hz : d = 0 := BitVec.eq_of_toNat_eq (by simp; omega)
    have ho := congrArg BitVec.toNat (BitVec.xor_eq_zero_iff.mp (hs.symm.trans hz))
    rw [toNat_word, toNat_word] at ho
    rw [UInt8.toNat_inj.mp ho]

/-- Chaining a seed, the checksum of a record, and the strings that no checksum confuses: those that
differ inside four bytes side by side. -/
theorem crc32c_law :
    (∀ seed a b, crc32cWithSeed b (crc32cWithSeed a seed) = crc32cWithSeed (a ++ b) seed) ∧
    (∀ key value, MemStorage.computeCrc key value = crc32c (MemStorage.doPut key value)) ∧
    ∀ seed (front u v back : List UInt8), u.length = v.length → u.length ≤ 4 → u ≠ v →
      crc32cWithSeed (front ++ u ++ back) seed ≠ crc32cWithSeed (front ++ v ++ back) seed := by
  refine ⟨fun seed a b => crc32cWithSeed_append a b seed, fun key value => ?_, ?_⟩
  · rw [MemStorage.computeCrc, MemStorage.doPut, crc32c, crc32c, crc32cWithSeed_append,
      crc32cWithSeed_append, append_assoc]
  · intro seed front u v back hl hle hne heq
    have hf := BitVec.not_inj.mp heq
    simp only [foldl_append] at hf
    have hs := foldl_crcByte_injective hf
    exact hne (eq_of_foldl_close (k := 0) hl hle (by rw [hs, BitVec.xor_self]; decide))

end MatrixCache.Store
