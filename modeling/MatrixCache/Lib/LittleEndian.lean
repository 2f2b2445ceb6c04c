/-
# `MatrixCache.Lib.LittleEndian` — numbers as bytes, least significant first
-/
import Mathlib.Algebra.Order.Ring.Nat
import Mathlib.Tactic.Ring

namespace MatrixCache.Lib

/-- The `width` low bytes of `n`. -/
def leBytes : Nat → Nat → List UInt8
  | 0, _ => []
  | width + 1, n => UInt8.ofNat n :: leBytes width (n / 256)

/-- The number some bytes spell. -/
def leNat : List UInt8 → Nat
  | [] => 0
  | b :: bs => b.toNat + 256 * leNat bs

@[simp] theorem length_leBytes (width n : Nat) : (leBytes width n).length = width := by
  induction width generalizing n with
  | zero => rfl
  | succ width ih => simp [leBytes, ih]

theorem leNat_leBytes (width n : Nat) : leNat (leBytes width n) = n % 256 ^ width := by
  induction width generalizing n with
  | zero => simp [leBytes, leNat, Nat.mod_one]
  | succ width ih =>
    have hb : (UInt8.ofNat n).toNat = n % 256 := UInt8.toNat_ofNat'
    rw [leBytes, leNat, ih, hb, pow_succ', Nat.mod_mul]

theorem leNat_lt (bs : List UInt8) : leNat bs < 256 ^ bs.length := by
  induction bs with
  | nil => simp [leNat]
  | cons b bs ih =>
    have hb : b.toNat < 256 := b.toNat_lt
    rw [leNat, List.length_cons, pow_succ']
    omega

theorem leNat_leBytes_of_lt {w n : Nat} (h : n < 256 ^ w) :
    leNat (leBytes w n) = n := by
  rw [leNat_leBytes, Nat.mod_eq_of_lt h]

theorem leBytes_leNat (bs : List UInt8) : leBytes bs.length (leNat bs) = bs := by
  induction bs with
  | nil => rfl
  | cons b bs ih =>
    have hb := b.toNat_lt
    rw [leNat, List.length_cons, leBytes]
    have hl : UInt8.ofNat (b.toNat + 256 * leNat bs) = b := by
      rw [← UInt8.toNat_inj, UInt8.toNat_ofNat']
      omega
    rw [hl, show (b.toNat + 256 * leNat bs) / 256 = leNat bs by omega, ih]

theorem leBytes_inj {w n m : Nat} (hn : n < 256 ^ w) (hm : m < 256 ^ w)
    (h : leBytes w n = leBytes w m) : n = m := by
  rw [← leNat_leBytes_of_lt hn, h, leNat_leBytes_of_lt hm]

/-! ## Frames -/

/-- Some bytes behind their length. -/
def frame (width : Nat) (bs : List UInt8) : List UInt8 := leBytes width bs.length ++ bs

theorem frame_inj {w : Nat} {bs bs' rest rest' : List UInt8} (hb : bs.length < 256 ^ w)
    (hb' : bs'.length < 256 ^ w) (h : frame w bs ++ rest = frame w bs' ++ rest') :
    bs = bs' ∧ rest = rest' := by
  rw [frame, frame, List.append_assoc, List.append_assoc] at h
  obtain ⟨hl, ht⟩ := List.append_inj h (by rw [length_leBytes, length_leBytes])
  exact List.append_inj ht (leBytes_inj hb hb' hl)

end MatrixCache.Lib
