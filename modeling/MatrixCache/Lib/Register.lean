/-
# `MatrixCache.Lib.Register` — a shift register

One step moves a word down by a bit and, when the bit that falls out is set, adds the
polynomial.  The step is linear over exclusive or, it is injective when the polynomial has its
top bit, and a word that was moved up within its width comes back.
-/
import Mathlib.Data.BitVec
import Mathlib.Logic.Function.Iterate

namespace MatrixCache.Lib

variable {w : Nat} (p x y : BitVec w)

/-- The mask has every bit set when the low bit of `x` is. -/
def shift : BitVec w := (x >>> 1) ^^^ (p &&& (0 - (x &&& 1)))

theorem getLsbD_mask {i : Nat} (hi : i < w) : (0 - (x &&& 1)).getLsbD i = x.getLsbD 0 := by
  have hl : x &&& 1 = if x.getLsbD 0 then 1 else 0 := by
    ext j hj
    by_cases hz : j = 0
    · subst hz
      cases hb : x.getLsbD 0 <;> simp_all
    · cases hb : x.getLsbD 0 <;> simp [hz]
  rw [hl]
  cases x.getLsbD 0 with
  | false => simp
  | true => simp [BitVec.neg_one_eq_allOnes, hi]

theorem getLsbD_shift {i : Nat} (hi : i < w) :
    (shift p x).getLsbD i = (x.getLsbD (i + 1) ^^ (p.getLsbD i && x.getLsbD 0)) := by
  rw [shift, BitVec.getLsbD_xor, BitVec.getLsbD_and, getLsbD_mask x hi, BitVec.getLsbD_ushiftRight,
    Nat.add_comm]

theorem shift_xor : shift p (x ^^^ y) = shift p x ^^^ shift p y := by
  ext i hi
  simp only [← BitVec.getLsbD_eq_getElem, BitVec.getLsbD_xor, getLsbD_shift _ _ hi]
  cases x.getLsbD (i + 1) <;> cases x.getLsbD 0 <;> cases p.getLsbD i <;> simp

variable {p x}

theorem shift_injective (hp : p.msb = true) : Function.Injective (shift p) := by
  intro x y h
  have hb : ∀ i < w, (x.getLsbD (i + 1) ^^ (p.getLsbD i && x.getLsbD 0)) =
      (y.getLsbD (i + 1) ^^ (p.getLsbD i && y.getLsbD 0)) := by
    intro i hi
    rw [← getLsbD_shift p x hi, ← getLsbD_shift p y hi, h]
  have ho : 0 < w := by
    by_contra hz
    obtain rfl : w = 0 := by omega
    simp [BitVec.msb_eq_getLsbD_last] at hp
  -- only the polynomial reaches the top bit, so it shows the bit that fell out
  have hz : x.getLsbD 0 = y.getLsbD 0 := by
    have ht := hb (w - 1) (by omega)
    rw [BitVec.msb_eq_getLsbD_last] at hp
    simpa [Nat.sub_add_cancel ho, hp] using ht
  refine BitVec.eq_of_getLsbD_eq fun i hi => ?_
  cases i with
  | zero => exact hz
  | succ i =>
    have hn := hb i (by omega)
    rw [hz] at hn
    exact Bool.xor_left_inj.mp hn

theorem shift_shiftLeft (hx : x.msb = false) : shift p (x <<< 1) = x := by
  refine BitVec.eq_of_getLsbD_eq fun i hi => ?_
  rw [getLsbD_shift _ _ hi]
  by_cases hl : i + 1 < w
  · simp [hl, BitVec.getLsbD_eq_getElem hi]
  · obtain rfl : i = w - 1 := by omega
    rw [BitVec.msb_eq_getLsbD_last] at hx
    simp [hx, Nat.sub_add_cancel (Nat.zero_lt_of_lt hi)]

theorem shift_iterate_xor (n : Nat) (x y : BitVec w) :
    (shift p)^[n] (x ^^^ y) = (shift p)^[n] x ^^^ (shift p)^[n] y := by
  induction n generalizing x y with
  | zero => rfl
  | succ n ih => rw [Function.iterate_succ_apply, shift_xor, ih]; rfl

theorem shift_iterate_shiftLeft {n : Nat} (hn : n ≤ w) (hx : x.toNat < 2 ^ (w - n)) :
    (shift p)^[n] (x <<< n) = x := by
  induction n with
  | zero => exact BitVec.shiftLeft_zero x
  | succ n ih =>
    have hw : 2 ^ (w - n) = 2 ^ (w - (n + 1)) * 2 := by
      rw [← pow_succ]
      congr 1
      omega
    have ht : (x <<< n).msb = false := by
      rw [BitVec.msb_eq_false_iff_two_mul_lt, BitVec.toNat_shiftLeft, Nat.shiftLeft_eq]
      have hle := Nat.mod_le (x.toNat * 2 ^ n) (2 ^ w)
      have hp : 2 ^ w = 2 ^ (w - n) * 2 ^ n := by rw [← pow_add]; congr 1; omega
      have hlt := Nat.mul_lt_mul_of_pos_right hx (Nat.two_pow_pos n)
      rw [hw, Nat.mul_right_comm] at hp
      omega
    rw [Function.iterate_succ_apply, BitVec.shiftLeft_add, shift_shiftLeft ht]
    exact ih (by omega) (by omega)

end MatrixCache.Lib
