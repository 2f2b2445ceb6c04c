/-
# `MatrixCache.Lib.Text` — strings and numbers as bytes of a file
-/
import Mathlib.Data.String.Basic

namespace MatrixCache.Lib

/-- `str::as_bytes`. -/
def utf8Bytes (s : String) : List UInt8 := s.toByteArray.data.toList

/-- `str::from_utf8`. -/
def fromUtf8 (bs : List UInt8) : Option String := String.fromUTF8? ⟨bs.toArray⟩

/-- Whether `b0 b1` can begin a character of three bytes. -/
def beginsThree (b0 b1 : UInt8) : Bool :=
  b0 == 0xE0 && 0xA0 ≤ b1 && b1 ≤ 0xBF || 0xE1 ≤ b0 && b0 ≤ 0xEC && 0x80 ≤ b1 && b1 ≤ 0xBF ||
    b0 == 0xED && 0x80 ≤ b1 && b1 ≤ 0x9F || 0xEE ≤ b0 && b0 ≤ 0xEF && 0x80 ≤ b1 && b1 ≤ 0xBF

/-- Whether `b0 b1` can begin a character of four bytes. -/
def beginsFour (b0 b1 : UInt8) : Bool :=
  b0 == 0xF0 && 0x90 ≤ b1 && b1 ≤ 0xBF || 0xF1 ≤ b0 && b0 ≤ 0xF3 && 0x80 ≤ b1 && b1 ≤ 0xBF ||
    b0 == 0xF4 && 0x80 ≤ b1 && b1 ≤ 0x8F

/-- How many bytes one replacement character stands for: the longest beginning of a character. -/
def brokenLength : List UInt8 → Nat
  | b0 :: b1 :: b2 :: _ =>
    if beginsFour b0 b1 && 0x80 ≤ b2 && b2 ≤ 0xBF then 3
    else if beginsThree b0 b1 || beginsFour b0 b1 then 2 else 1
  | [b0, b1] => if beginsThree b0 b1 || beginsFour b0 b1 then 2 else 1
  | _ => 1

/-- The character at the front and how many bytes it takes, if there is one. -/
def frontChar (bs : List UInt8) : Option (List Char × Nat) :=
  [1, 2, 3, 4].findSome? fun n =>
    if n ≤ bs.length then (fromUtf8 (bs.take n)).map fun s => (s.toList, n) else none

def lossyChars : Nat → List UInt8 → List Char
  | 0, _ => []
  | _, [] => []
  | fuel + 1, bs =>
    match frontChar bs with
    | some (c, n) => c ++ lossyChars fuel (bs.drop n)
    | none => Char.ofNat 0xFFFD :: lossyChars fuel (bs.drop (brokenLength bs))

/-- `String::from_utf8_lossy`: text as it is, and a replacement character for what is none. -/
def fromUtf8Lossy (bs : List UInt8) : String :=
  (fromUtf8 bs).getD (String.ofList (lossyChars bs.length bs))

theorem fromUtf8_utf8Bytes (s : String) : fromUtf8 (utf8Bytes s) = some s := by
  have hb : (⟨(utf8Bytes s).toArray⟩ : ByteArray) = s.toByteArray := by
    rw [utf8Bytes, Array.toArray_toList]
  rw [fromUtf8, hb, String.fromUTF8?, dif_pos s.isValidUTF8]
  rfl

@[simp] theorem fromUtf8Lossy_utf8Bytes (s : String) : fromUtf8Lossy (utf8Bytes s) = s := by
  rw [fromUtf8Lossy, fromUtf8_utf8Bytes, Option.getD_some]

theorem utf8Bytes_inj {s s' : String} (h : utf8Bytes s = utf8Bytes s') : s = s' := by
  have hs := fromUtf8_utf8Bytes s
  rw [h, fromUtf8_utf8Bytes] at hs
  exact (Option.some.inj hs).symm

theorem utf8EncodeChar_ascii {b : UInt8} (h : b.toNat < 128) :
    String.utf8EncodeChar (Char.ofNat b.toNat) = [b] := by
  have hv : b.toNat.isValidChar := .inl (by omega)
  have ha : (Char.ofNat b.toNat).val.toNat = b.toNat := by
    change (Char.ofNat b.toNat).toNat = b.toNat
    rw [Char.ofNat, dif_pos hv]
    rfl
  rw [String.utf8EncodeChar, ha]
  rw [if_pos (by omega), UInt8.ofNat_toNat]

theorem isSome_fromUtf8_of_ascii {bs : List UInt8} (h : ∀ b ∈ bs, b.toNat < 128) :
    (fromUtf8 bs).isSome := by
  have he : (bs.map fun b => Char.ofNat b.toNat).flatMap String.utf8EncodeChar = bs := by
    rw [List.flatMap_map]
    have ho : ∀ b ∈ bs, String.utf8EncodeChar (Char.ofNat b.toNat) = [b] :=
      fun b hb => utf8EncodeChar_ascii (h b hb)
    rw [List.flatMap_congr ho, List.flatMap_singleton']
  have hv : (⟨bs.toArray⟩ : ByteArray).IsValidUTF8 := by
    refine ⟨bs.map fun b => Char.ofNat b.toNat, ?_⟩
    rw [List.utf8Encode, he]
    exact ByteArray.ext (List.data_toByteArray).symm
  rw [fromUtf8, String.fromUTF8?, dif_pos hv]
  rfl

/-! ## Decimal numbers -/

theorem repr_injective : Function.Injective Nat.repr := by
  intro i j h
  have ht := congrArg (Nat.ofDigitChars 10 ·.toList 0) h
  simpa only [Nat.toList_repr, Nat.ofDigitChars_ten_toDigits] using ht

theorem repr_ne {n : Nat} {s : String} {c : Char} (hc : c ∈ s.toList) (hd : ¬ c.isDigit) :
    n.repr ≠ s := by
  rintro rfl
  rw [Nat.toList_repr] at hc
  exact hd (Nat.isDigit_of_mem_toDigits (by decide) (by decide) hc)

theorem utf8ByteSize_repr_le {n k : Nat} (h : n < 10 ^ (k + 1)) : n.repr.utf8ByteSize ≤ k + 1 := by
  have hd : ∀ n < 10, n.repr.utf8ByteSize = 1 := by decide +kernel
  induction k generalizing n with
  | zero => exact (hd n h).le
  | succ k ih =>
    by_cases hs : n < 10
    · have hn := hd n hs
      omega
    · rw [Nat.repr_eq_repr_append_repr (Nat.not_lt.1 hs), String.utf8ByteSize_append,
        hd _ (Nat.mod_lt n (by decide))]
      exact Nat.add_le_add_right (ih (Nat.div_lt_of_lt_mul (by rwa [← Nat.pow_succ']))) 1

end MatrixCache.Lib
