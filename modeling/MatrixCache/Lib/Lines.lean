/-
# `MatrixCache.Lib.Lines` — text files of lines

Bytes as text: unsigned decimals, hexadecimal, and a file as its lines.  What a
writer puts out reads back (`parseUnsigned_decimal`, `decodeHex_encodeHex`,
`lines_flatMap`), and what a reader accepts is made of the bytes its format allows
(`parseUnsigned_bytes`, `decodeHex_bytes`).
-/
import Mathlib.Data.FinEnum
import Mathlib.Data.List.Basic
import Mathlib.Data.Nat.Log
import MatrixCache.Lib.Text

namespace MatrixCache.Lib

open List

/-! ## Decimals -/

/-- `b'0'..=b'9'`. -/
def IsDigit (b : UInt8) : Prop := 48 ≤ b.toNat ∧ b.toNat ≤ 57

instance : DecidablePred IsDigit :=
  fun b => inferInstanceAs (Decidable (48 ≤ b.toNat ∧ b.toNat ≤ 57))

/-- The digits of a number, the last one first found. -/
def decimal (n : Nat) : List UInt8 := (Nat.toDigits 10 n).map fun c => UInt8.ofNat c.toNat

/-- The digits after an optional sign. -/
def unsigned : List UInt8 → List UInt8
  | 43 :: digits => digits
  | digits => digits

def digitsValue (digits : List UInt8) : Nat := digits.foldl (fun n b => 10 * n + (b.toNat - 48)) 0

theorem digit_digitChar : ∀ d < 10, UInt8.ofNat (Nat.digitChar d).toNat = UInt8.ofNat (48 + d) := by
  decide

theorem decimal_eq_append (n : Nat) :
    decimal n = (if n < 10 then [] else decimal (n / 10)) ++ [UInt8.ofNat (48 + n % 10)] := by
  rw [decimal, Nat.toDigits_eq_if (by decide)]
  split
  · next hlt =>
    rw [Nat.mod_eq_of_lt hlt]
    exact congrArg (fun b => [b]) (digit_digitChar n hlt)
  · rw [map_append, decimal]
    exact congrArg (fun b => _ ++ [b]) (digit_digitChar _ (Nat.mod_lt _ (by decide)))

theorem length_decimal (n : Nat) : (decimal n).length = Nat.log 10 n + 1 := by
  induction n using Nat.strongRecOn with
  | ind n ih =>
    rw [decimal_eq_append, length_append]
    split
    · next hlt => rw [Nat.log_of_lt hlt]; rfl
    · next hge =>
      rw [ih (n / 10) (by omega), Nat.log_div_base]
      have hp : 0 < Nat.log 10 n := Nat.log_pos (by decide) (Nat.le_of_not_lt hge)
      simp only [length_singleton]
      omega

/-- `str::parse` of an unsigned type: an optional `+`, digits, and a value below the bound. -/
def parseUnsigned (bound : Nat) (bs : List UInt8) : Option Nat :=
  if unsigned bs ≠ [] ∧ (∀ b ∈ unsigned bs, IsDigit b) ∧ digitsValue (unsigned bs) < bound then
    some (digitsValue (unsigned bs))
  else none

theorem isDigit_toUInt8 {c : Char} (h : c.isDigit) : IsDigit (UInt8.ofNat c.toNat) ∧
    (UInt8.ofNat c.toNat).toNat = c.toNat := by
  have hc : 48 ≤ c.toNat ∧ c.toNat ≤ 57 := by
    rw [Char.isDigit, Bool.and_eq_true, decide_eq_true_eq, decide_eq_true_eq] at h
    exact h
  have hn : (UInt8.ofNat c.toNat).toNat = c.toNat := by
    rw [UInt8.toNat_ofNat']
    exact Nat.mod_eq_of_lt (by omega)
  refine ⟨?_, hn⟩
  rw [IsDigit, hn]
  exact hc

variable {n : Nat} {b : UInt8}

theorem isDigit_of_mem_decimal (h : b ∈ decimal n) : IsDigit b := by
  obtain ⟨c, hc, rfl⟩ := mem_map.mp h
  exact (isDigit_toUInt8 (Nat.isDigit_of_mem_toDigits (by decide) (by decide) hc)).1

theorem decimal_ne_nil (n : Nat) : decimal n ≠ [] := by
  rw [decimal, ne_eq, map_eq_nil_iff]
  exact Nat.toDigits_ne_nil

variable {bs : List UInt8}

theorem unsigned_of_isDigit (h : ∀ b ∈ bs, IsDigit b) : unsigned bs = bs := by
  cases bs with
  | nil => rfl
  | cons b bs =>
    rw [unsigned]
    intro digits he
    rw [(List.cons.inj he).1] at h
    exact absurd (h 43 mem_cons_self) (by decide)

theorem digitsValue_decimal (n : Nat) : digitsValue (decimal n) = n := by
  have hf : ∀ (cs : List Char) (a : Nat), (∀ c ∈ cs, c.isDigit) →
      (cs.map fun c => UInt8.ofNat c.toNat).foldl (fun n b => 10 * n + (b.toNat - 48)) a =
        cs.foldl (fun n c => 10 * n + (c.toNat - '0'.toNat)) a := by
    intro cs
    induction cs with
    | nil => intro a _; rfl
    | cons c cs ih =>
      intro a hs
      rw [map_cons, foldl_cons, foldl_cons, (isDigit_toUInt8 (hs c mem_cons_self)).2]
      exact ih _ fun c' hc' => hs c' (mem_cons_of_mem _ hc')
  rw [digitsValue, decimal,
    hf _ _ fun c hc => Nat.isDigit_of_mem_toDigits (by decide) (by decide) hc]
  exact Nat.ofDigitChars_toDigits (by decide) (by decide)

variable {bound : Nat}

theorem parseUnsigned_decimal (h : n < bound) : parseUnsigned bound (decimal n) = some n := by
  rw [parseUnsigned, unsigned_of_isDigit fun b => isDigit_of_mem_decimal, digitsValue_decimal,
    if_pos ⟨decimal_ne_nil n, fun b => isDigit_of_mem_decimal, h⟩]

theorem parseUnsigned_lt (h : parseUnsigned bound bs = some n) : n < bound := by
  rw [parseUnsigned] at h
  split at h
  · next hf =>
    cases h
    exact hf.2.2
  · cases h

theorem parseUnsigned_bytes (h : parseUnsigned bound bs = some n) (hb : b ∈ bs) :
    b = 43 ∨ IsDigit b := by
  rw [parseUnsigned] at h
  split at h
  · next hf =>
    rw [unsigned.eq_def] at hf
    split at hf
    · rcases mem_cons.mp hb with rfl | hb
      · exact .inl rfl
      · exact .inr (hf.2.1 b hb)
    · exact .inr (hf.2.1 b hb)
  · cases h

/-! ## Hexadecimal -/

/-- Hexadecimal digits of either case. -/
def IsHexDigit (b : UInt8) : Prop :=
  IsDigit b ∨ (97 ≤ b.toNat ∧ b.toNat ≤ 102) ∨ (65 ≤ b.toNat ∧ b.toNat ≤ 70)

instance : DecidablePred IsHexDigit := fun b =>
  inferInstanceAs (Decidable (IsDigit b ∨ (97 ≤ b.toNat ∧ b.toNat ≤ 102) ∨
    (65 ≤ b.toNat ∧ b.toNat ≤ 70)))

/-- `b"0123456789abcdef"[n]`. -/
def hexDigit (n : Nat) : UInt8 := if n < 10 then UInt8.ofNat (48 + n) else UInt8.ofNat (87 + n)

def decodeHexNibble (b : UInt8) : Option Nat :=
  if IsDigit b then some (b.toNat - 48)
  else if 97 ≤ b.toNat ∧ b.toNat ≤ 102 then some (b.toNat - 87)
  else if 65 ≤ b.toNat ∧ b.toNat ≤ 70 then some (b.toNat - 55)
  else none

def encodeHex (bs : List UInt8) : List UInt8 :=
  bs.flatMap fun b => [hexDigit (b.toNat / 16), hexDigit (b.toNat % 16)]

/-- Two digits for each byte. -/
def decodeHex : List UInt8 → Option (List UInt8)
  | [] => some []
  | [_] => none
  | h :: l :: rest => do
    let high ← decodeHexNibble h
    let low ← decodeHexNibble l
    return UInt8.ofNat (16 * high + low) :: (← decodeHex rest)

theorem decodeHexNibble_hexDigit : ∀ n < 16, decodeHexNibble (hexDigit n) = some n := by decide

theorem isHexDigit_of_decodeHexNibble (h : decodeHexNibble b = some n) : IsHexDigit b := by
  rw [decodeHexNibble] at h
  split at h
  · next hd => exact .inl hd
  · split at h
    · next hl => exact .inr (.inl hl)
    · split at h
      · next hu => exact .inr (.inr hu)
      · cases h

theorem decodeHex_encodeHex (bs : List UInt8) : decodeHex (encodeHex bs) = some bs := by
  induction bs with
  | nil => rfl
  | cons b bs ih =>
    have hb : b.toNat < 256 := b.toNat_lt
    have hv : UInt8.ofNat (16 * (b.toNat / 16) + b.toNat % 16) = b := by
      rw [Nat.div_add_mod, UInt8.ofNat_toNat]
    change decodeHex (hexDigit (b.toNat / 16) :: hexDigit (b.toNat % 16) :: encodeHex bs) = _
    rw [decodeHex, decodeHexNibble_hexDigit _ (by omega), decodeHexNibble_hexDigit _ (by omega), ih]
    exact congrArg (fun b => some (b :: bs)) hv

theorem decodeHex_bytes {t : List UInt8} (h : decodeHex t = some bs) (hb : b ∈ t) :
    IsHexDigit b := by
  induction t using decodeHex.induct generalizing bs with
  | case1 => cases hb
  | case2 => cases h
  | case3 high low rest ih =>
    rw [decodeHex] at h
    obtain ⟨n, hh, h⟩ := Option.bind_eq_some_iff.mp h
    obtain ⟨m, hl, h⟩ := Option.bind_eq_some_iff.mp h
    obtain ⟨tail, ht, -⟩ := Option.bind_eq_some_iff.mp h
    rcases mem_cons.mp hb with rfl | hb
    · exact isHexDigit_of_decodeHexNibble hh
    · rcases mem_cons.mp hb with rfl | hb
      · exact isHexDigit_of_decodeHexNibble hl
      · exact ih ht hb

/-! ## Lines -/

/-- A line without the carriage return before its end. -/
def chopReturn (line : List UInt8) : List UInt8 :=
  if line.getLast? = some 13 then line.dropLast else line

/-- The lines of a split file: every part but the last one was ended by a newline. -/
def partLines : List (List UInt8) → List (List UInt8)
  | [] => []
  | [last] => if last = [] then [] else [last]
  | part :: next :: parts => chopReturn part :: partLines (next :: parts)

/-- `BufRead::lines`, as bytes. -/
def lines (raw : List UInt8) : List (List UInt8) := partLines (raw.splitOn 10)

variable {l : List UInt8}

theorem chopReturn_of_notMem (h : (13 : UInt8) ∉ l) : chopReturn l = l := by
  rw [chopReturn, if_neg]
  intro hl
  exact h (mem_of_getLast? hl)

theorem lines_line (h : (10 : UInt8) ∉ l) (rest : List UInt8) :
    lines (l ++ 10 :: rest) = chopReturn l :: lines rest := by
  have hs : (l ++ 10 :: rest).splitOn 10 = l :: rest.splitOn 10 := by
    rw [List.splitOn, splitOnP_append_cons_of_forall_mem _ _ (by decide)]
    · rfl
    · intro b hb
      rw [beq_eq_false_iff_ne]
      rintro rfl
      exact h hb
  rw [lines, hs, lines]
  cases hr : rest.splitOn 10 with
  | nil => exact absurd hr (splitOnP_ne_nil _ _)
  | cons part parts => rfl

theorem lines_last (h : (10 : UInt8) ∉ l) : lines l = if l = [] then [] else [l] := by
  have hs : l.splitOn 10 = [l] := by
    rw [List.splitOn, splitOnP_eq_singleton]
    intro b hb
    rw [beq_eq_false_iff_ne]
    rintro rfl
    exact h hb
  rw [lines, hs, partLines]

theorem lines_flatMap {α : Type} {t : α → List UInt8} {xs : List α}
    (h : ∀ x ∈ xs, (10 : UInt8) ∉ t x ∧ (13 : UInt8) ∉ t x) (rest : List UInt8) :
    lines (xs.flatMap (fun x => t x ++ [10]) ++ rest) = xs.map t ++ lines rest := by
  induction xs with
  | nil => rfl
  | cons x xs ih =>
    obtain ⟨hn, hr⟩ := h x mem_cons_self
    rw [flatMap_cons, append_assoc, append_assoc, singleton_append, lines_line hn,
      chopReturn_of_notMem hr, ih fun y hy => h y (mem_cons_of_mem _ hy)]
    rfl

end MatrixCache.Lib
