/-
# `Ssd.WriteBudget` — admission to the SSD tier within a write rate

A share of the keys, out of ten thousand, is admitted; once a window the share is moved
by comparing what was written with what the target allows.  The clock is an argument:
an instant is its nanoseconds, and a clock that went back has not advanced.

The arithmetic is written twice.  `rollWindow` is what the source computes, in natural
numbers; `checkedRoll` is the same with every product and cast checked against the width
it has in the source and every divisor against zero.  In every state a run reaches the
two agree, so nothing overflows and nothing is divided by zero.
-/
import MatrixCache.Cache.Key

namespace MatrixCache.Ssd

open Cache Option

/-- `WRITE_BUDGET_SCALE`. -/
def writeBudgetScale : Nat := 10000

/-- `WRITE_BUDGET_WINDOW`, in nanoseconds. -/
def writeBudgetWindow : Nat := 1000000000

/-- `WRITE_BUDGET_MAX_STEP_UP`. -/
def writeBudgetMaxStepUp : Nat := 2

structure SsdWriteBudget where
  admissionDisabled : Bool
  targetBytesPerSec : Nat
  admittedShare : Nat
  bytesThisWindow : Nat
  windowStarted : Option Nat
  observedBytesPerSec : Nat
deriving DecidableEq, Repr

namespace SsdWriteBudget

/-- `unlimited` is `with_target(0)`. -/
def withTarget (bytesPerSec : UInt64) : SsdWriteBudget :=
  { admissionDisabled := false, targetBytesPerSec := bytesPerSec.toNat
    admittedShare := writeBudgetScale, bytesThisWindow := 0, windowStarted := none
    observedBytesPerSec := 0 }

def setTargetBytesPerSec (b : SsdWriteBudget) (bytesPerSec : UInt64) : SsdWriteBudget :=
  if bytesPerSec.toNat = b.targetBytesPerSec ∧ b.admissionDisabled = false then b
  else
    { admissionDisabled := false
      targetBytesPerSec := bytesPerSec.toNat
      admittedShare :=
        if b.admissionDisabled ∨ bytesPerSec.toNat = 0 then writeBudgetScale else b.admittedShare
      bytesThisWindow := 0
      windowStarted := none
      observedBytesPerSec := 0 }

def disableAdmission (b : SsdWriteBudget) : SsdWriteBudget :=
  { b.setTargetBytesPerSec 0 with admissionDisabled := true, admittedShare := 0 }

/-! ## The window -/

/-- `as_millis` of the time since `started`, up to what a `u64` holds. -/
def elapsedMillis (started now : Nat) : Nat := min ((now - started) / 1000000) u64Max

/-- Bytes the target allows over the window. -/
def allowed (b : SsdWriteBudget) (started now : Nat) : Nat :=
  b.targetBytesPerSec * elapsedMillis started now / 1000

/-- The share after a window that ends now. -/
def nextShare (b : SsdWriteBudget) (started now : Nat) : Nat :=
  if b.bytesThisWindow ≤ b.allowed started now then
    max 1 (min (saturatingMul b.admittedShare writeBudgetMaxStepUp) writeBudgetScale)
  else max (b.admittedShare * b.allowed started now / b.bytesThisWindow) 1

def rollWindow (b : SsdWriteBudget) (now : Nat) : SsdWriteBudget :=
  match b.windowStarted with
  | none => { b with windowStarted := some now }
  | some started =>
    if now - started < writeBudgetWindow then b
    else
      { b with
        admittedShare := b.nextShare started now
        observedBytesPerSec :=
          if elapsedMillis started now = 0 then 0
          else min (b.bytesThisWindow * 1000 / elapsedMillis started now) u64Max
        bytesThisWindow := 0
        windowStarted := some now }

/-! ## Calls -/

/-- The share a hash is compared with; the whole share admits without asking for the hash. -/
def admitsAt (share : Nat) (keyHash : UInt64) : Bool :=
  writeBudgetScale ≤ share || (keyHash >>> 32).toNat % writeBudgetScale < share

def admits (b : SsdWriteBudget) (keyHash : UInt64) (now : Nat) : Bool × SsdWriteBudget :=
  if b.admissionDisabled then (false, b)
  else if b.targetBytesPerSec = 0 then (true, b)
  else (admitsAt (b.rollWindow now).admittedShare keyHash, b.rollWindow now)

def recordWritten (b : SsdWriteBudget) (bytes : UInt64) (now : Nat) : SsdWriteBudget :=
  if b.targetBytesPerSec = 0 then b
  else
    let b := b.rollWindow now
    { b with bytesThisWindow := saturatingAdd b.bytesThisWindow bytes.toNat }

inductive Call where
  | setTargetBytesPerSec (bytesPerSec : UInt64)
  | disableAdmission
  | admits (keyHash : UInt64) (now : Nat)
  | recordWritten (bytes : UInt64) (now : Nat)
deriving DecidableEq, Repr

def step (b : SsdWriteBudget) : Call → SsdWriteBudget
  | .setTargetBytesPerSec bytesPerSec => b.setTargetBytesPerSec bytesPerSec
  | .disableAdmission => b.disableAdmission
  | .admits keyHash now => (b.admits keyHash now).2
  | .recordWritten bytes now => b.recordWritten bytes now

def run (b : SsdWriteBudget) (calls : List Call) : SsdWriteBudget := calls.foldl step b

/-! ## The arithmetic, checked -/

/-- A product of `u128`s. -/
def checkedMul (a b : Nat) : Option Nat := if a * b < 2 ^ 128 then some (a * b) else none

def checkedDiv (a b : Nat) : Option Nat := if b = 0 then none else some (a / b)

/-- A `u128` that is cast to a `u64` keeps its value. -/
def checkedCast (a : Nat) : Option Nat := if a ≤ u64Max then some a else none

def checkedAllowed (b : SsdWriteBudget) (started now : Nat) : Option Nat := do
  checkedDiv (← checkedMul b.targetBytesPerSec (elapsedMillis started now)) 1000

def checkedShare (b : SsdWriteBudget) (allowed : Nat) : Option Nat :=
  if b.bytesThisWindow ≤ allowed then
    some (max 1 (min (saturatingMul b.admittedShare writeBudgetMaxStepUp) writeBudgetScale))
  else do
    let scaled ← checkedDiv (← checkedMul b.admittedShare allowed) b.bytesThisWindow
    checkedCast (max scaled 1)

def checkedRate (b : SsdWriteBudget) (started now : Nat) : Option Nat :=
  if elapsedMillis started now = 0 then some 0
  else do
    let rate ← checkedDiv (← checkedMul b.bytesThisWindow 1000) (elapsedMillis started now)
    checkedCast (min rate u64Max)

def checkedRoll (b : SsdWriteBudget) (now : Nat) : Option SsdWriteBudget :=
  match b.windowStarted with
  | none => some { b with windowStarted := some now }
  | some started =>
    if now - started < writeBudgetWindow then some b
    else do
      let admittedShare ← b.checkedShare (← b.checkedAllowed started now)
      let observedBytesPerSec ← b.checkedRate started now
      return { b with
        admittedShare, observedBytesPerSec, bytesThisWindow := 0, windowStarted := some now }

/-- The calls with the checked arithmetic. -/
def checkedStep (b : SsdWriteBudget) : Call → Option SsdWriteBudget
  | .admits _ now =>
    if b.admissionDisabled then some b
    else if b.targetBytesPerSec = 0 then some b
    else b.checkedRoll now
  | .recordWritten bytes now =>
    if b.targetBytesPerSec = 0 then some b
    else (b.checkedRoll now).map fun b =>
      { b with bytesThisWindow := saturatingAdd b.bytesThisWindow bytes.toNat }
  | call => some (b.step call)

/-! ## What every run keeps -/

/-- The states of a budget. -/
structure Good (b : SsdWriteBudget) : Prop where
  target : b.targetBytesPerSec ≤ u64Max
  bytes : b.bytesThisWindow ≤ u64Max
  share_le : b.admittedShare ≤ writeBudgetScale
  enabled : b.admissionDisabled = false → 1 ≤ b.admittedShare
  unlimited : b.admissionDisabled = false → b.targetBytesPerSec = 0 →
    b.admittedShare = writeBudgetScale
  disabled : b.admissionDisabled = true → b.targetBytesPerSec = 0 ∧ b.admittedShare = 0

variable {b b' : SsdWriteBudget}

theorem toNat_le_u64Max (n : UInt64) : n.toNat ≤ u64Max := Nat.le_of_lt_succ n.toNat_lt

theorem good_withTarget (t : UInt64) : (withTarget t).Good :=
  ⟨toNat_le_u64Max t, Nat.zero_le _, Nat.le_refl _, fun _ => (by decide : 1 ≤ writeBudgetScale),
    fun _ _ => rfl, nofun⟩

theorem Good.setTargetBytesPerSec (h : b.Good) (t : UInt64) : (b.setTargetBytesPerSec t).Good := by
  rw [SsdWriteBudget.setTargetBytesPerSec]
  split
  · exact h
  · refine ⟨toNat_le_u64Max t, Nat.zero_le _, ?_, fun _ => ?_, fun _ hz => ?_, nofun⟩
    · dsimp only
      split
      · exact Nat.le_refl _
      · exact h.share_le
    · dsimp only
      split
      · decide
      · next hk => exact h.enabled (Bool.eq_false_of_not_eq_true fun hd => hk (.inl hd))
    · exact if_pos (.inr hz)

theorem Good.disableAdmission (h : b.Good) : b.disableAdmission.Good := by
  have hs := h.setTargetBytesPerSec 0
  have ht : (b.setTargetBytesPerSec 0).targetBytesPerSec = 0 := by
    rw [SsdWriteBudget.setTargetBytesPerSec]
    split
    · next ha => exact ha.1.symm
    · rfl
  exact ⟨hs.target, hs.bytes, Nat.zero_le _, nofun, nofun, fun _ => ⟨ht, rfl⟩⟩

theorem nextShare_le (hs : b.admittedShare ≤ writeBudgetScale) (started now : Nat) :
    b.nextShare started now ≤ writeBudgetScale := by
  rw [nextShare]
  split
  · exact Nat.max_le.mpr ⟨by decide, Nat.min_le_right _ _⟩
  · next ho =>
    refine Nat.max_le.mpr ⟨Nat.le_trans ?_ hs, by decide⟩
    exact Nat.div_le_of_le_mul (by rw [Nat.mul_comm]; exact Nat.mul_le_mul_right _ (by omega))

theorem one_le_nextShare (b : SsdWriteBudget) (started now : Nat) :
    1 ≤ b.nextShare started now := by
  rw [nextShare]
  split
  · exact Nat.le_max_left ..
  · exact Nat.le_max_right ..

theorem Good.rollWindow (h : b.Good) (hl : b.targetBytesPerSec ≠ 0) (now : Nat) :
    (b.rollWindow now).Good ∧ (b.rollWindow now).targetBytesPerSec = b.targetBytesPerSec ∧
      (b.rollWindow now).admissionDisabled = b.admissionDisabled := by
  rw [SsdWriteBudget.rollWindow]
  split
  · exact ⟨⟨h.target, h.bytes, h.share_le, h.enabled, h.unlimited, h.disabled⟩, rfl, rfl⟩
  · next started _ =>
    split
    · exact ⟨h, rfl, rfl⟩
    · refine ⟨⟨h.target, Nat.zero_le _, nextShare_le h.share_le started now, fun _ => ?_,
        fun _ hz => ?_, fun ho => ?_⟩, rfl, rfl⟩
      · exact one_le_nextShare b started now
      · exact absurd hz hl
      · exact absurd (h.disabled ho).1 hl

theorem Good.step (h : b.Good) (call : Call) : (b.step call).Good := by
  cases call with
  | setTargetBytesPerSec t => exact h.setTargetBytesPerSec t
  | disableAdmission => exact h.disableAdmission
  | admits keyHash now =>
    rw [SsdWriteBudget.step, admits]
    split
    · exact h
    · split
      · exact h
      · next hl => exact (h.rollWindow hl now).1
  | recordWritten bs now =>
    rw [SsdWriteBudget.step, recordWritten]
    split
    · exact h
    · next hl =>
      have hr := (h.rollWindow hl now).1
      exact ⟨hr.target, Nat.min_le_right _ _, hr.share_le, hr.enabled, hr.unlimited, hr.disabled⟩

theorem Good.run (h : b.Good) (cs : List Call) : (b.run cs).Good := by
  induction cs generalizing b with
  | nil => exact h
  | cons call cs ih => exact ih (h.step call)

/-! ## The checks never fail -/

theorem checkedMul_eq {m n : Nat} (h : m * n < 2 ^ 128) : checkedMul m n = some (m * n) := if_pos h

theorem checkedDiv_eq {m n : Nat} (h : n ≠ 0) : checkedDiv m n = some (m / n) := if_neg h

theorem checkedCast_eq {n : Nat} (h : n ≤ u64Max) : checkedCast n = some n := if_pos h

theorem Good.checkedAllowed (h : b.Good) (started now : Nat) :
    b.checkedAllowed started now = some (b.allowed started now) := by
  have hm : elapsedMillis started now ≤ u64Max := Nat.min_le_right ..
  have hp : b.targetBytesPerSec * elapsedMillis started now < 2 ^ 128 :=
    Nat.lt_of_le_of_lt (Nat.mul_le_mul h.target hm) (by decide)
  rw [SsdWriteBudget.checkedAllowed, checkedMul_eq hp, bind_eq_bind, bind_some]
  exact checkedDiv_eq (by decide)

theorem Good.checkedShare (h : b.Good) (started now : Nat) :
    b.checkedShare (b.allowed started now) = some (b.nextShare started now) := by
  have hn := nextShare_le h.share_le started now
  rw [SsdWriteBudget.checkedShare]
  rw [nextShare] at hn ⊢
  split
  · rfl
  · next ho =>
    rw [if_neg ho] at hn
    have hb := h.bytes
    have hs : b.admittedShare * b.allowed started now < 2 ^ 128 :=
      Nat.lt_of_le_of_lt (Nat.mul_le_mul h.share_le (by omega : b.allowed started now ≤ u64Max))
        (by decide)
    have hp : b.bytesThisWindow ≠ 0 := by omega
    simp only [checkedMul_eq hs, checkedDiv_eq hp, bind_eq_bind, bind_some]
    exact checkedCast_eq (Nat.le_trans hn (by decide))

theorem Good.checkedRate (h : b.Good) (started now : Nat) :
    b.checkedRate started now = some (if elapsedMillis started now = 0 then 0
      else min (b.bytesThisWindow * 1000 / elapsedMillis started now) u64Max) := by
  have hr : b.bytesThisWindow * 1000 < 2 ^ 128 :=
    Nat.lt_of_le_of_lt (Nat.mul_le_mul_right 1000 h.bytes) (by decide)
  rw [SsdWriteBudget.checkedRate]
  split
  · rfl
  · next hp =>
    simp only [checkedMul_eq hr, checkedDiv_eq hp, bind_eq_bind, bind_some]
    exact checkedCast_eq (Nat.min_le_right ..)

theorem Good.checkedRoll (h : b.Good) (now : Nat) :
    b.checkedRoll now = some (b.rollWindow now) := by
  rw [SsdWriteBudget.checkedRoll, SsdWriteBudget.rollWindow]
  cases b.windowStarted with
  | none => rfl
  | some started =>
    dsimp only
    split
    · rfl
    · simp only [h.checkedAllowed, h.checkedShare, h.checkedRate, bind_eq_bind, bind_some]
      rfl

theorem Good.checkedStep (h : b.Good) (call : Call) : b.checkedStep call = some (b.step call) := by
  cases call with
  | setTargetBytesPerSec t => rfl
  | disableAdmission => rfl
  | admits keyHash now =>
    rw [SsdWriteBudget.checkedStep, SsdWriteBudget.step, admits, h.checkedRoll]
    split
    · rfl
    · split <;> rfl
  | recordWritten bs now =>
    rw [SsdWriteBudget.checkedStep, SsdWriteBudget.step, recordWritten, h.checkedRoll]
    split <;> rfl

/-! ## The share over an interval -/

/-- A window that ends now wrote more than it was allowed. -/
def Exceeded (b : SsdWriteBudget) (now : Nat) : Prop :=
  ∃ started, b.windowStarted = some started ∧ writeBudgetWindow ≤ now - started ∧
    b.allowed started now < b.bytesThisWindow

theorem Good.share_exceeded (h : b.Good) (hl : b.targetBytesPerSec ≠ 0) {now : Nat}
    (ho : b.Exceeded now) : (b.rollWindow now).admittedShare ≤ b.admittedShare := by
  obtain ⟨started, hs, hlo, ho⟩ := ho
  have he : 1 ≤ b.admittedShare := by
    refine h.enabled (Bool.eq_false_of_not_eq_true fun hf => ?_)
    exact hl (h.disabled hf).1
  rw [SsdWriteBudget.rollWindow, hs]
  dsimp only
  rw [if_neg (by omega)]
  dsimp only
  rw [nextShare, if_neg (by omega)]
  refine Nat.max_le.mpr ⟨Nat.div_le_of_le_mul ?_, he⟩
  rw [Nat.mul_comm]
  exact Nat.mul_le_mul_right _ (Nat.le_of_lt ho)

/-- The clock a call is given. -/
def Call.now? : Call → Option Nat
  | .admits _ now => some now
  | .recordWritten _ now => some now
  | _ => none

theorem Good.step_exceeded (h : b.Good) {call : Call} {now : Nat} (hn : call.now? = some now)
    (ho : b.Exceeded now) : (b.step call).admittedShare ≤ b.admittedShare := by
  cases call with
  | setTargetBytesPerSec t => cases hn
  | disableAdmission => cases hn
  | admits keyHash t =>
    cases hn
    rw [SsdWriteBudget.step, admits]
    split
    · exact Nat.le_refl _
    · split
      · exact Nat.le_refl _
      · next hl => exact h.share_exceeded hl ho
  | recordWritten bs t =>
    cases hn
    rw [SsdWriteBudget.step, recordWritten]
    split
    · exact Nat.le_refl _
    · next hl => exact h.share_exceeded hl ho

/-! ## Which hashes are admitted -/

theorem admitsAt_mono {share share' : Nat} (h : share ≤ share') {keyHash : UInt64}
    (hi : admitsAt share keyHash = true) : admitsAt share' keyHash = true := by
  simp only [admitsAt, Bool.or_eq_true, decide_eq_true_eq] at hi ⊢
  omega

theorem Good.admits_eq (h : b.Good) (keyHash : UInt64) (now : Nat) :
    (b.admits keyHash now).1 = admitsAt (b.admits keyHash now).2.admittedShare keyHash := by
  rw [admits]
  split
  · next ho =>
    rw [(h.disabled ho).2]
    simp [admitsAt, writeBudgetScale]
  · next hn =>
    split
    · next hz =>
      rw [h.unlimited (Bool.eq_false_of_not_eq_true hn) hz]
      simp [admitsAt]
    · rfl

/-- Over every sequence of calls, with any clocks: the share is in range while admission is not
disabled; no product, cast or division of a call leaves its range; an interval that wrote more than
its allowance does not raise the share; and whatever a smaller share admits a larger one does. -/
theorem share_sound (t : UInt64) (cs : List Call) :
    (((withTarget t).run cs).admissionDisabled = false →
        1 ≤ ((withTarget t).run cs).admittedShare ∧ ((withTarget t).run cs).admittedShare ≤ 10000) ∧
      (∀ call, ((withTarget t).run cs).checkedStep call =
        some (((withTarget t).run cs).step call)) ∧
      (∀ call now, Call.now? call = some now → ((withTarget t).run cs).Exceeded now →
        (((withTarget t).run cs).step call).admittedShare ≤ ((withTarget t).run cs).admittedShare) ∧
      ∀ t' cs' keyHash now now',
        (((withTarget t).run cs).admits keyHash now).2.admittedShare ≤
          (((withTarget t').run cs').admits keyHash now').2.admittedShare →
        (((withTarget t).run cs).admits keyHash now).1 = true →
        (((withTarget t').run cs').admits keyHash now').1 = true := by
  have h := (good_withTarget t).run cs
  refine ⟨fun ho => ⟨h.enabled ho, h.share_le⟩, h.checkedStep, fun call now => h.step_exceeded,
    fun t' cs' keyHash now now' hle hi => ?_⟩
  rw [((good_withTarget t').run cs').admits_eq]
  rw [h.admits_eq] at hi
  exact admitsAt_mono hle hi

end SsdWriteBudget

end MatrixCache.Ssd
