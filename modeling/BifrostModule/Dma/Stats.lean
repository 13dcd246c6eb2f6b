import BifrostModule.Dma.Request

/-! # The transfer statistics

`add_stats` divides by the time a transfer has taken. The test for zero is on all
64 bits of the time, the division of `do_div` by its low half.
-/
namespace BifrostModule.Dma

/-- The throughput fields of `struct bifrost_stats`; an `unsigned long` has `w` bits. -/
structure Stats (w : ℕ) where
  readBuf : BitVec w
  writeBuf : BitVec w
  readB : BitVec w
  writeB : BitVec w
  writeSpeedAvg : BitVec w
  writeSpeedLast : BitVec w
  readSpeedAvg : BitVec w
  readSpeedLast : BitVec w

def nsecPerSec : BitVec 64 := 1000000000

/-- A division of C, `none` when it divides by zero. -/
def divide {w : ℕ} (a b : BitVec w) : Option (BitVec w) := if b = 0 then none else some (a / b)

/-- `do_div`, whose divisor is a `uint32_t`. -/
def doDiv (n base : BitVec 64) : Option (BitVec 64) := divide n ((base.setWidth 32).setWidth 64)

def averageSpeed {w : ℕ} (avg last buf : BitVec w) : Option (BitVec w) := do
  let old ← divide (avg * (buf - 1)) buf
  let new ← divide last buf
  return old + new

namespace Stats
variable {w : ℕ} (s : Stats w)

/-- `add_stats`, `none` when it divides by zero. -/
def addStats (req : DmaReq) (time : BitVec 64) : Option (Stats w) :=
  if time = 0 then some s
  else do
    let speed ← doDiv (req.len.setWidth 64 * nsecPerSec) time
    match req.dir with
    | .down =>
      let s := { s with
        writeSpeedLast := speed.setWidth w
        writeB := s.writeB + req.len.setWidth w
        writeBuf := s.writeBuf + 1 }
      let avg ← averageSpeed s.writeSpeedAvg s.writeSpeedLast s.writeBuf
      return { s with writeSpeedAvg := avg }
    | .up =>
      let s := { s with
        readSpeedLast := speed.setWidth w
        readB := s.readB + req.len.setWidth w
        readBuf := s.readBuf + 1 }
      let avg ← averageSpeed s.readSpeedAvg s.readSpeedLast s.readBuf
      return { s with readSpeedAvg := avg }

def buf : Direction → BitVec w
  | .down => s.writeBuf
  | .up => s.readBuf

def speedLast : Direction → BitVec w
  | .down => s.writeSpeedLast
  | .up => s.readSpeedLast

/-- No division by zero, and the speed is that of the whole time, cut to `unsigned long`. -/
def Exact (req : DmaReq) (time : BitVec 64) : Prop :=
  ∃ t, s.addStats req time = some t ∧
    t.speedLast req.dir = BitVec.ofNat w (req.len.toNat * 10 ^ 9 / time.toNat)

theorem averageSpeed_eq (avg last buf : BitVec w) : averageSpeed avg last buf =
    if buf = 0 then none else some (avg * (buf - 1) / buf + last / buf) := by
  unfold averageSpeed divide
  split <;> rfl

/-- `add_stats` divides by zero when the quotient of the speed does, or when the count of the
buffers overflows. Otherwise it leaves the speed cut to `unsigned long`. -/
theorem addStats_spec (req : DmaReq) {time : BitVec 64} (ht : time ≠ 0) (v : BitVec w) :
    (∃ t, s.addStats req time = some t ∧ t.speedLast req.dir = v) ↔
      s.buf req.dir + 1 ≠ 0 ∧
        ∃ speed, doDiv (req.len.setWidth 64 * nsecPerSec) time = some speed ∧
          speed.setWidth w = v := by
  rw [addStats, if_neg ht]
  cases hs : doDiv (req.len.setWidth 64 * nsecPerSec) time with
  | none => simp
  | some speed =>
    cases req.dir with
    | up =>
      by_cases hbuf : s.readBuf + 1 = 0 <;>
        simp [averageSpeed_eq, buf, speedLast, Option.bind_eq_some_iff]
    | down =>
      by_cases hbuf : s.writeBuf + 1 = 0 <;>
        simp [averageSpeed_eq, buf, speedLast, Option.bind_eq_some_iff]

end Stats

/-- The divisor that `do_div` makes of a time. -/
def lowTime (time : BitVec 64) : ℕ := time.toNat % 2 ^ 32

theorem doDiv_eq (n base : BitVec 64) :
    doDiv n base = if lowTime base = 0 then none
      else some (BitVec.ofNat 64 (n.toNat / lowTime base)) := by
  have hlow : ((base.setWidth 32).setWidth 64).toNat = lowTime base := by
    rw [BitVec.toNat_setWidth, BitVec.toNat_setWidth, lowTime]
    omega
  have hzero : (base.setWidth 32).setWidth 64 = 0 ↔ lowTime base = 0 := by
    rw [← hlow, BitVec.toNat_eq]
    rfl
  rw [doDiv, divide]
  simp only [hzero]
  split
  · rfl
  · refine congrArg some (BitVec.eq_of_toNat_eq ?_)
    rw [BitVec.toNat_udiv, hlow, BitVec.toNat_ofNat]
    exact (Nat.mod_eq_of_lt ((Nat.div_le_self _ _).trans_lt n.isLt)).symm

theorem numerator_eq (len : BitVec 32) :
    (len.setWidth 64 * nsecPerSec).toNat = len.toNat * 10 ^ 9 ∧ len.toNat * 10 ^ 9 < 2 ^ 62 := by
  have hlt := len.isLt
  have hlen : (len.setWidth 64).toNat = len.toNat := by
    rw [BitVec.toNat_setWidth]
    omega
  have hns : nsecPerSec.toNat = 10 ^ 9 := rfl
  rw [BitVec.toNat_mul, hlen, hns]
  omega

/-- The low half of the time gives the same quotient, cut to `w` bits. -/
def SameQuotient (w n : ℕ) (time : BitVec 64) : Prop :=
  time.toNat < 2 ^ 32 ∨ n < lowTime time ∨
    w < 62 ∧ 2 ^ w ∣ n / lowTime time - n / time.toNat

/-- A time of 2^32 ns or more has a smaller quotient than its low half. -/
theorem quotient_lt {n : ℕ} {time : BitVec 64} (hlong : ¬ time.toNat < 2 ^ 32)
    (hn : lowTime time ≤ n) (hlow : lowTime time ≠ 0) :
    n / time.toNat < n / lowTime time := by
  have hlt : lowTime time < 2 ^ 32 := Nat.mod_lt _ (by norm_num)
  have htime : lowTime time + 2 ^ 32 ≤ time.toNat := by
    unfold lowTime
    omega
  have hpos : 0 < n / lowTime time := Nat.div_pos hn (Nat.pos_of_ne_zero hlow)
  have hrest : n < lowTime time * (n / lowTime time + 1) :=
    Nat.lt_mul_div_succ n (Nat.pos_of_ne_zero hlow)
  rw [Nat.div_lt_iff_lt_mul (by omega)]
  calc n < lowTime time * (n / lowTime time) + lowTime time := hrest
    _ ≤ n / lowTime time * (lowTime time + 2 ^ 32) := by nlinarith
    _ ≤ n / lowTime time * time.toNat := Nat.mul_le_mul_left _ htime

theorem sameQuotient_iff {w n : ℕ} {time : BitVec 64} (hn : n < 2 ^ 62) (hlow : lowTime time ≠ 0) :
    n / lowTime time % 2 ^ w = n / time.toNat % 2 ^ w ↔ SameQuotient w n time := by
  have hle : lowTime time ≤ time.toNat := Nat.mod_le _ _
  have hquot : n / time.toNat ≤ n / lowTime time :=
    Nat.div_le_div_left hle (Nat.pos_of_ne_zero hlow)
  have hmod : n / lowTime time % 2 ^ w = n / time.toNat % 2 ^ w ↔
      2 ^ w ∣ n / lowTime time - n / time.toNat := by
    rw [eq_comm]
    exact Nat.modEq_iff_dvd' hquot
  rw [hmod]
  constructor
  · intro hdvd
    by_cases hshort : time.toNat < 2 ^ 32
    · exact .inl hshort
    · by_cases hsmall : n < lowTime time
      · exact .inr (.inl hsmall)
      · refine .inr (.inr ⟨?_, hdvd⟩)
        by_contra hw
        -- The error is below 2^62, so it is 0; but a quotient by a time that is longer by 2^32 or
        -- more is smaller.
        have hpow : 2 ^ 62 ≤ 2 ^ w := Nat.pow_le_pow_right (by norm_num) (not_lt.mp hw)
        have hlt : n / lowTime time - n / time.toNat < 2 ^ w :=
          ((Nat.sub_le _ _).trans (Nat.div_le_self _ _)).trans_lt (hn.trans_le hpow)
        have hzero := Nat.eq_zero_of_dvd_of_lt hdvd hlt
        exact absurd (quotient_lt hshort (not_lt.mp hsmall) hlow) (by omega)
  · rintro (hshort | hsmall | ⟨-, hdvd⟩)
    · have hsame : lowTime time = time.toNat := Nat.mod_eq_of_lt hshort
      simp [hsame]
    · rw [Nat.div_eq_of_lt hsmall, Nat.div_eq_of_lt (hsmall.trans_le hle)]
      exact dvd_zero _
    · exact hdvd

/-- The speed is exact if and only if the low half of the time is not zero and gives the quotient
of the whole time, and the count of buffers does not overflow. -/
theorem addStats_exact_iff {w : ℕ} {s : Stats w} {req : DmaReq} {time : BitVec 64}
    (ht : time ≠ 0) : s.Exact req time ↔
      lowTime time ≠ 0 ∧ s.buf req.dir + 1 ≠ 0 ∧
        SameQuotient w (req.len.toNat * 10 ^ 9) time := by
  obtain ⟨hnum, hlt⟩ := numerator_eq req.len
  rw [Stats.Exact, s.addStats_spec req ht, doDiv_eq, hnum]
  generalize req.len.toNat * 10 ^ 9 = n at hlt ⊢
  by_cases hlow : lowTime time = 0
  · simp [hlow]
  · have hword : n / lowTime time < 2 ^ 64 :=
      (Nat.div_le_self _ _).trans_lt (hlt.trans (by norm_num))
    have hspeed : (BitVec.ofNat 64 (n / lowTime time)).setWidth w =
        BitVec.ofNat w (n / time.toNat) ↔ SameQuotient w n time := by
      rw [← sameQuotient_iff hlt hlow, BitVec.toNat_eq, BitVec.toNat_setWidth, BitVec.toNat_ofNat,
        BitVec.toNat_ofNat, Nat.mod_eq_of_lt hword]
    simp [hlow, hspeed]

theorem addStats_exact_short : (⟨0, 0, 0, 0, 0, 0, 0, 0⟩ : Stats 32).Exact
    ⟨0, 0, 0, 3000000, .up, 0, 0, none⟩ 2000000 :=
  (addStats_exact_iff (by decide)).mpr ⟨by decide, by decide, .inl (by decide)⟩

/-- A transfer of 2^32 ns, which is a little over 4 s, divides by zero. -/
theorem addStats_divides_by_zero : ¬ ∀ (w : ℕ) (s : Stats w) (req : DmaReq) (time : BitVec 64),
    time ≠ 0 → s.Exact req time := by
  intro h
  obtain ⟨t, ht, -⟩ := h 64 ⟨0, 0, 0, 0, 0, 0, 0, 0⟩ ⟨0, 0, 0, 1, .up, 0, 0, none⟩
    0x100000000 (by decide)
  cases ht

end BifrostModule.Dma
