import BifrostModule.Regb.Inside

/-! # `READ_RANGE_REGB` and single reads

The loop of `READ_RANGE_REGB` goes by four offsets in every BAR, also where the next
register is one offset further, and its offsets wrap at 32 bits.
-/
namespace BifrostModule.Regb
open Foundation

/-- What an access finds in the registers, whatever has happened before. -/
def unchanging (contents : Bar → ℕ → BitVec 32) : Hardware := fun _ op => contents op.bar op.addr

def AccessFns.stride : AccessFns → ℕ
  | deviceMemory => 4
  | membusDeviceMemory => 1

/-- The result of the ioctl and what `copy_to_user` is given for the user's array. -/
structure RangeOutcome where
  rc : Except Errno Unit
  sent : Option (List (BitVec 32))

namespace BifrostDevice
variable (dev : BifrostDevice) (hw : Hardware)

/-- `READ_RANGE_REGB` with the user's array. -/
def readRangeRegb (sys : Services) (bar offset count : BitVec 32) (log : List BusOp) :
    RangeOutcome :=
  if ¬ (sys.argCopied ∧ sys.allocated) then ⟨.error .ENOMEM, none⟩
  else
    match (dev.readLoop hw bar offset 4 count.toNat 0 log).1 with
    | .error e => ⟨.error e, none⟩
    | .ok vs => ⟨if sys.resultCopied then .ok () else .error .EFAULT, some vs⟩

def strideOf (bar : BitVec 32) : ℕ :=
  if h : bar.toNat < numBars then (dev.regb ⟨bar.toNat, h⟩).fns.stride else 1

/-- The `i`-th register after the one at an offset can be read: it has an offset of 32 bits and
`check_bar_access` lets a read through. -/
def Readable (bar offset : BitVec 32) (i : ℕ) : Prop :=
  offset.toNat + i * dev.strideOf bar < 2 ^ 32 ∧
    ∃ b, dev.checkBarAccess bar rdAccess (offset + BitVec.ofNat 32 (i * dev.strideOf bar)) = .ok b

/-- The array gets what `READ_REGB` returns for each of the registers, and nothing unless all of
them can be read. -/
structure AgreesWithReads (bar offset count : BitVec 32) (log : List BusOp) (o : RangeOutcome) :
    Prop where
  values : o.rc = .ok () → ∃ vs, o.sent = some vs ∧ vs.length = count.toNat ∧
    ∀ i v, vs[i]? = some v → dev.Readable bar offset i ∧
      (dev.doReadRegb hw bar (offset + BitVec.ofNat 32 (i * dev.strideOf bar)) log).1 = .ok v
  inaccessible : (∃ i < count.toNat, ¬ dev.Readable bar offset i) →
    (∃ e, o.rc = .error e) ∧ o.sent = none

def RangeRefused (bar offset count : BitVec 32) : Prop :=
  ∃ i < count.toNat, ∃ e,
    dev.checkBarAccess bar rdAccess (offset + BitVec.ofNat 32 i * 4) = .error e

end BifrostDevice

namespace BifrostDevice
variable {dev : BifrostDevice} {hw : Hardware} {sys : Services} {bar offset count : BitVec 32}
  {contents : Bar → ℕ → BitVec 32} {log : List BusOp}

/-- With the user's array left out, this is the ioctl of the register requests. -/
theorem readRangeRegb_ioctl : (dev.ioctl hw sys log (.readRangeRegb bar offset count)).1 =
    (dev.readRangeRegb hw sys bar offset count log).rc.map fun _ =>
      (dev.readRangeRegb hw sys bar offset count log).sent.getD [] := by
  simp only [ioctl, readRange, readRangeRegb]
  by_cases hsys : sys.argCopied ∧ sys.allocated
  · rw [if_neg (not_not.mpr hsys), if_neg (not_not.mpr hsys)]
    cases (dev.readLoop hw bar offset 4 count.toNat 0 log).1 with
    | error e => rfl
    | ok vs =>
      unfold copyOut
      cases sys.resultCopied <;> rfl
  · rw [if_pos hsys, if_pos hsys]
    rfl

def valueAt (dev : BifrostDevice) (contents : Bar → ℕ → BitVec 32) (b : Bar)
    (offset : BitVec 32) : BitVec 32 := ((dev.regb b).fns.rd (unchanging contents) b offset []).1

theorem rd_unchanging (b : Bar) (offset : BitVec 32) (log : List BusOp) :
    ((dev.regb b).fns.rd (unchanging contents) b offset log).1 = dev.valueAt contents b offset := by
  unfold valueAt AccessFns.rd
  cases (dev.regb b).fns <;> rfl

theorem doReadRegb_unchanging (log : List BusOp) :
    (dev.doReadRegb (unchanging contents) bar offset log).1 =
      (dev.checkBarAccess bar rdAccess offset).map fun b => dev.valueAt contents b offset := by
  unfold doReadRegb
  cases dev.checkBarAccess bar rdAccess offset with
  | error e => rfl
  | ok b => exact congrArg Except.ok (rd_unchanging b offset log)

/-- The loop over registers that do not change: it fails at the first refused offset. -/
theorem readLoop_unchanging (dev : BifrostDevice) (contents : Bar → ℕ → BitVec 32)
    (bar offset : BitVec 32) (n i : ℕ) (log : List BusOp) :
    (∃ e, (dev.readLoop (unchanging contents) bar offset 4 n (BitVec.ofNat 32 i) log).1 =
        .error e ∧
      ∃ k, i ≤ k ∧ k < i + n ∧ dev.checkBarAccess bar rdAccess
        (offset + BitVec.ofNat 32 k * 4) = .error e) ∨
    ∃ vs, (dev.readLoop (unchanging contents) bar offset 4 n (BitVec.ofNat 32 i) log).1 = .ok vs ∧
      vs.length = n ∧ ∀ k < n, ∃ b, dev.checkBarAccess bar rdAccess
        (offset + BitVec.ofNat 32 (i + k) * 4) = .ok b ∧
        vs[k]? = some (dev.valueAt contents b (offset + BitVec.ofNat 32 (i + k) * 4)) := by
  induction n generalizing i log with
  | zero => exact .inr ⟨[], rfl, rfl, fun k hk => absurd hk (Nat.not_lt_zero _)⟩
  | succ n ih =>
    have hnext : BitVec.ofNat 32 i + 1 = BitVec.ofNat 32 (i + 1) := by
      rw [BitVec.ofNat_add]
      rfl
    rw [readLoop, doReadRegb]
    cases h : dev.checkBarAccess bar rdAccess (offset + BitVec.ofNat 32 i * 4) with
    | error e => exact .inl ⟨e, rfl, i, le_rfl, by omega, h⟩
    | ok b =>
      dsimp only
      rw [hnext]
      rcases ih (i + 1) (((dev.regb b).fns.rd (unchanging contents) b
        (offset + BitVec.ofNat 32 i * 4) log).2) with ⟨e, he, k, hik, hkn, hk⟩ |
          ⟨vs, hvs, hlen, hall⟩
      · rw [he]
        exact .inl ⟨e, rfl, k, by omega, by omega, hk⟩
      · rw [hvs, rd_unchanging]
        refine .inr ⟨_, rfl, by rw [List.length_cons, hlen], fun k hk => ?_⟩
        cases k with
        | zero => exact ⟨b, h, rfl⟩
        | succ k =>
          obtain ⟨c, hc, hval⟩ := hall k (by omega)
          have hindex : i + 1 + k = i + (k + 1) := by omega
          rw [hindex] at hc hval
          exact ⟨c, hc, hval⟩

theorem readLoop_start (dev : BifrostDevice) (contents : Bar → ℕ → BitVec 32)
    (bar offset : BitVec 32) (n : ℕ) (log : List BusOp) :
    (∃ e, (dev.readLoop (unchanging contents) bar offset 4 n 0 log).1 = .error e ∧
      ∃ k < n, dev.checkBarAccess bar rdAccess (offset + BitVec.ofNat 32 k * 4) = .error e) ∨
    ∃ vs, (dev.readLoop (unchanging contents) bar offset 4 n 0 log).1 = .ok vs ∧
      vs.length = n ∧ ∀ k < n, ∃ b,
        dev.checkBarAccess bar rdAccess (offset + BitVec.ofNat 32 k * 4) = .ok b ∧
        vs[k]? = some (dev.valueAt contents b (offset + BitVec.ofNat 32 k * 4)) := by
  have h := readLoop_unchanging dev contents bar offset n 0 log
  simp only [zero_add, Nat.zero_le, true_and] at h
  exact h

/-- An ioctl that reports an error and copies nothing agrees with any reads. -/
theorem agrees_of_error {e : Errno} :
    dev.AgreesWithReads hw bar offset count log ⟨.error e, none⟩ where
  values h := nomatch h
  inaccessible _ := ⟨⟨e, rfl⟩, rfl⟩

/-- Where the loop reads the registers that it is asked for, it agrees with single reads. -/
theorem agrees_of_offsets (hoff : ∀ i < count.toNat,
    offset + BitVec.ofNat 32 i * 4 = offset + BitVec.ofNat 32 (i * dev.strideOf bar))
    (hwrap : ∀ i < count.toNat, offset.toNat + i * dev.strideOf bar < 2 ^ 32) :
    dev.AgreesWithReads (unchanging contents) bar offset count log
      (dev.readRangeRegb (unchanging contents) sys bar offset count log) := by
  unfold readRangeRegb
  split
  · exact agrees_of_error
  · rcases dev.readLoop_start contents bar offset count.toNat log with
      ⟨e, he, -⟩ | ⟨vs, hvs, hlen, hall⟩
    · rw [he]
      exact agrees_of_error
    · rw [hvs]
      have hread : ∀ i < count.toNat, dev.Readable bar offset i := by
        intro i hi
        obtain ⟨b, hb, -⟩ := hall i hi
        rw [hoff i hi] at hb
        exact ⟨hwrap i hi, b, hb⟩
      refine ⟨fun _ => ⟨vs, rfl, hlen, fun i v hv => ?_⟩,
        fun ⟨i, hi, hnot⟩ => absurd (hread i hi) hnot⟩
      have hi : i < count.toNat := hlen ▸ (List.getElem?_eq_some_iff.mp hv).1
      refine ⟨hread i hi, ?_⟩
      obtain ⟨b, hb, hval⟩ := hall i hi
      rw [hoff i hi] at hb hval
      rw [doReadRegb_unchanging, hb]
      exact congrArg Except.ok (Option.some.inj (hval.symm.trans hv))

theorem agrees_of_refused (h : dev.RangeRefused bar offset count) :
    dev.AgreesWithReads (unchanging contents) bar offset count log
      (dev.readRangeRegb (unchanging contents) sys bar offset count log) := by
  unfold readRangeRegb
  split
  · exact agrees_of_error
  · rcases dev.readLoop_start contents bar offset count.toNat log with
      ⟨e, he, -⟩ | ⟨vs, -, -, hall⟩
    · rw [he]
      exact agrees_of_error
    · obtain ⟨i, hi, e, he⟩ := h
      obtain ⟨b, hb, -⟩ := hall i hi
      rw [he] at hb
      cases hb

theorem strideOf_eq {access : BitVec 32} {b : Bar}
    (h : dev.checkBarAccess bar access offset = .ok b) :
    dev.strideOf bar = (dev.regb b).fns.stride := by
  have hbar : bar.toNat = b.val := ((dev.checkBarAccess_ok_iff bar access offset b).mp h).1.1
  have hlt : bar.toNat < numBars := hbar ▸ b.isLt
  have hb : (⟨bar.toNat, hlt⟩ : Bar) = b := Fin.ext hbar
  rw [strideOf, dif_pos hlt, hb]

theorem valueAt_membus {b : Bar} (hb : (dev.regb b).fns = .membusDeviceMemory)
    (contents : Bar → ℕ → BitVec 32) (offset : BitVec 32) : dev.valueAt contents b offset =
      ((contents b (offset <<< 1).toNat).setWidth 16).setWidth 32 := by
  unfold valueAt AccessFns.rd
  rw [hb]
  rfl

/-- On the 16-bit bus the fourth register after an offset is not the first one. -/
theorem valueAt_differs {b : Bar} (hb : (dev.regb b).fns = .membusDeviceMemory)
    (offset : BitVec 32) : ∃ contents, dev.valueAt contents b (offset + BitVec.ofNat 32 1 * 4) ≠
      dev.valueAt contents b (offset + BitVec.ofNat 32 1) := by
  have hne : ¬ ((offset + BitVec.ofNat 32 1) <<< 1).toNat =
      ((offset + BitVec.ofNat 32 1 * 4) <<< 1).toNat := by
    have hone : (BitVec.ofNat 32 1).toNat = 1 := rfl
    have hfour : (BitVec.ofNat 32 1 * 4).toNat = 4 := rfl
    simp only [BitVec.toNat_shiftLeft, Nat.shiftLeft_eq, BitVec.toNat_add, hone, hfour]
    omega
  refine ⟨fun _ addr => if addr = ((offset + BitVec.ofNat 32 1 * 4) <<< 1).toNat then 1 else 0, ?_⟩
  rw [valueAt_membus hb, valueAt_membus hb, if_pos rfl, if_neg hne]
  decide

/-- Whatever the registers hold, `READ_RANGE_REGB` agrees with single reads exactly if it reads at
most one register, is refused at one of the loop's offsets, or the registers of the BAR are four
offsets apart and the last one has an offset of 32 bits. -/
theorem readRange_agrees_iff (dev : BifrostDevice) (bar offset count : BitVec 32) :
    (∀ sys contents log, dev.AgreesWithReads (unchanging contents) bar offset count log
      (dev.readRangeRegb (unchanging contents) sys bar offset count log)) ↔
    count.toNat ≤ 1 ∨ dev.RangeRefused bar offset count ∨
      (dev.strideOf bar = 4 ∧ offset.toNat + (count.toNat - 1) * 4 < 2 ^ 32) := by
  constructor
  · intro h
    by_contra! hno
    obtain ⟨hcount, hrefused, hwrap⟩ := hno
    -- The loop succeeds whatever the registers hold, so every register can be read.
    have hloop : ∀ contents, ∃ vs,
        dev.readRangeRegb (unchanging contents) ⟨true, true, true, true⟩ bar offset count [] =
          ⟨.ok (), some vs⟩ ∧ ∀ k < count.toNat, ∃ b,
            dev.checkBarAccess bar rdAccess (offset + BitVec.ofNat 32 k * 4) = .ok b ∧
            vs[k]? = some (dev.valueAt contents b (offset + BitVec.ofNat 32 k * 4)) := by
      intro contents
      rcases dev.readLoop_start contents bar offset count.toNat [] with
        ⟨e, -, k, hk, he⟩ | ⟨vs, hvs, -, hall⟩
      · exact absurd ⟨k, hk, e, he⟩ hrefused
      · refine ⟨vs, ?_, hall⟩
        rw [readRangeRegb, if_neg (by decide), hvs]
        rfl
    have hread : ∀ i < count.toNat, dev.Readable bar offset i := by
      intro i hi
      by_contra hnot
      obtain ⟨vs, hvs, -⟩ := hloop fun _ _ => 0
      obtain ⟨⟨e, he⟩, -⟩ :=
        (h ⟨true, true, true, true⟩ (fun _ _ => 0) []).inaccessible ⟨i, hi, hnot⟩
      rw [hvs] at he
      cases he
    obtain ⟨-, b, hb⟩ := hread 1 hcount
    have hstride := strideOf_eq hb
    cases hfns : (dev.regb b).fns with
    | deviceMemory =>
      rw [hfns] at hstride
      have hlast := (hread (count.toNat - 1) (by omega)).1
      rw [hstride] at hlast
      exact absurd (hwrap hstride) (not_le.mpr hlast)
    | membusDeviceMemory =>
      rw [hfns] at hstride
      obtain ⟨contents, hdiff⟩ := valueAt_differs hfns offset
      obtain ⟨vs, hvs, hall⟩ := hloop contents
      have hagrees := h ⟨true, true, true, true⟩ contents []
      rw [hvs] at hagrees
      obtain ⟨vs', hsome, -, hvals⟩ := hagrees.values rfl
      obtain rfl := Option.some.inj hsome
      obtain ⟨c, hc, hval⟩ := hall 1 hcount
      have hbc : c = b := by
        have hgc := ((dev.checkBarAccess_ok_iff _ _ _ c).mp hc).1
        have hgb := ((dev.checkBarAccess_ok_iff _ _ _ b).mp hb).1
        exact hgc.unique hgb
      have hsingle := (hvals 1 _ hval).2
      rw [hstride] at hb hsingle
      simp only [AccessFns.stride, mul_one] at hb hsingle
      rw [doReadRegb_unchanging, hb, hbc] at hsingle
      exact hdiff (Except.ok.inj hsingle).symm
  · intro h sys contents log
    rcases h with hone | hrefused | ⟨hstride, hwrap⟩
    · apply agrees_of_offsets
      · intro i hi
        obtain rfl : i = 0 := by omega
        simp
      · intro i hi
        obtain rfl : i = 0 := by omega
        rw [zero_mul, add_zero]
        exact offset.isLt
    · exact agrees_of_refused hrefused
    · apply agrees_of_offsets
      · intro i _
        rw [hstride, BitVec.ofNat_mul]
        rfl
      · intro i hi
        rw [hstride]
        omega

end BifrostDevice

/-- Two registers of a 16-bit BAR that hold their numbers: the second value is that of register
4. -/
theorem range_skips : ¬ ∀ (dev : BifrostDevice) (bar offset count : BitVec 32) (sys : Services)
    (contents : Bar → ℕ → BitVec 32) (log : List BusOp),
    dev.AgreesWithReads (unchanging contents) bar offset count log
      (dev.readRangeRegb (unchanging contents) sys bar offset count log) := by
  intro h
  have hagrees := h (membusDevice false fun _ => true) 0 0 2 ⟨true, true, true, true⟩
    (fun _ addr => BitVec.ofNat 32 (addr / 2)) []
  have hsent : (membusDevice false fun _ => true).readRangeRegb
      (unchanging fun _ addr => BitVec.ofNat 32 (addr / 2)) ⟨true, true, true, true⟩ 0 0 2 [] =
        ⟨.ok (), some [0, 4]⟩ := by rfl
  rw [hsent] at hagrees
  obtain ⟨vs, hvs, -, hvals⟩ := hagrees.values rfl
  obtain rfl := Option.some.inj hvs
  obtain ⟨-, hsingle⟩ := hvals 1 4 rfl
  have hone : ((membusDevice false fun _ => true).doReadRegb
      (unchanging fun _ addr => BitVec.ofNat 32 (addr / 2)) 0 (0 + BitVec.ofNat 32 (1 *
        (membusDevice false fun _ => true).strideOf 0)) []).1 = .ok 1 := by rfl
  rw [hone] at hsingle
  exact absurd (Except.ok.inj hsingle) (by decide)

end BifrostModule.Regb
