import BifrostModule.Foundation.Buffer
import BifrostModule.Dma.Request
import BifrostModule.Regb.DeviceMemory

/-! # SDRAM transfers of `bifrost_membus.c`

A transfer programs the address registers 0 and 1 of BAR0 and then moves halfwords
through the data port, the window of BAR1. The address is split by two masks and the
length is halved, so not every request is moved as it was asked for.
-/
namespace BifrostModule.Membus
open Foundation Regb

def fpgaWrBit : BitVec 32 := 0x8000

def fpgaRdBit : BitVec 32 := 0x0000

def fpgaAddrHi (a : BitVec 32) : BitVec 32 := (a >>> 16) &&& ~~~fpgaWrBit

def fpgaAddrLo (a : BitVec 32) : BitVec 32 := a &&& 0xFFFE

def writeReg (offset value : BitVec 32) (log : List BusOp) : List BusOp :=
  AccessFns.membusDeviceMemory.wr 0 offset value log

/-- The halfword at index `i` of a buffer, in the byte order of the CPU. -/
def halfword (buf : List (BitVec 8)) (i : ℕ) : BitVec 16 :=
  buf.getD (2 * i + 1) 0 ++ buf.getD (2 * i) 0

def bytes (vs : List (BitVec 16)) : List (BitVec 8) :=
  vs.flatMap fun v => [v.extractLsb' 0 8, v.extractLsb' 8 8]

/-- `ioread16_rep` from the data port. -/
def ioread16Rep (hw : Hardware) : ℕ → List BusOp → List (BitVec 16) × List BusOp
  | 0, log => ([], log)
  | n + 1, log =>
    let v := (hw log (.ioread16 1 0)).setWidth 16
    let r := ioread16Rep hw n (log ++ [.ioread16 1 0])
    (v :: r.1, r.2)

/-- `iowrite16_rep` to the data port. -/
def iowrite16Rep (vs : List (BitVec 16)) (log : List BusOp) : List BusOp :=
  log ++ vs.map fun v => .iowrite16 1 0 v

def fpgaread (hw : Hardware) (dst : List (BitVec 8)) (len : BitVec 32) (log : List BusOp) :
    List (BitVec 8) × List BusOp :=
  let len := len >>> 1
  let r := ioread16Rep hw len.toNat log
  (Buffer.write dst 0 (bytes r.1), r.2)

def fpgawrite (src : List (BitVec 8)) (len : BitVec 32) (log : List BusOp) : List BusOp :=
  let len := len >>> 1
  iowrite16Rep ((List.range len.toNat).map (halfword src)) log

/-- `WriteSDRAM`. The read bit before the write bit triggers a new write. -/
def writeSdram (src : List (BitVec 8)) (addr sz : BitVec 32) (log : List BusOp) : List BusOp :=
  let log := writeReg 1 fpgaRdBit log
  let log := writeReg 0 (fpgaAddrLo addr) log
  let log := writeReg 1 (fpgaAddrHi addr ||| fpgaWrBit) log
  fpgawrite src sz log

def readSdram (hw : Hardware) (dst : List (BitVec 8)) (addr sz : BitVec 32) (log : List BusOp) :
    List (BitVec 8) × List BusOp :=
  let log := writeReg 1 fpgaWrBit log
  let log := writeReg 0 (fpgaAddrLo addr) log
  let log := writeReg 1 (fpgaAddrHi addr) log
  fpgaread hw dst sz log

def upDown : Dma.Direction → ℤ
  | .up => 0
  | .down => 1

/-- `do_membus_xfer`, with the buffer that `xfer->system` points to. -/
def doMembusXfer (hw : Hardware) (buf : List (BitVec 8)) (xfer : Dma.Transfer) (dir : ℤ)
    (log : List BusOp) : Except Errno (List (BitVec 8)) × List BusOp :=
  if dir = upDown .down then (.ok buf, writeSdram buf xfer.device xfer.size log)
  else if dir = upDown .up then
    let r := readSdram hw buf xfer.device xfer.size log
    (.ok r.1, r.2)
  else (.error .EINVAL, log)

/-! ## What the FPGA sees of a transfer -/

def regWrites (reg : BitVec 32) (ops : List BusOp) : List (BitVec 16) :=
  ops.filterMap fun
    | .iowrite16 0 addr value =>
      if addr = AccessFns.membusDeviceMemory.addr reg then some value else none
    | _ => none

/-- The halfword that an operation after those in `done` moves through BAR1. -/
def portHalfword (hw : Hardware) (done : List BusOp) : BusOp → List (BitVec 16)
  | .ioread16 1 addr => [(hw done (.ioread16 1 addr)).setWidth 16]
  | .iowrite16 1 _ value => [value]
  | _ => []

def portData (hw : Hardware) : List BusOp → List BusOp → List (BitVec 16)
  | _, [] => []
  | done, op :: ops => portHalfword hw done op ++ portData hw (done ++ [op]) ops

/-- The device offset that the two registers stand for, without the write bit. -/
def decode (hi lo : BitVec 16) : BitVec 32 := (hi &&& 0x7FFF) ++ lo

/-- The operations move the whole of `buf` at the device offset: the registers hold the offset, the
write bit has changed to that of the direction, and the halfwords are the bytes of the buffer. -/
structure MovesExactly (hw : Hardware) (device : BitVec 32) (dir : Dma.Direction)
    (buf : List (BitVec 8)) (done ops : List BusOp) : Prop where
  address : ∃ hi lo, (regWrites 1 ops).getLast? = some hi ∧
    (regWrites 0 ops).getLast? = some lo ∧ decode hi lo = device
  writeBit : ∃ earlier before last, regWrites 1 ops = earlier ++ [before, last] ∧
    (last.getLsbD 15 = true ↔ dir = .down) ∧ before.getLsbD 15 ≠ last.getLsbD 15
  covers : bytes (portData hw done ops) = buf

/-- The masks and the halving keep the whole request. -/
def Encodable (xfer : Dma.Transfer) : Prop :=
  xfer.device.toNat < 2 ^ 31 ∧ 2 ∣ xfer.device.toNat ∧ 2 ∣ xfer.size.toNat

instance (xfer : Dma.Transfer) : Decidable (Encodable xfer) :=
  inferInstanceAs (Decidable (_ ∧ _))

/-! ## The operations of a transfer -/

def programOps (device : BitVec 32) (dir : Dma.Direction) : List BusOp :=
  match dir with
  | .up => [.iowrite16 0 2 0x8000, .iowrite16 0 0 ((fpgaAddrLo device).setWidth 16),
      .iowrite16 0 2 ((fpgaAddrHi device).setWidth 16)]
  | .down => [.iowrite16 0 2 0, .iowrite16 0 0 ((fpgaAddrLo device).setWidth 16),
      .iowrite16 0 2 ((fpgaAddrHi device ||| fpgaWrBit).setWidth 16)]

def dataOps (buf : List (BitVec 8)) (size : BitVec 32) (dir : Dma.Direction) : List BusOp :=
  match dir with
  | .up => List.replicate (size.toNat / 2) (.ioread16 1 0)
  | .down => (List.range (size.toNat / 2)).map fun i => .iowrite16 1 0 (halfword buf i)

theorem toNat_halved (len : BitVec 32) : (len >>> 1).toNat = len.toNat / 2 := by
  rw [BitVec.toNat_ushiftRight, Nat.shiftRight_eq_div_pow, pow_one]

theorem ioread16Rep_log (hw : Hardware) (n : ℕ) (log : List BusOp) :
    (ioread16Rep hw n log).2 = log ++ List.replicate n (.ioread16 1 0) := by
  induction n generalizing log with
  | zero => simp [ioread16Rep]
  | succ n ih => rw [ioread16Rep, ih, List.replicate_succ, List.append_assoc, List.singleton_append]

/-- A transfer programs the FPGA and then uses the port, whatever the port answers. -/
theorem doMembusXfer_log (hw : Hardware) (buf : List (BitVec 8)) (xfer : Dma.Transfer)
    (dir : Dma.Direction) (log : List BusOp) :
    (doMembusXfer hw buf xfer (upDown dir) log).2 =
      log ++ (programOps xfer.device dir ++ dataOps buf xfer.size dir) := by
  cases dir with
  | up =>
    simp only [doMembusXfer, upDown, readSdram, fpgaread, ioread16Rep_log, toNat_halved]
    simp [writeReg, programOps, dataOps, AccessFns.writeOp, AccessFns.addr, fpgaWrBit]
  | down =>
    simp only [doMembusXfer, upDown, writeSdram, fpgawrite, iowrite16Rep, toNat_halved]
    simp [writeReg, programOps, dataOps, AccessFns.writeOp, AccessFns.addr, fpgaRdBit]

theorem doMembusXfer_up (hw : Hardware) (buf : List (BitVec 8)) (xfer : Dma.Transfer)
    (log : List BusOp) : (doMembusXfer hw buf xfer (upDown .up) log).1 =
      .ok (Buffer.write buf 0 (bytes (ioread16Rep hw (xfer.size.toNat / 2)
        (log ++ programOps xfer.device .up)).1)) := by
  rw [← toNat_halved]
  simp [doMembusXfer, upDown, readSdram, fpgaread, writeReg, programOps, AccessFns.writeOp,
    AccessFns.addr, fpgaWrBit]

/-! ## The address -/

theorem getLsbD_decode (hi lo : BitVec 16) (i : ℕ) : (decode hi lo).getLsbD i =
    if i < 16 then lo.getLsbD i else (hi &&& 0x7FFF).getLsbD (i - 16) :=
  BitVec.getLsbD_append

/-- The registers hold the offset without its first and its last bit. -/
theorem decode_addr (device flag : BitVec 32) (hflag : flag = fpgaRdBit ∨ flag = fpgaWrBit) :
    decode ((fpgaAddrHi device ||| flag).setWidth 16) ((fpgaAddrLo device).setWidth 16) =
      device &&& 0x7FFFFFFE := by
  apply BitVec.eq_of_getLsbD_eq
  intro i hi
  rcases hflag with rfl | rfl <;> interval_cases i <;>
    rw [getLsbD_decode] <;> simp [fpgaAddrHi, fpgaAddrLo, fpgaWrBit, fpgaRdBit]

/-- The two masked bits are clear exactly in the even offsets below 2 GiB. -/
theorem and_mask_iff (device : BitVec 32) :
    device &&& 0x7FFFFFFE = device ↔ device.toNat < 2 ^ 31 ∧ 2 ∣ device.toNat := by
  have h31 : device.getLsbD 31 = false ↔ device.toNat < 2 ^ 31 := by
    have hmsb := BitVec.msb_eq_false_iff_two_mul_lt (x := device)
    rw [BitVec.msb_eq_getLsbD_last] at hmsb
    rw [hmsb]
    omega
  have h0 : device.getLsbD 0 = false ↔ 2 ∣ device.toNat := by
    simp only [BitVec.getLsbD, Nat.testBit_zero, decide_eq_false_iff_not]
    omega
  rw [← h31, ← h0]
  constructor
  · intro h
    rw [← h]
    simp
  · rintro ⟨ha, hb⟩
    apply BitVec.eq_of_getLsbD_eq
    intro i hi
    interval_cases i <;> simp_all

theorem getLsbD_hi (device flag : BitVec 32) (hflag : flag = fpgaRdBit ∨ flag = fpgaWrBit) :
    ((fpgaAddrHi device ||| flag).setWidth 16).getLsbD 15 = decide (flag = fpgaWrBit) := by
  rcases hflag with rfl | rfl <;> simp [fpgaAddrHi, fpgaWrBit, fpgaRdBit]

/-! ## The bytes -/

theorem length_bytes (vs : List (BitVec 16)) : (bytes vs).length = 2 * vs.length := by
  induction vs with
  | nil => rfl
  | cons v vs ih =>
    rw [bytes, List.flatMap_cons, List.length_append, ← bytes, ih]
    simp only [List.length_cons, List.length_nil]
    omega

theorem bytes_halfwords {buf : List (BitVec 8)} {n : ℕ} (h : 2 * n ≤ buf.length) :
    bytes ((List.range n).map (halfword buf)) = buf.take (2 * n) := by
  induction n with
  | zero => rfl
  | succ n ih =>
    have hlo : 2 * n < buf.length := by omega
    have hhi : 2 * n + 1 < buf.length := by omega
    have hone : (halfword buf n).extractLsb' 0 8 = buf[2 * n] := by
      rw [halfword, List.getD_eq_getElem _ _ hlo, BitVec.extractLsb'_append_eq_right]
    have htwo : (halfword buf n).extractLsb' 8 8 = buf[2 * n + 1] := by
      rw [halfword, List.getD_eq_getElem _ _ hhi, BitVec.extractLsb'_append_eq_left]
    have htake : buf.take (2 * (n + 1)) = buf.take (2 * n) ++ [buf[2 * n], buf[2 * n + 1]] := by
      rw [Nat.mul_add, mul_one, List.take_succ_eq_append_getElem hhi,
        List.take_succ_eq_append_getElem hlo, List.append_assoc, List.singleton_append]
    rw [List.range_succ, List.map_append, bytes, List.flatMap_append, ← bytes, ih (by omega),
      htake, List.map_singleton, List.flatMap_singleton, hone, htwo]

section Port
variable {hw : Hardware} {done : List BusOp}

theorem portData_append (ops ops' : List BusOp) : portData hw done (ops ++ ops') =
    portData hw done ops ++ portData hw (done ++ ops) ops' := by
  induction ops generalizing done with
  | nil => simp [portData]
  | cons op ops ih =>
    rw [List.cons_append, portData, portData, ih, List.append_assoc, List.append_assoc,
      List.singleton_append]

theorem portData_iowrite16 (vs : List (BitVec 16)) :
    portData hw done (vs.map fun v => .iowrite16 1 0 v) = vs := by
  induction vs generalizing done with
  | nil => rfl
  | cons v vs ih => rw [List.map_cons, portData, ih, portHalfword, List.singleton_append]

theorem portData_ioread16 (n : ℕ) :
    portData hw done (List.replicate n (.ioread16 1 0)) = (ioread16Rep hw n done).1 := by
  induction n generalizing done with
  | zero => rfl
  | succ n ih =>
    rw [List.replicate_succ, portData, ih, portHalfword, List.singleton_append, ioread16Rep]

theorem portData_programOps (device : BitVec 32) (dir : Dma.Direction) :
    portData hw done (programOps device dir) = [] := by
  cases dir <;> rfl

theorem ioread16Rep_length (n : ℕ) (log : List BusOp) : (ioread16Rep hw n log).1.length = n := by
  induction n generalizing log with
  | zero => rfl
  | succ n ih => rw [ioread16Rep, List.length_cons, ih]

end Port

theorem regWrites_append (reg : BitVec 32) (ops ops' : List BusOp) :
    regWrites reg (ops ++ ops') = regWrites reg ops ++ regWrites reg ops' :=
  List.filterMap_append

theorem regWrites_dataOps (reg : BitVec 32) (buf : List (BitVec 8)) (size : BitVec 32)
    (dir : Dma.Direction) : regWrites reg (dataOps buf size dir) = [] := by
  rw [regWrites, List.filterMap_eq_nil_iff]
  intro op hop
  cases dir with
  | up => rw [List.eq_of_mem_replicate hop]
  | down =>
    obtain ⟨i, -, rfl⟩ := List.mem_map.mp hop
    rfl

def dirBit : Dma.Direction → BitVec 32
  | .up => fpgaRdBit
  | .down => fpgaWrBit

theorem dirBit_cases (dir : Dma.Direction) : dirBit dir = fpgaRdBit ∨ dirBit dir = fpgaWrBit := by
  cases dir
  · exact .inl rfl
  · exact .inr rfl

theorem regWrites_programOps_lo (device : BitVec 32) (dir : Dma.Direction) :
    regWrites 0 (programOps device dir) = [(fpgaAddrLo device).setWidth 16] := by
  cases dir <;> simp [regWrites, programOps, AccessFns.addr]

/-- The register with the write bit is written twice, first with the bit of the other direction. -/
theorem regWrites_programOps_hi (device : BitVec 32) (dir : Dma.Direction) :
    ∃ before, regWrites 1 (programOps device dir) =
        [before, (fpgaAddrHi device ||| dirBit dir).setWidth 16] ∧
      before.getLsbD 15 = decide (dir = .up) := by
  cases dir with
  | up =>
    refine ⟨0x8000, ?_, by decide⟩
    simp [regWrites, programOps, AccessFns.addr, dirBit, fpgaRdBit]
  | down =>
    refine ⟨0, ?_, by decide⟩
    simp [regWrites, programOps, AccessFns.addr, dirBit]

/-! ## Which requests are moved as asked for -/

section Moves
variable {hw : Hardware} {buf after : List (BitVec 8)} {xfer : Dma.Transfer} {dir : Dma.Direction}
  {log : List BusOp}

/-- The address registers and the write bit at the end of a transfer. -/
theorem addressed_iff (device size : BitVec 32) (dir : Dma.Direction) :
    (∃ hi lo, (regWrites 1 (programOps device dir ++ dataOps buf size dir)).getLast? = some hi ∧
      (regWrites 0 (programOps device dir ++ dataOps buf size dir)).getLast? = some lo ∧
      decode hi lo = device) ↔ device.toNat < 2 ^ 31 ∧ 2 ∣ device.toNat := by
  obtain ⟨before, hhi, -⟩ := regWrites_programOps_hi device dir
  rw [← and_mask_iff, ← decode_addr device (dirBit dir) (dirBit_cases dir)]
  simp only [regWrites_append, regWrites_dataOps, List.append_nil, hhi,
    regWrites_programOps_lo]
  simp

/-- The write bit is toggled to that of the direction by every transfer. -/
theorem toggled (device size : BitVec 32) (dir : Dma.Direction) :
    ∃ earlier before last,
      regWrites 1 (programOps device dir ++ dataOps buf size dir) = earlier ++ [before, last] ∧
      (last.getLsbD 15 = true ↔ dir = .down) ∧ before.getLsbD 15 ≠ last.getLsbD 15 := by
  obtain ⟨before, hhi, hbefore⟩ := regWrites_programOps_hi device dir
  have hlast := getLsbD_hi device (dirBit dir) (dirBit_cases dir)
  refine ⟨[], before, (fpgaAddrHi device ||| dirBit dir).setWidth 16, ?_, ?_, ?_⟩
  · rw [regWrites_append, regWrites_dataOps, List.append_nil, hhi, List.nil_append]
  · rw [hlast]
    cases dir <;> simp [dirBit, fpgaRdBit, fpgaWrBit]
  · rw [hlast, hbefore]
    cases dir <;> decide

theorem covers_iff (hlen : buf.length = xfer.size.toNat)
    (h : (doMembusXfer hw buf xfer (upDown dir) log).1 = .ok after) :
    bytes (portData hw log (programOps xfer.device dir ++ dataOps buf xfer.size dir)) = after ↔
      2 ∣ xfer.size.toNat := by
  have hle : 2 * (xfer.size.toNat / 2) ≤ buf.length := by omega
  rw [portData_append, portData_programOps, List.nil_append]
  cases dir with
  | up =>
    rw [doMembusXfer_up] at h
    obtain rfl := Except.ok.inj h
    rw [dataOps, portData_ioread16, Buffer.write, List.take_zero, List.nil_append, zero_add,
      length_bytes, ioread16Rep_length, List.self_eq_append_right, List.drop_eq_nil_iff]
    omega
  | down =>
    obtain rfl : buf = after := by simpa [doMembusXfer, upDown] using h
    have hdata : dataOps buf xfer.size .down =
        ((List.range (xfer.size.toNat / 2)).map (halfword buf)).map fun v => .iowrite16 1 0 v := by
      rw [dataOps, List.map_map]
      rfl
    rw [hdata, portData_iowrite16, bytes_halfwords hle, List.take_eq_self_iff]
    omega

/-- A transfer with return value 0 moves exactly the requested bytes at the requested offset if and
only if the offset is even and below 2 GiB and the size is even. -/
theorem doMembusXfer_moves_iff (hlen : buf.length = xfer.size.toNat) :
    (∀ after, (doMembusXfer hw buf xfer (upDown dir) log).1 = .ok after →
      ∃ ops, (doMembusXfer hw buf xfer (upDown dir) log).2 = log ++ ops ∧
        MovesExactly hw xfer.device dir after log ops) ↔ Encodable xfer := by
  have hok : ∃ after, (doMembusXfer hw buf xfer (upDown dir) log).1 = .ok after := by
    cases dir with
    | up => exact ⟨_, doMembusXfer_up hw buf xfer log⟩
    | down => exact ⟨buf, by simp [doMembusXfer, upDown]⟩
  constructor
  · intro h
    obtain ⟨after, hafter⟩ := hok
    obtain ⟨ops, hops, hmoves⟩ := h after hafter
    rw [doMembusXfer_log, List.append_cancel_left_eq] at hops
    subst hops
    obtain ⟨hlt, heven⟩ := (addressed_iff xfer.device xfer.size dir).mp hmoves.address
    exact ⟨hlt, heven, (covers_iff hlen hafter).mp hmoves.covers⟩
  · rintro ⟨hlt, heven, hsize⟩ after hafter
    exact ⟨_, doMembusXfer_log hw buf xfer dir log,
      (addressed_iff xfer.device xfer.size dir).mpr ⟨hlt, heven⟩,
      toggled xfer.device xfer.size dir, (covers_iff hlen hafter).mpr hsize⟩

end Moves

theorem doMembusXfer_moves_four : ∃ ops,
    (doMembusXfer (fun _ _ => 0) [1, 2, 3, 4] ⟨0, 16, 4⟩ (upDown .down) []).2 = ops ∧
      MovesExactly (fun _ _ => 0) 16 .down [1, 2, 3, 4] [] ops := by
  have henc : Encodable ⟨0, 16, 4⟩ := by decide
  obtain ⟨ops, hops, hmoves⟩ := (@doMembusXfer_moves_iff (fun _ _ => 0) [1, 2, 3, 4] _ .down []
    rfl).mpr henc [1, 2, 3, 4] rfl
  exact ⟨ops, hops, hmoves⟩

/-- A transfer to an offset from 2 GiB on goes to another offset. -/
theorem transfer_moved_elsewhere : ¬ ∀ (hw : Hardware) (buf : List (BitVec 8))
    (xfer : Dma.Transfer) (dir : Dma.Direction) (log : List BusOp),
    buf.length = xfer.size.toNat →
      ∀ after, (doMembusXfer hw buf xfer (upDown dir) log).1 = .ok after →
        ∃ ops, (doMembusXfer hw buf xfer (upDown dir) log).2 = log ++ ops ∧
          MovesExactly hw xfer.device dir after log ops := by
  intro h
  obtain ⟨ops, hops, hmoves⟩ := h (fun _ _ => 0) [1, 2] ⟨0, 0x80000010, 2⟩ .down [] rfl [1, 2] rfl
  rw [doMembusXfer_log, List.append_cancel_left_eq] at hops
  subst hops
  obtain ⟨hlt, -⟩ := (addressed_iff _ _ _).mp hmoves.address
  exact absurd hlt (by decide)

end BifrostModule.Membus
