import BifrostModule.Regb.Ioctl

/-! # Which register requests stay inside their window

`check_bar_access` compares one byte offset with the size of the window. Whether
an accepted access stays inside depends on the width and the scaling of the
access functions, and in a range on every offset that the loop reaches.
-/
namespace BifrostModule.Regb
open Foundation

/-- `q` holds at every index below `n` that is reached without `p` failing. -/
def UpTo (n : ℕ) (p q : ℕ → Prop) : Prop := ∀ k < n, (∀ j ≤ k, p j) → q k

theorem upTo_zero (p q : ℕ → Prop) : UpTo 0 p q := fun _ hk => absurd hk (Nat.not_lt_zero _)

/-- A reached index is the first one or is reached from the second one on. -/
theorem upTo_succ (n : ℕ) (p q : ℕ → Prop) :
    UpTo (n + 1) p q ↔ (p 0 → q 0 ∧ UpTo n (fun k => p (k + 1)) fun k => q (k + 1)) := by
  constructor
  · intro h h0
    refine ⟨h 0 n.succ_pos ?_, fun k hk hp => h (k + 1) (Nat.succ_lt_succ hk) ?_⟩
    · intro j hj
      exact Nat.le_zero.mp hj ▸ h0
    · intro j hj
      cases j with
      | zero => exact h0
      | succ j => exact hp j (Nat.le_of_succ_le_succ hj)
  · intro h k hk hp
    obtain ⟨h0, hrest⟩ := h (hp 0 k.zero_le)
    cases k with
    | zero => exact h0
    | succ k =>
      apply hrest k (Nat.lt_of_succ_lt_succ hk)
      intro j hj
      exact hp (j + 1) (Nat.succ_le_succ hj)

def DeviceMemory.Fits (mem : DeviceMemory) (offset : BitVec 32) : Prop :=
  match mem.fns with
  | .deviceMemory => offset.toNat + 4 ≤ mem.size
  | .membusDeviceMemory => 2 * offset.toNat % 2 ^ 32 + 2 ≤ mem.size

theorem DeviceMemory.fits_iff (mem : DeviceMemory) (offset : BitVec 32) :
    mem.Fits offset ↔ mem.fns.addr offset + mem.fns.width ≤ mem.size := by
  unfold Fits
  cases mem.fns with
  | deviceMemory => rfl
  | membusDeviceMemory =>
    rw [AccessFns.addr, BitVec.toNat_shiftLeft, Nat.shiftLeft_eq, pow_one, Nat.mul_comm]
    rfl

namespace BifrostDevice
variable (dev : BifrostDevice) (hw : Hardware)

/-- Every byte touched lies in the window of its BAR. -/
def Inside (log : List BusOp) : Prop :=
  ∀ op ∈ log, ∀ b, op.Touches b → b < (dev.regb op.bar).size

variable {dev}

theorem inside_nil : dev.Inside [] := fun _ h => absurd h List.not_mem_nil

theorem inside_append {log log' : List BusOp} :
    dev.Inside (log ++ log') ↔ dev.Inside log ∧ dev.Inside log' := by
  simp only [Inside, List.mem_append, or_imp, forall_and]

theorem inside_readOp {b : Bar} {offset : BitVec 32} :
    dev.Inside [(dev.regb b).fns.readOp b offset] ↔ (dev.regb b).Fits offset := by
  have hw : 0 < (dev.regb b).fns.width := by cases (dev.regb b).fns <;> decide
  rw [DeviceMemory.fits_iff]
  simp only [Inside, List.mem_singleton, forall_eq, AccessFns.readOp_touches,
    AccessFns.readOp_bar]
  constructor
  · intro h
    have hlast := h ((dev.regb b).fns.addr offset + (dev.regb b).fns.width - 1)
      ⟨by omega, by omega⟩
    omega
  · rintro h n ⟨-, hn⟩
    omega

theorem inside_writeOp {b : Bar} {offset value : BitVec 32} :
    dev.Inside [(dev.regb b).fns.writeOp b offset value] ↔ (dev.regb b).Fits offset := by
  rw [← inside_readOp]
  simp only [Inside, List.mem_singleton, forall_eq, AccessFns.readOp_touches,
    AccessFns.readOp_bar, AccessFns.writeOp_touches, AccessFns.writeOp_bar]

theorem Grants.unique {bar access access' : BitVec 32} {b c : Bar}
    (hb : dev.Grants bar access b) (hc : dev.Grants bar access' c) : b = c :=
  Fin.ext (hb.1.symm.trans hc.1)

/-- The check either names the one BAR that grants the request or fails for all of them. -/
theorem checkBarAccess_cases (dev : BifrostDevice) (bar access offset : BitVec 32) :
    (∃ b, dev.checkBarAccess bar access offset = .ok b ∧ dev.Grants bar access b ∧
      offset.toNat < (dev.regb b).size) ∨
    (∃ e, dev.checkBarAccess bar access offset = .error e ∧
      ∀ b, dev.Grants bar access b → ¬ offset.toNat < (dev.regb b).size) := by
  cases h : dev.checkBarAccess bar access offset with
  | ok b => exact .inl ⟨b, rfl, (checkBarAccess_ok_iff dev bar access offset b).mp h⟩
  | error e =>
    refine .inr ⟨e, rfl, fun b hg hs => ?_⟩
    rw [(checkBarAccess_ok_iff dev bar access offset b).mpr ⟨hg, hs⟩] at h
    cases h

/-- What an access with the given rights has to meet on the BAR it is granted on, where the
`k`-th of `n` accesses is at `offsetAt k`. -/
def Meets (dev : BifrostDevice) (bar access : BitVec 32) (n : ℕ) (offsetAt : ℕ → BitVec 32) :
    Prop :=
  ∀ b, dev.Grants bar access b →
    UpTo n (fun k => (offsetAt k).toNat < (dev.regb b).size) fun k =>
      (dev.regb b).Fits (offsetAt k)

variable {bar offset : BitVec 32} {log : List BusOp}

theorem meets_of_refused {access : BitVec 32} {n : ℕ} {offsetAt : ℕ → BitVec 32}
    (h : ∀ b, dev.Grants bar access b → ¬ (offsetAt 0).toNat < (dev.regb b).size) :
    dev.Meets bar access n offsetAt :=
  fun b hg _ _ hp => absurd (hp 0 (Nat.zero_le _)) (h b hg)

theorem meets_zero {access : BitVec 32} {offsetAt : ℕ → BitVec 32} :
    dev.Meets bar access 0 offsetAt := fun _ _ => upTo_zero _ _

/-- A request whose check succeeds has its first access inside and goes on. -/
theorem meets_succ {access : BitVec 32} {n : ℕ} {offsetAt : ℕ → BitVec 32} {b : Bar}
    (hg : dev.Grants bar access b) (hs : (offsetAt 0).toNat < (dev.regb b).size) :
    dev.Meets bar access (n + 1) offsetAt ↔
      (dev.regb b).Fits (offsetAt 0) ∧ dev.Meets bar access n fun k => offsetAt (k + 1) := by
  constructor
  · intro h
    obtain ⟨h0, -⟩ := (upTo_succ n _ _).mp (h b hg) hs
    refine ⟨h0, fun c hc => ?_⟩
    obtain rfl := hg.unique hc
    exact ((upTo_succ n _ _).mp (h b hg) hs).2
  · rintro ⟨h0, hrest⟩ c hc
    obtain rfl := hg.unique hc
    exact (upTo_succ n _ _).mpr fun _ => ⟨h0, hrest b hc⟩

theorem meets_one {access : BitVec 32} {offsetAt : ℕ → BitVec 32} {b : Bar}
    (hg : dev.Grants bar access b) (hs : (offsetAt 0).toNat < (dev.regb b).size) :
    dev.Meets bar access 1 offsetAt ↔ (dev.regb b).Fits (offsetAt 0) := by
  rw [meets_succ hg hs]
  exact and_iff_left meets_zero

theorem inside_doReadRegb : dev.Inside (dev.doReadRegb hw bar offset log).2 ↔
    dev.Inside log ∧ dev.Meets bar rdAccess 1 fun _ => offset := by
  unfold doReadRegb
  rcases dev.checkBarAccess_cases bar rdAccess offset with ⟨b, h, hg, hs⟩ | ⟨e, h, hno⟩
  · simp only [h, AccessFns.rd_log, inside_append, inside_readOp]
    rw [meets_one hg hs]
  · simp only [h]
    exact (and_iff_left (meets_of_refused hno)).symm

theorem inside_doWriteRegb {value : BitVec 32} :
    dev.Inside (dev.doWriteRegb bar offset value log).2 ↔
      dev.Inside log ∧ dev.Meets bar wrAccess 1 fun _ => offset := by
  unfold doWriteRegb
  rcases dev.checkBarAccess_cases bar wrAccess offset with ⟨b, h, hg, hs⟩ | ⟨e, h, hno⟩
  · simp only [h, AccessFns.wr_log, inside_append, inside_writeOp]
    rw [meets_one hg hs]
  · simp only [h]
    exact (and_iff_left (meets_of_refused hno)).symm

theorem inside_doModifyRegb {clear set : BitVec 32} :
    dev.Inside (dev.doModifyRegb hw bar offset clear set log).2 ↔
      dev.Inside log ∧ dev.Meets bar (rdAccess ||| wrAccess) 1 fun _ => offset := by
  unfold doModifyRegb
  rcases dev.checkBarAccess_cases bar (rdAccess ||| wrAccess) offset with
    ⟨b, h, hg, hs⟩ | ⟨e, h, hno⟩
  · simp only [h, AccessFns.rd_log, AccessFns.wr_log, inside_append, inside_readOp,
      inside_writeOp]
    rw [meets_one hg hs, and_assoc, and_self]
  · simp only [h]
    exact (and_iff_left (meets_of_refused hno)).symm

/-- The reading loop, by induction on the registers to go. -/
theorem inside_readLoop (dev : BifrostDevice) (bar offset incr : BitVec 32) (n : ℕ)
    (i : BitVec 32) (log : List BusOp) :
    dev.Inside (dev.readLoop hw bar offset incr n i log).2 ↔
      dev.Inside log ∧
        dev.Meets bar rdAccess n fun k => offset + (i + BitVec.ofNat 32 k) * incr := by
  induction n generalizing i log with
  | zero => exact (and_iff_left meets_zero).symm
  | succ n ih =>
    rw [readLoop, doReadRegb]
    rcases dev.checkBarAccess_cases bar rdAccess (offset + i * incr) with
      ⟨b, h, hg, hs⟩ | ⟨e, h, hno⟩
    · have hshift : ∀ k, i + 1 + BitVec.ofNat 32 k = i + BitVec.ofNat 32 (k + 1) := by
        intro k
        rw [BitVec.add_assoc, BitVec.add_comm 1, BitVec.ofNat_add]
        rfl
      simp only [h, ih, AccessFns.rd_log, inside_append, inside_readOp, hshift]
      rw [meets_succ hg (by simpa using hs), and_assoc]
      simp
    · simp only [h]
      refine (and_iff_left (meets_of_refused ?_)).symm
      simpa using hno

theorem inside_writeLoop (dev : BifrostDevice) (bar offset : BitVec 32)
    (buf : List (BitVec 32)) (log : List BusOp) :
    dev.Inside (dev.writeLoop bar offset buf log).2 ↔
      dev.Inside log ∧ dev.Meets bar wrAccess buf.length fun _ => offset := by
  induction buf generalizing log with
  | nil => exact (and_iff_left meets_zero).symm
  | cons value buf ih =>
    rw [writeLoop, doWriteRegb]
    rcases dev.checkBarAccess_cases bar wrAccess offset with ⟨b, h, hg, hs⟩ | ⟨e, h, hno⟩
    · simp only [h, ih, AccessFns.wr_log, inside_append, inside_writeOp]
      rw [List.length_cons, meets_succ hg hs, and_assoc]
    · simp only [h]
      exact (and_iff_left (meets_of_refused hno)).symm

end BifrostDevice

namespace Request

def bar : Request → BitVec 32
  | readRegb bar _ => bar
  | writeRegb bar _ _ => bar
  | modifyRegb bar _ _ _ => bar
  | readRangeRegb bar _ _ => bar
  | readRepeatRegb bar _ _ => bar
  | writeRepeatRegb bar _ _ _ => bar

def access : Request → BitVec 32
  | readRegb _ _ => rdAccess
  | writeRegb _ _ _ => wrAccess
  | modifyRegb _ _ _ _ => rdAccess ||| wrAccess
  | readRangeRegb _ _ _ => rdAccess
  | readRepeatRegb _ _ _ => rdAccess
  | writeRepeatRegb _ _ _ _ => wrAccess

def offsetAt : Request → ℕ → BitVec 32
  | readRegb _ offset, _ => offset
  | writeRegb _ offset _, _ => offset
  | modifyRegb _ offset _ _, _ => offset
  | readRangeRegb _ offset _, k => offset + BitVec.ofNat 32 k * 4
  | readRepeatRegb _ offset _, _ => offset
  | writeRepeatRegb _ offset _ _, _ => offset

def steps (sys : Services) : Request → ℕ
  | readRegb _ _ => if sys.argCopied then 1 else 0
  | writeRegb _ _ _ => if sys.argCopied then 1 else 0
  | modifyRegb _ _ _ _ => if sys.argCopied then 1 else 0
  | readRangeRegb _ _ count => if sys.argCopied ∧ sys.allocated then count.toNat else 0
  | readRepeatRegb _ _ count => if sys.argCopied ∧ sys.allocated then count.toNat else 0
  | writeRepeatRegb _ _ count _ => if sys.argCopied ∧ sys.allocated then count.toNat else 0

/-- On the BAR that grants the request, each offset reached by offsets below the window's
size leaves room for the width of the access, after scaling. -/
def Fits (req : Request) (dev : BifrostDevice) (sys : Services) : Prop :=
  dev.Meets req.bar req.access (req.steps sys) req.offsetAt

end Request

theorem inside_unless {dev : BifrostDevice} {α : Type} {p : Prop} [Decidable p] {e : Except Errno α}
    {r : Except Errno α × List BusOp} {bar access : BitVec 32} {n : ℕ}
    {offsetAt : ℕ → BitVec 32}
    (h : dev.Inside r.2 ↔ dev.Inside [] ∧ dev.Meets bar access n offsetAt) :
    dev.Inside (if ¬ p then (e, []) else r).2 ↔
      dev.Meets bar access (if p then n else 0) offsetAt := by
  by_cases hp : p
  · rw [if_neg (not_not.mpr hp), if_pos hp, h]
    exact and_iff_right BifrostDevice.inside_nil
  · rw [if_pos hp, if_neg hp]
    exact iff_of_true BifrostDevice.inside_nil BifrostDevice.meets_zero

/-- A register request touches only bytes of its BAR's window exactly if it fits. -/
theorem ioctl_inside_iff (dev : BifrostDevice) (hw : Hardware) (sys : Services) (req : Request) :
    dev.Inside (dev.ioctl hw sys [] req).2 ↔ req.Fits dev sys := by
  cases req with
  | readRegb bar offset => exact inside_unless (BifrostDevice.inside_doReadRegb hw)
  | writeRegb bar offset value => exact inside_unless BifrostDevice.inside_doWriteRegb
  | modifyRegb bar offset clear set => exact inside_unless (BifrostDevice.inside_doModifyRegb hw)
  | readRangeRegb bar offset count =>
    apply inside_unless
    have h := BifrostDevice.inside_readLoop hw dev bar offset 4 count.toNat 0 []
    simp only [zero_add] at h
    exact h
  | readRepeatRegb bar offset count =>
    apply inside_unless
    have h := BifrostDevice.inside_readLoop hw dev bar offset 0 count.toNat 0 []
    simp only [mul_zero, add_zero] at h
    exact h
  | writeRepeatRegb bar offset count buf =>
    apply inside_unless
    split_ifs with hc
    · have h0 : count.toNat = 0 := by rw [hc.1]; rfl
      rw [h0]
      exact (and_iff_left BifrostDevice.meets_zero).symm
    · have h := BifrostDevice.inside_writeLoop dev bar offset
        ((List.range count.toNat).map buf) []
      simp only [List.length_map, List.length_range] at h
      exact h

/-- The last accepted offsets of a window are outside it: byte 4093 of a 4096-byte PCI BAR, and
register 2048 of a memory-bus BAR, whose byte address is 4096. -/
theorem ioctl_not_inside :
    ¬ (pciDevice false (fun _ => 4096) fun _ => true).Inside
        ((pciDevice false (fun _ => 4096) fun _ => true).ioctl (fun _ _ => 0)
          ⟨true, true, true, true⟩ [] (.readRegb 1 4093)).2 ∧
      ¬ (membusDevice false fun _ => true).Inside
        ((membusDevice false fun _ => true).ioctl (fun _ _ => 0)
          ⟨true, true, true, true⟩ [] (.readRegb 0 2048)).2 := by
  constructor
  · intro h
    have h1 := h (.ioread32 1 4093) (by decide) 4096 ⟨by decide, by decide⟩
    exact absurd h1 (by decide)
  · intro h
    have h1 := h (.ioread16 0 4096) (by decide) 4096 ⟨by decide, by decide⟩
    exact absurd h1 (by decide)

end BifrostModule.Regb
