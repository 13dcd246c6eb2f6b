import BifrostModule.Foundation.Errno

/-! # Register windows of `bifrost_pci.c` and `bifrost_membus.c`

A BAR is a window of `size` bytes with a pair of access functions. The hardware
behind it is a function of the history of bus operations, so nothing is assumed
about what a register returns.
-/
namespace BifrostModule.Regb
open Foundation

abbrev numBars : ℕ := 6

instance numBars_neZero : NeZero numBars := ⟨by decide⟩

abbrev Bar := Fin numBars

/-- One bus access, at a byte address relative to `mem->addr` of its BAR. -/
inductive BusOp where
  | ioread32 (bar : Bar) (addr : ℕ)
  | ioread16 (bar : Bar) (addr : ℕ)
  | iowrite32 (bar : Bar) (addr : ℕ) (value : BitVec 32)
  | iowrite16 (bar : Bar) (addr : ℕ) (value : BitVec 16)
  deriving DecidableEq

namespace BusOp

def bar : BusOp → Bar
  | ioread32 bar _ => bar
  | ioread16 bar _ => bar
  | iowrite32 bar _ _ => bar
  | iowrite16 bar _ _ => bar

def addr : BusOp → ℕ
  | ioread32 _ addr => addr
  | ioread16 _ addr => addr
  | iowrite32 _ addr _ => addr
  | iowrite16 _ addr _ => addr

def width : BusOp → ℕ
  | ioread32 _ _ => 4
  | ioread16 _ _ => 2
  | iowrite32 _ _ _ => 4
  | iowrite16 _ _ _ => 2

def Touches (op : BusOp) (b : ℕ) : Prop := op.addr ≤ b ∧ b < op.addr + op.width

end BusOp

/-- What the hardware answers to an access, given all earlier ones. -/
abbrev Hardware := List BusOp → BusOp → BitVec 32

/-- The two pairs of access functions a BAR's `rd` and `wr` can point to. -/
inductive AccessFns where
  | deviceMemory
  | membusDeviceMemory
  deriving DecidableEq

namespace AccessFns

/-- The byte address of a register offset; `offset << 1` is a 32-bit shift. -/
def addr : AccessFns → BitVec 32 → ℕ
  | deviceMemory, offset => offset.toNat
  | membusDeviceMemory, offset => (offset <<< 1).toNat

def width : AccessFns → ℕ
  | deviceMemory => 4
  | membusDeviceMemory => 2

def readOp : AccessFns → Bar → BitVec 32 → BusOp
  | deviceMemory, bar, offset => .ioread32 bar (deviceMemory.addr offset)
  | membusDeviceMemory, bar, offset => .ioread16 bar (membusDeviceMemory.addr offset)

def writeOp : AccessFns → Bar → BitVec 32 → BitVec 32 → BusOp
  | deviceMemory, bar, offset, value => .iowrite32 bar (deviceMemory.addr offset) value
  | membusDeviceMemory, bar, offset, value =>
    .iowrite16 bar (membusDeviceMemory.addr offset) (value.setWidth 16)

/-- `read_device_memory` and `membus_read_device_memory`, which always return 0. -/
def rd (f : AccessFns) (hw : Hardware) (bar : Bar) (offset : BitVec 32) (log : List BusOp) :
    BitVec 32 × List BusOp :=
  let v := hw log (f.readOp bar offset)
  match f with
  | deviceMemory => (v, log ++ [deviceMemory.readOp bar offset])
  | membusDeviceMemory =>
    ((v.setWidth 16).setWidth 32, log ++ [membusDeviceMemory.readOp bar offset])

/-- `write_device_memory` and `membus_write_device_memory`, which always return 0. -/
def wr (f : AccessFns) (bar : Bar) (offset value : BitVec 32) (log : List BusOp) :
    List BusOp :=
  log ++ [f.writeOp bar offset value]

@[simp] theorem rd_log (f : AccessFns) (hw : Hardware) (bar : Bar) (offset : BitVec 32)
    (log : List BusOp) : (f.rd hw bar offset log).2 = log ++ [f.readOp bar offset] := by
  cases f <;> rfl

@[simp] theorem wr_log (f : AccessFns) (bar : Bar) (offset value : BitVec 32)
    (log : List BusOp) : f.wr bar offset value log = log ++ [f.writeOp bar offset value] := rfl

@[simp] theorem readOp_bar (f : AccessFns) (bar : Bar) (offset : BitVec 32) :
    (f.readOp bar offset).bar = bar := by
  cases f <;> rfl

@[simp] theorem readOp_touches (f : AccessFns) (bar : Bar) (offset : BitVec 32) (b : ℕ) :
    (f.readOp bar offset).Touches b ↔ f.addr offset ≤ b ∧ b < f.addr offset + f.width := by
  cases f <;> rfl

@[simp] theorem writeOp_bar (f : AccessFns) (bar : Bar) (offset value : BitVec 32) :
    (f.writeOp bar offset value).bar = bar := by
  cases f <;> rfl

@[simp] theorem writeOp_touches (f : AccessFns) (bar : Bar) (offset value : BitVec 32) (b : ℕ) :
    (f.writeOp bar offset value).Touches b ↔
      f.addr offset ≤ b ∧ b < f.addr offset + f.width := by
  cases f <;> rfl

end AccessFns

/-- The fields of `struct device_memory` that decide an access. -/
structure DeviceMemory where
  enabled : Bool
  size : ℕ
  fns : AccessFns

/-- The fields of `struct bifrost_device` that decide an access, and `platform_fvd()`. -/
structure BifrostDevice where
  membus : Bool
  platformFvd : Bool
  regb : Bar → DeviceMemory

/-- The window of `init_device_memory` after `map_device_memory`, in `bifrost_pci.c`. -/
def pciDeviceMemory (size : ℕ) (iomapOk : Bool) : DeviceMemory where
  enabled := decide (size ≠ 0) && iomapOk
  size := size
  fns := .deviceMemory

/-- The window of `init_device_memory` after `map_device_memory`, in `bifrost_membus.c`. -/
def membusDeviceMemory (bar : Bar) (ioremapOk : Bool) : DeviceMemory where
  enabled := decide (bar.val < 2) && ioremapOk
  size := 4096
  fns := .membusDeviceMemory

/-- A probed PCI device: `setup_io_regions` and the BAR0 patch for FVD platforms. -/
def pciDevice (platformFvd : Bool) (resourceLen : Bar → ℕ) (iomapOk : Bar → Bool) :
    BifrostDevice where
  membus := false
  platformFvd := platformFvd
  regb := fun bar =>
    let mem := pciDeviceMemory (resourceLen bar) (iomapOk bar)
    if platformFvd ∧ bar = 0 then { mem with fns := .membusDeviceMemory } else mem

/-- A memory-bus device: `setup_io_regions` of `bifrost_membus.c`. -/
def membusDevice (platformFvd : Bool) (ioremapOk : Bar → Bool) : BifrostDevice where
  membus := true
  platformFvd := platformFvd
  regb := fun bar => membusDeviceMemory bar (ioremapOk bar)

def rdAccess : BitVec 32 := 0x1#32

def wrAccess : BitVec 32 := 0x2#32

def evAccess : BitVec 32 := 0x4#32

/-- `user_space_bar_access`: no write access to BAR0. -/
def userSpaceBarAccess (bar : Bar) : BitVec 32 :=
  if bar = 0 then rdAccess ||| evAccess else rdAccess ||| wrAccess ||| evAccess

def userSpaceBarAccessFvd (bar : Bar) : BitVec 32 :=
  if bar = 0 ∨ bar = 1 ∨ bar = 3 then rdAccess ||| wrAccess ||| evAccess else 0

def userSpaceMembusAccess (bar : Bar) : BitVec 32 :=
  if bar = 0 ∨ bar = 1 then rdAccess ||| wrAccess ||| evAccess else 0

namespace BifrostDevice

/-- The row of the access tables that `check_bar_access` selects. -/
def userAccess (dev : BifrostDevice) (bar : Bar) : BitVec 32 :=
  if dev.platformFvd then userSpaceBarAccessFvd bar
  else if dev.membus then userSpaceMembusAccess bar
  else userSpaceBarAccess bar

/-- `check_bar_access`. The bar is compared as a `size_t`, so that negative ones are large. -/
def checkBarAccess (dev : BifrostDevice) (bar access offset : BitVec 32) : Except Errno Bar :=
  if h : bar.toNat < numBars then
    let b : Bar := ⟨bar.toNat, h⟩
    if ¬ (dev.regb b).enabled then .error .EFAULT
    else if access ≠ access &&& dev.userAccess b then .error .EACCES
    else if offset.toNat ≥ (dev.regb b).size then .error .EFAULT
    else .ok b
  else .error .EINVAL

/-- The rights a request needs are granted on an enabled BAR. -/
def Grants (dev : BifrostDevice) (bar access : BitVec 32) (b : Bar) : Prop :=
  bar.toNat = b.val ∧ (dev.regb b).enabled ∧ access = access &&& dev.userAccess b

/-- The check lets a request through exactly if it is granted and its offset is in range. -/
theorem checkBarAccess_ok_iff (dev : BifrostDevice) (bar access offset : BitVec 32) (b : Bar) :
    dev.checkBarAccess bar access offset = .ok b ↔
      dev.Grants bar access b ∧ offset.toNat < (dev.regb b).size := by
  unfold checkBarAccess Grants
  by_cases hbar : bar.toNat < numBars
  · have hb : bar.toNat = b.val ↔ ⟨bar.toNat, hbar⟩ = b := by
      rw [Fin.ext_iff]
    rw [dif_pos hbar, hb]
    dsimp only
    constructor
    · intro h
      split_ifs at h with hen hacc hoff
      cases h
      exact ⟨⟨rfl, hen, not_not.mp hacc⟩, Nat.not_le.mp hoff⟩
    · rintro ⟨⟨rfl, hen, hacc⟩, hoff⟩
      rw [if_neg (not_not.mpr hen), if_neg (not_not.mpr hacc), if_neg (Nat.not_le.mpr hoff)]
  · rw [dif_neg hbar]
    refine ⟨fun h => (nomatch h), ?_⟩
    rintro ⟨⟨hb, -, -⟩, -⟩
    exact absurd (hb ▸ b.isLt) hbar

end BifrostDevice
end BifrostModule.Regb
