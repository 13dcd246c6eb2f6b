import BifrostModule.Lifecycle.Handlers
import BifrostModule.Regb.Inside

/-! # Where in the lifecycle a handler or an ioctl may run

A position is given by the call that comes next in load and unload and in probe and
removal, and by what the module loader and the PCI core know of the finished ones.
-/
namespace BifrostModule.Lifecycle
open Foundation Regb

namespace Op

/-- The calls of `bifrost_cdev_exit`, with which `bifrost_exit` begins. -/
def inCdevExit : Op → Bool
  | get .cdevInitialized => true
  | give .deviceNode => true
  | give .pClass => true
  | give .cdev => true
  | give .chrdevRegion => true
  | _ => false

/-- The calls of a probe once `bifrost_dma_init` has assigned `dma_ctl`, until its error path gives
up `dma_ctl` or the windows. -/
def pastDmaInit : Op → Bool
  | set (.enableDmaCh _ _) => true
  | take .platformDevice => true
  | check (.gpioIsValid _) => true
  | managed _ => true
  | uninitialised .fvdInitRc => true
  | unregisterPlatformDevice => true
  | get .dmaCtlIsNull => true
  | give .dmaCtl => true
  | take .sysfsGroup => true
  | set (.probed bound) => bound
  | _ => false

/-- The calls of `bifrost_pci_remove` before `remove_io_regions`. -/
def beforeUnmap : Op → Bool
  | unregisterPlatformDevice => true
  | give .sysfsGroup => true
  | get (.attached _) => true
  | give (.msiIrq _) => true
  | set (.msiIrq _ _) => true
  | give .msi => true
  | _ => false

end Op

namespace Run
variable (p : Platform) (s : Run)

/-- `bifrost_init` is under way or has returned 0, and `bifrost_exit` has not come past
`bifrost_cdev_exit`. -/
def up : Bool :=
  match s.main.head with
  | none => s.drv.loaded
  | some op => !s.drv.loaded || op.inCdevExit

/-- A probe has come past `bifrost_dma_init`, and has not begun to undo it, or has bound the device,
which no removal has unbound. -/
def pastDmaInit : Bool := s.drv.bound || s.pci.head.any Op.pastDmaInit

/-- The same, and no removal has come to `remove_io_regions`. -/
def beforeUnmap : Bool :=
  match s.pci.head with
  | none => s.drv.bound
  | some op => op.pastDmaInit || s.drv.bound && op.beforeUnmap

/-- The next call disables the window of a BAR whose mapping the last one has given up. -/
def Disabling (b : Bar) : Prop :=
  s.main.head = some (.set (.disable b)) ∨ s.pci.head = some (.set (.disable b))

/-- The probe has set the BAR up, and no removal has come to `remove_io_regions`. -/
def BarUp (b : Bar) : Prop := s.beforeUnmap = true ∧ (s.drv.regb b).setUp = true

/-- A completion interrupt would hand its channel to a queued request. -/
def HandsOver (irq : ℤ) : Prop :=
  ∃ ctl ∈ s.drv.currentCtl, (ctl.takeInProgress irq).isSome = true ∧ ctl.list ≠ []

def StartsAtOnce : Prop := ∃ ctl ∈ s.drv.currentCtl, ∃ c, ctl.Idle c

def DmaUp : Prop := s.up = true ∧ s.pastDmaInit = true

def IsrAllowed (irq : ℤ) : Isr → Prop
  | .dmaMsi => s.DmaUp ∧ (s.HandsOver irq → s.BarUp p.dmaBar)
  | .defaultMsi => True
  | .fvdMsi => s.BarUp 0
  | .fpga _ => s.BarUp 0

/-- The steps that may be taken. Load, unload, probe and removal go on as they like, and so do
transfers over the memory bus. -/
def Allowed : Label → Prop
  | .msi v irq => ∀ isr ∈ (s.drv.msi v).handler, s.IsrAllowed p irq isr
  | .fpga i => if s.drv.membus then s.up = true else s.IsrAllowed p 0 (.fpga i)
  | .stray isr => isr = .defaultMsi
  | .registers _ _ req => ∀ b : Bar, req.bar.toNat = b.val → ¬ s.Disabling b
  | .startDma prepared _ => prepared = true → s.drv.membus = false →
      s.DmaUp ∧ (s.StartsAtOnce → s.BarUp p.dmaBar)
  | _ => True

section Decidable

instance (b : Bar) : Decidable (s.Disabling b) := inferInstanceAs (Decidable (_ ∨ _))

instance (b : Bar) : Decidable (s.BarUp b) := inferInstanceAs (Decidable (_ ∧ _))

instance : Decidable s.DmaUp := inferInstanceAs (Decidable (_ ∧ _))

instance (irq : ℤ) : Decidable (s.HandsOver irq) := inferInstanceAs (Decidable (∃ ctl ∈ _, _))

instance : Decidable s.StartsAtOnce := inferInstanceAs (Decidable (∃ ctl ∈ _, _))

instance (irq : ℤ) : (isr : Isr) → Decidable (s.IsrAllowed p irq isr)
  | .dmaMsi => inferInstanceAs (Decidable (_ ∧ _))
  | .defaultMsi => inferInstanceAs (Decidable True)
  | .fvdMsi => inferInstanceAs (Decidable (s.BarUp 0))
  | .fpga _ => inferInstanceAs (Decidable (s.BarUp 0))

instance : (a : Label) → Decidable (s.Allowed p a)
  | .msi v irq =>
    inferInstanceAs (Decidable (∀ isr ∈ (s.drv.msi v).handler, s.IsrAllowed p irq isr))
  | .fpga i => inferInstanceAs
      (Decidable (if s.drv.membus then s.up = true else s.IsrAllowed p 0 (.fpga i)))
  | .stray isr => inferInstanceAs (Decidable (isr = .defaultMsi))
  | .registers _ _ req =>
    inferInstanceAs (Decidable (∀ b : Bar, req.bar.toNat = b.val → ¬ s.Disabling b))
  | .startDma prepared _ => inferInstanceAs (Decidable (prepared = true → s.drv.membus = false →
      s.DmaUp ∧ (s.StartsAtOnce → s.BarUp p.dmaBar)))
  | .load _ => inferInstanceAs (Decidable True)
  | .unload => inferInstanceAs (Decidable True)
  | .probe _ => inferInstanceAs (Decidable True)
  | .remove => inferInstanceAs (Decidable True)
  | .main _ => inferInstanceAs (Decidable True)
  | .pci _ => inferInstanceAs (Decidable True)

end Decidable

end Run
end BifrostModule.Lifecycle
