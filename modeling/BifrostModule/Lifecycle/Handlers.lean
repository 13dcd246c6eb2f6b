import BifrostModule.Lifecycle.Driver
import BifrostModule.Regb.Ioctl

/-! # Interrupts and ioctls between the lifecycle steps

The module loader runs `bifrost_init` and `bifrost_exit`, the PCI core probes
and removes the device, each one call at a time. In between, any registered
interrupt handler may run, and any ioctl while the character device is live.
Every use of the DMA controller and of a register window is recorded.
-/
namespace BifrostModule.Lifecycle
open Foundation Regb

inductive Target where
  | dmaCtl
  | window
  deriving DecidableEq

/-- A use, with whether the controller was allocated or the window mapped. -/
structure Access where
  target : Target
  live : Bool
  deriving DecidableEq

/-- The lifecycle state, what is left to do of `bifrost_init` or `bifrost_exit` and of a probe or
removal, and the record of uses. -/
structure Run where
  drv : State
  main : Driver Unit
  pci : Driver Unit
  accesses : List Access

inductive Label where
  | load (membus : Bool)
  | unload
  | probe (irq : ℤ)
  | remove
  | main (env : Env)
  | pci (env : Env)
  | msi (v : Vec) (irq : ℤ)
  | fpga (i : Fin 3)
  | stray (isr : Isr)
  | registers (hw : Hardware) (sys : Regb.Services) (req : Request)
  | startDma (prepared : Bool) (req : ℕ)

namespace State
variable (s : State)

/-- The controller that `dma_ctl` points to, if its memory is allocated. -/
def currentCtl : Option (Dma.DmaCtl ℕ) := s.dmaCtl.bind s.ctls

def setCurrent (ctl : Dma.DmaCtl ℕ) : State :=
  s.dmaCtl.elim s fun q => s.setCtl q (some ctl)

def bifrostDmaChanStart : Access := ⟨.window, s.dmaMapped⟩

/-- `dma_msi_handler` with `dma_done`, whose first use of the controller is `lookup_chan`. -/
def dmaMsiHandler (irq : ℤ) : State × List Access :=
  match s.currentCtl with
  | none => (s, [⟨.dmaCtl, false⟩])
  | some ctl =>
    match ctl.takeInProgress irq with
    | none => (s, [⟨.dmaCtl, true⟩])
    | some (c, _, ctl) =>
      let (ctl, next) := ctl.handOff c
      (s.setCurrent ctl, ⟨.dmaCtl, true⟩ :: next.elim [] fun _ => [s.bifrostDmaChanStart])

/-- The FVD handlers read registers of BAR0. -/
def fvdHandler : List Access := [⟨.window, (s.regb 0).mapped⟩]

def runIsr (irq : ℤ) : Isr → State × List Access
  | .dmaMsi => s.dmaMsiHandler irq
  | .defaultMsi => (s, [])
  | .fvdMsi => (s, s.fvdHandler)
  | .fpga _ => (s, s.fvdHandler)

/-- A handler whose device structure is gone. -/
def runStray : Isr → List Access
  | .dmaMsi => [⟨.dmaCtl, false⟩]
  | .defaultMsi => []
  | .fvdMsi => [⟨.window, false⟩]
  | .fpga _ => [⟨.window, false⟩]

def device (p : Platform) : BifrostDevice := ⟨s.membus, p.fvd, fun b => (s.regb b).mem⟩

def registerAccesses (p : Platform) (hw : Hardware) (sys : Regb.Services) (req : Request) :
    List Access :=
  (((s.device p).ioctl hw sys [] req).2).map fun op => ⟨.window, (s.regb op.bar).mapped⟩

def startDmaXfer (req : ℕ) : State × List Access :=
  match s.currentCtl with
  | none => (s, [⟨.dmaCtl, false⟩])
  | some ctl =>
    let (ctl, started) := ctl.startDmaXfer req
    (s.setCurrent ctl, ⟨.dmaCtl, true⟩ :: started.elim [] fun _ => [s.bifrostDmaChanStart])

/-- `bifrost_do_xfer` once its buffers are there: `WriteSDRAM` and `ReadSDRAM` use both windows of
the memory bus. -/
def bifrostDoXfer (req : ℕ) : State × List Access :=
  if s.membus then (s, [⟨.window, (s.regb 0).mapped⟩, ⟨.window, (s.regb 1).mapped⟩])
  else s.startDmaXfer req

end State

def moduleInit (membus : Bool) : Driver Unit := do
  let rc ← bifrostInit membus
  set (.loaded (rc = 0))

def moduleExit (membus : Bool) : Driver Unit := do
  bifrostExit membus
  set (.loaded false)

/-- The PCI core binds the device if its probe succeeds. -/
def pciProbe (p : Platform) (irq : ℤ) : Driver Unit := do
  let rc ← Pci.bifrostPciProbe p irq
  set (.probed rc.isNone)

/-- The PCI core unbinds the device. -/
def pciRemove (p : Platform) : Driver Unit := do
  Pci.bifrostPciRemove p
  set (.probed false)

namespace Run

def advance (drv : State) (env : Env) : Driver Unit → Option (State × Driver Unit)
  | .ret _ => none
  | .call op next => (drv.reply op (env op)).map fun r => (r.2, next r.1)

def record (s : Run) (r : State × List Access) : Run :=
  { s with drv := r.1, accesses := s.accesses ++ r.2 }

def step (p : Platform) (s : Run) : Label → Option Run
  | .load membus =>
    if s.main.head.isNone ∧ s.pci.head.isNone ∧ s.drv.loaded = false then
      some { s with drv := .fresh s.drv.strays, main := moduleInit membus }
    else none
  | .unload =>
    if s.main.head.isNone ∧ s.drv.loaded ∧ s.drv.Held .bdev then
      some { s with main := moduleExit s.drv.membus }
    else none
  | .probe irq =>
    if s.drv.Held .pciDriver ∧ s.drv.Held .bdev ∧ s.pci.head.isNone ∧ ¬ s.drv.bound then
      some { s with drv := { s.drv with probing := true }, pci := pciProbe p irq }
    else none
  | .remove =>
    if s.drv.bound ∧ s.drv.Held .bdev ∧ s.pci.head.isNone then
      some { s with drv := { s.drv with probing := true }, pci := pciRemove p }
    else none
  | .main env => (advance s.drv env s.main).map fun r => { s with drv := r.1, main := r.2 }
  | .pci env =>
    if s.drv.Held .bdev then
      (advance s.drv env s.pci).map fun r => { s with drv := r.1, pci := r.2 }
    else none
  | .msi v irq =>
    if s.drv.Held (.msiIrq v) ∧ s.drv.Held .bdev then
      (s.drv.msi v).handler.map fun isr => s.record (s.drv.runIsr irq isr)
    else none
  | .fpga i =>
    if s.drv.Held (.fpgaIrq i) ∧ s.drv.Held .bdev then
      some (s.record (s.drv.runIsr 0 (.fpga i)))
    else none
  | .stray isr =>
    if isr ∈ s.drv.strays then some (s.record (s.drv, State.runStray isr)) else none
  | .registers hw sys req =>
    if s.drv.Held .cdev then some (s.record (s.drv, s.drv.registerAccesses p hw sys req)) else none
  | .startDma prepared req =>
    if s.drv.Held .cdev then
      some (if prepared then s.record (s.drv.bifrostDoXfer req) else s)
    else none

end Run

/-- The driver of a platform, from before its module is first loaded. -/
def lifecycle (p : Platform) : Machine Run Label where
  start := fun s => s = ⟨.fresh [], .ret (), .ret (), []⟩
  step := Run.step p

/-- Every controller used was allocated and every window used was mapped. -/
def Run.Live (s : Run) : Prop := ∀ a ∈ s.accesses, a.live = true

end BifrostModule.Lifecycle
