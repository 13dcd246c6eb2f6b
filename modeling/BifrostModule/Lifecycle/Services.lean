import BifrostModule.Foundation.Program
import BifrostModule.Dma.Controller
import BifrostModule.Regb.DeviceMemory

/-! # What loading, probing, removing and unloading work on

The kernel resources that the driver takes and gives back, the fields of
`struct bifrost_device` and of the static tables that its lifecycle functions
and its handlers share, and what each call does to them.
-/
namespace BifrostModule.Lifecycle
open Foundation Regb

structure Platform where
  rocky : Bool
  evander : Bool
  eoco : Bool
  ec702 : Bool
  deriving DecidableEq

def Platform.fvd (p : Platform) : Bool := p.rocky || p.evander || p.eoco || p.ec702

def Platform.dmaBar (p : Platform) : Bar :=
  if p.rocky then 3 else if p.evander || p.eoco || p.ec702 then 2 else 0

abbrev Vec := Fin 32

/-- `msi_interrupts`, which the probe lowers on FVD platforms. -/
def Platform.msiInterrupts (p : Platform) : ℕ := if p.fvd then 1 else 32

/-- The FPGA GPIOs and their interrupts are numbered by literals. -/
instance fpgaGpios_neZero : NeZero 3 := ⟨by decide⟩

/-- What the kernel hands out to the driver. -/
inductive Resource where
  | bdev
  | workPool
  | workQueue
  | pciDriver
  | device
  | msi
  | regions
  | window (bar : Bar)
  | msiIrq (v : Vec)
  | dmaCtl
  | platformDevice
  | gpio (i : Fin 3)
  | fpgaIrq (i : Fin 3)
  | sysfsGroup
  | chrdevRegion
  | cdev
  | pClass
  | deviceNode
  deriving DecidableEq

inductive Managed where
  | gpio (i : Fin 3)
  | fpgaIrq (i : Fin 3)
  deriving DecidableEq

def Managed.resource : Managed → Resource
  | gpio i => .gpio i
  | fpgaIrq i => .fpgaIrq i

/-- The interrupt handlers; `fpga` are `FVDInterruptService`, `FVDIRQ1Service` and
`FVDIRQ2Service`. -/
inductive Isr where
  | dmaMsi
  | defaultMsi
  | fvdMsi
  | fpga (i : Fin 3)
  deriving DecidableEq

def msiTable (v : Vec) : Option Isr :=
  if v.val < 8 then some .dmaMsi
  else if v.val = 8 ∨ 10 ≤ v.val ∧ v.val ≤ 17 then some .defaultMsi
  else none

def msiFvdTable (v : Vec) : Option Isr :=
  if v.val = 0 then some .dmaMsi else if v.val = 8 then some .fvdMsi else none

/-- `struct msi_action`; no `irq` is `NO_IRQ`. -/
structure MsiAction where
  handler : Option Isr
  irq : Option ℤ

/-- A BAR with whether `mem->addr` points to a mapping; `setUp` is whether the last
`map_device_memory` of the BAR succeeded. -/
structure Window where
  mem : DeviceMemory
  mapped : Bool
  setUp : Bool

/-- An `int rc`: no error is 0. A service that returns a pointer answers an error for `NULL`. -/
abbrev Rc := Option Errno

/-- Services that can fail but hand nothing out. -/
inductive Check where
  | pcieSetReadrq
  | pcieSetMps
  | pcieSetExtTag
  | gpioIsValid (i : Fin 3)
  deriving DecidableEq

/-- The local variables that are read before they are written. -/
inductive Uninitialised where
  | fvdInitRc
  | initRet
  deriving DecidableEq

inductive DmaRegister where
  | capability
  | status
  deriving DecidableEq

/-- Tests of the shared fields. -/
inductive Query where
  | enabled (bar : Bar)
  | hasHandler (v : Vec)
  | attached (v : Vec)
  | dmaCtlIsNull
  | cdevInitialized
  deriving DecidableEq

/-- Assignments to the shared fields. -/
inductive Write where
  | membus
  | initDeviceMemory (bar : Bar) (size : ℕ) (fns : AccessFns)
  | disable (bar : Bar)
  | patchBar0
  | copyMsiFvd (n : ℕ)
  | msiIrq (v : Vec) (irq : Option ℤ)
  | regbDma (bar : Bar)
  | dmaCtl (numCh : ℕ) (idleMap : BitVec 32)
  | nullDmaCtl
  | enableDmaCh (c : Dma.Chan) (irq : ℤ)
  | cdevInitialized
  | loaded (ok : Bool)
  | probed (bound : Bool)
  deriving DecidableEq

/-- The calls of the lifecycle functions; `awaitUnbound` is the wait of `pci_unregister_driver` for
the bound device. -/
inductive Op where
  | take (r : Resource)
  | managed (r : Managed)
  | give (r : Resource)
  | unregisterPlatformDevice
  | check (c : Check)
  | uninitialised (v : Uninitialised)
  | resourceLen (bar : Bar)
  | readDma (reg : DmaRegister)
  | get (q : Query)
  | set (w : Write)
  | awaitUnbound
  deriving DecidableEq

@[reducible] def Ans : Op → Type
  | .take _ => Rc
  | .managed _ => Rc
  | .give _ => Unit
  | .unregisterPlatformDevice => Unit
  | .check _ => Bool
  | .uninitialised _ => ℤ
  | .resourceLen _ => ℕ
  | .readDma _ => BitVec 32
  | .get _ => Bool
  | .set _ => Unit
  | .awaitUnbound => Unit

/-- The answers of the environment, one for each call. -/
abbrev Env := (op : Op) → Ans op

def granted : Env
  | .take _ => none
  | .managed _ => none
  | .give _ => ()
  | .unregisterPlatformDevice => ()
  | .check _ => true
  | .uninitialised _ => 0
  | .resourceLen _ => 4096
  | .readDma _ => 0
  | .get _ => false
  | .set _ => ()
  | .awaitUnbound => ()

/-- `struct bifrost_device` and the static tables, with how often each resource was handed out and
given back. `ctls` is the memory of the DMA controllers and `dmaCtl` the pointer into it;
`cleaned` is whether `free_dma_ctl` has run since `dma_ctl` was last assigned. The last three
fields are what the module loader and the PCI core keep. -/
structure State where
  membus : Bool
  regb : Bar → Window
  regbDma : Option Bar
  dmaCtl : Option ℕ
  ctls : ℕ → Option (Dma.DmaCtl ℕ)
  cleaned : Bool
  msi : Vec → MsiAction
  pMemDev : Option (List Managed)
  cdevInitialized : Bool
  taken : Resource → ℕ
  given : Resource → ℕ
  strays : List Isr
  loaded : Bool
  probing : Bool
  bound : Bool

namespace State

/-- A freshly loaded module, beside the handlers that an earlier one has left behind. -/
def fresh (strays : List Isr) : State where
  membus := false
  regb := fun _ => ⟨⟨false, 0, .deviceMemory⟩, false, false⟩
  regbDma := none
  dmaCtl := none
  ctls := fun _ => none
  cleaned := false
  msi := fun v => ⟨msiTable v, none⟩
  pMemDev := none
  cdevInitialized := false
  taken := fun _ => 0
  given := fun _ => 0
  strays := strays
  loaded := false
  probing := false
  bound := false

def Held (s : State) (r : Resource) : Prop := s.given r < s.taken r

instance (s : State) (r : Resource) : Decidable (s.Held r) := inferInstanceAs (Decidable (_ < _))

def registered (s : State) : List Isr :=
  (List.finRange 32).filterMap (fun v => if s.Held (.msiIrq v) then (s.msi v).handler else none) ++
    (List.finRange 3).filterMap fun i => if s.Held (.fpgaIrq i) then some (.fpga i) else none

def setWindow (s : State) (b : Bar) (w : Window) : State :=
  { s with regb := Function.update s.regb b w }

def setMsi (s : State) (v : Vec) (m : MsiAction) : State :=
  { s with msi := Function.update s.msi v m }

def setCtl (s : State) (p : ℕ) (ctl : Option (Dma.DmaCtl ℕ)) : State :=
  { s with ctls := Function.update s.ctls p ctl }

def count (s : State) (r : Resource) : State :=
  { s with taken := Function.update s.taken r (s.taken r + 1) }

def discount (s : State) (r : Resource) : State :=
  { s with given := Function.update s.given r (s.given r + 1) }

/-- A resource is handed out. A mapping is entered into its window, which is then enabled. -/
def take (s : State) : Resource → State
  | .window b =>
    (s.count (.window b)).setWindow b ⟨{ (s.regb b).mem with enabled := true }, true, true⟩
  | .platformDevice => { s.count .platformDevice with pMemDev := some [] }
  | r => s.count r

def refuse (s : State) : Resource → State
  | .platformDevice => { s with pMemDev := none }
  | _ => s

/-- A resource is handed out for as long as the platform device lives. -/
def manage (s : State) (r : Managed) : State :=
  { s.count r.resource with pMemDev := s.pMemDev.map (· ++ [r]) }

/-- A resource is given back. The memory of `dma_ctl` goes with it, and with the device structure
all handlers that still refer to it become strays. -/
def give (s : State) : Resource → State
  | .window b => (s.discount (.window b)).setWindow b { s.regb b with mapped := false }
  | .dmaCtl => { (s.dmaCtl.elim s fun p => s.setCtl p none).discount .dmaCtl with cleaned := true }
  | .bdev => { s.discount .bdev with strays := s.strays ++ s.registered }
  | r => s.discount r

/-- `platform_device_unregister(bifrost->pMemDev)`, which gives back what it manages. -/
def unregisterPlatformDevice (s : State) : State :=
  s.pMemDev.elim s fun rs =>
    { (rs.map Managed.resource).foldl discount (s.discount .platformDevice) with
      pMemDev := some [] }

def query (s : State) : Query → Bool
  | .enabled b => (s.regb b).mem.enabled
  | .hasHandler v => (s.msi v).handler.isSome
  | .attached v => (s.msi v).irq.isSome
  | .dmaCtlIsNull => s.dmaCtl.isNone
  | .cdevInitialized => s.cdevInitialized

def write (s : State) : Write → State
  | .membus => { s with membus := true }
  | .initDeviceMemory b size fns => s.setWindow b ⟨⟨false, size, fns⟩, false, false⟩
  | .disable b => s.setWindow b { s.regb b with mem := { (s.regb b).mem with enabled := false } }
  | .patchBar0 =>
    s.setWindow 0 { s.regb 0 with mem := { (s.regb 0).mem with fns := .membusDeviceMemory } }
  | .copyMsiFvd n =>
    { s with msi := fun v => if v.val < n then ⟨msiFvdTable v, none⟩ else s.msi v }
  | .msiIrq v irq => s.setMsi v { s.msi v with irq := irq }
  | .regbDma b => { s with regbDma := some b }
  | .dmaCtl numCh idleMap =>
    { s.setCtl (s.taken .dmaCtl) (some (.allocDmaCtl numCh idleMap)) with
      dmaCtl := some (s.taken .dmaCtl), cleaned := false }
  | .nullDmaCtl => { s with dmaCtl := none, cleaned := false }
  | .enableDmaCh c irq =>
    s.dmaCtl.elim s fun p => s.setCtl p ((s.ctls p).map fun ctl => ctl.enableDmaCh c irq)
  | .cdevInitialized => { s with cdevInitialized := true }
  | .loaded ok => { s with loaded := ok }
  | .probed bound => { s with probing := false, bound := bound }

def dmaMapped (s : State) : Bool := s.regbDma.elim false fun b => (s.regb b).mapped

/-- What each call does. What a read of a DMA register returns, also where its window is not mapped,
is the environment's. -/
def reply (s : State) : (op : Op) → Ans op → Option (Ans op × State)
  | .take r, rc => some (rc, rc.elim (s.take r) fun _ => s.refuse r)
  | .managed r, rc => some (rc, rc.elim (s.manage r) fun _ => s)
  | .give r, _ => some ((), s.give r)
  | .unregisterPlatformDevice, _ => some ((), s.unregisterPlatformDevice)
  | .check _, ok => some (ok, s)
  | .uninitialised _, v => some (v, s)
  | .resourceLen _, len => some (len, s)
  | .readDma _, v => some (v, s)
  | .get q, _ => some (s.query q, s)
  | .set w, _ => some ((), s.write w)
  | .awaitUnbound, _ => if s.bound ∨ s.probing then none else some ((), s)

end State

def services : Services Ans State where
  reply := State.reply

end BifrostModule.Lifecycle
