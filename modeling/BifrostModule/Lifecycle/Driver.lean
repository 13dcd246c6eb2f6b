import BifrostModule.Lifecycle.Services

/-! # Module load, PCI probe and remove, and module unload

The lifecycle functions of `bifrost_main.c`, `bifrost_pci.c`, `bifrost_membus.c`
and `bifrost_cdev.c` as programs, in the order in which they make their calls
and with the unwinding of their `goto` ladders.
-/
namespace BifrostModule.Lifecycle
open Foundation Regb

abbrev Driver := Program Ans

section Calls

def take (r : Resource) : Driver Rc := Program.perform (Op.take r)

def managed (r : Managed) : Driver Rc := Program.perform (Op.managed r)

def give (r : Resource) : Driver Unit := Program.perform (Op.give r)

def check (c : Check) : Driver Bool := Program.perform (Op.check c)

def get (q : Query) : Driver Bool := Program.perform (Op.get q)

def set (w : Write) : Driver Unit := Program.perform (Op.set w)

def uninitialised (v : Uninitialised) : Driver ℤ := Program.perform (Op.uninitialised v)

def readDma (reg : DmaRegister) : Driver (BitVec 32) := Program.perform (Op.readDma reg)

def resourceLen (b : Bar) : Driver ℕ := Program.perform (Op.resourceLen b)

def awaitUnbound : Driver Unit := Program.perform Op.awaitUnbound

def platformDeviceUnregister : Driver Unit := Program.perform Op.unregisterPlatformDevice

end Calls

abbrev bars : List Bar := List.finRange numBars

/-- `setup_io_regions` of both buses: the number of BARs that `initAndMap` maps. -/
def setupIoRegions (initAndMap : Bar → Driver Rc) : List Bar → Driver ℕ
  | [] => pure 0
  | n :: rest => do
    let rc ← initAndMap n
    let nbars ← setupIoRegions initAndMap rest
    return if rc.isNone then nbars + 1 else nbars

def unmapDeviceMemory (b : Bar) : Driver Unit := do
  if ← get (.enabled b) then
    give (.window b)
  set (.disable b)

def removeIoRegions : Driver Unit := bars.forM unmapDeviceMemory

namespace Pci

def initAndMap (b : Bar) : Driver Rc := do
  let size ← resourceLen b
  set (.initDeviceMemory b size .deviceMemory)
  if size = 0 then
    return some .EINVAL
  if (← take (.window b)).isSome then
    return some .EFAULT
  return none

/-- `request_msi`, and the reset of `irq` by its caller if it fails. -/
def requestMsi (v : Vec) (hwIrq : ℤ) : Driver Unit := do
  set (.msiIrq v (some (hwIrq + v.val)))
  if (← take (.msiIrq v)).isSome then
    set (.msiIrq v none)

def attachMsi (hwIrq : ℤ) (v : Vec) : Driver Unit := do
  if ← get (.hasHandler v) then
    if ← get (.attached v) then
      pure ()
    else
      requestMsi v hwIrq

/-- `bifrost_attach_msis_to_irq`, which always returns 0. -/
def bifrostAttachMsisToIrq (p : Platform) (hwIrq : ℤ) : Driver Unit := do
  if p.fvd then
    set (.copyMsiFvd p.msiInterrupts)
  ((List.finRange 32).filter (·.val < p.msiInterrupts)).forM (attachMsi hwIrq)

def detachMsi (v : Vec) : Driver Unit := do
  if ← get (.attached v) then
    give (.msiIrq v)
    set (.msiIrq v none)

def bifrostDetachMsis : Driver Unit := (List.finRange 32).forM detachMsi

def bifrostDmaInit (p : Platform) (irq : ℤ) : Driver Rc := do
  set (.regbDma p.dmaBar)
  let numCh := ((← readDma .capability) &&& 0xf#32).toNat
  let idleMap := ~~~(← readDma .status) &&& (1#32 <<< numCh - 1#32)
  if (← take .dmaCtl).isSome then
    set .nullDmaCtl
    return some .ENOMEM
  set (.dmaCtl numCh idleMap)
  ((List.finRange Dma.maxDmaChannels).filter (·.val < numCh)).forM fun n =>
    set (.enableDmaCh n (irq + n.val))
  return none

/-- `bifrost_dma_cleanup`; `disable_dma_ch` does nothing. -/
def bifrostDmaCleanup : Driver Unit := do
  if ← get .dmaCtlIsNull then
    return
  give .dmaCtl

end Pci

namespace Membus

def initAndMap (b : Bar) : Driver Rc := do
  set (.initDeviceMemory b 4096 .membusDeviceMemory)
  if 2 ≤ b.val then
    return some .EINVAL
  if (← take (.window b)).isSome then
    return some .EFAULT
  return none

/-- The part of `bifrost_fvd_init` for one FPGA interrupt: `invalid` is what `rc` holds when the
line is found to be no valid GPIO. -/
def requestFpgaIrq (i : Fin 3) (invalid : Driver ℤ) (next : Driver ℤ) : Driver ℤ := do
  if ← check (.gpioIsValid i) then
    let _ ← managed (.gpio i)
    match ← managed (.fpgaIrq i) with
    | some e =>
      platformDeviceUnregister
      return e.toInt
    | none => next
  else
    let rc ← invalid
    platformDeviceUnregister
    return rc

/-- `bifrost_fvd_init`. An invalid line returns what the last service left in `rc`. -/
def bifrostFvdInit : Driver ℤ := do
  if (← take .platformDevice).isSome then
    return ← uninitialised .fvdInitRc
  requestFpgaIrq 0 (uninitialised .fvdInitRc) <|
    requestFpgaIrq 1 (pure 0) <|
      requestFpgaIrq 2 (pure 0) <| pure 0

def bifrostFvdExit : Driver Unit := platformDeviceUnregister

def bifrostMembusInit : Driver Rc := do
  let rc ← setupIoRegions initAndMap bars
  if rc < 2 then
    removeIoRegions
    return some .ENODEV
  if (← bifrostFvdInit) ≠ 0 then
    removeIoRegions
    return some .ENODEV
  return none

def bifrostMembusExit : Driver Unit := do
  removeIoRegions
  bifrostFvdExit

end Membus

namespace Pci

/-- `bifrost_pci_probe_post_init`: whether it returns 0. -/
def bifrostPciProbePostInit (p : Platform) (msiIrq : ℤ) : Driver Bool := do
  bifrostAttachMsisToIrq p msiIrq
  if (← bifrostDmaInit p msiIrq).isSome then
    bifrostDetachMsis
    return false
  if p.fvd then
    if (← Membus.bifrostFvdInit) ≠ 0 then
      bifrostDmaCleanup
      bifrostDetachMsis
      return false
  return true

def errPciRequest : Driver Rc := do
  give .device
  return some .ENODEV

def errPciIomapRegb : Driver Rc := do
  give .regions
  errPciRequest

def errPciPostInit : Driver Rc := do
  removeIoRegions
  errPciIomapRegb

def errPciSysfs : Driver Rc := errPciPostInit

/-- `bifrost_pci_probe` from the post init on. `sysfs_remove_group` after a failed
`sysfs_create_group` gives nothing back. -/
def probeInterfaces (p : Platform) (irq : ℤ) : Driver Rc := do
  if ← bifrostPciProbePostInit p irq then
    if (← take .sysfsGroup).isSome then
      errPciSysfs
    else
      return none
  else
    errPciPostInit

def probeRegions (p : Platform) (irq : ℤ) : Driver Rc := do
  let rc ← setupIoRegions initAndMap bars
  if rc < 2 then
    errPciIomapRegb
  else
    if p.fvd then
      set .patchBar0
    probeInterfaces p irq

def bifrostPciProbe (p : Platform) (irq : ℤ) : Driver Rc := do
  if (← take .device).isSome then
    return some .ENODEV
  if ¬ (← check .pcieSetReadrq) then
    return some .ENODEV
  if ¬ (← check .pcieSetMps) then
    return some .ENODEV
  if ¬ (← check .pcieSetExtTag) then
    return some .ENODEV
  if (← take .msi).isSome then
    return some .ENODEV
  if (← take .regions).isSome then
    errPciRequest
  else
    probeRegions p irq

def bifrostPciRemove (p : Platform) : Driver Unit := do
  if p.fvd then
    Membus.bifrostFvdExit
  give .sysfsGroup
  bifrostDetachMsis
  give .msi
  removeIoRegions
  give .regions
  give .device

def bifrostPciInit : Driver Rc := take .pciDriver

/-- `pci_unregister_driver`, which removes the device that is bound. -/
def pciUnregisterDriver : Driver Unit := do
  give .pciDriver
  awaitUnbound

def bifrostPciExit : Driver Unit := do
  bifrostDmaCleanup
  pciUnregisterDriver

end Pci

/-- `bifrost_cdev_init`, which ignores the results of `class_create` and `device_create`. -/
def bifrostCdevInit : Driver Rc := do
  if let some e ← take .chrdevRegion then
    return some e
  if let some e ← take .cdev then
    give .chrdevRegion
    return some e
  let _ ← take .pClass
  let _ ← take .deviceNode
  set .cdevInitialized
  return none

def bifrostCdevExit : Driver Unit := do
  if ← get .cdevInitialized then
    give .deviceNode
    give .pClass
    give .cdev
    give .chrdevRegion

def errAllocPool (ret : Driver ℤ) : Driver ℤ := do
  give .bdev
  ret

def errAllocQueue (ret : Driver ℤ) : Driver ℤ := do
  give .workPool
  errAllocPool ret

/-- The label `err_pci`. Nothing has been assigned to `ret` on any way to it. -/
def errPci : Driver ℤ := do
  give .workQueue
  errAllocQueue (uninitialised .initRet)

def busInit (membus : Bool) : Driver Rc :=
  if membus then Membus.bifrostMembusInit else Pci.bifrostPciInit

/-- `bifrost_init` from the registration with the bus on. -/
def initBus (membus : Bool) : Driver ℤ := do
  if (← busInit membus).isSome then
    errPci
  else
    if (← bifrostCdevInit).isSome then
      errPci
    else
      return 0

def bifrostInit (membus : Bool) : Driver ℤ := do
  if (← take .bdev).isSome then
    return Errno.ENOMEM.toInt
  if membus then
    set .membus
  if (← take .workPool).isSome then
    errAllocPool (pure Errno.ENOMEM.toInt)
  else
    if (← take .workQueue).isSome then
      errAllocQueue (pure Errno.ENOMEM.toInt)
    else
      initBus membus

def bifrostExit (membus : Bool) : Driver Unit := do
  bifrostCdevExit
  if membus then
    Membus.bifrostMembusExit
  else
    Pci.bifrostPciExit
  give .workQueue
  give .workPool
  give .bdev

end BifrostModule.Lifecycle
