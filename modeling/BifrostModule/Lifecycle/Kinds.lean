import BifrostModule.Lifecycle.Positions
import BifrostModule.Lifecycle.Runs

/-! # Which shared fields the lifecycle functions touch

Every call is of one kind, by the fields that it can change. A function makes
calls of a few kinds only, and a mapping that it gives up is always disabled by
its next call.
-/
namespace BifrostModule.Lifecycle
open Foundation Regb

/-- What a call may change: a BAR, a mapping that it gives up, the character device, the
registration with the PCI core, the device that is bound, the choice of the bus, the outcome of the
load, `dma_ctl`, the FPGA interrupts, or none of these, which is further divided: `node` in
`bifrost_cdev_exit` and `late` past `bifrost_dma_init`. -/
inductive Kind where
  | window
  | unmap
  | cdev
  | driver
  | binding
  | bus
  | loader
  | dma
  | fpga
  | late
  | node
  | other
  deriving DecidableEq

@[simp] def Op.kind : Op → Kind
  | .take (.window _) => .window
  | .take .cdev => .cdev
  | .take .pciDriver => .driver
  | .take .platformDevice => .fpga
  | .take (.fpgaIrq _) => .fpga
  | .take .sysfsGroup => .late
  | .managed _ => .fpga
  | .give (.window _) => .unmap
  | .give .cdev => .cdev
  | .give .chrdevRegion => .node
  | .give .pClass => .node
  | .give .deviceNode => .node
  | .give .dmaCtl => .dma
  | .give .platformDevice => .fpga
  | .give (.fpgaIrq _) => .fpga
  | .unregisterPlatformDevice => .fpga
  | .check (.gpioIsValid _) => .fpga
  | .uninitialised .fvdInitRc => .fpga
  | .get .dmaCtlIsNull => .late
  | .get .cdevInitialized => .node
  | .set (.initDeviceMemory _ _ _) => .window
  | .set (.disable _) => .window
  | .set .patchBar0 => .window
  | .set (.regbDma _) => .dma
  | .set (.dmaCtl _ _) => .dma
  | .set .nullDmaCtl => .dma
  | .set (.enableDmaCh _ _) => .late
  | .set .cdevInitialized => .cdev
  | .set .membus => .bus
  | .set (.loaded _) => .loader
  | .set (.probed _) => .binding
  | _ => .other

/-- The program only makes calls of these kinds, and disables a window as soon as it has given up
its mapping. -/
def Only (ks : List Kind) {α : Type} : Driver α → Prop
  | .ret _ => True
  | .call op next => (op.kind ∈ ks ∧
      ∀ b, op = .give (.window b) → ∀ a, (next a).head = some (.set (.disable b))) ∧
      ∀ a, Only ks (next a)

namespace Only
variable {α β : Type} {ks ks' : List Kind} {p : Driver α}

@[simp] theorem ret (a : α) : Only ks (.ret a : Driver α) ↔ True := Iff.rfl

@[simp] theorem call {op : Op} {next : Ans op → Driver α} :
    Only ks (.call op next) ↔ (op.kind ∈ ks ∧
      ∀ b, op = .give (.window b) → ∀ a, (next a).head = some (.set (.disable b))) ∧
      ∀ a, Only ks (next a) := Iff.rfl

theorem calls (hp : Only ks p) : p.Calls fun op => op.kind ∈ ks := by
  induction p with
  | ret a => trivial
  | call op next ih => exact ⟨hp.1.1, fun a => ih a (hp.2 a)⟩

theorem bind {k : α → Driver β} (hp : Only ks p) (hk : ∀ a, Only ks (k a)) : Only ks (p >>= k) := by
  induction p with
  | ret a => exact hk a
  | call op next ih =>
    refine ⟨⟨hp.1.1, fun b hb a => ?_⟩, fun a => ih a (hp.2 a)⟩
    exact Program.head_bind (hp.1.2 b hb a)

theorem mono (hp : Only ks p) (h : ∀ k ∈ ks, k ∈ ks') : Only ks' p := by
  induction p with
  | ret a => trivial
  | call op next ih => exact ⟨⟨h _ hp.1.1, hp.1.2⟩, fun a => ih a (hp.2 a)⟩

theorem forM {ι : Type} {f : ι → Driver Unit} (hf : ∀ i, Only ks (f i)) (is : List ι) :
    Only ks (is.forM f) := by
  induction is with
  | nil => trivial
  | cons i is ih => exact (hf i).bind fun _ => ih

theorem ite {c : Prop} [Decidable c] {q : Driver α} (hp : Only ks p) (hq : Only ks q) :
    Only ks (if c then p else q) := by
  split
  · exact hp
  · exact hq

end Only

section Calls

/-- What the FPGA interrupts hang on: how often each was handed out and given back, and the platform
device. -/
structure Fpga where
  taken : Fin 3 → ℕ
  given : Fin 3 → ℕ
  device : Option (List Managed)

def State.fpga (s : State) : Fpga :=
  ⟨fun i => s.taken (.fpgaIrq i), fun i => s.given (.fpgaIrq i), s.pMemDev⟩

/-- Two states with the same `dma_ctl`, up to what it points to, and the same DMA window. -/
def SameDma (s t : State) : Prop :=
  t.dmaCtl = s.dmaCtl ∧ t.cleaned = s.cleaned ∧ t.regbDma = s.regbDma

/-- What a call of each kind does not change. -/
structure Spares (k : Kind) (s t : State) : Prop where
  membus : k ≠ .bus → t.membus = s.membus
  loaded : k ≠ .loader → t.loaded = s.loaded
  dma : k ≠ .dma → SameDma s t
  fpga : k ≠ .fpga → t.fpga = s.fpga
  regb : k ≠ .window → k ≠ .unmap → t.regb = s.regb
  cdevInitialized : k ≠ .cdev → t.cdevInitialized = s.cdevInitialized
  cdev : k ≠ .cdev → t.taken .cdev = s.taken .cdev ∧ t.given .cdev = s.given .cdev
  drivers : k ≠ .driver → t.taken .pciDriver = s.taken .pciDriver
  bound : k ≠ .binding → t.bound = s.bound

theorem Spares.refl (k : Kind) (s : State) : Spares k s s :=
  ⟨fun _ => rfl, fun _ => rfl, fun _ => ⟨rfl, rfl, rfl⟩, fun _ => rfl, fun _ _ => rfl, fun _ => rfl,
    fun _ => ⟨rfl, rfl⟩, fun _ => rfl, fun _ => rfl⟩

theorem take_spares (s : State) (r : Resource) : Spares (Op.take r).kind s (s.take r) := by
  cases r <;> constructor <;> simp [State.take, State.count, State.setWindow, SameDma, State.fpga]

theorem refuse_spares (s : State) (r : Resource) : Spares (Op.take r).kind s (s.refuse r) := by
  cases r <;> constructor <;> simp [State.refuse, SameDma, State.fpga]

theorem give_spares (s : State) (r : Resource) : Spares (Op.give r).kind s (s.give r) := by
  cases r with
  | dmaCtl =>
    simp only [State.give]
    cases s.dmaCtl <;> constructor <;> simp [State.discount, State.setCtl, State.fpga]
  | _ => constructor <;> simp [State.give, State.discount, State.setWindow, SameDma, State.fpga]

theorem write_spares (s : State) (w : Write) : Spares (Op.set w).kind s (s.write w) := by
  cases w with
  | enableDmaCh c irq =>
    simp only [State.write]
    cases s.dmaCtl <;> constructor <;> simp [State.setCtl, SameDma, State.fpga]
  | _ =>
    constructor <;>
      simp [State.write, State.setWindow, State.setMsi, State.setCtl, SameDma, State.fpga]

theorem manage_spares (s : State) (r : Managed) : Spares .fpga s (s.manage r) := by
  cases r <;> constructor <;> simp [State.manage, State.count, Managed.resource, SameDma]

theorem foldl_discount_frame (rs : List Resource) (s : State) :
    (rs.foldl State.discount s) = { s with given := (rs.foldl State.discount s).given } := by
  induction rs generalizing s with
  | nil => rfl
  | cons r rs ih => exact ih (s.discount r)

/-- Giving back what a platform device manages only counts. -/
theorem unregister_frame (s : State) : s.unregisterPlatformDevice =
    { s with
      given := s.unregisterPlatformDevice.given
      pMemDev := s.unregisterPlatformDevice.pMemDev } := by
  cases hdev : s.pMemDev with
  | none =>
    have heq : s.unregisterPlatformDevice = s := by simp [State.unregisterPlatformDevice, hdev]
    rw [heq]
  | some rs =>
    simp only [State.unregisterPlatformDevice, hdev, Option.elim_some]
    rw [foldl_discount_frame]
    rfl

theorem unregister_spares (s : State) : Spares .fpga s s.unregisterPlatformDevice := by
  have hcdev : s.unregisterPlatformDevice.given .cdev = s.given .cdev := by
    cases hdev : s.pMemDev with
    | none => simp [State.unregisterPlatformDevice, hdev]
    | some rs =>
      have hrs : Resource.cdev ∉ rs.map Managed.resource := by
        simp only [List.mem_map, not_exists, not_and]
        intro m _
        cases m <;> simp [Managed.resource]
      simp only [State.unregisterPlatformDevice, hdev, Option.elim_some]
      rw [(Moves.foldl_discount _ _).given, List.count_eq_zero_of_not_mem hrs]
      simp [State.discount]
  rw [unregister_frame]
  exact ⟨fun _ => rfl, fun _ => rfl, fun _ => ⟨rfl, rfl, rfl⟩, fun h => absurd rfl h,
    fun _ _ => rfl, fun _ => rfl, fun _ => ⟨rfl, hcdev⟩, fun _ => rfl, fun _ => rfl⟩

theorem reply_spares {s t : State} {op : Op} {a a₀ : Ans op} (h : s.reply op a₀ = some (a, t)) :
    Spares op.kind s t := by
  cases op with
  | take r =>
    cases a₀ with
    | none =>
      cases h
      exact take_spares s r
    | some e =>
      cases h
      exact refuse_spares s r
  | managed r =>
    cases a₀ with
    | none =>
      cases h
      exact manage_spares s r
    | some e =>
      cases h
      exact .refl _ _
  | give r =>
    cases h
    exact give_spares s r
  | unregisterPlatformDevice =>
    cases h
    exact unregister_spares s
  | set w =>
    cases h
    exact write_spares s w
  | awaitUnbound =>
    simp only [State.reply] at h
    split at h
    · cases h
    · cases h
      exact .refl _ _
  | _ =>
    cases h
    exact .refl _ _

/-- What a call does to the window of a BAR. -/
inductive WindowStep (b : Bar) : Op → Window → Window → Prop
  | kept {op : Op} (w : Window) (hop : op ≠ .set (.disable b)) : WindowStep b op w w
  | mapped (w : Window) :
      WindowStep b (.take (.window b)) w ⟨{ w.mem with enabled := true }, true, true⟩
  | unmapped (w : Window) : WindowStep b (.give (.window b)) w { w with mapped := false }
  | initialised (w : Window) (size : ℕ) (fns : AccessFns) :
      WindowStep b (.set (.initDeviceMemory b size fns)) w ⟨⟨false, size, fns⟩, false, false⟩
  | disabled (w : Window) : WindowStep b (.set (.disable b)) w
      { w with mem := { w.mem with enabled := false } }
  | patched (w : Window) : WindowStep b (.set .patchBar0) w
      { w with mem := { w.mem with fns := .membusDeviceMemory } }

/-- A call that overwrites one window. -/
theorem windowStep_setWindow {s u : State} {op : Op} {b c : Bar} {w : Window}
    (hu : u.regb = s.regb) (hsame : b = c → WindowStep b op (s.regb b) w)
    (hother : b ≠ c → op ≠ .set (.disable b)) :
    WindowStep b op (s.regb b) ((u.setWindow c w).regb b) := by
  change WindowStep b op (s.regb b) (Function.update u.regb c w b)
  by_cases hc : b = c
  · rw [← hc, Function.update_self]
    exact hsame hc
  · rw [Function.update_of_ne hc, hu]
    exact .kept _ (hother hc)

theorem reply_window {s t : State} {op : Op} {a a₀ : Ans op} (h : s.reply op a₀ = some (a, t))
    (b : Bar) : WindowStep b op (s.regb b) (t.regb b) := by
  have hspares := reply_spares h
  have hkept : t.regb = s.regb → op ≠ .set (.disable b) →
      WindowStep b op (s.regb b) (t.regb b) := fun heq hne => heq ▸ .kept _ hne
  cases op with
  | take r =>
    cases r with
    | window c =>
      cases a₀ with
      | none =>
        cases h
        exact windowStep_setWindow rfl (fun hc => hc ▸ .mapped _) fun _ => by simp
      | some e =>
        cases h
        exact hkept rfl (by simp)
    | _ => exact hkept (hspares.regb (by simp) (by simp)) (by simp)
  | give r =>
    cases r with
    | window c =>
      cases h
      exact windowStep_setWindow rfl (fun hc => hc ▸ .unmapped _) fun _ => by simp
    | _ => exact hkept (hspares.regb (by simp) (by simp)) (by simp)
  | set w =>
    cases w with
    | initDeviceMemory c size fns =>
      cases h
      exact windowStep_setWindow rfl (fun hc => hc ▸ .initialised _ size fns) fun _ => by simp
    | disable c =>
      cases h
      exact windowStep_setWindow rfl (fun hc => hc ▸ .disabled _) fun hne => by
        simpa using hne.symm
    | patchBar0 =>
      cases h
      exact windowStep_setWindow rfl (fun hc => hc ▸ .patched _) fun _ => by simp
    | _ => exact hkept (hspares.regb (by simp) (by simp)) (by simp)
  | check c => cases c <;> exact hkept (hspares.regb (by simp) (by simp)) (by simp)
  | uninitialised v => cases v <;> exact hkept (hspares.regb (by simp) (by simp)) (by simp)
  | get q => cases q <;> exact hkept (hspares.regb (by simp) (by simp)) (by simp)
  | _ => exact hkept (hspares.regb (by simp) (by simp)) (by simp)

end Calls

section Functions

theorem only_setupIoRegions {ks : List Kind} {f : Bar → Driver Rc} (hf : ∀ b, Only ks (f b))
    (bs : List Bar) : Only ks (setupIoRegions f bs) := by
  induction bs with
  | nil => trivial
  | cons b bs ih => exact (hf b).bind fun rc => ih.bind fun n => trivial

theorem only_pciInitAndMap (b : Bar) : Only [.window, .other] (Pci.initAndMap b) := by
  simp only [Pci.initAndMap, resourceLen, set, take, Program.perform_bind, Only.call]
  refine ⟨by simp, fun size => ⟨by simp, fun _ => ?_⟩⟩
  apply Only.ite (Only.ret _ |>.mpr trivial)
  refine ⟨by simp, fun rc => ?_⟩
  exact Only.ite (Only.ret _ |>.mpr trivial) (Only.ret _ |>.mpr trivial)

theorem only_membusInitAndMap (b : Bar) : Only [.window] (Membus.initAndMap b) := by
  simp only [Membus.initAndMap, set, take, Program.perform_bind, Only.call]
  refine ⟨by simp, fun _ => ?_⟩
  apply Only.ite (Only.ret _ |>.mpr trivial)
  refine ⟨by simp, fun rc => ?_⟩
  exact Only.ite (Only.ret _ |>.mpr trivial) (Only.ret _ |>.mpr trivial)

theorem only_removeIoRegions : Only [.window, .unmap, .other] removeIoRegions := by
  apply Only.forM
  intro b
  simp [unmapDeviceMemory, get, give, set, Program.perform, Program.head]

theorem only_attachMsis (p : Platform) (irq : ℤ) :
    Only [.other] (Pci.bifrostAttachMsisToIrq p irq) := by
  have hone : ∀ v, Only [.other] (Pci.attachMsi irq v) := by
    intro v
    refine ⟨by simp, fun hasHandler => Only.ite ?_ trivial⟩
    refine ⟨by simp, fun attached => Only.ite trivial ?_⟩
    refine ⟨by simp, fun _ => ⟨by simp, fun rc => Only.ite ?_ trivial⟩⟩
    exact ⟨by simp, fun _ => trivial⟩
  have hall := Only.forM hone ((List.finRange 32).filter (·.val < p.msiInterrupts))
  cases hp : p.fvd with
  | false => simpa [Pci.bifrostAttachMsisToIrq, hp] using hall
  | true => simpa [Pci.bifrostAttachMsisToIrq, hp, set, Program.perform] using hall

theorem only_detachMsis : Only [.other] Pci.bifrostDetachMsis := by
  apply Only.forM
  intro v
  simp [Pci.detachMsi, get, give, set, Program.perform]

theorem only_dmaInit (p : Platform) (irq : ℤ) :
    Only [.dma, .late, .other] (Pci.bifrostDmaInit p irq) := by
  simp only [Pci.bifrostDmaInit, set, readDma, take, Program.perform_bind, Only.call]
  refine ⟨by simp, fun _ => ⟨by simp, fun cap => ⟨by simp,
    fun st => ⟨by simp, fun rc => ?_⟩⟩⟩⟩
  apply Only.ite
  · exact ⟨by simp, fun _ => trivial⟩
  · refine ⟨by simp, fun _ => Only.bind (Only.forM (fun n => ?_) _) fun _ => trivial⟩
    simp [Program.perform]

theorem only_dmaCleanup : Only [.dma, .late] Pci.bifrostDmaCleanup := by
  simp [Pci.bifrostDmaCleanup, get, give, Program.perform]

theorem only_requestFpgaIrq (i : Fin 3) {invalid next : Driver ℤ} (hinvalid : Only [.fpga] invalid)
    (hnext : Only [.fpga] next) : Only [.fpga] (Membus.requestFpgaIrq i invalid next) := by
  refine ⟨by simp, fun valid => ?_⟩
  cases valid with
  | false => exact hinvalid.bind fun rc => ⟨by simp, fun _ => trivial⟩
  | true =>
    refine ⟨by simp, fun _ => ⟨by simp, fun rc => ?_⟩⟩
    cases rc with
    | none => exact hnext
    | some e => exact ⟨by simp, fun _ => trivial⟩

theorem only_fvdInit : Only [.fpga] Membus.bifrostFvdInit := by
  refine ⟨by simp, fun rc => ?_⟩
  cases rc with
  | some e => exact ⟨by simp, fun _ => trivial⟩
  | none =>
    exact only_requestFpgaIrq 0 ⟨by simp, fun _ => trivial⟩
      (only_requestFpgaIrq 1 trivial (only_requestFpgaIrq 2 trivial trivial))

theorem only_membusInit : Only [.window, .unmap, .fpga, .other] Membus.bifrostMembusInit := by
  have hremove : Only [.window, .unmap, .fpga, .other] (removeIoRegions >>= fun _ =>
      (pure (some .ENODEV) : Driver Rc)) :=
    (only_removeIoRegions.mono (by simp)).bind fun _ => trivial
  refine ((only_setupIoRegions only_membusInitAndMap bars).mono (by simp)).bind fun n => ?_
  apply Only.ite hremove
  exact (only_fvdInit.mono (by simp)).bind fun rc => Only.ite hremove trivial

theorem only_membusExit : Only [.window, .unmap, .fpga, .other] Membus.bifrostMembusExit :=
  (only_removeIoRegions.mono (by simp)).bind fun _ => ⟨by simp, fun _ => trivial⟩

theorem only_postInit (p : Platform) (irq : ℤ) :
    Only [.dma, .fpga, .late, .other] (Pci.bifrostPciProbePostInit p irq) := by
  refine ((only_attachMsis p irq).mono (by simp)).bind fun _ => ?_
  refine ((only_dmaInit p irq).mono (by simp)).bind fun rc => Only.ite ?_ ?_
  · exact (only_detachMsis.mono (by simp)).bind fun _ => trivial
  · refine Only.ite ((only_fvdInit.mono (by simp)).bind fun rc => Only.ite ?_ ?_) ?_
    · exact (only_dmaCleanup.mono (by simp)).bind fun _ =>
        (only_detachMsis.mono (by simp)).bind fun _ => trivial
    · trivial
    · trivial

theorem only_errPciIomapRegb : Only [.other] Pci.errPciIomapRegb :=
  ⟨by simp, fun _ => ⟨by simp, fun _ => trivial⟩⟩

theorem only_errPciPostInit : Only [.window, .unmap, .other] Pci.errPciPostInit :=
  only_removeIoRegions.bind fun _ => only_errPciIomapRegb.mono (by simp)

theorem only_probeInterfaces (p : Platform) (irq : ℤ) :
    Only [.window, .unmap, .dma, .fpga, .late, .other] (Pci.probeInterfaces p irq) := by
  have herr : Only [.window, .unmap, .dma, .fpga, .late, .other] Pci.errPciPostInit :=
    only_errPciPostInit.mono (by simp)
  refine ((only_postInit p irq).mono (by simp)).bind fun ok => Only.ite ?_ herr
  exact ⟨by simp, fun rc => Only.ite herr trivial⟩

theorem only_probeRegions (p : Platform) (irq : ℤ) :
    Only [.window, .unmap, .dma, .fpga, .late, .other] (Pci.probeRegions p irq) := by
  refine ((only_setupIoRegions only_pciInitAndMap bars).mono (by simp)).bind fun n => Only.ite ?_ ?_
  · exact only_errPciIomapRegb.mono (by simp)
  · exact Only.ite ⟨by simp, fun _ => only_probeInterfaces p irq⟩
      (only_probeInterfaces p irq)

abbrev pciKinds : List Kind := [.window, .unmap, .binding, .dma, .fpga, .late, .other]

theorem only_pciProbe (p : Platform) (irq : ℤ) : Only pciKinds (pciProbe p irq) := by
  have hprobe : Only [.window, .unmap, .dma, .fpga, .late, .other] (Pci.bifrostPciProbe p irq) := by
    refine ⟨by simp, fun rc => Only.ite trivial ?_⟩
    refine ⟨by simp, fun ok => Only.ite trivial ?_⟩
    refine ⟨by simp, fun ok => Only.ite trivial ?_⟩
    refine ⟨by simp, fun ok => Only.ite trivial ?_⟩
    refine ⟨by simp, fun rc => Only.ite trivial ?_⟩
    refine ⟨by simp, fun rc => Only.ite ?_ (only_probeRegions p irq)⟩
    exact ⟨by simp, fun _ => trivial⟩
  exact (hprobe.mono (by simp)).bind fun rc => ⟨by simp, fun _ => trivial⟩

theorem only_bifrostPciRemove (p : Platform) :
    Only [.window, .unmap, .fpga, .other] (Pci.bifrostPciRemove p) := by
  have hrest : Only [.window, .unmap, .fpga, .other] (do
      give .sysfsGroup
      Pci.bifrostDetachMsis
      give .msi
      removeIoRegions
      give .regions
      give .device) := by
    refine ⟨by simp, fun _ => (only_detachMsis.mono (by simp)).bind fun _ => ?_⟩
    refine ⟨by simp, fun _ => (only_removeIoRegions.mono (by simp)).bind fun _ => ?_⟩
    exact ⟨by simp, fun _ => ⟨by simp, fun _ => trivial⟩⟩
  apply Only.ite _ hrest
  exact ⟨by simp, fun _ => hrest⟩

theorem only_pciRemove (p : Platform) : Only pciKinds (pciRemove p) :=
  ((only_bifrostPciRemove p).mono (by simp)).bind fun _ => ⟨by simp, fun _ => trivial⟩

theorem only_cdevInit : Only [.cdev, .node, .other] bifrostCdevInit := by
  refine ⟨by simp, fun rc => ?_⟩
  cases rc with
  | some e => trivial
  | none =>
    refine ⟨by simp, fun rc => ?_⟩
    cases rc with
    | some e => exact ⟨by simp, fun _ => trivial⟩
    | none =>
      refine ⟨by simp, fun _ => ⟨by simp, fun _ => ⟨by simp, fun _ => ?_⟩⟩⟩
      trivial

theorem only_cdevExit : Only [.cdev, .node] bifrostCdevExit := by
  refine ⟨by simp, fun initialized => Only.ite ?_ trivial⟩
  refine ⟨by simp, fun _ => ⟨by simp, fun _ => ⟨by simp, fun _ => ?_⟩⟩⟩
  exact ⟨by simp, fun _ => trivial⟩

theorem only_errPci : Only [.other] errPci :=
  ⟨by simp, fun _ => ⟨by simp, fun _ => ⟨by simp, fun _ =>
    ⟨by simp, fun _ => trivial⟩⟩⟩⟩

def exitBus (membus : Bool) : Driver Unit := do
  if membus then
    Membus.bifrostMembusExit
  else
    Pci.bifrostPciExit
  give .workQueue
  give .workPool
  give .bdev

theorem bifrostExit_eq (membus : Bool) :
    bifrostExit membus = (bifrostCdevExit >>= fun _ => exitBus membus) := rfl

@[simp] def initKinds : Bool → List Kind
  | false => [.cdev, .node, .driver, .other]
  | true => [.window, .unmap, .cdev, .node, .bus, .fpga, .other]

@[simp] def exitKinds : Bool → List Kind
  | false => [.driver, .dma, .late, .other]
  | true => [.window, .unmap, .fpga, .other]

theorem only_initBus (membus : Bool) : Only (initKinds membus) (initBus membus) := by
  cases membus with
  | false =>
    have herr : Only (initKinds false) errPci := only_errPci.mono (by simp)
    refine ⟨by simp, fun rc => Only.ite herr ?_⟩
    exact (only_cdevInit.mono (by simp)).bind fun rc => Only.ite herr trivial
  | true =>
    have herr : Only (initKinds true) errPci := only_errPci.mono (by simp)
    refine (only_membusInit.mono (by simp)).bind fun rc => Only.ite herr ?_
    exact (only_cdevInit.mono (by simp)).bind fun rc => Only.ite herr trivial

theorem only_bifrostInit (membus : Bool) : Only (initKinds membus) (bifrostInit membus) := by
  have hother : Kind.other ∈ initKinds membus := by cases membus <;> simp
  refine ⟨⟨hother, by simp⟩, fun rc => Only.ite trivial ?_⟩
  have hqueue : Only (initKinds membus) (take .workPool >>= fun rc =>
      if rc.isSome then errAllocPool (pure Errno.ENOMEM.toInt)
      else take .workQueue >>= fun rc =>
        if rc.isSome then errAllocQueue (pure Errno.ENOMEM.toInt) else initBus membus) := by
    refine ⟨⟨hother, by simp⟩, fun rc => Only.ite ⟨⟨hother, by simp⟩, fun _ => trivial⟩ ?_⟩
    refine ⟨⟨hother, by simp⟩, fun rc => Only.ite ?_ (only_initBus membus)⟩
    exact ⟨⟨hother, by simp⟩, fun _ => ⟨⟨hother, by simp⟩, fun _ => trivial⟩⟩
  cases membus with
  | false => exact hqueue
  | true => exact ⟨by simp, fun _ => hqueue⟩

theorem only_pciExit : Only [.driver, .dma, .late, .other] Pci.bifrostPciExit := by
  refine (only_dmaCleanup.mono (by simp)).bind fun _ => ?_
  exact ⟨by simp, fun _ => ⟨by simp, fun _ => trivial⟩⟩

theorem only_exitBus (membus : Bool) : Only (exitKinds membus) (exitBus membus) := by
  cases membus with
  | false =>
    refine only_pciExit.bind fun _ => ?_
    exact ⟨by simp, fun _ => ⟨by simp, fun _ => ⟨by simp, fun _ => trivial⟩⟩⟩
  | true =>
    refine only_membusExit.bind fun _ => ?_
    exact ⟨by simp, fun _ => ⟨by simp, fun _ => ⟨by simp, fun _ => trivial⟩⟩⟩

abbrev mainKinds : List Kind :=
  [.window, .unmap, .cdev, .node, .driver, .bus, .loader, .dma, .fpga, .late, .other]

theorem only_moduleInit (membus : Bool) : Only mainKinds (moduleInit membus) := by
  refine Only.bind ((only_bifrostInit membus).mono ?_) fun rc => ⟨by simp, fun _ => trivial⟩
  cases membus <;> simp

theorem only_moduleExit (membus : Bool) : Only mainKinds (moduleExit membus) := by
  refine Only.bind ?_ fun _ => ⟨by simp, fun _ => trivial⟩
  refine (only_cdevExit.mono (by simp)).bind fun _ => (only_exitBus membus).mono ?_
  cases membus <;> simp

end Functions
end BifrostModule.Lifecycle
