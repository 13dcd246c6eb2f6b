import BifrostModule.Lifecycle.Runs

/-! # Whether `bifrost_pci_probe` is all or nothing

A probe that fails should give everything back that it has taken, and one that
succeeds should hold all that it needs. After `pci_enable_device` no error path
gives everything back, so this comes down to which services may fail.
-/
namespace BifrostModule.Lifecycle
open Foundation Regb

def Holds (s t : State) (r : Resource) : Prop := t.taken r = s.taken r + 1 ∧ t.given r = s.given r

def Untouched (s t : State) (r : Resource) : Prop := t.taken r = s.taken r ∧ t.given r = s.given r

section Property
variable (p : Platform) (env : Env)

/-- All that a probe needs is held, a BAR or a vector only if it was granted. -/
structure ProbeHolds (s t : State) : Prop where
  device : Holds s t .device
  msi : Holds s t .msi
  regions : Holds s t .regions
  window : ∀ b, if Pci.maps env b then Holds s t (.window b) else Untouched s t (.window b)
  msiIrq : ∀ v, if v ∈ (msiVectors p).filter (attaches env) then Holds s t (.msiIrq v)
    else Untouched s t (.msiIrq v)
  dmaCtl : Holds s t .dmaCtl
  fpga : p.fvd → Holds s t .platformDevice ∧ ∀ i, Holds s t (.fpgaIrq i)
  sysfsGroup : Holds s t .sysfsGroup

/-- A probe that returns an error has given back what it took, one that returns 0 holds it all. -/
def AllOrNothing (s : State) (rc : Rc) (t : State) : Prop :=
  if rc.isSome then Balanced s t else ProbeHolds p env s t

def nbars : ℕ := (bars.filter (Pci.maps env)).length

/-- Nothing fails after the DMA registers have been read. -/
structure LateSuccess : Prop where
  dmaCtl : env (.take .dmaCtl) = none
  fpga : p.fvd → FpgaReady env
  sysfsGroup : env (.take .sysfsGroup) = none

/-- Nothing fails but BARs and vectors. -/
structure ProbeSuccess : Prop where
  setReadrq : env (.check .pcieSetReadrq) = true
  setMps : env (.check .pcieSetMps) = true
  setExtTag : env (.check .pcieSetExtTag) = true
  msi : env (.take .msi) = none
  regions : env (.take .regions) = none
  twoBars : 2 ≤ nbars env
  late : LateSuccess p env

end Property

/-- Calls that return and leave the message signalled interrupts enabled. -/
def KeepsMsi : Op → Prop
  | .take r => r ≠ .msi
  | .give r => r ≠ .msi
  | .managed _ => True
  | .unregisterPlatformDevice => True
  | .check _ => True
  | .uninitialised _ => True
  | .resourceLen _ => True
  | .readDma _ => True
  | .get _ => True
  | .set _ => True
  | .awaitUnbound => False

section Unwinding
variable {α β : Type}

theorem managed_ne_msi (r : Managed) : r.resource ≠ .msi := by
  cases r <;> nofun

theorem Moves.untouched {s t : State} {got back : List Resource} (h : Moves s t got back)
    {r : Resource} (hgot : r ∉ got) (hback : r ∉ back) : Untouched s t r :=
  ⟨by rw [h.taken, List.count_eq_zero_of_not_mem hgot, Nat.add_zero],
    by rw [h.given, List.count_eq_zero_of_not_mem hback, Nat.add_zero]⟩

theorem Untouched.trans {s t u : State} {r : Resource} (h : Untouched s t r)
    (h' : Untouched t u r) : Untouched s u r :=
  ⟨h'.1.trans h.1, h'.2.trans h.2⟩

theorem reply_keepsMsi (env : Env) (s : State) (op : Op) (hop : KeepsMsi op) :
    ∃ b t, services.reply s op (env op) = some (b, t) ∧ Untouched s t .msi := by
  cases op with
  | take r =>
    refine ⟨_, _, rfl, ?_⟩
    cases env (.take r) with
    | none => exact (moves_take s r).untouched (by simpa using Ne.symm hop) (List.not_mem_nil)
    | some e => exact (moves_refuse s r).untouched List.not_mem_nil List.not_mem_nil
  | managed r =>
    refine ⟨_, _, rfl, ?_⟩
    cases env (.managed r) with
    | none =>
      refine ((Moves.count s r.resource).congr_right (u := s.manage r) rfl rfl).untouched ?_
        List.not_mem_nil
      simpa using (managed_ne_msi r).symm
    | some e => exact ⟨rfl, rfl⟩
  | give r =>
    exact ⟨_, _, rfl, (moves_give s r).untouched List.not_mem_nil (by simpa using Ne.symm hop)⟩
  | unregisterPlatformDevice =>
    refine ⟨_, _, rfl, ?_⟩
    cases h : s.pMemDev with
    | none => simp [State.unregisterPlatformDevice, h, Untouched]
    | some ms =>
      apply (moves_unregister h).untouched List.not_mem_nil
      simp [managed_ne_msi]
  | set w => exact ⟨_, _, rfl, (moves_write s w).untouched List.not_mem_nil List.not_mem_nil⟩
  | awaitUnbound => cases hop
  | _ => exact ⟨_, _, rfl, rfl, rfl⟩

theorem exec_keepsMsi (env : Env) {p : Driver α} (hp : p.Calls KeepsMsi) (s : State) :
    ∃ a t, exec env p s = some (a, t) ∧ Untouched s t .msi :=
  Program.Calls.exists_run (R := fun s t => Untouched s t .msi) (fun _ => ⟨rfl, rfl⟩)
    (fun _ _ _ => Untouched.trans) (reply_keepsMsi env) hp s

theorem calls_forM {P : Op → Prop} {ι : Type} {f : ι → Driver Unit} (hf : ∀ i, (f i).Calls P)
    (is : List ι) : (is.forM f).Calls P := by
  induction is with
  | nil => trivial
  | cons i is ih => exact (hf i).bind fun _ => ih

theorem keepsMsi_removeIoRegions : removeIoRegions.Calls KeepsMsi := by
  apply calls_forM
  intro b
  simp [unmapDeviceMemory, get, give, set, KeepsMsi]

theorem keepsMsi_detachMsis : Pci.bifrostDetachMsis.Calls KeepsMsi := by
  apply calls_forM
  intro v
  simp [Pci.detachMsi, get, give, set, KeepsMsi]

theorem keepsMsi_dmaCleanup : Pci.bifrostDmaCleanup.Calls KeepsMsi := by
  simp [Pci.bifrostDmaCleanup, get, give, KeepsMsi]

theorem keepsMsi_requestFpgaIrq {i : Fin 3} {invalid next : Driver ℤ}
    (hinvalid : invalid.Calls KeepsMsi) (hnext : next.Calls KeepsMsi) :
    (Membus.requestFpgaIrq i invalid next).Calls KeepsMsi := by
  refine ⟨trivial, fun valid => ?_⟩
  cases valid with
  | false => exact hinvalid.bind fun rc => ⟨trivial, fun _ => trivial⟩
  | true =>
    refine ⟨trivial, fun _ => ⟨trivial, fun rc => ?_⟩⟩
    cases rc with
    | none => exact hnext
    | some e => exact ⟨trivial, fun _ => trivial⟩

theorem keepsMsi_fvdInit : Membus.bifrostFvdInit.Calls KeepsMsi := by
  refine ⟨nofun, fun rc => ?_⟩
  cases rc with
  | some e => exact ⟨trivial, fun _ => trivial⟩
  | none =>
    change (Membus.requestFpgaIrq 0 _ _).Calls KeepsMsi
    apply keepsMsi_requestFpgaIrq
    · exact ⟨trivial, fun _ => trivial⟩
    apply keepsMsi_requestFpgaIrq
    · trivial
    exact keepsMsi_requestFpgaIrq trivial trivial

variable (env : Env)

/-- The run returns an error with the message signalled interrupts as they were. -/
def Fails (p : Driver Rc) (s : State) : Prop :=
  ∃ e t, exec env p s = some (some e, t) ∧ Untouched s t .msi

theorem Fails.bind {q : Driver α} {k : α → Driver Rc} {s : State} (hq : q.Calls KeepsMsi)
    (hk : ∀ a t, Fails env (k a) t) : Fails env (q >>= k) s := by
  obtain ⟨a, t, ht, hst⟩ := exec_keepsMsi env hq s
  obtain ⟨e, u, hu, htu⟩ := hk a t
  refine ⟨e, u, ?_, hst.trans htu⟩
  rw [exec_bind, ht]
  exact hu

theorem fails_errPciRequest (s : State) : Fails env Pci.errPciRequest s :=
  ⟨.ENODEV, s.give .device, rfl, (moves_give s .device).untouched List.not_mem_nil (by simp)⟩

theorem fails_errPciIomapRegb (s : State) : Fails env Pci.errPciIomapRegb s := by
  apply Fails.bind
  · simp [give, KeepsMsi]
  · exact fun _ t => fails_errPciRequest env t

theorem fails_errPciPostInit (s : State) : Fails env Pci.errPciPostInit s :=
  Fails.bind env keepsMsi_removeIoRegions fun _ t => fails_errPciIomapRegb env t

end Unwinding

section PostInit
variable {p : Platform} {env : Env}

structure TakesFpga (p : Platform) (rs : List Resource) : Prop where
  none : p.fvd = false → rs = []
  some : p.fvd = true → ∃ ms : List Managed, rs = .platformDevice :: ms.map Managed.resource ∧
    ∀ i, ms.count (.fpgaIrq i) = 1

structure PostInit (p : Platform) (env : Env) (s : State) (ok : Bool) (t : State) : Prop where
  msi : Untouched s t .msi
  rc : ok = ((env (.take .dmaCtl)).isNone && (!p.fvd || decide (fvdRc env = 0)))
  ready : ok = true → (p.fvd → FpgaReady env) → ∃ rs, TakesFpga p rs ∧
    Moves s t (((msiVectors p).filter (attaches env)).map .msiIrq ++ .dmaCtl :: rs) []
  silent : ok = true → p.fvd = true → ¬ FpgaReady env → 
    t.taken .platformDevice + s.given .platformDevice =
      s.taken .platformDevice + t.given .platformDevice

variable (env) in
theorem exec_postInit (irq : ℤ) {s : State} (hs : ∀ v, Detached s v) :
    ∃ ok t, exec env (Pci.bifrostPciProbePostInit p irq) s = some (ok, t) ∧
      PostInit p env s ok t := by
  obtain ⟨t₁, ht₁, hmoves₁, -⟩ := exec_attachMsis env p irq hs
  obtain ⟨rc, t₂, ht₂, hrc, hmoves₂⟩ := exec_bifrostDmaInit env p irq t₁
  have hmsi₂ : Untouched s t₂ .msi := by
    apply (hmoves₁.untouched _ List.not_mem_nil).trans (hmoves₂.untouched _ List.not_mem_nil)
    · simp
    · split <;> simp
  cases hctl : env (.take .dmaCtl) with
  | some e =>
    obtain ⟨_, t₃, ht₃, hmsi₃⟩ := exec_keepsMsi env keepsMsi_detachMsis t₂
    obtain ⟨e', rfl⟩ : ∃ e', rc = some e' := by
      cases rc with
      | none => simp [hctl] at hrc
      | some e' => exact ⟨e', rfl⟩
    refine ⟨false, t₃, ?_, hmsi₂.trans hmsi₃, by simp [hctl], nofun, nofun⟩
    simp [Pci.bifrostPciProbePostInit, exec_bind, ht₁, ht₂, ht₃]
  | none =>
    obtain rfl : rc = none := by simpa [hctl] using hrc
    cases hp : p.fvd with
    | false =>
      refine ⟨true, t₂, ?_, hmsi₂, by simp [hctl, hp], fun _ _ => ⟨[], ⟨fun _ => rfl, ?_⟩, ?_⟩, ?_⟩
      · simp [Pci.bifrostPciProbePostInit, exec_bind, ht₁, ht₂, hp]
      · simp [hp]
      · simpa [hctl] using hmoves₁.trans hmoves₂
      · simp [hp]
    | true =>
      obtain ⟨t₃, ht₃, hset⟩ := exec_bifrostFvdInit env t₂
      have hmsi₃ : Untouched t₂ t₃ .msi := by
        obtain ⟨rc, u, hu, hmsi⟩ := exec_keepsMsi env keepsMsi_fvdInit t₂
        obtain ⟨rfl, rfl⟩ : rc = fvdRc env ∧ u = t₃ := by simpa [ht₃, eq_comm] using hu
        exact hmsi
      by_cases hrc0 : fvdRc env = 0
      · refine ⟨true, t₃, ?_, hmsi₂.trans hmsi₃, by simp [hctl, hrc0], fun _ hready => ?_,
          fun _ _ hready => ?_⟩
        · simp [Pci.bifrostPciProbePostInit, exec_bind, ht₁, ht₂, ht₃, hp, hrc0]
        · obtain ⟨ms, -, hmoves₃, hcount⟩ := (hset.managing (hready hp)).manages
          refine ⟨.platformDevice :: ms.map Managed.resource, ⟨by simp [hp],
            fun _ => ⟨ms, rfl, ?_⟩⟩, ?_⟩
          · intro i
            rw [hcount]
            fin_cases i <;> rfl
          · simpa [hctl] using (hmoves₁.trans hmoves₂).trans hmoves₃
        · have h₁ := hmoves₁.untouched (r := .platformDevice) (by simp) List.not_mem_nil
          have h₂ := hmoves₂.untouched (r := .platformDevice) (by simp [hctl]) List.not_mem_nil
          have h₃ := hset.balanced hready .platformDevice
          rw [h₂.1, h₂.2, h₁.1, h₁.2] at h₃
          exact h₃
      · obtain ⟨_, t₄, ht₄, hmsi₄⟩ := exec_keepsMsi env keepsMsi_dmaCleanup t₃
        obtain ⟨_, t₅, ht₅, hmsi₅⟩ := exec_keepsMsi env keepsMsi_detachMsis t₄
        refine ⟨false, t₅, ?_, ((hmsi₂.trans hmsi₃).trans hmsi₄).trans hmsi₅, by simp [hrc0, hp],
          nofun, nofun⟩
        simp [Pci.bifrostPciProbePostInit, exec_bind, ht₁, ht₂, ht₃, ht₄, ht₅, hp, hrc0]

end PostInit
section Probe
variable {p : Platform} {env : Env} {s : State}

variable (env) in
/-- The BARs are mapped and, on FVD platforms, BAR0 is patched. -/
theorem exec_probeRegions (p : Platform) (irq : ℤ) (hs : ∀ v, Detached s v) :
    ∃ t u, exec env (Pci.probeRegions p irq) s =
        (if nbars env < 2 then exec env Pci.errPciIomapRegb t
          else exec env (Pci.probeInterfaces p irq) u) ∧
      Untouched s t .msi ∧ Moves s u (windows (Pci.maps env) bars) [] ∧ ∀ v, Detached u v := by
  obtain ⟨t, ht, hall⟩ := exec_setupIoRegions env (Pci.exec_initAndMap env) bars
    (List.nodup_finRange _) s
  have hmsi : t.msi = s.msi := by rw [hall.same]
  have huntouched : Untouched s t .msi :=
    hall.moves.untouched (by simp [windows]) List.not_mem_nil
  cases hp : p.fvd with
  | false =>
    refine ⟨t, t, ?_, huntouched, hall.moves, fun v => ?_⟩
    · rw [Pci.probeRegions, exec_bind, ht, Option.bind_some, ← nbars]
      split
      · rfl
      · simp [hp]
    · rw [Detached, hmsi]
      exact hs v
  | true =>
    refine ⟨t, t.write .patchBar0, ?_, huntouched, ?_, fun v => ?_⟩
    · rw [Pci.probeRegions, exec_bind, ht, Option.bind_some, ← nbars]
      split
      · rfl
      · simp only [exec_bind, exec_set, Option.bind_some]
    · simpa using hall.moves.trans (moves_write t .patchBar0)
    · rw [Detached, show (t.write .patchBar0).msi = t.msi from rfl, hmsi]
      exact hs v

def lateResources (p : Platform) (env : Env) (rs : List Resource) : List Resource :=
  windows (Pci.maps env) bars ++ (((msiVectors p).filter (attaches env)).map .msiIrq ++
    .dmaCtl :: rs) ++ [.sysfsGroup]

inductive ProbeEnd (p : Platform) (env : Env) (s : State) : Option (Rc × State) → Prop where
  | fails (e : Errno) (t : State) (h : 2 ≤ nbars env → ¬ LateSuccess p env)
      (hmsi : Untouched s t .msi) : ProbeEnd p env s (some (some e, t))
  | silent (t : State) (hp : p.fvd = true) (hready : ¬ FpgaReady env)
      (ht : t.taken .platformDevice + s.given .platformDevice =
        s.taken .platformDevice + t.given .platformDevice) : ProbeEnd p env s (some (none, t))
  | success (rs : List Resource) (t : State) (h : LateSuccess p env) (hbars : 2 ≤ nbars env)
      (hrs : TakesFpga p rs) (hmoves : Moves s t (lateResources p env rs) []) :
      ProbeEnd p env s (some (none, t))

variable (env) in
theorem probeEnd (p : Platform) (irq : ℤ) (hs : ∀ v, Detached s v) :
    ProbeEnd p env s (exec env (Pci.probeRegions p irq) s) := by
  obtain ⟨t, u, hexec, hmsi, hmoves, hdet⟩ := exec_probeRegions env p irq hs
  have hmsi' : Untouched s u .msi := hmoves.untouched (by simp [windows]) List.not_mem_nil
  by_cases hbars : nbars env < 2
  · obtain ⟨e, v, hv, hfail⟩ := fails_errPciIomapRegb env t
    rw [hexec, if_pos hbars, hv]
    exact .fails e v (fun h => absurd h (Nat.not_le.mpr hbars)) (hmsi.trans hfail)
  rw [hexec, if_neg hbars, Pci.probeInterfaces, exec_bind]
  obtain ⟨ok, v, hv, hpost⟩ := exec_postInit env irq hdet
  rw [hv, Option.bind_some]
  cases ok with
  | false =>
    obtain ⟨e, w, hw, hfail⟩ := fails_errPciPostInit env v
    rw [if_neg Bool.false_ne_true, hw]
    refine .fails e w (fun _ hlate => ?_) ((hmsi'.trans hpost.msi).trans hfail)
    have hrc := hpost.rc
    cases hp : p.fvd with
    | false => simp [hlate.dmaCtl, hp] at hrc
    | true => simp [hlate.dmaCtl, fvdRc_ready env (hlate.fpga hp)] at hrc
  | true =>
    have hctl : env (.take .dmaCtl) = none := by
      have hrc := hpost.rc
      rw [eq_comm, Bool.and_eq_true] at hrc
      exact Option.isNone_iff_eq_none.mp hrc.1
    rw [if_pos rfl, exec_bind, exec_take, Option.bind_some]
    cases hsysfs : env (.take .sysfsGroup) with
    | some e =>
      obtain ⟨e', w, hw, hfail⟩ := fails_errPciPostInit env (v.refuse .sysfsGroup)
      rw [Option.isSome_some, if_pos rfl, Option.elim_some, Pci.errPciSysfs, hw]
      refine .fails e' w (fun _ hlate => ?_) ((hmsi'.trans hpost.msi).trans hfail)
      rw [hlate.sysfsGroup] at hsysfs
      cases hsysfs
    | none =>
      rw [Option.isSome_none, if_neg Bool.false_ne_true, Option.elim_none]
      have hgroup := moves_take v .sysfsGroup
      by_cases hready : p.fvd = true → FpgaReady env
      · obtain ⟨rs, hrs, hlate⟩ := hpost.ready rfl hready
        exact .success rs _ ⟨hctl, hready, hsysfs⟩ (Nat.not_lt.mp hbars) hrs
          ((hmoves.trans hlate).trans hgroup)
      · rw [Classical.not_imp] at hready
        apply ProbeEnd.silent _ hready.1 hready.2
        have hsilent := hpost.silent rfl hready.1 hready.2
        have hu := hmoves.untouched (r := .platformDevice) (by simp [windows]) List.not_mem_nil
        have hv' := hgroup.untouched (r := .platformDevice) (by simp) List.not_mem_nil
        rw [hv'.1, hv'.2]
        rwa [hu.1, hu.2] at hsilent

section Counting

theorem count_map_filter {ι : Type} [DecidableEq ι] {f : ι → Resource}
    (hf : Function.Injective f) (ok : ι → Bool) {is : List ι} (his : is.Nodup) (i : ι) :
    ((is.filter ok).map f).count (f i) = if i ∈ is.filter ok then 1 else 0 := by
  rw [List.count_map_of_injective _ f hf, (his.filter ok).count]

theorem count_map_other {ι : Type} {f : ι → Resource} (is : List ι) {r : Resource}
    (hr : ∀ i, r ≠ f i) : (is.map f).count r = 0 := by
  apply List.count_eq_zero_of_not_mem
  rintro hmem
  obtain ⟨i, -, hi⟩ := List.mem_map.mp hmem
  exact hr i hi.symm

theorem managed_injective : Function.Injective Managed.resource := by
  intro a b hab
  cases a <;> cases b <;> simp_all [Managed.resource]

theorem TakesFpga.count_other {p : Platform} {rs : List Resource} (h : TakesFpga p rs)
    {r : Resource} (hdev : r ≠ .platformDevice) (hr : ∀ m : Managed, r ≠ m.resource) :
    rs.count r = 0 := by
  cases hp : p.fvd with
  | false => simp [h.none hp]
  | true =>
    obtain ⟨ms, rfl, -⟩ := h.some hp
    rw [List.count_cons_of_ne hdev.symm, count_map_other ms hr]

theorem count_lateResources (p : Platform) (env : Env) (rs : List Resource) (r : Resource) :
    (Resource.device :: .msi :: .regions :: lateResources p env rs).count r =
      [Resource.device, .msi, .regions, .dmaCtl, .sysfsGroup].count r +
        (windows (Pci.maps env) bars).count r +
        (((msiVectors p).filter (attaches env)).map Resource.msiIrq).count r + rs.count r := by
  simp only [lateResources, List.count_append, List.count_cons, List.count_nil]
  omega

end Counting

/-- A run that takes the resources of a successful probe holds all that it needs. -/
theorem probeHolds_of_moves {rs : List Resource} {t : State} (hrs : TakesFpga p rs)
    (h : Moves s t (.device :: .msi :: .regions :: lateResources p env rs) []) :
    ProbeHolds p env s t := by
  have hcount : ∀ r, t.taken r = s.taken r +
      ([Resource.device, .msi, .regions, .dmaCtl, .sysfsGroup].count r +
        (windows (Pci.maps env) bars).count r +
        (((msiVectors p).filter (attaches env)).map Resource.msiIrq).count r + rs.count r) :=
    fun r => by rw [h.taken, count_lateResources]
  have hwindow : ∀ r, (∀ b, r ≠ .window b) → (windows (Pci.maps env) bars).count r = 0 :=
    fun r => count_map_other _
  have hmsi : ∀ r, (∀ v, r ≠ .msiIrq v) →
      (((msiVectors p).filter (attaches env)).map Resource.msiIrq).count r = 0 :=
    fun r => count_map_other _
  have hfixed : ∀ r ∈ [Resource.device, .msi, .regions, .dmaCtl, .sysfsGroup], Holds s t r := by
    intro r hr
    refine ⟨?_, h.given r⟩
    simp only [List.mem_cons, List.not_mem_nil, or_false] at hr
    rw [hcount]
    rcases hr with rfl | rfl | rfl | rfl | rfl <;>
      rw [hwindow _ (by simp), hmsi _ (by simp),
        hrs.count_other (by simp) (fun m => by cases m <;> simp [Managed.resource])] <;> rfl
  refine ⟨hfixed _ (by simp), hfixed _ (by simp), hfixed _ (by simp), fun b => ?_, fun v => ?_,
    hfixed _ (by simp), fun hp => ?_, hfixed _ (by simp)⟩
  · have hb : t.taken (.window b) = s.taken (.window b) + if Pci.maps env b then 1 else 0 := by
      rw [hcount, hmsi _ (by simp),
        hrs.count_other (by simp) (fun m => by cases m <;> simp [Managed.resource]),
        windows, count_map_filter (fun _ _ => Resource.window.inj) _ (List.nodup_finRange _)]
      simp
    split
    · exact ⟨by simpa [*] using hb, h.given _⟩
    · exact ⟨by simpa [*] using hb, h.given _⟩
  · have hv : t.taken (.msiIrq v) = s.taken (.msiIrq v) +
        if v ∈ (msiVectors p).filter (attaches env) then 1 else 0 := by
      rw [hcount, hwindow _ (by simp),
        hrs.count_other (by simp) (fun m => by cases m <;> simp [Managed.resource]),
        count_map_filter (fun _ _ => Resource.msiIrq.inj) _ (nodup_msiVectors p)]
      simp
    split
    · exact ⟨by rw [hv, if_pos ‹_›], h.given _⟩
    · exact ⟨by rw [hv, if_neg ‹_›, Nat.add_zero], h.given _⟩
  · obtain ⟨ms, rfl, hms⟩ := hrs.some hp
    refine ⟨⟨?_, h.given _⟩, fun i => ⟨?_, h.given _⟩⟩
    · rw [hcount, hwindow _ (by simp), hmsi _ (by simp), List.count_cons_self,
        count_map_other ms (fun m => by cases m <;> simp [Managed.resource])]
      rfl
    · have hirq : (Resource.platformDevice :: ms.map Managed.resource).count (.fpgaIrq i) = 1 := by
        rw [List.count_cons_of_ne (by simp)]
        exact (List.count_map_of_injective ms _ managed_injective (.fpgaIrq i)).trans (hms i)
      rw [hcount, hwindow _ (by simp), hmsi _ (by simp), hirq]
      rfl

theorem not_balanced {t u : State} {got : List Resource} {r : Resource} (h : Moves s t got [])
    (hr : got.count r = 1) (h' : Untouched t u r) : ¬ Balanced s u := by
  intro hbal
  have hr' := hbal r
  rw [h'.1, h'.2, h.taken, h.given, hr, List.count_nil] at hr'
  omega

def EarlySuccess (env : Env) : Prop :=
  env (.check .pcieSetReadrq) = true ∧ env (.check .pcieSetMps) = true ∧
    env (.check .pcieSetExtTag) = true ∧ env (.take .msi) = none

instance (env : Env) : Decidable (EarlySuccess env) := inferInstanceAs (Decidable (_ ∧ _))

/-- The steps before the regions are requested return without unwinding. -/
theorem exec_bifrostPciProbe (irq : ℤ) (hdev : env (.take .device) = none) :
    exec env (Pci.bifrostPciProbe p irq) s =
      if EarlySuccess env then
        if env (.take .regions) = none then
          exec env (Pci.probeRegions p irq) (((s.take .device).take .msi).take .regions)
        else exec env Pci.errPciRequest ((s.take .device).take .msi)
      else some (some .ENODEV, s.take .device) := by
  have hrc : ∀ rc : Rc, rc = none ∨ ∃ e, rc = some e := fun rc => by cases rc <;> simp
  unfold EarlySuccess
  by_cases hreadrq : env (.check .pcieSetReadrq) = true
  · by_cases hmps : env (.check .pcieSetMps) = true
    · by_cases htag : env (.check .pcieSetExtTag) = true
      · rcases hrc (env (.take .msi)) with hmsi | ⟨e, hmsi⟩
        · rcases hrc (env (.take .regions)) with hregions | ⟨e, hregions⟩ <;>
            simp [Pci.bifrostPciProbe, exec_bind, hdev, hreadrq, hmps, htag, hmsi, hregions,
              State.refuse]
        · simp [Pci.bifrostPciProbe, exec_bind, hdev, hreadrq, hmps, htag, hmsi, State.refuse]
      · simp [Pci.bifrostPciProbe, exec_bind, hdev, hreadrq, hmps, htag]
    · simp [Pci.bifrostPciProbe, exec_bind, hdev, hreadrq, hmps]
  · simp [Pci.bifrostPciProbe, exec_bind, hdev, hreadrq]

theorem probeSuccess_of_late (hearly : EarlySuccess env) (hregions : env (.take .regions) = none)
    (hbars : 2 ≤ nbars env) (hlate : LateSuccess p env) : ProbeSuccess p env :=
  ⟨hearly.1, hearly.2.1, hearly.2.2.1, hearly.2.2.2, hregions, hbars, hlate⟩

/-- A probe is all or nothing exactly if the device cannot be enabled or nothing fails but single
BARs and vectors: no error path gives everything back once the device is enabled, and
`bifrost_fvd_init` returns 0 for some failures. -/
theorem probe_all_or_nothing_iff (p : Platform) (env : Env) (irq : ℤ) (s : State)
    (hs : ∀ v, Detached s v) :
    (∀ rc t, exec env (Pci.bifrostPciProbe p irq) s = some (rc, t) →
      AllOrNothing p env s rc t) ↔
      env (.take .device) ≠ none ∨ ProbeSuccess p env := by
  cases hdev : env (.take .device) with
  | some e =>
    have hexec : exec env (Pci.bifrostPciProbe p irq) s = some (some .ENODEV, s) := by
      simp [Pci.bifrostPciProbe, exec_bind, hdev, State.refuse]
    refine iff_of_true (fun rc t h => ?_) (.inl (Option.some_ne_none e))
    obtain ⟨rfl, rfl⟩ : some .ENODEV = rc ∧ s = t := by simpa [hexec] using h
    exact fun r => rfl
  | none =>
    have hdevice := moves_take s .device
    simp only [ne_eq, not_true_eq_false, false_or]
    rw [exec_bifrostPciProbe irq hdev]
    by_cases hearly : EarlySuccess env
    swap
    · -- the device stays enabled
      rw [if_neg hearly]
      refine iff_of_false (fun h => ?_) fun h => ?_
      · exact not_balanced hdevice (r := .device) rfl ⟨rfl, rfl⟩ (h _ _ rfl)
      · exact hearly ⟨h.setReadrq, h.setMps, h.setExtTag, h.msi⟩
    rw [if_pos hearly]
    have hmsi := hdevice.trans (moves_take (s.take .device) .msi)
    by_cases hregions : env (.take .regions) = none
    swap
    · -- the message signalled interrupts stay enabled
      rw [if_neg hregions]
      obtain ⟨e, t, ht, hfail⟩ := fails_errPciRequest env ((s.take .device).take .msi)
      rw [ht]
      refine iff_of_false (fun h => ?_) fun h => hregions h.regions
      exact not_balanced hmsi (r := .msi) rfl hfail (h _ _ rfl)
    rw [if_pos hregions]
    have hregs := hmsi.trans (moves_take ((s.take .device).take .msi) .regions)
    have hdet : ∀ v, Detached (((s.take .device).take .msi).take .regions) v := hs
    have hend := probeEnd env p irq hdet
    generalize exec env (Pci.probeRegions p irq) _ = out at hend ⊢
    cases hend with
    | fails e t hlate ht =>
      refine iff_of_false (fun h => ?_) fun h => hlate h.twoBars h.late
      exact not_balanced hregs (r := .msi) rfl ht (h _ _ rfl)
    | silent t hp hready ht =>
      refine iff_of_false (fun h => ?_) fun h => hready (h.late.fpga hp)
      have hheld := (h none t rfl).fpga hp
      have hfirst := hregs.untouched (r := .platformDevice) (by simp) (by simp)
      rw [hheld.1.1, hheld.1.2, hfirst.1, hfirst.2] at ht
      omega
    | success rs t hlate hbars hrs hmoves =>
      refine iff_of_true (fun rc u hu => ?_)
        (probeSuccess_of_late hearly hregions hbars hlate)
      cases hu
      exact probeHolds_of_moves hrs (hregs.trans hmoves)

theorem fpgaReady_granted : FpgaReady granted := ⟨rfl, ⟨rfl, rfl⟩, ⟨rfl, rfl⟩, ⟨rfl, rfl⟩⟩

/-- With every service granted the first probe of a Rocky platform holds all that it needs. -/
theorem probe_all_or_nothing_rocky :
    ∃ rc t, exec granted (Pci.bifrostPciProbe ⟨true, false, false, false⟩ 40) (.fresh []) =
      some (rc, t) ∧ AllOrNothing ⟨true, false, false, false⟩ granted (.fresh []) rc t := by
  have hall := (probe_all_or_nothing_iff ⟨true, false, false, false⟩ granted 40 (.fresh [])
    fun _ => rfl).mpr
      (.inr ⟨rfl, rfl, rfl, rfl, rfl, by decide, rfl, fun _ => fpgaReady_granted, rfl⟩)
  obtain ⟨rc, t, hrun⟩ : ∃ rc t, exec granted
      (Pci.bifrostPciProbe ⟨true, false, false, false⟩ 40) (.fresh []) = some (rc, t) :=
    ⟨_, _, rfl⟩
  exact ⟨rc, t, hrun, hall rc t hrun⟩

def regionsBusy : Env
  | .take .regions => some .EBUSY
  | op => granted op

/-- If the regions cannot be requested, the probe fails with the interrupts of the device left
enabled. -/
theorem probe_leaves_msi_enabled :
    ¬ ∀ (p : Platform) (env : Env) (irq : ℤ) (s : State), (∀ v, Detached s v) →
      ∀ rc t, exec env (Pci.bifrostPciProbe p irq) s = some (rc, t) →
        AllOrNothing p env s rc t := by
  intro h
  have hbal := h ⟨false, false, false, false⟩ regionsBusy 40 (.fresh []) (fun _ => rfl)
    (some .ENODEV) _ rfl .msi
  revert hbal
  decide

end Probe
end BifrostModule.Lifecycle
