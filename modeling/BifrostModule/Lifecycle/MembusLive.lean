import BifrostModule.Lifecycle.Kinds

/-! # The windows of the memory bus outlive their users

A load that drives the device over the memory bus only gets to its FPGA interrupts
and its character device with both windows mapped, and an unload gives the character
device back before it unmaps them. What each of them depends on is no other step's to
change, so the programs are followed call by call on a view of the state.
-/
namespace BifrostModule.Lifecycle
open Foundation Regb

/-- What load and unload keep to themselves. Once a PCI driver is registered, windows and FPGA
interrupts are the business of its probes. -/
structure View where
  membus : Bool
  loaded : Bool
  drivers : ℕ
  cdevTaken : ℕ
  cdevGiven : ℕ
  cdevInitialized : Bool
  mapped : Bar → Bool
  fpga : Fpga

def State.view (s : State) : View where
  membus := s.membus
  loaded := s.loaded
  drivers := s.taken .pciDriver
  cdevTaken := s.taken .cdev
  cdevGiven := s.given .cdev
  cdevInitialized := s.cdevInitialized
  mapped := fun b => s.taken .pciDriver == 0 && (s.regb b).mapped
  fpga := if s.taken .pciDriver = 0 then s.fpga else ⟨fun _ => 0, fun _ => 0, none⟩

/-- A call as the view sees it, whatever the rest of the state and the environment are. -/
def Sees (v : View) (op : Op) (a : Ans op) (w : View) : Prop :=
  ∃ (s t : State) (a₀ : Ans op), s.view = v ∧ s.reply op a₀ = some (a, t) ∧ t.view = w

def Fpga.Clear (f : Fpga) : Prop := ∀ i, f.taken i ≤ f.given i

def Fpga.Managed (f : Fpga) : Prop :=
  ∃ ms, f.device = some ms ∧ ∀ i, f.taken i ≤ f.given i + ms.count (.fpgaIrq i)

namespace View

/-- In memory-bus mode there is no PCI driver, and both windows are mapped for as long as the
character device is live. -/
def Safe (v : View) : Prop :=
  v.membus = true →
    v.drivers = 0 ∧ (v.cdevGiven < v.cdevTaken → v.mapped 0 = true ∧ v.mapped 1 = true)

/-- In memory-bus mode an FPGA interrupt finds the window of BAR0. -/
def Calm (v : View) : Prop :=
  v.membus = true → ∀ i, v.fpga.given i < v.fpga.taken i → v.mapped 0 = true

/-- What holds before each call; `dma_ctl` is given up past `bifrost_cdev_exit` only, and the
windows of PCI devices are left alone. -/
structure Before (op : Op) (v : View) : Prop where
  safe : v.Safe
  windows : op.kind = .window ∨ op.kind = .unmap → v.membus = true
  early : (v.loaded = true → op.inCdevExit = true) → v.Calm ∧ op.kind ≠ .dma

/-- Safe, and a live character device is known to be initialised. -/
def Settled (v : View) : Prop :=
  v.Safe ∧ (v.membus = true → v.cdevTaken ≤ v.cdevGiven + 1 ∧
    (v.cdevGiven < v.cdevTaken → v.cdevInitialized = true))

def Quiet (v : View) : Prop := v.Settled ∧ (v.loaded = true → v.Calm)

structure Closed (v : View) : Prop where
  membus : v.membus = true
  drivers : v.drivers = 0
  cdev : v.cdevTaken ≤ v.cdevGiven

theorem Closed.safe {v : View} (h : v.Closed) : v.Safe :=
  fun _ => ⟨h.drivers, fun hc => absurd hc (Nat.not_lt.mpr h.cdev)⟩

theorem Closed.settled {v : View} (h : v.Closed) : v.Settled :=
  ⟨h.safe, fun _ => ⟨Nat.le_succ_of_le h.cdev, fun hc => absurd hc (Nat.not_lt.mpr h.cdev)⟩⟩

theorem settled_of_pci {v : View} (h : v.membus = false) : v.Settled := by
  refine ⟨fun hm => ?_, fun hm => ?_⟩ <;> simp [h] at hm

theorem calm_of_pci {v : View} (h : v.membus = false) : v.Calm := fun hm => by simp [h] at hm

theorem quiet_of_pci {v : View} (h : v.membus = false) : v.Quiet :=
  ⟨settled_of_pci h, fun _ => calm_of_pci h⟩

theorem calm_of_mapped {v : View} (h : v.mapped 0 = true) : v.Calm := fun _ _ _ => h

theorem calm_of_clear {v : View} (h : v.fpga.Clear) : v.Calm :=
  fun _ i hi => absurd hi (Nat.not_lt.mpr (h i))

structure Bare (v : View) : Prop extends v.Closed where
  loaded : v.loaded = false
  clear : v.fpga.Clear

structure Mapped (v : View) : Prop extends v.Closed where
  loaded : v.loaded = false
  both : v.mapped 0 = true ∧ v.mapped 1 = true

end View

section Sees
variable {v w : View} {op : Op} {a : Ans op} {ks : List Kind}

theorem Sees.eq (h : Sees v op a w) (hop : op.kind ∈ [Kind.node, .other]) : w = v := by
  obtain ⟨s, t, a₀, rfl, hst, rfl⟩ := h
  have hspares := reply_spares hst
  have hkind : ∀ k, k ∉ [Kind.node, .other] → op.kind ≠ k := fun k hk h => hk (h ▸ hop)
  simp only [State.view, hspares.membus (hkind _ (by simp)), hspares.loaded (hkind _ (by simp)),
    hspares.regb (hkind _ (by simp)) (hkind _ (by simp)),
    hspares.cdevInitialized (hkind _ (by simp)), hspares.cdev (hkind _ (by simp)),
    hspares.drivers (hkind _ (by simp)), hspares.fpga (hkind _ (by simp))]

theorem Sees.membus (h : Sees v op a w) (hop : op.kind ∈ ks) (hks : Kind.bus ∉ ks) :
    w.membus = v.membus := by
  obtain ⟨s, t, a₀, rfl, hst, rfl⟩ := h
  exact (reply_spares hst).membus (ne_of_mem_of_not_mem hop hks)

theorem Sees.loaded (h : Sees v op a w) (hop : op.kind ∈ ks) (hks : Kind.loader ∉ ks) :
    w.loaded = v.loaded := by
  obtain ⟨s, t, a₀, rfl, hst, rfl⟩ := h
  exact (reply_spares hst).loaded (ne_of_mem_of_not_mem hop hks)

theorem Sees.fpga (h : Sees v op a w) (hop : op.kind ∈ [Kind.window, .unmap, .other]) :
    w.fpga = v.fpga := by
  obtain ⟨s, t, a₀, rfl, hst, rfl⟩ := h
  have hspares := reply_spares hst
  simp only [State.view, hspares.drivers (ne_of_mem_of_not_mem hop (by simp)),
    hspares.fpga (ne_of_mem_of_not_mem hop (by simp))]

theorem Sees.mapped (h : Sees v op a w) (hop : op.kind ∈ [Kind.cdev, .fpga, .node, .other]) :
    w.mapped = v.mapped := by
  obtain ⟨s, t, a₀, rfl, hst, rfl⟩ := h
  have hspares := reply_spares hst
  simp only [State.view, hspares.drivers (ne_of_mem_of_not_mem hop (by simp)),
    hspares.regb (ne_of_mem_of_not_mem hop (by simp)) (ne_of_mem_of_not_mem hop (by simp))]

theorem Sees.closed (h : Sees v op a w) (hv : v.Closed)
    (hop : op.kind ∈ [Kind.window, .unmap, .fpga, .other]) : w.Closed := by
  obtain ⟨s, t, a₀, rfl, hst, rfl⟩ := h
  have hspares := reply_spares hst
  obtain ⟨htaken, hgiven⟩ := hspares.cdev (ne_of_mem_of_not_mem hop (by simp))
  constructor
  · exact (hspares.membus (ne_of_mem_of_not_mem hop (by simp))).trans hv.membus
  · exact (hspares.drivers (ne_of_mem_of_not_mem hop (by simp))).trans hv.drivers
  · simp only [State.view, htaken, hgiven]
    exact hv.cdev

theorem Sees.bare (h : Sees v op a w) (hv : v.Bare)
    (hop : op.kind ∈ [Kind.window, .unmap, .other]) : w.Bare where
  toClosed := h.closed hv.toClosed (by
    simp only [List.mem_cons, List.not_mem_nil, or_false] at hop ⊢
    tauto)
  loaded := (h.loaded hop (by simp)).trans hv.loaded
  clear := h.fpga hop ▸ hv.clear

theorem Sees.keepsMapped (h : Sees v op a w) (hv : v.Mapped)
    (hop : op.kind = .fpga) : w.Mapped where
  toClosed := h.closed hv.toClosed (hop ▸ by simp)
  loaded := (h.loaded (List.mem_singleton.mpr hop) (by simp)).trans hv.loaded
  both := h.mapped (hop ▸ by simp) ▸ hv.both

end Sees

section Programs
variable {α : Type} {v : View}

/-- The judgement on a program: `Before` every call, and `Q` of its result and the last view. -/
abbrev Keeps (Q : α → View → Prop) (p : Driver α) (v : View) : Prop :=
  p.Always Sees View.Before Q v

theorem View.Before.of_membus {op : Op} (hm : v.membus = true) (hs : v.Safe) (hc : v.Calm)
    (hop : op.kind ≠ .dma) : v.Before op := ⟨hs, fun _ => hm, fun _ => ⟨hc, hop⟩⟩

theorem View.Before.of_quiet {op : Op} {ks : List Kind} (hs : v.Safe) (hc : v.Calm)
    (hop : op.kind ∈ ks) (hks : Kind.window ∉ ks ∧ Kind.unmap ∉ ks ∧ Kind.dma ∉ ks) :
    v.Before op where
  safe := hs
  windows := by
    rintro (h | h) <;> rw [h] at hop
    · exact absurd hop hks.1
    · exact absurd hop hks.2.1
  early _ := ⟨hc, ne_of_mem_of_not_mem hop hks.2.2⟩

theorem View.Before.of_late {op : Op} (hs : v.Safe)
    (hw : op.kind = .window ∨ op.kind = .unmap → v.membus = true) (hl : v.loaded = true)
    (hop : op.inCdevExit = false) : v.Before op :=
  ⟨hs, hw, fun h => absurd (hop.symm.trans (h hl)) Bool.false_ne_true⟩

theorem Only.keeps_eq {p : Driver α} (hp : Only [.node, .other] p) (hs : v.Safe) (hc : v.Calm) :
    Keeps (fun _ w => w = v) p v := by
  refine Program.Calls.always hp.calls ?_ (fun op w hop hw => ?_) rfl
  · intro w op a u hop hw h
    exact (h.eq hop).trans hw
  · rw [hw]
    exact .of_quiet hs hc hop (by simp)

theorem Only.keeps_bare {p : Driver α} (hp : Only [.window, .unmap, .other] p) (hv : v.Bare) :
    Keeps (fun _ => View.Bare) p v :=
  Program.Calls.always hp.calls (fun _ _ _ _ hop hw h => h.bare hw hop) (fun _ _ hop hw =>
    .of_membus hw.membus hw.safe (View.calm_of_clear hw.clear)
      (ne_of_mem_of_not_mem hop (by simp))) hv

end Programs

/-- What one BAR's mapping adds to the view: it touches no other BAR, and only the first two BARs
can be mapped. -/
theorem keeps_initAndMap (b : Bar) {v : View} (hv : v.Bare) :
    Keeps (fun rc w => w.Bare ∧ (∀ c, c ≠ b → w.mapped c = v.mapped c) ∧
      (rc = none → b.val < 2 ∧ w.mapped b = true)) (Membus.initAndMap b) v := by
  simp only [Membus.initAndMap, set, take, Program.perform_bind]
  refine ⟨.of_membus hv.membus hv.safe (View.calm_of_clear hv.clear) (by simp), fun _ w hw => ?_⟩
  have hwc := hw.bare hv (by simp)
  have hother : ∀ c, c ≠ b → w.mapped c = v.mapped c := by
    obtain ⟨s, t, a₀, rfl, hst, rfl⟩ := hw
    intro c hc
    cases hst
    simp [State.view, State.write, State.setWindow, hc]
  split
  · exact ⟨hwc, hother, fun h => absurd h (Option.some_ne_none _)⟩
  · rename_i hb
    refine ⟨.of_membus hwc.membus hwc.safe (View.calm_of_clear hwc.clear)
      (by simp), fun rc u hu => ?_⟩
    have huc := hu.bare hwc (by simp)
    cases rc with
    | some e =>
      have heq : u = w := by
        obtain ⟨s, t, a₀, rfl, hst, rfl⟩ := hu
        cases hst
        rfl
      refine ⟨huc, fun c hc => ?_, fun h => absurd h (Option.some_ne_none _)⟩
      rw [heq]
      exact hother c hc
    | none =>
      obtain ⟨s, t, a₀, hs, hst, ht⟩ := hu
      cases hst
      refine ⟨huc, fun c hc => ?_, fun _ => ⟨Nat.not_le.mp hb, ?_⟩⟩
      · rw [← hother c hc, ← hs, ← ht]
        simp [State.view, State.take, State.setWindow, State.count, hc]
      · have hd := huc.drivers
        rw [← ht] at hd ⊢
        simpa [State.view, State.take, State.setWindow, State.count] using hd

/-- The BARs of a list that the memory bus can use and that are mapped. -/
def View.usable (v : View) (bs : List Bar) : List Bar :=
  bs.filter fun b => b.val < 2 ∧ v.mapped b = true

theorem keeps_setupIoRegions {bs : List Bar} (hbs : bs.Nodup) {v : View} (hv : v.Bare) :
    Keeps (fun n w => w.Bare ∧ (∀ c, c ∉ bs → w.mapped c = v.mapped c) ∧
      n ≤ (w.usable bs).length) (setupIoRegions Membus.initAndMap bs) v := by
  induction bs generalizing v with
  | nil => exact ⟨hv, fun _ _ => rfl, Nat.zero_le _⟩
  | cons b bs ih =>
    obtain ⟨hb, hbs⟩ := List.nodup_cons.mp hbs
    refine Program.Always.bind (keeps_initAndMap b hv) fun rc w ⟨hw, hother, hrc⟩ => ?_
    refine Program.Always.bind (ih hbs hw) fun n u ⟨hu, hrest, hn⟩ => ⟨hu, fun c hc => ?_, ?_⟩
    · rw [hrest c fun h => hc (List.mem_cons_of_mem b h),
        hother c fun h => hc (h ▸ List.mem_cons_self)]
    · cases rc with
      | some e => exact hn.trans (List.Sublist.length_le ((List.sublist_cons_self b bs).filter _))
      | none =>
        obtain ⟨hlow, hmapped⟩ := hrc rfl
        rw [View.usable, List.filter_cons_of_pos (by simp [hlow, hrest b hb, hmapped])]
        exact Nat.succ_le_succ hn

theorem View.mapped_of_two {v : View} (h : 2 ≤ (v.usable bars).length) :
    v.mapped 0 = true ∧ v.mapped 1 = true := by
  have hbars : bars = [0, 1, 2, 3, 4, 5] := by decide
  rw [View.usable, hbars] at h
  cases h0 : v.mapped 0 <;> cases h1 : v.mapped 1 <;> simp [h0, h1, numBars] at h ⊢

section FpgaIrqs
variable {v w : View}

theorem View.Mapped.before {op : Op} (hv : v.Mapped) (hop : op.kind ≠ .dma) : v.Before op :=
  .of_membus hv.membus hv.safe (calm_of_mapped hv.both.1) hop

/-- How the calls of `bifrost_fvd_init` change the requested interrupts. -/
theorem Sees.fpga_of_drivers {op : Op} {a : Ans op} (hv : v.Mapped) (hop : op.kind = .fpga)
    (h : Sees v op a w) : ∃ (s t : State) (a₀ : Ans op),
      s.fpga = v.fpga ∧ s.reply op a₀ = some (a, t) ∧ w.fpga = t.fpga := by
  have hw := h.keepsMapped hv hop
  obtain ⟨s, t, a₀, rfl, hst, rfl⟩ := h
  have hs : s.taken .pciDriver = 0 := hv.drivers
  have ht : t.taken .pciDriver = 0 := hw.drivers
  exact ⟨s, t, a₀, by simp [State.view, hs], hst, by simp [State.view, ht]⟩

theorem fpga_unregister {s : State} (h : s.fpga.Managed) :
    s.unregisterPlatformDevice.fpga.Clear := by
  obtain ⟨ms, hms, hcount⟩ := h
  have hdev : s.pMemDev = some ms := hms
  have hmoves := moves_unregister hdev
  have hinj : Function.Injective Managed.resource := by
    intro a b hab
    cases a <;> cases b <;>
      simp only [Managed.resource, Resource.gpio.injEq, Resource.fpgaIrq.injEq,
      reduceCtorEq] at hab <;> rw [hab]
  intro i
  have hone : (Resource.platformDevice :: ms.map Managed.resource).count (.fpgaIrq i) =
      ms.count (.fpgaIrq i) := by
    rw [List.count_cons_of_ne (by simp)]
    exact List.count_map_of_injective ms Managed.resource hinj (.fpgaIrq i)
  have htaken := hmoves.taken (.fpgaIrq i)
  have hgiven := hmoves.given (.fpgaIrq i)
  rw [hone] at hgiven
  simp only [State.fpga, htaken, hgiven, List.count_nil, Nat.add_zero]
  exact hcount i

theorem fpga_manage {s : State} (h : s.fpga.Managed) (r : Managed) : (s.manage r).fpga.Managed := by
  obtain ⟨ms, hms, hcount⟩ := h
  have hdev : s.pMemDev = some ms := hms
  refine ⟨ms ++ [r], by simp [State.manage, State.fpga, hdev], fun i => ?_⟩
  have hold := hcount i
  have hgiven : (s.manage r).fpga.given i = s.fpga.given i := rfl
  have htaken : (s.manage r).fpga.taken i = s.fpga.taken i + [r].count (.fpgaIrq i) := by
    cases r with
    | gpio j => simp [State.fpga, State.manage, State.count, Managed.resource]
    | fpgaIrq j =>
      by_cases hij : i = j
      · simp [State.fpga, State.manage, State.count, Managed.resource, hij]
      · simp [State.fpga, State.manage, State.count, Managed.resource, hij, Ne.symm hij]
  rw [hgiven, htaken, List.count_append]
  omega

theorem Sees.managed {r : Managed} {rc : Rc} (hv : v.Mapped) (hm : v.fpga.Managed)
    (h : Sees v (.managed r) rc w) : w.fpga.Managed := by
  obtain ⟨s, t, a₀, hs, hst, ht⟩ := h.fpga_of_drivers hv rfl
  rw [ht]
  rw [← hs] at hm
  cases a₀ with
  | some e =>
    cases hst
    exact hm
  | none =>
    cases hst
    exact fpga_manage hm r

/-- The FPGA interrupts are requested between mapped windows, and given back where
`bifrost_fvd_init` fails. -/
abbrev FvdEnds (rc : ℤ) (w : View) : Prop := w.Mapped ∧ (rc ≠ 0 → w.fpga.Clear)

theorem keeps_unregister (rc : ℤ) (hv : v.Mapped) (hm : v.fpga.Managed) :
    Keeps FvdEnds (platformDeviceUnregister >>= fun _ => pure rc) v := by
  refine ⟨hv.before (by simp), fun _ w hw => ⟨hw.keepsMapped hv rfl, fun _ => ?_⟩⟩
  obtain ⟨s, t, a₀, hs, hst, ht⟩ := hw.fpga_of_drivers hv rfl
  cases hst
  rw [ht]
  exact fpga_unregister (hs ▸ hm)

theorem keeps_requestFpgaIrq (i : Fin 3) {invalid next : Driver ℤ} (hv : v.Mapped)
    (hm : v.fpga.Managed)
    (hinvalid : ∀ w : View, w.Mapped → w.fpga.Managed →
      Keeps (fun _ u => u.Mapped ∧ u.fpga.Managed) invalid w)
    (hnext : ∀ w : View, w.Mapped → w.fpga.Managed → Keeps FvdEnds next w) :
    Keeps FvdEnds (Membus.requestFpgaIrq i invalid next) v := by
  refine ⟨hv.before (by simp), fun valid w hw => ?_⟩
  have hwv : w.fpga = v.fpga := by
    obtain ⟨s, t, a₀, hs, hst, ht⟩ := hw.fpga_of_drivers hv rfl
    cases hst
    rw [ht, hs]
  have hwm := hw.keepsMapped hv rfl
  cases valid with
  | false =>
    change Keeps FvdEnds (invalid >>= fun rc => platformDeviceUnregister >>= fun _ => pure rc) w
    exact Program.Always.bind (hinvalid w hwm (hwv ▸ hm)) fun rc u hu =>
      keeps_unregister rc hu.1 hu.2
  | true =>
    refine ⟨hwm.before (by simp), fun _ u hu => ?_⟩
    have hum := hu.keepsMapped hwm rfl
    have humanaged := hu.managed hwm (hwv ▸ hm)
    refine ⟨hum.before (by simp), fun rc y hy => ?_⟩
    have hym := hy.keepsMapped hum rfl
    cases rc with
    | some e => exact keeps_unregister _ hym (hy.managed hum humanaged)
    | none => exact hnext y hym (hy.managed hum humanaged)

theorem keeps_fvdInit (hv : v.Mapped) (hclear : v.fpga.Clear) :
    Keeps FvdEnds Membus.bifrostFvdInit v := by
  refine ⟨hv.before (by simp), fun rc w hw => ?_⟩
  have hwm := hw.keepsMapped hv rfl
  obtain ⟨s, t, a₀, hs, hst, ht⟩ := hw.fpga_of_drivers hv rfl
  have hunset : ∀ u : View, u.Mapped → u.fpga.Managed →
      Keeps (fun _ y => y.Mapped ∧ y.fpga.Managed) (uninitialised .fvdInitRc) u := by
    refine fun u hu hm => ⟨hu.before (by simp), fun _ y hy => ⟨hy.keepsMapped hu rfl, ?_⟩⟩
    obtain ⟨s, t, a₀, hs, hst, ht⟩ := hy.fpga_of_drivers hu rfl
    cases hst
    rw [ht, hs]
    exact hm
  have hzero : ∀ u : View, u.Mapped → u.fpga.Managed →
      Keeps (fun _ y => y.Mapped ∧ y.fpga.Managed) (pure 0 : Driver ℤ) u := fun _ hu hm => ⟨hu, hm⟩
  cases rc with
  | some e =>
    cases a₀ <;> cases hst
    refine ⟨hwm.before (by simp), fun _ u hu => ⟨hu.keepsMapped hwm rfl, fun _ => ?_⟩⟩
    obtain ⟨s', t', a₀', hs', hst', ht'⟩ := hu.fpga_of_drivers hwm rfl
    cases hst'
    rw [ht', hs', ht]
    rw [← hs] at hclear
    exact fun i => hclear i
  | none =>
    cases a₀ <;> cases hst
    have hm : w.fpga.Managed := by
      rw [ht]
      refine ⟨[], rfl, fun i => ?_⟩
      rw [← hs] at hclear
      exact hclear i
    exact keeps_requestFpgaIrq 0 hwm hm hunset fun _ h0 hm0 =>
      keeps_requestFpgaIrq 1 h0 hm0 hzero fun _ h1 hm1 =>
        keeps_requestFpgaIrq 2 h1 hm1 hzero fun _ h2 _ => ⟨h2, fun h => absurd rfl h⟩

end FpgaIrqs

theorem keeps_membusInit {v : View} (hv : v.Bare) :
    Keeps (fun rc w => if rc = none then w.Mapped else w.Bare) Membus.bifrostMembusInit v := by
  have hremove : ∀ w : View, w.Bare →
      Keeps (fun rc u => if rc = none then u.Mapped else u.Bare)
        (removeIoRegions >>= fun _ => (pure (some .ENODEV) : Driver Rc)) w := fun w hw =>
    Program.Always.bind (only_removeIoRegions.keeps_bare hw) fun _ u hu => hu
  refine Program.Always.bind (keeps_setupIoRegions (List.nodup_finRange _) hv) ?_
  rintro n w ⟨hw, _, hn⟩
  split
  · exact hremove w hw
  · rename_i htwo
    have hmapped : w.Mapped :=
      ⟨hw.toClosed, hw.loaded, View.mapped_of_two ((Nat.not_lt.mp htwo).trans hn)⟩
    refine Program.Always.bind (keeps_fvdInit hmapped hw.clear) fun rc u ⟨hu, hclear⟩ => ?_
    split
    · rename_i hrc
      exact hremove u ⟨hu.toClosed, hu.loaded, hclear hrc⟩
    · exact hu

abbrev InitEnds (w : View) : Prop := w.Settled ∧ w.Calm

theorem keeps_cdevInit {v : View} (hv : v.Mapped) :
    Keeps (fun _ => InitEnds) bifrostCdevInit v := by
  have hcalm := View.calm_of_mapped hv.both.1
  have hends : InitEnds v := ⟨hv.toClosed.settled, hcalm⟩
  refine ⟨hv.before (by simp), fun rc w hw => ?_⟩
  rw [hw.eq (by simp)]
  cases rc with
  | some e => exact hends
  | none =>
    refine ⟨hv.before (by simp), fun rc w hw => ?_⟩
    obtain ⟨s, t, rc₀, rfl, hst, rfl⟩ := hw
    cases hst
    cases rc with
    | some e => exact ⟨hv.before (by simp), fun _ w hw => hw.eq (by simp) ▸ hends⟩
    | none =>
      have hopen : (s.take .cdev).view.Safe := fun _ => ⟨hv.drivers, fun _ => hv.both⟩
      have hbefore : ∀ op : Op, op.kind ≠ .dma → (s.take .cdev).view.Before op := fun op hop =>
        .of_membus hv.membus hopen hcalm hop
      refine ⟨hbefore _ (by simp), fun _ w hw => ?_⟩
      rw [hw.eq (by simp)]
      refine ⟨hbefore _ (by simp), fun _ w hw => ?_⟩
      rw [hw.eq (by simp)]
      refine ⟨hbefore _ (by simp), fun _ w hw => ?_⟩
      obtain ⟨s', t, _, hs', hst, rfl⟩ := hw
      cases hst
      have heq : (s'.write .cdevInitialized).view =
          { s'.view with cdevInitialized := true } := rfl
      have hcount : (s.take .cdev).view.cdevTaken ≤ (s.take .cdev).view.cdevGiven + 1 := by
        simpa [State.view, State.take, State.count] using hv.cdev
      rw [heq, hs']
      exact ⟨⟨hopen, fun _ => ⟨hcount, fun _ => rfl⟩⟩, hcalm⟩

/-- `bifrost_init` from the registration with the memory bus on. -/
theorem keeps_initBus {v : View} (hv : v.Bare) : Keeps (fun _ => InitEnds) (initBus true) v := by
  have herr : ∀ w : View, InitEnds w → Keeps (fun _ => InitEnds) errPci w := fun w hw =>
    Program.Always.mono (fun _ u hu => hu ▸ hw)
      ((only_errPci.mono (by simp)).keeps_eq hw.1.1 hw.2)
  refine Program.Always.bind (keeps_membusInit hv) fun rc w hw => ?_
  cases rc with
  | some e =>
    have hbare : w.Bare := hw
    have hcalm := View.calm_of_clear hbare.clear
    exact herr w ⟨hbare.toClosed.settled, hcalm⟩
  | none =>
    refine Program.Always.bind (keeps_cdevInit (show w.Mapped from hw)) fun rc u hu => ?_
    cases rc with
    | some e => exact herr u hu
    | none => exact hu

theorem keeps_loaded {v : View} (ok : Bool) (hv : v.Settled)
    (hbefore : v.Before (.set (.loaded ok)))
    (hcalm : ok = true → v.Calm) : Keeps (fun _ => View.Quiet) (set (.loaded ok)) v := by
  refine ⟨hbefore, fun _ w hw => ?_⟩
  obtain ⟨s, t, _, rfl, hst, rfl⟩ := hw
  cases hst
  exact ⟨hv, hcalm⟩

theorem keeps_moduleInit (membus : Bool) {v : View} (hm : v.membus = false) (hd : v.drivers = 0)
    (hc : v.cdevTaken ≤ v.cdevGiven) (hl : v.loaded = false) (hf : v.fpga.Clear) :
    Keeps (fun _ => View.Quiet) (moduleInit membus) v := by
  have hsettled := View.settled_of_pci hm
  have hcalm := View.calm_of_pci hm
  have hbefore : ∀ op : Op, op.kind ∈ [Kind.bus, .other] → v.Before op := fun op hop =>
    .of_quiet hsettled.1 hcalm hop (by simp)
  refine Program.Always.bind (Q := fun _ => InitEnds) ?_ fun rc w hw =>
    keeps_loaded _ hw.1 (.of_quiet hw.1.1 hw.2 (List.mem_singleton.mpr rfl) (by simp)) fun _ => hw.2
  cases membus with
  | false =>
    refine Program.Always.mono (fun _ w hw => ⟨View.settled_of_pci hw, View.calm_of_pci hw⟩) ?_
    exact Program.Calls.always (only_bifrostInit false).calls
      (fun w op a u hop hw h => (h.membus hop (by simp)).trans hw)
      (fun op w hop hw => .of_quiet (View.settled_of_pci hw).1 (View.calm_of_pci hw) hop (by simp))
      hm
  | true =>
    refine ⟨hbefore _ (by simp), fun rc w hw => ?_⟩
    rw [hw.eq (by simp)]
    cases rc with
    | some e => exact ⟨hsettled, hcalm⟩
    | none =>
      refine ⟨hbefore _ (by simp), fun _ w hw => ?_⟩
      have hbare : w.Bare := by
        obtain ⟨s, t, _, rfl, hst, rfl⟩ := hw
        cases hst
        exact ⟨⟨rfl, hd, hc⟩, hl, hf⟩
      have hends : InitEnds w := ⟨hbare.toClosed.settled, View.calm_of_clear hbare.clear⟩
      have hbefore : ∀ op : Op, op.kind ≠ .dma → w.Before op := fun op hop =>
        .of_membus hbare.membus hends.1.1 hends.2 hop
      refine ⟨hbefore _ (by simp), fun rc u hu => ?_⟩
      rw [hu.eq (by simp)]
      cases rc with
      | some e => exact ⟨hbefore _ (by simp), fun _ u hu => hu.eq (by simp) ▸ hends⟩
      | none =>
        refine ⟨hbefore _ (by simp), fun rc u hu => ?_⟩
        rw [hu.eq (by simp)]
        cases rc with
        | some e =>
          refine ⟨hbefore _ (by simp), fun _ u hu => ?_⟩
          rw [hu.eq (by simp)]
          exact ⟨hbefore _ (by simp), fun _ u hu => hu.eq (by simp) ▸ hends⟩
        | none => exact keeps_initBus hbare

/-- `bifrost_cdev_exit` leaves no live character device behind. -/
theorem keeps_cdevExit {v : View} (hv : v.Quiet) (hm : v.membus = true) (hl : v.loaded = true) :
    Keeps (fun _ w => w.Closed ∧ w.loaded = true) bifrostCdevExit v := by
  obtain ⟨hcount, hlive⟩ := hv.1.2 hm
  have hbefore : ∀ op : Op, op.kind ≠ .dma → v.Before op := fun op hop =>
    .of_membus hm hv.1.1 (hv.2 hl) hop
  refine ⟨hbefore _ (by simp), fun initialized w hw => ?_⟩
  obtain ⟨s, t, _, rfl, hst, rfl⟩ := hw
  cases hst
  cases hinit : s.query .cdevInitialized with
  | true =>
    refine ⟨hbefore _ (by simp), fun _ w hw => ?_⟩
    rw [hw.eq (by simp)]
    refine ⟨hbefore _ (by simp), fun _ w hw => ?_⟩
    rw [hw.eq (by simp)]
    refine ⟨hbefore _ (by simp), fun _ w hw => ?_⟩
    have hwl : w.loaded = true := (hw.loaded (List.mem_singleton.mpr rfl) (by simp)).trans hl
    have hclosed : w.Closed ∧ w.Calm := by
      obtain ⟨s', t, _, hs', hst, rfl⟩ := hw
      cases hst
      have heq : (s'.give .cdev).view =
          { s'.view with cdevGiven := s'.view.cdevGiven + 1 } := by
        simp [State.view, State.give, State.discount, State.fpga]
      rw [heq, hs']
      exact ⟨⟨hm, (hv.1.1 hm).1, hcount⟩, hv.2 hl⟩
    exact ⟨.of_membus hclosed.1.membus hclosed.1.safe hclosed.2 (by simp), fun _ w hw =>
      hw.eq (by simp) ▸ ⟨hclosed.1, hwl⟩⟩
  | false =>
    refine ⟨⟨hm, (hv.1.1 hm).1, Nat.not_lt.mp fun h => ?_⟩, hl⟩
    exact Bool.false_ne_true (hinit.symm.trans (hlive h))

/-- No call past `bifrost_cdev_exit` is one of its calls. -/
theorem exitBus_past {membus : Bool} {op : Op} (hop : op.kind ∈ exitKinds membus) :
    op.inCdevExit = false := by
  have hkind : op.inCdevExit = true → op.kind = .cdev ∨ op.kind = .node := by
    intro h
    unfold Op.inCdevExit at h
    split at h
    case h_6 => cases h
    all_goals simp
  refine Bool.eq_false_iff.mpr fun h => ?_
  rcases hkind h with h | h <;> rw [h] at hop <;> cases membus <;> simp at hop

/-- `module_exit`: the character device is given back first. -/
theorem keeps_moduleExit {v : View} (hv : v.Quiet) (hl : v.loaded = true) :
    Keeps (fun _ => View.Quiet) (moduleExit v.membus) v := by
  have hends : Keeps (fun _ w => w.Settled ∧ w.loaded = true) (bifrostExit v.membus) v := by
    rw [bifrostExit_eq]
    cases hm : v.membus with
    | false =>
      refine Program.Always.bind (Q := fun _ w => w.membus = false ∧ w.loaded = true) ?_ ?_
      · exact Program.Calls.always only_cdevExit.calls
          (fun w op a u hop hw h =>
            ⟨(h.membus hop (by simp)).trans hw.1, (h.loaded hop (by simp)).trans hw.2⟩)
          (fun op w hop hw => .of_quiet (View.settled_of_pci hw.1).1 (View.calm_of_pci hw.1) hop
            (by simp)) ⟨hm, hl⟩
      · intro _ w hw
        refine Program.Always.mono (fun _ u (hu : u.membus = false ∧ u.loaded = true) =>
          ⟨View.settled_of_pci hu.1, hu.2⟩) ?_
        exact Program.Calls.always (only_exitBus false).calls
          (fun w op a u hop hw h =>
            ⟨(h.membus hop (by simp)).trans hw.1, (h.loaded hop (by simp)).trans hw.2⟩)
          (fun op w hop hw => .of_late (View.settled_of_pci hw.1).1
            (by rintro (h | h) <;> rw [h] at hop <;> simp at hop) hw.2 (exitBus_past hop)) hw
    | true =>
      refine Program.Always.bind (keeps_cdevExit hv hm hl) fun _ w hw => ?_
      refine Program.Always.mono (fun _ u (hu : u.Closed ∧ u.loaded = true) =>
        ⟨hu.1.settled, hu.2⟩) ?_
      exact Program.Calls.always (only_exitBus true).calls
        (fun w op a u hop hw h => ⟨h.closed hw.1 hop, (h.loaded hop (by simp)).trans hw.2⟩)
        (fun op w hop hw => .of_late hw.1.safe (fun _ => hw.1.membus) hw.2 (exitBus_past hop)) hw
  refine Program.Always.bind hends fun _ w hw => ?_
  exact keeps_loaded false hw.1 (.of_late hw.1.1 (by simp) hw.2 rfl) nofun

end BifrostModule.Lifecycle
