import BifrostModule.Lifecycle.MembusLive
import BifrostModule.Lifecycle.PciLive
import BifrostModule.Regb.Granted

/-! # Handlers and ioctls in their positions only use live resources

The invariants of load and unload and of probe and removal hold side by side, because
neither side changes what the other depends on before `bifrost_pci_exit`. A window is
disabled by the call after the one that unmaps it, so the register ioctls only have to
keep clear of that gap.
-/
namespace BifrostModule.Lifecycle
open Foundation Regb

section Calls
variable {s t : State} {op : Op} {a a₀ : Ans op}

def State.CtlAllocated (s : State) : Prop :=
  ∀ q, s.dmaCtl = some q → s.cleaned = false → (s.ctls q).isSome = true

theorem State.CtlAllocated.congr (h : s.CtlAllocated) (hctl : t.dmaCtl = s.dmaCtl)
    (hctls : t.ctls = s.ctls) (hcleaned : t.cleaned = s.cleaned) : t.CtlAllocated := by
  intro q hq hc
  rw [hctls]
  exact h q (hctl ▸ hq) (hcleaned ▸ hc)

theorem State.CtlAllocated.setCtl (h : s.CtlAllocated) (q : ℕ) {ctl : Option (Dma.DmaCtl ℕ)}
    (hctl : s.cleaned = false → s.dmaCtl = some q → ctl.isSome = true) :
    (s.setCtl q ctl).CtlAllocated := by
  intro r hr hc
  by_cases hrq : r = q
  · simp only [State.setCtl, hrq, Function.update_self]
    exact hctl hc (hrq ▸ hr)
  · simp only [State.setCtl, Function.update_of_ne hrq]
    exact h r hr hc

theorem write_ctlAllocated (hs : s.CtlAllocated) (w : Write) : (s.write w).CtlAllocated := by
  cases w with
  | dmaCtl numCh idleMap =>
    intro q hq _
    obtain rfl : s.taken .dmaCtl = q := Option.some.inj hq
    simp [State.write, State.setCtl]
  | nullDmaCtl => exact fun q hq => absurd hq (Option.some_ne_none q).symm
  | enableDmaCh c irq =>
    cases hq : s.dmaCtl with
    | none => simpa only [State.write, hq, Option.elim_none] using hs
    | some q =>
      simp only [State.write, hq, Option.elim_some]
      refine hs.setCtl q fun hc _ => ?_
      rw [Option.isSome_map]
      exact hs q hq hc
  | _ => exact hs.congr rfl rfl rfl

theorem reply_ctlAllocated (hs : s.CtlAllocated) (h : s.reply op a₀ = some (a, t)) :
    t.CtlAllocated := by
  cases op with
  | take r => cases a₀ <;> cases h <;> cases r <;> exact hs.congr rfl rfl rfl
  | managed r => cases a₀ <;> cases h <;> exact hs.congr rfl rfl rfl
  | give r =>
    cases h
    cases r with
    | dmaCtl => exact fun q _ hc => nomatch hc
    | _ => exact hs.congr rfl rfl rfl
  | unregisterPlatformDevice =>
    cases h
    rw [unregister_frame]
    exact hs.congr rfl rfl rfl
  | set w =>
    cases h
    exact write_ctlAllocated hs w
  | awaitUnbound =>
    simp only [State.reply] at h
    split at h
    · cases h
    · cases h
      exact hs
  | _ =>
    cases h
    exact hs

theorem reply_drivers_le (h : s.reply op a₀ = some (a, t)) :
    s.taken .pciDriver ≤ t.taken .pciDriver := by
  have hspares := reply_spares h
  cases op with
  | take r =>
    cases r with
    | pciDriver => cases a₀ <;> cases h <;> simp [State.take, State.refuse, State.count]
    | _ => exact (hspares.drivers (by simp)).ge
  | give r => cases r <;> exact (hspares.drivers (by simp)).ge
  | set w => cases w <;> exact (hspares.drivers (by simp)).ge
  | check c => cases c <;> exact (hspares.drivers (by simp)).ge
  | uninitialised v => cases v <;> exact (hspares.drivers (by simp)).ge
  | get q => cases q <;> exact (hspares.drivers (by simp)).ge
  | _ => exact (hspares.drivers (by simp)).ge

/-- A BAR that the ioctls take for mapped although it is not. -/
def State.Dangling (s : State) (b : Bar) : Prop :=
  (s.regb b).mem.enabled = true ∧ (s.regb b).mapped = false

/-- Only the unmapping of a BAR leaves it dangling, and disabling its window puts an end to it. -/
theorem reply_dangling (h : s.reply op a₀ = some (a, t)) {b : Bar} (ht : t.Dangling b) :
    op = .give (.window b) ∨ s.Dangling b ∧ op ≠ .set (.disable b) := by
  have hwindow := reply_window h b
  unfold State.Dangling at ht ⊢
  generalize s.regb b = v at hwindow ⊢
  generalize t.regb b = w at ht hwindow
  cases hwindow with
  | kept _ hop => exact .inr ⟨ht, hop⟩
  | mapped => cases ht.2
  | unmapped => exact .inl rfl
  | initialised => cases ht.1
  | disabled => cases ht.1
  | patched => exact .inr ⟨ht, by simp⟩

end Calls

/-! ## Load and unload -/

/-- A load under way, or none: the module counts as loaded with the last call only. -/
abbrev Loading (prog : Driver Unit) (v : View) : Prop :=
  prog.Always Sees (fun _ w => w.loaded = false) (fun _ _ => True) v

/-- An unload, which begins with `bifrost_cdev_exit`. -/
structure Unloading (prog : Driver Unit) (v : View) : Prop where
  loaded : prog.Always Sees (fun _ w => w.loaded = true) (fun _ w => w.loaded = false) v
  cdevExit : prog.Prologue fun op => op.inCdevExit = true

theorem loading_moduleInit (membus : Bool) {v : View} (hv : v.loaded = false) :
    Loading (moduleInit membus) v := by
  refine Program.Always.bind (Program.Calls.always (only_bifrostInit membus).calls
    (fun w op a u hop hw h => (h.loaded hop ?_).trans hw) (fun _ _ _ hw => hw) hv)
    fun _ w hw => ⟨hw, fun _ _ _ => trivial⟩
  cases membus <;> simp

theorem unloading_moduleExit (membus : Bool) {v : View} (hv : v.loaded = true) :
    Unloading (moduleExit membus) v where
  loaded := by
    refine Program.Always.bind (Q := fun _ w => w.loaded = true) ?_ fun _ w hw => ⟨hw, ?_⟩
    · rw [bifrostExit_eq]
      refine Program.Always.bind (Program.Calls.always only_cdevExit.calls
        (fun w op a u hop hw h => (h.loaded hop (by simp)).trans hw) (fun _ _ _ hw => hw) hv) ?_
      refine fun _ w hw => Program.Calls.always (only_exitBus membus).calls
        (fun w op a u hop hw h => (h.loaded hop ?_).trans hw) (fun _ _ _ hw => hw) hw
      cases membus <;> simp
    · rintro _ u ⟨s, t, a₀, -, hst, rfl⟩
      cases hst
      rfl
  cdevExit := by
    have hcdev : bifrostCdevExit.Calls fun op => op.inCdevExit = true := by
      refine ⟨rfl, fun initialized => ?_⟩
      cases initialized with
      | false => trivial
      | true => exact ⟨rfl, fun _ => ⟨rfl, fun _ => ⟨rfl, fun _ => ⟨rfl, fun _ => trivial⟩⟩⟩⟩
    have hbus : (exitBus membus).Calls fun op => ¬ op.inCdevExit = true :=
      (only_exitBus membus).calls.mono fun op hop => by simp [exitBus_past hop]
    exact (hcdev.prologue.bind fun _ => hbus).bind fun _ =>
      ⟨by simp [Op.inCdevExit], fun _ => trivial⟩

section Positions
variable {s : Run} {op : Op} {next : Ans op → Driver Unit} {drv : State} {a : Ans op}

/-- Up to `bifrost_cdev_exit`, no call of load and unload touches `dma_ctl`. -/
theorem early_of_up (hmain : s.main = .call op next) (hup : s.up = true) :
    s.drv.loaded = true → op.inCdevExit = true := by
  intro hl
  simpa [Run.up, hmain, Program.head, hl] using hup

/-- Past `bifrost_cdev_exit` there is no way back. -/
theorem up_of_next (hmain : s.main = .call op next) (hstep : Sees s.drv.view op a drv.view)
    (hphase : Loading s.main s.drv.view ∨ Unloading s.main s.drv.view)
    (hup : ({ s with drv := drv, main := next a } : Run).up = true) : s.up = true := by
  rw [hmain] at hphase
  simp only [Run.up, hmain, Program.head]
  rcases hphase with hload | hunload
  · have hl : s.drv.loaded = false := hload.1
    simp [hl]
  · have hafter := hunload.loaded.2 a _ hstep
    by_contra hno
    have hpast : ¬ op.inCdevExit = true := fun h => hno (by simp [h])
    have hcalls := hunload.cdevExit.1 hpast a
    cases hnext : next a with
    | ret _ =>
      rw [hnext] at hafter
      have hl : drv.loaded = false := hafter
      simp [Run.up, hnext, Program.head, hl] at hup
    | call op' next' =>
      rw [hnext] at hafter hcalls
      have hl : drv.loaded = true := hafter.1
      have hop' := hcalls.1
      simp [Run.up, hnext, Program.head, hl, hop'] at hup

end Positions

/-! ## The invariant -/

/-- What holds of every guarded run. -/
structure Inv (p : Platform) (s : Run) : Prop where
  ctl : s.drv.CtlAllocated
  disabling : ∀ b, s.drv.Dangling b → s.Disabling b
  main : Only mainKinds s.main
  pci : Only pciKinds s.pci
  view : Keeps (fun _ => View.Quiet) s.main s.drv.view
  phase : Loading s.main s.drv.view ∨ Unloading s.main s.drv.view
  idle : s.drv.taken .pciDriver = 0 → s.pci.head = none ∧ s.drv.bound = false
  windows : BoundStands SameWindows State.Intact Op.beforeUnmap s.pci s.drv
  controller : s.up = true →
    BoundStands SameController (State.DmaReady p) whileBound s.pci s.drv
  live : s.Live

theorem windows_interfere {prog : Driver Unit} {s t : State} (hst : SameWindows s t)
    (h : BoundStands SameWindows State.Intact Op.beforeUnmap prog s) :
    BoundStands SameWindows State.Intact Op.beforeUnmap prog t :=
  BoundStands.interfere_bound (fun _ _ _ h h' => ⟨h'.1.trans h.1, h'.2.trans h.2⟩)
    (fun s t h => ⟨h.1, sameWindows_intact s t h⟩) hst h

theorem controller_interfere {p : Platform} {prog : Driver Unit} {s t : State}
    (hst : SameController s t)
    (h : BoundStands SameController (State.DmaReady p) whileBound prog s) :
    BoundStands SameController (State.DmaReady p) whileBound prog t :=
  BoundStands.interfere_bound
    (fun _ _ _ h h' => ⟨h'.1.trans h.1, h'.2.1.trans h.2.1, h'.2.2.1.trans h.2.2.1,
      h'.2.2.2.trans h.2.2.2⟩)
    (fun _ _ h => ⟨h.1, h.2.ready⟩) hst h

section Uses
variable {p : Platform} {s : Run}

/-- A window that is enabled, outside the gap before it is disabled. -/
theorem Inv.mapped (hi : Inv p s) {b : Bar} (henabled : (s.drv.regb b).mem.enabled = true)
    (hgap : ¬ s.Disabling b) : (s.drv.regb b).mapped = true := by
  by_contra hb
  exact hgap (hi.disabling b ⟨henabled, Bool.eq_false_iff.mpr hb⟩)

theorem Inv.barMapped (hi : Inv p s) {b : Bar} (hb : s.BarUp b) : (s.drv.regb b).mapped = true := by
  obtain ⟨hbefore, hsetUp⟩ := hb
  have hwindows := hi.windows
  refine (show s.drv.Intact from ?_) b hsetUp
  cases hpci : s.pci with
  | ret a =>
    rw [hpci] at hwindows
    exact hwindows (by simpa [Run.beforeUnmap, hpci, Program.head] using hbefore)
  | call op next =>
    rw [hpci] at hwindows
    exact hwindows.1 (by simpa [Run.beforeUnmap, hpci, Program.head] using hbefore)

theorem Inv.dmaReady (hi : Inv p s) (h : s.DmaUp) : s.drv.DmaReady p := by
  obtain ⟨hup, hpast⟩ := h
  have hcontroller := hi.controller hup
  cases hpci : s.pci with
  | ret a =>
    rw [hpci] at hcontroller
    exact hcontroller (by simpa [Run.pastDmaInit, hpci, Program.head] using hpast)
  | call op next =>
    rw [hpci] at hcontroller
    refine hcontroller.1 ?_
    have hpast : s.drv.bound = true ∨ op.pastDmaInit = true := by
      simpa [Run.pastDmaInit, hpci, Program.head] using hpast
    exact hpast.symm.imp_right fun hb => ⟨hb, rfl⟩

theorem Inv.dmaMapped (hi : Inv p s) (h : s.DmaUp) (hb : s.BarUp p.dmaBar) :
    s.drv.dmaMapped = true := by
  rw [State.dmaMapped, (hi.dmaReady h).bar]
  exact hi.barMapped hb

theorem Inv.currentCtl (hi : Inv p s) (h : s.DmaUp) : ∃ ctl, s.drv.currentCtl = some ctl := by
  have hready := hi.dmaReady h
  obtain ⟨q, hq⟩ := Option.isSome_iff_exists.mp hready.assigned
  rw [State.currentCtl, hq]
  exact Option.isSome_iff_exists.mp (hi.ctl q hq hready.kept)

theorem Inv.safe (hi : Inv p s) : s.drv.view.Safe :=
  Program.Always.now (fun _ _ h => h.safe) (fun _ _ h => h.1.1) hi.view

/-- The windows of the memory bus, for as long as there is a character device. -/
theorem Inv.membusMapped (hi : Inv p s) (hm : s.drv.membus = true) (hc : s.drv.Held .cdev) :
    (s.drv.regb 0).mapped = true ∧ (s.drv.regb 1).mapped = true := by
  obtain ⟨hdrivers, hboth⟩ := hi.safe hm
  have hdrivers : s.drv.taken .pciDriver = 0 := hdrivers
  have hboth := hboth hc
  simpa [State.view, hdrivers] using hboth

/-- The window of BAR0, for as long as an FPGA interrupt of the memory bus is requested. -/
theorem Inv.fpgaMapped (hi : Inv p s) (hm : s.drv.membus = true) (hup : s.up = true) {i : Fin 3}
    (hirq : s.drv.Held (.fpgaIrq i)) : (s.drv.regb 0).mapped = true := by
  have hcalm : s.drv.view.Calm := by
    have hview := hi.view
    cases hmain : s.main with
    | ret a =>
      rw [hmain] at hview
      exact hview.2 (show s.drv.loaded = true by simpa [Run.up, hmain, Program.head] using hup)
    | call op next =>
      rw [hmain] at hview
      exact (hview.1.early (early_of_up hmain hup)).1
  have hdrivers : s.drv.taken .pciDriver = 0 := (hi.safe hm).1
  have hmapped := hcalm hm i (by simpa [State.view, hdrivers, State.fpga, State.Held] using hirq)
  simpa [State.view, hdrivers] using hmapped

theorem setCurrent_frame (s : State) (ctl : Dma.DmaCtl ℕ) :
    s.setCurrent ctl = { s with ctls := (s.setCurrent ctl).ctls } := by
  rcases Option.eq_none_or_eq_some s.dmaCtl with h | ⟨q, h⟩
  · have heq : s.setCurrent ctl = s := by simp only [State.setCurrent, h, Option.elim_none]
    rw [heq]
  · have heq : s.setCurrent ctl = s.setCtl q (some ctl) := by
      simp only [State.setCurrent, h, Option.elim_some]
    rw [heq]
    rfl

theorem setCurrent_ctlAllocated {s : State} (hs : s.CtlAllocated) (ctl : Dma.DmaCtl ℕ) :
    (s.setCurrent ctl).CtlAllocated := by
  rw [State.setCurrent]
  cases s.dmaCtl with
  | none => exact hs
  | some q => exact hs.setCtl q fun _ _ => rfl

theorem Inv.record (hi : Inv p s) {r : State × List Access}
    (hr : r.1 = s.drv ∨ ∃ ctl, r.1 = s.drv.setCurrent ctl) (hlive : ∀ a ∈ r.2, a.live = true) :
    Inv p (s.record r) := by
  obtain ⟨drv, accesses⟩ := r
  have hframe : drv = { s.drv with ctls := drv.ctls } := by
    rcases hr with rfl | ⟨ctl, rfl⟩
    · rfl
    · exact setCurrent_frame _ _
  have hctl : drv.CtlAllocated := by
    rcases hr with rfl | ⟨ctl, rfl⟩
    · exact hi.ctl
    · exact setCurrent_ctlAllocated hi.ctl ctl
  have hview : drv.view = s.drv.view := by
    rw [hframe]
    rfl
  have hup : (s.record (drv, accesses)).up = s.up := by
    simp only [Run.record, Run.up]
    rw [hframe]
  refine ⟨hctl, fun b hb => ?_, hi.main, hi.pci, hview ▸ hi.view, hview ▸ hi.phase,
    fun htaken => ?_,
    windows_interfere ?_ hi.windows, fun h => controller_interfere ?_ (hi.controller (hup ▸ h)),
    fun a ha => ?_⟩
  · rw [Run.record, hframe] at hb
    exact hi.disabling b hb
  · rw [Run.record, hframe] at htaken ⊢
    exact hi.idle htaken
  · rw [Run.record, hframe]
    exact ⟨rfl, rfl⟩
  · rw [Run.record, hframe]
    exact ⟨rfl, rfl, rfl, rfl⟩
  · rcases List.mem_append.mp ha with ha | ha
    · exact hi.live a ha
    · exact hlive a ha

theorem dmaMsiHandler_cases {s : State} {ctl : Dma.DmaCtl ℕ} (hctl : s.currentCtl = some ctl)
    (irq : ℤ) (hmapped : (ctl.takeInProgress irq).isSome = true → ctl.list ≠ [] →
      s.dmaMapped = true) :
    ((s.dmaMsiHandler irq).1 = s ∨ ∃ ctl', (s.dmaMsiHandler irq).1 = s.setCurrent ctl') ∧
      ∀ a ∈ (s.dmaMsiHandler irq).2, a.live = true := by
  simp only [State.dmaMsiHandler, hctl]
  cases htake : ctl.takeInProgress irq with
  | none => simp
  | some taken =>
    obtain ⟨c, req, ctl'⟩ := taken
    obtain ⟨-, hlist, -⟩ := Dma.DmaCtl.takeInProgress_cases htake
    refine ⟨.inr ⟨_, rfl⟩, ?_⟩
    rcases ctl'.handOff_cases c with ⟨next, ctl'', hhand, hpending, -⟩ | ⟨-, hhand⟩
    · have hbar := hmapped (htake ▸ rfl) (by rw [← hlist, hpending]; simp)
      simp [hhand, State.bifrostDmaChanStart, hbar]
    · simp [hhand]

theorem startDmaXfer_live {s : State} {ctl : Dma.DmaCtl ℕ} (hctl : s.currentCtl = some ctl)
    (req : ℕ) (hmapped : (∃ c, ctl.Idle c) → s.dmaMapped = true) :
    ((s.startDmaXfer req).1 = s ∨ ∃ ctl', (s.startDmaXfer req).1 = s.setCurrent ctl') ∧
      ∀ a ∈ (s.startDmaXfer req).2, a.live = true := by
  simp only [State.startDmaXfer, hctl]
  refine ⟨.inr ⟨_, rfl⟩, ?_⟩
  rcases ctl.startDmaXfer_cases req with ⟨c, ctl', hstart, hidle, -⟩ | ⟨-, hstart⟩
  · simp [hstart, State.bifrostDmaChanStart, hmapped ⟨c, hidle⟩]
  · simp [hstart]

theorem Inv.fvd (hi : Inv p s) (hmapped : (s.drv.regb 0).mapped = true) :
    Inv p (s.record (s.drv, s.drv.fvdHandler)) := by
  refine hi.record (.inl rfl) fun a ha => ?_
  rw [State.fvdHandler, hmapped] at ha
  rw [List.mem_singleton.mp ha]

theorem Inv.isr (hi : Inv p s) {irq : ℤ} {isr : Isr} (hok : s.IsrAllowed p irq isr) :
    Inv p (s.record (s.drv.runIsr irq isr)) := by
  cases isr with
  | dmaMsi =>
    obtain ⟨hup, hover⟩ := hok
    obtain ⟨ctl, hctl⟩ := hi.currentCtl hup
    obtain ⟨hdrv, hlive⟩ := dmaMsiHandler_cases hctl irq fun htake hlist =>
      hi.dmaMapped hup (hover ⟨ctl, hctl, htake, hlist⟩)
    exact hi.record hdrv hlive
  | defaultMsi => exact hi.record (.inl rfl) (by simp [State.runIsr])
  | fvdMsi => exact hi.fvd (hi.barMapped hok)
  | fpga i => exact hi.fvd (hi.barMapped hok)

theorem Inv.registers (hi : Inv p s) (hw : Hardware) (sys : Regb.Services) {req : Request}
    (hok : ∀ b : Bar, req.bar.toNat = b.val → ¬ s.Disabling b) :
    Inv p (s.record (s.drv, s.drv.registerAccesses p hw sys req)) := by
  refine hi.record (.inl rfl) fun a ha => ?_
  obtain ⟨op, hop, rfl⟩ := List.mem_map.mp ha
  obtain ⟨hbar, henabled, -⟩ := ioctl_allGranted (s.drv.device p) hw sys req op hop
  exact hi.mapped henabled (hok op.bar hbar)

theorem Inv.startDma (hi : Inv p s) (hc : s.drv.Held .cdev) {req : ℕ}
    (hok : s.drv.membus = false → s.DmaUp ∧ (s.StartsAtOnce → s.BarUp p.dmaBar)) :
    Inv p (s.record (s.drv.bifrostDoXfer req)) := by
  cases hm : s.drv.membus with
  | true =>
    obtain ⟨h0, h1⟩ := hi.membusMapped hm hc
    refine hi.record (.inl ?_) ?_ <;> simp [State.bifrostDoXfer, hm, h0, h1]
  | false =>
    obtain ⟨hup, hstarts⟩ := hok hm
    obtain ⟨ctl, hctl⟩ := hi.currentCtl hup
    obtain ⟨hdrv, hlive⟩ := startDmaXfer_live hctl req fun hidle =>
      hi.dmaMapped hup (hstarts ⟨ctl, hctl, hidle⟩)
    have hxfer : s.drv.bifrostDoXfer req = s.drv.startDmaXfer req := by
      simp [State.bifrostDoXfer, hm]
    rw [hxfer]
    exact hi.record hdrv hlive

end Uses

section Steps
variable {p : Platform} {s t : Run}

theorem advance_cases {drv drv' : State} {env : Env} {prog prog' : Driver Unit}
    (h : Run.advance drv env prog = some (drv', prog')) :
    ∃ (op : Op) (next : Ans op → Driver Unit) (a : Ans op), prog = .call op next ∧
      drv.reply op (env op) = some (a, drv') ∧ prog' = next a := by
  cases prog with
  | ret a => cases h
  | call op next =>
    obtain ⟨r, hr, heq⟩ := Option.map_eq_some_iff.mp h
    obtain ⟨rfl, rfl⟩ := Prod.mk.inj heq
    exact ⟨op, next, r.1, rfl, hr, rfl⟩

/-- A dangling BAR is left by a program that disables it next. -/
theorem dangling_advance {ks : List Kind} {op : Op} {next : Ans op → Driver Unit} {a a₀ : Ans op}
    {drv drv' : State} (hp : Only ks (.call op next)) (hr : drv.reply op a₀ = some (a, drv'))
    {b : Bar} (hb : drv'.Dangling b) :
    (next a).head = some (.set (.disable b)) ∨ drv.Dangling b ∧ op ≠ .set (.disable b) :=
  (reply_dangling hr hb).imp_left fun hop => hp.1.2 b hop a

theorem head_eq_none {prog : Driver Unit} (h : prog.head = none) : prog = .ret () := by
  cases prog with
  | ret a => rfl
  | call op next => cases h

theorem Phase.next {op : Op} {next : Ans op → Driver Unit} {a : Ans op} {v w : View}
    (h : Loading (.call op next) v ∨ Unloading (.call op next) v) (hstep : Sees v op a w) :
    Loading (next a) w ∨ Unloading (next a) w :=
  h.imp (fun h => h.2 a w hstep) fun h => ⟨h.loaded.2 a w hstep, h.cdevExit.2 a⟩

/-- A step of load or unload leaves the windows of a probe alone, and `dma_ctl` up to
`bifrost_cdev_exit`. -/
theorem Inv.main_step (hi : Inv p s) {env : Env} {drv : State} {prog : Driver Unit}
    (h : Run.advance s.drv env s.main = some (drv, prog)) :
    Inv p { s with drv := drv, main := prog } := by
  obtain ⟨op, next, a, hmain, hr, rfl⟩ := advance_cases h
  have honly : Only _ (.call op next) := hmain ▸ hi.main
  have hspares := reply_spares hr
  have hview : Keeps (fun _ => View.Quiet) (.call op next) s.drv.view := hmain ▸ hi.view
  have hphase : Loading (.call op next) s.drv.view ∨ Unloading (.call op next) s.drv.view :=
    hmain ▸ hi.phase
  have hsees : Sees s.drv.view op a drv.view := ⟨s.drv, drv, env op, rfl, hr, rfl⟩
  have hbound : drv.bound = s.drv.bound :=
    hspares.bound (ne_of_mem_of_not_mem honly.1.1 (by simp))
  refine ⟨reply_ctlAllocated hi.ctl hr, fun b hb => ?_, honly.2 a, hi.pci, hview.2 a _ hsees,
    Phase.next hphase hsees, fun htaken => ?_, ?_, fun hup => ?_, hi.live⟩
  · rcases dangling_advance honly hr hb with hnext | ⟨hold, hne⟩
    · exact .inl hnext
    · rcases hi.disabling b hold with hhead | hhead
      · rw [hmain] at hhead
        exact absurd (Option.some.inj hhead) hne
      · exact .inr hhead
  · obtain ⟨hhead, hidle⟩ := hi.idle (Nat.le_zero.mp (htaken ▸ reply_drivers_le hr))
    exact ⟨hhead, hbound.trans hidle⟩
  · by_cases hwindow : op.kind = .window ∨ op.kind = .unmap
    · -- Only the memory bus has windows of its own, and it has no PCI device.
      obtain ⟨hhead, hidle⟩ := hi.idle (hview.1.safe (hview.1.windows hwindow)).1
      have hpci : s.pci = .ret () := head_eq_none hhead
      change BoundStands SameWindows State.Intact Op.beforeUnmap s.pci drv
      rw [hpci]
      intro hb
      exact absurd ((hbound.trans hidle).symm.trans hb) Bool.false_ne_true
    · obtain ⟨hno, hno'⟩ := not_or.mp hwindow
      exact windows_interfere ⟨hbound, hspares.regb hno hno'⟩ hi.windows
  · have hold := up_of_next hmain hsees hi.phase hup
    have hdma := (hview.1.early (early_of_up hmain hold)).2
    exact controller_interfere ⟨hbound, hspares.dma hdma⟩ (hi.controller hold)

/-- A probe or removal only goes on over PCI, where it is no business of load and unload. -/
theorem Inv.pci_step (hi : Inv p s) {env : Env} {drv : State} {prog : Driver Unit}
    (h : Run.advance s.drv env s.pci = some (drv, prog)) :
    Inv p { s with drv := drv, pci := prog } := by
  obtain ⟨op, next, a, hpci, hr, rfl⟩ := advance_cases h
  have honly : Only _ (.call op next) := hpci ▸ hi.pci
  have hspares := reply_spares hr
  have hne : ∀ k, k ∉ pciKinds → op.kind ≠ k := fun k hk => ne_of_mem_of_not_mem honly.1.1 hk
  have hdrivers := hspares.drivers (hne _ (by simp))
  have htaken : s.drv.taken .pciDriver ≠ 0 := fun hz => by
    have hhead := (hi.idle hz).1
    rw [hpci] at hhead
    cases hhead
  have hview : drv.view = s.drv.view := by
    simp [State.view, hspares.membus (hne _ (by simp)), hspares.loaded (hne _ (by simp)),
      hspares.cdevInitialized (hne _ (by simp)), hspares.cdev (hne _ (by simp)), hdrivers, htaken,
      beq_false_of_ne htaken]
  have hwindows := hpci ▸ hi.windows
  have hup : ({ s with drv := drv, pci := next a } : Run).up = s.up := by
    simp only [Run.up, hspares.loaded (hne _ (by simp))]
  refine ⟨reply_ctlAllocated hi.ctl hr, fun b hb => ?_, hi.main, honly.2 a, hview ▸ hi.view,
    hview ▸ hi.phase, fun hz => absurd (hdrivers ▸ hz) htaken,
    hwindows.2 a drv ⟨s.drv, env op, ⟨rfl, rfl⟩, hr⟩, fun h => ?_, hi.live⟩
  · rcases dangling_advance honly hr hb with hnext | ⟨hold, hne⟩
    · exact .inr hnext
    · rcases hi.disabling b hold with hhead | hhead
      · exact .inl hhead
      · rw [hpci] at hhead
        exact absurd (Option.some.inj hhead) hne
  · have hcontroller := hpci ▸ hi.controller (hup ▸ h)
    exact hcontroller.2 a drv ⟨s.drv, env op, ⟨rfl, rfl, rfl, rfl⟩, hr⟩

theorem Inv.load (hi : Inv p s) (membus : Bool) (hpci : s.pci.head = none) :
    Inv p { s with drv := .fresh s.drv.strays, main := moduleInit membus } where
  ctl := fun _ hq => nomatch hq
  disabling := fun _ hb => nomatch hb.1
  main := only_moduleInit membus
  pci := hi.pci
  view := keeps_moduleInit membus rfl rfl le_rfl rfl fun _ => le_rfl
  phase := .inl (loading_moduleInit membus rfl)
  idle := fun _ => ⟨hpci, rfl⟩
  windows := by
    change BoundStands SameWindows State.Intact Op.beforeUnmap s.pci (.fresh s.drv.strays)
    rw [head_eq_none hpci]
    exact nofun
  controller := fun _ => by
    change BoundStands SameController (State.DmaReady p) whileBound s.pci (.fresh s.drv.strays)
    rw [head_eq_none hpci]
    exact nofun
  live := hi.live

theorem Inv.unload (hi : Inv p s) (hmain : s.main.head = none) (hl : s.drv.loaded = true) :
    Inv p { s with main := moduleExit s.drv.membus } where
  ctl := hi.ctl
  disabling := fun b hb => (hi.disabling b hb).imp_left fun hhead => by
    rw [hmain] at hhead
    cases hhead
  main := only_moduleExit s.drv.membus
  pci := hi.pci
  view := by
    have hview := hi.view
    rw [head_eq_none hmain] at hview
    exact keeps_moduleExit (v := s.drv.view) hview hl
  phase := .inr (unloading_moduleExit s.drv.membus hl)
  idle := hi.idle
  windows := hi.windows
  controller := fun _ => hi.controller (by simp [Run.up, hmain, hl])
  live := hi.live

theorem Inv.begin (hi : Inv p s) {prog : Driver Unit} (hpci : s.pci.head = none)
    (honly : Only pciKinds prog) (htaken : s.drv.taken .pciDriver ≠ 0)
    (hwindows : (s.drv.bound = true → s.drv.Intact) →
      BoundStands SameWindows State.Intact Op.beforeUnmap prog s.drv)
    (hcontroller : (s.drv.bound = true → s.drv.DmaReady p) →
      BoundStands SameController (State.DmaReady p) whileBound prog s.drv) :
    Inv p { s with drv := { s.drv with probing := true }, pci := prog } where
  ctl := hi.ctl
  disabling := fun b hb => (hi.disabling b hb).imp_right fun hhead => by
    rw [hpci] at hhead
    cases hhead
  main := hi.main
  pci := honly
  view := hi.view
  phase := hi.phase
  idle := fun hz => absurd hz htaken
  windows := by
    have hold := hi.windows
    rw [head_eq_none hpci] at hold
    exact windows_interfere (s := s.drv) ⟨rfl, rfl⟩ (hwindows hold)
  controller := fun hup => by
    have hold := hi.controller hup
    rw [head_eq_none hpci] at hold
    exact controller_interfere (s := s.drv) ⟨rfl, rfl, rfl, rfl⟩ (hcontroller hold)
  live := hi.live

theorem inv_step {a : Label} (hi : Inv p s) (hok : s.Allowed p a) (h : s.step p a = some t) :
    Inv p t := by
  cases a with
  | load membus =>
    simp only [Run.step, Option.ite_none_right_eq_some, Option.some.injEq] at h
    obtain ⟨⟨-, hpci, -⟩, rfl⟩ := h
    exact hi.load membus (Option.isNone_iff_eq_none.mp hpci)
  | unload =>
    simp only [Run.step, Option.ite_none_right_eq_some, Option.some.injEq] at h
    obtain ⟨⟨hmain, hl, -⟩, rfl⟩ := h
    exact hi.unload (Option.isNone_iff_eq_none.mp hmain) hl
  | probe irq =>
    simp only [Run.step, Option.ite_none_right_eq_some, Option.some.injEq] at h
    obtain ⟨⟨hdriver, -, hpci, hbound⟩, rfl⟩ := h
    have hbound := Bool.eq_false_iff.mpr hbound
    exact hi.begin (Option.isNone_iff_eq_none.mp hpci) (only_pciProbe p irq)
      (Nat.ne_zero_of_lt hdriver) (fun _ => (windows_established p irq).pciProbe hbound)
      fun _ => (controller_established p irq).pciProbe hbound
  | remove =>
    simp only [Run.step, Option.ite_none_right_eq_some, Option.some.injEq] at h
    obtain ⟨⟨hbound, -, hpci⟩, rfl⟩ := h
    refine hi.begin (Option.isNone_iff_eq_none.mp hpci) (only_pciRemove p) (fun hz => ?_)
      (fun h => windows_removed p hbound (h hbound)) fun h => controller_removed hbound (h hbound)
    exact Bool.false_ne_true ((hi.idle hz).2.symm.trans hbound)
  | main env =>
    obtain ⟨r, hr, rfl⟩ := Option.map_eq_some_iff.mp h
    exact hi.main_step hr
  | pci env =>
    simp only [Run.step, Option.ite_none_right_eq_some] at h
    obtain ⟨r, hr, rfl⟩ := Option.map_eq_some_iff.mp h.2
    exact hi.pci_step hr
  | msi v irq =>
    simp only [Run.step, Option.ite_none_right_eq_some] at h
    obtain ⟨isr, hisr, rfl⟩ := Option.map_eq_some_iff.mp h.2
    exact hi.isr (hok isr hisr)
  | fpga i =>
    simp only [Run.step, Option.ite_none_right_eq_some, Option.some.injEq] at h
    obtain ⟨⟨hirq, -⟩, rfl⟩ := h
    cases hm : s.drv.membus with
    | true => exact hi.fvd (hi.fpgaMapped hm (by simpa [Run.Allowed, hm] using hok) hirq)
    | false => exact hi.isr (by simpa [Run.Allowed, hm] using hok)
  | stray isr =>
    simp only [Run.step, Option.ite_none_right_eq_some, Option.some.injEq] at h
    obtain ⟨-, rfl⟩ := h
    obtain rfl : isr = .defaultMsi := hok
    exact hi.record (.inl rfl) (by simp [State.runStray])
  | registers hw sys req =>
    simp only [Run.step, Option.ite_none_right_eq_some, Option.some.injEq] at h
    obtain ⟨-, rfl⟩ := h
    exact hi.registers hw sys hok
  | startDma prepared req =>
    simp only [Run.step, Option.ite_none_right_eq_some, Option.some.injEq] at h
    obtain ⟨hc, rfl⟩ := h
    cases prepared with
    | false => exact hi
    | true => exact hi.startDma hc (hok rfl)

end Steps

theorem inv_start (p : Platform) (strays : List Isr) :
    Inv p ⟨.fresh strays, .ret (), .ret (), []⟩ where
  ctl := fun _ hq => nomatch hq
  disabling := fun _ hb => nomatch hb.1
  main := trivial
  pci := trivial
  view := View.quiet_of_pci rfl
  phase := .inl trivial
  idle := fun _ => ⟨rfl, rfl⟩
  windows := nofun
  controller := fun _ => nofun
  live := fun _ ha => nomatch ha

/-- In every run whose handlers and ioctls come in their positions, they only use live resources. -/
theorem handlers_use_live_resources (p : Platform) (s : Run)
    (h : (lifecycle p).ReachableUnder (Run.Allowed p) s) : s.Live := by
  refine Inv.live (h.invariant (fun t ht => ?_) fun t a u hi hok hstep => inv_step hi hok hstep)
  rw [show t = _ from ht]
  exact inv_start p []

private def oneChannel : Env
  | .readDma .capability => 1
  | op => granted op

private def rockyProbed : List Label :=
  .load false :: List.replicate 10 (.main granted) ++
    .probe 40 :: List.replicate 48 (.pci oneChannel)

/-- Two transfers, the interrupt that hands the channel of the first to the second, an FPGA
interrupt and a register read; then, in the middle of the removal, the second transfer is done. -/
theorem handlers_use_live_resources_rocky : ∃ s : Run,
    (lifecycle ⟨true, false, false, false⟩).ReachableUnder
      (Run.Allowed ⟨true, false, false, false⟩) s ∧
    s.accesses.map Access.target = [.dmaCtl, .window, .dmaCtl, .dmaCtl, .window, .window, .window,
      .dmaCtl] ∧ s.Live := by
  have hrun : ((lifecycle ⟨true, false, false, false⟩).execUnder
      (Run.Allowed ⟨true, false, false, false⟩) ⟨.fresh [], .ret (), .ret (), []⟩
      (rockyProbed ++ [.startDma true 7, .startDma true 8, .msi 0 40, .fpga 1,
        .registers (fun _ _ => 0) ⟨true, true, true, true⟩ (.readRegb 0 4), .remove,
        .pci granted, .pci granted, .msi 0 40])).map
      (fun s => decide (s.accesses.map Access.target = [.dmaCtl, .window, .dmaCtl, .dmaCtl, .window,
        .window, .window, .dmaCtl])) = some true := by decide +kernel
  obtain ⟨s, hs, hp⟩ := Machine.exists_reachableUnder_of_exec rfl hrun
  exact ⟨s, hs, of_decide_eq_true hp, handlers_use_live_resources _ s hs⟩

/-- The PCI driver is registered, and a probe has requested its first interrupt vector. -/
private def firstVector : List Label :=
  .load false :: List.replicate 4 (.main granted) ++ .probe 40 :: List.replicate 28 (.pci granted)

/-- A vector that fires before `bifrost_dma_init` finds no controller. -/
theorem handler_before_dmaCtl :
    ¬ ∀ (p : Platform) (s : Run), (lifecycle p).Reachable s → s.Live := by
  have hrun : ((lifecycle ⟨false, false, false, false⟩).exec ⟨.fresh [], .ret (), .ret (), []⟩
      (firstVector ++ [.msi 0 40])).map
      (fun s => decide (s.accesses = [⟨.dmaCtl, false⟩])) = some true := by decide +kernel
  obtain ⟨s, hs, hp⟩ := Machine.exists_reachable_of_exec rfl hrun
  intro hall
  have hdead := hall _ s hs ⟨.dmaCtl, false⟩ (by rw [of_decide_eq_true hp]; simp)
  exact Bool.false_ne_true hdead

end BifrostModule.Lifecycle
