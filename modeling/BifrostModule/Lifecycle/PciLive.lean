import BifrostModule.Lifecycle.Kinds

/-! # What a probe sets up stands until the removal takes it down

A probe maps its windows before it requests interrupts, and has its DMA controller
before it goes on to the FPGA interrupts and the sysfs group. A removal unmaps last,
and leaves the controller alone. Between the calls of both the module loader goes on.
-/
namespace BifrostModule.Lifecycle
open Foundation Regb

namespace State

/-- The windows that the last probe set up are mapped. -/
def Intact (s : State) : Prop := ∀ b, (s.regb b).setUp = true → (s.regb b).mapped = true

/-- `dma_ctl` has been assigned and not freed since, and works on the window of the platform. -/
structure DmaReady (p : Platform) (s : State) : Prop where
  assigned : s.dmaCtl.isSome = true
  kept : s.cleaned = false
  bar : s.regbDma = some p.dmaBar

end State

/-- The rest of the driver has changed neither the windows nor what is bound. -/
def SameWindows (s t : State) : Prop := t.bound = s.bound ∧ t.regb = s.regb

def SameController (s t : State) : Prop := t.bound = s.bound ∧ SameDma s t

section Judgement
variable {same : State → State → Prop} {R : State → Prop} {stage : Op → Bool} {α : Type}

/-- The judgement on what the PCI core runs: `R` from `bifrost_dma_init` on and, while the device is
bound, before the calls at a stage. -/
abbrev Stands (same : State → State → Prop) (R : State → Prop) (stage : Op → Bool)
    (Q : α → State → Prop) (p : Driver α) (s : State) : Prop :=
  p.Always (Program.Interleaved services same)
    (fun op t => op.pastDmaInit = true ∨ t.bound = true ∧ stage op = true → R t) Q s

/-- The PCI core has bound the device only if the probe has established `R`. -/
abbrev BoundStands (same : State → State → Prop) (R : State → Prop) (stage : Op → Bool)
    (p : Driver Unit) (s : State) : Prop :=
  Stands same R stage (fun _ t => t.bound = true → R t) p s

theorem BoundStands.interfere_bound (htrans : ∀ s t u, same s t → same t u → same s u)
    (hsame : ∀ s t, same s t → t.bound = s.bound ∧ (R s → R t)) {prog : Driver Unit} {s t : State}
    (hst : same s t) (h : BoundStands same R stage prog s) : BoundStands same R stage prog t := by
  refine Program.Always.interfere htrans (fun op s t hst hclaim hnow => ?_)
    (fun _ s t hst hclaim hbound => ?_) hst h
  · refine (hsame s t hst).2 (hclaim (hnow.imp_right fun ⟨hbound, hstage⟩ => ⟨?_, hstage⟩))
    exact (hsame s t hst).1.symm.trans hbound
  · exact (hsame s t hst).2 (hclaim ((hsame s t hst).1.symm.trans hbound))

/-- A call that only comes before `bifrost_dma_init` or on an error path. -/
theorem pastDmaInit_of_kind {op : Op} (hop : op.kind ∈ [Kind.window, .unmap, .other]) :
    op.pastDmaInit = false := by
  refine Bool.eq_false_iff.mpr fun h => ?_
  unfold Op.pastDmaInit at h
  split at h
  case h_11 => cases h
  all_goals simp at hop

theorem reply_bound {s t : State} {op : Op} {a a₀ : Ans op}
    (h : services.reply s op a₀ = some (a, t))
    (hop : op.kind ≠ .binding) : t.bound = s.bound := (reply_spares h).bound hop

/-- Nothing is claimed of an unbound device but past `bifrost_dma_init`. -/
theorem unbound_before {op : Op} {t : State} (hop : op.pastDmaInit = false) (ht : t.bound = false) :
    op.pastDmaInit = true ∨ t.bound = true ∧ stage op = true → R t := by
  rintro (hpast | ⟨hbound, -⟩)
  · exact absurd (hop.symm.trans hpast) Bool.false_ne_true
  · exact absurd (ht.symm.trans hbound) Bool.false_ne_true

theorem Only.unbound (hsame : ∀ s t, same s t → t.bound = s.bound) {p : Driver α}
    (hp : Only [.window, .unmap, .other] p) {s : State} (hs : s.bound = false) :
    Stands same R stage (fun _ t => t.bound = false) p s := by
  refine Program.Calls.always hp.calls ?_ ?_ hs
  · rintro s op a t hop hs ⟨u, a₀, hsu, hut⟩
    rw [reply_bound hut (ne_of_mem_of_not_mem hop (by simp)), hsame s u hsu, hs]
  · exact fun op t hop ht => unbound_before (pastDmaInit_of_kind hop) ht

/-- `R` stands through calls that keep it. -/
theorem Only.stands (hsame : ∀ s t, same s t → t.bound = s.bound ∧ (R s → R t)) {ks : List Kind}
    (hks : Kind.binding ∉ ks)
    (hkeep : ∀ (s t : State) (op : Op) (a a₀ : Ans op), op.kind ∈ ks →
      services.reply s op a₀ = some (a, t) → R s → R t)
    {p : Driver α} (hp : Only ks p) {s : State} {bound : Bool} (hs : s.bound = bound ∧ R s) :
    Stands same R stage (fun _ t => t.bound = bound ∧ R t) p s := by
  refine Program.Calls.always hp.calls ?_ (fun op t _ ht _ => ht.2) hs
  rintro s op a t hop ⟨hbound, hR⟩ ⟨u, a₀, hsu, hut⟩
  obtain ⟨hu, hRu⟩ := hsame s u hsu
  refine ⟨?_, hkeep u t op a a₀ hop hut (hRu hR)⟩
  rw [reply_bound hut (ne_of_mem_of_not_mem hop hks), hu, hbound]

end Judgement

section Probe
variable {same : State → State → Prop} {R Pre : State → Prop} {stage : Op → Bool} {p : Platform}
  {irq : ℤ} {s : State}

/-- How a probe comes to establish `R`: its windows establish `Pre`, and its post init `R`. -/
structure Establishes (same : State → State → Prop) (R Pre : State → Prop) (stage : Op → Bool)
    (p : Platform) (irq : ℤ) : Prop where
  bound : ∀ s t, same s t → t.bound = s.bound
  stable : ∀ s t, same s t → R s → R t
  keeps : ∀ (s t : State) (op : Op) (a a₀ : Ans op), op.kind ∈ [Kind.late, .binding] →
    services.reply s op a₀ = some (a, t) → R s → R t
  setup : ∀ s, s.bound = false → Stands same R stage (fun _ t => t.bound = false ∧ Pre t)
    (setupIoRegions Pci.initAndMap bars) s
  patch : ∀ s, s.bound = false → Pre s → Stands same R stage (fun _ t => t.bound = false ∧ Pre t)
    (set .patchBar0) s
  postInit : ∀ s, s.bound = false → Pre s → Stands same R stage
    (fun ok t => t.bound = false ∧ (ok = true → R t)) (Pci.bifrostPciProbePostInit p irq) s

namespace Establishes

abbrev Probed (R : State → Prop) (rc : Rc) (t : State) : Prop := t.bound = false ∧ (rc = none → R t)

theorem errPciIomapRegb (h : Establishes same R Pre stage p irq) (hs : s.bound = false) :
    Stands same R stage (Probed R) Pci.errPciIomapRegb s := by
  have hgive : ∀ r, (Op.give r).kind = .other → Only [.window, .unmap, .other] (give r) := by
    intro r hr
    refine ⟨⟨by rw [hr]; simp, fun b hb => ?_⟩, fun _ => trivial⟩
    cases hb
    cases hr
  exact Program.Always.bind ((hgive .regions rfl).unbound h.bound hs) fun _ _ ht =>
    Program.Always.bind ((hgive .device rfl).unbound h.bound ht) fun _ _ hu => ⟨hu, nofun⟩

theorem errPciPostInit (h : Establishes same R Pre stage p irq) (hs : s.bound = false) :
    Stands same R stage (Probed R) Pci.errPciPostInit s :=
  Program.Always.bind (only_removeIoRegions.unbound h.bound hs) fun _ _ ht => h.errPciIomapRegb ht

theorem probeInterfaces (h : Establishes same R Pre stage p irq) (hs : s.bound = false)
    (hpre : Pre s) : Stands same R stage (Probed R) (Pci.probeInterfaces p irq) s := by
  refine Program.Always.bind (h.postInit s hs hpre) fun ok t ⟨ht, hR⟩ => ?_
  cases ok with
  | false => exact h.errPciPostInit ht
  | true =>
    refine ⟨fun _ => hR rfl, fun rc u ⟨v, a₀, htv, hvu⟩ => ?_⟩
    have hu : u.bound = false := by
      rw [reply_bound hvu (by simp), h.bound t v htv, ht]
    cases rc with
    | some e => exact h.errPciPostInit hu
    | none => exact ⟨hu, fun _ => h.keeps v u _ _ a₀ (by simp) hvu (h.stable t v htv (hR rfl))⟩

theorem probeRegions (h : Establishes same R Pre stage p irq) (hs : s.bound = false) :
    Stands same R stage (Probed R) (Pci.probeRegions p irq) s := by
  refine Program.Always.bind (h.setup s hs) fun n t ⟨ht, hpre⟩ => ?_
  split
  · exact h.errPciIomapRegb ht
  · cases p.fvd with
    | false => exact h.probeInterfaces ht hpre
    | true =>
      exact Program.Always.bind (h.patch t ht hpre) fun _ u ⟨hu, hpre⟩ => h.probeInterfaces hu hpre

theorem bifrostPciProbe (h : Establishes same R Pre stage p irq) (hs : s.bound = false) :
    Stands same R stage (Probed R) (Pci.bifrostPciProbe p irq) s := by
  have hcall : ∀ op : Op, op.kind = .other →
      Only [.window, .unmap, .other] (Program.perform op : Driver (Ans op)) := by
    intro op hop
    refine ⟨⟨by rw [hop]; simp, fun b hb => ?_⟩, fun _ => trivial⟩
    rw [hb] at hop
    cases hop
  refine Program.Always.bind ((hcall (.take .device) rfl).unbound h.bound hs) fun rc t ht => ?_
  split
  · exact ⟨ht, nofun⟩
  refine Program.Always.bind ((hcall (.check .pcieSetReadrq) rfl).unbound h.bound ht)
    fun ok t ht => ?_
  split
  · exact ⟨ht, nofun⟩
  refine Program.Always.bind ((hcall (.check .pcieSetMps) rfl).unbound h.bound ht) fun ok t ht => ?_
  split
  · exact ⟨ht, nofun⟩
  refine Program.Always.bind ((hcall (.check .pcieSetExtTag) rfl).unbound h.bound ht)
    fun ok t ht => ?_
  split
  · exact ⟨ht, nofun⟩
  refine Program.Always.bind ((hcall (.take .msi) rfl).unbound h.bound ht) fun rc t ht => ?_
  split
  · exact ⟨ht, nofun⟩
  refine Program.Always.bind ((hcall (.take .regions) rfl).unbound h.bound ht) fun rc t ht => ?_
  split
  · exact Program.Always.bind ((hcall (.give .device) rfl).unbound h.bound ht) fun _ _ hu =>
      ⟨hu, nofun⟩
  · exact h.probeRegions ht

theorem pciProbe (h : Establishes same R Pre stage p irq) (hs : s.bound = false) :
    BoundStands same R stage (Lifecycle.pciProbe p irq) s := by
  refine Program.Always.bind (h.bifrostPciProbe hs) fun rc t ⟨ht, hR⟩ => ⟨?_, ?_⟩
  · rintro (hpast | ⟨hbound, -⟩)
    · exact hR (Option.isNone_iff_eq_none.mp hpast)
    · exact absurd (ht ▸ hbound) Bool.false_ne_true
  · rintro _ u ⟨v, a₀, htv, hvu⟩ hu
    have hrc : rc.isNone = true := by
      cases hvu
      exact hu
    exact h.keeps v u _ _ a₀ (by simp) hvu
      (h.stable t v htv (hR (Option.isNone_iff_eq_none.mp hrc)))

end Establishes

end Probe

/-! ## The windows -/

section Windows
variable {s t : State} {op : Op} {a a₀ : Ans op} {p : Platform}

/-- Only giving up its mapping takes a window from the probe that set it up. -/
theorem reply_standing (h : services.reply s op a₀ = some (a, t)) (hop : op.kind ≠ .unmap) {b : Bar}
    (hb : (s.regb b).setUp = true → (s.regb b).mapped = true) :
    (t.regb b).setUp = true → (t.regb b).mapped = true := by
  have hwindow := reply_window h b
  generalize s.regb b = v at hb hwindow
  generalize t.regb b = w at hwindow ⊢
  cases hwindow with
  | kept => exact hb
  | mapped => exact fun _ => rfl
  | unmapped => exact absurd rfl hop
  | initialised => exact fun hfalse => absurd hfalse Bool.false_ne_true
  | disabled => exact hb
  | patched => exact hb

theorem reply_intact (h : services.reply s op a₀ = some (a, t)) (hop : op.kind ≠ .unmap)
    (hs : s.Intact) : t.Intact := fun _ => reply_standing h hop (hs _)

theorem sameWindows_intact (s t : State) (h : SameWindows s t) (hs : s.Intact) : t.Intact := by
  intro b
  rw [h.2]
  exact hs b

/-- What the probe has set up stands, but for the BARs that are still to be set up. -/
def Standing (bs : List Bar) (s : State) : Prop :=
  s.bound = false ∧ ∀ b ∉ bs, (s.regb b).setUp = true → (s.regb b).mapped = true

theorem Standing.next {bs : List Bar} (hs : Standing bs s)
    (h : Program.Interleaved services SameWindows s op a t)
    (hop : op.kind ∈ [Kind.window, .other]) : Standing bs t := by
  obtain ⟨u, a₀, hsu, hut⟩ := h
  refine ⟨?_, fun b hb => ?_⟩
  · rw [reply_bound hut (ne_of_mem_of_not_mem hop (by simp)), hsu.1, hs.1]
  · refine reply_standing hut (ne_of_mem_of_not_mem hop (by simp)) ?_
    rw [hsu.2]
    exact hs.2 b hb

theorem stands_initAndMap (b : Bar) {bs : List Bar} (hs : Standing (b :: bs) s) :
    Stands SameWindows State.Intact Op.beforeUnmap (fun _ => Standing bs) (Pci.initAndMap b) s := by
  refine ⟨unbound_before rfl hs.1, fun size t ht => ?_⟩
  have ht := hs.next ht (by simp)
  refine ⟨unbound_before rfl ht.1, fun _ u hu => ?_⟩
  have hstands : Standing bs u := by
    refine ⟨(ht.next hu (by simp)).1, fun c hc => ?_⟩
    by_cases hcb : c = b
    · -- The BAR has just been initialised, so nothing is mapped there.
      obtain ⟨v, a₀, -, hvu⟩ := hu
      cases hvu
      simp [State.write, State.setWindow, hcb]
    · exact (ht.next hu (by simp)).2 c (by simp [hcb, hc])
  split
  · exact hstands
  · refine ⟨unbound_before rfl hstands.1, fun rc v hv => ?_⟩
    have hends := hstands.next hv (by simp)
    cases rc with
    | some e => exact hends
    | none => exact hends

theorem stands_setupIoRegions (bs : List Bar) (hs : Standing bs s) :
    Stands SameWindows State.Intact Op.beforeUnmap (fun _ t => t.bound = false ∧ t.Intact)
      (setupIoRegions Pci.initAndMap bs) s := by
  induction bs generalizing s with
  | nil => exact ⟨hs.1, fun b => hs.2 b List.not_mem_nil⟩
  | cons b bs ih =>
    exact Program.Always.bind (stands_initAndMap b hs) fun rc t ht =>
      Program.Always.bind (ih ht) fun n u hu => hu

theorem windows_established (p : Platform) (irq : ℤ) :
    Establishes SameWindows State.Intact State.Intact Op.beforeUnmap p irq where
  bound _ _ h := h.1
  stable := sameWindows_intact
  keeps _ _ _ _ _ hop h hs := reply_intact h (ne_of_mem_of_not_mem hop (by simp)) hs
  setup s hs := stands_setupIoRegions bars ⟨hs, fun b hb => absurd (List.mem_finRange b) hb⟩
  patch s hs hintact := by
    refine ⟨unbound_before rfl hs, fun _ t ⟨u, a₀, hsu, hut⟩ => ⟨?_, ?_⟩⟩
    · rw [reply_bound hut (by simp), hsu.1, hs]
    · exact reply_intact hut (by simp) (sameWindows_intact s u hsu hintact)
  postInit s hs hintact := by
    refine Program.Always.mono (fun _ t (ht : t.bound = false ∧ t.Intact) =>
      ⟨ht.1, fun _ => ht.2⟩) ?_
    refine (only_postInit p irq).stands (fun s t h => ⟨h.1, sameWindows_intact s t h⟩) (by simp) ?_
      ⟨hs, hintact⟩
    exact fun s t op a a₀ hop h => reply_intact h (ne_of_mem_of_not_mem hop (by simp))

/-- No call of a removal from `remove_io_regions` on is one before it. -/
theorem calls_afterUnmap : (do removeIoRegions; give .regions; give .device : Driver Unit).Calls
    fun op => op.pastDmaInit = false ∧ op.beforeUnmap = false := by
  have hremove : removeIoRegions.Calls fun op =>
      op.pastDmaInit = false ∧ op.beforeUnmap = false := by
    refine Program.Calls.forM (fun b => ?_) bars
    simp [unmapDeviceMemory, get, give, set, Program.perform, Op.pastDmaInit, Op.beforeUnmap]
  exact hremove.bind fun _ => ⟨⟨rfl, rfl⟩, fun _ => ⟨⟨rfl, rfl⟩, fun _ => trivial⟩⟩

/-- The windows stand until `remove_io_regions`. -/
theorem windows_removed (p : Platform) (hs : s.bound = true) (hintact : s.Intact) :
    BoundStands SameWindows State.Intact Op.beforeUnmap (pciRemove p) s := by
  have hkeep : ∀ {q : Driver Unit} {t : State}, Only [.fpga, .other] q →
      t.bound = true ∧ t.Intact →
      Stands SameWindows State.Intact Op.beforeUnmap (fun _ t => t.bound = true ∧ t.Intact) q t :=
    fun hq ht => hq.stands (fun s t h => ⟨h.1, sameWindows_intact s t h⟩) (by simp)
      (fun _ _ _ _ _ hop h => reply_intact h (ne_of_mem_of_not_mem hop (by simp))) ht
  have hafter : ∀ t : State, Stands SameWindows State.Intact Op.beforeUnmap (fun _ _ => True)
      (do removeIoRegions; give .regions; give .device) t := by
    refine fun t => Program.Calls.always calls_afterUnmap (fun _ _ _ _ _ _ _ => trivial) ?_ trivial
    rintro op u ⟨hpast, hbefore⟩ - (h | ⟨-, h⟩)
    · exact absurd (hpast.symm.trans h) Bool.false_ne_true
    · exact absurd (hbefore.symm.trans h) Bool.false_ne_true
  have hrest : ∀ t : State, t.bound = true ∧ t.Intact →
      Stands SameWindows State.Intact Op.beforeUnmap (fun _ _ => True) (do
        give .sysfsGroup
        Pci.bifrostDetachMsis
        give .msi
        removeIoRegions
        give .regions
        give .device) t := fun t ht =>
    Program.Always.bind (hkeep (q := give .sysfsGroup) ⟨by simp, fun _ => trivial⟩ ht) fun _ _ ht =>
      Program.Always.bind (hkeep (only_detachMsis.mono (by simp)) ht) fun _ _ ht =>
        Program.Always.bind (hkeep (q := give .msi) ⟨by simp, fun _ => trivial⟩ ht) fun _ t _ =>
          hafter t
  have hremove : Stands SameWindows State.Intact Op.beforeUnmap (fun _ _ => True)
      (Pci.bifrostPciRemove p) s := by
    unfold Pci.bifrostPciRemove
    cases p.fvd with
    | false => exact hrest s ⟨hs, hintact⟩
    | true =>
      exact Program.Always.bind
        (hkeep (q := Membus.bifrostFvdExit) ⟨by simp, fun _ => trivial⟩ ⟨hs, hintact⟩)
        fun _ t ht => hrest t ht
  refine Program.Always.bind hremove fun _ t _ => ⟨?_, ?_⟩
  · rintro (h | ⟨-, h⟩) <;> cases h
  · rintro _ u ⟨v, a₀, -, hvu⟩ hu
    cases hvu
    cases hu

end Windows

/-! ## The DMA controller -/

section Controller
variable {s t : State} {op : Op} {a a₀ : Ans op} {p : Platform}

def whileBound (_ : Op) : Bool := true

theorem SameDma.ready (h : SameDma s t) (hs : s.DmaReady p) : t.DmaReady p where
  assigned := h.1 ▸ hs.assigned
  kept := h.2.1 ▸ hs.kept
  bar := h.2.2 ▸ hs.bar

theorem reply_ready (h : services.reply s op a₀ = some (a, t)) (hop : op.kind ≠ .dma)
    (hs : s.DmaReady p) : t.DmaReady p := ((reply_spares h).dma hop).ready hs

theorem Only.ready {α : Type} {ks : List Kind} {q : Driver α} (hq : Only ks q)
    (hbinding : Kind.binding ∉ ks) (hdma : Kind.dma ∉ ks) {bound : Bool}
    (hs : s.bound = bound ∧ s.DmaReady p) : Stands SameController (State.DmaReady p) whileBound
      (fun _ t => t.bound = bound ∧ t.DmaReady p) q s :=
  hq.stands (fun _ _ h => ⟨h.1, h.2.ready⟩) hbinding
    (fun _ _ _ _ _ hop h => reply_ready h (ne_of_mem_of_not_mem hop hdma)) hs

theorem stands_dmaInit (irq : ℤ) (hs : s.bound = false) :
    Stands SameController (State.DmaReady p) whileBound
      (fun rc t => t.bound = false ∧ (rc = none → t.DmaReady p)) (Pci.bifrostDmaInit p irq) s := by
  have hnext : ∀ {op : Op} {a : Ans op} {t u : State}, t.bound = false →
      Program.Interleaved services SameController t op a u → op.kind ≠ .binding →
      u.bound = false := by
    rintro op a t u ht ⟨v, a₀, htv, hvu⟩ hop
    rw [reply_bound hvu hop, htv.1, ht]
  refine ⟨unbound_before rfl hs, fun _ t ht => ?_⟩
  have hbar : t.regbDma = some p.dmaBar := by
    obtain ⟨v, a₀, -, hvu⟩ := ht
    cases hvu
    rfl
  have ht := hnext hs ht (by simp)
  have hkept : ∀ {op : Op} {a : Ans op} {t u : State}, t.regbDma = some p.dmaBar →
      Program.Interleaved services SameController t op a u → op.kind ≠ .dma →
      u.regbDma = some p.dmaBar := by
    rintro op a t u ht ⟨v, a₀, htv, hvu⟩ hop
    rw [((reply_spares hvu).dma hop).2.2, htv.2.2.2, ht]
  refine ⟨unbound_before rfl ht, fun cap u hu => ?_⟩
  have hubar := hkept hbar hu (by simp)
  have hu := hnext ht hu (by simp)
  refine ⟨unbound_before rfl hu, fun st v hv => ?_⟩
  have hvbar := hkept hubar hv (by simp)
  have hv := hnext hu hv (by simp)
  refine ⟨unbound_before rfl hv, fun rc w hw => ?_⟩
  have hwbar := hkept hvbar hw (by simp)
  have hwbound := hnext hv hw (by simp)
  cases rc with
  | some e =>
    exact ⟨unbound_before rfl hwbound, fun _ x hx => ⟨hnext hwbound hx (by simp), nofun⟩⟩
  | none =>
    refine ⟨unbound_before rfl hwbound, fun _ x hx => ?_⟩
    have hxbound := hnext hwbound hx (by simp)
    have hready : x.DmaReady p := by
      obtain ⟨y, a₀, hwy, hyx⟩ := hx
      cases hyx
      exact ⟨rfl, rfl, hwy.2.2.2.trans hwbar⟩
    have hchannels : ∀ ns : List Dma.Chan,
        Only [.late] (ns.forM fun n => set (.enableDmaCh n (irq + n.val))) :=
      Only.forM fun n => by simp [set, Program.perform]
    have hloop : ∀ ns : List Dma.Chan, Stands SameController (State.DmaReady p) whileBound
        (fun rc t => t.bound = false ∧ (rc = none → t.DmaReady p))
        ((ns.forM fun n => set (.enableDmaCh n (irq + n.val))) >>= fun _ => (pure none : Driver Rc))
        x := fun ns =>
      Program.Always.bind ((hchannels ns).ready (by simp) (by simp) ⟨hxbound, hready⟩)
        fun _ y hy => ⟨hy.1, fun _ => hy.2⟩
    exact hloop _

theorem stands_postInit (irq : ℤ) (hs : s.bound = false) :
    Stands SameController (State.DmaReady p) whileBound
      (fun ok t => t.bound = false ∧ (ok = true → t.DmaReady p))
      (Pci.bifrostPciProbePostInit p irq) s := by
  have hbound : ∀ s t : State, SameController s t → t.bound = s.bound := fun _ _ h => h.1
  have hdetach : ∀ {t : State}, t.bound = false →
      Stands SameController (State.DmaReady p) whileBound
        (fun ok u => u.bound = false ∧ (ok = true → u.DmaReady p))
        (Pci.bifrostDetachMsis >>= fun _ => (pure false : Driver Bool)) t := fun ht =>
    Program.Always.bind ((only_detachMsis.mono (by simp)).unbound hbound ht) fun _ _ hu =>
      ⟨hu, nofun⟩
  refine Program.Always.bind (((only_attachMsis p irq).mono (by simp)).unbound hbound hs)
    fun _ t ht => ?_
  refine Program.Always.bind (stands_dmaInit irq ht) fun rc u ⟨hu, hready⟩ => ?_
  cases rc with
  | some e => exact hdetach hu
  | none =>
    have hready := hready rfl
    change Stands SameController (State.DmaReady p) whileBound _ (if p.fvd then _ else _) u
    split
    · refine Program.Always.bind (only_fvdInit.ready (by simp) (by simp) ⟨hu, hready⟩) ?_
      rintro rc v ⟨hv, hready⟩
      split
      · -- The error path still has `dma_ctl` until it gives it up.
        refine ⟨fun _ => hready, fun isNull w hw => ?_⟩
        have hwready : w.bound = false ∧ w.DmaReady p := by
          obtain ⟨x, a₀, hvx, hxw⟩ := hw
          refine ⟨?_, reply_ready hxw (by simp) (hvx.2.ready hready)⟩
          rw [reply_bound hxw (by simp), hvx.1, hv]
        cases isNull with
        | true => exact hdetach hwready.1
        | false =>
          refine ⟨fun _ => hwready.2, fun _ x ⟨y, a₀, hwy, hyx⟩ => hdetach ?_⟩
          rw [reply_bound hyx (by simp), hwy.1, hwready.1]
      · exact ⟨hv, fun _ => hready⟩
    · exact ⟨hu, fun _ => hready⟩

theorem controller_established (p : Platform) (irq : ℤ) :
    Establishes SameController (State.DmaReady p) (fun _ => True) whileBound p irq where
  bound _ _ h := h.1
  stable _ _ h := h.2.ready
  keeps _ _ _ _ _ hop h hs := reply_ready h (ne_of_mem_of_not_mem hop (by simp)) hs
  setup s hs := Program.Always.mono (fun _ _ ht => ⟨ht, trivial⟩)
    (((only_setupIoRegions only_pciInitAndMap bars).mono (by simp)).unbound (fun _ _ h => h.1) hs)
  patch s hs _ := Program.Always.mono (fun _ _ ht => ⟨ht, trivial⟩)
    ((show Only [.window, .unmap, .other] (set .patchBar0) from ⟨by simp, fun _ => trivial⟩).unbound
      (fun _ _ h => h.1) hs)
  postInit s hs _ := stands_postInit irq hs

theorem controller_removed (hs : s.bound = true) (hready : s.DmaReady p) :
    BoundStands SameController (State.DmaReady p) whileBound (pciRemove p) s := by
  refine Program.Always.bind ((only_bifrostPciRemove p).ready (by simp) (by simp) ⟨hs, hready⟩)
    fun _ t ht => ⟨fun _ => ht.2, ?_⟩
  rintro _ u ⟨v, a₀, -, hvu⟩ hu
  cases hvu
  cases hu

end Controller
end BifrostModule.Lifecycle
