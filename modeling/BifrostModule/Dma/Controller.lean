import BifrostModule.Foundation.Bitmap
import BifrostModule.Foundation.InFlight

/-! # The DMA controller of `bifrost_dma.c`

The controller treats a request as an opaque pointer, so the request type is a
parameter. Each definition below is one locked section, or one unlocked
stretch, of the source function it is named after.
-/
namespace BifrostModule.Dma
open Foundation.Bitmap Foundation.InFlight

/-- `MAX_DMA_CHANNELS` bounds the channel array. -/
abbrev maxDmaChannels : ℕ := 32

instance maxDmaChannels_neZero : NeZero maxDmaChannels := ⟨by decide⟩

abbrev Chan := Fin maxDmaChannels

structure DmaCh (ρ : Type*) where
  irq : ℤ
  inProgress : Option ρ
  deriving DecidableEq

/-- `struct dma_ctl`, without its spinlock: a locked section is one step. -/
structure DmaCtl (ρ : Type*) where
  list : List ρ
  numCh : ℕ
  idleBitmap : BitVec 32
  ch : Chan → DmaCh ρ

namespace DmaCtl
variable {ρ : Type*}

def Idle (ctl : DmaCtl ρ) (c : Chan) : Prop := ctl.idleBitmap.getLsbD c = true

instance (ctl : DmaCtl ρ) (c : Chan) : Decidable (ctl.Idle c) :=
  inferInstanceAs (Decidable (_ = true))

def working (ctl : DmaCtl ρ) : Multiset ρ := occupied fun c => (ctl.ch c).inProgress

def setInProgress (ctl : DmaCtl ρ) (c : Chan) (r : Option ρ) : DmaCtl ρ :=
  { ctl with ch := Function.update ctl.ch c { ctl.ch c with inProgress := r } }

/-- `__find_1st_idle_chan`: claim the lowest idle channel, `none` for `-EBUSY`. -/
def find1stIdleChan (ctl : DmaCtl ρ) : Option (Chan × DmaCtl ρ) :=
  (firstSet ctl.idleBitmap).map fun c =>
    (c, { ctl with idleBitmap := clearBit ctl.idleBitmap c })

def freeChan (ctl : DmaCtl ρ) (c : Chan) : DmaCtl ρ :=
  { ctl with idleBitmap := setBit ctl.idleBitmap c }

/-- `lookup_chan`: the first enabled channel with this irq, `none` for `-EINVAL`. -/
def lookupChan (ctl : DmaCtl ρ) (irq : ℤ) : Option Chan :=
  (List.finRange maxDmaChannels).find? fun n =>
    decide (n.val < ctl.numCh) && decide ((ctl.ch n).irq = irq)

def allocDmaCtl (numCh : ℕ) (idleMap : BitVec 32) : DmaCtl ρ where
  list := []
  numCh := min numCh maxDmaChannels
  idleBitmap := idleMap
  ch := fun _ => ⟨0, none⟩

def enableDmaCh (ctl : DmaCtl ρ) (c : Chan) (irq : ℤ) : DmaCtl ρ :=
  { ctl with ch := Function.update ctl.ch c { ctl.ch c with irq := irq } }

/-- The enabling loop of `bifrost_dma_init` over a list of channels. -/
def enableChannels (irq : Chan → ℤ) (cs : List Chan) (ctl : DmaCtl ρ) : DmaCtl ρ :=
  cs.foldl (fun ctl c => ctl.enableDmaCh c (irq c)) ctl

/-- A controller with its first `numCh` channels enabled, as `bifrost_dma_init` leaves it. -/
def build (numCh : ℕ) (idleMap : BitVec 32) (irq : Chan → ℤ) : DmaCtl ρ :=
  enableChannels irq ((List.finRange maxDmaChannels).filter fun c => c.val < numCh)
    (allocDmaCtl numCh idleMap)

/-- `bifrost_dma_init` on the values it reads from the CAPABILITY and STATUS registers. -/
def bifrostDmaInit (capability status : BitVec 32) (irq : ℤ) : DmaCtl ρ :=
  let numCh := (capability &&& 0xf#32).toNat
  let idleMap := ~~~status &&& (1#32 <<< numCh - 1#32)
  build numCh idleMap fun n => irq + n

/-- The locked section of `start_dma_xfer`; the channel is the one to kick off. -/
def startDmaXfer (ctl : DmaCtl ρ) (req : ρ) : DmaCtl ρ × Option Chan :=
  match ctl.find1stIdleChan with
  | some (c, ctl) => (ctl.setInProgress c (some req), some c)
  | none => ({ ctl with list := ctl.list ++ [req] }, none)

/-- The head of `dma_done`: look the channel up and take the request it is working on.
A spurious interrupt takes nothing. -/
def takeInProgress (ctl : DmaCtl ρ) (irq : ℤ) : Option (Chan × ρ × DmaCtl ρ) :=
  (ctl.lookupChan irq).bind fun c =>
    (ctl.ch c).inProgress.map fun req => (c, req, ctl.setInProgress c none)

/-- The locked section of `dma_done`: hand the channel to the oldest pending request,
which is then kicked off, or free it. -/
def handOff (ctl : DmaCtl ρ) (c : Chan) : DmaCtl ρ × Option ρ :=
  match ctl.list with
  | req :: rest => ({ ctl with list := rest }.setInProgress c (some req), some req)
  | [] => (ctl.freeChan c, none)

section Reading
variable (ctl : DmaCtl ρ) (c d : Chan) (r : Option ρ)

theorem setInProgress_inProgress : ((ctl.setInProgress c r).ch d).inProgress =
    if d = c then r else (ctl.ch d).inProgress := by
  by_cases h : d = c <;> simp [setInProgress, h]

@[simp] theorem freeChan_list : (ctl.freeChan c).list = ctl.list := rfl

theorem freeChan_idle : (ctl.freeChan c).Idle d ↔ ctl.Idle d ∨ d = c := by
  simp only [freeChan, Idle, getLsbD_setBit, Fin.ext_iff, d.isLt, decide_true, Bool.true_and,
    Bool.or_eq_true, decide_eq_true_eq]

end Reading

variable {ctl ctl' : DmaCtl ρ} {c : Chan} {req : ρ} {irq : ℤ}

theorem find1stIdleChan_some (h : ctl.find1stIdleChan = some (c, ctl')) :
    ctl.Idle c ∧ ctl'.list = ctl.list ∧ ctl'.ch = ctl.ch ∧
      ∀ d, ctl'.Idle d ↔ ctl.Idle d ∧ d ≠ c := by
  obtain ⟨b, hb, heq⟩ := Option.map_eq_some_iff.mp h
  obtain ⟨rfl, rfl⟩ := Prod.mk.inj heq
  refine ⟨firstSet_getLsbD hb, rfl, rfl, fun d => ?_⟩
  simp only [Idle, getLsbD_clearBit, Fin.ext_iff, Bool.and_eq_true, Bool.not_eq_true',
    decide_eq_false_iff_not, ne_eq]

theorem find1stIdleChan_none : ctl.find1stIdleChan = none ↔ ∀ d, ¬ ctl.Idle d := by
  simp only [find1stIdleChan, Option.map_eq_none_iff, firstSet_eq_none, Idle,
    Bool.not_eq_true]

def Puts (ctl : DmaCtl ρ) (c : Chan) (x : Option ρ) (ctl' : DmaCtl ρ) : Prop :=
  ∀ d, (ctl'.ch d).inProgress = if d = c then x else (ctl.ch d).inProgress

theorem puts_setInProgress (ctl : DmaCtl ρ) (c : Chan) (x : Option ρ) :
    ctl.Puts c x (ctl.setInProgress c x) := fun d => setInProgress_inProgress ctl c d x

theorem Puts.slots {x : Option ρ} (h : ctl.Puts c x ctl') :
    (fun d => (ctl'.ch d).inProgress) = Function.update (fun d => (ctl.ch d).inProgress) c x := by
  funext d
  rw [h d, Function.update_apply]

theorem Puts.working_put (h : ctl.Puts c (some req) ctl') (hoff : (ctl.ch c).inProgress = none) :
    ctl'.working = {req} + ctl.working := by
  rw [working, h.slots]
  exact occupied_put hoff req

theorem Puts.working_take (h : ctl.Puts c none ctl') (hon : (ctl.ch c).inProgress = some req) :
    ctl.working = {req} + ctl'.working := by
  rw [working, working, h.slots]
  exact occupied_take hon

theorem mem_working : req ∈ ctl.working ↔ ∃ d, (ctl.ch d).inProgress = some req := mem_occupied

/-- What a submission does to the controller: claim an idle channel or join the queue. -/
theorem startDmaXfer_cases (ctl : DmaCtl ρ) (req : ρ) :
    (∃ (c : Chan) (ctl' : DmaCtl ρ), ctl.startDmaXfer req = (ctl', some c) ∧ ctl.Idle c ∧
      ctl'.list = ctl.list ∧ ctl.Puts c (some req) ctl' ∧
      ∀ d, ctl'.Idle d ↔ ctl.Idle d ∧ d ≠ c) ∨
    ((∀ d, ¬ ctl.Idle d) ∧
      ctl.startDmaXfer req = ({ ctl with list := ctl.list ++ [req] }, none)) := by
  cases h : ctl.find1stIdleChan with
  | some p =>
    obtain ⟨c, mid⟩ := p
    obtain ⟨hi, hl, hc, hd⟩ := find1stIdleChan_some h
    refine .inl ⟨c, mid.setInProgress c (some req), by simp [startDmaXfer, h], hi, hl, ?_, hd⟩
    intro d
    rw [puts_setInProgress, hc]
  | none => exact .inr ⟨find1stIdleChan_none.mp h, by simp [startDmaXfer, h]⟩

theorem takeInProgress_cases (h : ctl.takeInProgress irq = some (c, req, ctl')) :
    (ctl.ch c).inProgress = some req ∧ ctl'.list = ctl.list ∧ ctl.Puts c none ctl' ∧
      ∀ d, ctl'.Idle d ↔ ctl.Idle d := by
  obtain ⟨d, -, hd⟩ := Option.bind_eq_some_iff.mp h
  obtain ⟨r, hr, heq⟩ := Option.map_eq_some_iff.mp hd
  obtain ⟨rfl, rfl, rfl⟩ : d = c ∧ r = req ∧ ctl.setInProgress d none = ctl' := by
    simpa using heq
  exact ⟨hr, rfl, puts_setInProgress _ _ _, fun _ => Iff.rfl⟩

theorem handOff_cases (ctl : DmaCtl ρ) (c : Chan) :
    (∃ (req : ρ) (ctl' : DmaCtl ρ), ctl.handOff c = (ctl', some req) ∧
      ctl.list = req :: ctl'.list ∧ ctl.Puts c (some req) ctl' ∧
      ∀ d, ctl'.Idle d ↔ ctl.Idle d) ∨
    (ctl.list = [] ∧ ctl.handOff c = (ctl.freeChan c, none)) := by
  cases h : ctl.list with
  | nil => exact .inr ⟨rfl, by simp [handOff, h]⟩
  | cons req rest =>
    refine .inl ⟨req, { ctl with list := rest }.setInProgress c (some req), ?_, rfl, ?_, ?_⟩
    · simp [handOff, h]
    · exact puts_setInProgress { ctl with list := rest } c (some req)
    · exact fun _ => Iff.rfl

theorem enableChannels_frame (irq : Chan → ℤ) (cs : List Chan) (ctl : DmaCtl ρ) :
    (enableChannels irq cs ctl).list = ctl.list ∧
      (enableChannels irq cs ctl).idleBitmap = ctl.idleBitmap ∧
      (enableChannels irq cs ctl).numCh = ctl.numCh ∧
      ∀ c, ((enableChannels irq cs ctl).ch c).inProgress = (ctl.ch c).inProgress := by
  induction cs generalizing ctl with
  | nil => simp [enableChannels]
  | cons b cs ih =>
    obtain ⟨hl, hi, hn, hc⟩ := ih (ctl.enableDmaCh b (irq b))
    refine ⟨hl, hi, hn, fun c => (hc c).trans ?_⟩
    by_cases h : c = b <;> simp [enableDmaCh, h]

theorem enableChannels_irq (irq : Chan → ℤ) (cs : List Chan) (ctl : DmaCtl ρ) (c : Chan) :
    ((enableChannels irq cs ctl).ch c).irq = if c ∈ cs then irq c else (ctl.ch c).irq := by
  induction cs generalizing ctl with
  | nil => simp [enableChannels]
  | cons b cs ih =>
    change ((enableChannels irq cs (ctl.enableDmaCh b (irq b))).ch c).irq = _
    rw [ih]
    by_cases h : c = b <;> simp [enableDmaCh, h]

end DmaCtl
end BifrostModule.Dma
