import BifrostModule.Cdev.Payload

/-! # The causes of one interrupt

`FVDIRQ1Service` reports up to five causes, all in one variable that it clears once.
-/
namespace BifrostModule.Cdev
open Foundation

inductive Cause where
  | execute
  | hsi
  | jpegLs
  | digitalIo
  | cable
  deriving DecidableEq

namespace Cause

/-- The bit of a cause in the mask and the vector. -/
def bit : Cause → BitVec 32
  | execute => 0x10
  | hsi => 0x20
  | jpegLs => 0x100
  | digitalIo => 0x200
  | cable => 0x400

def irqSource : Cause → BitVec 32
  | execute => 0x40
  | hsi => 0x02
  | jpegLs => 0x04
  | digitalIo => 0x08
  | cable => 0x10

def early : List Cause := [execute, hsi]

def late : List Cause := [digitalIo, cable]

end Cause

@[simp] theorem PaddedEvent.interrupt_data (event : PaddedEvent) (irqSource : BitVec 32) :
    (event.interrupt irqSource).event.data = Function.update event.event.data 0 irqSource := rfl

@[simp] theorem PaddedEvent.setValue_data (event : PaddedEvent) (value : BitVec 32) :
    (event.setValue value).event.data = Function.update event.event.data 1 value := rfl

section Reports
variable (regs : Registers) (now : BitVec 64 × BitVec 64)

def Raised (c : Cause) : Prop := regs.read 0x38 &&& regs.read 0x37 &&& c.bit ≠ 0

instance (c : Cause) : Decidable (Raised regs c) := inferInstanceAs (Decidable (_ ≠ _))

/-- The causes of the interrupt in the order of the service. -/
def causes : List Cause :=
  Cause.early.filter (fun c => Raised regs c) ++ [Cause.jpegLs].filter (fun c => Raised regs c) ++
    Cause.late.filter (fun c => Raised regs c)

def lastBuffer : BitVec 32 := regs.read 0x170

/-- The size of the frame, which is in the register of its buffer. -/
def bufferSize : BitVec 32 := regs.read (0x171 + lastBuffer regs)

def inputStatus : BitVec 32 :=
  let camtype := regs.read 0x23 &&& 0xFFFF
  if camtype = 0x8 then regs.read 0x150
  else if camtype = 0x19 ∨ camtype = 0x1F then regs.read 0x152
  else 0

/-- 1 if the link of the HSI cable is up. -/
def cableState : BitVec 32 := if regs.read 0x141 &&& 0x10 = 0 then 1 else 0

/-- The words after `irq_source` that the cause defines: value or number, size and time. -/
def Cause.words : Cause → Fin 8 → BitVec 32
  | execute => 0
  | hsi => 0
  | jpegLs => ![0, lastBuffer regs, bufferSize regs, 0, now.1.extractLsb' 0 32,
      now.1.extractLsb' 32 32, now.2.extractLsb' 0 32, now.2.extractLsb' 32 32]
  | digitalIo => Function.update 0 1 (inputStatus regs)
  | cable => Function.update 0 1 (cableState regs)

/-- The event of a cause by itself. -/
def Cause.own (c : Cause) : PaddedEvent :=
  ⟨⟨eventTypeIrq, Function.update (c.words regs now) 0 c.irqSource, 0, 0⟩, 0⟩

theorem own_data (c : Cause) :
    (c.own regs now).event.data = Function.update (c.words regs now) 0 c.irqSource := rfl

def Cause.reads : Cause → List (BitVec 32)
  | execute => []
  | hsi => []
  | jpegLs => [0x170, 0x171 + lastBuffer regs]
  | digitalIo =>
    let camtype := regs.read 0x23 &&& 0xFFFF
    0x23 :: if camtype = 0x8 then [0x150]
      else if camtype = 0x19 ∨ camtype = 0x1F then [0x152]
      else []
  | cable => [0x141]

theorem own_congr {regs' : Registers} (c : Cause) (h : ∀ r ∈ c.reads regs, regs r = regs' r) :
    c.own regs now = c.own regs' now := by
  have hread : ∀ r ∈ c.reads regs, regs.read r = regs'.read r := by
    intro r hr
    rw [Registers.read, Registers.read, h r hr]
  have hwords : c.words regs now = c.words regs' now := by
    cases c with
    | execute => rfl
    | hsi => rfl
    | jpegLs =>
      have hlast : lastBuffer regs = lastBuffer regs' := hread _ (by simp [Cause.reads])
      have hsize : bufferSize regs = bufferSize regs' := by
        rw [bufferSize, bufferSize, ← hlast]
        exact hread _ (by simp [Cause.reads])
      rw [Cause.words, Cause.words, hlast, hsize]
    | digitalIo =>
      have hcamtype : regs.read 0x23 = regs'.read 0x23 := hread _ (by simp [Cause.reads])
      have hstatus : inputStatus regs = inputStatus regs' := by
        simp only [Cause.reads] at hread
        unfold inputStatus
        rw [← hcamtype]
        dsimp only
        split_ifs with ht1k hec501
        · rw [if_pos ht1k] at hread
          exact hread _ (by simp)
        · rw [if_neg ht1k, if_pos hec501] at hread
          exact hread _ (by simp)
        · rfl
      rw [Cause.words, Cause.words, hstatus]
    | cable =>
      have hstate : regs.read 0x141 = regs'.read 0x141 := hread _ (by simp [Cause.reads])
      rw [Cause.words, Cause.words, cableState, cableState, hstate]
  rw [Cause.own, Cause.own, hwords]

/-- The event of a cause as the service makes it, in a variable that holds another. -/
def Cause.report (event : PaddedEvent) : Cause → PaddedEvent
  | execute => event.interrupt 0x40
  | hsi => event.interrupt 0x02
  | jpegLs => jpegLsFrame regs now event
  | digitalIo => digitalInput regs event
  | cable => hsiCable regs event

def reports : List Cause → PaddedEvent → List PaddedEvent
  | [], _ => []
  | c :: cs, event => c.report regs now event :: reports cs (c.report regs now event)

def left (cs : List Cause) (event : PaddedEvent) : PaddedEvent :=
  cs.foldl (fun event c => c.report regs now event) event

theorem reports_append (cs ds : List Cause) (event : PaddedEvent) :
    reports regs now (cs ++ ds) event =
      reports regs now cs event ++ reports regs now ds (left regs now cs event) := by
  induction cs generalizing event with
  | nil => rfl
  | cons c cs ih =>
    rw [List.cons_append, reports, reports, ih]
    rfl

def Cause.look (c : Cause) (event : PaddedEvent) : PaddedEvent :=
  if Raised regs c then c.report regs now event else event

theorem reports_filter_cons (c : Cause) (cs : List Cause) (event : PaddedEvent) :
    reports regs now ((c :: cs).filter fun c => Raised regs c) event =
      (if Raised regs c then [c.look regs now event] else []) ++
        reports regs now (cs.filter fun c => Raised regs c) (c.look regs now event) := by
  unfold Cause.look
  by_cases hc : Raised regs c
  · rw [List.filter_cons_of_pos (by simpa using hc), if_pos hc, if_pos hc]
    rfl
  · rw [List.filter_cons_of_neg (by simpa using hc), if_neg hc, if_neg hc]
    rfl

theorem fvdIrq1Service_eq (stack : PaddedEvent) :
    fvdIrq1Service regs now stack = reports regs now (causes regs) stack.memset := by
  have hcauses : causes regs = [Cause.execute, .hsi, .jpegLs, .digitalIo, .cable].filter
      fun c => Raised regs c := by
    rw [causes, ← List.filter_append, ← List.filter_append]
    rfl
  rw [hcauses, reports_filter_cons, reports_filter_cons, reports_filter_cons, reports_filter_cons,
    reports_filter_cons, ← List.append_assoc, ← List.append_assoc, ← List.append_assoc,
    ← List.append_assoc, List.filter_nil, reports, List.append_nil]
  rfl

/-- A variable in which nothing but the type and `irq_source` has been set, up to `words`. -/
structure SetUpTo (n : ℕ) (event : PaddedEvent) : Prop where
  zero : ∀ i : Fin 8, n ≤ i.val → event.event.data i = 0
  received : event.event.received = 0
  forwarded : event.event.forwarded = 0
  padding : event.origin = 0

theorem SetUpTo.memset (n : ℕ) (stack : PaddedEvent) : SetUpTo n stack.memset :=
  ⟨fun _ _ => rfl, rfl, rfl, rfl⟩

theorem SetUpTo.mono {m n : ℕ} {event : PaddedEvent} (h : SetUpTo m event) (hmn : m ≤ n) :
    SetUpTo n event :=
  { h with zero := fun i hi => h.zero i (hmn.trans hi) }

variable {regs now} {event : PaddedEvent}

theorem eq_own {c : Cause} {w : PaddedEvent} (htype : w.event.type = eventTypeIrq)
    (hdata : w.event.data = Function.update (c.words regs now) 0 c.irqSource)
    (h : w.event.received = 0 ∧ w.event.forwarded = 0 ∧ w.origin = 0) : w = c.own regs now := by
  obtain ⟨⟨type, data, received, forwarded⟩, padding⟩ := w
  obtain ⟨rfl, rfl, rfl⟩ := h
  cases htype
  cases hdata
  rfl

/-- An event with no words of its own, in a variable with only `irq_source` set. -/
theorem interrupt_eq_own (h : SetUpTo 1 event) {c : Cause} (hwords : c.words regs now = 0) :
    event.interrupt c.irqSource = c.own regs now := by
  refine eq_own rfl ?_ ⟨h.received, h.forwarded, h.padding⟩
  rw [PaddedEvent.interrupt_data, hwords]
  funext i
  by_cases hi : i = 0
  · rw [hi, Function.update_self, Function.update_self]
  · rw [Function.update_of_ne hi, Function.update_of_ne hi]
    exact h.zero i (by omega)

/-- An event with a value, in a variable in which no more has been set. -/
theorem setValue_eq_own (h : SetUpTo 2 event) {c : Cause} {value : BitVec 32}
    (hwords : c.words regs now = Function.update (0 : Fin 8 → BitVec 32) 1 value) :
    (event.interrupt c.irqSource).setValue value = c.own regs now := by
  refine eq_own rfl ?_ ⟨h.received, h.forwarded, h.padding⟩
  rw [PaddedEvent.setValue_data, PaddedEvent.interrupt_data, hwords,
    Function.update_comm (by decide : (0 : Fin 8) ≠ 1)]
  funext i
  by_cases hi0 : i = 0
  · rw [hi0, Function.update_self, Function.update_self]
  · rw [Function.update_of_ne hi0, Function.update_of_ne hi0]
    by_cases hi1 : i = 1
    · rw [hi1, Function.update_self, Function.update_self]
    · rw [Function.update_of_ne hi1, Function.update_of_ne hi1]
      exact h.zero i (by omega)

/-- In a variable with only `irq_source` and the value set, the causes after the frame make their
own events. -/
theorem report_of_late (h : SetUpTo 2 event) {c : Cause} (hc : c ∈ Cause.late) :
    c.report regs now event = c.own regs now := by
  rcases List.mem_pair.mp hc with rfl | rfl
  · have hstatus : digitalInput regs event =
        (event.interrupt 0x08).setValue (inputStatus regs) := by
      unfold digitalInput inputStatus
      dsimp only
      split_ifs <;> simp_all
    rw [Cause.report, hstatus]
    exact setValue_eq_own (c := .digitalIo) h rfl
  · exact setValue_eq_own (c := .cable) h rfl

theorem report_of_source (h : SetUpTo 1 event) (c : Cause) :
    c.report regs now event = c.own regs now := by
  cases c with
  | execute => exact interrupt_eq_own (c := .execute) h rfl
  | hsi => exact interrupt_eq_own (c := .hsi) h rfl
  | jpegLs =>
    refine eq_own rfl ?_ ⟨h.received, h.forwarded, h.padding⟩
    funext i
    fin_cases i
    · rfl
    · rfl
    · rfl
    · exact h.zero 3 (by decide)
    · rfl
    · rfl
    · rfl
    · rfl
  | digitalIo => exact report_of_late (h.mono (by decide)) (by decide)
  | cable => exact report_of_late (h.mono (by decide)) (by decide)

theorem SetUpTo.report_early (h : SetUpTo 1 event) {c : Cause} (hc : c ∈ Cause.early) :
    SetUpTo 1 (c.report regs now event) := by
  rcases List.mem_pair.mp hc with rfl | rfl
  · refine { h with zero := fun i hi => ?_ }
    rw [Cause.report, PaddedEvent.interrupt_data, Function.update_of_ne (by omega)]
    exact h.zero i hi
  · refine { h with zero := fun i hi => ?_ }
    rw [Cause.report, PaddedEvent.interrupt_data, Function.update_of_ne (by omega)]
    exact h.zero i hi

theorem own_setUpTo {c : Cause} (hc : c ∈ Cause.late) : SetUpTo 2 (c.own regs now) := by
  refine ⟨fun i hi => ?_, rfl, rfl, rfl⟩
  rw [own_data, Function.update_of_ne (by omega)]
  rcases List.mem_pair.mp hc with rfl | rfl
  · exact Function.update_of_ne (by omega) _ _
  · exact Function.update_of_ne (by omega) _ _

theorem reports_early {cs : List Cause} (hcs : ∀ c ∈ cs, c ∈ Cause.early) (h : SetUpTo 1 event) :
    reports regs now cs event = cs.map (·.own regs now) ∧ SetUpTo 1 (left regs now cs event) := by
  induction cs generalizing event with
  | nil => exact ⟨rfl, h⟩
  | cons c cs ih =>
    obtain ⟨hc, hcs⟩ := List.forall_mem_cons.mp hcs
    obtain ⟨hreports, hleft⟩ := ih hcs (h.report_early hc)
    refine ⟨?_, hleft⟩
    rw [reports, hreports, report_of_source h c, List.map_cons]

theorem reports_late {cs : List Cause} (hcs : ∀ c ∈ cs, c ∈ Cause.late) (h : SetUpTo 2 event) :
    reports regs now cs event = cs.map (·.own regs now) := by
  induction cs generalizing event with
  | nil => rfl
  | cons c cs ih =>
    obtain ⟨hc, hcs⟩ := List.forall_mem_cons.mp hcs
    rw [reports, report_of_late h hc, ih hcs (own_setUpTo hc), List.map_cons]

theorem eq_zero_of_halves {x : BitVec 64} (hlow : x.extractLsb' 0 32 = 0)
    (hhigh : x.extractLsb' 32 32 = 0) : x = 0 := by
  apply BitVec.eq_of_toNat_eq
  have hlt := x.isLt
  have hl := congrArg BitVec.toNat hlow
  have hh := congrArg BitVec.toNat hhigh
  simp only [BitVec.extractLsb'_toNat, Nat.shiftRight_eq_div_pow, BitVec.ofNat_eq_ofNat,
    BitVec.toNat_ofNat] at hl hh ⊢
  omega

/-- The frame leaves its size and its time in the variable. -/
theorem own_jpegLs_setUpTo :
    SetUpTo 2 (Cause.jpegLs.own regs now) ↔ bufferSize regs = 0 ∧ now = (0, 0) := by
  constructor
  · intro h
    refine ⟨h.zero 2 (by decide), Prod.ext ?_ ?_⟩
    · exact eq_zero_of_halves (h.zero 4 (by decide)) (h.zero 5 (by decide))
    · exact eq_zero_of_halves (h.zero 6 (by decide)) (h.zero 7 (by decide))
  · rintro ⟨hsize, rfl⟩
    refine ⟨fun i hi => ?_, rfl, rfl, rfl⟩
    rw [own_data, Function.update_of_ne (by omega), Cause.words, hsize]
    fin_cases i <;> simp_all

theorem report_late_keeps {c : Cause} (hc : c ∈ Cause.late) {i : Fin 8} (hi : 2 ≤ i.val) :
    (c.report regs now event).event.data i = event.event.data i := by
  have hset : ∀ irqSource value : BitVec 32,
      ((event.interrupt irqSource).setValue value).event.data i = event.event.data i := by
    intro irqSource value
    rw [PaddedEvent.setValue_data, PaddedEvent.interrupt_data, Function.update_of_ne (by omega),
      Function.update_of_ne (by omega)]
  rcases List.mem_pair.mp hc with rfl | rfl
  · exact hset _ _
  · exact hset _ _

/-- After a frame, the later causes have their own events if there are none or if the frame left
nothing. -/
theorem reports_after_frame {cs : List Cause} (hcs : ∀ c ∈ cs, c ∈ Cause.late) :
    reports regs now cs (Cause.jpegLs.own regs now) = cs.map (·.own regs now) ↔
      cs = [] ∨ bufferSize regs = 0 ∧ now = (0, 0) := by
  rw [← own_jpegLs_setUpTo]
  constructor
  · intro h
    cases cs with
    | nil => exact .inl rfl
    | cons c cs =>
      have hc := hcs c (List.mem_cons_self ..)
      have hhead : c.report regs now (Cause.jpegLs.own regs now) = c.own regs now :=
        (List.cons.inj h).1
      refine .inr ⟨fun i hi => ?_, rfl, rfl, rfl⟩
      have hkeeps : (c.report regs now (Cause.jpegLs.own regs now)).event.data i =
          (Cause.jpegLs.own regs now).event.data i := report_late_keeps hc hi
      rw [← hkeeps, hhead]
      exact (own_setUpTo hc).zero i hi
  · rintro (rfl | h)
    · rfl
    · exact reports_late hcs h

/-- Each cause that is raised has its event, and the event is that of the cause by itself. It is the
same with any registers that hold the same where it reads. -/
structure Independent (regs : Registers) (now : BitVec 64 × BitVec 64)
    (events : List PaddedEvent) : Prop where
  sources : events.map (·.event.irqSource) = (causes regs).map Cause.irqSource
  own : events = (causes regs).map (·.own regs now)
  reads : ∀ regs' : Registers, List.Forall₂ (fun (c : Cause) event =>
    (∀ r ∈ c.reads regs, regs r = regs' r) → event = c.own regs' now) (causes regs) events

theorem own_irqSource (c : Cause) : (c.own regs now).event.irqSource = c.irqSource := by
  rw [Event.irqSource, own_data, Function.update_self]

theorem independent_iff_own (events : List PaddedEvent) :
    Independent regs now events ↔ events = (causes regs).map (·.own regs now) := by
  refine ⟨fun h => h.own, fun h => ⟨?_, h, fun regs' => ?_⟩⟩
  · rw [h, List.map_map]
    exact List.map_congr_left fun c _ => own_irqSource c
  · rw [h, List.forall₂_map_right_iff]
    exact List.forall₂_same.mpr fun c _ hread => own_congr regs now c hread

theorem late_eq_nil : (Cause.late.filter fun c => Raised regs c) = [] ↔
    ¬ Raised regs .digitalIo ∧ ¬ Raised regs .cable := by
  simp [List.filter_eq_nil_iff, Cause.late]

/-- The events are independent exactly if there is no frame, nothing after the frame, or nothing in
the frame. -/
theorem independent_iff {stack : PaddedEvent} :
    Independent regs now (fvdIrq1Service regs now stack) ↔
      (Raised regs .jpegLs → (¬ Raised regs .digitalIo ∧ ¬ Raised regs .cable) ∨
        bufferSize regs = 0 ∧ now = (0, 0)) := by
  have hlate : ∀ c ∈ Cause.late.filter fun c => Raised regs c, c ∈ Cause.late :=
    fun c hc => (List.mem_filter.mp hc).1
  have hmem : ∀ c ∈ Cause.early.filter fun c => Raised regs c, c ∈ Cause.early :=
    fun c hc => (List.mem_filter.mp hc).1
  obtain ⟨hearly, hleft⟩ : reports regs now _ stack.memset = _ ∧
      SetUpTo 1 (left regs now _ stack.memset) := reports_early hmem (SetUpTo.memset 1 stack)
  rw [independent_iff_own, fvdIrq1Service_eq, causes, List.append_assoc, reports_append,
    List.map_append, hearly, List.append_cancel_left_eq, reports_append, List.map_append]
  generalize left regs now (Cause.early.filter fun c => Raised regs c) stack.memset = event
    at hleft
  by_cases hframe : Raised regs .jpegLs
  · have hone : ([Cause.jpegLs].filter fun c => Raised regs c) = [Cause.jpegLs] := by
      simp [hframe]
    have hown : Cause.jpegLs.report regs now event = Cause.jpegLs.own regs now :=
      report_of_source hleft .jpegLs
    rw [hone, reports, reports, left, List.foldl_cons, List.foldl_nil, hown, List.map_singleton,
      List.append_cancel_left_eq, reports_after_frame hlate, late_eq_nil]
    exact ⟨fun h _ => h, fun h => h hframe⟩
  · have hnone : ([Cause.jpegLs].filter fun c => Raised regs c) = [] := by
      simp [hframe]
    rw [hnone]
    refine ⟨fun _ h => absurd h hframe, fun _ => ?_⟩
    exact reports_late hlate (hleft.mono (by decide))

end Reports

/-- An interrupt with a frame of one byte and a change of the cable. -/
def frameAndCable : Registers :=
  fun offset => if offset = 0x37 ∨ offset = 0x38 then 0x500 else if offset = 0x171 then 1 else 0

/-- The event of the cable has the size of the frame. -/
theorem frame_in_cable : ¬ ∀ (regs : Registers) (now : BitVec 64 × BitVec 64) (stack : PaddedEvent),
    Independent regs now (fvdIrq1Service regs now stack) := by
  intro h
  have hsecond := congrArg (fun events => events[1]?.map (·.event.data 2))
    (h frameAndCable (0, 0) (filled 0)).own
  revert hsecond
  decide

end BifrostModule.Cdev
