import BifrostModule.Foundation.Interrupts
import BifrostModule.Dma.Scheduler
import BifrostModule.Cdev.Events

/-! # The spinlocks of the driver and its interrupt handlers

The locks that each ioctl, work item and interrupt handler takes, in their
order. Whether a transfer is kicked off, which takes the lock of the BAR with
the DMA registers, is decided by the controller.
-/
namespace BifrostModule.Irq
open Foundation Foundation.Interrupts

/-- The lock of a BAR, of the DMA controller, of the list of handles, or of a handle's events. -/
inductive Lock where
  | regb (bar : Fin 6)
  | dmaCtl
  | lockList
  | eventList (a : Cdev.Addr)
  deriving DecidableEq

/-- What is done to the controller: the locked section of `start_dma_xfer`, the head of `dma_done`
and its locked section. -/
inductive Action (ρ : Type*) where
  | startDmaXfer (req : ρ)
  | takeInProgress (irq : ℤ)
  | handOff (c : Dma.Chan)
  deriving DecidableEq

abbrev Code (ρ : Type*) := List (Instr Lock (Action ρ))

variable {κ ρ : Type*}

def spinLocked (l : Lock) (body : Code ρ) : Code ρ := .spinLock l :: body ++ [.spinUnlock l]

def irqLocked (l : Lock) (body : Code ρ) : Code ρ :=
  spinLockIrqsave l ++ body ++ spinUnlockIrqrestore l

/-- `bifrost_dma_chan_start`, on the BAR that `regb_dma` points to. -/
def bifrostDmaChanStart (bar : Fin 6) : Code ρ := irqLocked (.regb bar) []

/-- The entries from user space and the work item. -/
inductive Call (ρ : Type*) where
  | bifrostOpen
  | bifrostRelease (a : Cdev.Addr)
  | bifrostPoll (a : Cdev.Addr)
  | dequeueEvent (a : Cdev.Addr)
  | createEvent (handles : List Cdev.Addr)
  | doReadRegb (bar : Fin 6)
  | doWriteRegb (bar : Fin 6)
  | doModifyRegb (bar : Fin 6)
  | startDmaXfer (req : ρ)

/-- `bifrost_create_event` calls `enqueue_event` for some of the handles. -/
def Call.code : Call ρ → Code ρ
  | .bifrostOpen => spinLocked .lockList []
  | .bifrostRelease a => spinLocked .lockList [] ++ spinLocked (.eventList a) []
  | .bifrostPoll a => spinLocked (.eventList a) []
  | .dequeueEvent a => spinLocked (.eventList a) []
  | .createEvent handles =>
    spinLocked .lockList (handles.flatMap fun a => spinLocked (.eventList a) [])
  | .doReadRegb bar => spinLocked (.regb bar) []
  | .doWriteRegb bar => spinLocked (.regb bar) []
  | .doModifyRegb bar => spinLocked (.regb bar) []
  | .startDmaXfer req => irqLocked .dmaCtl [.act (.startDmaXfer req)]

/-- `dma_msi_handler`, and the handlers that only create an event. -/
inductive Handler where
  | dmaMsi (irq : ℤ)
  | other

def Handler.code : Handler → Code ρ
  | .dmaMsi irq => [.act (.takeInProgress irq)]
  | .other => []

/-- What the controller decides; a transfer is kicked off once the lock is released. -/
def act (bar : Fin 6) (ctl : Dma.DmaCtl ρ) : Action ρ → Dma.DmaCtl ρ × Code ρ
  | .startDmaXfer req =>
    ((ctl.startDmaXfer req).1, (ctl.startDmaXfer req).2.elim [] fun _ => bifrostDmaChanStart bar)
  | .takeInProgress irq =>
    (ctl.takeInProgress irq).elim (ctl, []) fun p =>
      (p.2.2, irqLocked .dmaCtl [.act (.handOff p.1)])
  | .handOff c =>
    ((ctl.handOff c).1, (ctl.handOff c).2.elim [] fun _ => bifrostDmaChanStart bar)

def program (ρ : Type*) (bar : Fin 6) :
    Program (Call ρ) Handler Lock (Action ρ) (Dma.DmaCtl ρ) where
  call := Call.code
  handler := Handler.code
  act := act bar

/-- The driver on the CPUs `κ`, with the DMA registers behind a BAR. -/
def driver (κ ρ : Type*) [DecidableEq κ] [DecidableEq ρ] (bar : Fin 6) :
    Machine (System κ Lock (Action ρ) (Dma.DmaCtl ρ)) (Label κ (Call ρ) Handler) :=
  machine (program ρ bar) fun ctl => (Dma.scheduler ρ).start (.initial ctl)

def atHandOff : Code ρ → Bool
  | .act (.handOff _) :: _ => true
  | _ => false

/-- A handler on the CPU is about to hand its channel to a pending request. -/
def HandsOver (s : System κ Lock (Action ρ) (Dma.DmaCtl ρ)) (k : κ) : Prop :=
  (s.cpu k).handler.any (fun h => atHandOff h.code) ∧ s.dev.list.length ≠ 0

instance (s : System κ Lock (Action ρ) (Dma.DmaCtl ρ)) (k : κ) : Decidable (HandsOver s k) :=
  inferInstanceAs (Decidable (_ ∧ _))

def runs : Label κ (Call ρ) Handler → Option κ
  | .run k => some k
  | _ => none

/-- A channel is handed to a pending request only while the interrupted task does not hold the lock
of the BAR with the DMA registers. -/
def DmaBarFree (bar : Fin 6) (s : System κ Lock (Action ρ) (Dma.DmaCtl ρ))
    (l : Label κ (Call ρ) Handler) : Prop :=
  (runs l).elim True fun k => HandsOver s k → .regb bar ∉ (s.cpu k).task.held

instance (bar : Fin 6) (s : System κ Lock (Action ρ) (Dma.DmaCtl ρ))
    (l : Label κ (Call ρ) Handler) : Decidable (DmaBarFree bar s l) :=
  match h : runs l with
  | none => .isTrue (by simp [DmaBarFree, h])
  | some k => decidable_of_iff (HandsOver s k → .regb bar ∉ (s.cpu k).task.held)
      (by simp [DmaBarFree, h])

section Discipline
variable {bar : Fin 6} {held : List Lock} {off : Bool} {l : Lock} {rest : Code ρ}

def FromHandlers (l : Lock) : Prop := l = .dmaCtl

theorem disciplined_spinLocked (hl : ¬ FromHandlers l)
    (h : Disciplined (program ρ bar) FromHandlers held false rest) :
    Disciplined (program ρ bar) FromHandlers held false (spinLocked l [] ++ rest) := by
  apply Disciplined.lock (fun hl' => absurd hl' hl)
  apply Disciplined.unlock
  rwa [List.erase_cons_head]

/-- A section with interrupts masked may take any lock. -/
theorem disciplined_chanStart
    (h : Disciplined (program ρ bar) FromHandlers [] false rest) :
    Disciplined (program ρ bar) FromHandlers [] false (bifrostDmaChanStart bar ++ rest) := by
  apply Disciplined.save
  apply Disciplined.lock fun _ => rfl
  apply Disciplined.unlock
  rw [List.erase_cons_head]
  exact Disciplined.restore h

theorem disciplined_createEvent (handles : List Cdev.Addr)
    (h : Disciplined (program ρ bar) FromHandlers held false rest) :
    Disciplined (program ρ bar) FromHandlers held false
      (handles.flatMap (fun a => spinLocked (.eventList a) []) ++ rest) := by
  induction handles with
  | nil => exact h
  | cons a handles ih =>
    rw [List.flatMap_cons, List.append_assoc]
    exact disciplined_spinLocked nofun ih

theorem disciplined_call (c : Call ρ) :
    Disciplined (program ρ bar) FromHandlers [] false c.code := by
  have hone : ∀ l, ¬ FromHandlers l →
      Disciplined (program ρ bar) FromHandlers [] false (spinLocked l []) := fun l hl =>
    disciplined_spinLocked hl .done
  cases c with
  | bifrostOpen => exact hone _ nofun
  | bifrostRelease a => exact disciplined_spinLocked nofun (hone _ nofun)
  | bifrostPoll a => exact hone _ nofun
  | dequeueEvent a => exact hone _ nofun
  | createEvent handles =>
    apply Disciplined.lock nofun
    apply disciplined_createEvent handles
    apply Disciplined.unlock
    rw [List.erase_cons_head]
    exact .done
  | doReadRegb bar => exact hone _ nofun
  | doWriteRegb bar => exact hone _ nofun
  | doModifyRegb bar => exact hone _ nofun
  | startDmaXfer req =>
    apply Disciplined.save
    apply Disciplined.lock fun _ => rfl
    apply Disciplined.act
    intro ctl
    apply Disciplined.unlock
    rw [List.erase_cons_head]
    apply Disciplined.restore
    change Disciplined _ _ _ _ ((ctl.startDmaXfer req).2.elim [] fun _ => bifrostDmaChanStart bar)
    cases (ctl.startDmaXfer req).2 with
    | none => exact .done
    | some c => exact disciplined_chanStart .done

end Discipline

def HandlerAction : Action ρ → Prop
  | .startDmaXfer _ => False
  | .takeInProgress _ => True
  | .handOff _ => True

section Handlers
variable {bar : Fin 6} {ctl : Dma.DmaCtl ρ} {l : Lock}

theorem actsIn_chanStart : ActsIn (HandlerAction (ρ := ρ)) (bifrostDmaChanStart bar) := by
  intro d hd
  simp [bifrostDmaChanStart, irqLocked, spinLockIrqsave, spinUnlockIrqrestore] at hd

theorem takes_chanStart (h : l ∈ takes (bifrostDmaChanStart bar : Code ρ)) : l = .regb bar := by
  simpa [mem_takes, bifrostDmaChanStart, irqLocked, spinLockIrqsave, spinUnlockIrqrestore] using h

theorem actsIn_act (ctl : Dma.DmaCtl ρ) (d : Action ρ) (hd : HandlerAction d) :
    ActsIn HandlerAction (act bar ctl d).2 := by
  cases d with
  | startDmaXfer req => cases hd
  | takeInProgress irq =>
    simp only [act]
    cases ctl.takeInProgress irq with
    | none => nofun
    | some p =>
      intro d hd
      obtain rfl : d = .handOff p.1 := by
        simpa [irqLocked, spinLockIrqsave, spinUnlockIrqrestore] using hd
      trivial
  | handOff c =>
    simp only [act]
    cases (ctl.handOff c).2 with
    | none => nofun
    | some req => exact actsIn_chanStart

/-- What a handler does next takes the lock of the controller, or that of the DMA registers for a
pending request. -/
theorem takes_act {d : Action ρ} (hd : HandlerAction d) (hl : l ∈ takes (act bar ctl d).2) :
    FromHandlers l ∨ l = .regb bar ∧ (∃ c, d = .handOff c) ∧ ctl.list.length ≠ 0 := by
  cases d with
  | startDmaXfer req => cases hd
  | takeInProgress irq =>
    simp only [act] at hl
    cases h : ctl.takeInProgress irq with
    | none => simp [h, mem_takes] at hl
    | some p =>
      left
      simpa [FromHandlers, h, mem_takes, irqLocked, spinLockIrqsave, spinUnlockIrqrestore] using hl
  | handOff c =>
    simp only [act] at hl
    rcases ctl.handOff_cases c with ⟨req, ctl', heq, hlist, -⟩ | ⟨-, heq⟩
    · rw [heq] at hl
      exact .inr ⟨takes_chanStart hl, ⟨c, rfl⟩, by simp [hlist]⟩
    · simp [heq, mem_takes] at hl

end Handlers

theorem clear_of_dmaBarFree {bar : Fin 6} (s : System κ Lock (Action ρ) (Dma.DmaCtl ρ))
    (a : Label κ (Call ρ) Handler) (hok : DmaBarFree bar s a) :
    Clear (program ρ bar) FromHandlers HandlerAction s a := by
  cases a with
  | run k =>
    intro h d rest hh hcode hd l hl
    refine (takes_act hd hl).imp_right ?_
    rintro ⟨rfl, ⟨c, rfl⟩, hlist⟩
    refine hok ⟨?_, hlist⟩
    simp [hh, hcode, atHandOff]
  | _ => trivial

/-- As long as no `dma_done` hands its channel to a pending request on a CPU whose interrupted task
holds the lock of the BAR with the DMA registers, no interrupt handler tries to take a lock of the
task that it has interrupted. -/
theorem handlers_spare_tasks [DecidableEq κ] [DecidableEq ρ] {bar : Fin 6}
    {s : System κ Lock (Action ρ) (Dma.DmaCtl ρ)}
    (h : (driver κ ρ bar).ReachableUnder (DmaBarFree bar) s) : s.Safe := by
  apply safe_of_disciplined (P := program ρ bar) (S := FromHandlers) (Q := HandlerAction)
  · exact disciplined_call
  · intro i
    cases i with
    | dmaMsi irq =>
      refine ⟨fun d hd => ?_, fun l hl => ?_⟩
      · obtain rfl : d = .takeInProgress irq := by
          simpa [program, Handler.code] using hd
        trivial
      · simp [program, Handler.code, mem_takes] at hl
    | other => exact ⟨nofun, nofun⟩
  · exact actsIn_act
  · exact h.mono clear_of_dmaBarFree

private def twoTransfers : List (Label Unit (Call ℕ) Handler) :=
  .call () (.startDmaXfer 0) :: List.replicate 9 (.run ()) ++
    .call () (.startDmaXfer 1) :: List.replicate 5 (.run ())

private theorem start_oneChannel : (driver Unit ℕ 0).start (.initial (.bifrostDmaInit 1 0 7)) :=
  ⟨_, Dma.start_bifrostDmaInit 1 0 7, rfl⟩

theorem handlers_spare_tasks_one : ∃ s : System Unit Lock (Action ℕ) (Dma.DmaCtl ℕ),
    (s.dev.ch 0).inProgress = some 1 ∧ s.Safe := by
  have hrun : ((driver Unit ℕ 0).execUnder (DmaBarFree 0) (.initial (.bifrostDmaInit 1 0 7))
      (twoTransfers ++ .interrupt () (.dmaMsi 7) :: List.replicate 7 (.run ()))).map
      (fun s => decide ((s.dev.ch 0).inProgress = some 1)) = some true := by decide +kernel
  obtain ⟨s, hs, hp⟩ := Machine.exists_reachableUnder_of_exec start_oneChannel hrun
  exact ⟨s, of_decide_eq_true hp, handlers_spare_tasks hs⟩

/-- A completion with a pending request interrupts a register ioctl on the BAR with the DMA
registers, and waits for the lock that the ioctl holds. -/
theorem handler_takes_held_lock : ¬ ∀ s, (driver Unit ℕ 0).Reachable s → s.Safe := by
  have hrun : ((driver Unit ℕ 0).exec (.initial (.bifrostDmaInit 1 0 7))
      (twoTransfers ++ .call () (.doReadRegb 0) :: .run () :: .interrupt () (.dmaMsi 7) ::
        List.replicate 7 (.run ()))).map (fun s =>
      decide ((s.cpu ()).handler.map (fun h => h.code.head?) = some (some (.spinLock (.regb 0))) ∧
        .regb 0 ∈ (s.cpu ()).task.held)) = some true := by decide +kernel
  obtain ⟨s, hs, hp⟩ := Machine.exists_reachable_of_exec start_oneChannel hrun
  obtain ⟨hhandler, hheld⟩ := of_decide_eq_true hp
  obtain ⟨h, hh, hhead⟩ := Option.map_eq_some_iff.mp hhandler
  obtain ⟨rest, hcode⟩ := List.head?_eq_some_iff.mp hhead
  exact fun hall => hall s hs () h (.regb 0) hh ⟨rest, hcode⟩ hheld

end BifrostModule.Irq
