import BifrostModule.Dma.Controller
import BifrostModule.Foundation.InFlight

/-! # Runs of the DMA scheduler

Calls of `start_dma_xfer` and `dma_done` interleave at the boundaries of their
locked sections. The pool of calls in flight records how far each one is.
-/
namespace BifrostModule.Dma
open Foundation Foundation.InFlight

/-- A call between two of its steps. `ret` is the request whose ticket and cookie
`dma_done` is about to return; `start_dma_xfer` has none. -/
inductive Call (ρ : Type*) where
  | kickOff (c : Chan) (req : ρ) (ret : Option ρ)
  | completing (c : Chan) (req : ρ)
  | handingOff (c : Chan) (ret : ρ)
  | returned (ret : ρ)
  deriving DecidableEq

namespace Call
variable {ρ : Type*}

@[simp] def holds : Call ρ → Option Chan
  | .completing c _ => some c
  | .handingOff c _ => some c
  | .kickOff _ _ _ => none
  | .returned _ => none

@[simp] def launches : Call ρ → Option ρ
  | .kickOff _ req _ => some req
  | .completing _ _ => none
  | .handingOff _ _ => none
  | .returned _ => none

@[simp] def frees : Call ρ → Option ρ
  | .completing _ req => some req
  | .kickOff _ _ _ => none
  | .handingOff _ _ => none
  | .returned _ => none

theorem keys_returned {β : Type*} {f : Call ρ → Option β} (hf : ∀ r, f (.returned r) = none)
    (k : Option ρ) : keys f (k.toList.map .returned) = 0 := by
  cases k <;> simp [hf]

end Call

/-- The controller, the calls in flight, and the history of the requests. -/
structure State (ρ : Type*) where
  ctl : DmaCtl ρ
  calls : List (Call ρ)
  submitted : List ρ
  launched : List (Chan × ρ)
  finished : List ρ
  freed : List ρ

inductive Label (ρ : Type*) where
  | submit (req : ρ)
  | interrupt (irq : ℤ)
  | kickOff (c : Chan) (req : ρ) (ret : Option ρ)
  | complete (c : Chan) (req : ρ)
  | handOff (c : Chan) (ret : ρ)
  | ret (req : ρ)

namespace State
variable {ρ : Type*} [DecidableEq ρ]

def submit (s : State ρ) (req : ρ) : State ρ :=
  let p := s.ctl.startDmaXfer req
  { s with
    ctl := p.1
    submitted := s.submitted ++ [req]
    calls := p.2.toList.map (fun c => .kickOff c req none) ++ s.calls }

def take (s : State ρ) (c : Chan) (req : ρ) (ctl : DmaCtl ρ) : State ρ :=
  { s with
    ctl := ctl
    finished := s.finished ++ [req]
    calls := .completing c req :: s.calls }

/-- `kick_off_xfer`, the last act of either function. -/
def kickOff (s : State ρ) (c : Chan) (req : ρ) (ret : Option ρ) : State ρ :=
  { s with
    launched := s.launched ++ [(c, req)]
    calls := replace s.calls (.kickOff c req ret) (ret.toList.map .returned) }

def complete (s : State ρ) (c : Chan) (req : ρ) : State ρ :=
  { s with
    freed := s.freed ++ [req]
    calls := replace s.calls (.completing c req) [.handingOff c req] }

/-- The locked section of `dma_done`. -/
def handOff (s : State ρ) (c : Chan) (ret : ρ) : State ρ :=
  let p := s.ctl.handOff c
  { s with
    ctl := p.1
    calls := replace s.calls (.handingOff c ret)
      [p.2.elim (.returned ret) fun req => .kickOff c req (some ret)] }

def ret (s : State ρ) (req : ρ) : State ρ :=
  { s with calls := replace s.calls (.returned req) [] }

/-- One step. An interrupt that finds a request in progress comes after its kick-off. -/
def step (s : State ρ) : Label ρ → Option (State ρ)
  | .submit req => if req ∈ s.submitted then none else some (s.submit req)
  | .interrupt irq =>
    match s.ctl.takeInProgress irq with
    | none => some s
    | some (c, req, ctl) => if (c, req) ∈ s.launched then some (s.take c req ctl) else none
  | .kickOff c req ret =>
    if .kickOff c req ret ∈ s.calls then some (s.kickOff c req ret) else none
  | .complete c req => if .completing c req ∈ s.calls then some (s.complete c req) else none
  | .handOff c ret => if .handingOff c ret ∈ s.calls then some (s.handOff c ret) else none
  | .ret req => if .returned req ∈ s.calls then some (s.ret req) else none

def initial (ctl : DmaCtl ρ) : State ρ := ⟨ctl, [], [], [], [], []⟩

def OnChannel (s : State ρ) (c : Chan) (r : ρ) : Prop := (s.ctl.ch c).inProgress = some r

end State

inductive Place where
  | pending
  | inProgress (c : Chan)
  | finished
  deriving DecidableEq

def State.At {ρ : Type*} (s : State ρ) (r : ρ) : Place → Prop
  | .pending => r ∈ s.ctl.list
  | .inProgress c => s.OnChannel c r
  | .finished => r ∈ s.finished

/-- The parameters `bifrost_dma_init` can build a controller from. -/
structure Buildable (numCh : ℕ) (idleMap : BitVec 32) (irq : Chan → ℤ) : Prop where
  numCh_le : numCh ≤ maxDmaChannels
  idle_lt : ∀ n, numCh ≤ n → idleMap.getLsbD n = false
  irq_inj : ∀ c d : Chan, c.val < numCh → d.val < numCh → irq c = irq d → c = d

def scheduler (ρ : Type*) [DecidableEq ρ] : Machine (State ρ) (Label ρ) where
  start s := ∃ numCh idleMap irq, Buildable numCh idleMap irq ∧
    s = .initial (.build numCh idleMap irq)
  step := State.step

/-- `bifrost_dma_init` starts the scheduler, whatever its two registers read. -/
theorem start_bifrostDmaInit {ρ : Type*} [DecidableEq ρ] (capability status : BitVec 32)
    (irq : ℤ) :
    (scheduler ρ).start (.initial (DmaCtl.bifrostDmaInit capability status irq)) := by
  have hcap : (capability &&& 0xf#32).toNat < 16 := by
    rw [BitVec.toNat_and]
    exact Nat.lt_succ_of_le Nat.and_le_right
  refine ⟨_, _, _, ⟨?_, ?_, ?_⟩, rfl⟩
  · change _ ≤ 32
    omega
  · intro n hn
    rw [BitVec.getLsbD_and, Foundation.Bitmap.getLsbD_lowMask (by omega),
      decide_eq_false (Nat.not_lt.mpr hn), Bool.and_false]
  · intro c d _ _ h
    have hcd : (c.val : ℤ) = d.val := by simpa using h
    exact Fin.ext (by exact_mod_cast hcd)

end BifrostModule.Dma
