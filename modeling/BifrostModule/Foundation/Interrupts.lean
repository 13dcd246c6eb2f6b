import BifrostModule.Foundation.Machine

/-! # Spinlocks, interrupts and preemption

Any number of CPUs run straight-line code that takes and releases locks, masks
interrupts and acts on a device. An interrupt handler may run on top of a task
whose interrupts are not masked, and an action may extend the code by what is
to be done next. The rule: if tasks hold the locks of the handlers only with
interrupts masked, no handler spins on a lock of the task below it.
-/
namespace BifrostModule.Foundation.Interrupts

/-- Instructions over locks `ℓ` and device actions `δ`. -/
inductive Instr (ℓ δ : Type*) where
  | spinLock (l : ℓ)
  | spinUnlock (l : ℓ)
  | irqSave
  | irqRestore
  | act (d : δ)
  deriving DecidableEq

variable {κ ℓ δ α η σ : Type*}

def spinLockIrqsave (l : ℓ) : List (Instr ℓ δ) := [.irqSave, .spinLock l]

def spinUnlockIrqrestore (l : ℓ) : List (Instr ℓ δ) := [.spinUnlock l, .irqRestore]

def Instr.takes : Instr ℓ δ → Option ℓ
  | .spinLock l => some l
  | .spinUnlock _ => none
  | .irqSave => none
  | .irqRestore => none
  | .act _ => none

def takes (code : List (Instr ℓ δ)) : List ℓ := code.filterMap Instr.takes

/-- A thread of control: what is left to run, the locks it holds, and its interrupt mask with the
masks saved below it. -/
structure Context (ℓ δ : Type*) where
  code : List (Instr ℓ δ)
  held : List ℓ
  irqsOff : Bool
  saved : List Bool

def Context.idle : Context ℓ δ := ⟨[], [], false, []⟩

def Context.Tries (x : Context ℓ δ) (l : ℓ) : Prop := ∃ rest, x.code = .spinLock l :: rest

/-- A task and the handler that has interrupted it. -/
structure Cpu (ℓ δ : Type*) where
  task : Context ℓ δ
  handler : Option (Context ℓ δ)

/-- The CPUs, the locks that are taken, the tasks that wait for a CPU, and the device. -/
structure System (κ ℓ δ σ : Type*) where
  cpu : κ → Cpu ℓ δ
  locked : ℓ → Bool
  waiting : List (Context ℓ δ)
  dev : σ

/-- The code of the calls and of the interrupt handlers; an action yields the device after it and
the code that it adds. -/
structure Program (α η ℓ δ σ : Type*) where
  call : α → List (Instr ℓ δ)
  handler : η → List (Instr ℓ δ)
  act : σ → δ → σ × List (Instr ℓ δ)

inductive Label (κ α η : Type*) where
  | call (k : κ) (a : α)
  | run (k : κ)
  | interrupt (k : κ) (i : η)
  | iret (k : κ)
  | preempt (k : κ)
  | resume (k : κ) (n : ℕ)

/-- The next instruction of a context; a lock that is taken is waited for. -/
def Context.exec [DecidableEq ℓ] (P : Program α η ℓ δ σ) (x : Context ℓ δ) (locked : ℓ → Bool)
    (dev : σ) : Option (Context ℓ δ × (ℓ → Bool) × σ) :=
  match x.code with
  | [] => none
  | .spinLock l :: rest =>
    if locked l then none
    else some ({ x with code := rest, held := l :: x.held }, Function.update locked l true, dev)
  | .spinUnlock l :: rest =>
    some ({ x with code := rest, held := x.held.erase l }, Function.update locked l false, dev)
  | .irqSave :: rest =>
    some ({ x with code := rest, irqsOff := true, saved := x.irqsOff :: x.saved }, locked, dev)
  | .irqRestore :: rest =>
    some ({ x with code := rest, irqsOff := x.saved.headD false, saved := x.saved.tail },
      locked, dev)
  | .act d :: rest => some ({ x with code := rest ++ (P.act dev d).2 }, locked, (P.act dev d).1)

namespace System
variable [DecidableEq κ] [DecidableEq ℓ]

def setCpu (s : System κ ℓ δ σ) (k : κ) (c : Cpu ℓ δ) : System κ ℓ δ σ :=
  { s with cpu := Function.update s.cpu k c }

/-- One step. A task leaves its CPU only while it holds no lock and its interrupts are not
masked, and a handler runs to its end. -/
def step (P : Program α η ℓ δ σ) (s : System κ ℓ δ σ) : Label κ α η → Option (System κ ℓ δ σ)
  | .call k a =>
    if (s.cpu k).handler.isNone ∧ (s.cpu k).task.code.isEmpty then
      some (s.setCpu k ⟨{ (s.cpu k).task with code := P.call a }, none⟩)
    else none
  | .run k =>
    match (s.cpu k).handler with
    | some h =>
      (h.exec P s.locked s.dev).map fun r =>
        { s.setCpu k ⟨(s.cpu k).task, some r.1⟩ with locked := r.2.1, dev := r.2.2 }
    | none =>
      ((s.cpu k).task.exec P s.locked s.dev).map fun r =>
        { s.setCpu k ⟨r.1, none⟩ with locked := r.2.1, dev := r.2.2 }
  | .interrupt k i =>
    if (s.cpu k).handler.isNone ∧ (s.cpu k).task.irqsOff = false then
      some (s.setCpu k ⟨(s.cpu k).task, some ⟨P.handler i, [], true, []⟩⟩)
    else none
  | .iret k =>
    match (s.cpu k).handler with
    | some h => if h.code.isEmpty then some (s.setCpu k ⟨(s.cpu k).task, none⟩) else none
    | none => none
  | .preempt k =>
    if (s.cpu k).handler.isNone ∧ (s.cpu k).task.held.isEmpty ∧ (s.cpu k).task.irqsOff = false then
      some { s.setCpu k ⟨.idle, none⟩ with waiting := s.waiting ++ [(s.cpu k).task] }
    else none
  | .resume k n =>
    if (s.cpu k).handler.isNone ∧ (s.cpu k).task.code.isEmpty then
      (s.waiting[n]?).map fun x =>
        { s.setCpu k ⟨x, none⟩ with waiting := s.waiting.eraseIdx n }
    else none

def initial (dev : σ) : System κ ℓ δ σ := ⟨fun _ => ⟨.idle, none⟩, fun _ => false, [], dev⟩

/-- No handler is about to take a lock that the task it has interrupted holds. -/
def Safe (s : System κ ℓ δ σ) : Prop :=
  ∀ k h l, (s.cpu k).handler = some h → h.Tries l → l ∉ (s.cpu k).task.held

end System

/-- Code that a task can run with these locks and this mask: the locks of `S` are taken only with
interrupts masked, and the mask is lifted once no lock is held. -/
inductive Disciplined (P : Program α η ℓ δ σ) (S : ℓ → Prop) [DecidableEq ℓ] :
    List ℓ → Bool → List (Instr ℓ δ) → Prop where
  | done : Disciplined P S [] false []
  | lock {held : List ℓ} {l : ℓ} {off : Bool} {rest : List (Instr ℓ δ)}
      (hl : S l → off = true) (h : Disciplined P S (l :: held) off rest) :
      Disciplined P S held off (.spinLock l :: rest)
  | unlock {held : List ℓ} {l : ℓ} {off : Bool} {rest : List (Instr ℓ δ)}
      (h : Disciplined P S (held.erase l) off rest) :
      Disciplined P S held off (.spinUnlock l :: rest)
  | save {rest : List (Instr ℓ δ)} (h : Disciplined P S [] true rest) :
      Disciplined P S [] false (.irqSave :: rest)
  | restore {rest : List (Instr ℓ δ)} (h : Disciplined P S [] false rest) :
      Disciplined P S [] true (.irqRestore :: rest)
  | act {held : List ℓ} {off : Bool} {d : δ} {rest : List (Instr ℓ δ)}
      (h : ∀ dev, Disciplined P S held off (rest ++ (P.act dev d).2)) :
      Disciplined P S held off (.act d :: rest)

def machine [DecidableEq κ] [DecidableEq ℓ] (P : Program α η ℓ δ σ) (start : σ → Prop) :
    Machine (System κ ℓ δ σ) (Label κ α η) where
  start s := ∃ dev, start dev ∧ s = .initial dev
  step := System.step P

def ActsIn (Q : δ → Prop) (code : List (Instr ℓ δ)) : Prop := ∀ d, .act d ∈ code → Q d

/-- An action of a handler adds code that takes locks of `S`, or locks that the interrupted task
does not hold. -/
def Clear (P : Program α η ℓ δ σ) (S : ℓ → Prop) (Q : δ → Prop) (s : System κ ℓ δ σ) :
    Label κ α η → Prop
  | .run k => ∀ h d rest, (s.cpu k).handler = some h → h.code = .act d :: rest → Q d →
      ∀ l ∈ takes (P.act s.dev d).2, S l ∨ l ∉ (s.cpu k).task.held
  | _ => True

theorem mem_takes {l : ℓ} {code : List (Instr ℓ δ)} : l ∈ takes code ↔ .spinLock l ∈ code := by
  rw [takes, List.mem_filterMap]
  constructor
  · rintro ⟨i, hi, htakes⟩
    cases i <;> cases htakes
    exact hi
  · exact fun h => ⟨_, h, rfl⟩

theorem Context.Tries.takes {x : Context ℓ δ} {l : ℓ} (h : x.Tries l) : l ∈ takes x.code := by
  obtain ⟨rest, hcode⟩ := h
  rw [hcode, mem_takes]
  exact List.mem_cons_self

/-- A handler has interrupted the task where it may, and will not take a lock of it. -/
structure HandlerOk (Q : δ → Prop) (x h : Context ℓ δ) : Prop where
  unmasked : x.irqsOff = false
  acts : ActsIn Q h.code
  apart : ∀ l ∈ Interrupts.takes h.code, l ∉ x.held

section Rule
variable [DecidableEq ℓ] {P : Program α η ℓ δ σ} {S : ℓ → Prop} {Q : δ → Prop}
variable {s t : System κ ℓ δ σ} {k : κ} {x y : Context ℓ δ}

/-- A task runs disciplined code, and holds locks of `S` only with interrupts masked. -/
structure TaskOk (P : Program α η ℓ δ σ) (S : ℓ → Prop) (x : Context ℓ δ) : Prop where
  code : Disciplined P S x.held x.irqsOff x.code
  saved : x.irqsOff = true → x.saved.headD false = false
  masked : ∀ l ∈ x.held, S l → x.irqsOff = true

theorem taskOk_idle : TaskOk P S (Context.idle : Context ℓ δ) :=
  ⟨.done, by simp [Context.idle], by simp [Context.idle]⟩

/-- A task with nothing left to run holds nothing and masks nothing. -/
theorem TaskOk.finished (hx : TaskOk P S x) (hcode : x.code = []) :
    x.held = [] ∧ x.irqsOff = false := by
  obtain ⟨code, held, off, saved⟩ := x
  obtain ⟨hd, -, -⟩ := hx
  dsimp only at hcode hd ⊢
  subst hcode
  cases hd
  exact ⟨rfl, rfl⟩

theorem TaskOk.exec (hx : TaskOk P S x) {locked locked' : ℓ → Bool} {dev dev' : σ}
    (h : x.exec P locked dev = some (y, locked', dev')) : TaskOk P S y := by
  obtain ⟨code, held, off, saved⟩ := x
  obtain ⟨hcode, hsaved, hmasked⟩ := hx
  dsimp only at hcode hsaved hmasked
  cases hcode with
  | done => simp [Context.exec] at h
  | lock hl hrest =>
    simp only [Context.exec] at h
    obtain ⟨-, heq⟩ := Option.ite_none_left_eq_some.mp h
    obtain ⟨rfl, -⟩ := Prod.mk.inj (Option.some.inj heq)
    refine ⟨hrest, hsaved, fun l hmem hS => ?_⟩
    rcases List.mem_cons.mp hmem with rfl | hmem
    · exact hl hS
    · exact hmasked l hmem hS
  | unlock hrest =>
    obtain ⟨rfl, -⟩ := Prod.mk.inj (Option.some.inj h)
    exact ⟨hrest, hsaved, fun l hmem hS => hmasked l (List.mem_of_mem_erase hmem) hS⟩
  | save hrest =>
    obtain ⟨rfl, -⟩ := Prod.mk.inj (Option.some.inj h)
    exact ⟨hrest, fun _ => rfl, fun _ hmem _ => rfl⟩
  | restore hrest =>
    obtain ⟨rfl, -⟩ := Prod.mk.inj (Option.some.inj h)
    dsimp only
    rw [hsaved rfl]
    exact ⟨hrest, by simp, by simp⟩
  | act hrest =>
    obtain ⟨rfl, -⟩ := Prod.mk.inj (Option.some.inj h)
    exact ⟨hrest dev, hsaved, hmasked⟩

/-- What is left to run after an instruction was left before it, or was added by an action. -/
theorem mem_exec {locked locked' : ℓ → Bool} {dev dev' : σ}
    (h : x.exec P locked dev = some (y, locked', dev')) {i : Instr ℓ δ} (hi : i ∈ y.code) :
    i ∈ x.code ∨ ∃ d rest, x.code = .act d :: rest ∧ i ∈ (P.act dev d).2 := by
  obtain ⟨code, held, off, saved⟩ := x
  cases code with
  | nil => simp [Context.exec] at h
  | cons j rest =>
    cases j with
    | spinLock l =>
      simp only [Context.exec] at h
      obtain ⟨-, heq⟩ := Option.ite_none_left_eq_some.mp h
      obtain ⟨rfl, -⟩ := Prod.mk.inj (Option.some.inj heq)
      exact .inl (List.mem_cons_of_mem _ hi)
    | act d =>
      obtain ⟨rfl, -⟩ := Prod.mk.inj (Option.some.inj h)
      rcases List.mem_append.mp hi with hi | hi
      · exact .inl (List.mem_cons_of_mem _ hi)
      · exact .inr ⟨d, rest, rfl, hi⟩
    | _ =>
      obtain ⟨rfl, -⟩ := Prod.mk.inj (Option.some.inj h)
      exact .inl (List.mem_cons_of_mem _ hi)

/-- An action that is clear of the interrupted task keeps the handler so. -/
theorem HandlerOk.exec {h h' : Context ℓ δ} (hh : HandlerOk Q x h) (hx : TaskOk P S x)
    (hact : ∀ dev d, Q d → ActsIn Q (P.act dev d).2) {locked locked' : ℓ → Bool} {dev dev' : σ}
    (hexec : h.exec P locked dev = some (h', locked', dev'))
    (hclear : ∀ d rest, h.code = .act d :: rest → Q d →
      ∀ l ∈ takes (P.act dev d).2, S l ∨ l ∉ x.held) : HandlerOk Q x h' := by
  refine ⟨hh.unmasked, fun d hd => ?_, fun l hl hmem => ?_⟩
  · rcases mem_exec hexec hd with hd | ⟨d', rest, hcode, hd⟩
    · exact hh.acts d hd
    · exact hact dev d' (hh.acts d' (hcode ▸ List.mem_cons_self)) d hd
  · rcases mem_exec hexec (mem_takes.mp hl) with hl | ⟨d, rest, hcode, hl⟩
    · exact hh.apart l (mem_takes.mpr hl) hmem
    · have hq : Q d := hh.acts d (hcode ▸ List.mem_cons_self)
      rcases hclear d rest hcode hq l (mem_takes.mpr hl) with hS | hnot
      · have hoff := hx.masked l hmem hS
        rw [hh.unmasked] at hoff
        cases hoff
      · exact hnot hmem

structure Ok (P : Program α η ℓ δ σ) (S : ℓ → Prop) (Q : δ → Prop) (s : System κ ℓ δ σ) :
    Prop where
  task : ∀ k, TaskOk P S (s.cpu k).task
  handler : ∀ k h, (s.cpu k).handler = some h → HandlerOk Q (s.cpu k).task h
  waiting : ∀ x ∈ s.waiting, TaskOk P S x

theorem Ok.safe (hs : Ok P S Q s) : s.Safe := fun k h _ hh htries =>
  (hs.handler k h hh).apart _ htries.takes

theorem ok_initial (dev : σ) : Ok P S Q (System.initial dev : System κ ℓ δ σ) :=
  ⟨fun _ => taskOk_idle, by simp [System.initial], by simp [System.initial]⟩

variable [DecidableEq κ]

theorem Ok.setCpu (hs : Ok P S Q s) {c : Cpu ℓ δ} (hcpu : t.cpu = Function.update s.cpu k c)
    (htask : TaskOk P S c.task) (hhandler : ∀ h, c.handler = some h → HandlerOk Q c.task h)
    (hwaiting : ∀ x ∈ t.waiting, TaskOk P S x) : Ok P S Q t := by
  refine ⟨fun j => ?_, fun j h hj => ?_, hwaiting⟩
  · rw [hcpu]
    by_cases hjk : j = k
    · rw [hjk, Function.update_self]
      exact htask
    · rw [Function.update_of_ne hjk]
      exact hs.task j
  · rw [hcpu] at hj ⊢
    by_cases hjk : j = k
    · rw [hjk, Function.update_self] at hj ⊢
      exact hhandler h hj
    · rw [Function.update_of_ne hjk] at hj ⊢
      exact hs.handler j h hj

theorem ok_step (hcall : ∀ a, Disciplined P S [] false (P.call a))
    (hirq : ∀ i, ActsIn Q (P.handler i) ∧ ∀ l ∈ takes (P.handler i), S l)
    (hact : ∀ dev d, Q d → ActsIn Q (P.act dev d).2) (hs : Ok P S Q s) {a : Label κ α η}
    (hok : Clear P S Q s a) (hst : s.step P a = some t) : Ok P S Q t := by
  cases a with
  | call k a =>
    obtain ⟨⟨-, hcode⟩, ⟨⟩⟩ := Option.ite_none_right_eq_some.mp hst
    obtain ⟨hheld, hoff⟩ := (hs.task k).finished (List.isEmpty_iff.mp hcode)
    refine hs.setCpu rfl ⟨?_, ?_, ?_⟩ nofun hs.waiting
    · rw [hheld, hoff]
      exact hcall a
    · simp [hoff]
    · simp [hheld]
  | run k =>
    simp only [System.step] at hst
    split at hst
    · rename_i h hh
      obtain ⟨⟨y, locked, dev⟩, hexec, rfl⟩ := Option.map_eq_some_iff.mp hst
      refine hs.setCpu rfl (hs.task k) ?_ hs.waiting
      rintro _ ⟨⟩
      exact (hs.handler k h hh).exec (hs.task k) hact hexec fun d rest hcode hq =>
        hok h d rest hh hcode hq
    · obtain ⟨⟨y, locked, dev⟩, hexec, rfl⟩ := Option.map_eq_some_iff.mp hst
      exact hs.setCpu rfl ((hs.task k).exec hexec) nofun hs.waiting
  | interrupt k i =>
    obtain ⟨⟨-, hoff⟩, ⟨⟩⟩ := Option.ite_none_right_eq_some.mp hst
    refine hs.setCpu rfl (hs.task k) ?_ hs.waiting
    rintro _ ⟨⟩
    refine ⟨hoff, (hirq i).1, fun l hl hmem => ?_⟩
    have hon := (hs.task k).masked l hmem ((hirq i).2 l hl)
    rw [hoff] at hon
    cases hon
  | iret k =>
    simp only [System.step] at hst
    split at hst
    · obtain ⟨-, ⟨⟩⟩ := Option.ite_none_right_eq_some.mp hst
      exact hs.setCpu rfl (hs.task k) nofun hs.waiting
    · cases hst
  | preempt k =>
    obtain ⟨-, ⟨⟩⟩ := Option.ite_none_right_eq_some.mp hst
    refine hs.setCpu rfl taskOk_idle nofun ?_
    intro x hx
    rcases List.mem_append.mp hx with hx | hx
    · exact hs.waiting x hx
    · exact List.mem_singleton.mp hx ▸ hs.task k
  | resume k n =>
    obtain ⟨-, hst⟩ := Option.ite_none_right_eq_some.mp hst
    obtain ⟨x, hx, rfl⟩ := Option.map_eq_some_iff.mp hst
    refine hs.setCpu rfl (hs.waiting x (List.mem_of_getElem? hx)) nofun ?_
    exact fun y hy => hs.waiting y (List.mem_of_mem_eraseIdx hy)

/-- Tasks that hold the locks of the handlers only with interrupts masked are never interrupted by
a handler that takes a lock of theirs. -/
theorem safe_of_disciplined (hcall : ∀ a, Disciplined P S [] false (P.call a))
    (hirq : ∀ i, ActsIn Q (P.handler i) ∧ ∀ l ∈ takes (P.handler i), S l)
    (hact : ∀ dev d, Q d → ActsIn Q (P.act dev d).2) {start : σ → Prop}
    (h : (machine P start).ReachableUnder (Clear P S Q) s) : s.Safe := by
  apply Ok.safe (P := P) (S := S) (Q := Q)
  apply h.invariant
  · rintro _ ⟨dev, -, rfl⟩
    exact ok_initial dev
  · exact fun _ _ _ hs hok hst => ok_step hcall hirq hact hs hok hst

end Rule
end BifrostModule.Foundation.Interrupts
