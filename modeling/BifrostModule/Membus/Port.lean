import BifrostModule.Membus.Sdram
import BifrostModule.Regb.Bystander

/-! # The SDRAM port under transfers and register ioctls

A transfer is a sequence of bus operations under the mutex `iolock`, while register
ioctls reach the same registers under the spinlocks of the BARs. The operations of
both interleave freely.
-/
namespace BifrostModule.Membus
open Foundation Regb

/-- The operation writes register 0 or 1 of BAR0, or accesses the data port. -/
def PortAccess (op : BusOp) : Prop := op.bar = 1 ∨ (op.Writes 0 ∧ op.addr < 4)

instance (b : Bar) (op : BusOp) : Decidable (op.Writes b) := by
  cases op <;> unfold BusOp.Writes <;> infer_instance

instance (op : BusOp) : Decidable (PortAccess op) := inferInstanceAs (Decidable (_ ∨ _))

def WritesAddress (dev : BifrostDevice) (req : Request) : Prop :=
  req.bar = 0 ∧ req.access &&& wrAccess ≠ 0 ∧ (dev.regb 0).fns.addr (req.offsetAt 0) < 4

instance (dev : BifrostDevice) (req : Request) : Decidable (WritesAddress dev req) :=
  inferInstanceAs (Decidable (_ ∧ _))

def portOps (ops : List BusOp) : List BusOp := ops.filter fun op => PortAccess op

/-- The call of `do_membus_xfer` in a transfer, with its buffer. -/
structure Xfer where
  buf : List (BitVec 8)
  xfer : Dma.Transfer
  dir : Dma.Direction
  deriving DecidableEq

def Xfer.ops (x : Xfer) : List BusOp :=
  programOps x.xfer.device x.dir ++ dataOps x.buf x.xfer.size x.dir

/-- Where a transfer is: before the `mutex_lock`, before its first bus operation, or between two
operations, with the history of the bus before the first and its own operations. -/
inductive XferPhase where
  | waiting
  | locked
  | moving (start done left : List BusOp)

/-- A transfer that has made its last operation, and the history of the bus then. -/
structure Finished where
  xfer : Xfer
  start : List BusOp
  final : List BusOp
  deriving DecidableEq

/-- The register ioctls with the bus and their requests, the holder of `iolock` and the transfers
under way, with the history of the transfers. -/
structure Port where
  regs : Concurrent
  reqs : ℕ → Option Request
  iolock : Option ℕ
  xfers : ℕ → Option (Xfer × XferPhase)
  finished : List Finished

inductive PortLabel where
  | regs (l : IoctlLabel)
  | doXfer (t : ℕ) (x : Xfer)
  | mutexLock (t : ℕ)
  | busOp (t : ℕ)
  | mutexUnlock (t : ℕ)

namespace Port
variable (dev : BifrostDevice) (hw : Hardware)

def log (s : Port) : List BusOp := s.regs.log

def setXfer (s : Port) (t : ℕ) (x : Option (Xfer × XferPhase)) : Port :=
  { s with xfers := Function.update s.xfers t x }

def request (s : Port) : IoctlLabel → ℕ → Option Request
  | .enter t _ req => Function.update s.reqs t (some req)
  | _ => s.reqs

/-- One operation of a transfer on the bus, after those in `done`. -/
def move (s : Port) (t : ℕ) (x : Xfer) (start done : List BusOp) (op : BusOp)
    (left : List BusOp) : Port :=
  { s.setXfer t (some (x, .moving start (done ++ [op]) left)) with
    regs := { s.regs with log := s.log ++ [op] }
    finished := if left = [] then s.finished ++ [⟨x, start, s.log ++ [op]⟩] else s.finished }

def step (s : Port) : PortLabel → Option Port
  | .regs l => (s.regs.step dev hw l).map fun r => { s with regs := r, reqs := s.request l }
  | .doXfer t x =>
    match s.xfers t with
    | none => some (s.setXfer t (some (x, .waiting)))
    | some _ => none
  | .mutexLock t =>
    match s.xfers t, s.iolock with
    | some (x, .waiting), none => some { s.setXfer t (some (x, .locked)) with iolock := some t }
    | _, _ => none
  | .busOp t =>
    match s.xfers t with
    | some (x, .locked) =>
      match x.ops with
      | op :: left => some (s.move t x s.log [] op left)
      | [] => none
    | some (x, .moving start done (op :: left)) => some (s.move t x start done op left)
    | _ => none
  | .mutexUnlock t =>
    match s.xfers t with
    | some (_, .moving _ _ []) => some { s.setXfer t none with iolock := none }
    | _ => none

def initial : Port := ⟨.initial, fun _ => none, none, fun _ => none, []⟩

end Port

def port (dev : BifrostDevice) (hw : Hardware) : Machine Port PortLabel where
  start s := s = .initial
  step s := s.step dev hw

namespace Port
variable {dev : BifrostDevice} {hw : Hardware} {s s' : Port} {t : ℕ}

/-- The transfer that holds `iolock` has made its first operation and not its last. -/
def busy (s : Port) : Bool :=
  match s.iolock.bind s.xfers with
  | some (_, .moving _ _ (_ :: _)) => true
  | _ => false

def fetching (s : Port) (t : ℕ) : Bool :=
  match s.regs.calls t with
  | some ⟨.modify _ _ _ _ :: _, .locked, _⟩ => true
  | _ => false

/-- While a transfer is at the port, the ioctls that take their next step on the bus do not name
BAR1, nor ask to write register 0 or 1 of BAR0 (`MODIFY_REGB` may read them). -/
def Spares (dev : BifrostDevice) (s : Port) : PortLabel → Prop
  | .regs (.access t) => s.busy = true → ∀ req ∈ s.reqs t,
    req.bar ≠ 1 ∧ (s.fetching t = false → ¬ WritesAddress dev req)
  | _ => True

instance (dev : BifrostDevice) (s : Port) (l : PortLabel) : Decidable (s.Spares dev l) := by
  unfold Spares
  split <;> infer_instance

/-- Between the first operation of a transfer and its last, the accesses to the port are its own,
and its halfwords go to or come from the address that it programmed. -/
structure Exclusive (s : Port) : Prop where
  window : ∀ t x start done op left, s.xfers t = some (x, .moving start done (op :: left)) →
    ∃ mid, s.log = start ++ mid ∧ portOps mid = done
  programmed : ∀ t x start done op left, s.xfers t = some (x, .moving start done (op :: left)) →
    op.bar = 1 →
    (regWrites 0 s.log).getLast? = some ((fpgaAddrLo x.xfer.device).setWidth 16) ∧
    (regWrites 1 s.log).getLast? = some ((fpgaAddrHi x.xfer.device ||| dirBit x.dir).setWidth 16)
  finished : ∀ f ∈ s.finished, f.final <+: s.log ∧
    ∃ mid, f.final = f.start ++ mid ∧ portOps mid = f.xfer.ops

/-- The invariant behind it: a transfer at the port holds `iolock`, and the accesses of a register
ioctl are those of its request. -/
structure Inv (s : Port) : Prop where
  requests : ∀ t c a, s.regs.calls t = some c → a ∈ c.todo →
    ∃ req, s.reqs t = some req ∧ req.Makes a
  locked : ∀ t x phase, s.xfers t = some (x, phase) → phase ≠ .waiting → s.iolock = some t
  position : ∀ t x start done left, s.xfers t = some (x, .moving start done left) →
    done ++ left = x.ops
  window : ∀ t x start done op left, s.xfers t = some (x, .moving start done (op :: left)) →
    ∃ mid, s.log = start ++ mid ∧ portOps mid = done
  finished : ∀ f ∈ s.finished, f.final <+: s.log ∧
    ∃ mid, f.final = f.start ++ mid ∧ portOps mid = f.xfer.ops

/-! ## The operations of a transfer use the port -/

theorem portOps_append (ops ops' : List BusOp) :
    portOps (ops ++ ops') = portOps ops ++ portOps ops' :=
  List.filter_append ..

theorem portOps_singleton (op : BusOp) : portOps [op] = if PortAccess op then [op] else [] := by
  by_cases h : PortAccess op <;> simp [portOps, h]

theorem portAccess_ops (x : Xfer) : ∀ op ∈ x.ops, PortAccess op := by
  obtain ⟨buf, xfer, dir⟩ := x
  intro op hop
  rcases List.mem_append.mp hop with hop | hop
  · cases dir with
    | up =>
      simp only [programOps, List.mem_cons, List.not_mem_nil, or_false] at hop
      rcases hop with rfl | rfl | rfl <;> exact .inr ⟨rfl, by simp [BusOp.addr]⟩
    | down =>
      simp only [programOps, List.mem_cons, List.not_mem_nil, or_false] at hop
      rcases hop with rfl | rfl | rfl <;> exact .inr ⟨rfl, by simp [BusOp.addr]⟩
  · cases dir with
    | up =>
      rw [List.eq_of_mem_replicate hop]
      exact .inl rfl
    | down =>
      obtain ⟨i, -, rfl⟩ := List.mem_map.mp hop
      exact .inl rfl

/-! ## What each step can do -/

theorem step_regs {l : IoctlLabel} (h : s.step dev hw (.regs l) = some s') :
    ∃ r, s.regs.step dev hw l = some r ∧ s' = { s with regs := r, reqs := s.request l } := by
  obtain ⟨r, hr, rfl⟩ := Option.map_eq_some_iff.mp h
  exact ⟨r, hr, rfl⟩

theorem step_doXfer {x : Xfer} (h : s.step dev hw (.doXfer t x) = some s') :
    s.xfers t = none ∧ s' = s.setXfer t (some (x, .waiting)) := by
  simp only [step] at h
  split at h
  · rename_i hx
    exact ⟨hx, (Option.some.inj h).symm⟩
  · cases h

theorem step_mutexLock (h : s.step dev hw (.mutexLock t) = some s') :
    ∃ x, s.xfers t = some (x, .waiting) ∧ s.iolock = none ∧
      s' = { s.setXfer t (some (x, .locked)) with iolock := some t } := by
  simp only [step] at h
  split at h
  · rename_i x hx hfree
    exact ⟨x, hx, hfree, (Option.some.inj h).symm⟩
  · cases h

theorem step_busOp (h : s.step dev hw (.busOp t) = some s') :
    (∃ x op left, s.xfers t = some (x, .locked) ∧ x.ops = op :: left ∧
      s' = s.move t x s.log [] op left) ∨
    (∃ x start done op left, s.xfers t = some (x, .moving start done (op :: left)) ∧
      s' = s.move t x start done op left) := by
  simp only [step] at h
  split at h
  · rename_i x hx
    split at h
    · rename_i op left hops
      exact .inl ⟨x, op, left, hx, hops, (Option.some.inj h).symm⟩
    · cases h
  · rename_i x start done op left hx
    exact .inr ⟨x, start, done, op, left, hx, (Option.some.inj h).symm⟩
  · cases h

theorem step_mutexUnlock (h : s.step dev hw (.mutexUnlock t) = some s') :
    ∃ x start done, s.xfers t = some (x, .moving start done []) ∧
      s' = { s.setXfer t none with iolock := none } := by
  simp only [step] at h
  split at h
  · rename_i x start done hx
    exact ⟨x, start, done, hx, (Option.some.inj h).symm⟩
  · cases h

/-! ## The invariant -/

theorem inv_initial : Port.initial.Inv where
  requests _ _ _ h := by cases h
  locked _ _ _ h := by cases h
  position _ _ _ _ _ h := by cases h
  window _ _ _ _ _ _ h := by cases h
  finished _ h := by cases h

theorem Inv.alone (hi : s.Inv) {u : ℕ} {x y : Xfer} {p q : XferPhase}
    (ht : s.xfers t = some (x, p)) (hp : p ≠ .waiting) (hu : s.xfers u = some (y, q))
    (hq : q ≠ .waiting) : u = t :=
  Option.some.inj ((hi.locked u y q hu hq).symm.trans (hi.locked t x p ht hp))

theorem Inv.busy (hi : s.Inv) {x : Xfer} {start done left : List BusOp} {op : BusOp}
    (hx : s.xfers t = some (x, .moving start done (op :: left))) : s.busy = true := by
  simp only [Port.busy, hi.locked t x _ hx nofun, Option.bind_some, hx]

/-- Whatever request an ioctl has brought along, its step on the bus is an access to the port only
if it names the data port, or writes an address register. -/
theorem Inv.harmless (hi : s.Inv) {op : BusOp} (hop : s.regs.pendingOp dev t = some op)
    (hreq : ∀ req ∈ s.reqs t, req.bar ≠ 1 ∧ (s.fetching t = false → ¬ WritesAddress dev req)) :
    ¬ PortAccess op := by
  -- Its request does not name BAR1, so it is not on the data port.
  have hbar : ∀ c a, s.regs.calls t = some c → a ∈ c.todo → a.bar ≠ 1 := by
    intro c a hc ha hone
    obtain ⟨req, hr, hnames, -⟩ := hi.requests t c a hc ha
    refine (hreq req hr).1 (BitVec.eq_of_toNat_eq ?_)
    rw [hnames, hone]
    rfl
  have hread : ∀ c a offset, s.regs.calls t = some c → a ∈ c.todo →
      ¬ PortAccess ((dev.regb a.bar).fns.readOp a.bar offset) := by
    rintro c a offset hc ha (hone | ⟨hwrites, -⟩)
    · exact hbar c a hc ha ((AccessFns.readOp_bar _ _ _).symm.trans hone)
    · revert hwrites
      cases (dev.regb a.bar).fns <;> exact id
  have hwrite : ∀ c a b offset value, s.regs.calls t = some c → a ∈ c.todo →
      a.writesAt = some (b, offset) → a.bar = b → s.fetching t = false →
      ¬ PortAccess ((dev.regb b).fns.writeOp b offset value) := by
    rintro c a b offset value hc ha hat rfl hnow (hone | ⟨hwrites, haddr⟩)
    · exact hbar c a hc ha ((AccessFns.writeOp_bar _ _ _ _).symm.trans hone)
    · obtain ⟨req, hr, hnames, hmakes⟩ := hi.requests t c a hc ha
      obtain ⟨hright, rfl⟩ := hmakes _ _ hat
      have hzero : a.bar = 0 := by
        revert hwrites
        cases (dev.regb a.bar).fns <;> exact id
      rw [hzero] at haddr hnames
      refine (hreq req hr).2 hnow ⟨BitVec.eq_of_toNat_eq hnames, hright, ?_⟩
      revert haddr
      cases (dev.regb 0).fns <;> exact id
  unfold Concurrent.pendingOp at hop
  split at hop
  · rename_i a rest vs hc
    obtain rfl := Option.some.inj hop
    cases a with
    | read b offset => exact hread _ _ _ hc List.mem_cons_self
    | write b offset value =>
      exact hwrite _ _ b _ _ hc List.mem_cons_self rfl rfl (by simp only [fetching, hc])
    | modify b offset clear set => exact hread _ _ _ hc List.mem_cons_self
  · rename_i b offset clear set rest v before vs hc
    obtain rfl := Option.some.inj hop
    exact hwrite _ _ b _ _ hc List.mem_cons_self rfl rfl (by simp only [fetching, hc])
  · cases hop

theorem Inv.requests_step (hi : s.Inv) {l : IoctlLabel} {r : Concurrent}
    (hr : s.regs.step dev hw l = some r) {u : ℕ} {c : Call} {a : Access} (hc : r.calls u = some c)
    (ha : a ∈ c.todo) : ∃ req, s.request l u = some req ∧ req.Makes a := by
  have hkept : ∀ d, s.regs.calls u = some d → a ∈ d.todo → (∀ sys req, l ≠ .enter u sys req) →
      ∃ req, s.request l u = some req ∧ req.Makes a := by
    intro d hd ha hl
    obtain ⟨req, hreq, hmakes⟩ := hi.requests u d a hd ha
    refine ⟨req, ?_, hmakes⟩
    cases l with
    | enter t sys req' =>
      have hut : u ≠ t := fun h => hl sys req' (h ▸ rfl)
      exact (Function.update_of_ne hut _ _).trans hreq
    | _ => exact hreq
  by_cases hu : u = l.thread
  · subst hu
    rcases Concurrent.todo_step hr hc ha with ⟨d, hd, ha⟩ | ⟨t, sys, req, rfl, ha⟩
    · refine hkept d hd ha ?_
      rintro sys req hl
      rw [hl] at hr hd
      obtain ⟨hnone, -⟩ := Concurrent.step_enter hr
      exact absurd (hnone.symm.trans hd) nofun
    · exact ⟨req, Function.update_self t _ _, BifrostDevice.makes_of_mem ha⟩
  · rw [Concurrent.calls_of_ne hr hu] at hc
    refine hkept c hc ha ?_
    rintro sys req rfl
    exact hu rfl

/-- A step of a register ioctl that spares the port. -/
theorem inv_regs (hi : s.Inv) {l : IoctlLabel} {r : Concurrent} (hok : s.Spares dev (.regs l))
    (hr : s.regs.step dev hw l = some r) :
    ({ s with regs := r, reqs := s.request l } : Port).Inv := by
  have hlog : r.log = s.log ∨ ∃ op, r.log = s.log ++ [op] ∧ (s.busy = true → ¬ PortAccess op) := by
    cases l with
    | access t =>
      obtain ⟨op, hop, hlog⟩ := Concurrent.access_log hr
      exact .inr ⟨op, hlog, fun hbusy => hi.harmless hop (hok hbusy)⟩
    | enter t sys req => exact .inl (Concurrent.quiet_log hr nofun)
    | spinLock t => exact .inl (Concurrent.quiet_log hr nofun)
    | spinUnlock t => exact .inl (Concurrent.quiet_log hr nofun)
    | leave t => exact .inl (Concurrent.quiet_log hr nofun)
  refine ⟨fun u c a hc ha => hi.requests_step hr hc ha, hi.locked, hi.position, ?_, ?_⟩
  · intro t x start done op left hx
    obtain ⟨mid, hmid, hport⟩ := hi.window t x start done op left hx
    rcases hlog with hlog | ⟨o, hlog, hspare⟩
    · exact ⟨mid, hlog.trans hmid, hport⟩
    · have hno : portOps [o] = [] := by
        rw [portOps_singleton, if_neg (hspare (hi.busy hx))]
      refine ⟨mid ++ [o], ?_, ?_⟩
      · rw [← List.append_assoc, ← hmid]
        exact hlog
      · rw [portOps_append, hport, hno, List.append_nil]
  · intro f hf
    obtain ⟨hbefore, hwindow⟩ := hi.finished f hf
    refine ⟨?_, hwindow⟩
    rcases hlog with hlog | ⟨o, hlog, -⟩
    · change f.final <+: r.log
      rw [hlog]
      exact hbefore
    · change f.final <+: r.log
      rw [hlog]
      exact hbefore.trans (List.prefix_append _ _)

theorem inv_move (hi : s.Inv) {x : Xfer} {phase : XferPhase} {start done left : List BusOp}
    {op : BusOp} (hx : s.xfers t = some (x, phase)) (hphase : phase ≠ .waiting)
    (hops : done ++ op :: left = x.ops)
    (hwindow : ∃ mid, s.log = start ++ mid ∧ portOps mid = done) :
    (s.move t x start done op left).Inv := by
  obtain ⟨mid, hmid, hport⟩ := hwindow
  have hop : PortAccess op := portAccess_ops x op (by rw [← hops]; simp)
  have hnew : s.log ++ [op] = start ++ (mid ++ [op]) ∧ portOps (mid ++ [op]) = done ++ [op] := by
    constructor
    · rw [hmid, List.append_assoc]
    · rw [portOps_append, hport, portOps_singleton, if_pos hop]
  have hother : ∀ u y p, u ≠ t → s.xfers u = some (y, p) → p = .waiting := by
    intro u y p hut hu
    by_contra hp
    exact hut (hi.alone hx hphase hu hp)
  refine ⟨hi.requests, ?_, ?_, ?_, ?_⟩
  · intro u y p hu hp
    by_cases hut : u = t
    · rw [hut]
      exact hi.locked t x phase hx hphase
    · simp only [move, setXfer, Function.update_of_ne hut] at hu
      exact absurd (hother u y p hut hu) hp
  · intro u y start' done' left' hu
    by_cases hut : u = t
    · rw [hut] at hu
      simp only [move, setXfer, Function.update_self, Option.some.injEq, Prod.mk.injEq,
        XferPhase.moving.injEq] at hu
      obtain ⟨rfl, rfl, rfl, rfl⟩ := hu
      rw [List.append_assoc, List.singleton_append]
      exact hops
    · simp only [move, setXfer, Function.update_of_ne hut] at hu
      exact nomatch hother u y _ hut hu
  · intro u y start' done' op' left' hu
    by_cases hut : u = t
    · rw [hut] at hu
      simp only [move, setXfer, Function.update_self, Option.some.injEq, Prod.mk.injEq,
        XferPhase.moving.injEq] at hu
      obtain ⟨rfl, rfl, rfl, rfl⟩ := hu
      exact ⟨mid ++ [op], hnew⟩
    · simp only [move, setXfer, Function.update_of_ne hut] at hu
      exact nomatch hother u y _ hut hu
  · intro f hf
    have hold : ∀ f ∈ s.finished, f.final <+: s.log ++ [op] ∧
        ∃ mid, f.final = f.start ++ mid ∧ portOps mid = f.xfer.ops := by
      intro f hf
      obtain ⟨hbefore, hthen⟩ := hi.finished f hf
      exact ⟨hbefore.trans (List.prefix_append _ _), hthen⟩
    simp only [move] at hf
    split at hf
    · rename_i hleft
      rcases List.mem_append.mp hf with hf | hf
      · exact hold f hf
      · rw [List.mem_singleton.mp hf]
        refine ⟨List.prefix_refl _, mid ++ [op], hnew.1, ?_⟩
        rw [hnew.2, ← hops, hleft]
    · exact hold f hf

theorem inv_step {l : PortLabel} (hi : s.Inv) (hok : s.Spares dev l)
    (h : s.step dev hw l = some s') : s'.Inv := by
  cases l with
  | regs l =>
    obtain ⟨r, hr, rfl⟩ := step_regs h
    exact inv_regs hi hok hr
  | doXfer t x =>
    obtain ⟨-, rfl⟩ := step_doXfer h
    have hkept : ∀ u y p, (s.setXfer t (some (x, .waiting))).xfers u = some (y, p) →
        p ≠ .waiting → s.xfers u = some (y, p) := by
      intro u y p hu hp
      by_cases hut : u = t
      · rw [hut] at hu
        simp only [setXfer, Function.update_self, Option.some.injEq, Prod.mk.injEq] at hu
        exact absurd hu.2.symm hp
      · simpa only [setXfer, Function.update_of_ne hut] using hu
    exact ⟨hi.requests, fun u y p hu hp => hi.locked u y p (hkept u y p hu hp) hp,
      fun u y start done left hu => hi.position u y start done left (hkept u y _ hu nofun),
      fun u y start done op left hu => hi.window u y start done op left (hkept u y _ hu nofun),
      hi.finished⟩
  | mutexLock t =>
    obtain ⟨x, hx, hfree, rfl⟩ := step_mutexLock h
    -- Nobody holds the mutex, so no other transfer is past its `mutex_lock`.
    have hother : ∀ u y p, u ≠ t → s.xfers u = some (y, p) → p = .waiting := by
      intro u y p _ hu
      by_contra hp
      have hholds := hi.locked u y p hu hp
      rw [hfree] at hholds
      cases hholds
    have hnew : ∀ u y p, Function.update s.xfers t (some (x, XferPhase.locked)) u = some (y, p) →
        p ≠ .waiting → u = t ∧ p = .locked := by
      intro u y p hu hp
      by_cases hut : u = t
      · rw [hut, Function.update_self] at hu
        cases hu
        exact ⟨hut, rfl⟩
      · rw [Function.update_of_ne hut] at hu
        exact absurd (hother u y p hut hu) hp
    exact ⟨hi.requests, fun u y p hu hp => congrArg some (hnew u y p hu hp).1.symm,
      fun u y start done left hu => (nomatch (hnew u y _ hu nofun).2),
      fun u y start done op left hu => (nomatch (hnew u y _ hu nofun).2), hi.finished⟩
  | busOp t =>
    rcases step_busOp h with ⟨x, op, left, hx, hops, rfl⟩ | ⟨x, start, done, op, left, hx, rfl⟩
    · exact inv_move hi hx nofun hops.symm ⟨[], (List.append_nil _).symm, rfl⟩
    · exact inv_move hi hx nofun (hi.position t x start done _ hx)
        (hi.window t x start done op left hx)
  | mutexUnlock t =>
    obtain ⟨x, start, done, hx, rfl⟩ := step_mutexUnlock h
    have hnew : ∀ u y p, Function.update s.xfers t none u = some (y, p) → p = .waiting := by
      intro u y p hu
      by_cases hut : u = t
      · rw [hut, Function.update_self] at hu
        cases hu
      · rw [Function.update_of_ne hut] at hu
        by_contra hp
        exact hut (hi.alone hx nofun hu hp)
    exact ⟨hi.requests, fun u y p hu hp => absurd (hnew u y p hu) hp,
      fun u y start done left hu => (nomatch hnew u y _ hu),
      fun u y start done op left hu => (nomatch hnew u y _ hu), hi.finished⟩

/-! ## Where the halfwords go -/

theorem regWrites_portOps {reg : BitVec 32} (hreg : AccessFns.membusDeviceMemory.addr reg < 4)
    (ops : List BusOp) : regWrites reg (portOps ops) = regWrites reg ops := by
  have hone : ∀ op, ¬ PortAccess op → regWrites reg [op] = [] := by
    intro op hop
    rw [regWrites, List.filterMap_eq_nil_iff]
    intro o ho
    rw [List.mem_singleton.mp ho]
    split
    · rename_i addr value
      refine if_neg fun haddr => hop (.inr ⟨rfl, ?_⟩)
      rw [BusOp.addr, haddr]
      exact hreg
    · rfl
  induction ops with
  | nil => rfl
  | cons op ops ih =>
    rw [← List.singleton_append, portOps_append, regWrites_append, regWrites_append, ih,
      portOps_singleton]
    split
    · rfl
    · rename_i hop
      rw [hone op hop]
      rfl

theorem regWrites_data (reg : BitVec 32) {ops : List BusOp} (hops : ∀ op ∈ ops, op.bar = 1) :
    regWrites reg ops = [] := by
  rw [regWrites, List.filterMap_eq_nil_iff]
  intro op hop
  have hbar := hops op hop
  split
  · cases hbar
  · rfl

theorem bar_programOps (device : BitVec 32) (dir : Dma.Direction) :
    ∀ op ∈ programOps device dir, op.bar = 0 := by
  intro op hop
  cases dir with
  | up =>
    simp only [programOps, List.mem_cons, List.not_mem_nil, or_false] at hop
    rcases hop with rfl | rfl | rfl <;> rfl
  | down =>
    simp only [programOps, List.mem_cons, List.not_mem_nil, or_false] at hop
    rcases hop with rfl | rfl | rfl <;> rfl

theorem bar_dataOps (buf : List (BitVec 8)) (size : BitVec 32) (dir : Dma.Direction) :
    ∀ op ∈ dataOps buf size dir, op.bar = 1 := by
  intro op hop
  cases dir with
  | up =>
    rw [List.eq_of_mem_replicate hop]
    rfl
  | down =>
    obtain ⟨i, -, rfl⟩ := List.mem_map.mp hop
    rfl

/-- Before an operation on the data port the transfer has programmed the address, and has used
nothing but the data port since. -/
theorem programmed_before {x : Xfer} {done left : List BusOp} {op : BusOp}
    (hops : done ++ op :: left = x.ops) (hop : op.bar = 1) :
    ∃ data, done = programOps x.xfer.device x.dir ++ data ∧ ∀ o ∈ data, o.bar = 1 := by
  rcases List.append_eq_append_iff.mp hops with ⟨rest, hprogram, hrest⟩ | ⟨data, hdone, hdata⟩
  · cases rest with
    | nil => exact ⟨[], by rw [hprogram, List.append_nil, List.append_nil], fun _ h => nomatch h⟩
    | cons o rest =>
      obtain ⟨rfl, -⟩ := List.cons.inj hrest
      have hbar := bar_programOps x.xfer.device x.dir op (by rw [hprogram]; simp)
      rw [hop] at hbar
      cases hbar
  · refine ⟨data, hdone, fun o ho => bar_dataOps x.buf x.xfer.size x.dir o ?_⟩
    rw [hdata]
    exact List.mem_append_left _ ho

theorem Inv.exclusive (hi : s.Inv) : s.Exclusive where
  window := hi.window
  programmed t x start done op left hx hop := by
    obtain ⟨mid, hmid, hport⟩ := hi.window t x start done op left hx
    obtain ⟨data, hdone, hdata⟩ := programmed_before (hi.position t x start done _ hx) hop
    have hwrites : ∀ reg, AccessFns.membusDeviceMemory.addr reg < 4 → regWrites reg s.log =
        regWrites reg start ++ regWrites reg (programOps x.xfer.device x.dir) := by
      intro reg hreg
      rw [hmid, regWrites_append, ← regWrites_portOps hreg mid, hport, hdone, regWrites_append,
        regWrites_data reg hdata, List.append_nil]
    obtain ⟨before, hhi, -⟩ := regWrites_programOps_hi x.xfer.device x.dir
    rw [hwrites 0 (by decide), hwrites 1 (by decide), regWrites_programOps_lo, hhi]
    simp
  finished := hi.finished

/-- In every run in which no register ioctl that names BAR1 or asks to write an address register
takes a step on the bus between the first and the last operation of a transfer, transfers have the
port for themselves. -/
theorem port_exclusive (h : (port dev hw).ReachableUnder (Spares dev) s) : s.Exclusive :=
  (Machine.ReachableUnder.invariant (M := port dev hw) (fun _ h => h ▸ inv_initial)
    (fun _ _ _ hi hok h => inv_step hi hok h) h).exclusive

/-- A transfer of two bytes to offset 16, in which a register ioctl on the window of BAR0 comes
between the address and the data. -/
def interleaved (offset : BitVec 32) : List PortLabel :=
  [.doXfer 0 ⟨[1, 2], ⟨0, 16, 2⟩, .down⟩, .mutexLock 0, .busOp 0, .busOp 0, .busOp 0,
    .regs (.enter 1 ⟨true, true, true, true⟩ (.writeRegb 0 offset 64)), .regs (.spinLock 1),
    .regs (.access 1)]

/-- The first transfer, with a write to register 4 before its data, then a write to register 0, and
then a transfer of two bytes from offset 32. -/
theorem port_exclusive_two : ∃ s : Port,
    (port (membusDevice false fun _ => true) memory).ReachableUnder
      (Spares (membusDevice false fun _ => true)) s ∧
    s.finished.map Finished.xfer = [⟨[1, 2], ⟨0, 16, 2⟩, .down⟩, ⟨[0, 0], ⟨0, 32, 2⟩, .up⟩] ∧
    s.log = [.iowrite16 0 2 0, .iowrite16 0 0 16, .iowrite16 0 2 0x8000, .iowrite16 0 8 64,
      .iowrite16 1 0 0x0201, .iowrite16 0 0 64, .iowrite16 0 2 0x8000, .iowrite16 0 0 32,
      .iowrite16 0 2 0, .ioread16 1 0] ∧
    s.Exclusive := by
  have hrun : ((port (membusDevice false fun _ => true) memory).execUnder
      (Spares (membusDevice false fun _ => true)) .initial (interleaved 4 ++
        [.busOp 0, .mutexUnlock 0, .regs (.spinUnlock 1), .regs (.leave 1),
          .regs (.enter 1 ⟨true, true, true, true⟩ (.writeRegb 0 0 64)), .regs (.spinLock 1),
          .regs (.access 1), .doXfer 2 ⟨[0, 0], ⟨0, 32, 2⟩, .up⟩, .mutexLock 2, .busOp 2, .busOp 2,
          .busOp 2, .busOp 2])).map (fun s => (s.finished.map Finished.xfer, s.log)) =
      some ([⟨[1, 2], ⟨0, 16, 2⟩, .down⟩, ⟨[0, 0], ⟨0, 32, 2⟩, .up⟩],
        [.iowrite16 0 2 0, .iowrite16 0 0 16, .iowrite16 0 2 0x8000, .iowrite16 0 8 64,
          .iowrite16 1 0 0x0201, .iowrite16 0 0 64, .iowrite16 0 2 0x8000, .iowrite16 0 0 32,
          .iowrite16 0 2 0, .ioread16 1 0]) := by decide
  obtain ⟨s, hs, hends⟩ := Option.map_eq_some_iff.mp hrun
  obtain ⟨hfinished, hlog⟩ := Prod.mk.inj hends
  have hreach := Machine.ReachableUnder.of_execUnder (.start rfl) hs
  exact ⟨s, hreach, hfinished, hlog, port_exclusive hreach⟩

/-- `WRITE_REGB` on register 0 redirects the data of a transfer that has programmed its address. -/
theorem transfer_redirected : ¬ ∀ (dev : BifrostDevice) (hw : Hardware) (s : Port),
    (port dev hw).Reachable s → s.Exclusive := by
  intro h
  have hrun : ((port (membusDevice false fun _ => true) memory).exec .initial
      (interleaved 0)).map (fun s => (s.xfers 0, (regWrites 0 s.log).getLast?)) =
      some (some (⟨[1, 2], ⟨0, 16, 2⟩, .down⟩, .moving [] (programOps 16 .down)
        [.iowrite16 1 0 0x0201]), some 64) := by rfl
  obtain ⟨s, hs, hx⟩ := Option.map_eq_some_iff.mp hrun
  obtain ⟨hxfer, hlast⟩ := Prod.mk.inj hx
  have hexclusive := h _ _ s (.of_exec (.start rfl) hs)
  obtain ⟨hlo, -⟩ := hexclusive.programmed 0 _ _ _ _ _ hxfer rfl
  rw [hlast] at hlo
  exact absurd hlo (by decide)

end Port
end BifrostModule.Membus
