import BifrostModule.Regb.Modify

/-! # What register ioctls leave alone

Other users of the spinlock of a BAR keep it while ioctls of other threads take their
steps, and the ioctls write only at the offsets of their accesses.
-/
namespace BifrostModule.Regb
open Foundation

def IoctlLabel.thread : IoctlLabel → ℕ
  | enter t _ _ => t
  | spinLock t => t
  | access t => t
  | spinUnlock t => t
  | leave t => t

namespace Access

def writesAt : Access → Option (Bar × BitVec 32)
  | read _ _ => none
  | write b offset _ => some (b, offset)
  | modify b offset _ _ => some (b, offset)

def Spares (dev : BifrostDevice) (bar : Bar) (bytes : ℕ → Prop) (a : Access) : Prop :=
  ∀ offset, a.writesAt = some (bar, offset) → ∀ n, bytes n →
    ¬ ((dev.regb bar).fns.addr offset ≤ n ∧
      n < (dev.regb bar).fns.addr offset + (dev.regb bar).fns.width)

end Access

/-- The access is on the BAR that the request names, and it writes only where the request asks for
the right to write, at the offset of the request. -/
def Request.Makes (req : Request) (a : Access) : Prop :=
  req.bar.toNat = a.bar.val ∧ ∀ b offset, a.writesAt = some (b, offset) →
    req.access &&& wrAccess ≠ 0 ∧ offset = req.offsetAt 0

namespace BifrostDevice
variable {dev : BifrostDevice} {bar offset : BitVec 32} {a : Access}

theorem mem_readAccesses {incr : BitVec 32} {n : ℕ} {i : BitVec 32}
    (h : a ∈ dev.readAccesses bar offset incr n i) : bar.toNat = a.bar.val ∧ a.writesAt = none := by
  induction n generalizing i with
  | zero => cases h
  | succ n ih =>
    rw [readAccesses] at h
    split at h
    · cases h
    · rename_i b hb
      rcases List.mem_cons.mp h with rfl | h
      · exact ⟨((dev.checkBarAccess_ok_iff ..).mp hb).1.1, rfl⟩
      · exact ih h

theorem mem_writeAccesses {buf : List (BitVec 32)} (h : a ∈ dev.writeAccesses bar offset buf) :
    bar.toNat = a.bar.val ∧ a.writesAt = some (a.bar, offset) := by
  induction buf with
  | nil => cases h
  | cons value buf ih =>
    rw [writeAccesses] at h
    split at h
    · cases h
    · rename_i b hb
      rcases List.mem_cons.mp h with rfl | h
      · exact ⟨((dev.checkBarAccess_ok_iff ..).mp hb).1.1, rfl⟩
      · exact ih h

theorem mem_modifyAccess {clear set : BitVec 32} (h : a ∈ dev.modifyAccess bar offset clear set) :
    bar.toNat = a.bar.val ∧ a.writesAt = some (a.bar, offset) := by
  rw [modifyAccess] at h
  split at h
  · cases h
  · rename_i b hb
    rw [List.mem_singleton.mp h]
    exact ⟨((dev.checkBarAccess_ok_iff ..).mp hb).1.1, rfl⟩

/-- The accesses of an ioctl are those that its request makes. -/
theorem makes_of_mem {sys : Services} {req : Request} (h : a ∈ dev.accesses sys req) :
    req.Makes a := by
  have hread : req.bar.toNat = a.bar.val ∧ a.writesAt = none → req.Makes a := by
    rintro ⟨hbar, hno⟩
    exact ⟨hbar, fun b o ho => nomatch hno.symm.trans ho⟩
  have hwrite : ∀ {offset}, req.access &&& wrAccess ≠ 0 → offset = req.offsetAt 0 →
      req.bar.toNat = a.bar.val ∧ a.writesAt = some (a.bar, offset) → req.Makes a := by
    rintro offset hright rfl ⟨hbar, hat⟩
    refine ⟨hbar, fun b o ho => ⟨hright, ?_⟩⟩
    cases hat.symm.trans ho
    rfl
  cases req with
  | readRegb bar offset =>
    rw [accesses] at h
    split at h
    · exact hread (mem_readAccesses h)
    · cases h
  | writeRegb bar offset value =>
    rw [accesses] at h
    split at h
    · exact hwrite (show wrAccess &&& wrAccess ≠ 0 by decide) rfl (mem_writeAccesses h)
    · cases h
  | modifyRegb bar offset clear set =>
    rw [accesses] at h
    split at h
    · exact hwrite (show (rdAccess ||| wrAccess) &&& wrAccess ≠ 0 by decide) rfl
        (mem_modifyAccess h)
    · cases h
  | readRangeRegb bar offset count =>
    rw [accesses] at h
    split at h
    · exact hread (mem_readAccesses h)
    · cases h
  | readRepeatRegb bar offset count =>
    rw [accesses] at h
    split at h
    · exact hread (mem_readAccesses h)
    · cases h
  | writeRepeatRegb bar offset count buf =>
    rw [accesses] at h
    split at h
    · exact hwrite (show wrAccess &&& wrAccess ≠ 0 by decide) rfl (mem_writeAccesses h)
    · cases h

end BifrostDevice

namespace Concurrent
variable {dev : BifrostDevice} {hw : Hardware} {s s' : Concurrent} {l : IoctlLabel}

theorem calls_of_ne (h : s.step dev hw l = some s') {u : ℕ} (hu : u ≠ l.thread) :
    s'.calls u = s.calls u := by
  cases l with
  | enter t sys req =>
    obtain ⟨-, rfl⟩ := step_enter h
    exact Function.update_of_ne hu _ _
  | spinLock t =>
    obtain ⟨a, rest, vs, -, -, rfl⟩ := step_spinLock h
    exact Function.update_of_ne hu _ _
  | access t =>
    rcases step_access h with ⟨a, rest, vs, -, rfl⟩ |
      ⟨b, offset, clear, set, v, before, rest, vs, -, rfl⟩
    · obtain ⟨op, phase, -, -, hcalls, -⟩ := first_spec dev hw s t a rest vs
      rw [hcalls]
      exact Function.update_of_ne hu _ _
    · exact Function.update_of_ne hu _ _
  | spinUnlock t =>
    obtain ⟨a, rest, v, vs, -, rfl⟩ := step_spinUnlock h
    exact Function.update_of_ne hu _ _
  | leave t =>
    obtain ⟨-, rfl⟩ := step_leave h
    exact Function.update_of_ne hu _ _

theorem holder_of_ne (hi : s.Inv dev hw) (h : s.step dev hw l = some s') {u : ℕ} {b : Bar}
    (hu : u ≠ l.thread) (hb : s.holder b = some u) : s'.holder b = some u := by
  cases l with
  | enter t sys req =>
    obtain ⟨-, rfl⟩ := step_enter h
    exact hb
  | spinLock t =>
    obtain ⟨a, rest, vs, -, hfree, rfl⟩ := step_spinLock h
    have hne : b ≠ a.bar := by
      rintro rfl
      rw [hfree] at hb
      cases hb
    exact (Function.update_of_ne hne _ _).trans hb
  | access t =>
    rcases step_access h with ⟨a, rest, vs, -, rfl⟩ |
      ⟨c, offset, clear, set, v, before, rest, vs, -, rfl⟩
    · obtain ⟨op, phase, -, -, -, -, hholder, -⟩ := first_spec dev hw s t a rest vs
      rw [hholder]
      exact hb
    · exact hb
  | spinUnlock t =>
    obtain ⟨a, rest, v, vs, hc, rfl⟩ := step_spinUnlock h
    have hmine := hi.held t a rest _ vs hc nofun
    have hne : b ≠ a.bar := by
      rintro rfl
      rw [hmine] at hb
      exact hu (Option.some.inj hb).symm
    exact (Function.update_of_ne hne _ _).trans hb
  | leave t =>
    obtain ⟨-, rfl⟩ := step_leave h
    exact hb

/-- The accesses that a thread has still to make were its own before the step, or are those of the
ioctl that it enters. -/
theorem todo_step (h : s.step dev hw l = some s') {c : Call} (hc : s'.calls l.thread = some c)
    {a : Access} (ha : a ∈ c.todo) : (∃ d, s.calls l.thread = some d ∧ a ∈ d.todo) ∨
      ∃ t sys req, l = .enter t sys req ∧ a ∈ dev.accesses sys req := by
  cases l with
  | enter t sys req =>
    obtain ⟨-, rfl⟩ := step_enter h
    obtain rfl := Option.some.inj ((Function.update_self t _ s.calls).symm.trans hc)
    exact .inr ⟨t, sys, req, rfl, ha⟩
  | spinLock t =>
    obtain ⟨b, rest, vs, hold, -, rfl⟩ := step_spinLock h
    obtain rfl := Option.some.inj ((Function.update_self t _ s.calls).symm.trans hc)
    exact .inl ⟨_, hold, ha⟩
  | access t =>
    rcases step_access h with ⟨b, rest, vs, hold, rfl⟩ |
      ⟨b, offset, clear, set, v, before, rest, vs, hold, rfl⟩
    · obtain ⟨op, phase, -, -, hcalls, -⟩ := first_spec dev hw s t b rest vs
      rw [hcalls] at hc
      obtain rfl := Option.some.inj ((Function.update_self t _ s.calls).symm.trans hc)
      exact .inl ⟨_, hold, ha⟩
    · obtain rfl := Option.some.inj ((Function.update_self t _ s.calls).symm.trans hc)
      exact .inl ⟨_, hold, ha⟩
  | spinUnlock t =>
    obtain ⟨b, rest, v, vs, hold, rfl⟩ := step_spinUnlock h
    obtain rfl := Option.some.inj ((Function.update_self t _ s.calls).symm.trans hc)
    exact .inl ⟨_, hold, List.mem_cons_of_mem _ ha⟩
  | leave t =>
    obtain ⟨-, rfl⟩ := step_leave h
    exact absurd ((Function.update_self t _ s.calls).symm.trans hc) nofun

/-- A bus operation of an ioctl is a read, or the write of an access that it has still to make. -/
theorem pendingOp_spec {t : ℕ} {op : BusOp} (h : s.pendingOp dev t = some op) :
    (∃ b offset, op = (dev.regb b).fns.readOp b offset) ∨
      ∃ c a b offset value, s.calls t = some c ∧ a ∈ c.todo ∧ a.writesAt = some (b, offset) ∧
        op = (dev.regb b).fns.writeOp b offset value := by
  unfold pendingOp at h
  split at h
  · rename_i a rest vs hc
    obtain rfl := Option.some.inj h
    cases a with
    | read b offset => exact .inl ⟨b, offset, rfl⟩
    | write b offset value => exact .inr ⟨_, _, b, offset, value, hc, List.mem_cons_self, rfl, rfl⟩
    | modify b offset clear set => exact .inl ⟨b, offset, rfl⟩
  · rename_i b offset clear set rest v before vs hc
    obtain rfl := Option.some.inj h
    exact .inr ⟨_, _, b, offset, _, hc, List.mem_cons_self, rfl, rfl⟩
  · cases h

/-- A step adds at most one bus operation to the log, which is that of its thread. -/
theorem log_step (h : s.step dev hw l = some s') : s'.log = s.log ∨
    ∃ op, s.pendingOp dev l.thread = some op ∧ s'.log = s.log ++ [op] := by
  by_cases hl : ∃ t, l = .access t
  · obtain ⟨t, rfl⟩ := hl
    exact .inr (access_log h)
  · exact .inl (quiet_log h fun t ht => hl ⟨t, ht⟩)

/-- A bus operation of another user of the spinlock of a BAR, who holds it. -/
theorem Inv.foreign (hi : s.Inv dev hw) {t : ℕ} {op : BusOp} (ht : s.calls t = none)
    (hop : s.holder op.bar = some t) : Inv dev hw { s with log := s.log ++ [op] } where
  held := hi.held
  fetched u b offset clear set rest v before vs hu := by
    obtain ⟨hv, between, hlog, hbetween⟩ := hi.fetched u b offset clear set rest v before vs hu
    refine ⟨hv, between ++ [op], ?_, ?_⟩
    · change s.log ++ [op] = _
      rw [hlog, List.append_assoc, List.cons_append]
    · intro o ho
      rcases List.mem_append.mp ho with ho | ho
      · exact hbetween o ho
      · rw [List.mem_singleton.mp ho]
        rintro rfl
        have hmine := hi.held u _ _ _ _ hu nofun
        rw [Access.bar, hop, Option.some.injEq] at hmine
        rw [← hmine, ht] at hu
        cases hu
  modified m hm := Uninterrupted.append (hi.modified m hm) [op]

/-- Another user takes a free spinlock or gives back the one that it holds. -/
theorem Inv.setHolder (hi : s.Inv dev hw) {b : Bar} {o : Option ℕ}
    (hb : ∀ u c, s.holder b = some u → s.calls u ≠ some c) :
    Inv dev hw { s with holder := Function.update s.holder b o } where
  held u a rest phase vs hu hp := by
    have hold := hi.held u a rest phase vs hu hp
    have hne : a.bar ≠ b := by
      rintro rfl
      exact hb u _ hold hu
    exact (Function.update_of_ne hne _ _).trans hold
  fetched := hi.fetched
  modified := hi.modified

end Concurrent
end BifrostModule.Regb
