import BifrostModule.Regb.Concurrent

/-! # `MODIFY_REGB` is atomic

The spinlock of the BAR is held from the read of `do_modify_regb` to its write, so no
other ioctl touches the BAR in between. The value that the ioctl returns is computed
in 32 bits, whatever the width of the register.
-/
namespace BifrostModule.Regb
open Foundation

def BusOp.Writes (b : Bar) : BusOp → Prop
  | ioread32 _ _ => False
  | ioread16 _ _ => False
  | iowrite32 c _ _ => c = b
  | iowrite16 c _ _ => c = b

def AccessFns.narrow : AccessFns → BitVec 32 → BitVec 32
  | deviceMemory, v => v
  | membusDeviceMemory, v => (v.setWidth 16).setWidth 32

namespace BifrostDevice
variable (dev : BifrostDevice) (hw : Hardware)

/-- What `READ_REGB` returns for the register after the operations in the log. -/
def content (b : Bar) (offset : BitVec 32) (log : List BusOp) : BitVec 32 :=
  ((dev.regb b).fns.rd hw b offset log).1

/-- A BAR of plain registers: a register holds what was written to it last, and only writes to the
BAR change its registers. -/
structure PlainRegisters (b : Bar) : Prop where
  written : ∀ log offset value, dev.content hw b offset
    (log ++ [(dev.regb b).fns.writeOp b offset value]) = (dev.regb b).fns.narrow value
  kept : ∀ log offset op, ¬ op.Writes b →
    dev.content hw b offset (log ++ [op]) = dev.content hw b offset log

variable {dev hw}

theorem PlainRegisters.kept_append {b : Bar} (hplain : dev.PlainRegisters hw b)
    (offset : BitVec 32) (log : List BusOp) {ops : List BusOp} (hops : ∀ op ∈ ops, ¬ op.Writes b) :
    dev.content hw b offset (log ++ ops) = dev.content hw b offset log := by
  induction ops generalizing log with
  | nil => rw [List.append_nil]
  | cons op ops ih =>
    have hop := hplain.kept log offset op (hops op List.mem_cons_self)
    rw [← List.singleton_append, ← List.append_assoc,
      ih _ fun o ho => hops o (List.mem_cons_of_mem _ ho), hop]

theorem narrow_content (dev : BifrostDevice) (hw : Hardware) (b : Bar) (offset : BitVec 32)
    (log : List BusOp) :
    (dev.regb b).fns.narrow (dev.content hw b offset log) = dev.content hw b offset log := by
  unfold content AccessFns.rd
  cases (dev.regb b).fns with
  | deviceMemory => rfl
  | membusDeviceMemory =>
    apply BitVec.eq_of_toNat_eq
    simp [AccessFns.narrow]

end BifrostDevice

def Access.firstOp (dev : BifrostDevice) : Access → BusOp
  | read b offset => (dev.regb b).fns.readOp b offset
  | write b offset value => (dev.regb b).fns.writeOp b offset value
  | modify b offset _ _ => (dev.regb b).fns.readOp b offset

namespace Modified
variable (dev : BifrostDevice) (hw : Hardware)

def readOp (m : Modified) : BusOp := (dev.regb m.bar).fns.readOp m.bar m.offset

def writeOp (m : Modified) : BusOp := (dev.regb m.bar).fns.writeOp m.bar m.offset m.value

/-- No other operation on the BAR comes between the read and the write, which writes the value
computed from the one read. -/
def Uninterrupted (m : Modified) (log : List BusOp) : Prop :=
  ∃ between after, m.atWrite = m.before ++ m.readOp dev :: between ∧
    (∀ op ∈ between, op.bar ≠ m.bar) ∧
    m.value = (dev.content hw m.bar m.offset m.before &&& ~~~m.clear) ||| m.set ∧
    log = m.atWrite ++ m.writeOp dev :: after

/-- The ioctl replaces the content of the register by the modified one, at the width of the
register, with no other write to the BAR between its read and its write, and returns what the
register holds then. -/
structure Exact (m : Modified) (log : List BusOp) : Prop where
  history : ∃ between after, log = m.before ++ m.readOp dev :: between ++ m.writeOp dev :: after ∧
    m.atWrite = m.before ++ m.readOp dev :: between ∧ ∀ op ∈ between, ¬ op.Writes m.bar
  replaced : dev.content hw m.bar m.offset (m.atWrite ++ [m.writeOp dev]) =
    (dev.regb m.bar).fns.narrow
      ((dev.content hw m.bar m.offset m.atWrite &&& ~~~m.clear) ||| m.set)
  reported : m.value = dev.content hw m.bar m.offset (m.atWrite ++ [m.writeOp dev])

end Modified

namespace Concurrent
variable {dev : BifrostDevice} {hw : Hardware} {s s' : Concurrent} {t : ℕ}

/-! ## What each step can do -/

theorem step_enter {sys : Services} {req : Request}
    (h : s.step dev hw (.enter t sys req) = some s') :
    s.calls t = none ∧ s' = s.setCall t (some ⟨dev.accesses sys req, .waiting, []⟩) := by
  simp only [step] at h
  split at h
  · rename_i hc
    exact ⟨hc, (Option.some.inj h).symm⟩
  · cases h

theorem step_spinLock (h : s.step dev hw (.spinLock t) = some s') :
    ∃ a rest vs, s.calls t = some ⟨a :: rest, .waiting, vs⟩ ∧ s.holder a.bar = none ∧
      s' = { s.setCall t (some ⟨a :: rest, .locked, vs⟩) with
        holder := Function.update s.holder a.bar (some t) } := by
  simp only [step] at h
  split at h
  · rename_i a rest vs hc
    split at h
    · rename_i hfree
      exact ⟨a, rest, vs, hc, hfree, (Option.some.inj h).symm⟩
    · cases h
  · cases h

theorem step_access (h : s.step dev hw (.access t) = some s') :
    (∃ a rest vs, s.calls t = some ⟨a :: rest, .locked, vs⟩ ∧ s' = s.first dev hw t a rest vs) ∨
    (∃ b offset clear set v before rest vs,
      s.calls t = some ⟨.modify b offset clear set :: rest, .fetched v before, vs⟩ ∧
      s' = s.modify dev t b offset clear set v before rest vs) := by
  simp only [step] at h
  split at h
  · rename_i a rest vs hc
    exact .inl ⟨a, rest, vs, hc, (Option.some.inj h).symm⟩
  · rename_i b offset clear set rest v before vs hc
    exact .inr ⟨b, offset, clear, set, v, before, rest, vs, hc, (Option.some.inj h).symm⟩
  · cases h

theorem step_spinUnlock (h : s.step dev hw (.spinUnlock t) = some s') :
    ∃ a rest v vs, s.calls t = some ⟨a :: rest, .accessed v, vs⟩ ∧
      s' = { s.setCall t (some ⟨rest, .waiting, vs ++ a.returned v⟩) with
        holder := Function.update s.holder a.bar none } := by
  simp only [step] at h
  split at h
  · rename_i a rest v vs hc
    exact ⟨a, rest, v, vs, hc, (Option.some.inj h).symm⟩
  · cases h

theorem step_leave (h : s.step dev hw (.leave t) = some s') :
    (∃ vs, s.calls t = some ⟨[], .waiting, vs⟩) ∧ s' = s.setCall t none := by
  simp only [step] at h
  split at h
  · rename_i vs hc
    exact ⟨⟨vs, hc⟩, (Option.some.inj h).symm⟩
  · cases h

def pendingOp (dev : BifrostDevice) (s : Concurrent) (t : ℕ) : Option BusOp :=
  match s.calls t with
  | some ⟨a :: _, .locked, _⟩ => some (a.firstOp dev)
  | some ⟨.modify b offset clear set :: _, .fetched v _, _⟩ =>
    some ((dev.regb b).fns.writeOp b offset ((v &&& ~~~clear) ||| set))
  | _ => none

theorem access_log (h : s.step dev hw (.access t) = some s') :
    ∃ op, s.pendingOp dev t = some op ∧ s'.log = s.log ++ [op] := by
  rcases step_access h with ⟨a, rest, vs, hc, rfl⟩ |
    ⟨b, offset, clear, set, v, before, rest, vs, hc, rfl⟩
  · refine ⟨a.firstOp dev, by simp only [pendingOp, hc], ?_⟩
    cases a with
    | read b offset => exact AccessFns.rd_log _ _ _ _ _
    | write b offset value => rfl
    | modify b offset clear set => exact AccessFns.rd_log _ _ _ _ _
  · exact ⟨_, by simp only [pendingOp, hc], rfl⟩

theorem quiet_log {l : IoctlLabel} (h : s.step dev hw l = some s')
    (hl : ∀ t, l ≠ .access t) : s'.log = s.log := by
  cases l with
  | enter t sys req =>
    obtain ⟨-, rfl⟩ := step_enter h
    rfl
  | spinLock t =>
    obtain ⟨a, rest, vs, -, -, rfl⟩ := step_spinLock h
    rfl
  | access t => exact absurd rfl (hl t)
  | spinUnlock t =>
    obtain ⟨a, rest, v, vs, -, rfl⟩ := step_spinUnlock h
    rfl
  | leave t =>
    obtain ⟨-, rfl⟩ := step_leave h
    rfl

theorem first_spec (dev : BifrostDevice) (hw : Hardware) (s : Concurrent) (t : ℕ)
    (a : Access) (rest : List Access)
    (vs : List (BitVec 32)) : ∃ op phase, op.bar = a.bar ∧ phase ≠ .waiting ∧
      (s.first dev hw t a rest vs).calls =
        Function.update s.calls t (some ⟨a :: rest, phase, vs⟩) ∧
      (s.first dev hw t a rest vs).log = s.log ++ [op] ∧
      (s.first dev hw t a rest vs).holder = s.holder ∧
      (s.first dev hw t a rest vs).modified = s.modified ∧
      ∀ b offset clear set v before, a = .modify b offset clear set →
        phase = .fetched v before → v = dev.content hw b offset s.log ∧ before = s.log ∧
          op = (dev.regb b).fns.readOp b offset := by
  cases a with
  | read b offset =>
    exact ⟨(dev.regb b).fns.readOp b offset, .accessed _, AccessFns.readOp_bar _ _ _, nofun, rfl,
      AccessFns.rd_log _ _ _ _ _, rfl, rfl, nofun⟩
  | write b offset value =>
    exact ⟨(dev.regb b).fns.writeOp b offset value, .accessed value, AccessFns.writeOp_bar _ _ _ _,
      nofun, rfl, rfl, rfl, rfl, nofun⟩
  | modify b offset clear set =>
    refine ⟨(dev.regb b).fns.readOp b offset,
      .fetched ((dev.regb b).fns.rd hw b offset s.log).1 s.log, AccessFns.readOp_bar _ _ _, nofun,
      rfl, AccessFns.rd_log _ _ _ _ _, rfl, rfl, ?_⟩
    intro b' offset' clear' set' v before ha hp
    cases ha
    cases hp
    exact ⟨rfl, rfl, rfl⟩

/-! ## The invariant -/

/-- A thread in an access holds the lock of its BAR; between its read and its write nobody else has
used the BAR. -/
structure Inv (dev : BifrostDevice) (hw : Hardware) (s : Concurrent) : Prop where
  held : ∀ t a rest phase vs, s.calls t = some ⟨a :: rest, phase, vs⟩ → phase ≠ .waiting →
    s.holder a.bar = some t
  fetched : ∀ t b offset clear set rest v before vs,
    s.calls t = some ⟨.modify b offset clear set :: rest, .fetched v before, vs⟩ →
    v = dev.content hw b offset before ∧ ∃ between,
      s.log = before ++ (dev.regb b).fns.readOp b offset :: between ∧ ∀ op ∈ between, op.bar ≠ b
  modified : ∀ m ∈ s.modified, m.Uninterrupted dev hw s.log

theorem inv_initial : Inv dev hw .initial where
  held _ _ _ _ _ h := by cases h
  fetched _ _ _ _ _ _ _ _ _ h := by cases h
  modified _ h := by cases h

/-- More operations come after those that a finished ioctl is about. -/
theorem Uninterrupted.append {m : Modified} {log : List BusOp}
    (h : m.Uninterrupted dev hw log) (ops : List BusOp) : m.Uninterrupted dev hw (log ++ ops) := by
  obtain ⟨between, after, hat, hbetween, hvalue, hlog⟩ := h
  refine ⟨between, after ++ ops, hat, hbetween, hvalue, ?_⟩
  rw [hlog, List.append_assoc, List.cons_append]

/-- A step that does not use the bus. -/
theorem Inv.quiet (hi : s.Inv dev hw) {c : Option Call}
    (hcalls : s'.calls = Function.update s.calls t c) (hlog : s'.log = s.log)
    (hmod : s'.modified = s.modified)
    (hphase : ∀ todo v before vs, c ≠ some ⟨todo, .fetched v before, vs⟩)
    (hheld : ∀ u a rest phase vs, s'.calls u = some ⟨a :: rest, phase, vs⟩ → phase ≠ .waiting →
      s'.holder a.bar = some u) : s'.Inv dev hw where
  held := hheld
  fetched u b offset clear set rest v before vs hu := by
    rw [hcalls] at hu
    by_cases hut : u = t
    · rw [hut, Function.update_self] at hu
      exact absurd hu (hphase _ _ _ _)
    · rw [Function.update_of_ne hut] at hu
      rw [hlog]
      exact hi.fetched u b offset clear set rest v before vs hu
  modified := by
    rw [hmod, hlog]
    exact hi.modified

/-- A bus operation in a locked section. -/
theorem Inv.perform (hi : s.Inv dev hw) {a : Access} {rest : List Access} {phase phase' : Phase}
    {vs : List (BitVec 32)} {op : BusOp} (hc : s.calls t = some ⟨a :: rest, phase, vs⟩)
    (hp : phase ≠ .waiting) (hop : op.bar = a.bar)
    (hcalls : s'.calls = Function.update s.calls t (some ⟨a :: rest, phase', vs⟩))
    (hholder : s'.holder = s.holder) (hlog : s'.log = s.log ++ [op])
    (hfetched : ∀ b offset clear set v before, a = .modify b offset clear set →
      phase' = .fetched v before → v = dev.content hw b offset s.log ∧ before = s.log ∧
        op = (dev.regb b).fns.readOp b offset)
    (hmod : ∀ m ∈ s'.modified, m ∈ s.modified ∨ m.Uninterrupted dev hw s'.log) :
    s'.Inv dev hw where
  held u b rest' q vs' hu hq := by
    rw [hholder]
    rw [hcalls] at hu
    by_cases hut : u = t
    · rw [hut, Function.update_self] at hu
      cases hu
      rw [hut]
      exact hi.held t a rest phase vs hc hp
    · rw [Function.update_of_ne hut] at hu
      exact hi.held u b rest' q vs' hu hq
  fetched u b offset clear set rest' v before vs' hu := by
    rw [hcalls] at hu
    by_cases hut : u = t
    · rw [hut, Function.update_self] at hu
      cases hu
      obtain ⟨hv, rfl, hread⟩ := hfetched b offset clear set v before rfl rfl
      exact ⟨hv, [], by rw [hlog, hread], fun _ h => nomatch h⟩
    · -- The other thread holds the lock of its BAR, so the operation is on a different one.
      rw [Function.update_of_ne hut] at hu
      obtain ⟨hv, between, hold, hbetween⟩ := hi.fetched u b offset clear set rest' v before vs' hu
      have hholds : s.holder b = some u := hi.held u _ _ _ _ hu nofun
      refine ⟨hv, between ++ [op], ?_, ?_⟩
      · rw [hlog, hold, List.append_assoc, List.cons_append]
      · intro o ho
        rcases List.mem_append.mp ho with ho | ho
        · exact hbetween o ho
        · rw [List.mem_singleton.mp ho, hop]
          intro hbar
          have hmine := hi.held t a rest phase vs hc hp
          rw [hbar, hholds] at hmine
          exact hut (Option.some.inj hmine)
  modified m hm := by
    rcases hmod m hm with hold | hnew
    · rw [hlog]
      exact Uninterrupted.append (hi.modified m hold) [op]
    · exact hnew

theorem inv_step {l : IoctlLabel} (hi : s.Inv dev hw) (h : s.step dev hw l = some s') :
    s'.Inv dev hw := by
  cases l with
  | enter t sys req =>
    obtain ⟨hc, rfl⟩ := step_enter h
    refine hi.quiet rfl rfl rfl nofun ?_
    intro u a rest phase vs hu hp
    by_cases hut : u = t
    · rw [hut] at hu
      simp only [setCall, Function.update_self, Option.some.injEq, Call.mk.injEq] at hu
      exact absurd hu.2.1.symm hp
    · simp only [setCall, Function.update_of_ne hut] at hu
      exact hi.held u a rest phase vs hu hp
  | spinLock t =>
    obtain ⟨b, rest, vs, hc, hfree, rfl⟩ := step_spinLock h
    refine hi.quiet rfl rfl rfl nofun ?_
    intro u a rest' phase vs' hu hp
    by_cases hut : u = t
    · rw [hut] at hu
      simp only [setCall, Function.update_self, Option.some.injEq, Call.mk.injEq,
        List.cons.injEq] at hu
      rw [hut, ← hu.1.1]
      exact Function.update_self _ _ _
    · simp only [setCall, Function.update_of_ne hut] at hu
      have hold := hi.held u a rest' phase vs' hu hp
      have hne : a.bar ≠ b.bar := fun hbar => by rw [hbar, hfree] at hold; cases hold
      change Function.update s.holder b.bar (some t) a.bar = some u
      rw [Function.update_of_ne hne]
      exact hold
  | access t =>
    rcases step_access h with ⟨a, rest, vs, hc, rfl⟩ |
      ⟨b, offset, clear, set, v, before, rest, vs, hc, rfl⟩
    · obtain ⟨op, phase, hop, -, hcalls, hlog, hholder, hmod, hfetched⟩ :=
        first_spec dev hw s t a rest vs
      refine hi.perform hc nofun hop hcalls hholder hlog hfetched fun m hm => .inl ?_
      rw [← hmod]
      exact hm
    · obtain ⟨hv, between, hlog, hbetween⟩ := hi.fetched t _ _ _ _ _ _ _ _ hc
      refine hi.perform hc nofun (AccessFns.writeOp_bar _ b offset ((v &&& ~~~clear) ||| set))
        (show _ = Function.update s.calls t
          (some ⟨_ :: rest, .accessed ((v &&& ~~~clear) ||| set), vs⟩) from rfl) rfl rfl nofun ?_
      intro m hm
      rcases List.mem_append.mp hm with hold | hnew
      · exact .inl hold
      · right
        rw [List.mem_singleton.mp hnew]
        exact ⟨between, [], hlog, hbetween, by rw [hv], rfl⟩
  | spinUnlock t =>
    obtain ⟨b, rest, v, vs, hc, rfl⟩ := step_spinUnlock h
    have hmine : s.holder b.bar = some t := hi.held t b rest _ vs hc nofun
    refine hi.quiet rfl rfl rfl nofun ?_
    intro u a rest' phase vs' hu hp
    by_cases hut : u = t
    · rw [hut] at hu
      simp only [setCall, Function.update_self, Option.some.injEq, Call.mk.injEq] at hu
      exact absurd hu.2.1.symm hp
    · simp only [setCall, Function.update_of_ne hut] at hu
      have hold := hi.held u a rest' phase vs' hu hp
      have hne : a.bar ≠ b.bar := by
        intro hbar
        rw [hbar, hmine] at hold
        exact hut (Option.some.inj hold).symm
      change Function.update s.holder b.bar none a.bar = some u
      rw [Function.update_of_ne hne]
      exact hold
  | leave t =>
    obtain ⟨-, rfl⟩ := step_leave h
    refine hi.quiet rfl rfl rfl nofun ?_
    intro u a rest phase vs hu hp
    by_cases hut : u = t
    · rw [hut] at hu
      simp only [setCall, Function.update_self] at hu
      cases hu
    · simp only [setCall, Function.update_of_ne hut] at hu
      exact hi.held u a rest phase vs hu hp

theorem inv_reachable (h : (ioctls dev hw).Reachable s) : s.Inv dev hw :=
  Machine.Reachable.invariant (M := ioctls dev hw) (fun _ h => h ▸ inv_initial)
    (fun _ _ _ hi h => inv_step hi h) h

end Concurrent

/-! ## What `MODIFY_REGB` promises -/

section Exactly
variable {dev : BifrostDevice} {hw : Hardware} {m : Modified} {log : List BusOp}

/-- A register holds the modified value if it is as wide, or nothing above its width is set. -/
theorem narrow_modified_iff (fns : AccessFns) {v : BitVec 32} (clear set : BitVec 32)
    (hv : fns.narrow v = v) :
    fns.narrow ((v &&& ~~~clear) ||| set) = (v &&& ~~~clear) ||| set ↔
      fns = .deviceMemory ∨ set.toNat < 2 ^ 16 := by
  cases fns with
  | deviceMemory => exact iff_of_true rfl (.inl rfl)
  | membusDeviceMemory =>
    have hnarrow : ∀ x : BitVec 32,
        AccessFns.membusDeviceMemory.narrow x = x ↔ x.toNat < 2 ^ 16 := by
      intro x
      rw [AccessFns.narrow, ← BitVec.toNat_inj, BitVec.toNat_setWidth, BitVec.toNat_setWidth]
      omega
    rw [hnarrow] at hv ⊢
    have hclear : (v &&& ~~~clear).toNat < 2 ^ 16 := by
      rw [BitVec.toNat_and]
      exact Nat.and_le_left.trans_lt hv
    rw [BitVec.toNat_or]
    constructor
    · exact fun h => .inr (Nat.right_le_or.trans_lt h)
    · rintro (h | h)
      · cases h
      · exact Nat.or_lt_two_pow hclear h

/-- After an uninterrupted ioctl everything holds as promised, if the returned value fits in the
register. -/
theorem Modified.Uninterrupted.exact_iff (h : m.Uninterrupted dev hw log)
    (hplain : dev.PlainRegisters hw m.bar) :
    m.Exact dev hw log ↔ (dev.regb m.bar).fns = .deviceMemory ∨ m.set.toNat < 2 ^ 16 := by
  obtain ⟨between, after, hat, hbetween, hvalue, hlog⟩ := h
  have hread : ∀ op ∈ m.readOp dev :: between, ¬ op.Writes m.bar := by
    intro op hop
    rcases List.mem_cons.mp hop with rfl | hop
    · unfold Modified.readOp AccessFns.readOp
      cases (dev.regb m.bar).fns <;> exact id
    · cases op with
      | ioread32 b addr => exact id
      | ioread16 b addr => exact id
      | iowrite32 b addr value => exact hbetween _ hop
      | iowrite16 b addr value => exact hbetween _ hop
  have hcontent : dev.content hw m.bar m.offset m.atWrite =
      dev.content hw m.bar m.offset m.before := by
    rw [hat, hplain.kept_append m.offset m.before hread]
  have hwritten : dev.content hw m.bar m.offset (m.atWrite ++ [m.writeOp dev]) =
      (dev.regb m.bar).fns.narrow m.value := hplain.written m.atWrite m.offset m.value
  have hnarrow := BifrostDevice.narrow_content dev hw m.bar m.offset m.before
  rw [← narrow_modified_iff (dev.regb m.bar).fns m.clear m.set hnarrow,
    ← hvalue]
  constructor
  · intro hexact
    rw [← hwritten]
    exact hexact.reported.symm
  · intro hfits
    refine ⟨⟨between, after, ?_, hat, fun op hop => hread op (List.mem_cons_of_mem _ hop)⟩, ?_, ?_⟩
    · rw [hlog, hat]
    · rw [hwritten, hcontent, ← hvalue]
    · rw [hwritten, hfits]

end Exactly

/-- In every interleaving of register ioctls, on a BAR of plain registers, a `MODIFY_REGB` is atomic
and returns what the register holds exactly if the BAR has 32-bit registers or it sets no bit above
a halfword. -/
theorem modify_exact_iff {dev : BifrostDevice} {hw : Hardware} {s : Concurrent}
    (h : (ioctls dev hw).Reachable s) {m : Modified} (hm : m ∈ s.modified)
    (hplain : dev.PlainRegisters hw m.bar) :
    m.Exact dev hw s.log ↔ (dev.regb m.bar).fns = .deviceMemory ∨ m.set.toNat < 2 ^ 16 :=
  ((Concurrent.inv_reachable h).modified m hm).exact_iff hplain

def BusOp.written : BusOp → Option (BitVec 32)
  | ioread32 _ _ => none
  | ioread16 _ _ => none
  | iowrite32 _ _ value => some value
  | iowrite16 _ _ value => some (value.setWidth 32)

/-- Hardware that answers with the value written last to the same address, zero at first. -/
def memory : Hardware := fun log op =>
  (log.reverse.findSome? fun o =>
    if o.bar = op.bar ∧ o.addr = op.addr then o.written else none).getD 0

theorem memory_snoc (log : List BusOp) (o op : BusOp) : memory (log ++ [o]) op =
    ((if o.bar = op.bar ∧ o.addr = op.addr then o.written else none).getD (memory log op)) := by
  unfold memory
  rw [List.reverse_append, List.reverse_singleton, List.singleton_append, List.findSome?_cons]
  split <;> simp_all

theorem memory_written (fns : AccessFns) (b : Bar) (log : List BusOp) (offset value : BitVec 32) :
    (fns.rd memory b offset (log ++ [fns.writeOp b offset value])).1 = fns.narrow value := by
  unfold AccessFns.rd
  cases fns with
  | deviceMemory =>
    simp [memory_snoc, AccessFns.readOp, AccessFns.writeOp, BusOp.bar, BusOp.addr, BusOp.written,
      AccessFns.narrow]
  | membusDeviceMemory =>
    simp [memory_snoc, AccessFns.readOp, AccessFns.writeOp, BusOp.bar, BusOp.addr, BusOp.written,
      AccessFns.narrow]

theorem memory_kept {b : Bar} {o op : BusOp} (hop : op.bar = b) (ho : ¬ o.Writes b)
    (log : List BusOp) : memory (log ++ [o]) op = memory log op := by
  rw [memory_snoc, hop]
  cases o with
  | ioread32 c addr => simp [BusOp.written]
  | ioread16 c addr => simp [BusOp.written]
  | iowrite32 c addr value => rw [if_neg fun heq => ho heq.1, Option.getD_none]
  | iowrite16 c addr value => rw [if_neg fun heq => ho heq.1, Option.getD_none]

theorem memory_plain (dev : BifrostDevice) (b : Bar) : dev.PlainRegisters memory b where
  written log offset value := memory_written (dev.regb b).fns b log offset value
  kept log offset op hop := by
    unfold BifrostDevice.content AccessFns.rd
    rw [memory_kept (AccessFns.readOp_bar _ b offset) hop]
    cases (dev.regb b).fns <;> rfl

/-- Two handles on register 4 of BAR0. The first writes it, and modifies it while the second one has
a modification under way. -/
def twoHandles : List IoctlLabel :=
  [.enter 0 ⟨true, true, true, true⟩ (.writeRegb 0 4 0x35),
    .enter 1 ⟨true, true, true, true⟩ (.modifyRegb 0 4 0x5 0x2),
    .spinLock 0, .access 0, .spinUnlock 0, .leave 0,
    .enter 0 ⟨true, true, true, true⟩ (.modifyRegb 0 4 0x30 0x8),
    .spinLock 1, .access 1, .access 1, .spinUnlock 1,
    .spinLock 0, .access 0, .access 0]

theorem modify_exact_two : ∃ s, (ioctls (membusDevice false fun _ => true) memory).Reachable s ∧
    s.modified.map Modified.value = [0x32, 0x0A] ∧
    ∀ m ∈ s.modified, m.Exact (membusDevice false fun _ => true) memory s.log := by
  have hrun : ((ioctls (membusDevice false fun _ => true) memory).exec .initial twoHandles).map
      (fun s => s.modified.map fun m => (m.set.toNat, m.value)) = some [(2, 0x32), (8, 0x0A)] := by
    rfl
  obtain ⟨s, hs, hm⟩ := Option.map_eq_some_iff.mp hrun
  have hreach : (ioctls (membusDevice false fun _ => true) memory).Reachable s :=
    .of_exec (.start rfl) hs
  refine ⟨s, hreach, ?_, fun m hmem => ?_⟩
  · have hvalues := congrArg (List.map Prod.snd) hm
    rwa [List.map_map] at hvalues
  · have hset : (m.set.toNat, m.value) ∈ [(2, (0x32 : BitVec 32)), (8, 0x0A)] :=
      hm ▸ List.mem_map_of_mem hmem
    refine (modify_exact_iff hreach hmem (memory_plain _ _)).mpr (.inr ?_)
    rcases List.mem_pair.mp hset with heq | heq
    · have hset : m.set.toNat = 2 := congrArg Prod.fst heq
      omega
    · have hset : m.set.toNat = 8 := congrArg Prod.fst heq
      omega

def settingBits (set : BitVec 32) : Option (List Modified) :=
  ((ioctls (membusDevice false fun _ => true) memory).exec .initial
    [.enter 0 ⟨true, true, true, true⟩ (.modifyRegb 0 4 0 set), .spinLock 0, .access 0,
      .access 0]).map Concurrent.modified

/-- Setting a bit above the halfword returns a value that the register does not hold. -/
theorem modify_reports_more : ¬ ∀ (dev : BifrostDevice) (hw : Hardware) (s : Concurrent),
    (ioctls dev hw).Reachable s → ∀ m ∈ s.modified, dev.PlainRegisters hw m.bar →
      m.Exact dev hw s.log := by
  intro h
  have hrun : settingBits 0x10000 =
      some [⟨0, 4, 0, 0x10000, [], [.ioread16 0 8], 0x10000⟩] := by rfl
  obtain ⟨s, hs, hm⟩ := Option.map_eq_some_iff.mp hrun
  have hexact := h _ _ s (.of_exec (.start rfl) hs) _ (by rw [hm]; exact List.mem_cons_self)
    (memory_plain _ _)
  exact absurd hexact.reported (by decide)

end BifrostModule.Regb
