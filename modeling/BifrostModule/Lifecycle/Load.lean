import BifrostModule.Lifecycle.Probe

/-! # Whether `bifrost_init` is all or nothing

Loading the module either leaves everything in place and returns 0, or gives
everything back and returns an errno. The bus and the character device come
last, and `ret` is not assigned when one of them fails.
-/
namespace BifrostModule.Lifecycle
open Foundation Regb

def NegErrno (rc : ℤ) : Prop := -4095 ≤ rc ∧ rc < 0

instance (rc : ℤ) : Decidable (NegErrno rc) := inferInstanceAs (Decidable (_ ∧ _))

theorem negErrno_toInt (e : Errno) : NegErrno e.toInt := by
  cases e <;> decide

abbrev firstResources : List Resource := [.bdev, .workPool, .workQueue]

/-- The bus part: the two windows of the memory bus with the three FPGA interrupts, or the
registered driver. -/
def busResources (membus : Bool) : List Resource :=
  if membus then [.window 0, .window 1, .platformDevice, .fpgaIrq 0, .fpgaIrq 1, .fpgaIrq 2]
  else [.pciDriver]

def cdevResources : List Resource := [.chrdevRegion, .cdev, .pClass, .deviceNode]

/-- All that a loaded module needs is in place. -/
def InPlace (membus : Bool) (s t : State) : Prop :=
  ∀ r ∈ firstResources ++ busResources membus ++ cdevResources, Holds s t r

/-- A load that returns 0 has everything in place; otherwise it returns a negative errno and has
given back all that it took. -/
def LoadAllOrNothing (membus : Bool) (s : State) (rc : ℤ) (t : State) : Prop :=
  if rc = 0 then InPlace membus s t else NegErrno rc ∧ Balanced s t

section Conditions
variable (env : Env)

def membusBars : ℕ := (bars.filter (Membus.maps env)).length

/-- The bus part fails in a way that `bifrost_init` notices. -/
def BusFails (membus : Bool) : Prop :=
  if membus then membusBars env < 2 ∨ fvdRc env ≠ 0 else env (.take .pciDriver) ≠ none

instance (membus : Bool) : Decidable (BusFails env membus) := by
  unfold BusFails
  infer_instance

def BusReady (membus : Bool) : Prop :=
  if membus then 2 ≤ membusBars env ∧ FpgaReady env else env (.take .pciDriver) = none

def CdevReady : Prop := ∀ r ∈ cdevResources, env (.take r) = none

/-- One of the first allocations fails. -/
def EarlyFailure : Prop := ∃ r ∈ firstResources, env (.take r) ≠ none

end Conditions

section Bus
variable {env : Env} {s t u : State} {r : Resource}

theorem Holds.trans (h : Holds s t r) (h' : Untouched t u r) : Holds s u r :=
  ⟨h'.1.trans h.1, h'.2.trans h.2⟩

theorem Untouched.holds (h : Untouched s t r) (h' : Holds t u r) : Holds s u r :=
  ⟨h'.1.trans (congrArg (· + 1) h.1), h'.2.trans h.2⟩

/-- The resource has been taken once more often than it has been given back. -/
def Leaked (s t : State) (r : Resource) : Prop :=
  t.taken r + s.given r = s.taken r + t.given r + 1

theorem Holds.leaked (h : Holds s t r) : Leaked s t r := by
  unfold Leaked
  rw [h.1, h.2]
  omega

theorem Leaked.untouched (h : Leaked s t r) (h' : Untouched t u r) : Leaked s u r := by
  unfold Leaked
  rw [h'.1, h'.2]
  exact h

theorem Leaked.balanced (h : Leaked s t r) (h' : Balanced t u) : Leaked s u r := by
  have hr := h' r
  unfold Leaked at *
  omega

theorem Leaked.not_balanced (h : Leaked s t r) : ¬ Balanced s t := by
  intro hbal
  have hr := hbal r
  unfold Leaked at h
  omega

theorem Moves.holds {got : List Resource} (h : Moves s t got []) (hr : got.count r = 1) :
    Holds s t r :=
  ⟨by rw [h.taken, hr], h.given r⟩

theorem maps_of_two (h : 2 ≤ membusBars env) {b : Bar} (hb : b.val < 2) :
    Membus.maps env b = true := by
  have hhigh : ∀ c : Bar, 2 ≤ c.val → Membus.maps env c = false := by
    intro c hc
    rw [Membus.maps, decide_eq_false (Nat.not_lt.mpr hc), Bool.false_and]
  have hbars : bars = [0, 1, 2, 3, 4, 5] := by decide
  rw [membusBars, hbars] at h
  simp only [List.filter_cons, List.filter_nil, hhigh 2 (by decide), hhigh 3 (by decide),
    hhigh 4 (by decide), hhigh 5 (by decide), Bool.false_eq_true, if_false] at h
  have hboth : Membus.maps env 0 = true ∧ Membus.maps env 1 = true := by
    cases h0 : Membus.maps env 0 <;> cases h1 : Membus.maps env 1 <;> simp [h0, h1] at h ⊢
  rcases Nat.lt_or_eq_of_le (Nat.le_of_lt_succ hb) with h | h
  · obtain rfl : b = 0 := Fin.ext (Nat.lt_one_iff.mp h)
    exact hboth.1
  · obtain rfl : b = 1 := Fin.ext h
    exact hboth.2

theorem Managing.holds (h : Managing s t [0, 1, 2]) :
    Holds s t .platformDevice ∧ (∀ i, Holds s t (.fpgaIrq i)) ∧
      ∀ r, r ≠ .platformDevice → (∀ m : Managed, r ≠ m.resource) → Untouched s t r := by
  obtain ⟨ms, -, hmoves, hcount⟩ := h.manages
  refine ⟨hmoves.holds ?_, fun i => hmoves.holds ?_, fun r hdev hr => ?_⟩
  · rw [List.count_cons_self, count_map_other ms (fun m => by cases m <;> simp [Managed.resource])]
  · rw [List.count_cons_of_ne (by simp)]
    refine (List.count_map_of_injective ms _ managed_injective (.fpgaIrq i)).trans ?_
    rw [hcount]
    fin_cases i <;> rfl
  · refine hmoves.untouched (fun hmem => ?_) List.not_mem_nil
    rcases List.mem_cons.mp hmem with h | h
    · exact hdev h
    · obtain ⟨m, -, hm⟩ := List.mem_map.mp h
      exact hr m hm.symm

inductive BusEnd (membus : Bool) (env : Env) (s : State) : Rc → State → Prop where
  | fails (e : Errno) (t : State) (h : BusFails env membus) (hbal : Balanced s t) :
      BusEnd membus env s (some e) t
  | silent (t : State) (h : ¬ BusReady env membus) (hnot : ¬ BusFails env membus)
      (hm : membus = true) (hheld : Leaked s t (.window 0))
      (hbal : ∀ r, (∀ b, r ≠ .window b) → t.taken r + s.given r = s.taken r + t.given r) :
      BusEnd membus env s none t
  | ready (t : State) (h : BusReady env membus) (hnot : ¬ BusFails env membus)
      (hheld : ∀ r ∈ busResources membus, Holds s t r)
      (hrest : ∀ r ∈ firstResources ++ cdevResources, Untouched s t r) :
      BusEnd membus env s none t

theorem exec_membusInit (s : State) :
    ∃ rc t, exec env Membus.bifrostMembusInit s = some (rc, t) ∧ BusEnd true env s rc t := by
  obtain ⟨t, ht, hall⟩ := exec_setupIoRegions env (Membus.exec_initAndMap env) bars
    (List.nodup_finRange _) s
  have henabled : ∀ u : State, u.regb = t.regb →
      windows (fun b => (u.regb b).mem.enabled) bars = windows (Membus.maps env) bars := by
    intro u hu
    simp only [windows, hu]
    congr 1
    exact List.filter_congr fun b hb => hall.enabled b hb
  by_cases hbars : membusBars env < 2
  · obtain ⟨u, hu, hmoves, -⟩ := exec_removeIoRegions env t
    rw [henabled t rfl] at hmoves
    refine ⟨some .ENODEV, u, ?_, .fails _ _ ?_ ?_⟩
    · rw [Membus.bifrostMembusInit, exec_bind, ht, Option.bind_some, ← membusBars, if_pos hbars,
        exec_bind, hu]
      rfl
    · simp only [BusFails, if_true, hbars, true_or]
    · have h := hall.moves.trans hmoves
      rw [List.append_nil, List.nil_append] at h
      exact h.balanced
  obtain ⟨u, hu, hset⟩ := exec_bifrostFvdInit env t
  by_cases hrc : fvdRc env = 0
  · have hexec : exec env Membus.bifrostMembusInit s = some (none, u) := by
      rw [Membus.bifrostMembusInit, exec_bind, ht, Option.bind_some, ← membusBars, if_neg hbars,
        exec_bind, hu, Option.bind_some, if_neg (not_not.mpr hrc)]
      rfl
    have hnot : ¬ BusFails env true := by
      simp only [BusFails, if_true, hbars, hrc, ne_eq, not_true_eq_false, or_self,
        not_false_eq_true]
    have hwindow : ∀ b : Bar, b.val < 2 → Holds s t (.window b) := by
      intro b hb
      apply hall.moves.holds
      rw [windows, count_map_filter (fun _ _ => Resource.window.inj) _ (List.nodup_finRange _),
        if_pos (List.mem_filter.mpr ⟨List.mem_finRange b, maps_of_two (Nat.not_lt.mp hbars) hb⟩)]
    refine ⟨none, u, hexec, ?_⟩
    have hother : ∀ r, (∀ b, r ≠ .window b) → Untouched s t r := fun r hr =>
      hall.moves.untouched (by simpa [windows] using fun b _ h => hr b h.symm) List.not_mem_nil
    by_cases hready : FpgaReady env
    · obtain ⟨hdev, hirq, hrest⟩ := (hset.managing hready).holds
      apply BusEnd.ready u _ hnot
      · have hwindow' : ∀ b : Bar, b.val < 2 → Holds s u (.window b) := fun b hb =>
          (hwindow b hb).trans (hrest _ (by simp) fun m => by cases m <;> simp [Managed.resource])
        intro r hr
        simp only [busResources, if_true, List.mem_cons, List.not_mem_nil, or_false] at hr
        rcases hr with rfl | rfl | rfl | rfl | rfl | rfl
        · exact hwindow' 0 (by decide)
        · exact hwindow' 1 (by decide)
        · exact (hother _ (by simp)).holds hdev
        all_goals exact (hother _ (by simp)).holds (hirq _)
      · intro r hr
        simp only [cdevResources, List.mem_append, List.mem_cons, List.not_mem_nil, or_false] at hr
        rcases hr with (rfl | rfl | rfl) | rfl | rfl | rfl | rfl <;>
          exact (hother _ (by simp)).trans
            (hrest _ (by simp) fun m => by cases m <;> simp [Managed.resource])
      · simp only [BusReady, if_true]
        exact ⟨Nat.not_lt.mp hbars, hready⟩
    · apply BusEnd.silent u _ hnot rfl
      · exact (hwindow 0 (by decide)).leaked.balanced (hset.balanced hready)
      · intro r hr
        have hbal := hset.balanced hready r
        rwa [(hother r hr).1, (hother r hr).2] at hbal
      · simp only [BusReady, if_true]
        exact fun h => hready h.2
  · obtain ⟨v, hv, hmoves, -⟩ := exec_removeIoRegions env u
    rw [henabled u (by rw [hset.same])] at hmoves
    refine ⟨some .ENODEV, v, ?_, .fails _ _ ?_ ?_⟩
    · rw [Membus.bifrostMembusInit, exec_bind, ht, Option.bind_some, ← membusBars, if_neg hbars,
        exec_bind, hu, Option.bind_some, if_pos hrc, exec_bind, hv]
      rfl
    · simp [BusFails, hrc]
    · have hready : ¬ FpgaReady env := fun h => hrc (fvdRc_ready env h)
      have hbal := hset.balanced hready
      intro r
      have := hbal r
      have := hall.moves.taken r
      have := hall.moves.given r
      have := hmoves.taken r
      have := hmoves.given r
      simp only [List.count_nil] at *
      omega

theorem exec_pciInit (s : State) :
    ∃ rc t, exec env Pci.bifrostPciInit s = some (rc, t) ∧ BusEnd false env s rc t := by
  refine ⟨_, _, exec_take env .pciDriver s, ?_⟩
  cases hrc : env (.take .pciDriver) with
  | some e => exact .fails e _ (by simp [BusFails, hrc]) fun r => rfl
  | none =>
    have hmoves := moves_take s .pciDriver
    apply BusEnd.ready _ (by simp [BusReady, hrc]) (by simp [BusFails, hrc])
    · intro r hr
      simp only [busResources, Bool.false_eq_true, if_false, List.mem_singleton] at hr
      rw [hr]
      exact hmoves.holds rfl
    · intro r hr
      refine hmoves.untouched (fun h => ?_) List.not_mem_nil
      rw [List.mem_singleton.mp h] at hr
      simp [cdevResources] at hr

variable (env) in
theorem exec_busInit (membus : Bool) (s : State) :
    ∃ rc t, exec env (busInit membus) s = some (rc, t) ∧ BusEnd membus env s rc t := by
  cases membus with
  | true => exact exec_membusInit s
  | false => exact exec_pciInit s

structure CdevEnd (env : Env) (s : State) (rc : Rc) (t : State) : Prop where
  others : ∀ r, r ∉ cdevResources → Untouched s t r
  ready : CdevReady env → rc = none ∧ ∀ r ∈ cdevResources, Holds s t r
  missing : ¬ CdevReady env → rc = none → ∃ r ∈ cdevResources, Untouched s t r

theorem moves_answer (s : State) (r : Resource) (rc : Rc) :
    Moves s (rc.elim (s.take r) fun _ => s.refuse r) (if rc.isNone then [r] else []) [] := by
  cases rc with
  | none => exact moves_take s r
  | some e => exact moves_refuse s r

variable (env) in
theorem exec_bifrostCdevInit (s : State) :
    ∃ rc t, exec env bifrostCdevInit s = some (rc, t) ∧ CdevEnd env s rc t := by
  have hnot : ∀ r ∈ cdevResources, ∀ e, env (.take r) = some e → ¬ CdevReady env := by
    intro r hr e he h
    rw [h r hr] at he
    cases he
  cases hregion : env (.take .chrdevRegion) with
  | some e =>
    refine ⟨some e, s, by simp [bifrostCdevInit, exec_bind, hregion, State.refuse],
      fun r _ => ⟨rfl, rfl⟩, fun h => absurd h (hnot _ (by simp [cdevResources]) e hregion), nofun⟩
  | none =>
    cases hcdev : env (.take .cdev) with
    | some e =>
      have hmoves := (moves_take s .chrdevRegion).trans
        (moves_give (s.take .chrdevRegion) .chrdevRegion)
      refine ⟨some e, (s.take .chrdevRegion).give .chrdevRegion, ?_, fun r hr => ?_,
        fun h => absurd h (hnot _ (by simp [cdevResources]) e hcdev), nofun⟩
      · simp [bifrostCdevInit, exec_bind, hregion, hcdev, State.refuse]
      · have hne : r ≠ .chrdevRegion := fun h => hr (by simp [h, cdevResources])
        exact hmoves.untouched (by simpa using hne) (by simpa using hne)
    | none =>
      have hmoves := (((moves_take s .chrdevRegion).trans (moves_take _ .cdev)).trans
        (moves_answer _ .pClass (env (.take .pClass)))).trans
          (moves_answer _ .deviceNode (env (.take .deviceNode)))
      have hmoves' := hmoves.trans (moves_write _ .cdevInitialized)
      refine ⟨none, _, ?_, fun r hr => hmoves'.untouched ?_ (by simp),
        fun h => ⟨rfl, fun r hr => ?_⟩, fun h _ => ?_⟩
      · simp [bifrostCdevInit, exec_bind, hregion, hcdev]
      · simp only [cdevResources, List.mem_cons, List.not_mem_nil, or_false, not_or] at hr
        cases env (.take .pClass) <;> cases env (.take .deviceNode) <;> simp [hr]
      · have hclass : env (.take .pClass) = none := h _ (by simp [cdevResources])
        have hnode : env (.take .deviceNode) = none := h _ (by simp [cdevResources])
        rw [hclass, hnode] at hmoves'
        rw [hclass, hnode]
        simp only [cdevResources, List.mem_cons, List.not_mem_nil, or_false] at hr
        apply hmoves'.holds
        rcases hr with rfl | rfl | rfl | rfl <;> rfl
      · cases hclass : env (.take .pClass) with
        | some e =>
          rw [hclass] at hmoves'
          refine ⟨.pClass, by simp [cdevResources], hmoves'.untouched ?_ (by simp)⟩
          cases env (.take .deviceNode) <;> simp
        | none =>
          cases hnode : env (.take .deviceNode) with
          | some e =>
            rw [hclass, hnode] at hmoves'
            exact ⟨.deviceNode, by simp [cdevResources], hmoves'.untouched (by simp) (by simp)⟩
          | none =>
            refine absurd (fun r hr => ?_) h
            simp only [cdevResources, List.mem_cons, List.not_mem_nil, or_false] at hr
            rcases hr with rfl | rfl | rfl | rfl <;> assumption

end Bus

section Load
variable {env : Env} {s : State}

variable (env) in
/-- The label `err_pci` gives back what was taken first and returns what `ret` happens to hold. -/
theorem exec_errPci (s : State) :
    ∃ t, exec env errPci s = some (env (.uninitialised .initRet), t) ∧
      Moves s t [] [.workQueue, .workPool, .bdev] := by
  refine ⟨((s.give .workQueue).give .workPool).give .bdev, rfl, ?_⟩
  exact ((moves_give s .workQueue).trans (moves_give _ .workPool)).trans (moves_give _ .bdev)

/-- `bifrost_init` up to the bus: either an allocation fails and everything is given back, or it
goes on with the first resources. -/
theorem exec_bifrostInit (membus : Bool) (s : State) :
    (EarlyFailure env ∧ ∃ t, exec env (bifrostInit membus) s = some (Errno.ENOMEM.toInt, t) ∧
      Balanced s t) ∨
    (¬ EarlyFailure env ∧ ∃ t, exec env (bifrostInit membus) s = exec env (initBus membus) t ∧
      Moves s t firstResources []) := by
  have hfail : ∀ r ∈ firstResources, ∀ e, env (.take r) = some e → EarlyFailure env :=
    fun r hr e he => ⟨r, hr, by rw [he]; nofun⟩
  obtain ⟨u, hu, hmoves⟩ : ∃ u, (∀ {α : Type} (k : Driver α), 
      exec env (if membus = true then set .membus >>= fun _ => k else k) (s.take .bdev) =
        exec env k u) ∧ Moves s u [.bdev] [] := by
    cases membus with
    | true =>
      exact ⟨(s.take .bdev).write .membus, fun k => by simp [exec_bind],
        (moves_take s .bdev).trans (moves_write _ _)⟩
    | false => exact ⟨s.take .bdev, fun k => rfl, moves_take s .bdev⟩
  cases hbdev : env (.take .bdev) with
  | some e =>
    refine .inl ⟨hfail _ (by simp) e hbdev, s, ?_, fun r => rfl⟩
    simp [bifrostInit, exec_bind, hbdev, State.refuse]
  | none =>
    have hexec : exec env (bifrostInit membus) s = exec env (do
        if (← take .workPool).isSome then
          errAllocPool (pure Errno.ENOMEM.toInt)
        else
          if (← take .workQueue).isSome then
            errAllocQueue (pure Errno.ENOMEM.toInt)
          else
            initBus membus) u := by
      rw [bifrostInit, exec_bind, exec_take, hbdev, Option.bind_some]
      simp only [Option.isSome_none, Bool.false_eq_true, if_false, Option.elim_none]
      exact hu _
    rw [hexec]
    cases hpool : env (.take .workPool) with
    | some e =>
      refine .inl ⟨hfail _ (by simp) e hpool, u.give .bdev, ?_, ?_⟩
      · simp [exec_bind, hpool, errAllocPool, State.refuse]
      · exact (hmoves.trans (moves_give u .bdev)).balanced
    | none =>
      cases hqueue : env (.take .workQueue) with
      | some e =>
        refine .inl ⟨hfail _ (by simp) e hqueue,
          ((u.take .workPool).give .workPool).give .bdev, ?_, ?_⟩
        · simp [exec_bind, hpool, hqueue, errAllocQueue, errAllocPool, State.refuse]
        · have hall := ((hmoves.trans (moves_take u .workPool)).trans
            (moves_give _ .workPool)).trans (moves_give _ .bdev)
          exact (hall.perm (by simp) (List.Perm.swap _ _ _)).balanced
      | none =>
        refine .inr ⟨?_, (u.take .workPool).take .workQueue, ?_, ?_⟩
        · rintro ⟨r, hr, hne⟩
          simp only [List.mem_cons, List.not_mem_nil, or_false] at hr
          rcases hr with rfl | rfl | rfl <;> contradiction
        · simp [exec_bind, hpool, hqueue]
        · exact (hmoves.trans (moves_take u .workPool)).trans (moves_take _ .workQueue)

theorem BusFails.not_ready {membus : Bool} (h : BusFails env membus) : ¬ BusReady env membus := by
  cases membus with
  | true =>
    simp only [BusFails, BusReady, if_true] at *
    rintro ⟨hbars, hready⟩
    rcases h with h | h
    · omega
    · exact h (fvdRc_ready env hready)
  | false => simpa [BusFails, BusReady] using h

/-- If the bus part fails, everything is given back and `ret` is returned as it is. -/
theorem load_fails_iff {membus : Bool} {t u : State} {rc : Rc} (e : Errno)
    (ht : exec env (bifrostInit membus) s = exec env (initBus membus) t)
    (hmoves : Moves s t firstResources []) (hu : exec env (busInit membus) t = some (rc, u))
    (hrc : rc = some e) (hbal : Balanced t u) :
    (∀ rc t, exec env (bifrostInit membus) s = some (rc, t) → LoadAllOrNothing membus s rc t) ↔
      NegErrno (env (.uninitialised .initRet)) := by
  obtain ⟨v, hv, hback⟩ := exec_errPci env u
  have hexec : exec env (bifrostInit membus) s = some (env (.uninitialised .initRet), v) := by
    rw [ht, initBus, exec_bind, hu, hrc]
    exact hv
  have hall : Balanced s v := by
    intro r
    have hperm : firstResources.count r = [Resource.workQueue, .workPool, .bdev].count r :=
      (List.reverse_perm firstResources).symm.count_eq r
    have hr := hbal r
    rw [hback.taken, hback.given, ← hperm]
    rw [hmoves.taken, hmoves.given] at hr
    simp only [List.count_nil] at *
    omega
  constructor
  · intro h
    have hv := h _ v hexec
    unfold LoadAllOrNothing at hv
    split at hv
    · exact absurd hall (hv .bdev (by simp)).leaked.not_balanced
    · exact hv.1
  · intro hneg rc w hw
    obtain ⟨rfl, rfl⟩ : env (.uninitialised .initRet) = rc ∧ v = w := by simpa [hexec] using hw
    rw [LoadAllOrNothing, if_neg (ne_of_lt hneg.2)]
    exact ⟨hneg, hall⟩

/-- If the character device fails after the bus part, something of the bus part stays behind. -/
theorem load_leaks {membus : Bool} {t u : State} {r : Resource}
    (ht : exec env (bifrostInit membus) s = exec env (initBus membus) t)
    (hmoves : Moves s t firstResources [])
    (hu : exec env (busInit membus) t = some (none, u)) (hheld : Leaked t u r)
    (hr : r ∉ cdevResources) (hr' : r ∉ firstResources)
    (hbdev : u.taken .bdev + t.given .bdev = t.taken .bdev + u.given .bdev) {e : Errno} {v : State}
    (hv : exec env bifrostCdevInit u = some (some e, v)) (hcdev : CdevEnd env u (some e) v) :
    ¬ ∀ rc t, exec env (bifrostInit membus) s = some (rc, t) → LoadAllOrNothing membus s rc t := by
  obtain ⟨w, hw, hback⟩ := exec_errPci env v
  have hexec : exec env (bifrostInit membus) s = some (env (.uninitialised .initRet), w) := by
    rw [ht, initBus, exec_bind, hu, Option.bind_some, if_neg (by simp), exec_bind, hv]
    exact hw
  intro h
  have hall := h _ w hexec
  unfold LoadAllOrNothing at hall
  split at hall
  · -- the device structure itself has been given back
    have hplace := hall .bdev (by simp)
    have hfirst := hmoves.holds (r := .bdev) rfl
    have hcdev' := hcdev.others .bdev (by simp [cdevResources])
    have htaken := hback.taken .bdev
    have hgiven := hback.given .bdev
    have hcount : [Resource.workQueue, .workPool, .bdev].count .bdev = 1 := rfl
    rw [hplace.1, hcdev'.1] at htaken
    rw [hplace.2, hcdev'.2, hcount] at hgiven
    rw [hfirst.1, hfirst.2] at hbdev
    simp only [List.count_nil] at htaken
    omega
  · refine (Leaked.untouched ?_
      ((hcdev.others r hr).trans (hback.untouched (by simp) ?_))).not_balanced
      hall.2
    · have hfirst := hmoves.untouched hr' List.not_mem_nil
      unfold Leaked at *
      rwa [hfirst.1, hfirst.2] at hheld
    · simp only [List.mem_cons, List.not_mem_nil, or_false, not_or] at hr' ⊢
      exact ⟨hr'.2.2, hr'.2.1, hr'.1⟩

theorem load_returns {membus : Bool} {t u v : State}
    (ht : exec env (bifrostInit membus) s = exec env (initBus membus) t)
    (hu : exec env (busInit membus) t = some (none, u))
    (hv : exec env bifrostCdevInit u = some (none, v)) :
    (∀ rc t, exec env (bifrostInit membus) s = some (rc, t) → LoadAllOrNothing membus s rc t) ↔
      InPlace membus s v := by
  have hexec : exec env (bifrostInit membus) s = some (0, v) := by
    rw [ht, initBus, exec_bind, hu, Option.bind_some, if_neg (by simp), exec_bind, hv]
    rfl
  rw [hexec]
  refine ⟨fun h => h 0 v rfl, fun h rc w hw => ?_⟩
  obtain ⟨rfl, rfl⟩ : 0 = rc ∧ v = w := by simpa using hw
  exact h

/-- Loading is all or nothing exactly if one of the first allocations fails, or the bus part fails
noticeably and `ret` happens to hold a negative errno, or nothing fails. -/
theorem init_all_or_nothing_iff (membus : Bool) (env : Env) (s : State) :
    (∀ rc t, exec env (bifrostInit membus) s = some (rc, t) → LoadAllOrNothing membus s rc t) ↔
      EarlyFailure env ∨
        BusFails env membus ∧ NegErrno (env (.uninitialised .initRet)) ∨
        BusReady env membus ∧ CdevReady env := by
  rcases exec_bifrostInit membus s with ⟨hearly, t, ht, hbal⟩ | ⟨hearly, t, ht, hmoves⟩
  · refine iff_of_true (fun rc u hu => ?_) (.inl hearly)
    obtain ⟨rfl, rfl⟩ : Errno.ENOMEM.toInt = rc ∧ t = u := by simpa [ht] using hu
    exact ⟨negErrno_toInt _, hbal⟩
  rw [or_iff_right hearly]
  have hfirst : ∀ r, r ∉ firstResources → Untouched s t r := fun r hr =>
    hmoves.untouched hr List.not_mem_nil
  obtain ⟨rc, u, hu, hbus⟩ := exec_busInit env membus t
  cases hbus with
  | fails e _ h hbal =>
    rw [load_fails_iff e ht hmoves hu rfl hbal]
    exact ⟨fun hneg => .inl ⟨h, hneg⟩,
      fun hor => hor.elim And.right fun hr => absurd hr.1 h.not_ready⟩
  | silent _ h hnot hm hheld hbal =>
    -- the windows are mapped, the interrupts are not requested
    refine iff_of_false ?_ (not_or_intro (fun hor => hnot hor.1) fun hor => h hor.1)
    obtain ⟨rc, v, hv, hcdev⟩ := exec_bifrostCdevInit env u
    cases rc with
    | some e =>
      exact load_leaks ht hmoves hu hheld (by simp [cdevResources]) (by simp) (hbal _ (by simp)) hv
        hcdev
    | none =>
      rw [load_returns ht hu hv]
      intro hplace
      have hdev := hplace .platformDevice (by simp [busResources, hm])
      have hdev' := hbal .platformDevice (by simp)
      have hs := hfirst .platformDevice (by simp)
      have hc := hcdev.others .platformDevice (by simp [cdevResources])
      rw [hs.1, hs.2, ← hc.1, ← hc.2, hdev.1, hdev.2] at hdev'
      omega
  | ready _ h hnot hheld hrest =>
    obtain ⟨rc, v, hv, hcdev⟩ := exec_bifrostCdevInit env u
    rw [or_iff_right (fun hor => hnot hor.1)]
    cases rc with
    | some e =>
      refine iff_of_false ?_ fun hor => nomatch (hcdev.ready hor.2).1
      obtain ⟨r, hr, hr', hr''⟩ : ∃ r ∈ busResources membus, r ∉ cdevResources ∧
          r ∉ firstResources := by
        cases membus with
        | true => exact ⟨.window 0, by simp [busResources], by simp [cdevResources], by simp⟩
        | false => exact ⟨.pciDriver, by simp [busResources], by simp [cdevResources], by simp⟩
      have hbdev := hrest .bdev (by simp)
      refine load_leaks ht hmoves hu (hheld r hr).leaked hr' hr'' ?_ hv hcdev
      rw [hbdev.1, hbdev.2]
    | none =>
      rw [load_returns ht hu hv]
      have hnotcdev : ∀ r ∈ firstResources ++ busResources membus, r ∉ cdevResources := by
        cases membus <;> simp [busResources, cdevResources]
      have hbusfirst : ∀ r ∈ busResources membus ++ cdevResources, r ∉ firstResources := by
        cases membus <;> simp [busResources, cdevResources]
      refine ⟨fun hplace => ⟨h, ?_⟩, fun hready r hr => ?_⟩
      · by_contra hmissing
        obtain ⟨r, hr, hun⟩ := hcdev.missing hmissing rfl
        have hs := hfirst r (hbusfirst r (List.mem_append_right _ hr))
        have ht := hrest r (List.mem_append_right _ hr)
        have hheld := (hplace r (by simp [hr])).1
        rw [((hs.trans ht).trans hun).1] at hheld
        omega
      · rw [List.mem_append, List.mem_append] at hr
        rcases hr with (hr | hr) | hr
        · have hcount : firstResources.count r = 1 :=
            List.count_eq_one_of_mem (by decide) hr
          exact ((hmoves.holds hcount).trans (hrest r (List.mem_append_left _ hr))).trans
            (hcdev.others r (hnotcdev r (List.mem_append_left _ hr)))
        · exact ((hfirst r (hbusfirst r (List.mem_append_left _ hr))).holds (hheld r hr)).trans
            (hcdev.others r (hnotcdev r (List.mem_append_right _ hr)))
        · have hs := hfirst r (hbusfirst r (List.mem_append_right _ hr))
          exact (hs.trans (hrest r (List.mem_append_right _ hr))).holds
            ((hcdev.ready hready.2).2 r hr)

/-- `cdev_add` runs out of memory, `ret` happens to hold `-ENOMEM`. -/
def cdevRefused : Env
  | .take .cdev => some .ENOMEM
  | .uninitialised _ => Errno.ENOMEM.toInt
  | op => granted op

/-- If the character device cannot be added, loading fails and frees the device structure, but the
PCI driver stays registered. -/
theorem init_leaves_driver_registered :
    ¬ ∀ (membus : Bool) (env : Env) (s : State), ∀ rc t,
      exec env (bifrostInit membus) s = some (rc, t) → LoadAllOrNothing membus s rc t := by
  intro h
  have hbal := (h false cdevRefused (.fresh []) (-12) _ rfl).2 .pciDriver
  revert hbal
  decide

end Load
end BifrostModule.Lifecycle
