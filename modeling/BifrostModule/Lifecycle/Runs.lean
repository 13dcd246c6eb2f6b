import BifrostModule.Lifecycle.Driver

/-! # What the lifecycle functions take and give back

Each function is run without interruption. The resources that a run takes and
those that it gives back are two lists, which add up along a sequence of runs.
-/
namespace BifrostModule.Lifecycle
open Foundation Regb

section Exec
variable {α β : Type} (env : Env)

def exec (p : Driver α) (s : State) : Option (α × State) := p.run services env s

@[simp] theorem exec_ret (a : α) (s : State) : exec env (.ret a) s = some (a, s) := rfl

theorem exec_bind (p : Driver α) (k : α → Driver β) (s : State) :
    exec env (p >>= k) s = (exec env p s).bind fun r => exec env (k r.1) r.2 :=
  Program.run_bind services env p k s

@[simp] theorem exec_take (r : Resource) (s : State) :
    exec env (take r) s =
      some (env (.take r), (env (.take r)).elim (s.take r) fun _ => s.refuse r) := rfl

@[simp] theorem exec_managed (r : Managed) (s : State) :
    exec env (managed r) s =
      some (env (.managed r), (env (.managed r)).elim (s.manage r) fun _ => s) := rfl

@[simp] theorem exec_give (r : Resource) (s : State) :
    exec env (give r) s = some ((), s.give r) := rfl

@[simp] theorem exec_platformDeviceUnregister (s : State) :
    exec env platformDeviceUnregister s = some ((), s.unregisterPlatformDevice) := rfl

@[simp] theorem exec_check (c : Check) (s : State) :
    exec env (check c) s = some (env (.check c), s) := rfl

@[simp] theorem exec_uninitialised (v : Uninitialised) (s : State) :
    exec env (uninitialised v) s = some (env (.uninitialised v), s) := rfl

@[simp] theorem exec_resourceLen (b : Bar) (s : State) :
    exec env (resourceLen b) s = some (env (.resourceLen b), s) := rfl

@[simp] theorem exec_get (q : Query) (s : State) : exec env (get q) s = some (s.query q, s) := rfl

@[simp] theorem exec_set (w : Write) (s : State) : exec env (set w) s = some ((), s.write w) := rfl

@[simp] theorem exec_readDma (reg : DmaRegister) (s : State) :
    exec env (readDma reg) s = some (env (.readDma reg), s) := rfl

theorem exec_forM_cons {ι : Type} (f : ι → Driver Unit) (i : ι) (is : List ι) (s : State) :
    exec env ((i :: is).forM f) s = (exec env (f i) s).bind fun r => exec env (is.forM f) r.2 :=
  exec_bind env (f i) (fun _ => is.forM f) s

end Exec

/-- A run takes the resources `got` and gives back the resources `back`. -/
structure Moves (s t : State) (got back : List Resource) : Prop where
  taken : ∀ r, t.taken r = s.taken r + got.count r
  given : ∀ r, t.given r = s.given r + back.count r

namespace Moves
variable {s t u : State} {got got' back back' : List Resource}

theorem none_of_eq (ht : t.taken = s.taken) (hg : t.given = s.given) : Moves s t [] [] where
  taken := by simp [ht]
  given := by simp [hg]

theorem trans (h : Moves s t got back) (h' : Moves t u got' back') :
    Moves s u (got ++ got') (back ++ back') where
  taken r := by rw [h'.taken, h.taken, List.count_append, Nat.add_assoc]
  given r := by rw [h'.given, h.given, List.count_append, Nat.add_assoc]

theorem perm (h : Moves s t got back) (hg : got.Perm got') (hb : back.Perm back') :
    Moves s t got' back' where
  taken r := by rw [h.taken, hg.count_eq]
  given r := by rw [h.given, hb.count_eq]

theorem count (s : State) (r : Resource) : Moves s (s.count r) [r] [] where
  taken q := by
    by_cases h : q = r
    · simp [State.count, h]
    · simp [State.count, h, Ne.symm h]
  given q := by simp [State.count]

theorem discount (s : State) (r : Resource) : Moves s (s.discount r) [] [r] where
  taken q := by simp [State.discount]
  given q := by
    by_cases h : q = r
    · simp [State.discount, h]
    · simp [State.discount, h, Ne.symm h]

/-- Only the ledger matters. -/
theorem congr_right (h : Moves s t got back) (ht : u.taken = t.taken) (hg : u.given = t.given) :
    Moves s u got back where
  taken r := by rw [ht, h.taken]
  given r := by rw [hg, h.given]

theorem foldl_discount (s : State) (rs : List Resource) :
    Moves s (rs.foldl State.discount s) [] rs := by
  induction rs generalizing s with
  | nil => exact none_of_eq rfl rfl
  | cons r rs ih => exact (discount s r).trans (ih (s.discount r))

end Moves

theorem moves_take (s : State) (r : Resource) : Moves s (s.take r) [r] [] := by
  cases r <;> exact (Moves.count s _).congr_right rfl rfl

theorem moves_refuse (s : State) (r : Resource) : Moves s (s.refuse r) [] [] := by
  cases r <;> exact Moves.none_of_eq rfl rfl

theorem moves_write (s : State) (w : Write) : Moves s (s.write w) [] [] := by
  cases w with
  | enableDmaCh c irq =>
    simp only [State.write]
    cases s.dmaCtl <;> exact Moves.none_of_eq rfl rfl
  | _ => exact Moves.none_of_eq rfl rfl

theorem moves_give (s : State) (r : Resource) : Moves s (s.give r) [] [r] := by
  cases r with
  | dmaCtl =>
    simp only [State.give]
    cases s.dmaCtl <;> exact (Moves.discount s _).congr_right rfl rfl
  | _ => exact (Moves.discount s _).congr_right rfl rfl

/-- Two states that differ in their BARs and their ledger only. -/
def SameButRegb (s t : State) : Prop :=
  t = { s with regb := t.regb, taken := t.taken, given := t.given }

theorem SameButRegb.trans {s t u : State} (h : SameButRegb s t) (h' : SameButRegb t u) :
    SameButRegb s u := by
  unfold SameButRegb at *
  rw [h', h]

section Regions
variable (env : Env)

/-- A BAR is set up: it ends up mapped and enabled exactly if `ok`, nothing else changes. -/
structure SetsUp (b : Bar) (ok : Bool) (s t : State) : Prop where
  moves : Moves s t (if ok then [.window b] else []) []
  same : SameButRegb s t
  mapped : (t.regb b).mapped = ok
  enabled : (t.regb b).mem.enabled = ok
  others : ∀ c, c ≠ b → t.regb c = s.regb c

def windows (ok : Bar → Bool) (bs : List Bar) : List Resource := (bs.filter ok).map .window

structure SetsUpAll (bs : List Bar) (ok : Bar → Bool) (s t : State) : Prop where
  moves : Moves s t (windows ok bs) []
  same : SameButRegb s t
  mapped : ∀ b ∈ bs, (t.regb b).mapped = ok b
  enabled : ∀ b ∈ bs, (t.regb b).mem.enabled = ok b
  others : ∀ c, c ∉ bs → t.regb c = s.regb c

theorem exec_setupIoRegions {initAndMap : Bar → Driver Rc} {ok : Bar → Bool}
    (hone : ∀ b s, ∃ rc t, exec env (initAndMap b) s = some (rc, t) ∧ rc.isNone = ok b ∧
      SetsUp b (ok b) s t) (bs : List Bar) (hbs : bs.Nodup) (s : State) :
    ∃ t, exec env (setupIoRegions initAndMap bs) s = some ((bs.filter ok).length, t) ∧
      SetsUpAll bs ok s t := by
  induction bs generalizing s with
  | nil => exact ⟨s, rfl, Moves.none_of_eq rfl rfl, rfl, by simp, by simp, fun _ _ => rfl⟩
  | cons b bs ih =>
    obtain ⟨hb, hbs⟩ := List.nodup_cons.mp hbs
    obtain ⟨rc, u, hu, hrc, hset⟩ := hone b s
    obtain ⟨t, ht, hall⟩ := ih hbs u
    refine ⟨t, ?_, ?_, hset.same.trans hall.same, ?_, ?_, ?_⟩
    · simp only [setupIoRegions, exec_bind, hu, ht, Option.bind_some, hrc]
      cases hok : ok b <;> simp [hok]
    · have h := hset.moves.trans hall.moves
      cases hok : ok b <;> simpa [windows, hok] using h
    · intro c hc
      rcases List.mem_cons.mp hc with rfl | hc
      · rw [hall.others c hb, hset.mapped]
      · exact hall.mapped c hc
    · intro c hc
      rcases List.mem_cons.mp hc with rfl | hc
      · rw [hall.others c hb, hset.enabled]
      · exact hall.enabled c hc
    · intro c hc
      rw [List.mem_cons, not_or] at hc
      rw [hall.others c hc.2, hset.others c hc.1]

theorem setsUp_refused (b : Bar) (size : ℕ) (fns : AccessFns) (s : State) :
    SetsUp b false s (s.write (.initDeviceMemory b size fns)) := by
  refine ⟨moves_write _ _, rfl, ?_, ?_, fun c hc => ?_⟩
  all_goals simp [State.write, State.setWindow, *]

theorem setsUp_granted (b : Bar) (size : ℕ) (fns : AccessFns) (s : State) :
    SetsUp b true s ((s.write (.initDeviceMemory b size fns)).take (.window b)) := by
  refine ⟨(moves_write _ _).trans (moves_take _ _), rfl, ?_, ?_, fun c hc => ?_⟩
  all_goals simp [State.write, State.take, State.setWindow, State.count, *]

/-- The BARs that are not empty and whose mapping succeeds. -/
def Pci.maps (b : Bar) : Bool :=
  decide (env (.resourceLen b) ≠ 0) && (env (.take (.window b))).isNone

theorem Pci.exec_initAndMap (b : Bar) (s : State) :
    ∃ rc t, exec env (Pci.initAndMap b) s = some (rc, t) ∧ rc.isNone = Pci.maps env b ∧
      SetsUp b (Pci.maps env b) s t := by
  by_cases h : env (.resourceLen b) = 0
  · refine ⟨some .EINVAL, _, by simp [Pci.initAndMap, exec_bind, h]; rfl, by simp [Pci.maps, h], ?_⟩
    simpa [Pci.maps, h] using setsUp_refused b 0 .deviceMemory s
  · cases hrc : env (.take (.window b)) with
    | none =>
      refine ⟨none, _, by simp [Pci.initAndMap, exec_bind, h, hrc]; rfl, ?_, ?_⟩
      · simp [Pci.maps, h, hrc]
      · simpa [Pci.maps, h, hrc] using setsUp_granted b _ .deviceMemory s
    | some e =>
      refine ⟨some .EFAULT, _, by simp [Pci.initAndMap, exec_bind, h, hrc]; rfl, ?_, ?_⟩
      · simp [Pci.maps, h, hrc]
      · simpa [Pci.maps, h, hrc, State.refuse] using setsUp_refused b _ .deviceMemory s

/-- The two BARs of the memory bus whose mapping succeeds. -/
def Membus.maps (b : Bar) : Bool := decide (b.val < 2) && (env (.take (.window b))).isNone

theorem Membus.exec_initAndMap (b : Bar) (s : State) :
    ∃ rc t, exec env (Membus.initAndMap b) s = some (rc, t) ∧ rc.isNone = Membus.maps env b ∧
      SetsUp b (Membus.maps env b) s t := by
  by_cases h : b.val < 2
  · have h' : ¬ 2 ≤ b.val := Nat.not_le.mpr h
    cases hrc : env (.take (.window b)) with
    | none =>
      refine ⟨none, _, by simp [Membus.initAndMap, exec_bind, h', hrc]; rfl, ?_, ?_⟩
      · simp [Membus.maps, h, hrc]
      · simpa [Membus.maps, h, hrc] using setsUp_granted b 4096 .membusDeviceMemory s
    | some e =>
      refine ⟨some .EFAULT, _, by simp [Membus.initAndMap, exec_bind, h', hrc]; rfl, ?_, ?_⟩
      · simp [Membus.maps, h, hrc]
      · simpa [Membus.maps, h, hrc, State.refuse] using
          setsUp_refused b 4096 .membusDeviceMemory s
  · have h' : 2 ≤ b.val := Nat.not_lt.mp h
    refine ⟨some .EINVAL, _, by simp [Membus.initAndMap, exec_bind, h']; rfl, ?_, ?_⟩
    · simp [Membus.maps, h]
    · simpa [Membus.maps, h] using setsUp_refused b 4096 .membusDeviceMemory s

theorem exec_unmapDeviceMemory (b : Bar) (s : State) :
    ∃ t, exec env (unmapDeviceMemory b) s = some ((), t) ∧
      Moves s t [] (if (s.regb b).mem.enabled then [.window b] else []) ∧ SameButRegb s t ∧
      ∀ c, c ≠ b → t.regb c = s.regb c := by
  cases h : (s.regb b).mem.enabled with
  | true =>
    refine ⟨(s.give (.window b)).write (.disable b), ?_, ?_, rfl, fun c hc => ?_⟩
    · simp [unmapDeviceMemory, exec_bind, State.query, h]
    · exact (moves_give _ _).trans (moves_write _ _)
    · simp [State.give, State.write, State.setWindow, State.discount, hc]
  | false =>
    refine ⟨s.write (.disable b), ?_, moves_write _ _, rfl, fun c hc => ?_⟩
    · simp [unmapDeviceMemory, exec_bind, State.query, h]
    · simp [State.write, State.setWindow, hc]

theorem exec_forM_unmap (bs : List Bar) (hbs : bs.Nodup) (s : State) :
    ∃ t, exec env (bs.forM unmapDeviceMemory) s = some ((), t) ∧
      Moves s t [] (windows (fun b => (s.regb b).mem.enabled) bs) ∧ SameButRegb s t := by
  induction bs generalizing s with
  | nil => exact ⟨s, rfl, Moves.none_of_eq rfl rfl, rfl⟩
  | cons b bs ih =>
    obtain ⟨hb, hbs⟩ := List.nodup_cons.mp hbs
    obtain ⟨u, hu, hmoves, hsame, hothers⟩ := exec_unmapDeviceMemory env b s
    obtain ⟨t, ht, hmoves', hsame'⟩ := ih hbs u
    refine ⟨t, ?_, ?_, hsame.trans hsame'⟩
    · rw [exec_forM_cons, hu]
      exact ht
    · have hrest : windows (fun c => (u.regb c).mem.enabled) bs =
          windows (fun c => (s.regb c).mem.enabled) bs := by
        simp only [windows]
        congr 1
        apply List.filter_congr
        intro c hc
        rw [hothers c fun h => hb (h ▸ hc)]
      have h := hmoves.trans hmoves'
      rw [hrest] at h
      cases hen : (s.regb b).mem.enabled <;> simpa [windows, hen] using h

/-- `remove_io_regions` gives exactly the enabled windows back. -/
theorem exec_removeIoRegions (s : State) :
    ∃ t, exec env removeIoRegions s = some ((), t) ∧
      Moves s t [] (windows (fun b => (s.regb b).mem.enabled) bars) ∧ SameButRegb s t :=
  exec_forM_unmap env bars (List.nodup_finRange _) s

end Regions

section FpgaIrqs
variable (env : Env)

def SameButDevice (s t : State) : Prop :=
  t = { s with pMemDev := t.pMemDev, taken := t.taken, given := t.given }

/-- Everything that was taken since `s` has been given back. -/
def Balanced (s t : State) : Prop := ∀ r, t.taken r + s.given r = s.taken r + t.given r

theorem Moves.balanced {s t : State} {rs : List Resource} (h : Moves s t rs rs) : Balanced s t := by
  intro r
  rw [h.taken, h.given]
  omega

theorem moves_unregister {s : State} {ms : List Managed} (h : s.pMemDev = some ms) :
    Moves s s.unregisterPlatformDevice [] (.platformDevice :: ms.map Managed.resource) := by
  simp only [State.unregisterPlatformDevice, h, Option.elim_some]
  exact ((Moves.discount s _).trans (Moves.foldl_discount _ _)).congr_right rfl rfl

theorem sameButDevice_foldl (s : State) (rs : List Resource) :
    SameButDevice s (rs.foldl State.discount s) := by
  induction rs generalizing s with
  | nil => rfl
  | cons r rs ih =>
    have h := ih (s.discount r)
    unfold SameButDevice at *
    rw [List.foldl_cons, h]
    rfl

/-- The platform device is there and manages the interrupts `is`. -/
structure Managing (s t : State) (is : List (Fin 3)) : Prop where
  same : SameButDevice s t
  manages : ∃ ms, t.pMemDev = some ms ∧
    Moves s t (.platformDevice :: ms.map Managed.resource) [] ∧
    ∀ i, ms.count (.fpgaIrq i) = is.count i

namespace Managing
variable {env} {s t : State} {is : List (Fin 3)}

theorem device (s : State) : Managing s (s.take .platformDevice) [] :=
  ⟨rfl, [], rfl, moves_take _ _, fun _ => rfl⟩

theorem manage (h : Managing s t is) (r : Managed) {js : List (Fin 3)}
    (hjs : ∀ i, [r].count (.fpgaIrq i) = js.count i) : Managing s (t.manage r) (is ++ js) := by
  obtain ⟨ms, hms, hmoves, hcount⟩ := h.manages
  refine ⟨?_, ms ++ [r], by simp [State.manage, hms], ?_, fun i => ?_⟩
  · have hs := h.same
    unfold SameButDevice at *
    rw [hs]
    rfl
  · have hadd := (hmoves.trans (Moves.count t r.resource)).congr_right (u := t.manage r) rfl rfl
    simpa using hadd
  · rw [List.count_append, List.count_append, hcount, hjs]

theorem gpio (h : Managing s t is) (i : Fin 3) (rc : Rc) :
    Managing s (rc.elim (t.manage (.gpio i)) fun _ => t) is := by
  cases rc with
  | none => simpa using h.manage (.gpio i) (show ∀ j, _ = [].count j from fun j => by simp)
  | some e => exact h

theorem fpgaIrq (h : Managing s t is) (i : Fin 3) :
    Managing s (t.manage (.fpgaIrq i)) (is ++ [i]) :=
  h.manage (.fpgaIrq i) fun j => by simp [List.count_singleton]

theorem unregister (h : Managing s t is) :
    Balanced s t.unregisterPlatformDevice ∧ SameButDevice s t.unregisterPlatformDevice := by
  obtain ⟨ms, hms, hmoves, -⟩ := h.manages
  constructor
  · have hall := hmoves.trans (moves_unregister hms)
    rw [List.append_nil, List.nil_append] at hall
    exact hall.balanced
  · have hs := h.same
    have hfold := sameButDevice_foldl (t.discount .platformDevice) (ms.map Managed.resource)
    unfold SameButDevice at *
    simp only [State.unregisterPlatformDevice, hms, Option.elim_some]
    rw [hfold, hs]
    rfl

end Managing

/-- What `bifrost_fvd_init` returns for one line: what `rc` held before it if the line is no valid
GPIO. -/
def lineRc (i : Fin 3) (invalid next : ℤ) : ℤ :=
  if env (.check (.gpioIsValid i)) then (env (.managed (.fpgaIrq i))).elim next Errno.toInt
  else invalid

def LineReady (i : Fin 3) : Prop :=
  env (.check (.gpioIsValid i)) = true ∧ env (.managed (.fpgaIrq i)) = none

/-- With the lines ready the device manages the interrupts, otherwise everything is given back. -/
structure Settled (ready : Prop) (s t : State) (is : List (Fin 3)) : Prop where
  managing : ready → Managing s t is
  balanced : ¬ ready → Balanced s t
  same : SameButDevice s t

theorem exec_requestFpgaIrq {i : Fin 3} {invalid next : Driver ℤ} {v n : ℤ} {ready : Prop}
    {s t : State} {is js : List (Fin 3)} (h : Managing s t is)
    (hinvalid : ∀ u, exec env invalid u = some (v, u))
    (hnext : ∀ u, Managing s u (is ++ [i]) →
      ∃ u', exec env next u = some (n, u') ∧ Settled ready s u' js) :
    ∃ u, exec env (Membus.requestFpgaIrq i invalid next) t = some (lineRc env i v n, u) ∧
      Settled (LineReady env i ∧ ready) s u js := by
  have hgpio := h.gpio i (env (.managed (.gpio i)))
  cases hvalid : env (.check (.gpioIsValid i)) with
  | false =>
    obtain ⟨hbal, hsame⟩ := h.unregister
    refine ⟨t.unregisterPlatformDevice, ?_, fun hr => ?_, fun _ => hbal, hsame⟩
    · simp [Membus.requestFpgaIrq, exec_bind, hvalid, hinvalid, lineRc]
    · simp [LineReady, hvalid] at hr
  | true =>
    cases hirq : env (.managed (.fpgaIrq i)) with
    | some e =>
      obtain ⟨hbal, hsame⟩ := hgpio.unregister
      refine ⟨_, ?_, fun hr => ?_, fun _ => hbal, hsame⟩
      · simp [Membus.requestFpgaIrq, exec_bind, hvalid, hirq, lineRc]
      · simp [LineReady, hirq] at hr
    | none =>
      obtain ⟨u, hu, hset⟩ := hnext _ (hgpio.fpgaIrq i)
      refine ⟨u, ?_, fun hr => hset.managing hr.2, fun hr => hset.balanced fun h' => hr ?_,
        hset.same⟩
      · simpa [Membus.requestFpgaIrq, exec_bind, hvalid, hirq, lineRc] using hu
      · exact ⟨⟨hvalid, hirq⟩, h'⟩

def FpgaReady : Prop :=
  env (.take .platformDevice) = none ∧ LineReady env 0 ∧ LineReady env 1 ∧ LineReady env 2

def fvdRc : ℤ :=
  if (env (.take .platformDevice)).isSome then env (.uninitialised .fvdInitRc)
  else lineRc env 0 (env (.uninitialised .fvdInitRc)) (lineRc env 1 0 (lineRc env 2 0 0))

theorem exec_bifrostFvdInit (s : State) :
    ∃ t, exec env Membus.bifrostFvdInit s = some (fvdRc env, t) ∧
      Settled (FpgaReady env) s t [0, 1, 2] := by
  cases hdev : env (.take .platformDevice) with
  | some e =>
    refine ⟨{ s with pMemDev := none }, ?_, fun hr => ?_, fun _ r => rfl, rfl⟩
    · simp [Membus.bifrostFvdInit, exec_bind, hdev, State.refuse, fvdRc]
    · simp [FpgaReady, hdev] at hr
  | none =>
    have hlines : ∃ u, exec env (Membus.requestFpgaIrq 0 (uninitialised .fvdInitRc) <|
        Membus.requestFpgaIrq 1 (pure 0) <| Membus.requestFpgaIrq 2 (pure 0) <| pure 0)
        (s.take .platformDevice) = some (fvdRc env, u) ∧
        Settled (LineReady env 0 ∧ LineReady env 1 ∧ LineReady env 2 ∧ True) s u [0, 1, 2] := by
      simp only [fvdRc, hdev, Option.isSome_none, Bool.false_eq_true, if_false]
      apply exec_requestFpgaIrq env (Managing.device s) fun _ => rfl
      intro u hu
      apply exec_requestFpgaIrq env hu fun _ => rfl
      intro u hu
      apply exec_requestFpgaIrq env hu fun _ => rfl
      intro u hu
      exact ⟨u, rfl, fun _ => hu, fun h => absurd trivial h, hu.same⟩
    obtain ⟨u, hu, hset⟩ := hlines
    have hready : FpgaReady env ↔ LineReady env 0 ∧ LineReady env 1 ∧ LineReady env 2 ∧ True := by
      simp [FpgaReady, hdev]
    refine ⟨u, ?_, propext hready ▸ hset⟩
    simpa [Membus.bifrostFvdInit, exec_bind, hdev] using hu

theorem fvdRc_ready (h : FpgaReady env) : fvdRc env = 0 := by
  obtain ⟨hdev, h0, h1, h2⟩ := h
  simp [fvdRc, lineRc, hdev, h0.1, h0.2, h1.1, h1.2, h2.1, h2.2]

end FpgaIrqs

section Msis
variable (env : Env)

def SameButMsi (s t : State) : Prop :=
  t = { s with msi := t.msi, taken := t.taken, given := t.given }

def attaches (v : Vec) : Bool := (msiTable v).isSome && (env (.take (.msiIrq v))).isNone

def Detached (s : State) (v : Vec) : Prop := s.msi v = ⟨msiTable v, none⟩

theorem exec_attachMsi (hwIrq : ℤ) {v : Vec} {s : State} (hv : Detached s v) :
    ∃ t, exec env (Pci.attachMsi hwIrq v) s = some ((), t) ∧
      Moves s t (if attaches env v then [.msiIrq v] else []) [] ∧ SameButMsi s t ∧
      ∀ u, u ≠ v → t.msi u = s.msi u := by
  cases htable : (msiTable v) with
  | none =>
    refine ⟨s, ?_, ?_, rfl, fun _ _ => rfl⟩
    · simp [Pci.attachMsi, exec_bind, State.query, show s.msi v = _ from hv, htable]
    · simpa [attaches, htable] using Moves.none_of_eq (s := s) rfl rfl
  | some isr =>
    cases hrc : env (.take (.msiIrq v)) with
    | none =>
      refine ⟨(s.write (.msiIrq v (some (hwIrq + v.val)))).take (.msiIrq v), ?_, ?_, rfl,
        fun u hu => ?_⟩
      · simp [Pci.attachMsi, Pci.requestMsi, exec_bind, State.query, show s.msi v = _ from hv,
          htable, hrc]
      · simpa [attaches, htable, hrc] using
          (moves_write s (.msiIrq v (some (hwIrq + v.val)))).trans (moves_take _ (.msiIrq v))
      · simp [State.write, State.take, State.count, State.setMsi, hu]
    | some e =>
      refine ⟨(s.write (.msiIrq v (some (hwIrq + v.val)))).write (.msiIrq v none), ?_, ?_, rfl,
        fun u hu => ?_⟩
      · simp [Pci.attachMsi, Pci.requestMsi, exec_bind, State.query, show s.msi v = _ from hv,
          htable, hrc, State.refuse]
      · simpa [attaches, htable, hrc] using
          (moves_write s (.msiIrq v (some (hwIrq + v.val)))).trans (moves_write _ (.msiIrq v none))
      · simp [State.write, State.setMsi, hu]

theorem exec_forM_attach (hwIrq : ℤ) (vs : List Vec) (hvs : vs.Nodup) (s : State)
    (hs : ∀ v ∈ vs, Detached s v) :
    ∃ t, exec env (vs.forM (Pci.attachMsi hwIrq)) s = some ((), t) ∧
      Moves s t ((vs.filter (attaches env)).map .msiIrq) [] ∧ SameButMsi s t := by
  induction vs generalizing s with
  | nil => exact ⟨s, rfl, Moves.none_of_eq rfl rfl, rfl⟩
  | cons v vs ih =>
    obtain ⟨hv, hvs⟩ := List.nodup_cons.mp hvs
    obtain ⟨u, hu, hmoves, hsame, hothers⟩ := exec_attachMsi env hwIrq (hs v List.mem_cons_self)
    obtain ⟨t, ht, hmoves', hsame'⟩ := ih hvs u fun w hw => by
      have hd := hs w (List.mem_cons_of_mem v hw)
      unfold Detached at *
      rw [hothers w fun h => hv (h ▸ hw), hd]
    refine ⟨t, ?_, ?_, ?_⟩
    · rw [exec_forM_cons, hu]
      exact ht
    · have h := hmoves.trans hmoves'
      cases ha : attaches env v <;> simpa [ha] using h
    · unfold SameButMsi at *
      rw [hsame', hsame]

def msiVectors (p : Platform) : List Vec := (List.finRange 32).filter (·.val < p.msiInterrupts)

theorem nodup_msiVectors (p : Platform) : (msiVectors p).Nodup := (List.nodup_finRange 32).filter _

theorem exec_attachMsis (p : Platform) (hwIrq : ℤ) {s : State} (hs : ∀ v, Detached s v) :
    ∃ t, exec env (Pci.bifrostAttachMsisToIrq p hwIrq) s = some ((), t) ∧
      Moves s t (((msiVectors p).filter (attaches env)).map .msiIrq) [] ∧ SameButMsi s t := by
  have hnodup := nodup_msiVectors p
  cases hp : p.fvd with
  | false =>
    obtain ⟨t, ht, h⟩ := exec_forM_attach env hwIrq (msiVectors p) hnodup s fun v _ => hs v
    refine ⟨t, ?_, h⟩
    simpa [Pci.bifrostAttachMsisToIrq, exec_bind, hp, msiVectors] using ht
  | true =>
    have hcopy : ∀ v ∈ msiVectors p, Detached (s.write (.copyMsiFvd p.msiInterrupts)) v := by
      intro v hv
      have hlt : v.val < p.msiInterrupts := by simpa [msiVectors] using hv
      have hzero : v.val = 0 := by
        rw [Platform.msiInterrupts, hp, if_pos rfl] at hlt
        exact Nat.lt_one_iff.mp hlt
      simp only [Detached, State.write, hlt, if_true]
      simp [msiFvdTable, msiTable, hzero]
    obtain ⟨t, ht, hmoves, hsame⟩ := exec_forM_attach env hwIrq (msiVectors p) hnodup _ hcopy
    refine ⟨t, ?_, (moves_write s (.copyMsiFvd p.msiInterrupts)).trans hmoves, ?_⟩
    · simpa [Pci.bifrostAttachMsisToIrq, exec_bind, hp, msiVectors] using ht
    · unfold SameButMsi at *
      rw [hsame]
      rfl

end Msis

section Controller
variable (env : Env)

theorem exec_forM_set {ι : Type} (w : ι → Write) (is : List ι) (s : State) :
    ∃ t, exec env (is.forM fun i => set (w i)) s = some ((), t) ∧ Moves s t [] [] := by
  induction is generalizing s with
  | nil => exact ⟨s, rfl, Moves.none_of_eq rfl rfl⟩
  | cons i is ih =>
    obtain ⟨t, ht, hmoves⟩ := ih (s.write (w i))
    refine ⟨t, ?_, (moves_write s (w i)).trans hmoves⟩
    rw [exec_forM_cons, exec_set]
    exact ht

/-- `bifrost_dma_init` takes a controller, or nothing if that fails. -/
theorem exec_bifrostDmaInit (p : Platform) (irq : ℤ) (s : State) :
    ∃ rc t, exec env (Pci.bifrostDmaInit p irq) s = some (rc, t) ∧
      rc.isNone = (env (.take .dmaCtl)).isNone ∧
      Moves s t (if (env (.take .dmaCtl)).isNone then [.dmaCtl] else []) [] := by
  cases hrc : env (.take .dmaCtl) with
  | none =>
    obtain ⟨t, ht, hmoves⟩ := exec_forM_set env
      (fun n : Dma.Chan => Write.enableDmaCh n (irq + n.val))
      ((List.finRange Dma.maxDmaChannels).filter
        (·.val < (env (.readDma .capability) &&& 0xf#32).toNat))
      (((s.write (.regbDma p.dmaBar)).take .dmaCtl).write (.dmaCtl
        (env (.readDma .capability) &&& 0xf#32).toNat
        (~~~(env (.readDma .status)) &&&
          (1#32 <<< (env (.readDma .capability) &&& 0xf#32).toNat - 1#32))))
    refine ⟨none, t, ?_, by simp, ?_⟩
    · simp only [Pci.bifrostDmaInit, exec_bind, exec_set, Option.bind_some, exec_readDma,
        exec_take, hrc, Option.elim_none, Option.isSome_none, Bool.false_eq_true, if_false]
      rw [ht]
      rfl
    · simpa using (((moves_write s (.regbDma p.dmaBar)).trans (moves_take _ .dmaCtl)).trans
        (moves_write _ _)).trans hmoves
  | some e =>
    refine ⟨some .ENOMEM, _, by simp [Pci.bifrostDmaInit, exec_bind, hrc]; rfl, by simp, ?_⟩
    simpa using ((moves_write s (.regbDma p.dmaBar)).trans (moves_refuse _ .dmaCtl)).trans
      (moves_write _ .nullDmaCtl)

end Controller
end BifrostModule.Lifecycle
