import BifrostModule.Animal.Gpio
import BifrostModule.Foundation.Machine

/-! # Chip select and adapter lock of a transfer

The ioctl of an animal-i2c handle is unlocked, so the threads that share a
handle run its transfers, `SET_GPIO` and `SET_ADAPTER` in any order. A transfer
reads the fields of the handle again whenever it uses them. Which lock it took
and which pin it raised is recorded beside it.
-/
namespace BifrostModule.Animal
open Foundation

/-- The fields of `struct animal_user_handle` that decide a transfer. -/
structure UserHandle where
  gpio : ℤ
  animalAdapter : ℕ
  deriving DecidableEq

/-- What is left of a transfer: `animal_i2c_xfer_begin` up to `raise`, the call of the i2c core, and
`animal_i2c_xfer_done` from `testDone` on. The adapter is the one whose lock is taken, `r` the pin
that is raised, and `b` the adapter that is unlocked. -/
inductive Xfer where
  | begin
  | lock (a : ℕ)
  | test (a : ℕ)
  | raise (a : ℕ)
  | transfer (a : ℕ) (r : Option ℤ)
  | testDone (a : ℕ) (r : Option ℤ)
  | lower (a : ℕ) (r : Option ℤ)
  | done (a : ℕ) (r : Option ℤ)
  | unlock (a : ℕ) (r : Option ℤ) (b : ℕ)
  deriving DecidableEq

namespace Xfer

def acquired : Xfer → Option ℕ
  | begin => none
  | lock _ => none
  | test a => some a
  | raise a => some a
  | transfer a _ => some a
  | testDone a _ => some a
  | lower a _ => some a
  | done a _ => some a
  | unlock a _ _ => some a

def raised : Xfer → Option ℤ
  | transfer _ r => r
  | testDone _ r => r
  | lower _ r => r
  | done _ r => r
  | unlock _ r _ => r
  | _ => none

/-- The adapter that the transfer has read from its handle and is to read once more. -/
def fetched : Xfer → Option ℕ
  | lock a => some a
  | unlock _ _ _ => none
  | x => x.acquired

def Raising (x : Xfer) : Prop := ∃ a ∈ x.acquired, x = raise a

instance (x : Xfer) : Decidable x.Raising := inferInstanceAs (Decidable (∃ a ∈ _, _))

end Xfer

/-- What is left of an ioctl. `SET_GPIO` compares, initialises the new pin and assigns it. -/
inductive Call where
  | xfer (x : Xfer)
  | setGpio (tmp : ℤ)
  | initGpio (tmp : ℤ)
  | assignGpio (v : ℤ)
  | assignAdapter (a : ℕ)
  deriving DecidableEq

/-- A pin that is high, on account of a thread that held the lock of an adapter. -/
structure Raise (τ : Type*) where
  thread : τ
  adapter : ℕ
  gpio : ℤ

/-- `adapters` and which of `dev->animal_adapter` were initialised. -/
structure Adapters where
  adapters : BitVec 32
  present : ℕ → Bool

/-- The default adapter of `animal_open`. -/
def Adapters.first (d : Adapters) : Option ℕ := (List.range d.adapters.toNat).find? d.present

/-- The handles, the adapter locks with their holders, the pins that are high, the unlocks of a
lock that the thread did not hold, and the ioctls in flight with their handles. -/
structure SelectState (τ : Type*) where
  hnd : ℕ → Option UserHandle
  gpioLock : ℕ → Option τ
  high : List (Raise τ)
  wrongUnlocks : List (τ × ℕ)
  call : τ → Option (ℕ × Call)

inductive Cmd where
  | setGpio (tmp : Option ℤ)
  | setAdapter (tmp : Option ℤ)
  | xfer (prepared : Bool)

inductive SelectLabel (τ : Type*) where
  | animalOpen (h : ℕ) (allocated : Bool)
  | animalRelease (h : ℕ)
  | ioctl (t : τ) (h : ℕ) (cmd : Cmd)
  | run (t : τ) (out : GpioOutcome)

namespace SelectState
variable {τ : Type*} [DecidableEq τ] (s : SelectState τ)

def initial : SelectState τ := ⟨fun _ => none, fun _ => none, [], [], fun _ => none⟩

def goto (t : τ) (h : ℕ) (c : Call) : SelectState τ :=
  { s with call := Function.update s.call t (some (h, c)) }

def ret (t : τ) : SelectState τ := { s with call := Function.update s.call t none }

def setHigh (r : Raise τ) : SelectState τ := { s with high := r :: s.high }

def setLow (gpio : ℤ) : SelectState τ := { s with high := s.high.filter fun r => r.gpio ≠ gpio }

def assign (h : ℕ) (hnd : UserHandle) : SelectState τ :=
  { s with hnd := Function.update s.hnd h (some hnd) }

def mutexLock (t : τ) (a : ℕ) : SelectState τ :=
  { s with gpioLock := Function.update s.gpioLock a (some t) }

def mutexUnlock (t : τ) (a : ℕ) : SelectState τ :=
  { s with
    gpioLock := Function.update s.gpioLock a none
    wrongUnlocks := if s.gpioLock a = some t then s.wrongUnlocks else (t, a) :: s.wrongUnlocks }

/-- `animal_i2c_xfer_begin`, the transfer and `animal_i2c_xfer_done`, one access to the handle, a
lock or a pin at a time. A lock that is held blocks. -/
def runXfer (t : τ) (h : ℕ) (hnd : UserHandle) : Xfer → Option (SelectState τ)
  | .begin => some (s.goto t h (.xfer (.lock hnd.animalAdapter)))
  | .lock a =>
    if s.gpioLock a = none then some ((s.mutexLock t a).goto t h (.xfer (.test a))) else none
  | .test a => some (s.goto t h (.xfer (if 0 ≤ hnd.gpio then .raise a else .transfer a none)))
  | .raise a =>
    some ((s.setHigh ⟨t, a, hnd.gpio⟩).goto t h (.xfer (.transfer a (some hnd.gpio))))
  | .transfer a r => some (s.goto t h (.xfer (.testDone a r)))
  | .testDone a r => some (s.goto t h (.xfer (if 0 ≤ hnd.gpio then .lower a r else .done a r)))
  | .lower a r =>
    some ((s.setLow hnd.gpio).goto t h (.xfer (.done a (r.filter (· ≠ hnd.gpio)))))
  | .done a r => some (s.goto t h (.xfer (.unlock a r hnd.animalAdapter)))
  | .unlock _ _ b => some ((s.mutexUnlock t b).ret t)

/-- The next step of an ioctl. What `SET_GPIO` frees makes no difference to the levels. -/
def runCall (t : τ) (h : ℕ) (hnd : UserHandle) (out : GpioOutcome) : Call → Option (SelectState τ)
  | .xfer x => s.runXfer t h hnd x
  | .setGpio tmp =>
    some (if tmp = hnd.gpio ∨ tmp < 0 then s.ret t else s.goto t h (.initGpio tmp))
  | .initGpio tmp =>
    some (if ¬ out.valid then s.goto t h (.assignGpio tmp)
      else if ¬ out.granted then s.goto t h (.assignGpio (-1))
      else if ¬ out.directionOk then s.goto t h (.assignGpio (-1))
      else (s.setLow tmp).goto t h (.assignGpio tmp))
  | .assignGpio v => some ((s.assign h { hnd with gpio := v }).ret t)
  | .assignAdapter a => some ((s.assign h { hnd with animalAdapter := a }).ret t)

def startIoctl (d : Adapters) (t : τ) (h : ℕ) : Cmd → SelectState τ
  | .setGpio none => s
  | .setGpio (some tmp) => s.goto t h (.setGpio tmp)
  | .setAdapter none => s
  | .setAdapter (some tmp) =>
    if tmp < 0 ∨ ((d.adapters - 1#32).toNat : ℤ) < tmp then s
    else if d.present tmp.toNat then s.goto t h (.assignAdapter tmp.toNat) else s
  | .xfer prepared => if prepared then s.goto t h (.xfer .begin) else s

def Unused (h : ℕ) : Prop := ∀ t, ∀ c ∈ s.call t, c.1 ≠ h

instance [Fintype τ] (h : ℕ) : Decidable (s.Unused h) :=
  inferInstanceAs (Decidable (∀ t, ∀ c ∈ s.call t, c.1 ≠ h))

/-- A handle is closed after its ioctls have returned. -/
def step [Fintype τ] (d : Adapters) (s : SelectState τ) : SelectLabel τ → Option (SelectState τ)
  | .animalOpen h allocated =>
    if s.hnd h = none then
      some (if allocated then d.first.elim s fun a => s.assign h ⟨-1, a⟩ else s)
    else none
  | .animalRelease h =>
    if s.Unused h then some { s with hnd := Function.update s.hnd h none } else none
  | .ioctl t h cmd =>
    if (s.hnd h).isSome ∧ s.call t = none then some (s.startIoctl d t h cmd) else none
  | .run t out => (s.call t).bind fun c => (s.hnd c.1).bind fun hnd => s.runCall t c.1 hnd out c.2

end SelectState

def chipSelect (τ : Type*) [DecidableEq τ] [Fintype τ] (d : Adapters) :
    Machine (SelectState τ) (SelectLabel τ) where
  start s := s = .initial
  step := SelectState.step d

namespace SelectState
variable {τ : Type*}

def InTransfer (s : SelectState τ) (t : τ) (a : ℕ) : Prop :=
  ∃ h x, s.call t = some (h, .xfer x) ∧ x.acquired = some a

/-- Locks are held and pins are high on account of transfers in progress only, no lock was released
that its releaser did not hold, and no two pins are high for one adapter. -/
structure Paired (s : SelectState τ) : Prop where
  released : ∀ a t, s.gpioLock a = some t → s.InTransfer t a
  lowered : ∀ r ∈ s.high, s.InTransfer r.thread r.adapter
  unlocks : s.wrongUnlocks = []
  single : ∀ r ∈ s.high, ∀ r' ∈ s.high, r.adapter = r'.adapter → r.gpio = r'.gpio

def xfer (s : SelectState τ) (h : ℕ) (t : τ) : Option Xfer :=
  match s.call t with
  | some (k, .xfer x) => if k = h then some x else none
  | _ => none

/-- The transfers of the handle have raised no pin, and those about to raise one can raise `v`. -/
def GpioFree (s : SelectState τ) (h : ℕ) (v : ℤ) : Prop :=
  ∀ t, ∀ x ∈ s.xfer h t, x.raised = none ∧ (x.Raising → 0 ≤ v)

/-- No transfer of the handle is to read the adapter a second time. -/
def AdapterFree (s : SelectState τ) (h : ℕ) : Prop := ∀ t, ∀ x ∈ s.xfer h t, x.fetched = none

def Harmless (s : SelectState τ) (h : ℕ) (hnd : UserHandle) : Call → Prop
  | .assignGpio v => v ≠ hnd.gpio → s.GpioFree h v
  | .assignAdapter a => a ≠ hnd.animalAdapter → s.AdapterFree h
  | _ => True

/-- A `SET_GPIO` or `SET_ADAPTER` only changes its field while no transfer of the handle depends on
it. -/
def Undisturbed (s : SelectState τ) : SelectLabel τ → Prop
  | .run t _ => ∀ c ∈ s.call t, ∀ hnd ∈ s.hnd c.1, s.Harmless c.1 hnd c.2
  | _ => True

section Decidable
variable [Fintype τ] (s : SelectState τ)

instance (h : ℕ) (v : ℤ) : Decidable (s.GpioFree h v) :=
  inferInstanceAs (Decidable (∀ t, ∀ x ∈ s.xfer h t, _))

instance (h : ℕ) : Decidable (s.AdapterFree h) :=
  inferInstanceAs (Decidable (∀ t, ∀ x ∈ s.xfer h t, _))

instance (h : ℕ) (hnd : UserHandle) : (c : Call) → Decidable (s.Harmless h hnd c)
  | .assignGpio v => inferInstanceAs (Decidable (v ≠ hnd.gpio → s.GpioFree h v))
  | .assignAdapter a => inferInstanceAs (Decidable (a ≠ hnd.animalAdapter → s.AdapterFree h))
  | .xfer _ => .isTrue trivial
  | .setGpio _ => .isTrue trivial
  | .initGpio _ => .isTrue trivial

instance : (a : SelectLabel τ) → Decidable (s.Undisturbed a)
  | .run t _ =>
    inferInstanceAs (Decidable (∀ c ∈ s.call t, ∀ hnd ∈ s.hnd c.1, s.Harmless c.1 hnd c.2))
  | .animalOpen _ _ => .isTrue trivial
  | .animalRelease _ => .isTrue trivial
  | .ioctl _ _ _ => .isTrue trivial

end Decidable
end SelectState

def Xfer.Ok (hnd : UserHandle) : Xfer → Prop
  | .begin => True
  | .lock a => hnd.animalAdapter = a
  | .test a => hnd.animalAdapter = a
  | .raise a => hnd.animalAdapter = a ∧ 0 ≤ hnd.gpio
  | .transfer a r => hnd.animalAdapter = a ∧ ∀ g ∈ r, hnd.gpio = g ∧ 0 ≤ g
  | .testDone a r => hnd.animalAdapter = a ∧ ∀ g ∈ r, hnd.gpio = g ∧ 0 ≤ g
  | .lower a r => hnd.animalAdapter = a ∧ ∀ g ∈ r, hnd.gpio = g ∧ 0 ≤ g
  | .done a r => hnd.animalAdapter = a ∧ r = none
  | .unlock a r b => b = a ∧ r = none

namespace SelectState
variable {τ : Type*} {s t : SelectState τ}

structure Inv (s : SelectState τ) : Prop where
  ok : ∀ t h x, s.call t = some (h, .xfer x) → ∃ hnd, s.hnd h = some hnd ∧ x.Ok hnd
  held : ∀ a t, s.gpioLock a = some t ↔ s.InTransfer t a
  high : ∀ r ∈ s.high, ∃ h x, s.call r.thread = some (h, .xfer x) ∧
    x.acquired = some r.adapter ∧ x.raised = some r.gpio
  unlocks : s.wrongUnlocks = []

theorem Inv.paired (hi : Inv s) : Paired s where
  released := fun a t h => (hi.held a t).mp h
  lowered := fun r hr => by
    obtain ⟨h, x, hcall, hacq, -⟩ := hi.high r hr
    exact ⟨h, x, hcall, hacq⟩
  unlocks := hi.unlocks
  single := fun r hr r' hr' heq => by
    obtain ⟨h, x, hcall, hacq, hraised⟩ := hi.high r hr
    obtain ⟨h', x', hcall', hacq', hraised'⟩ := hi.high r' hr'
    have hlock := (hi.held _ _).mpr ⟨h, x, hcall, hacq⟩
    have hlock' := (hi.held _ _).mpr ⟨h', x', hcall', hacq'⟩
    -- the lock has one holder, so both pins were raised by the same transfer
    rw [heq, hlock'] at hlock
    rw [← Option.some.inj hlock, hcall'] at hcall
    cases hcall
    exact Option.some.inj (hraised.symm.trans hraised')

/-- A pin that is high is not on account of a thread that has raised none. -/
theorem Inv.thread_ne (hi : Inv s) {u : τ}
    (hcall : ∀ k z, s.call u = some (k, .xfer z) → z.raised = none)
    {r : Raise τ} (hr : r ∈ s.high) : r.thread ≠ u := by
  intro hu
  obtain ⟨k, z, hz, -, hraised⟩ := hi.high r hr
  rw [hcall k z (hu ▸ hz)] at hraised
  cases hraised

theorem Inv.update (hi : Inv s) {h : ℕ} (o : Option UserHandle)
    (ho : ∀ v z hnd, s.call v = some (h, .xfer z) → s.hnd h = some hnd → z.Ok hnd →
      ∃ hnd', o = some hnd' ∧ z.Ok hnd') :
    Inv { s with hnd := Function.update s.hnd h o } where
  ok := fun v k z hz => by
    obtain ⟨hnd, hk, hok⟩ := hi.ok v k z hz
    by_cases hkh : k = h
    · subst hkh
      obtain ⟨hnd', rfl, hok'⟩ := ho v z hnd hz hk hok
      exact ⟨hnd', Function.update_self _ _ _, hok'⟩
    · exact ⟨hnd, (Function.update_of_ne hkh _ _).trans hk, hok⟩
  held := hi.held
  high := hi.high
  unlocks := hi.unlocks

theorem Inv.setLow (hi : Inv s) (gpio : ℤ) : Inv (s.setLow gpio) where
  ok := hi.ok
  held := hi.held
  high := fun r hr => hi.high r (List.mem_of_mem_filter hr)
  unlocks := hi.unlocks

theorem xfer_of_call {v : τ} {h : ℕ} {x : Xfer} (hcall : s.call v = some (h, .xfer x)) :
    s.xfer h v = some x := by
  simp [xfer, hcall]

section Step
variable [DecidableEq τ] {u : τ} {h : ℕ} {x y : Xfer} {hnd : UserHandle}

/-- An unchanged handle and the locks of the others. -/
theorem goto_inTransfer (hcall : s.call u = some (h, .xfer x)) (hacq : y.acquired = x.acquired)
    (v : τ) (a : ℕ) : (s.goto u h (.xfer y)).InTransfer v a ↔ s.InTransfer v a := by
  by_cases hv : v = u
  · subst hv
    simp [InTransfer, goto, hcall, hacq]
  · simp [InTransfer, goto, hv]

theorem Inv.goto (hi : Inv s) (hcall : s.call u = some (h, .xfer x)) (hhnd : s.hnd h = some hnd)
    (hok : y.Ok hnd) (hacq : y.acquired = x.acquired) (hraised : y.raised = x.raised) :
    Inv (s.goto u h (.xfer y)) where
  ok := fun v k z hz => by
    by_cases hv : v = u
    · subst hv
      simp only [SelectState.goto, Function.update_self, Option.some.injEq, Prod.mk.injEq,
        Call.xfer.injEq] at hz
      obtain ⟨rfl, rfl⟩ := hz
      exact ⟨hnd, hhnd, hok⟩
    · simp only [SelectState.goto, Function.update_of_ne hv] at hz
      exact hi.ok v k z hz
  held := fun a v => (hi.held a v).trans (goto_inTransfer hcall hacq v a).symm
  high := fun r hr => by
    obtain ⟨k, z, hz, hz'⟩ := hi.high r hr
    by_cases hv : r.thread = u
    · rw [hv, hcall] at hz
      cases hz
      refine ⟨h, y, by simp [SelectState.goto, hv], ?_⟩
      rwa [hacq, hraised]
    · exact ⟨k, z, by simpa [SelectState.goto, hv] using hz, hz'⟩
  unlocks := hi.unlocks

theorem goto_call (s : SelectState τ) (u : τ) (h : ℕ) (c : Call) (v : τ) :
    (s.goto u h c).call v = if v = u then some (h, c) else s.call v := by
  simp [SelectState.goto, Function.update_apply]

theorem ret_call (s : SelectState τ) (u v : τ) :
    (s.ret u).call v = if v = u then none else s.call v := by
  simp [ret, Function.update_apply]

theorem Inv.mutexLock (hi : Inv s) {a : ℕ} (hcall : s.call u = some (h, .xfer (.lock a)))
    (hhnd : s.hnd h = some hnd) (hok : (Xfer.lock a).Ok hnd) (hfree : s.gpioLock a = none) :
    Inv ((s.mutexLock u a).goto u h (.xfer (.test a))) where
  ok := fun v k z hz => by
    rw [goto_call] at hz
    split at hz
    · cases hz
      exact ⟨hnd, hhnd, hok⟩
    · exact hi.ok v k z hz
  held := fun b v => by
    simp only [InTransfer, goto_call]
    by_cases hv : v = u
    · subst hv
      have hnone : ∀ c, s.gpioLock c ≠ some v := fun c hc => by
        obtain ⟨k, z, hz, hacq⟩ := (hi.held c v).mp hc
        rw [hcall] at hz
        cases hz
        cases hacq
      by_cases hb : b = a
      · simp [SelectState.goto, SelectState.mutexLock, hb, Xfer.acquired]
      · simp [SelectState.goto, SelectState.mutexLock, hb, hnone b, Ne.symm hb, Xfer.acquired]
    · by_cases hb : b = a
      · have hnot : ¬ s.InTransfer v a := fun h => by
          rw [(hi.held a v).mpr h] at hfree
          cases hfree
        simpa [SelectState.goto, SelectState.mutexLock, hb, hv, Ne.symm hv, InTransfer] using hnot
      · simpa [SelectState.goto, SelectState.mutexLock, hb, hv, InTransfer] using hi.held b v
  high := fun r hr => by
    have hne := hi.thread_ne (u := u) (fun k z hz => by rw [hcall] at hz; cases hz; rfl) hr
    obtain ⟨k, z, hz, hz'⟩ := hi.high r hr
    exact ⟨k, z, by rw [goto_call, if_neg hne]; exact hz, hz'⟩
  unlocks := hi.unlocks

theorem Inv.raise (hi : Inv s) {a : ℕ} (hcall : s.call u = some (h, .xfer (.raise a)))
    (hhnd : s.hnd h = some hnd) (hok : (Xfer.raise a).Ok hnd) :
    Inv ((s.setHigh ⟨u, a, hnd.gpio⟩).goto u h (.xfer (.transfer a (some hnd.gpio)))) where
  ok := fun v k z hz => by
    rw [goto_call] at hz
    split at hz
    · cases hz
      refine ⟨hnd, hhnd, hok.1, fun g hg => ?_⟩
      cases hg
      exact ⟨rfl, hok.2⟩
    · exact hi.ok v k z hz
  held := fun b v => (hi.held b v).trans
    (goto_inTransfer (s := s.setHigh ⟨u, a, hnd.gpio⟩) (y := .transfer a (some hnd.gpio)) hcall rfl
      v b).symm
  high := fun r hr => by
    rcases List.mem_cons.mp hr with rfl | hr
    · exact ⟨h, _, by rw [goto_call, if_pos rfl], rfl, rfl⟩
    · have hne := hi.thread_ne (u := u) (fun k z hz => by rw [hcall] at hz; cases hz; rfl) hr
      obtain ⟨k, z, hz, hz'⟩ := hi.high r hr
      exact ⟨k, z, by rw [goto_call, if_neg hne]; exact hz, hz'⟩
  unlocks := hi.unlocks

theorem Inv.lower (hi : Inv s) {a : ℕ} {r : Option ℤ}
    (hcall : s.call u = some (h, .xfer (.lower a r)))
    (hhnd : s.hnd h = some hnd) (hok : (Xfer.lower a r).Ok hnd) :
    Inv ((s.setLow hnd.gpio).goto u h (.xfer (.done a (r.filter (· ≠ hnd.gpio))))) where
  ok := fun v k z hz => by
    rw [goto_call] at hz
    split at hz
    · cases hz
      refine ⟨hnd, hhnd, hok.1, Option.filter_eq_none_iff.mpr fun g hg => ?_⟩
      simp [(hok.2 g hg).1]
    · exact hi.ok v k z hz
  held := fun b v => (hi.held b v).trans
    (goto_inTransfer (s := s.setLow hnd.gpio) (y := .done a (r.filter (· ≠ hnd.gpio))) hcall rfl
      v b).symm
  high := fun q hq => by
    obtain ⟨hmem, hlow⟩ := List.mem_filter.mp hq
    obtain ⟨k, z, hz, hacq, hraised⟩ := hi.high q hmem
    have hne : q.thread ≠ u := by
      intro hu
      rw [hu, hcall] at hz
      cases hz
      exact of_decide_eq_true hlow (hok.2 _ hraised).1.symm
    exact ⟨k, z, by rw [goto_call, if_neg hne]; exact hz, hacq, hraised⟩
  unlocks := hi.unlocks

theorem Inv.unlock (hi : Inv s) {a b : ℕ} {r : Option ℤ}
    (hcall : s.call u = some (h, .xfer (.unlock a r b))) (hok : (Xfer.unlock a r b).Ok hnd) :
    Inv ((s.mutexUnlock u b).ret u) := by
  obtain ⟨rfl, rfl⟩ := hok
  have hlock : s.gpioLock b = some u := (hi.held b u).mpr ⟨h, _, hcall, rfl⟩
  refine ⟨fun v k z hz => ?_, fun c v => ?_, fun q hq => ?_, ?_⟩
  · rw [ret_call] at hz
    split at hz
    · cases hz
    · exact hi.ok v k z hz
  · simp only [InTransfer, ret_call]
    by_cases hv : v = u
    · subst hv
      by_cases hc : c = b
      · simp [ret, mutexUnlock, hc]
      · have hnot : s.gpioLock c ≠ some v := fun hc' => by
          obtain ⟨k, z, hz, hacq⟩ := (hi.held c v).mp hc'
          rw [hcall] at hz
          cases hz
          exact hc (Option.some.inj hacq).symm
        simp [ret, mutexUnlock, hc, hnot]
    · by_cases hc : c = b
      · have hnot : ¬ s.InTransfer v b := fun h => by
          rw [(hi.held b v).mpr h] at hlock
          exact hv (Option.some.inj hlock)
        simpa [ret, mutexUnlock, hc, hv, InTransfer] using hnot
      · simpa [ret, mutexUnlock, hc, hv, InTransfer] using hi.held c v
  · have hne := hi.thread_ne (u := u) (fun k z hz => by rw [hcall] at hz; cases hz; rfl) hq
    obtain ⟨k, z, hz, hz'⟩ := hi.high q hq
    exact ⟨k, z, by rw [ret_call, if_neg hne]; exact hz, hz'⟩
  · simpa [ret, mutexUnlock, hlock] using hi.unlocks

/-- A transfer takes all its steps on a handle that gives it what it relies on. -/
theorem Inv.runXfer (hi : Inv s) (hcall : s.call u = some (h, .xfer x)) (hhnd : s.hnd h = some hnd)
    (hok : x.Ok hnd) (hstep : s.runXfer u h hnd x = some t) : Inv t := by
  cases x with
  | begin =>
    cases hstep
    exact hi.goto hcall hhnd rfl rfl rfl
  | lock a =>
    simp only [SelectState.runXfer, Option.ite_none_right_eq_some, Option.some.injEq] at hstep
    obtain ⟨hfree, rfl⟩ := hstep
    exact hi.mutexLock hcall hhnd hok hfree
  | test a =>
    cases hstep
    split
    · rename_i hpos
      exact hi.goto hcall hhnd ⟨hok, hpos⟩ rfl rfl
    · exact hi.goto hcall hhnd ⟨hok, nofun⟩ rfl rfl
  | raise a =>
    cases hstep
    exact hi.raise hcall hhnd hok
  | transfer a r =>
    cases hstep
    exact hi.goto hcall hhnd hok rfl rfl
  | testDone a r =>
    cases hstep
    split
    · exact hi.goto hcall hhnd hok rfl rfl
    · rename_i hneg
      have hr : r = none := Option.eq_none_iff_forall_ne_some.mpr fun g hg =>
        hneg ((hok.2 g hg).1 ▸ (hok.2 g hg).2)
      exact hi.goto hcall hhnd ⟨hok.1, hr⟩ rfl rfl
  | lower a r =>
    cases hstep
    exact hi.lower hcall hhnd hok
  | done a r =>
    cases hstep
    exact hi.goto hcall hhnd hok rfl rfl
  | unlock a r b =>
    cases hstep
    exact hi.unlock hcall hok

theorem Inv.goto_other (hi : Inv s) (hcall : ∀ k z, s.call u ≠ some (k, .xfer z)) {c : Call}
    (hc : ∀ z, c = .xfer z → z = .begin ∧ (s.hnd h).isSome = true) : Inv (s.goto u h c) where
  ok := fun v k z hz => by
    rw [goto_call] at hz
    split at hz
    · cases hz
      obtain ⟨rfl, hsome⟩ := hc z rfl
      obtain ⟨hnd, hhnd⟩ := Option.isSome_iff_exists.mp hsome
      exact ⟨hnd, hhnd, trivial⟩
    · exact hi.ok v k z hz
  held := fun a v => by
    refine (hi.held a v).trans ?_
    simp only [InTransfer, goto_call]
    by_cases hv : v = u
    · subst hv
      refine iff_of_false (fun ⟨k, z, hz, _⟩ => hcall k z hz) fun ⟨k, z, hz, hacq⟩ => ?_
      rw [if_pos rfl] at hz
      cases hz
      rw [(hc z rfl).1] at hacq
      cases hacq
    · simp only [if_neg hv]
  high := fun r hr => by
    obtain ⟨k, z, hz, hz'⟩ := hi.high r hr
    have hne : r.thread ≠ u := fun hu => hcall k z (hu ▸ hz)
    exact ⟨k, z, by rw [goto_call, if_neg hne]; exact hz, hz'⟩
  unlocks := hi.unlocks

theorem Inv.ret_other (hi : Inv s) (hcall : ∀ k z, s.call u ≠ some (k, .xfer z)) :
    Inv (s.ret u) where
  ok := fun v k z hz => by
    rw [ret_call] at hz
    split at hz
    · cases hz
    · exact hi.ok v k z hz
  held := fun a v => by
    refine (hi.held a v).trans ?_
    simp only [InTransfer, ret_call]
    by_cases hv : v = u
    · subst hv
      exact iff_of_false (fun ⟨k, z, hz, _⟩ => hcall k z hz) (by simp)
    · simp only [if_neg hv]
  high := fun r hr => by
    obtain ⟨k, z, hz, hz'⟩ := hi.high r hr
    have hne : r.thread ≠ u := fun hu => hcall k z (hu ▸ hz)
    exact ⟨k, z, by rw [ret_call, if_neg hne]; exact hz, hz'⟩
  unlocks := hi.unlocks

/-- A transfer can go on with a new pin that it has no use for, or that is the old one. -/
theorem ok_assignGpio {v : ℤ} (hok : x.Ok hnd)
    (hfree : v ≠ hnd.gpio → x.raised = none ∧ (x.Raising → 0 ≤ v)) :
    x.Ok { hnd with gpio := v } := by
  by_cases hv : v = hnd.gpio
  · subst hv
    exact hok
  · obtain ⟨hraised, hpos⟩ := hfree hv
    cases x with
    | raise a => exact ⟨hok.1, hpos ⟨a, rfl, rfl⟩⟩
    | transfer a r => exact ⟨hok.1, fun g hg => nomatch hraised.symm.trans hg⟩
    | testDone a r => exact ⟨hok.1, fun g hg => nomatch hraised.symm.trans hg⟩
    | lower a r => exact ⟨hok.1, fun g hg => nomatch hraised.symm.trans hg⟩
    | _ => exact hok

theorem ok_assignAdapter {a : ℕ} (hok : x.Ok hnd)
    (hfree : a ≠ hnd.animalAdapter → x.fetched = none) :
    x.Ok { hnd with animalAdapter := a } := by
  by_cases ha : a = hnd.animalAdapter
  · subst ha
    exact hok
  · have hfetched := hfree ha
    cases x with
    | begin => trivial
    | unlock b r c => exact hok
    | _ => cases hfetched

theorem Inv.runCall (hi : Inv s) {c : Call} {out : GpioOutcome} (hcall : s.call u = some (h, c))
    (hhnd : s.hnd h = some hnd) (hok : s.Harmless h hnd c)
    (hstep : s.runCall u h hnd out c = some t) : Inv t := by
  cases c with
  | xfer x =>
    obtain ⟨hnd', hhnd', hx⟩ := hi.ok u h x hcall
    obtain rfl : hnd = hnd' := Option.some.inj (hhnd.symm.trans hhnd')
    exact hi.runXfer hcall hhnd hx hstep
  | setGpio tmp =>
    cases hstep
    split
    · exact hi.ret_other (by simp [hcall])
    · exact hi.goto_other (by simp [hcall]) (by simp)
  | initGpio tmp =>
    cases hstep
    split
    · exact hi.goto_other (by simp [hcall]) (by simp)
    · split
      · exact hi.goto_other (by simp [hcall]) (by simp)
      · split
        · exact hi.goto_other (by simp [hcall]) (by simp)
        · exact (hi.setLow tmp).goto_other (by simp [SelectState.setLow, hcall]) (by simp)
  | assignGpio v =>
    cases hstep
    have hnew := hi.update (h := h) (some { hnd with gpio := v }) fun w z hnd' hz hk hz' => by
      obtain rfl : hnd = hnd' := Option.some.inj (hhnd.symm.trans hk)
      exact ⟨_, rfl, ok_assignGpio hz' fun hv => hok hv w z (xfer_of_call hz)⟩
    exact hnew.ret_other (by simp [hcall])
  | assignAdapter a =>
    cases hstep
    have hnew := hi.update (h := h) (some { hnd with animalAdapter := a })
      fun w z hnd' hz hk hz' => by
      obtain rfl : hnd = hnd' := Option.some.inj (hhnd.symm.trans hk)
      exact ⟨_, rfl, ok_assignAdapter hz' fun ha => hok ha w z (xfer_of_call hz)⟩
    exact hnew.ret_other (by simp [hcall])

theorem Inv.startIoctl (hi : Inv s) (d : Adapters) {cmd : Cmd} (hcall : s.call u = none)
    (hhnd : (s.hnd h).isSome = true) : Inv (s.startIoctl d u h cmd) := by
  have hother : ∀ c : Call, (∀ z, c = .xfer z → z = .begin) → Inv (s.goto u h c) := fun c hc =>
    hi.goto_other (by simp [hcall]) fun z hz => ⟨hc z hz, hhnd⟩
  cases cmd with
  | setGpio tmp =>
    cases tmp with
    | none => exact hi
    | some tmp => exact hother _ (by simp)
  | setAdapter tmp =>
    cases tmp with
    | none => exact hi
    | some tmp =>
      simp only [SelectState.startIoctl]
      split
      · exact hi
      · split
        · exact hother _ (by simp)
        · exact hi
  | xfer prepared =>
    simp only [SelectState.startIoctl]
    split
    · exact hother _ (by simp)
    · exact hi

theorem inv_step [Fintype τ] {d : Adapters} {a : SelectLabel τ} (hi : Inv s) (hok : s.Undisturbed a)
    (h : step d s a = some t) : Inv t := by
  cases a with
  | animalOpen k allocated =>
    obtain ⟨hk, ⟨⟩⟩ := Option.ite_none_right_eq_some.mp h
    split
    · cases d.first with
      | none => exact hi
      | some a => exact hi.update _ fun v z hnd _ hnd' _ => nomatch hk.symm.trans hnd'
    · exact hi
  | animalRelease k =>
    obtain ⟨hk, ⟨⟩⟩ := Option.ite_none_right_eq_some.mp h
    exact hi.update none fun v z hnd hz _ _ => absurd rfl (hk v _ hz)
  | ioctl v k cmd =>
    obtain ⟨⟨hk, hv⟩, ⟨⟩⟩ := Option.ite_none_right_eq_some.mp h
    exact hi.startIoctl d hv hk
  | run v out =>
    obtain ⟨⟨k, c⟩, hc, hrest⟩ := Option.bind_eq_some_iff.mp h
    obtain ⟨hnd, hhnd, hrun⟩ := Option.bind_eq_some_iff.mp hrest
    exact hi.runCall hc hhnd (hok (k, c) hc hnd hhnd) hrun

end Step
end SelectState

variable {τ : Type*} [DecidableEq τ] [Fintype τ]

/-- In every run that only changes the pin and the adapter of a handle while none of its transfers
depends on them, chip select and adapter lock are paired. -/
theorem chip_select_paired (d : Adapters) (s : SelectState τ)
    (h : (chipSelect τ d).ReachableUnder SelectState.Undisturbed s) : s.Paired := by
  have hinv : SelectState.Inv s := by
    refine h.invariant ?_ fun s a t hi hok hstep => SelectState.inv_step hi hok hstep
    rintro _ rfl
    refine ⟨nofun, fun a t => iff_of_false nofun ?_, nofun, rfl⟩
    rintro ⟨h, x, hc, -⟩
    cases hc
  exact hinv.paired

private def pinFour : List (SelectLabel (Fin 2)) :=
  [.animalOpen 0 true, .ioctl 0 0 (.setGpio (some 4))] ++
    List.replicate 3 (.run 0 ⟨true, true, true, true⟩)

private def oneAdapter : Adapters := ⟨1, fun _ => true⟩

/-- While one thread is in a transfer with pin 4, the other one's has to wait for the lock. -/
theorem chip_select_paired_four : ∃ s : SelectState (Fin 2),
    s.high.map Raise.gpio = [4] ∧ s.call 1 = some (0, .xfer (.lock 0)) ∧ s.Paired := by
  have hrun : ((chipSelect (Fin 2) oneAdapter).execUnder SelectState.Undisturbed .initial
      (pinFour ++ .ioctl 0 0 (.xfer true) :: List.replicate 4 (.run 0 ⟨true, true, true, true⟩) ++
        [.ioctl 1 0 (.xfer true), .run 1 ⟨true, true, true, true⟩])).map
      (fun s => decide (s.high.map Raise.gpio = [4] ∧ s.call 1 = some (0, .xfer (.lock 0)))) =
        some true := by decide +kernel
  obtain ⟨s, hs, hp⟩ := Machine.exists_reachableUnder_of_exec rfl hrun
  obtain ⟨hhigh, hcall⟩ := of_decide_eq_true hp
  exact ⟨s, hhigh, hcall, chip_select_paired oneAdapter s hs⟩

/-- `SET_GPIO` moves the handle to pin 5 in the middle of a transfer, which lowers pin 5 instead of
pin 4 and returns. -/
theorem chip_select_left_high :
    ¬ ∀ (d : Adapters) (s : SelectState (Fin 2)),
      (chipSelect (Fin 2) d).Reachable s → s.Paired := by
  have hrun : ((chipSelect (Fin 2) oneAdapter).exec .initial
      (pinFour ++ .ioctl 0 0 (.xfer true) :: List.replicate 4 (.run 0 ⟨true, true, true, true⟩) ++
        .ioctl 1 0 (.setGpio (some 5)) :: List.replicate 3 (.run 1 ⟨true, true, true, true⟩) ++
        List.replicate 5 (.run 0 ⟨true, true, true, true⟩))).map
      (fun s => decide (s.high.map (fun r => (r.thread, r.gpio)) = [(0, 4)] ∧ s.call 0 = none)) =
        some true := by decide +kernel
  obtain ⟨s, hs, hp⟩ := Machine.exists_reachable_of_exec rfl hrun
  obtain ⟨hhigh, hcall⟩ := of_decide_eq_true hp
  intro hall
  obtain ⟨r, hr, hthread⟩ := List.mem_map.mp
    (hhigh ▸ List.mem_singleton_self ((0 : Fin 2), (4 : ℤ)))
  obtain ⟨h, x, hx, -⟩ := (hall oneAdapter s hs).lowered r hr
  rw [(Prod.mk.inj hthread).1, hcall] at hx
  cases hx

end BifrostModule.Animal
