import BifrostModule.Foundation.Errno

/-! # Chip-select pins of the animal-i2c handles

Each open handle records at most one GPIO, and the GPIO subsystem records which
pins the driver has requested. `SET_GPIO`, its helper and close move both.
-/
namespace BifrostModule.Animal
open Foundation

/-- What the GPIO subsystem knows about this driver. `wrongFrees` lists the pins that were freed
without being requested. -/
structure Gpios where
  requested : Finset ℤ
  wrongFrees : List ℤ

namespace Gpios

def free (g : Gpios) (gpio : ℤ) : Gpios :=
  if gpio ∈ g.requested then { g with requested := g.requested.erase gpio }
  else { g with wrongFrees := g.wrongFrees ++ [gpio] }

/-- `gpio_ops->request`, which fails on a pin that is already requested. -/
def request (g : Gpios) (gpio : ℤ) (granted : Bool) : Except Errno Gpios :=
  if granted ∧ gpio ∉ g.requested then .ok { g with requested := insert gpio g.requested }
  else .error .EBUSY

end Gpios

/-- What the user copy and the four `gpio_ops` calls of one `SET_GPIO` return. -/
structure GpioOutcome where
  copied : Bool
  valid : Bool
  granted : Bool
  directionOk : Bool

/-- `animal_gpio_init`, with its return value. An invalid pin returns the 0 of `is_valid`. -/
def animalGpioInit (g : Gpios) (gpio : ℤ) (out : GpioOutcome) : ℤ × Gpios :=
  if ¬ out.valid then (0, g)
  else
    match g.request gpio out.granted with
    | .error e => (e.toInt, g)
    | .ok g => if ¬ out.directionOk then (Errno.EIO.toInt, g) else (0, g)

/-- The driver with its open handles; a handle that is not open has no pin field. -/
structure GpioState where
  gpios : Gpios
  gpio : ℕ → Option ℤ

namespace GpioState

def freePin (g : Gpios) (gpio : ℤ) : Gpios := if 0 ≤ gpio then g.free gpio else g

def setGpio (s : GpioState) (h : ℕ) (cur tmp : ℤ) (out : GpioOutcome) :
    Except Errno Unit × GpioState :=
  if ¬ out.copied then (.error .EFAULT, s)
  else if tmp = cur then (.ok (), s)
  else
    let g := freePin s.gpios cur
    if tmp < 0 then (.ok (), { s with gpios := g })
    else
      let p := animalGpioInit g tmp out
      if p.1 = 0 then (.ok (), ⟨p.2, Function.update s.gpio h (some tmp)⟩)
      else (.error .EINVAL, ⟨p.2, Function.update s.gpio h (some (-1))⟩)

/-- `animal_open`, which fails without memory or without an adapter. -/
def animalOpen (s : GpioState) (h : ℕ) (ready : Bool) : GpioState :=
  if ready then { s with gpio := Function.update s.gpio h (some (-1)) } else s

def animalRelease (s : GpioState) (h : ℕ) (cur : ℤ) : GpioState :=
  ⟨freePin s.gpios cur, Function.update s.gpio h none⟩

end GpioState

inductive GpioLabel where
  | animalOpen (h : ℕ) (ready : Bool)
  | setGpio (h : ℕ) (gpio : ℤ) (out : GpioOutcome)
  | animalRelease (h : ℕ)

namespace GpioState

def step (s : GpioState) : GpioLabel → Option GpioState
  | .animalOpen h ready => if s.gpio h = none then some (s.animalOpen h ready) else none
  | .setGpio h tmp out => (s.gpio h).map fun cur => (s.setGpio h cur tmp out).2
  | .animalRelease h => (s.gpio h).map fun cur => s.animalRelease h cur

def initial : GpioState := ⟨⟨∅, []⟩, fun _ => none⟩

/-- The requested pins are the recorded ones, no two handles record the same pin, and no pin was
freed without being requested. -/
structure Owned (gpios : Gpios) (gpio : ℕ → Option ℤ) : Prop where
  exact : ∀ g, g ∈ gpios.requested ↔ 0 ≤ g ∧ ∃ h, gpio h = some g
  unique : ∀ h k g, 0 ≤ g → gpio h = some g → gpio k = some g → h = k
  clean : gpios.wrongFrees = []

/-- A `SET_GPIO` that changes the pin does not drop the pin of the handle for none, its new pin is
valid, and setting the direction of a pin it requests succeeds. -/
def Sound (s : GpioState) : GpioLabel → Prop
  | .setGpio h tmp out => ∀ cur ∈ s.gpio h, out.copied → tmp ≠ cur →
      (tmp < 0 → cur < 0) ∧
        (0 ≤ tmp → out.valid ∧ (out.granted → tmp ∉ s.gpios.requested → out.directionOk))
  | _ => True

instance (s : GpioState) : (a : GpioLabel) → Decidable (s.Sound a)
  | .setGpio h tmp out => inferInstanceAs (Decidable (∀ cur ∈ s.gpio h, out.copied → tmp ≠ cur →
      (tmp < 0 → cur < 0) ∧
        (0 ≤ tmp → out.valid ∧ (out.granted → tmp ∉ s.gpios.requested → out.directionOk))))
  | .animalOpen _ _ => .isTrue trivial
  | .animalRelease _ => .isTrue trivial

end GpioState

def gpioDriver : Machine GpioState GpioLabel where
  start s := s = .initial
  step := GpioState.step

namespace GpioState
variable {gpios : Gpios} {gpio : ℕ → Option ℤ} {h : ℕ} {cur tmp : ℤ}

theorem Owned.cur_requested (hi : Owned gpios gpio) (hc : gpio h = some cur) (hpos : 0 ≤ cur) :
    cur ∈ gpios.requested := (hi.exact cur).mpr ⟨hpos, h, hc⟩

/-- Freeing a recorded pin removes that pin and nothing else. -/
theorem Owned.freePin_requested (hi : Owned gpios gpio) (hc : gpio h = some cur) (p : ℤ) :
    p ∈ (freePin gpios cur).requested ↔ p ∈ gpios.requested ∧ p ≠ cur := by
  unfold freePin
  split_ifs with hpos
  · rw [Gpios.free, if_pos (hi.cur_requested hc hpos), Finset.mem_erase, and_comm]
  · refine ⟨fun hp => ⟨hp, ?_⟩, And.left⟩
    rintro rfl
    exact hpos ((hi.exact p).mp hp).1

theorem Owned.freePin_wrongFrees (hi : Owned gpios gpio) (hc : gpio h = some cur) :
    (freePin gpios cur).wrongFrees = [] := by
  unfold freePin
  split_ifs with hpos
  · rw [Gpios.free, if_pos (hi.cur_requested hc hpos)]
    exact hi.clean
  · exact hi.clean

theorem Owned.drop (hi : Owned gpios gpio) (hc : gpio h = some cur) {o : Option ℤ}
    (ho : ∀ p, o = some p → p < 0) :
    Owned (freePin gpios cur) (Function.update gpio h o) := by
  have hother : ∀ k p, 0 ≤ p → Function.update gpio h o k = some p → k ≠ h ∧ gpio k = some p := by
    intro k p hp hk
    by_cases hkh : k = h
    · rw [hkh, Function.update_self] at hk
      exact absurd (ho p hk) (by omega)
    · rw [Function.update_of_ne hkh] at hk
      exact ⟨hkh, hk⟩
  refine ⟨fun p => ?_, ?_, hi.freePin_wrongFrees hc⟩
  · rw [hi.freePin_requested hc, hi.exact]
    constructor
    · rintro ⟨⟨hp, k, hk⟩, hne⟩
      have hkh : k ≠ h := by
        rintro rfl
        exact hne (Option.some.inj (hk.symm.trans hc))
      exact ⟨hp, k, by rw [Function.update_of_ne hkh, hk]⟩
    · rintro ⟨hp, k, hk⟩
      obtain ⟨hkh, hk⟩ := hother k p hp hk
      refine ⟨⟨hp, k, hk⟩, ?_⟩
      rintro rfl
      exact hkh (hi.unique k h p hp hk hc)
  · intro k l p hp hk hl
    exact hi.unique k l p hp (hother k p hp hk).2 (hother l p hp hl).2

theorem Owned.idle (hi : Owned gpios gpio) (hc : gpio h = none) :
    Owned gpios (Function.update gpio h (some (-1))) := by
  have hother : ∀ k p, 0 ≤ p → (Function.update gpio h (some (-1)) k = some p ↔
      gpio k = some p) := by
    intro k p hp
    by_cases hkh : k = h
    · rw [hkh, Function.update_self, hc]
      refine iff_of_false ?_ nofun
      rintro ⟨⟩
      exact absurd hp (by decide)
    · rw [Function.update_of_ne hkh]
  refine ⟨fun p => ?_, ?_, hi.clean⟩
  · rw [hi.exact]
    exact and_congr_right fun hp => exists_congr fun k => (hother k p hp).symm
  · intro k l p hp hk hl
    exact hi.unique k l p hp ((hother k p hp).mp hk) ((hother l p hp).mp hl)

theorem Owned.add (hi : Owned gpios gpio) (ho : ∀ p, gpio h = some p → p < 0) (hpos : 0 ≤ tmp)
    (hnew : tmp ∉ gpios.requested) :
    Owned { gpios with requested := insert tmp gpios.requested }
      (Function.update gpio h (some tmp)) := by
  have hother : ∀ k p, k ≠ h → (Function.update gpio h (some tmp) k = some p ↔
      gpio k = some p) := fun k p hkh => by rw [Function.update_of_ne hkh]
  have hfresh : ∀ k, gpio k ≠ some tmp := fun k hk => hnew ((hi.exact tmp).mpr ⟨hpos, k, hk⟩)
  refine ⟨fun p => ?_, ?_, hi.clean⟩
  · change p ∈ insert tmp gpios.requested ↔ _
    rw [Finset.mem_insert, hi.exact]
    constructor
    · rintro (rfl | ⟨hp, k, hk⟩)
      · exact ⟨hpos, h, Function.update_self _ _ _⟩
      · have hkh : k ≠ h := by
          rintro rfl
          exact absurd (ho p hk) (by omega)
        exact ⟨hp, k, (hother k p hkh).mpr hk⟩
    · rintro ⟨hp, k, hk⟩
      by_cases hkh : k = h
      · rw [hkh, Function.update_self] at hk
        exact .inl (Option.some.inj hk).symm
      · exact .inr ⟨hp, k, (hother k p hkh).mp hk⟩
  · intro k l p hp hk hl
    by_cases hkh : k = h
    · rw [hkh, Function.update_self] at hk
      by_cases hlh : l = h
      · rw [hkh, hlh]
      · cases hk
        exact absurd ((hother l _ hlh).mp hl) (hfresh l)
    · have hk' := (hother k p hkh).mp hk
      by_cases hlh : l = h
      · rw [hlh, Function.update_self] at hl
        cases hl
        exact absurd hk' (hfresh k)
      · exact hi.unique k l p hp hk' ((hother l p hlh).mp hl)

/-- Recording a pin that another handle might own already is never right, unless it is
requested for this handle. -/
theorem Owned.not_record (hi : Owned gpios gpio) (hc : gpio h = some cur) (hpos : 0 ≤ tmp)
    (hne : tmp ≠ cur) :
    ¬ Owned (freePin gpios cur) (Function.update gpio h (some tmp)) := by
  intro ht
  have hself : Function.update gpio h (some tmp) h = some tmp := Function.update_self _ _ _
  have hreq := ((hi.freePin_requested hc tmp).mp (ht.cur_requested hself hpos)).1
  obtain ⟨-, k, hk⟩ := (hi.exact tmp).mp hreq
  have hkh : k ≠ h := by
    rintro rfl
    exact hne (Option.some.inj (hk.symm.trans hc))
  exact hkh (ht.unique k h tmp hpos (by rw [Function.update_of_ne hkh, hk]) hself)

/-- Keeping a requested pin that no handle records is never right. -/
theorem Owned.not_keep (hi : Owned gpios gpio) (hpos : 0 ≤ tmp) (hnew : tmp ∉ gpios.requested)
    (g : Gpios) (hg : tmp ∈ g.requested) : ¬ Owned g (Function.update gpio h (some (-1))) := by
  intro ht
  obtain ⟨-, k, hk⟩ := (ht.exact tmp).mp hg
  by_cases hkh : k = h
  · rw [hkh, Function.update_self] at hk
    cases hk
    exact absurd hpos (by decide)
  · rw [Function.update_of_ne hkh] at hk
    exact hnew ((hi.exact tmp).mpr ⟨hpos, k, hk⟩)

variable {s t : GpioState} {out : GpioOutcome}

theorem setGpio_cases (s : GpioState) (h : ℕ) (hcopied : out.copied) (hne : tmp ≠ cur)
    (hpos : 0 ≤ tmp) :
    (out.valid = false ∧ (s.setGpio h cur tmp out).2 =
      ⟨freePin s.gpios cur, Function.update s.gpio h (some tmp)⟩) ∨
    (out.valid ∧ ¬ (out.granted ∧ tmp ∉ (freePin s.gpios cur).requested) ∧
      (s.setGpio h cur tmp out).2 =
        ⟨freePin s.gpios cur, Function.update s.gpio h (some (-1))⟩) ∨
    (out.valid ∧ (out.granted ∧ tmp ∉ (freePin s.gpios cur).requested) ∧
      (s.setGpio h cur tmp out).2 =
        ⟨{ freePin s.gpios cur with
            requested := insert tmp (freePin s.gpios cur).requested },
          Function.update s.gpio h (some (if out.directionOk then tmp else -1))⟩) := by
  have hneg : ¬ tmp < 0 := by omega
  by_cases hv : out.valid
  · by_cases hr : out.granted ∧ tmp ∉ (freePin s.gpios cur).requested
    · refine .inr (.inr ⟨hv, hr, ?_⟩)
      by_cases hd : out.directionOk
      · simp [setGpio, animalGpioInit, Gpios.request, hcopied, hne, hneg, hv, hr, hd]
      · simp [setGpio, animalGpioInit, Gpios.request, hcopied, hne, hneg, hv, hr, hd,
          (Errno.toInt_neg _).ne]
    · refine .inr (.inl ⟨hv, hr, ?_⟩)
      simp [setGpio, animalGpioInit, Gpios.request, hcopied, hne, hneg, hv, if_neg hr,
        (Errno.toInt_neg _).ne]
  · refine .inl ⟨by simpa using hv, ?_⟩
    simp [setGpio, animalGpioInit, hcopied, hne, hneg, hv]

/-- `SET_GPIO` keeps the ownership exactly if it is sound. -/
theorem owned_setGpio_iff (hi : Owned s.gpios s.gpio) (hc : s.gpio h = some cur) :
    Owned (s.setGpio h cur tmp out).2.gpios (s.setGpio h cur tmp out).2.gpio ↔
      s.Sound (.setGpio h tmp out) := by
  have hsound : s.Sound (.setGpio h tmp out) ↔ (out.copied → tmp ≠ cur → (tmp < 0 → cur < 0) ∧
      (0 ≤ tmp → out.valid ∧ (out.granted → tmp ∉ s.gpios.requested → out.directionOk))) := by
    simp only [Sound, hc, Option.mem_def, Option.some.injEq, forall_eq']
  rw [hsound]
  by_cases hcopied : out.copied
  swap
  · simp only [setGpio, hcopied]
    exact iff_of_true hi nofun
  by_cases hne : tmp = cur
  · simp only [setGpio, hcopied, hne]
    exact iff_of_true hi fun _ h => absurd rfl h
  rcases lt_or_ge tmp 0 with hneg | hpos
  · have hset : (s.setGpio h cur tmp out).2 = { s with gpios := freePin s.gpios cur } := by
      simp [setGpio, hcopied, hne, hneg]
    rw [hset]
    constructor
    · intro ht _ _
      refine ⟨fun _ => Int.not_le.mp fun hcur => ?_, fun hp => absurd hneg (by omega)⟩
      exact ((hi.freePin_requested hc cur).mp (ht.cur_requested hc hcur)).2 rfl
    · intro h
      have hcur : ¬ 0 ≤ cur := by
        have := (h hcopied hne).1 hneg
        omega
      rw [freePin, if_neg hcur]
      exact hi
  · have hreq : tmp ∈ (freePin s.gpios cur).requested ↔ tmp ∈ s.gpios.requested := by
      rw [hi.freePin_requested hc]
      exact and_iff_left hne
    have hdrop := hi.drop hc (o := some (-1)) (by rintro p ⟨⟩; decide)
    rcases setGpio_cases s h hcopied hne hpos with ⟨hv, hset⟩ | ⟨hv, hr, hset⟩ | ⟨hv, hr, hset⟩
    · rw [hset]
      refine iff_of_false (hi.not_record hc hpos hne) fun h => ?_
      rw [hv] at h
      cases ((h hcopied hne).2 hpos).1
    · rw [hset]
      refine iff_of_true hdrop fun _ _ => ⟨fun hn => absurd hn (by omega), fun _ => ⟨hv, ?_⟩⟩
      intro hg hn
      exact absurd ⟨hg, fun hm => hn (hreq.mp hm)⟩ hr
    · rw [hset]
      by_cases hd : out.directionOk
      · rw [if_pos hd]
        refine iff_of_true ?_ fun _ _ => ⟨fun hn => absurd hn (by omega), fun _ => ⟨hv, ?_⟩⟩
        · have hadd := hdrop.add (h := h) (by
            intro p hp
            rw [Function.update_self] at hp
            cases hp
            decide) hpos hr.2
          rwa [Function.update_idem] at hadd
        · exact fun _ _ => hd
      · rw [if_neg hd]
        refine iff_of_false (hi.not_keep hpos (fun hm => hr.2 (hreq.mpr hm)) _
          (Finset.mem_insert_self _ _)) fun h => ?_
        exact hd (((h hcopied hne).2 hpos).2 hr.1 fun hm => hr.2 (hreq.mpr hm))

theorem owned_step_iff (hi : Owned s.gpios s.gpio) {a : GpioLabel} (h : s.step a = some t) :
    Owned t.gpios t.gpio ↔ s.Sound a := by
  cases a with
  | animalOpen k ready =>
    obtain ⟨hk, ⟨⟩⟩ := Option.ite_none_right_eq_some.mp h
    refine iff_of_true ?_ trivial
    unfold animalOpen
    split_ifs
    · exact hi.idle hk
    · exact hi
  | setGpio k tmp out =>
    obtain ⟨cur, hc, rfl⟩ := Option.map_eq_some_iff.mp h
    exact owned_setGpio_iff hi hc
  | animalRelease k =>
    obtain ⟨cur, hc, rfl⟩ := Option.map_eq_some_iff.mp h
    exact iff_of_true (hi.drop hc nofun) trivial

end GpioState
/-- In every run whose `SET_GPIO`s are sound, the requested pins are those of the open handles, no
two handles share one, and only requested pins are freed. -/
theorem gpios_owned {s : GpioState} (h : gpioDriver.ReachableUnder GpioState.Sound s) :
    GpioState.Owned s.gpios s.gpio := by
  refine Machine.ReachableUnder.invariant (I := fun s => GpioState.Owned s.gpios s.gpio) ?_ ?_ h
  · rintro _ rfl
    refine ⟨fun p => ?_, nofun, rfl⟩
    refine iff_of_false (Finset.notMem_empty p) ?_
    rintro ⟨-, k, hk⟩
    cases hk
  · exact fun s a t hi hok hs => (GpioState.owned_step_iff hi hs).mpr hok

private def granted : GpioOutcome := ⟨true, true, true, true⟩

theorem gpios_owned_two : ∃ s : GpioState, s.gpios.requested = {5} ∧
    GpioState.Owned s.gpios s.gpio := by
  have hrun : (gpioDriver.execUnder GpioState.Sound .initial
      [.animalOpen 0 true, .animalOpen 1 true, .setGpio 0 4 granted, .setGpio 1 5 granted,
        .setGpio 0 6 granted, .setGpio 1 5 granted, .animalRelease 0]).map
      (fun s => decide (s.gpios.requested = {5})) = some true := by decide
  obtain ⟨s, hs, hp⟩ := Machine.exists_reachableUnder_of_exec (M := gpioDriver) rfl hrun
  exact ⟨s, of_decide_eq_true hp, gpios_owned hs⟩

/-- A handle with pin 4 asks for none. The pin is freed, but the handle still records it. -/
theorem gpios_not_owned :
    ¬ ∀ s, gpioDriver.Reachable s → GpioState.Owned s.gpios s.gpio := by
  have hrun : (gpioDriver.exec .initial
      [.animalOpen 0 true, .setGpio 0 4 granted, .setGpio 0 (-1) granted]).map
      (fun s => decide (s.gpios.requested = ∅ ∧ s.gpio 0 = some 4)) = some true := by decide
  obtain ⟨s, hs, hp⟩ := Machine.exists_reachable_of_exec (M := gpioDriver) rfl hrun
  obtain ⟨hreq, hpin⟩ := of_decide_eq_true hp
  intro h
  have hmem := (h s hs).cur_requested hpin (by decide)
  rw [hreq] at hmem
  exact absurd hmem (Finset.notMem_empty 4)

end BifrostModule.Animal
