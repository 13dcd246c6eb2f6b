import BifrostModule.Foundation.Ledger
import BifrostModule.Lifecycle.Driver

/-! # The table of the message signaled interrupts

The table `msi` says which handler a vector has and which interrupt it holds. Here
`bifrost_attach_msis_to_irq` and `bifrost_detach_msis` run on the table and the
interrupts that the kernel has handed out, with unsigned interrupt numbers.
-/
namespace BifrostModule.Irq
open Foundation Lifecycle

def noIrq : BitVec 32 := -1

/-- `struct msi_action`, with its `irq` as a number. -/
structure MsiSlot where
  handler : Option Isr
  irq : BitVec 32
  deriving DecidableEq

/-- The table with the cookie of every interrupt that is requested, and the requests so far. -/
structure MsiState where
  msi : Vec → MsiSlot
  requested : BitVec 32 → Option Vec
  ledger : List (Entry (BitVec 32) Vec)

namespace MsiState

def initial : MsiState := ⟨fun v => ⟨msiTable v, noIrq⟩, fun _ => none, []⟩

def setIrq (s : MsiState) (v : Vec) (irq : BitVec 32) : MsiState :=
  { s with msi := Function.update s.msi v { s.msi v with irq := irq } }

/-- `request_irq` for an entry of the table. The kernel refuses a number that no interrupt has, as
`NO_IRQ` is one, and an interrupt that is not shared and taken. -/
def requestIrq (s : MsiState) (v : Vec) (rc : Rc) : Rc × MsiState :=
  let irq := (s.msi v).irq
  if rc.isSome then (rc, s)
  else if irq = noIrq then (some .EINVAL, s)
  else if (s.requested irq).isSome then (some .EBUSY, s)
  else (none, { s with
    requested := Function.update s.requested irq (some v)
    ledger := s.ledger ++ [.take irq v] })

def freeIrq (s : MsiState) (v : Vec) : MsiState :=
  let irq := (s.msi v).irq
  { s with
    requested := if s.requested irq = some v then Function.update s.requested irq none
      else s.requested
    ledger := s.ledger ++ [.give irq v] }

def copyMsiFvd (s : MsiState) (n : ℕ) : MsiState :=
  { s with msi := fun v => if v.val < n then ⟨msiFvdTable v, noIrq⟩ else s.msi v }

/-- The calls that concern the table; any other is answered and changes nothing here. -/
def reply (s : MsiState) : (op : Op) → Ans op → Option (Ans op × MsiState)
  | .take (.msiIrq v), rc => some (s.requestIrq v rc)
  | .give (.msiIrq v), _ => some ((), s.freeIrq v)
  | .get (.hasHandler v), _ => some ((s.msi v).handler.isSome, s)
  | .get (.attached v), _ => some (decide ((s.msi v).irq ≠ noIrq), s)
  | .set (.msiIrq v irq), _ => some ((), s.setIrq v (irq.elim noIrq (BitVec.ofInt 32)))
  | .set (.copyMsiFvd n), _ => some ((), s.copyMsiFvd n)
  | _, ans => some (ans, s)

end MsiState

def msiKernel : Services Ans MsiState where
  reply := MsiState.reply

/-- A call from a probe or a remove, with the answers of the kernel. -/
inductive MsiCall where
  | attach (hwIrq : ℤ) (env : Env)
  | detach

/-- Attach and detach, in any order, on one platform. -/
def msiCalls (p : Platform) : Machine MsiState MsiCall where
  start s := s = .initial
  step s
    | .attach hwIrq env =>
      ((Pci.bifrostAttachMsisToIrq p hwIrq).run msiKernel env s).map (·.2)
    | .detach => (Pci.bifrostDetachMsis.run msiKernel granted s).map (·.2)

namespace MsiState

/-- The entries with an interrupt are those of the interrupts that are requested, and no interrupt
was requested again before it was freed. -/
structure Balanced (s : MsiState) : Prop where
  recorded : ∀ irq v, s.requested irq = some v ↔ (s.msi v).irq = irq ∧ irq ≠ noIrq
  once : Ledger.replay s.ledger = some s.requested

/-- An attach on an FVD platform finds its vector without an interrupt. -/
def Fresh (p : Platform) (s : MsiState) : MsiCall → Prop
  | .attach _ _ => p.fvd → (s.msi 0).irq = noIrq
  | .detach => True

/-! ## One entry -/

def attachOne (env : Env) (hwIrq : ℤ) (s : MsiState) (v : Vec) : MsiState :=
  if (s.msi v).handler.isSome ∧ (s.msi v).irq = noIrq then
    let r := (s.setIrq v (BitVec.ofInt 32 (hwIrq + v.val))).requestIrq v (env (.take (.msiIrq v)))
    if r.1.isSome then r.2.setIrq v noIrq else r.2
  else s

def detachOne (s : MsiState) (v : Vec) : MsiState :=
  if (s.msi v).irq ≠ noIrq then (s.freeIrq v).setIrq v noIrq else s

theorem run_requestMsi (env : Env) (hwIrq : ℤ) (v : Vec) (s : MsiState) :
    (Pci.requestMsi v hwIrq).run msiKernel env s =
      let r := (s.setIrq v (BitVec.ofInt 32 (hwIrq + v.val))).requestIrq v (env (.take (.msiIrq v)))
      some ((), if r.1.isSome then r.2.setIrq v noIrq else r.2) := by
  let r := (s.setIrq v (BitVec.ofInt 32 (hwIrq + v.val))).requestIrq v (env (.take (.msiIrq v)))
  change Program.run msiKernel env
    (if r.1.isSome then Lifecycle.set (.msiIrq v none) else pure ()) r.2 =
      some ((), if r.1.isSome then r.2.setIrq v noIrq else r.2)
  split <;> rfl

theorem run_attachMsi (env : Env) (hwIrq : ℤ) (v : Vec) (s : MsiState) :
    (Pci.attachMsi hwIrq v).run msiKernel env s = some ((), s.attachOne env hwIrq v) := by
  change Program.run msiKernel env (if (s.msi v).handler.isSome then
    (do if ← Lifecycle.get (.attached v) then pure () else Pci.requestMsi v hwIrq)
    else pure ()) s = _
  rw [attachOne]
  by_cases hhandler : (s.msi v).handler.isSome
  · rw [if_pos hhandler]
    change Program.run msiKernel env (if decide ((s.msi v).irq ≠ noIrq) then pure ()
      else Pci.requestMsi v hwIrq) s = _
    by_cases hirq : (s.msi v).irq = noIrq
    · rw [if_neg (by simpa using hirq), if_pos ⟨hhandler, hirq⟩]
      exact run_requestMsi env hwIrq v s
    · rw [if_pos (by simpa using hirq), if_neg fun h => hirq h.2]
      rfl
  · rw [if_neg hhandler, if_neg fun h => hhandler h.1]
    rfl

theorem run_detachMsi (env : Env) (v : Vec) (s : MsiState) :
    (Pci.detachMsi v).run msiKernel env s = some ((), s.detachOne v) := by
  change Program.run msiKernel env (if decide ((s.msi v).irq ≠ noIrq) then
    (do give (.msiIrq v); Lifecycle.set (.msiIrq v none)) else pure ()) s = _
  rw [detachOne]
  by_cases hirq : (s.msi v).irq = noIrq
  · rw [if_neg (by simpa using hirq), if_neg (not_not.mpr hirq)]
    rfl
  · rw [if_pos (by simpa using hirq), if_pos hirq]
    rfl

def vectors (p : Platform) : List Vec := (List.finRange 32).filter (·.val < p.msiInterrupts)

theorem step_attach {p : Platform} {hwIrq : ℤ} {env : Env} {s : MsiState} :
    (msiCalls p).step s (.attach hwIrq env) =
      some ((vectors p).foldl (attachOne env hwIrq)
        (if p.fvd then s.copyMsiFvd p.msiInterrupts else s)) := by
  have hloop := Program.run_forM msiKernel env (run_attachMsi env hwIrq) (vectors p)
  change ((Pci.bifrostAttachMsisToIrq p hwIrq).run msiKernel env s).map (·.2) = _
  cases hp : p.fvd with
  | false =>
    have hrun : (Pci.bifrostAttachMsisToIrq p hwIrq).run msiKernel env s =
        ((vectors p).forM (Pci.attachMsi hwIrq)).run msiKernel env s := by
      rw [Pci.bifrostAttachMsisToIrq, hp]
      rfl
    rw [hrun, hloop]
    rfl
  | true =>
    have hrun : (Pci.bifrostAttachMsisToIrq p hwIrq).run msiKernel env s =
        ((vectors p).forM (Pci.attachMsi hwIrq)).run msiKernel env
          (s.copyMsiFvd p.msiInterrupts) := by
      rw [Pci.bifrostAttachMsisToIrq, hp]
      rfl
    rw [hrun, hloop]
    rfl

theorem step_detach {p : Platform} {s : MsiState} :
    (msiCalls p).step s .detach = some ((List.finRange 32).foldl detachOne s) := by
  change (Pci.bifrostDetachMsis.run msiKernel granted s).map (·.2) = _
  rw [Pci.bifrostDetachMsis, Program.run_forM msiKernel granted (run_detachMsi granted),
    Option.map_some]

/-! ## The table and the interrupts -/

variable {s t : MsiState} {v : Vec}

@[simp] theorem setIrq_irq (s : MsiState) (v u : Vec) (irq : BitVec 32) :
    ((s.setIrq v irq).msi u).irq = if u = v then irq else (s.msi u).irq := by
  by_cases h : u = v
  · subst h
    simp [setIrq]
  · simp [setIrq, h]

/-- Only the numbers in the table, the interrupts and the requests matter. -/
theorem Balanced.of_irq (h : s.Balanced) (hirq : ∀ v, (t.msi v).irq = (s.msi v).irq)
    (hrequested : t.requested = s.requested) (hledger : t.ledger = s.ledger) : t.Balanced where
  recorded irq v := by
    rw [hrequested, hirq]
    exact h.recorded irq v
  once := by
    rw [hledger, hrequested]
    exact h.once

theorem balanced_initial : initial.Balanced where
  recorded irq v := by
    constructor
    · intro h
      cases h
    · rintro ⟨rfl, hne⟩
      exact absurd rfl hne
  once := rfl

theorem requestIrq_cases (s : MsiState) (v : Vec) (rc : Rc) :
    (∃ e, s.requestIrq v rc = (some e, s)) ∨
      rc = none ∧ (s.msi v).irq ≠ noIrq ∧ s.requested (s.msi v).irq = none ∧
        s.requestIrq v rc = (none, { s with
          requested := Function.update s.requested (s.msi v).irq (some v)
          ledger := s.ledger ++ [.take (s.msi v).irq v] }) := by
  unfold requestIrq
  dsimp only
  split_ifs with hrc hirq htaken
  · obtain ⟨e, rfl⟩ := Option.isSome_iff_exists.mp hrc
    exact .inl ⟨e, rfl⟩
  · exact .inl ⟨_, rfl⟩
  · exact .inl ⟨_, rfl⟩
  · exact .inr ⟨Option.not_isSome_iff_eq_none.mp hrc, hirq,
      Option.not_isSome_iff_eq_none.mp htaken, rfl⟩

theorem attachOne_cases (s : MsiState) (env : Env) (hwIrq : ℤ) (v : Vec) :
    ((∀ u, ((s.attachOne env hwIrq v).msi u).irq = (s.msi u).irq) ∧
      (s.attachOne env hwIrq v).requested = s.requested ∧
      (s.attachOne env hwIrq v).ledger = s.ledger) ∨
    ∃ irq, (s.msi v).irq = noIrq ∧ irq ≠ noIrq ∧ s.requested irq = none ∧
      (∀ u, ((s.attachOne env hwIrq v).msi u).irq = if u = v then irq else (s.msi u).irq) ∧
      (s.attachOne env hwIrq v).requested = Function.update s.requested irq (some v) ∧
      (s.attachOne env hwIrq v).ledger = s.ledger ++ [.take irq v] := by
  unfold attachOne
  by_cases hskip : (s.msi v).handler.isSome ∧ (s.msi v).irq = noIrq
  · rw [if_pos hskip]
    have hset := setIrq_irq s v v (BitVec.ofInt 32 (hwIrq + v.val))
    rw [if_pos rfl] at hset
    rcases (s.setIrq v (BitVec.ofInt 32 (hwIrq + v.val))).requestIrq_cases v
      (env (.take (.msiIrq v))) with ⟨e, heq⟩ | ⟨-, hirq, hfree, heq⟩
    · -- The entry has no interrupt again.
      rw [heq]
      refine .inl ⟨fun u => ?_, rfl, rfl⟩
      dsimp only
      rw [Option.isSome_some, if_pos rfl, setIrq_irq, setIrq_irq]
      split_ifs with huv
      · rw [huv, hskip.2]
      · rfl
    · rw [heq]
      rw [hset] at hirq hfree ⊢
      exact .inr ⟨_, hskip.2, hirq, hfree, fun u => setIrq_irq s v u _, rfl, rfl⟩
  · rw [if_neg hskip]
    exact .inl ⟨fun _ => rfl, rfl, rfl⟩

theorem detachOne_cases (s : MsiState) (v : Vec) :
    ((s.msi v).irq = noIrq ∧ s.detachOne v = s) ∨ (s.msi v).irq ≠ noIrq ∧
      s.detachOne v = (s.freeIrq v).setIrq v noIrq := by
  unfold MsiState.detachOne
  split_ifs with h
  · exact .inr ⟨h, rfl⟩
  · exact .inl ⟨not_not.mp h, rfl⟩

theorem Balanced.request (h : s.Balanced) {irq : BitVec 32} (hv : (s.msi v).irq = noIrq)
    (hirq : irq ≠ noIrq) (hfree : s.requested irq = none)
    (hmsi : ∀ u, (t.msi u).irq = if u = v then irq else (s.msi u).irq)
    (hrequested : t.requested = Function.update s.requested irq (some v))
    (hledger : t.ledger = s.ledger ++ [.take irq v]) : t.Balanced where
  recorded i u := by
    rw [hrequested, hmsi]
    by_cases hi : i = irq
    · subst hi
      rw [Function.update_self]
      constructor
      · rintro ⟨⟩
        exact ⟨if_pos rfl, hirq⟩
      · rintro ⟨hu, -⟩
        by_contra hne
        rw [if_neg fun huv => hne (congrArg some huv.symm)] at hu
        rw [(h.recorded i u).mpr ⟨hu, hirq⟩] at hfree
        cases hfree
    · rw [Function.update_of_ne hi, h.recorded]
      by_cases huv : u = v
      · subst huv
        rw [if_pos rfl, hv]
        exact ⟨fun hu => absurd hu.1.symm hu.2, fun hu => absurd hu.1.symm hi⟩
      · rw [if_neg huv]
  once := by
    rw [hledger, hrequested]
    exact Ledger.replay_take h.once hfree v

theorem Balanced.attachOne (h : s.Balanced) (env : Env) (hwIrq : ℤ) (v : Vec) :
    (s.attachOne env hwIrq v).Balanced := by
  rcases s.attachOne_cases env hwIrq v with ⟨hirq, hrequested, hledger⟩ |
    ⟨irq, hv, hirq, hfree, hmsi, hrequested, hledger⟩
  · exact h.of_irq hirq hrequested hledger
  · exact h.request hv hirq hfree hmsi hrequested hledger

theorem Balanced.detachOne (h : s.Balanced) (v : Vec) : (s.detachOne v).Balanced := by
  rcases s.detachOne_cases v with ⟨-, heq⟩ | ⟨hirq, heq⟩
  · rw [heq]
    exact h
  rw [heq]
  have hheld : s.requested (s.msi v).irq = some v := (h.recorded _ v).mpr ⟨rfl, hirq⟩
  constructor
  · intro i u
    change (if s.requested (s.msi v).irq = some v
      then Function.update s.requested (s.msi v).irq none else s.requested) i = some u ↔ _
    rw [if_pos hheld, setIrq_irq]
    by_cases hi : i = (s.msi v).irq
    · rw [hi, Function.update_self]
      constructor
      · intro hnone
        cases hnone
      · rintro ⟨hu, -⟩
        split_ifs at hu with huv
        · exact absurd hu.symm hirq
        · have hother := (h.recorded _ u).mpr ⟨hu, hirq⟩
          exact absurd (Option.some.inj (hother.symm.trans hheld)) huv
    · rw [Function.update_of_ne hi, h.recorded]
      by_cases huv : u = v
      · subst huv
        rw [if_pos rfl]
        exact ⟨fun hu => absurd hu.1.symm hi, fun hu => absurd hu.1.symm hu.2⟩
      · rw [if_neg huv]
        rfl
  · change Ledger.replay (s.ledger ++ [.give (s.msi v).irq v]) =
      some (if s.requested (s.msi v).irq = some v
        then Function.update s.requested (s.msi v).irq none else s.requested)
    rw [if_pos hheld]
    exact Ledger.replay_give h.once hheld

/-- An entry without an interrupt stays without one, and the entry that is detached is. -/
theorem detachOne_irq (s : MsiState) (v u : Vec) :
    ((s.detachOne v).msi u).irq = if u = v then noIrq else (s.msi u).irq := by
  rcases s.detachOne_cases v with ⟨hirq, heq⟩ | ⟨-, heq⟩
  · rw [heq]
    split_ifs with huv
    · rw [huv, hirq]
    · rfl
  · rw [heq, setIrq_irq]
    rfl

theorem Balanced.foldl {ι : Type} {f : MsiState → ι → MsiState}
    (hf : ∀ s i, s.Balanced → (f s i).Balanced) (is : List ι) (h : s.Balanced) :
    (is.foldl f s).Balanced := by
  induction is generalizing s with
  | nil => exact h
  | cons i is ih => exact ih (hf s i h)

theorem foldl_detachOne_irq (vs : List Vec) (s : MsiState) (u : Vec) :
    ((vs.foldl MsiState.detachOne s).msi u).irq = if u ∈ vs then noIrq else (s.msi u).irq := by
  induction vs generalizing s with
  | nil => rfl
  | cons v vs ih =>
    rw [List.foldl_cons, ih, detachOne_irq]
    by_cases hu : u ∈ vs
    · simp [hu]
    · by_cases huv : u = v <;> simp [hu, huv]

theorem Balanced.copyMsiFvd (h : s.Balanced) {n : ℕ} (hirq : ∀ v : Vec, v.val < n →
    (s.msi v).irq = noIrq) : (s.copyMsiFvd n).Balanced := by
  refine h.of_irq (fun v => ?_) rfl rfl
  rw [MsiState.copyMsiFvd]
  dsimp only
  split_ifs with hv
  · exact (hirq v hv).symm
  · rfl

theorem Balanced.detached (h : s.Balanced) :
    ((List.finRange 32).foldl MsiState.detachOne s).requested = fun _ => none := by
  have hbalanced := h.foldl (fun _ v hs => Balanced.detachOne hs v) (List.finRange 32)
  funext irq
  cases hheld : ((List.finRange 32).foldl MsiState.detachOne s).requested irq with
  | none => rfl
  | some v =>
    obtain ⟨hirq, hne⟩ := (hbalanced.recorded irq v).mp hheld
    rw [foldl_detachOne_irq, if_pos (List.mem_finRange v)] at hirq
    exact absurd hirq.symm hne

variable {p : Platform} {a : MsiCall}

theorem Balanced.step (h : s.Balanced) (hok : Fresh p s a) (ht : (msiCalls p).step s a = some t) :
    t.Balanced := by
  cases a with
  | attach hwIrq env =>
    rw [step_attach] at ht
    obtain rfl := Option.some.inj ht
    apply Balanced.foldl fun s v hs => Balanced.attachOne hs env hwIrq v
    split_ifs with hp
    · apply h.copyMsiFvd
      intro v hv
      rw [Platform.msiInterrupts, if_pos hp] at hv
      obtain rfl : v = 0 := Fin.ext (Nat.lt_one_iff.mp hv)
      exact hok hp
    · exact h
  | detach =>
    rw [step_detach] at ht
    obtain rfl := Option.some.inj ht
    exact h.foldl (fun _ v hs => Balanced.detachOne hs v) _

/-- An attach that finds the vector of an FVD platform with an interrupt loses it. -/
theorem Balanced.lost (h : s.Balanced) (hok : ¬ Fresh p s a)
    (ht : (msiCalls p).step s a = some t) : ¬ t.Balanced := by
  cases a with
  | detach => exact absurd trivial hok
  | attach hwIrq env =>
    obtain ⟨hp, hirq⟩ := Classical.not_imp.mp hok
    have hone : p.msiInterrupts = 1 := by rw [Platform.msiInterrupts, if_pos hp]
    have hvectors : vectors p = [0] := by
      rw [vectors, hone]
      decide
    rw [step_attach, if_pos hp, hvectors, List.foldl_cons, List.foldl_nil, hone] at ht
    obtain rfl := Option.some.inj ht
    have hheld : s.requested (s.msi 0).irq = some 0 := (h.recorded _ 0).mpr ⟨rfl, hirq⟩
    intro hbalanced
    -- The interrupt is still requested, but the entry has another one or none.
    rcases (s.copyMsiFvd 1).attachOne_cases env hwIrq 0 with ⟨hmsi, hrequested, -⟩ |
      ⟨irq, -, -, hfree, hmsi, hrequested, -⟩
    · have hrecorded := ((hbalanced.recorded (s.msi 0).irq 0).mp
        (by rw [hrequested]; exact hheld)).1
      rw [hmsi] at hrecorded
      exact hirq hrecorded.symm
    · have hne : (s.msi 0).irq ≠ irq := by
        rintro rfl
        rw [show (s.copyMsiFvd 1).requested = s.requested from rfl, hheld] at hfree
        cases hfree
      have hrecorded := ((hbalanced.recorded (s.msi 0).irq 0).mp (by
        rw [hrequested, Function.update_of_ne hne]
        exact hheld)).1
      rw [hmsi, if_pos rfl] at hrecorded
      exact hne hrecorded.symm

/-- In every run in which no attach on an FVD platform finds the vector attached, the table and the
interrupts agree and a detach leaves none; an attach that does find it attached breaks it. -/
theorem msis_balanced (p : Platform) :
    (∀ s, (msiCalls p).ReachableUnder (Fresh p) s → s.Balanced ∧
      ∀ t, (msiCalls p).step s .detach = some t → t.requested = fun _ => none) ∧
    ∀ s a t, (msiCalls p).ReachableUnder (Fresh p) s → (msiCalls p).step s a = some t →
      ¬ Fresh p s a → ¬ t.Balanced := by
  have hbalanced : ∀ s, (msiCalls p).ReachableUnder (Fresh p) s → s.Balanced := by
    intro s hs
    apply hs.invariant
    · rintro s rfl
      exact balanced_initial
    · intro s a t hs hok ht
      exact hs.step hok ht
  constructor
  · intro s hs
    refine ⟨hbalanced s hs, fun t ht => ?_⟩
    rw [step_detach] at ht
    obtain rfl := Option.some.inj ht
    exact (hbalanced s hs).detached
  · intro s a t hs ht hok
    exact (hbalanced s hs).lost hok ht

/-- On an FVD platform, a second probe after one that failed without a detach. -/
theorem msi_lost : ¬ ∀ (p : Platform) (s : MsiState), (msiCalls p).Reachable s → s.Balanced := by
  intro h
  have hrun : ((msiCalls ⟨true, false, false, false⟩).exec .initial
      [.attach 100 granted, .attach 100 granted]).map
      (fun s => decide (s.requested 100 = some 0 ∧ (s.msi 0).irq = noIrq)) = some true := by
    decide
  obtain ⟨s, hs, hlost⟩ := Machine.exists_reachable_of_exec
    (M := msiCalls ⟨true, false, false, false⟩) rfl hrun
  obtain ⟨hheld, hirq⟩ := of_decide_eq_true hlost
  have hrecorded := (((h _ s hs).recorded 100 0).mp hheld).1
  rw [hirq] at hrecorded
  exact absurd hrecorded (by decide)

end MsiState
end BifrostModule.Irq
