import BifrostModule.Cdev.Session
import BifrostModule.Dma.UserTransfer

/-! # Tickets of transfers

A ticket is the low 31 bits of a counter that wraps at 32. The value travels
from the request through `dma_done` into the event, and to the caller of
`do_dma_start_xfer`, so both see the same one.
-/
namespace BifrostModule.Dma
open Foundation

def counterAfter (n : ℕ) : BitVec 32 := (fun c => (getTicket c).2)^[n] 0

/-- What the call of `get_ticket` that comes after `n` others returns. -/
def ticketAt (n : ℕ) : BitVec 32 := (getTicket (counterAfter n)).1

section Counting

theorem counterAfter_succ (n : ℕ) : counterAfter (n + 1) = (getTicket (counterAfter n)).2 :=
  Function.iterate_succ_apply' _ n 0

theorem toNat_counterAfter (n : ℕ) : (counterAfter n).toNat = n % 2 ^ 32 := by
  induction n with
  | zero => rfl
  | succ n ih =>
    have hone : (1 : BitVec 32).toNat = 1 := rfl
    rw [counterAfter_succ, getTicket, BitVec.toNat_add, ih, hone]
    omega

/-- The mask takes the counter modulo 2 ^ 31, across its own wrap at 2 ^ 32. -/
theorem toNat_ticketAt (n : ℕ) : (ticketAt n).toNat = (n + 1) % 2 ^ 31 := by
  have hmask : (0x7fffffff : BitVec 32).toNat = 2 ^ 31 - 1 := rfl
  have hone : (1 : BitVec 32).toNat = 1 := rfl
  rw [ticketAt, getTicket, BitVec.toNat_and, hmask, Nat.and_two_pow_sub_one_eq_mod,
    BitVec.toNat_add, toNat_counterAfter, hone]
  omega

theorem toInt_ticketAt (n : ℕ) : (ticketAt n).toInt = ((n + 1) % 2 ^ 31 : ℕ) := by
  rw [BitVec.toInt_eq_toNat_of_lt, toNat_ticketAt]
  rw [toNat_ticketAt]
  omega

theorem ticketAt_ne {i j : ℕ} (hij : i < j) (hlt : j < i + 2 ^ 31) : ticketAt i ≠ ticketAt j := by
  intro heq
  have hmod := congrArg BitVec.toNat heq
  rw [toNat_ticketAt, toNat_ticketAt] at hmod
  omega

end Counting

/-- The transfers, with the number of the request that each call has allocated and the DMA_DONE
events with the requests that they report. -/
structure Ticketed where
  xfers : Transfers
  allocs : ℕ
  number : ℕ → Option ℕ
  reports : List (DmaReq × Cdev.Event)

inductive TicketLabel where
  | xfer (l : XferLabel)
  | dmaMsiHandler (req : DmaReq) (stack : Cdev.Event) (time : BitVec 64)

namespace Ticketed

/-- The requests are numbered in the order of their allocation. -/
def allocated (s : Ticketed) (f : ℕ) (sys : StartServices) (t : Transfers) : Ticketed :=
  if sys.allocated then
    { s with
      xfers := t
      allocs := s.allocs + 1
      number := Function.update s.number f (some s.allocs) }
  else { s with xfers := t }

def step (s : Ticketed) : TicketLabel → Option Ticketed
  | .xfer (.sched (.ret _)) => none
  | .xfer (.enter f call sys) => (s.xfers.step (.enter f call sys)).map (s.allocated f sys)
  | .xfer l => (s.xfers.step l).map fun t => { s with xfers := t }
  | .dmaMsiHandler req stack time =>
    (s.xfers.step (.sched (.ret req))).map fun t =>
      { s with
        xfers := t
        reports := s.reports ++ [(req, Cdev.dmaDoneEvent stack req.ticket time req.cookie)] }

def initial (ctl : DmaCtl DmaReq) : Ticketed := ⟨.initial ctl, 0, fun _ => none, []⟩

end Ticketed

def ticketed : Machine Ticketed TicketLabel where
  start s := ∃ ctl, (scheduler DmaReq).start (.initial ctl) ∧ s = .initial ctl
  step := Ticketed.step

namespace Ticketed

/-- Fewer than 2 ^ 31 requests were allocated from the one call's to the other's. -/
def Near (s : Ticketed) (f g : ℕ) : Prop :=
  ∃ m n, s.number f = some m ∧ s.number g = some n ∧ m < n + 2 ^ 31 ∧ n < m + 2 ^ 31

/-- A ticket that a call returns is no negative number, it is the id of the event of the call's own
transfer, and that of no event of another call's transfer nearby. -/
structure Identified (s : Ticketed) : Prop where
  nonneg : ∀ f ticket, s.xfers.phase f = .returned (.ok ticket) → 0 ≤ ticket.toInt
  reported : ∀ req e ticket, (req, e) ∈ s.reports →
    s.xfers.phase req.id = .returned (.ok ticket) → e.dmaId = ticket
  identifies : ∀ req e f ticket, (req, e) ∈ s.reports → s.Near req.id f →
    s.xfers.phase f = .returned (.ok ticket) → e.dmaId = ticket → f = req.id

def Has (s : Ticketed) (f : ℕ) (ticket : BitVec 32) : Prop :=
  ∃ n, s.number f = some n ∧ ticket = ticketAt n

end Ticketed

def Phase.req : Phase → Option DmaReq
  | .outside => none
  | .prepared req => some req
  | .started req => some req
  | .waiting req => some req
  | .returned _ => none

theorem prepareXfer_ok {f : ℕ} {counter : BitVec 32} {call : StartCall} {sys : StartServices}
    {req : DmaReq} (h : prepareXfer f counter call sys = .ok req) :
    sys.allocated = true ∧ req.id = f ∧ req.ticket = (getTicket counter).1 := by
  unfold prepareXfer at h
  split at h
  · cases h
  · rename_i halloc
    refine ⟨not_not.mp halloc, ?_⟩
    dsimp only at h
    split at h
    · cases hp : prepareDmaBuffer call sys (allocDmaReq f counter call.cookie) with
      | none =>
        rw [hp] at h
        cases h
      | some p =>
        rw [hp] at h
        cases h
        unfold prepareDmaBuffer at hp
        split_ifs at hp
        cases hp
        simp [allocDmaReq]
    · cases h
      simp [allocDmaReq]

namespace Transfers
variable {s t : Transfers} {l : XferLabel}

/-- A call keeps its request to itself until it returns, with its ticket or with an error. -/
def Goes (p q : Phase) : Prop :=
  q = p ∨ ∃ req, p.req = some req ∧ (q.req = some req ∨
    q = .returned (.ok req.ticket) ∨ ∃ err, q = .returned (.error err))

theorem goes_setPhase {f : ℕ} {q : Phase} (h : Goes (s.phase f) q) (g : ℕ) :
    Goes (s.phase g) ((s.setPhase f q).phase g) := by
  by_cases hgf : g = f
  · rw [hgf, setPhase_self]
    exact h
  · rw [setPhase_of_ne s hgf]
    exact .inl rfl

theorem step_goes (h : s.step l = some t) (hl : ∀ f call sys, l ≠ .enter f call sys) :
    t.counter = s.counter ∧ (∀ g, Goes (s.phase g) (t.phase g)) ∧
      ∀ r ∈ t.sched.outstanding, r ∈ s.sched.outstanding ∨ ∃ f, s.phase f = .prepared r := by
  cases l with
  | enter f call sys => exact absurd rfl (hl f call sys)
  | start f =>
    simp only [step] at h
    split at h
    · rename_i req hf
      obtain ⟨u, hu, rfl⟩ := Option.map_eq_some_iff.mp h
      refine ⟨rfl, goes_setPhase (.inr ⟨req, by rw [hf]; rfl, .inl rfl⟩), fun r hr => ?_⟩
      rcases State.outstanding_step hu hr with hr | hr
      · exact .inl hr
      · exact .inr ⟨f, by rw [hf, List.mem_singleton.mp hr]⟩
    · cases h
  | sched a =>
    have hsched : ∀ {u : State DmaReq}, s.sched.step a = some u → a.submits = [] →
        ∀ r ∈ u.outstanding, r ∈ s.sched.outstanding ∨ ∃ f, s.phase f = .prepared r := by
      intro u hu hsub r hr
      rcases State.outstanding_step hu hr with hr | hr
      · exact .inl hr
      · rw [hsub] at hr
        cases hr
    cases a with
    | submit req => cases h
    | complete c req =>
      obtain ⟨u, hu, rfl⟩ := Option.map_eq_some_iff.mp h
      refine ⟨?_, fun g => .inl ?_, hsched hu rfl⟩
      · change (s.signal req).counter = s.counter
        unfold signal
        split <;> rfl
      · change (s.signal req).phase g = s.phase g
        unfold signal
        split <;> rfl
    | interrupt irq =>
      obtain ⟨u, hu, rfl⟩ := Option.map_eq_some_iff.mp h
      exact ⟨rfl, fun g => .inl rfl, hsched hu rfl⟩
    | kickOff c req k =>
      obtain ⟨u, hu, rfl⟩ := Option.map_eq_some_iff.mp h
      exact ⟨rfl, fun g => .inl rfl, hsched hu rfl⟩
    | handOff c k =>
      obtain ⟨u, hu, rfl⟩ := Option.map_eq_some_iff.mp h
      exact ⟨rfl, fun g => .inl rfl, hsched hu rfl⟩
    | ret k =>
      obtain ⟨u, hu, rfl⟩ := Option.map_eq_some_iff.mp h
      exact ⟨rfl, fun g => .inl rfl, hsched hu rfl⟩
  | finish f =>
    simp only [step] at h
    split at h
    · rename_i req hf
      split_ifs at h
      · cases h
        exact ⟨rfl, goes_setPhase (.inr ⟨req, by rw [hf]; rfl, .inr (.inl rfl)⟩),
          fun r hr => .inl hr⟩
      · cases h
        exact ⟨rfl, goes_setPhase (.inr ⟨req, by rw [hf]; rfl, .inl rfl⟩), fun r hr => .inl hr⟩
    · cases h
  | wake f copied =>
    simp only [step] at h
    split at h
    · rename_i req hf
      split_ifs at h
      · cases h
        exact ⟨rfl, goes_setPhase (.inr ⟨req, by rw [hf]; rfl, .inr (.inr ⟨_, rfl⟩)⟩),
          fun r hr => .inl hr⟩
      · cases h
        exact ⟨rfl, goes_setPhase (.inr ⟨req, by rw [hf]; rfl, .inr (.inl rfl)⟩),
          fun r hr => .inl hr⟩
    · cases h
  | expire f =>
    simp only [step] at h
    split at h
    · rename_i req hf
      split_ifs at h
      cases h
      exact ⟨rfl, goes_setPhase (.inr ⟨req, by rw [hf]; rfl, .inr (.inr ⟨_, rfl⟩)⟩),
        fun r hr => .inl hr⟩
    · cases h

theorem enter_spec (s : Transfers) (f : ℕ) (call : StartCall) (sys : StartServices) :
    (s.enter f call sys).sched = s.sched ∧
      (s.enter f call sys).counter =
        (if sys.allocated then (getTicket s.counter).2 else s.counter) ∧
      ∃ q, (s.enter f call sys).phase = Function.update s.phase f q ∧
        ((∃ err, q = .returned (.error err)) ∨ ∃ req, q = .prepared req ∧ sys.allocated = true ∧
          req.id = f ∧ req.ticket = (getTicket s.counter).1) := by
  unfold enter
  cases h : prepareXfer f s.counter call sys with
  | error err =>
    dsimp only
    refine ⟨by split <;> rfl, by split <;> rfl, .returned (.error err), by split <;> rfl, ?_⟩
    exact .inl ⟨err, rfl⟩
  | ok req =>
    dsimp only
    refine ⟨by split <;> rfl, by split <;> rfl, .prepared req, by split <;> rfl, ?_⟩
    exact .inr ⟨req, rfl, prepareXfer_ok h⟩

theorem step_enter {f : ℕ} {call : StartCall} {sys : StartServices}
    (h : s.step (.enter f call sys) = some t) : s.phase f = .outside ∧ t = s.enter f call sys := by
  simp only [step] at h
  split at h
  · rename_i hf
    exact ⟨hf, (Option.some.inj h).symm⟩
  · cases h

end Transfers

namespace Ticketed
variable {s t : Ticketed} {f g : ℕ}

/-- The counter has counted the requests, each call has one of them, and its ticket goes wherever
the request of the call goes. -/
structure Inv (s : Ticketed) : Prop where
  counter : s.xfers.counter = counterAfter s.allocs
  below : ∀ f n, s.number f = some n → n < s.allocs
  injective : ∀ f g n, s.number f = some n → s.number g = some n → f = g
  entered : ∀ f, s.xfers.phase f = .outside → s.number f = none
  held : ∀ f req, (s.xfers.phase f).req = some req → req.id = f ∧ s.Has f req.ticket
  outstanding : ∀ req ∈ s.xfers.sched.outstanding, s.Has req.id req.ticket
  returned : ∀ f ticket, s.xfers.phase f = .returned (.ok ticket) → s.Has f ticket
  reports : ∀ p ∈ s.reports, s.Has p.1.id p.2.dmaId

theorem Inv.advance (hi : s.Inv) {l : XferLabel} {u : Transfers} (hu : s.xfers.step l = some u)
    (hl : ∀ f call sys, l ≠ .enter f call sys) : Inv { s with xfers := u } := by
  obtain ⟨hcounter, hgoes, hout⟩ := Transfers.step_goes hu hl
  refine ⟨hcounter.trans hi.counter, hi.below, hi.injective, ?_, ?_, ?_, ?_, hi.reports⟩
  · intro f hf
    rcases hgoes f with heq | ⟨req, -, hq | hq | ⟨err, hq⟩⟩
    · exact hi.entered f (heq.symm.trans hf)
    · rw [show u.phase f = .outside from hf] at hq
      cases hq
    · cases hq.symm.trans hf
    · cases hq.symm.trans hf
  · intro f req hreq
    have hreq' : (u.phase f).req = some req := hreq
    rcases hgoes f with heq | ⟨r, hr, hq | hq | ⟨err, hq⟩⟩
    · exact hi.held f req (heq ▸ hreq')
    · obtain rfl := Option.some.inj (hq.symm.trans hreq')
      exact hi.held f r hr
    · rw [hq] at hreq'
      cases hreq'
    · rw [hq] at hreq'
      cases hreq'
  · intro r hr
    rcases hout r hr with hr | ⟨f, hf⟩
    · exact hi.outstanding r hr
    · obtain ⟨rfl, hhas⟩ := hi.held f r (by rw [hf]; rfl)
      exact hhas
  · intro f ticket hf
    have hf' : u.phase f = .returned (.ok ticket) := hf
    rcases hgoes f with heq | ⟨r, hr, hq | hq | ⟨err, hq⟩⟩
    · exact hi.returned f ticket (heq.symm.trans hf')
    · rw [hf'] at hq
      cases hq
    · cases hq.symm.trans hf'
      exact (hi.held f r hr).2
    · cases hq.symm.trans hf'

theorem Has.mono {ticket : BitVec 32} (h : s.Has f ticket)
    (hnumber : ∀ n, s.number f = some n → t.number f = some n) : t.Has f ticket := by
  obtain ⟨n, hn, rfl⟩ := h
  exact ⟨n, hnumber n hn, rfl⟩

theorem Inv.enter (hi : s.Inv) {call : StartCall} {sys : StartServices}
    (hf : s.xfers.phase f = .outside) : (s.allocated f sys (s.xfers.enter f call sys)).Inv := by
  have hnone : s.number f = none := hi.entered f hf
  obtain ⟨hsched, hcounter, q, hphase, hq⟩ := s.xfers.enter_spec f call sys
  generalize s.xfers.enter f call sys = u at hsched hcounter hphase
  have hself : u.phase f = q := by rw [hphase, Function.update_self]
  have hother : ∀ g, g ≠ f → u.phase g = s.xfers.phase g := fun g hg => by
    rw [hphase, Function.update_of_ne hg]
  have hxfers : (s.allocated f sys u).xfers = u := by
    unfold Ticketed.allocated
    split <;> rfl
  have hreports : (s.allocated f sys u).reports = s.reports := by
    unfold Ticketed.allocated
    split <;> rfl
  have hnumber : ∀ g n, s.number g = some n → (s.allocated f sys u).number g = some n := by
    intro g n hg
    have hgf : g ≠ f := fun h => by rw [h, hnone] at hg; cases hg
    unfold Ticketed.allocated
    split
    · exact (Function.update_of_ne hgf _ _).trans hg
    · exact hg
  have hnew : ∀ g n, (s.allocated f sys u).number g = some n →
      s.number g = some n ∨ sys.allocated = true ∧ g = f ∧ n = s.allocs := by
    intro g n hg
    unfold Ticketed.allocated at hg
    split at hg
    · rename_i halloc
      by_cases hgf : g = f
      · have hsome : Function.update s.number f (some s.allocs) g = some n := hg
        rw [hgf, Function.update_self] at hsome
        exact .inr ⟨halloc, hgf, (Option.some.inj hsome).symm⟩
      · exact .inl ((Function.update_of_ne hgf _ _).symm.trans hg)
    · exact .inl hg
  have hallocs : (s.allocated f sys u).allocs =
      if sys.allocated then s.allocs + 1 else s.allocs := by
    unfold Ticketed.allocated
    split <;> rfl
  refine ⟨?_, ?_, ?_, ?_, ?_, ?_, ?_, ?_⟩
  · rw [hxfers, hallocs, hcounter, hi.counter]
    split
    · exact (counterAfter_succ s.allocs).symm
    · rfl
  · intro g n hg
    rw [hallocs]
    rcases hnew g n hg with hold | ⟨halloc, -, rfl⟩
    · have hlt := hi.below g n hold
      split <;> omega
    · rw [if_pos halloc]
      exact Nat.lt_succ_self _
  · intro g g' n hg hg'
    rcases hnew g n hg with hold | ⟨-, rfl, rfl⟩
    · rcases hnew g' n hg' with hold' | ⟨-, rfl, rfl⟩
      · exact hi.injective g g' n hold hold'
      · exact absurd (hi.below g _ hold) (lt_irrefl _)
    · rcases hnew g' _ hg' with hold' | ⟨-, rfl, -⟩
      · exact absurd (hi.below g' _ hold') (lt_irrefl _)
      · rfl
  · intro g hg
    rw [hxfers] at hg
    have hgf : g ≠ f := by
      rintro rfl
      rw [hself] at hg
      rcases hq with ⟨err, rfl⟩ | ⟨req, rfl, -⟩ <;> cases hg
    rw [hother g hgf] at hg
    unfold Ticketed.allocated
    split
    · exact (Function.update_of_ne hgf _ _).trans (hi.entered g hg)
    · exact hi.entered g hg
  · intro g req hreq
    rw [hxfers] at hreq
    by_cases hgf : g = f
    · subst hgf
      rw [hself] at hreq
      rcases hq with ⟨err, rfl⟩ | ⟨r, rfl, halloc, hid, hticket⟩
      · cases hreq
      · cases hreq
        refine ⟨hid, s.allocs, ?_, by rw [hticket, hi.counter, ticketAt]⟩
        rw [Ticketed.allocated, if_pos halloc]
        exact Function.update_self _ _ _
    · rw [hother g hgf] at hreq
      obtain ⟨hid, hhas⟩ := hi.held g req hreq
      exact ⟨hid, hhas.mono (hnumber g)⟩
  · intro req hreq
    rw [hxfers, hsched] at hreq
    exact (hi.outstanding req hreq).mono (hnumber _)
  · intro g ticket hg
    rw [hxfers] at hg
    by_cases hgf : g = f
    · rw [hgf, hself] at hg
      rcases hq with ⟨err, rfl⟩ | ⟨r, rfl, -⟩ <;> cases hg
    · rw [hother g hgf] at hg
      exact (hi.returned g ticket hg).mono (hnumber g)
  · rw [hreports]
    exact fun p hp => (hi.reports p hp).mono (hnumber _)

theorem inv_initial {ctl : DmaCtl DmaReq} (hctl : (scheduler DmaReq).start (.initial ctl)) :
    (initial ctl).Inv := by
  have hsched : (State.initial ctl).Inv := State.reachable_inv (.start hctl)
  have hplace : ∀ r p, ¬ (State.initial ctl).At r p := by
    intro r p hp
    cases hsched.submitted_iff.mpr ⟨p, hp⟩
  refine ⟨rfl, nofun, nofun, fun _ _ => rfl, nofun, ?_, nofun, nofun⟩
  intro r hr
  rcases State.mem_outstanding.mp hr with hr | ⟨c, hr⟩ | ⟨k, hk, -⟩
  · exact absurd hr (hplace r .pending)
  · exact absurd hr (hplace r (.inProgress c))
  · cases hk

theorem inv_step {l : TicketLabel} (hi : s.Inv) (h : s.step l = some t) : t.Inv := by
  cases l with
  | dmaMsiHandler req stack time =>
    obtain ⟨u, hu, rfl⟩ := Option.map_eq_some_iff.mp h
    obtain ⟨v, hv, -⟩ := Option.map_eq_some_iff.mp hu
    have hnext := hi.advance hu nofun
    refine ⟨hnext.counter, hnext.below, hnext.injective, hnext.entered, hnext.held,
      hnext.outstanding, hnext.returned, ?_⟩
    intro p hp
    rcases List.mem_append.mp hp with hp | hp
    · exact hnext.reports p hp
    · rw [List.mem_singleton.mp hp]
      exact hi.outstanding req (State.outstanding_ret hv)
  | xfer l =>
    cases l with
    | enter f call sys =>
      obtain ⟨u, hu, rfl⟩ := Option.map_eq_some_iff.mp h
      obtain ⟨hf, rfl⟩ := Transfers.step_enter hu
      exact hi.enter hf
    | sched a =>
      cases a with
      | ret req => cases h
      | submit req => cases h
      | _ =>
        obtain ⟨u, hu, rfl⟩ := Option.map_eq_some_iff.mp h
        exact hi.advance hu nofun
    | _ =>
      obtain ⟨u, hu, rfl⟩ := Option.map_eq_some_iff.mp h
      exact hi.advance hu nofun

theorem Inv.identified (hi : s.Inv) : s.Identified where
  nonneg f ticket hf := by
    obtain ⟨n, -, rfl⟩ := hi.returned f ticket hf
    rw [toInt_ticketAt]
    exact Int.natCast_nonneg _
  reported req e ticket he hf := by
    obtain ⟨n, hn, hid⟩ := hi.reports _ he
    obtain ⟨m, hm, rfl⟩ := hi.returned _ ticket hf
    obtain rfl := Option.some.inj (hn.symm.trans hm)
    exact hid
  identifies req e f ticket he hnear hf heq := by
    obtain ⟨n, hn, hid⟩ := hi.reports _ he
    obtain ⟨m, hm, rfl⟩ := hi.returned f ticket hf
    obtain ⟨n', m', hn', hm', hlt, hlt'⟩ := hnear
    obtain rfl := Option.some.inj (hn.symm.trans hn')
    obtain rfl := Option.some.inj (hm.symm.trans hm')
    have hsame : n = m := by
      rcases lt_trichotomy n m with h | h | h
      · exact absurd (hid.symm.trans heq) (ticketAt_ne h hlt')
      · exact h
      · exact absurd (hid.symm.trans heq).symm (ticketAt_ne h hlt)
    exact hi.injective f req.id m hm (hsame ▸ hn)

end Ticketed

/-- Every call of `get_ticket` returns a value from 0 to 2 ^ 31 - 1, another one than the fewer than
2 ^ 31 calls before it, and in every run the tickets that `do_dma_start_xfer` returns identify the
DMA_DONE events of their transfers. -/
theorem tickets_identify :
    (∀ n, 0 ≤ (ticketAt n).toInt ∧ (ticketAt n).toInt < 2 ^ 31) ∧
      (∀ i j, i < j → j < i + 2 ^ 31 → ticketAt i ≠ ticketAt j) ∧
      ∀ s, ticketed.Reachable s → s.Identified := by
  refine ⟨fun n => ?_, fun i j => ticketAt_ne, fun s hs => ?_⟩
  · rw [toInt_ticketAt]
    omega
  · have hstart : ∀ s, ticketed.start s → s.Inv := by
      rintro _ ⟨ctl, hctl, rfl⟩
      exact Ticketed.inv_initial hctl
    exact (hs.invariant hstart fun _ _ _ hi hst => Ticketed.inv_step hi hst).identified

end BifrostModule.Dma
