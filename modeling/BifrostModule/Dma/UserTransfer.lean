import BifrostModule.Dma.Conservation
import BifrostModule.Dma.Request

/-! # The completion on the stack of a user-buffer transfer

`do_dma_start_xfer` puts a `struct completion` in its stack frame and a pointer to
it in the request. The pointer is used by `dma_done`, whenever the device finishes.
-/
namespace BifrostModule.Dma
open Foundation Foundation.InFlight

/-- The arguments of one `do_dma_start_xfer`; `user` is `BIFROST_DMA_USER_BUFFER`. -/
structure StartCall where
  cookie : BitVec 64
  user : Bool
  dir : Direction
  xfer : Transfer

/-- Outcomes of the kernel services the call uses before `start_dma_xfer`: the allocation of
the request, the growth of the buffer, the copy from the user and the bus address (0 for none)
that `pci_map_single` gives. -/
structure StartServices where
  allocated : Bool
  bufferReady : Bool
  copied : Bool
  busAddr : BitVec 32

/-- `prepare_dma_buffer` as far as the request sees it: on success the request points to the
completion of the call, and the transfer to the bus address. -/
def prepareDmaBuffer (call : StartCall) (sys : StartServices) (req : DmaReq) :
    Option (DmaReq × Transfer) :=
  if call.xfer.size = 0 then none
  else if ¬ sys.bufferReady then none
  else if call.dir = .down ∧ ¬ sys.copied then none
  else if sys.busAddr = 0 then none
  else some ({ req with pwork := some req.id }, { call.xfer with system := sys.busAddr })

def prepareXfer (id : ℕ) (counter : BitVec 32) (call : StartCall) (sys : StartServices) :
    Except Errno DmaReq :=
  if ¬ sys.allocated then .error .ENOMEM
  else
    let req := allocDmaReq id counter call.cookie
    if call.user then
      match prepareDmaBuffer call sys req with
      | none => .error .ENOMEM
      | some (req, xfer) => .ok (req.setDirection xfer call.dir)
    else .ok (req.setDirection call.xfer call.dir)

inductive Phase where
  | outside
  | prepared (req : DmaReq)
  | started (req : DmaReq)
  | waiting (req : DmaReq)
  | returned (rc : Except Errno (BitVec 32))
  deriving DecidableEq

/-- The scheduler with the calls around it. `done` is the completion of each call. -/
structure Transfers where
  sched : State DmaReq
  counter : BitVec 32
  phase : ℕ → Phase
  done : ℕ → Bool

inductive XferLabel where
  | enter (f : ℕ) (call : StartCall) (sys : StartServices)
  | start (f : ℕ)
  | sched (a : Label DmaReq)
  | finish (f : ℕ)
  | wake (f : ℕ) (copied : Bool)
  | expire (f : ℕ)

namespace Transfers

def setPhase (s : Transfers) (f : ℕ) (p : Phase) : Transfers :=
  { s with phase := Function.update s.phase f p }

def enter (s : Transfers) (f : ℕ) (call : StartCall) (sys : StartServices) : Transfers :=
  let t := if sys.allocated then { s with counter := (getTicket s.counter).2 } else s
  match prepareXfer f s.counter call sys with
  | .error e => t.setPhase f (.returned (.error e))
  | .ok req => t.setPhase f (.prepared req)

def signal (s : Transfers) (req : DmaReq) : Transfers :=
  match req.pwork with
  | none => s
  | some f => { s with done := Function.update s.done f true }

def schedStep (s : Transfers) (a : Label DmaReq) : Option Transfers :=
  match a with
  | .submit _ => none
  | .complete c req =>
    (s.sched.step (.complete c req)).map fun t => { s.signal req with sched := t }
  | a => (s.sched.step a).map fun t => { s with sched := t }

/-- One step. A call without a user buffer returns its ticket once its transfer is started; one
with a user buffer waits until its completion is done or the wait expires. -/
def step (s : Transfers) : XferLabel → Option Transfers
  | .enter f call sys =>
    match s.phase f with
    | .outside => some (s.enter f call sys)
    | _ => none
  | .start f =>
    match s.phase f with
    | .prepared req =>
      (s.sched.step (.submit req)).map fun t => { s.setPhase f (.started req) with sched := t }
    | _ => none
  | .sched a => s.schedStep a
  | .finish f =>
    match s.phase f with
    | .started req =>
      if req ∈ s.sched.calls.filterMap Call.kicking then none
      else if req.pwork = none then some (s.setPhase f (.returned (.ok req.ticket)))
      else some (s.setPhase f (.waiting req))
    | _ => none
  | .wake f copied =>
    match s.phase f with
    | .waiting req =>
      if s.done f then
        if req.dir = .up ∧ ¬ copied then some (s.setPhase f (.returned (.error .ETIMEDOUT)))
        else some (s.setPhase f (.returned (.ok req.ticket)))
      else none
    | _ => none
  | .expire f =>
    match s.phase f with
    | .waiting _ =>
      if s.done f then none else some (s.setPhase f (.returned (.error .ETIMEDOUT)))
    | _ => none

def initial (ctl : DmaCtl DmaReq) : Transfers :=
  ⟨.initial ctl, 0, fun _ => .outside, fun _ => false⟩

def Signalling (s : Transfers) (f : ℕ) : Prop :=
  ∃ c req, .completing c req ∈ s.sched.calls ∧ req.pwork = some f

def Returned (s : Transfers) (f : ℕ) : Prop := ∃ rc, s.phase f = .returned rc

/-- The call is between its `start_dma_xfer` and its return, with this request. -/
def Holds (s : Transfers) (f : ℕ) (req : DmaReq) : Prop :=
  s.phase f = .started req ∨ s.phase f = .waiting req

end Transfers

def transfers : Machine Transfers XferLabel where
  start s := ∃ ctl, (scheduler DmaReq).start (.initial ctl) ∧ s = .initial ctl
  step := Transfers.step

def XferLabel.isExpiry : XferLabel → Bool
  | .expire _ => true
  | _ => false

/-- Every wait in `finish_dma_buffer` ends with its completion done, none by its timeout. -/
def NoTimeout (_ : Transfers) (a : XferLabel) : Prop := a.isExpiry = false

instance (s : Transfers) (a : XferLabel) : Decidable (NoTimeout s a) :=
  inferInstanceAs (Decidable (_ = _))

theorem prepareXfer_pwork {f g : ℕ} {counter : BitVec 32} {call : StartCall}
    {sys : StartServices} {req : DmaReq} (h : prepareXfer f counter call sys = .ok req)
    (hg : req.pwork = some g) : g = f := by
  unfold prepareXfer at h
  split at h
  · cases h
  · dsimp only at h
    split at h
    · cases hp : prepareDmaBuffer call sys (allocDmaReq f counter call.cookie) with
      | none =>
        rw [hp] at h
        cases h
      | some p =>
        rw [hp] at h
        cases h
        unfold prepareDmaBuffer at hp
        split_ifs at hp
        cases hp
        rw [DmaReq.setDirection_pwork] at hg
        exact (Option.some.inj hg).symm
    · cases h
      rw [DmaReq.setDirection_pwork] at hg
      cases hg

/-- A request that `dma_done` is working on was submitted and is not freed yet. -/
theorem State.Inv.completing {ρ : Type*} {s : State ρ} (hi : s.Inv) {c : Chan} {req : ρ}
    (h : .completing c req ∈ s.calls) : req ∈ s.submitted ∧ req ∉ s.freed := by
  have hfrees : req ∈ keys Call.frees s.calls := mem_keys_of h rfl
  have hfin : req ∈ s.finished := by
    rw [← Multiset.mem_coe, hi.freeing]
    exact Multiset.mem_add.mpr (.inl hfrees)
  have hnd : (keys Call.frees s.calls + ↑s.freed : Multiset ρ).Nodup :=
    hi.freeing ▸ Multiset.coe_nodup.mpr hi.parts_nodup.2.1
  refine ⟨hi.submitted_iff.mpr ⟨.finished, hfin⟩, fun hfreed => ?_⟩
  exact Multiset.disjoint_left.mp (Multiset.nodup_add.mp hnd).2.2 hfrees
    (Multiset.mem_coe.mpr hfreed)

namespace Transfers

/-- A submitted request that points to a call is freed or still held by that call, and a call
whose completion is done has a freed request or has returned. -/
structure Alive (s : Transfers) : Prop where
  sched : s.sched.Inv
  own : ∀ f req g, s.phase f = .prepared req → req.pwork = some g → g = f
  held : ∀ req ∈ s.sched.submitted, ∀ f, req.pwork = some f →
    req ∈ s.sched.freed ∨ s.Holds f req
  signalled : ∀ f, s.done f = true →
    s.Returned f ∨ ∃ req ∈ s.sched.freed, s.Holds f req

variable {s t : Transfers} {f : ℕ}

@[simp] theorem setPhase_self (s : Transfers) (f : ℕ) (p : Phase) :
    (s.setPhase f p).phase f = p := Function.update_self _ _ _

theorem setPhase_of_ne (s : Transfers) {f g : ℕ} (h : g ≠ f) (p : Phase) :
    (s.setPhase f p).phase g = s.phase g := Function.update_of_ne h _ _

/-- A change of one call's phase keeps the invariant if the call gives up only a request that is
freed, and is not left behind by its completion. -/
theorem Alive.setPhase (hi : s.Alive) (p : Phase)
    (hown : ∀ req g, p = .prepared req → req.pwork = some g → g = f)
    (hheld : ∀ req, req.pwork = some f → s.Holds f req →
      req ∈ s.sched.freed ∨ p = .started req ∨ p = .waiting req)
    (hdone : s.done f = true → (∃ rc, p = .returned rc) ∨
      ∃ req ∈ s.sched.freed, p = .started req ∨ p = .waiting req) :
    (s.setPhase f p).Alive := by
  refine ⟨hi.sched, ?_, ?_, ?_⟩
  · intro g req g' hg hp
    by_cases hgf : g = f
    · subst hgf
      rw [setPhase_self] at hg
      exact hown req g' hg hp
    · rw [setPhase_of_ne s hgf] at hg
      exact hi.own g req g' hg hp
  · intro req hreq g hp
    rcases hi.held req hreq g hp with hfreed | hholds
    · exact .inl hfreed
    · by_cases hgf : g = f
      · subst hgf
        refine (hheld req hp hholds).imp_right fun h => ?_
        rw [Holds, setPhase_self]
        exact h
      · rw [Holds, setPhase_of_ne s hgf]
        exact .inr hholds
  · intro g hg
    by_cases hgf : g = f
    · subst hgf
      simp only [Returned, Holds, setPhase_self]
      exact hdone hg
    · simp only [Returned, Holds, setPhase_of_ne s hgf]
      exact hi.signalled g hg

theorem Alive.counter (hi : s.Alive) (c : BitVec 32) : Alive { s with counter := c } :=
  ⟨hi.sched, hi.own, hi.held, hi.signalled⟩

theorem not_holds (h : ∀ req, s.phase f ≠ .started req ∧ s.phase f ≠ .waiting req)
    (req : DmaReq) : ¬ s.Holds f req := by
  rintro (hs | hw)
  · exact (h req).1 hs
  · exact (h req).2 hw

theorem alive_enter (hi : s.Alive) (hf : s.phase f = .outside) (call : StartCall)
    (sys : StartServices) : (s.enter f call sys).Alive := by
  have hno : ∀ req, ¬ s.Holds f req := not_holds fun req => by rw [hf]; exact ⟨nofun, nofun⟩
  have hdone : ¬ s.done f = true := by
    intro hd
    rcases hi.signalled f hd with ⟨rc, hrc⟩ | ⟨req, -, hreq⟩
    · rw [hf] at hrc
      cases hrc
    · exact hno req hreq
  have hbase : ∀ c, ∀ p, (∀ req g, p = .prepared req → req.pwork = some g → g = f) →
      (Transfers.setPhase { s with counter := c } f p).Alive := fun c p hown =>
    (hi.counter c).setPhase p hown (fun req _ hr => absurd hr (hno req))
      fun hd => absurd hd hdone
  have ht : ∀ c p, (if sys.allocated then { s with counter := c } else s).setPhase f p =
      Transfers.setPhase { s with counter := if sys.allocated then c else s.counter } f p := by
    intro c p
    split <;> rfl
  unfold enter
  dsimp only
  cases h : prepareXfer f s.counter call sys with
  | error e =>
    dsimp only
    rw [ht]
    exact hbase _ _ nofun
  | ok req =>
    dsimp only
    rw [ht]
    refine hbase _ _ fun r g hr hp => ?_
    cases hr
    exact prepareXfer_pwork h hp

theorem alive_start (hi : s.Alive) {req : DmaReq} {u : State DmaReq}
    (hf : s.phase f = .prepared req) (hu : s.sched.step (.submit req) = some u) :
    Alive { s.setPhase f (.started req) with sched := u } := by
  have hno : ∀ r, ¬ s.Holds f r := not_holds fun r => by rw [hf]; exact ⟨nofun, nofun⟩
  have hdone : ¬ s.done f = true := by
    intro hd
    rcases hi.signalled f hd with ⟨rc, hrc⟩ | ⟨r, -, hr⟩
    · rw [hf] at hrc
      cases hrc
    · exact hno r hr
  have hp := hi.setPhase (f := f) (.started req) nofun (fun r _ hr => absurd hr (hno r))
    fun hd => absurd hd hdone
  obtain ⟨hsub, hfreed⟩ := State.step_frame hu
  rw [Label.submits] at hsub
  rw [Label.frees, List.append_nil] at hfreed
  refine ⟨State.inv_step hi.sched hu, hp.own, ?_, ?_⟩
  · intro r hr g hg
    change r ∈ u.submitted at hr
    change r ∈ u.freed ∨ _
    rw [hsub] at hr
    rw [hfreed]
    rcases List.mem_append.mp hr with hr | hr
    · exact hp.held r hr g hg
    · cases List.mem_singleton.mp hr
      cases hi.own f _ g hf hg
      refine .inr (.inl ?_)
      exact setPhase_self s _ _
  · intro g hg
    change Transfers.Returned _ g ∨ ∃ r ∈ u.freed, _
    rw [hfreed]
    exact hp.signalled g hg

theorem alive_advance (hi : s.Alive) {a : Label DmaReq} {u : State DmaReq}
    (hu : s.sched.step a = some u) (ha : a.submits = []) : Alive { s with sched := u } := by
  obtain ⟨hsub, hfreed⟩ := State.step_frame hu
  rw [ha, List.append_nil] at hsub
  have hmono : ∀ req ∈ s.sched.freed, req ∈ u.freed := fun req h =>
    hfreed ▸ List.mem_append_left _ h
  refine ⟨State.inv_step hi.sched hu, hi.own, ?_, ?_⟩
  · intro req hreq f hp
    change req ∈ u.submitted at hreq
    rw [hsub] at hreq
    exact (hi.held req hreq f hp).imp_left (hmono req)
  · intro f hf
    refine (hi.signalled f hf).imp_right ?_
    rintro ⟨req, hreq, hholds⟩
    exact ⟨req, hmono req hreq, hholds⟩

/-- The completing step frees the request it signals, which a call still holds. -/
theorem alive_complete (hi : s.Alive) {c : Chan} {req : DmaReq} {u : State DmaReq}
    (hu : s.sched.step (.complete c req) = some u) :
    Alive { s.signal req with sched := u } := by
  have hbase := alive_advance hi hu rfl
  cases hp : req.pwork with
  | none =>
    rw [signal, hp]
    exact hbase
  | some g =>
    have hfreed : req ∈ u.freed := by
      rw [(State.step_frame hu).2]
      exact List.mem_append_right _ (List.mem_singleton_self req)
    obtain ⟨hsub, hnot⟩ := hi.sched.completing (State.completing_of_step hu)
    have hholds : s.Holds g req := (hi.held req hsub g hp).resolve_left hnot
    rw [signal, hp]
    refine ⟨hbase.sched, hbase.own, hbase.held, ?_⟩
    intro f hf
    by_cases hfg : f = g
    · exact .inr ⟨req, hfreed, hfg ▸ hholds⟩
    · exact hbase.signalled f (by simpa [hfg] using hf)

theorem alive_schedStep (hi : s.Alive) {a : Label DmaReq} (h : s.schedStep a = some t) :
    t.Alive := by
  cases a with
  | submit req => cases h
  | complete c req =>
    obtain ⟨u, hu, rfl⟩ := Option.map_eq_some_iff.mp h
    exact alive_complete hi hu
  | interrupt irq =>
    obtain ⟨u, hu, rfl⟩ := Option.map_eq_some_iff.mp h
    exact alive_advance hi hu rfl
  | kickOff c req k =>
    obtain ⟨u, hu, rfl⟩ := Option.map_eq_some_iff.mp h
    exact alive_advance hi hu rfl
  | handOff c k =>
    obtain ⟨u, hu, rfl⟩ := Option.map_eq_some_iff.mp h
    exact alive_advance hi hu rfl
  | ret k =>
    obtain ⟨u, hu, rfl⟩ := Option.map_eq_some_iff.mp h
    exact alive_advance hi hu rfl

theorem alive_finish (hi : s.Alive) {req : DmaReq} (hf : s.phase f = .started req) :
    (req.pwork = none → (s.setPhase f (.returned (.ok req.ticket))).Alive) ∧
      (s.setPhase f (.waiting req)).Alive := by
  have heq : ∀ r, s.Holds f r → r = req := by
    rintro r (hr | hr)
    · exact Phase.started.inj (hr.symm.trans hf)
    · rw [hf] at hr
      cases hr
  constructor
  · intro hp
    refine hi.setPhase _ nofun (fun r hr hh => ?_) fun _ => .inl ⟨_, rfl⟩
    rw [heq r hh, hp] at hr
    cases hr
  · refine hi.setPhase _ nofun (fun r _ hh => .inr (.inr (by rw [heq r hh]))) fun hd => ?_
    rcases hi.signalled f hd with ⟨rc, hrc⟩ | ⟨r, hr, hh⟩
    · rw [hf] at hrc
      cases hrc
    · exact .inr ⟨r, hr, .inr (by rw [heq r hh])⟩

/-- A call that its completion wakes has a freed request, so it may return. -/
theorem alive_wake (hi : s.Alive) {req : DmaReq} (hf : s.phase f = .waiting req)
    (hd : s.done f = true) (rc : Except Errno (BitVec 32)) :
    (s.setPhase f (.returned rc)).Alive := by
  have heq : ∀ r, s.Holds f r → r = req := by
    rintro r (hr | hr)
    · rw [hf] at hr
      cases hr
    · exact Phase.waiting.inj (hr.symm.trans hf)
  refine hi.setPhase _ nofun (fun r _ hh => .inl ?_) fun _ => .inl ⟨rc, rfl⟩
  rcases hi.signalled f hd with ⟨rc', hrc⟩ | ⟨r', hr', hh'⟩
  · rw [hf] at hrc
    cases hrc
  · rw [heq r hh, ← heq r' hh']
    exact hr'

theorem alive_step (hi : s.Alive) {a : XferLabel} (hok : NoTimeout s a)
    (h : s.step a = some t) : t.Alive := by
  cases a with
  | enter f call sys =>
    cases hf : s.phase f with
    | outside =>
      simp only [step, hf] at h
      exact Option.some.inj h ▸ alive_enter hi hf call sys
    | _ => simp only [step, hf, reduceCtorEq] at h
  | start f =>
    cases hf : s.phase f with
    | prepared req =>
      simp only [step, hf] at h
      obtain ⟨u, hu, rfl⟩ := Option.map_eq_some_iff.mp h
      exact alive_start hi hf hu
    | _ => simp only [step, hf, reduceCtorEq] at h
  | sched a => exact alive_schedStep hi h
  | finish f =>
    cases hf : s.phase f with
    | started req =>
      simp only [step, hf] at h
      split_ifs at h with hkick hp
      · exact Option.some.inj h ▸ (alive_finish hi hf).1 hp
      · exact Option.some.inj h ▸ (alive_finish hi hf).2
    | _ => simp only [step, hf, reduceCtorEq] at h
  | wake f copied =>
    cases hf : s.phase f with
    | waiting req =>
      simp only [step, hf] at h
      split_ifs at h with hd hup
      · exact Option.some.inj h ▸ alive_wake hi hf hd _
      · exact Option.some.inj h ▸ alive_wake hi hf hd _
    | _ => simp only [step, hf, reduceCtorEq] at h
  | expire f => cases hok

end Transfers

/-- In every run in which no wait expires, `dma_done` signals only the completion of a call that
has not returned. -/
theorem signalled_call_not_returned {s : Transfers} (h : transfers.ReachableUnder NoTimeout s)
    (f : ℕ) (hf : s.Signalling f) : ¬ s.Returned f := by
  have hi : s.Alive := by
    refine Machine.ReachableUnder.invariant (I := Transfers.Alive) ?_
      (fun _ _ _ hi hok hs => Transfers.alive_step hi hok hs) h
    rintro _ ⟨ctl, hctl, rfl⟩
    exact ⟨State.reachable_inv (.start hctl), nofun, nofun, nofun⟩
  obtain ⟨c, req, hc, hp⟩ := hf
  obtain ⟨hsub, hnot⟩ := hi.sched.completing hc
  rintro ⟨rc, hrc⟩
  rcases (hi.held req hsub f hp).resolve_left hnot with hr | hr
  · rw [hrc] at hr
    cases hr
  · rw [hrc] at hr
    cases hr

private def downReq : DmaReq := ⟨0, 0x80000000, 0x2000, 8, .down, 1, 0xc0de, some 0⟩

/-- A transfer on a one-channel controller, up to the wait for its completion. -/
private def downStart : List XferLabel :=
  [.enter 0 ⟨0xc0de, true, .down, ⟨0x1000, 0x2000, 8⟩⟩ ⟨true, true, true, 0x80000000⟩, .start 0,
    .sched (.kickOff 0 downReq none), .finish 0]

private theorem start_oneChannel :
    transfers.start (.initial (DmaCtl.bifrostDmaInit 1 0 7)) :=
  ⟨_, start_bifrostDmaInit 1 0 7, rfl⟩

/-- The wait of a started transfer expires and the ioctl returns; then the device finishes, and
`dma_done` signals the completion in the frame that is gone. -/
theorem signals_returned_call :
    ¬ ∀ s, transfers.Reachable s → ∀ f, s.Signalling f → ¬ s.Returned f := by
  have hrun : (transfers.exec (.initial (DmaCtl.bifrostDmaInit 1 0 7))
      (downStart ++ [.expire 0, .sched (.interrupt 7)])).map (fun s =>
        decide (.completing 0 downReq ∈ s.sched.calls ∧
          s.phase 0 = .returned (.error .ETIMEDOUT))) = some true := by decide
  obtain ⟨s, hs, hp⟩ := Machine.exists_reachable_of_exec start_oneChannel hrun
  obtain ⟨hc, hr⟩ := of_decide_eq_true hp
  exact fun h => h s hs 0 ⟨0, downReq, hc, rfl⟩ ⟨_, hr⟩

/-- Without the expiry the same transfer is signalled while its ioctl waits. -/
theorem signalled_call_not_returned_down :
    ∃ s : Transfers, s.Signalling 0 ∧ ¬ s.Returned 0 := by
  have hrun : (transfers.execUnder NoTimeout (.initial (DmaCtl.bifrostDmaInit 1 0 7))
      (downStart ++ [.sched (.interrupt 7)])).map (fun s =>
        decide (.completing 0 downReq ∈ s.sched.calls)) = some true := by decide
  obtain ⟨s, hs, hp⟩ := Machine.exists_reachableUnder_of_exec start_oneChannel hrun
  have hsig : s.Signalling 0 := ⟨0, downReq, of_decide_eq_true hp, rfl⟩
  exact ⟨s, hsig, signalled_call_not_returned hs 0 hsig⟩

end BifrostModule.Dma
