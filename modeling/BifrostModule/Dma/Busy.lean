import BifrostModule.Dma.Conservation

/-! # Channels that are busy at initialisation

`bifrost_dma_init` leaves out of the idle bitmap what the STATUS register reports
busy, and no request is in progress there. The completion of such a channel finds
nothing to complete. A channel is in service when it is idle, at work or held by a
running `dma_done`; no step changes that.
-/
namespace BifrostModule.Dma
open Foundation Foundation.InFlight

variable {ρ : Type*}

namespace State
variable {s t : State ρ} {c d : Chan}

/-- The channel is idle, has a request in progress, or is in the middle of `dma_done`. -/
def InService (s : State ρ) (d : Chan) : Prop :=
  s.ctl.Idle d ∨ (s.ctl.ch d).inProgress.isSome ∨ d ∈ keys Call.holds s.calls

theorem inService_congr (hidle : t.ctl.Idle d ↔ s.ctl.Idle d)
    (hch : (t.ctl.ch d).inProgress = (s.ctl.ch d).inProgress)
    (hholds : d ∈ keys Call.holds t.calls ↔ d ∈ keys Call.holds s.calls) :
    t.InService d ↔ s.InService d := by
  rw [InService, InService, hidle, hch, hholds]

theorem inService_submit (s : State ρ) (req : ρ) (d : Chan) :
    (s.submit req).InService d ↔ s.InService d := by
  rcases s.ctl.startDmaXfer_cases req with ⟨c, ctl, heq, hidle, -, hputs, hd⟩ | ⟨-, heq⟩
  · have ht : s.submit req = { s with
        ctl := ctl, submitted := s.submitted ++ [req],
        calls := .kickOff c req none :: s.calls } := by simp [submit, heq]
    rw [ht]
    by_cases hdc : d = c
    · subst hdc
      refine iff_of_true (.inr (.inl ?_)) (.inl hidle)
      rw [hputs d, if_pos rfl]
      rfl
    · refine inService_congr ((hd d).trans (and_iff_left hdc)) ?_ (by simp)
      rw [hputs d, if_neg hdc]
  · exact inService_congr (by simp [submit, heq, DmaCtl.Idle]) (by simp [submit, heq])
      (by simp [submit, heq])

theorem inService_take {req : ρ} {irq : ℤ} {ctl : DmaCtl ρ}
    (h : s.ctl.takeInProgress irq = some (c, req, ctl)) (d : Chan) :
    (s.take c req ctl).InService d ↔ s.InService d := by
  obtain ⟨hon, -, hputs, hidle⟩ := DmaCtl.takeInProgress_cases h
  by_cases hdc : d = c
  · subst hdc
    exact iff_of_true (.inr (.inr (by simp [take]))) (.inr (.inl (by simp [hon])))
  · refine inService_congr (hidle d) ?_ (by simp [take, hdc])
    rw [take, hputs d, if_neg hdc]

variable [DecidableEq ρ]

/-- The channel that `dma_done` hands off works for another request or becomes idle. -/
theorem inService_handOff {r : ρ} (h : .handingOff c r ∈ s.calls) (d : Chan) :
    (s.handOff c r).InService d ↔ s.InService d := by
  have hc : c ∈ keys Call.holds s.calls := mem_keys_of h rfl
  have hother : ∀ new : List (Call ρ), keys Call.holds new = 0 → d ≠ c →
      (d ∈ keys Call.holds (replace s.calls (.handingOff c r) new) ↔
        d ∈ keys Call.holds s.calls) := by
    intro new hnew hdc
    rw [keys_replace_gone (f := Call.holds) h rfl hnew, Multiset.mem_add, Multiset.mem_singleton]
    exact (or_iff_right hdc).symm
  rcases s.ctl.handOff_cases c with ⟨req, ctl, heq, -, hputs, hidle⟩ | ⟨-, heq⟩
  · have ht : s.handOff c r = { s with
        ctl := ctl
        calls := replace s.calls (.handingOff c r) [.kickOff c req (some r)] } := by
      simp [State.handOff, heq]
    rw [ht]
    by_cases hdc : d = c
    · subst hdc
      refine iff_of_true (.inr (.inl ?_)) (.inr (.inr hc))
      rw [hputs d, if_pos rfl]
      rfl
    · refine inService_congr (hidle d) ?_ (hother _ rfl hdc)
      rw [hputs d, if_neg hdc]
  · have ht : s.handOff c r = { s with
        ctl := s.ctl.freeChan c
        calls := replace s.calls (.handingOff c r) [.returned r] } := by
      simp [State.handOff, heq]
    rw [ht]
    by_cases hdc : d = c
    · subst hdc
      exact iff_of_true (.inl ((DmaCtl.freeChan_idle _ _ _).mpr (.inr rfl))) (.inr (.inr hc))
    · exact inService_congr ((DmaCtl.freeChan_idle _ _ _).trans (or_iff_left hdc)) rfl
        (hother _ rfl hdc)

theorem inService_step {a : Label ρ} (h : s.step a = some t) (d : Chan) :
    t.InService d ↔ s.InService d := by
  cases a with
  | submit req =>
    obtain ⟨-, ⟨⟩⟩ := Option.ite_none_left_eq_some.mp h
    exact inService_submit s req d
  | interrupt irq =>
    simp only [step] at h
    split at h
    · rw [Option.some.inj h]
    · rename_i c req ctl htake
      obtain ⟨-, ⟨⟩⟩ := Option.ite_none_right_eq_some.mp h
      exact inService_take htake d
  | kickOff c req k =>
    obtain ⟨hmem, ⟨⟩⟩ := Option.ite_none_right_eq_some.mp h
    have hholds : keys Call.holds (s.kickOff c req k).calls = keys Call.holds s.calls :=
      (keys_replace_gain hmem rfl _).trans (by rw [Call.keys_returned fun _ => rfl, zero_add])
    exact inService_congr Iff.rfl rfl (by rw [hholds])
  | complete c req =>
    obtain ⟨hmem, ⟨⟩⟩ := Option.ite_none_right_eq_some.mp h
    have hholds : keys Call.holds (s.complete c req).calls = keys Call.holds s.calls :=
      keys_replace_pass hmem rfl
    exact inService_congr Iff.rfl rfl (by rw [hholds])
  | handOff c r =>
    obtain ⟨hmem, ⟨⟩⟩ := Option.ite_none_right_eq_some.mp h
    exact inService_handOff hmem d
  | ret r =>
    obtain ⟨hmem, ⟨⟩⟩ := Option.ite_none_right_eq_some.mp h
    have hholds : keys Call.holds (s.ret r).calls = keys Call.holds s.calls :=
      (keys_replace_gain hmem rfl _).trans (zero_add _)
    exact inService_congr Iff.rfl rfl (by rw [hholds])

theorem numCh_step {a : Label ρ} (h : s.step a = some t) : t.ctl.numCh = s.ctl.numCh := by
  cases a with
  | submit req =>
    obtain ⟨-, ⟨⟩⟩ := Option.ite_none_left_eq_some.mp h
    simp only [submit, DmaCtl.startDmaXfer, DmaCtl.find1stIdleChan]
    cases Foundation.Bitmap.firstSet s.ctl.idleBitmap <;> rfl
  | interrupt irq =>
    simp only [step] at h
    split at h
    · rw [Option.some.inj h]
    · rename_i c req ctl htake
      obtain ⟨-, ⟨⟩⟩ := Option.ite_none_right_eq_some.mp h
      obtain ⟨d, -, hd⟩ := Option.bind_eq_some_iff.mp htake
      obtain ⟨r, -, heq⟩ := Option.map_eq_some_iff.mp hd
      cases heq
      rfl
  | handOff c r =>
    obtain ⟨-, ⟨⟩⟩ := Option.ite_none_right_eq_some.mp h
    simp only [State.handOff, DmaCtl.handOff]
    cases s.ctl.list <;> rfl
  | _ =>
    obtain ⟨-, ⟨⟩⟩ := Option.ite_none_right_eq_some.mp h
    rfl

end State

/-- The scheduler with the channels that were busy at initialisation: those that have not raised
their completion interrupt yet, and those that have. -/
structure Tracked (ρ : Type*) where
  s : State ρ
  busy : List Chan
  raised : List Chan

/-- The channels that the STATUS register reports busy. -/
def busyChannels (capability status : BitVec 32) : List Chan :=
  (List.finRange maxDmaChannels).filter fun c =>
    decide (c.val < (capability &&& 0xf#32).toNat) && status.getLsbD c

namespace Tracked
variable [DecidableEq ρ]

/-- One step. An interrupt on a channel is genuine: a request is in progress there, or the channel
was busy at initialisation and has not raised its interrupt. -/
def step (t : Tracked ρ) : Label ρ → Option (Tracked ρ)
  | .interrupt irq =>
    match t.s.ctl.lookupChan irq with
    | none => some t
    | some c =>
      if (t.s.ctl.ch c).inProgress.isNone then
        if c ∈ t.busy then some { t with busy := t.busy.erase c, raised := c :: t.raised } else none
      else (t.s.step (.interrupt irq)).map fun s => { t with s := s }
  | a => (t.s.step a).map fun s => { t with s := s }

def initial (capability status : BitVec 32) (irq : ℤ) : Tracked ρ :=
  ⟨.initial (DmaCtl.bifrostDmaInit capability status irq), busyChannels capability status, []⟩

end Tracked

def trackedScheduler (ρ : Type*) [DecidableEq ρ] : Machine (Tracked ρ) (Label ρ) where
  start t := ∃ capability status irq, t = .initial capability status irq
  step := Tracked.step

namespace Tracked
variable {t u : Tracked ρ}

/-- No channel is lost outside the middle of `dma_done`, and all are idle when nothing is left. -/
structure ChannelsKept (t : Tracked ρ) : Prop where
  kept : ∀ c : Chan, c.val < t.s.ctl.numCh → c ∉ keys Call.holds t.s.calls →
    t.s.ctl.Idle c ∨ (t.s.ctl.ch c).inProgress.isSome ∨ c ∈ t.busy
  drained : t.s.ctl.list = [] → t.s.ctl.working = 0 → keys Call.holds t.s.calls = 0 →
    t.busy = [] → ∀ c : Chan, c.val < t.s.ctl.numCh → t.s.ctl.Idle c

/-- The channels out of service are those that were busy at initialisation. -/
structure Inv (t : Tracked ρ) : Prop where
  nodup : t.busy.Nodup
  apart : ∀ c ∈ t.raised, c ∉ t.busy
  inside : ∀ c ∈ t.raised ++ t.busy, c.val < t.s.ctl.numCh
  inService : ∀ c : Chan, c.val < t.s.ctl.numCh →
    (t.s.InService c ↔ c ∉ t.raised ++ t.busy)

theorem inv_initial (capability status : BitVec 32) (irq : ℤ) :
    Inv (initial capability status irq : Tracked ρ) := by
  have hcap : (capability &&& 0xf#32).toNat < 16 := by
    rw [BitVec.toNat_and]
    exact Nat.lt_succ_of_le Nat.and_le_right
  have hframe := DmaCtl.enableChannels_frame (fun n => irq + n)
    ((List.finRange maxDmaChannels).filter fun c => c.val < (capability &&& 0xf#32).toNat)
    (DmaCtl.allocDmaCtl (ρ := ρ) (capability &&& 0xf#32).toNat
      (~~~status &&& (1#32 <<< (capability &&& 0xf#32).toNat - 1#32)))
  obtain ⟨-, hidle, hnum, hch⟩ := hframe
  set ctl := DmaCtl.bifrostDmaInit (ρ := ρ) capability status irq
  have hmax : (capability &&& 0xf#32).toNat ≤ maxDmaChannels := hcap.le.trans (by decide)
  replace hnum : ctl.numCh = (capability &&& 0xf#32).toNat := hnum.trans (Nat.min_eq_left hmax)
  have hserved : ∀ c : Chan, c.val < ctl.numCh →
      ((State.initial ctl).InService c ↔ status.getLsbD c = false) := by
    intro c hc
    have hbit : ctl.Idle c ↔ status.getLsbD c = false := by
      have hmap : ctl.idleBitmap = _ := hidle
      have hlow : decide (c.val < (capability &&& 0xf#32).toNat) = true :=
        decide_eq_true (Nat.lt_of_lt_of_eq hc hnum)
      rw [DmaCtl.Idle, hmap, DmaCtl.allocDmaCtl, BitVec.getLsbD_and, BitVec.getLsbD_not,
        Foundation.Bitmap.getLsbD_lowMask (by omega), hlow]
      simp
    have hoff : (ctl.ch c).inProgress = none := hch c
    simp [State.InService, State.initial, hbit, hoff]
  have hbusy : ∀ c : Chan, c ∈ busyChannels capability status ↔
      c.val < ctl.numCh ∧ status.getLsbD c = true := by
    intro c
    simp [busyChannels, hnum]
  refine ⟨(List.nodup_finRange _).filter _, fun c hc => absurd hc List.not_mem_nil,
    fun c hc => ((hbusy c).mp hc).1, fun c hc => ?_⟩
  refine (hserved c hc).trans ?_
  change _ ↔ c ∉ busyChannels capability status
  rw [hbusy, Bool.eq_false_iff]
  exact (not_congr (and_iff_right hc)).symm

variable [DecidableEq ρ]

theorem Inv.same (hi : t.Inv) {s : State ρ} {a : Label ρ} (h : t.s.step a = some s) :
    Inv { t with s := s } where
  nodup := hi.nodup
  apart := hi.apart
  inside := fun c hc => (State.numCh_step h).symm ▸ hi.inside c hc
  inService := fun c hc =>
    (State.inService_step h c).trans (hi.inService c (State.numCh_step h ▸ hc))

theorem Inv.step (hi : t.Inv) {a : Label ρ} (h : t.step a = some u) : u.Inv := by
  cases a with
  | interrupt irq =>
    simp only [Tracked.step] at h
    split at h
    · exact Option.some.inj h ▸ hi
    · rename_i c hc
      split at h
      · obtain ⟨hbusy, ⟨⟩⟩ := Option.ite_none_right_eq_some.mp h
        have hmem : ∀ d, d ∈ (c :: t.raised) ++ t.busy.erase c ↔ d ∈ t.raised ++ t.busy := by
          intro d
          by_cases hd : d = c
          · simp [hd, hbusy]
          · simp [hd, List.mem_erase_of_ne hd]
        refine ⟨hi.nodup.erase c, fun d hd hd' => ?_, fun d hd => hi.inside d ((hmem d).mp hd),
          fun d hd => (hi.inService d hd).trans (not_congr (hmem d).symm)⟩
        obtain ⟨hne, hd'⟩ := hi.nodup.mem_erase_iff.mp hd'
        exact hi.apart d ((List.mem_cons.mp hd).resolve_left hne) hd'
      · obtain ⟨s, hs, rfl⟩ := Option.map_eq_some_iff.mp h
        exact hi.same hs
  | _ =>
    obtain ⟨s, hs, rfl⟩ := Option.map_eq_some_iff.mp h
    exact hi.same hs

theorem reachable_inv (h : (trackedScheduler ρ).Reachable t) : t.Inv := by
  refine Machine.Reachable.invariant (I := Inv) ?_ (fun _ _ _ hi hs => hi.step hs) h
  rintro _ ⟨capability, status, irq, rfl⟩
  exact inv_initial capability status irq

end Tracked

/-- In every reachable state, no channel is lost exactly if no channel that was busy at
initialisation has raised its completion interrupt. -/
theorem channels_kept_iff [DecidableEq ρ] {t : Tracked ρ}
    (h : (trackedScheduler ρ).Reachable t) : t.ChannelsKept ↔ t.raised = [] := by
  have hi := Tracked.reachable_inv h
  constructor
  · intro hk
    by_contra hne
    obtain ⟨c, hc⟩ := List.exists_mem_of_ne_nil _ hne
    have hmem : c ∈ t.raised ++ t.busy := List.mem_append_left _ hc
    have hlt := hi.inside c hmem
    have hout : ¬ t.s.InService c := fun hs => (hi.inService c hlt).mp hs hmem
    obtain ⟨hidle, hwork, hheld⟩ := by simpa [State.InService] using hout
    rcases hk.kept c hlt hheld with h | h | h
    · exact hidle h
    · simp [hwork] at h
    · exact hi.apart c hc h
  · intro hnil
    have hserved : ∀ c : Chan, c.val < t.s.ctl.numCh → c ∉ t.busy → t.s.InService c :=
      fun c hc hb => (hi.inService c hc).mpr (by simpa [hnil] using hb)
    refine ⟨fun c hc hheld => ?_, fun hlist hwork hheld hbusy c hc => ?_⟩
    · by_cases hb : c ∈ t.busy
      · exact .inr (.inr hb)
      · rcases hserved c hc hb with hidle | hwork | hheld'
        · exact .inl hidle
        · exact .inr (.inl hwork)
        · exact absurd hheld' hheld
    · rcases hserved c hc (by simp [hbusy]) with hidle | hon | hheld'
      · exact hidle
      · obtain ⟨r, hr⟩ := Option.isSome_iff_exists.mp hon
        have hmem := DmaCtl.mem_working.mpr ⟨c, hr⟩
        rw [hwork] at hmem
        exact absurd hmem (Multiset.notMem_zero r)
      · rw [hheld] at hheld'
        exact absurd hheld' (Multiset.notMem_zero c)

/-- Two channels, one of them busy at initialisation, serve a request each time. -/
theorem channels_kept_one : ∃ t : Tracked ℕ, t.busy = [1] ∧ t.s.finished = [0] ∧
    (t.ChannelsKept ↔ t.raised = []) := by
  have hrun : ((trackedScheduler ℕ).exec (.initial 2#32 2#32 7) [.submit 0, .kickOff 0 0 none,
      .interrupt 7, .complete 0 0, .handOff 0 0, .ret 0]).map
      (fun t => decide (t.busy = [1] ∧ t.s.finished = [0])) = some true := by decide
  obtain ⟨t, ht, hp⟩ := Machine.exists_reachable_of_exec (M := trackedScheduler ℕ)
    ⟨2#32, 2#32, 7, rfl⟩ hrun
  obtain ⟨hbusy, hfin⟩ := of_decide_eq_true hp
  exact ⟨t, hbusy, hfin, channels_kept_iff ht⟩

/-- The only channel is busy at initialisation and completes: it stays out of service. -/
theorem busy_channel_lost : ¬ ∀ t : Tracked ℕ, (trackedScheduler ℕ).Reachable t →
    t.ChannelsKept := by
  have hrun : ((trackedScheduler ℕ).exec (.initial 1#32 1#32 7) [.interrupt 7]).map
      (fun t => decide (0 < t.s.ctl.numCh ∧ ¬ t.s.ctl.Idle 0 ∧
        (t.s.ctl.ch 0).inProgress = none ∧ t.s.calls = [] ∧ t.busy = [])) = some true := by
    decide
  obtain ⟨t, ht, hp⟩ := Machine.exists_reachable_of_exec (M := trackedScheduler ℕ)
    ⟨1#32, 1#32, 7, rfl⟩ hrun
  obtain ⟨hnum, hidle, hoff, hcalls, hbusy⟩ := of_decide_eq_true hp
  intro h
  rcases (h t ht).kept 0 hnum (by simp [hcalls]) with h | h | h
  · exact hidle h
  · simp [hoff] at h
  · simp [hbusy] at h

end BifrostModule.Dma
