import BifrostModule.Dma.Scheduler

/-! # Conservation and order of DMA requests

Three balance equations say where each request is, whether it was launched, and
whether it was freed. The idle bitmap and the calls in flight are tied to the
channels. Each step of a call preserves the whole.
-/
namespace BifrostModule.Dma
open Foundation Foundation.InFlight

variable {ρ : Type*}

namespace State

def launchedReqs (s : State ρ) : List ρ := s.launched.map Prod.snd

/-- The scheduler's invariant. Idle channels, channels at work and channels owned by a
running `dma_done` are disjoint, and an idle channel means an empty queue. -/
structure Inv (s : State ρ) : Prop where
  nodup : s.submitted.Nodup
  placed : (s.submitted : Multiset ρ) = ↑s.ctl.list + s.ctl.working + ↑s.finished
  launching : (s.submitted : Multiset ρ) =
    ↑s.ctl.list + keys Call.launches s.calls + ↑s.launchedReqs
  freeing : (s.finished : Multiset ρ) = keys Call.frees s.calls + ↑s.freed
  order : s.ctl.list.Sublist s.submitted
  idle_empty : ∀ c, s.ctl.Idle c → s.ctl.list = []
  idle_off : ∀ c, s.ctl.Idle c → (s.ctl.ch c).inProgress = none
  holds_nodup : (keys Call.holds s.calls).Nodup
  holds_busy : ∀ c ∈ keys Call.holds s.calls, ¬ s.ctl.Idle c
  holds_off : ∀ c ∈ keys Call.holds s.calls, (s.ctl.ch c).inProgress = none
  kick_on : ∀ c r k, .kickOff c r k ∈ s.calls → s.OnChannel c r

theorem inv_initial {numCh : ℕ} {idleMap : BitVec 32} {irq : Chan → ℤ} :
    Inv (initial (.build numCh idleMap irq) : State ρ) := by
  obtain ⟨hl, -, -, hc⟩ := DmaCtl.enableChannels_frame irq
    ((List.finRange maxDmaChannels).filter fun c => c.val < numCh)
    (DmaCtl.allocDmaCtl (ρ := ρ) numCh idleMap)
  have hlist : (DmaCtl.build (ρ := ρ) numCh idleMap irq).list = [] := hl
  have hoff : ∀ c, ((DmaCtl.build (ρ := ρ) numCh idleMap irq).ch c).inProgress = none := hc
  have hwork : (DmaCtl.build (ρ := ρ) numCh idleMap irq).working = 0 := by
    simp [DmaCtl.working, occupied, hoff]
  constructor <;> simp [initial, launchedReqs, hlist, hoff, hwork]

variable {s : State ρ}

/-- No request is at once about to be launched and launched. -/
theorem Inv.kick_unlaunched (hi : s.Inv) {c : Chan} {r : ρ} {k : Option ρ}
    (h : .kickOff c r k ∈ s.calls) : r ∉ s.launchedReqs := by
  have hnd : (↑s.ctl.list + keys Call.launches s.calls + ↑s.launchedReqs : Multiset ρ).Nodup :=
    hi.launching ▸ Multiset.coe_nodup.mpr hi.nodup
  have hdisj := (Multiset.nodup_add.mp hnd).2.2
  intro hr
  exact Multiset.disjoint_left.mp hdisj
    (Multiset.mem_add.mpr (.inr (mem_keys_of h rfl))) (Multiset.mem_coe.mpr hr)

theorem Inv.at_unique (hi : s.Inv) {r : ρ} {p q : Place} (hp : s.At r p)
    (hq : s.At r q) : p = q := by
  have hnd : (↑s.ctl.list + s.ctl.working + ↑s.finished : Multiset ρ).Nodup :=
    hi.placed ▸ Multiset.coe_nodup.mpr hi.nodup
  obtain ⟨hlw, -, hfin⟩ := Multiset.nodup_add.mp hnd
  obtain ⟨-, hwork, hdisj⟩ := Multiset.nodup_add.mp hlw
  have hpw : r ∈ s.ctl.list → ∀ c, ¬ s.OnChannel c r := fun hl c hc =>
    Multiset.disjoint_left.mp hdisj (Multiset.mem_coe.mpr hl) (DmaCtl.mem_working.mpr ⟨c, hc⟩)
  have hpf : r ∈ s.ctl.list → r ∉ s.finished := fun hl hf =>
    Multiset.disjoint_left.mp hfin (Multiset.mem_add.mpr (.inl (Multiset.mem_coe.mpr hl)))
      (Multiset.mem_coe.mpr hf)
  have hwf : ∀ c, s.OnChannel c r → r ∉ s.finished := fun c hc hf =>
    Multiset.disjoint_left.mp hfin
      (Multiset.mem_add.mpr (.inr (DmaCtl.mem_working.mpr ⟨c, hc⟩))) (Multiset.mem_coe.mpr hf)
  cases p with
  | pending =>
    cases q with
    | pending => rfl
    | inProgress c => exact absurd hq (hpw hp c)
    | finished => exact absurd hq (hpf hp)
  | inProgress c =>
    cases q with
    | pending => exact absurd hp (hpw hq c)
    | inProgress d => exact congrArg Place.inProgress (slot_unique hwork hp hq)
    | finished => exact absurd hq (hwf c hp)
  | finished =>
    cases q with
    | pending => exact absurd hp (hpf hq)
    | inProgress d => exact absurd hp (hwf d hq)
    | finished => rfl

theorem Inv.submitted_iff (hi : s.Inv) {r : ρ} :
    r ∈ s.submitted ↔ ∃ p, s.At r p := by
  rw [← Multiset.mem_coe, hi.placed, Multiset.mem_add, Multiset.mem_add, DmaCtl.mem_working]
  constructor
  · rintro ((h | ⟨c, h⟩) | h)
    · exact ⟨.pending, h⟩
    · exact ⟨.inProgress c, h⟩
    · exact ⟨.finished, h⟩
  · rintro ⟨p, h⟩
    cases p with
    | pending => exact .inl (.inl h)
    | inProgress c => exact .inl (.inr ⟨c, h⟩)
    | finished => exact .inr h

theorem Inv.parts_nodup (hi : s.Inv) :
    s.ctl.list.Nodup ∧ s.finished.Nodup ∧ s.launchedReqs.Nodup := by
  have hp := hi.placed ▸ Multiset.coe_nodup.mpr hi.nodup
  have hl := hi.launching ▸ Multiset.coe_nodup.mpr hi.nodup
  obtain ⟨hlw, hfin, -⟩ := Multiset.nodup_add.mp hp
  exact ⟨Multiset.coe_nodup.mp (Multiset.nodup_add.mp hlw).1, Multiset.coe_nodup.mp hfin,
    Multiset.coe_nodup.mp (Multiset.nodup_add.mp hl).2.1⟩

theorem inv_submit (hi : s.Inv) {req : ρ} (h : req ∉ s.submitted) : (s.submit req).Inv := by
  have hnodup : (s.submitted ++ [req]).Nodup := by
    refine List.nodup_append.mpr ⟨hi.nodup, List.nodup_singleton req, ?_⟩
    rintro a ha b hb rfl
    exact h (List.mem_singleton.mp hb ▸ ha)
  have hsub : ((s.submitted ++ [req] : List ρ) : Multiset ρ) = ↑s.submitted + {req} := rfl
  rcases s.ctl.startDmaXfer_cases req with ⟨c, ctl, heq, hidle, hl, hputs, hd⟩ | ⟨hbusy, heq⟩
  · -- The request claims channel `c`, which the invariant says nobody owns.
    have ht : s.submit req = { s with
        ctl := ctl, submitted := s.submitted ++ [req],
        calls := .kickOff c req none :: s.calls } := by simp [submit, heq]
    rw [ht]
    have hnotheld : c ∉ keys Call.holds s.calls := fun hc => hi.holds_busy c hc hidle
    have hne : ∀ d ∈ keys Call.holds s.calls, d ≠ c := fun d hdk hdc => hnotheld (hdc ▸ hdk)
    constructor
    case nodup => exact hnodup
    case placed =>
      change ((s.submitted ++ [req] : List ρ) : Multiset ρ) = ↑ctl.list + ctl.working + ↑s.finished
      rw [hsub, hi.placed, hputs.working_put (hi.idle_off c hidle), hl]
      abel
    case launching =>
      change ((s.submitted ++ [req] : List ρ) : Multiset ρ) =
        ↑ctl.list + ({req} + keys Call.launches s.calls) + ↑s.launchedReqs
      rw [hsub, hi.launching, hl]
      abel
    case freeing => simpa using hi.freeing
    case order => exact hl ▸ hi.order.trans (List.sublist_append_left _ _)
    case idle_empty => exact fun d hdi => hl.trans (hi.idle_empty d ((hd d).mp hdi).1)
    case idle_off =>
      intro d hdi
      obtain ⟨hdi, hdc⟩ := (hd d).mp hdi
      rw [hputs d, if_neg hdc, hi.idle_off d hdi]
    case holds_nodup => simpa using hi.holds_nodup
    case holds_busy =>
      intro d hdk hdi
      exact hi.holds_busy d (by simpa using hdk) ((hd d).mp hdi).1
    case holds_off =>
      intro d hdk
      have hdk : d ∈ keys Call.holds s.calls := by simpa using hdk
      rw [hputs d, if_neg (hne d hdk), hi.holds_off d hdk]
    case kick_on =>
      intro d r k hmem
      rcases List.mem_cons.mp hmem with heq | hmem
      · cases heq
        rw [OnChannel, hputs c, if_pos rfl]
      · have hon := hi.kick_on d r k hmem
        have hdc : d ≠ c := by
          rintro rfl
          rw [OnChannel, hi.idle_off d hidle] at hon
          cases hon
        rw [OnChannel, hputs d, if_neg hdc]
        exact hon
  · have ht : s.submit req = { s with
        ctl := { s.ctl with list := s.ctl.list ++ [req] },
        submitted := s.submitted ++ [req] } := by simp [submit, heq]
    rw [ht]
    have hlist : ((s.ctl.list ++ [req] : List ρ) : Multiset ρ) = ↑s.ctl.list + {req} := rfl
    refine ⟨hnodup, ?_, ?_, hi.freeing, hi.order.append (List.Sublist.refl _), ?_, hi.idle_off,
      hi.holds_nodup, hi.holds_busy, hi.holds_off, hi.kick_on⟩
    · change ((s.submitted ++ [req] : List ρ) : Multiset ρ) =
        ((s.ctl.list ++ [req] : List ρ) : Multiset ρ) + s.ctl.working + ↑s.finished
      rw [hsub, hlist, hi.placed]
      abel
    · change ((s.submitted ++ [req] : List ρ) : Multiset ρ) =
        ((s.ctl.list ++ [req] : List ρ) : Multiset ρ) + keys Call.launches s.calls +
          ↑s.launchedReqs
      rw [hsub, hlist, hi.launching]
      abel
    · exact fun d hdi => absurd hdi (hbusy d)

theorem inv_take (hi : s.Inv) {c : Chan} {req : ρ} {irq : ℤ} {ctl : DmaCtl ρ}
    (h : s.ctl.takeInProgress irq = some (c, req, ctl)) (hl : (c, req) ∈ s.launched) :
    (s.take c req ctl).Inv := by
  obtain ⟨hon, hlist, hputs, hidle⟩ := DmaCtl.takeInProgress_cases h
  have hbusy : ¬ s.ctl.Idle c := fun hc => by
    rw [hi.idle_off c hc] at hon
    cases hon
  have hnotheld : c ∉ keys Call.holds s.calls := fun hc => by
    rw [hi.holds_off c hc] at hon
    cases hon
  have hfin : ((s.finished ++ [req] : List ρ) : Multiset ρ) = ↑s.finished + {req} := rfl
  constructor
  case nodup => exact hi.nodup
  case placed =>
    change (s.submitted : Multiset ρ) =
      ↑ctl.list + ctl.working + ((s.finished ++ [req] : List ρ) : Multiset ρ)
    rw [hfin, hi.placed, hputs.working_take hon, hlist]
    abel
  case launching => simpa [take, launchedReqs, hlist] using hi.launching
  case freeing =>
    change ((s.finished ++ [req] : List ρ) : Multiset ρ) =
      {req} + keys Call.frees s.calls + ↑s.freed
    rw [hfin, hi.freeing]
    abel
  case order => exact hlist ▸ hi.order
  case idle_empty => exact fun d hd => hlist.trans (hi.idle_empty d ((hidle d).mp hd))
  case idle_off =>
    intro d hd
    rw [take, hputs d]
    split
    · rfl
    · exact hi.idle_off d ((hidle d).mp hd)
  case holds_nodup => simpa [take] using ⟨hnotheld, hi.holds_nodup⟩
  case holds_busy =>
    intro d hdk hd
    replace hd : s.ctl.Idle d := (hidle d).mp hd
    rcases (by simpa [take] using hdk : d = c ∨ d ∈ keys Call.holds s.calls) with rfl | hdk
    · exact hbusy hd
    · exact hi.holds_busy d hdk hd
  case holds_off =>
    intro d hdk
    rw [take, hputs d]
    split
    · rfl
    · rename_i hdc
      exact hi.holds_off d ((by simpa [take, hdc] using hdk : d ∈ keys Call.holds s.calls))
  case kick_on =>
    intro d r k hmem
    replace hmem : .kickOff d r k ∈ s.calls := by simpa [take] using hmem
    have hond := hi.kick_on d r k hmem
    have hdc : d ≠ c := by
      -- A request that was launched is not about to be launched again.
      rintro rfl
      rw [OnChannel, hon] at hond
      cases hond
      exact hi.kick_unlaunched hmem (List.mem_map_of_mem (f := Prod.snd) hl)
    rw [OnChannel, take, hputs d, if_neg hdc]
    exact hond

variable [DecidableEq ρ]

theorem inv_kickOff (hi : s.Inv) {c : Chan} {req : ρ} {k : Option ρ}
    (h : .kickOff c req k ∈ s.calls) : (s.kickOff c req k).Inv := by
  have hholds : keys Call.holds (s.kickOff c req k).calls = keys Call.holds s.calls :=
    (keys_replace_gain h rfl _).trans (by rw [Call.keys_returned fun _ => rfl, zero_add])
  have hfrees : keys Call.frees (s.kickOff c req k).calls = keys Call.frees s.calls :=
    (keys_replace_gain h rfl _).trans (by rw [Call.keys_returned fun _ => rfl, zero_add])
  have hlaunches : keys Call.launches s.calls =
      {req} + keys Call.launches (s.kickOff c req k).calls :=
    keys_replace_gone h rfl (Call.keys_returned (fun _ => rfl) k)
  have hlaunched : ((s.kickOff c req k).launchedReqs : Multiset ρ) =
      ↑s.launchedReqs + {req} := by
    have hmap : (s.kickOff c req k).launchedReqs = s.launchedReqs ++ [req] := by
      simp [State.kickOff, launchedReqs]
    rw [hmap]
    rfl
  constructor
  case nodup => exact hi.nodup
  case placed => exact hi.placed
  case launching =>
    change (s.submitted : Multiset ρ) = ↑s.ctl.list + _ + _
    rw [hlaunched, hi.launching, hlaunches]
    abel
  case freeing => exact hfrees ▸ hi.freeing
  case order => exact hi.order
  case idle_empty => exact hi.idle_empty
  case idle_off => exact hi.idle_off
  case holds_nodup => exact hholds ▸ hi.holds_nodup
  case holds_busy => exact hholds ▸ hi.holds_busy
  case holds_off => exact hholds ▸ hi.holds_off
  case kick_on =>
    intro d r k' hmem
    rcases mem_replace hmem with hnew | hmem
    · obtain ⟨x, -, hx⟩ := List.mem_map.mp hnew
      cases hx
    · exact hi.kick_on d r k' hmem

theorem inv_complete (hi : s.Inv) {c : Chan} {req : ρ} (h : .completing c req ∈ s.calls) :
    (s.complete c req).Inv := by
  have hholds : keys Call.holds (s.complete c req).calls = keys Call.holds s.calls :=
    keys_replace_pass h rfl
  have hlaunches : keys Call.launches (s.complete c req).calls = keys Call.launches s.calls :=
    keys_replace_pass h rfl
  have hfrees : keys Call.frees s.calls =
      {req} + keys Call.frees (s.complete c req).calls :=
    keys_replace_gone h rfl rfl
  have hfreed : ((s.complete c req).freed : Multiset ρ) = ↑s.freed + {req} := rfl
  constructor
  case nodup => exact hi.nodup
  case placed => exact hi.placed
  case launching => exact hlaunches ▸ hi.launching
  case freeing =>
    rw [hfreed]
    change (s.finished : Multiset ρ) = _
    rw [hi.freeing, hfrees]
    abel
  case order => exact hi.order
  case idle_empty => exact hi.idle_empty
  case idle_off => exact hi.idle_off
  case holds_nodup => exact hholds ▸ hi.holds_nodup
  case holds_busy => exact hholds ▸ hi.holds_busy
  case holds_off => exact hholds ▸ hi.holds_off
  case kick_on =>
    intro d r k hmem
    rcases mem_replace hmem with hnew | hmem
    · cases List.mem_singleton.mp hnew
    · exact hi.kick_on d r k hmem

theorem inv_ret (hi : s.Inv) {req : ρ} (h : .returned req ∈ s.calls) : (s.ret req).Inv := by
  have hholds : keys Call.holds (s.ret req).calls = keys Call.holds s.calls :=
    (keys_replace_gain h rfl _).trans (zero_add _)
  have hlaunches : keys Call.launches (s.ret req).calls = keys Call.launches s.calls :=
    (keys_replace_gain h rfl _).trans (zero_add _)
  have hfrees : keys Call.frees (s.ret req).calls = keys Call.frees s.calls :=
    (keys_replace_gain h rfl _).trans (zero_add _)
  refine ⟨hi.nodup, hi.placed, hlaunches ▸ hi.launching, hfrees ▸ hi.freeing, hi.order,
    hi.idle_empty, hi.idle_off, hholds ▸ hi.holds_nodup, hholds ▸ hi.holds_busy,
    hholds ▸ hi.holds_off, ?_⟩
  intro c r k hmem
  exact hi.kick_on c r k ((mem_replace hmem).resolve_left List.not_mem_nil)

theorem inv_handOff (hi : s.Inv) {c : Chan} {r₀ : ρ} (h : .handingOff c r₀ ∈ s.calls) :
    (s.handOff c r₀).Inv := by
  have hc : c ∈ keys Call.holds s.calls := mem_keys_of h rfl
  have hoff := hi.holds_off c hc
  rcases s.ctl.handOff_cases c with ⟨req, ctl, heq, hl, hputs, hidle⟩ | ⟨hl, heq⟩
  · -- The oldest pending request takes the channel over.
    have ht : s.handOff c r₀ = { s with
        ctl := ctl
        calls := replace s.calls (.handingOff c r₀) [.kickOff c req (some r₀)] } := by
      simp [State.handOff, heq]
    rw [ht]
    have hholds : keys Call.holds s.calls = {c} + keys Call.holds
        (replace s.calls (.handingOff c r₀) [.kickOff c req (some r₀)]) :=
      keys_replace_gone h rfl rfl
    have hnd := hi.holds_nodup
    rw [hholds, Multiset.singleton_add, Multiset.nodup_cons] at hnd
    have hother : ∀ d ∈ keys Call.holds
        (replace s.calls (.handingOff c r₀) [.kickOff c req (some r₀)]),
        d ≠ c ∧ d ∈ keys Call.holds s.calls := fun d hd =>
      ⟨fun hdc => hnd.1 (hdc ▸ hd), hholds ▸ Multiset.mem_add.mpr (.inr hd)⟩
    have hlist : (s.ctl.list : Multiset ρ) = {req} + ↑ctl.list := by rw [hl]; rfl
    constructor
    case nodup => exact hi.nodup
    case placed =>
      change (s.submitted : Multiset ρ) = ↑ctl.list + ctl.working + ↑s.finished
      rw [hi.placed, hputs.working_put hoff, hlist]
      abel
    case launching =>
      have hlaunches : keys Call.launches
          (replace s.calls (.handingOff c r₀) [.kickOff c req (some r₀)]) =
          {req} + keys Call.launches s.calls := keys_replace_gain h rfl _
      change (s.submitted : Multiset ρ) = ↑ctl.list + _ + ↑s.launchedReqs
      rw [hi.launching, hlaunches, hlist]
      abel
    case freeing =>
      rw [keys_replace_gain h rfl]
      simpa using hi.freeing
    case order =>
      exact (hl ▸ List.sublist_cons_self req ctl.list : ctl.list.Sublist s.ctl.list).trans hi.order
    case idle_empty =>
      intro d hd
      have hnil := hi.idle_empty d ((hidle d).mp hd)
      rw [hl] at hnil
      cases hnil
    case idle_off =>
      intro d hd
      have hnil := hi.idle_empty d ((hidle d).mp hd)
      rw [hl] at hnil
      cases hnil
    case holds_nodup => exact hnd.2
    case holds_busy =>
      exact fun d hd hdi => hi.holds_busy d (hother d hd).2 ((hidle d).mp hdi)
    case holds_off =>
      intro d hd
      rw [hputs d, if_neg (hother d hd).1]
      exact hi.holds_off d (hother d hd).2
    case kick_on =>
      intro d r k hmem
      rcases mem_replace hmem with hnew | hmem
      · cases List.mem_singleton.mp hnew
        rw [OnChannel, hputs c, if_pos rfl]
      · have hon := hi.kick_on d r k hmem
        have hdc : d ≠ c := by
          rintro rfl
          rw [OnChannel, hoff] at hon
          cases hon
        rw [OnChannel, hputs d, if_neg hdc]
        exact hon
  · -- Nothing is pending, so the channel becomes idle.
    have ht : s.handOff c r₀ = { s with
        ctl := s.ctl.freeChan c
        calls := replace s.calls (.handingOff c r₀) [.returned r₀] } := by
      simp [State.handOff, heq]
    rw [ht]
    have hholds : keys Call.holds s.calls = {c} + keys Call.holds
        (replace s.calls (.handingOff c r₀) [.returned r₀]) :=
      keys_replace_gone h rfl rfl
    have hnd := hi.holds_nodup
    rw [hholds, Multiset.singleton_add, Multiset.nodup_cons] at hnd
    have hold : ∀ d ∈ keys Call.holds (replace s.calls (.handingOff c r₀) [.returned r₀]),
        d ≠ c ∧ d ∈ keys Call.holds s.calls := fun d hd =>
      ⟨fun hdc => hnd.1 (hdc ▸ hd), hholds ▸ Multiset.mem_add.mpr (.inr hd)⟩
    constructor
    case nodup => exact hi.nodup
    case placed => exact hi.placed
    case launching =>
      rw [keys_replace_gain h rfl]
      simpa [launchedReqs] using hi.launching
    case freeing =>
      rw [keys_replace_gain h rfl]
      simpa using hi.freeing
    case order => exact hi.order
    case idle_empty => exact fun _ _ => hl
    case idle_off =>
      intro d hd
      rcases (DmaCtl.freeChan_idle _ _ _).mp hd with hd | rfl
      · exact hi.idle_off d hd
      · exact hoff
    case holds_nodup => exact hnd.2
    case holds_busy =>
      intro d hd hdi
      rcases (DmaCtl.freeChan_idle _ _ _).mp hdi with hdi | hdc
      · exact hi.holds_busy d (hold d hd).2 hdi
      · exact (hold d hd).1 hdc
    case holds_off => exact fun d hd => hi.holds_off d (hold d hd).2
    case kick_on =>
      intro d r k hmem
      rcases mem_replace hmem with hnew | hmem
      · cases List.mem_singleton.mp hnew
      · exact hi.kick_on d r k hmem

theorem inv_step (hi : s.Inv) {a : Label ρ} {t : State ρ} (h : s.step a = some t) : t.Inv := by
  cases a with
  | submit req =>
    simp only [step] at h
    split at h
    · cases h
    · rename_i hfresh
      exact Option.some.inj h ▸ inv_submit hi hfresh
  | interrupt irq =>
    simp only [step] at h
    split at h
    · exact Option.some.inj h ▸ hi
    · rename_i c req ctl htake
      split at h
      · rename_i hl
        exact Option.some.inj h ▸ inv_take hi htake hl
      · cases h
  | kickOff c req k =>
    obtain ⟨hmem, ⟨⟩⟩ := Option.ite_none_right_eq_some.mp h
    exact inv_kickOff hi hmem
  | complete c req =>
    obtain ⟨hmem, ⟨⟩⟩ := Option.ite_none_right_eq_some.mp h
    exact inv_complete hi hmem
  | handOff c r =>
    obtain ⟨hmem, ⟨⟩⟩ := Option.ite_none_right_eq_some.mp h
    exact inv_handOff hi hmem
  | ret r =>
    obtain ⟨hmem, ⟨⟩⟩ := Option.ite_none_right_eq_some.mp h
    exact inv_ret hi hmem

theorem reachable_inv {s : State ρ} (h : (scheduler ρ).Reachable s) : s.Inv := by
  refine Machine.Reachable.invariant (I := Inv) ?_ (fun _ _ _ hi hs => inv_step hi hs) h
  rintro s ⟨numCh, idleMap, irq, -, rfl⟩
  exact inv_initial

end State

/-- In every reachable state a submitted request is in exactly one place, nothing is there
twice or launched twice, the queue keeps the order of submission, and an idle channel means
an empty queue and nothing in progress on it. -/
theorem requests_conserved [DecidableEq ρ] {s : State ρ} (h : (scheduler ρ).Reachable s) :
    (∀ r ∈ s.submitted, ∃! p, s.At r p) ∧ (∀ r p, s.At r p → r ∈ s.submitted) ∧
      s.ctl.list.Nodup ∧ s.finished.Nodup ∧ s.launchedReqs.Nodup ∧
      s.ctl.list.Sublist s.submitted ∧
      ∀ c, s.ctl.Idle c → s.ctl.list = [] ∧ ∀ r, ¬ s.OnChannel c r := by
  have hi := State.reachable_inv h
  obtain ⟨hlist, hfin, hlaunched⟩ := hi.parts_nodup
  refine ⟨fun r hr => ?_, fun r p hp => hi.submitted_iff.mpr ⟨p, hp⟩, hlist, hfin, hlaunched,
    hi.order, fun c hc => ⟨hi.idle_empty c hc, fun r hr => ?_⟩⟩
  · obtain ⟨p, hp⟩ := hi.submitted_iff.mp hr
    exact ⟨p, hp, fun q hq => hi.at_unique hq hp⟩
  · rw [State.OnChannel, hi.idle_off c hc] at hr
    cases hr

/-- One channel serves two requests and an unknown interrupt is ignored. -/
theorem requests_conserved_two : ∃ s : State ℕ, (s.submitted = [0, 1] ∧ s.finished = [0] ∧
      s.launched.length = 2) ∧ ∀ r ∈ s.submitted, ∃! p, s.At r p := by
  let run : List (Label ℕ) := [.submit 0, .submit 1, .interrupt 9, .kickOff 0 0 none,
    .interrupt 7, .complete 0 0, .handOff 0 0, .kickOff 0 1 (some 0), .ret 0]
  have hrun : ((scheduler ℕ).exec (.initial (DmaCtl.bifrostDmaInit 1#32 0#32 7)) run).map
      (fun s => decide (s.submitted = [0, 1] ∧ s.finished = [0] ∧ s.launched.length = 2)) =
      some true := by decide
  obtain ⟨s, hs, hp⟩ := Machine.exists_reachable_of_exec (start_bifrostDmaInit _ _ _) hrun
  exact ⟨s, of_decide_eq_true hp, (requests_conserved hs).1⟩

end BifrostModule.Dma
