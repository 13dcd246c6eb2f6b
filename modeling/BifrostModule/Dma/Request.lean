import BifrostModule.Dma.Scheduler
import BifrostModule.Foundation.Errno

/-! # DMA requests and how `do_dma_start_xfer` makes them

A request gets its ticket and cookie when it is allocated, the completion of the
calling ioctl when its buffer is prepared, and its addresses last.
-/
namespace BifrostModule.Dma
open Foundation Foundation.InFlight

/-- `BIFROST_DMA_DIRECTION_UP` reads from the device, `BIFROST_DMA_DIRECTION_DOWN` writes to it. -/
inductive Direction where
  | up
  | down
  deriving DecidableEq

structure Transfer where
  system : BitVec 32
  device : BitVec 32
  size : BitVec 32
  deriving DecidableEq

/-- `struct dma_req`. The field `id` tells allocations apart; `pwork` is the call in whose
stack frame the completion lies. -/
structure DmaReq where
  id : ℕ
  src : BitVec 32
  dst : BitVec 32
  len : BitVec 32
  dir : Direction
  ticket : BitVec 32
  cookie : BitVec 64
  pwork : Option ℕ
  deriving DecidableEq

/-- `get_ticket`: the ticket and the counter after it. -/
def getTicket (counter : BitVec 32) : BitVec 32 × BitVec 32 :=
  ((counter + 1) &&& 0x7fffffff, counter + 1)

def allocDmaReq (id : ℕ) (counter : BitVec 32) (cookie : BitVec 64) : DmaReq where
  id := id
  src := 0
  dst := 0
  len := 0
  dir := .down
  ticket := (getTicket counter).1
  cookie := cookie
  pwork := none

/-- The switch of `do_dma_start_xfer` on the direction. -/
def DmaReq.setDirection (req : DmaReq) (xfer : Transfer) : Direction → DmaReq
  | .down => { req with src := xfer.system, dst := xfer.device, len := xfer.size, dir := .down }
  | .up => { req with src := xfer.device, dst := xfer.system, len := xfer.size, dir := .up }

@[simp] theorem DmaReq.setDirection_pwork (req : DmaReq) (xfer : Transfer) (dir : Direction) :
    (req.setDirection xfer dir).pwork = req.pwork := by
  cases dir <;> rfl

@[simp] theorem DmaReq.setDirection_id (req : DmaReq) (xfer : Transfer) (dir : Direction) :
    (req.setDirection xfer dir).id = req.id := by
  cases dir <;> rfl

@[simp] theorem DmaReq.setDirection_ticket (req : DmaReq) (xfer : Transfer) (dir : Direction) :
    (req.setDirection xfer dir).ticket = req.ticket := by
  cases dir <;> rfl

@[simp] theorem DmaReq.setDirection_cookie (req : DmaReq) (xfer : Transfer) (dir : Direction) :
    (req.setDirection xfer dir).cookie = req.cookie := by
  cases dir <;> rfl

/-- The request a `start_dma_xfer` is still kicking off itself. -/
def Call.kicking {ρ : Type*} : Call ρ → Option ρ
  | .kickOff _ req none => some req
  | .kickOff _ _ (some _) => none
  | .completing _ _ => none
  | .handingOff _ _ => none
  | .returned _ => none

def Call.mentions {ρ : Type*} : Call ρ → List ρ
  | .kickOff _ req ret => req :: ret.toList
  | .completing _ req => [req]
  | .handingOff _ ret => [ret]
  | .returned ret => [ret]

section Frame
variable {ρ : Type*} [DecidableEq ρ]

def Label.submits : Label ρ → List ρ
  | .submit req => [req]
  | .interrupt _ => []
  | .kickOff _ _ _ => []
  | .complete _ _ => []
  | .handOff _ _ => []
  | .ret _ => []

def Label.frees : Label ρ → List ρ
  | .complete _ req => [req]
  | .submit _ => []
  | .interrupt _ => []
  | .kickOff _ _ _ => []
  | .handOff _ _ => []
  | .ret _ => []

/-- The two histories grow by what the label says. -/
theorem State.step_frame {s t : State ρ} {a : Label ρ} (h : s.step a = some t) :
    t.submitted = s.submitted ++ a.submits ∧ t.freed = s.freed ++ a.frees := by
  cases a with
  | submit req =>
    simp only [step] at h
    split at h
    · cases h
    · cases h
      exact ⟨rfl, (List.append_nil _).symm⟩
  | interrupt irq =>
    simp only [step] at h
    split at h
    · cases h
      exact ⟨(List.append_nil _).symm, (List.append_nil _).symm⟩
    · split at h
      · cases h
        exact ⟨(List.append_nil _).symm, (List.append_nil _).symm⟩
      · cases h
  | kickOff c req k =>
    obtain ⟨-, ⟨⟩⟩ := Option.ite_none_right_eq_some.mp h
    exact ⟨(List.append_nil _).symm, (List.append_nil _).symm⟩
  | complete c req =>
    obtain ⟨-, ⟨⟩⟩ := Option.ite_none_right_eq_some.mp h
    exact ⟨(List.append_nil _).symm, rfl⟩
  | handOff c k =>
    obtain ⟨-, ⟨⟩⟩ := Option.ite_none_right_eq_some.mp h
    exact ⟨(List.append_nil _).symm, (List.append_nil _).symm⟩
  | ret k =>
    obtain ⟨-, ⟨⟩⟩ := Option.ite_none_right_eq_some.mp h
    exact ⟨(List.append_nil _).symm, (List.append_nil _).symm⟩

theorem State.completing_of_step {s t : State ρ} {c : Chan} {req : ρ}
    (h : s.step (.complete c req) = some t) : .completing c req ∈ s.calls :=
  (Option.ite_none_right_eq_some.mp h).1

end Frame

section Outstanding
variable {ρ : Type*} {s t : State ρ} {r : ρ}

/-- The requests whose `dma_done` has not returned: pending, in progress, or in the hands of a
call in flight. -/
def State.outstanding (s : State ρ) : List ρ :=
  s.ctl.list ++ (List.finRange maxDmaChannels).filterMap (fun c => (s.ctl.ch c).inProgress) ++
    s.calls.flatMap Call.mentions

theorem State.mem_outstanding : r ∈ s.outstanding ↔
    r ∈ s.ctl.list ∨ (∃ c, s.OnChannel c r) ∨ ∃ k ∈ s.calls, r ∈ k.mentions := by
  simp only [outstanding, OnChannel, List.mem_append, List.mem_filterMap, List.mem_finRange,
    true_and, List.mem_flatMap, or_assoc]

theorem onChannel_of_puts {ctl : DmaCtl ρ} {c d : Chan} {x : Option ρ}
    (h : s.ctl.Puts c x ctl) (hr : (ctl.ch d).inProgress = some r) :
    x = some r ∨ s.OnChannel d r := by
  rw [h d] at hr
  split at hr
  · exact .inl hr
  · exact .inr hr

theorem State.outstanding_submit {req : ρ} (hr : r ∈ (s.submit req).outstanding) :
    r ∈ s.outstanding ∨ r = req := by
  rw [mem_outstanding] at hr ⊢
  rcases s.ctl.startDmaXfer_cases req with ⟨c, ctl, heq, -, hlist, hputs, -⟩ | ⟨-, heq⟩
  · simp only [submit, OnChannel, heq, hlist] at hr
    rcases hr with hr | ⟨d, hd⟩ | ⟨j, hj, hr⟩
    · exact .inl (.inl hr)
    · rcases onChannel_of_puts hputs hd with heq | hd
      · exact .inr (Option.some.inj heq).symm
      · exact .inl (.inr (.inl ⟨d, hd⟩))
    · rcases List.mem_append.mp hj with hj | hj
      · obtain rfl : j = .kickOff c req none := by simpa using hj
        exact .inr (by simpa [Call.mentions] using hr)
      · exact .inl (.inr (.inr ⟨j, hj, hr⟩))
  · simp only [submit, OnChannel, heq] at hr
    rcases hr with hr | hr | hr
    · rcases List.mem_append.mp hr with hr | hr
      · exact .inl (.inl hr)
      · exact .inr (List.mem_singleton.mp hr)
    · exact .inl (.inr (.inl hr))
    · exact .inl (.inr (.inr hr))

theorem State.outstanding_take {irq : ℤ} {c : Chan} {req : ρ} {ctl : DmaCtl ρ}
    (h : s.ctl.takeInProgress irq = some (c, req, ctl))
    (hr : r ∈ (s.take c req ctl).outstanding) : r ∈ s.outstanding := by
  obtain ⟨hon, hlist, hputs, -⟩ := DmaCtl.takeInProgress_cases h
  rw [mem_outstanding] at hr ⊢
  simp only [take, OnChannel, hlist] at hr
  rcases hr with hr | ⟨d, hd⟩ | ⟨j, hj, hr⟩
  · exact .inl hr
  · rcases onChannel_of_puts hputs hd with heq | hd
    · cases heq
    · exact .inr (.inl ⟨d, hd⟩)
  · rcases List.mem_cons.mp hj with rfl | hj
    · obtain rfl := List.mem_singleton.mp hr
      exact .inr (.inl ⟨c, hon⟩)
    · exact .inr (.inr ⟨j, hj, hr⟩)

variable [DecidableEq ρ]

theorem State.outstanding_replace (hr : r ∈ t.outstanding) {k : Call ρ} {new : List (Call ρ)}
    (hk : k ∈ s.calls) (hnew : ∀ j ∈ new, ∀ r ∈ j.mentions, r ∈ k.mentions)
    (hctl : t.ctl = s.ctl) (hcalls : t.calls = replace s.calls k new) : r ∈ s.outstanding := by
  rw [mem_outstanding] at hr ⊢
  simp only [OnChannel, hctl, hcalls] at hr
  rcases hr with hr | hr | ⟨j, hj, hr⟩
  · exact .inl hr
  · exact .inr (.inl hr)
  · rcases mem_replace hj with hj | hj
    · exact .inr (.inr ⟨k, hk, hnew j hj r hr⟩)
    · exact .inr (.inr ⟨j, hj, hr⟩)

theorem State.outstanding_handOff {c : Chan} {k : ρ} (h : .handingOff c k ∈ s.calls)
    (hr : r ∈ (s.handOff c k).outstanding) : r ∈ s.outstanding := by
  have hk : ∃ j ∈ s.calls, k ∈ j.mentions := ⟨_, h, List.mem_singleton_self k⟩
  rw [mem_outstanding] at hr ⊢
  rcases s.ctl.handOff_cases c with ⟨req, ctl, heq, hlist, hputs, -⟩ | ⟨-, heq⟩
  · have hreq : req ∈ s.ctl.list := hlist ▸ List.mem_cons_self
    simp only [handOff, OnChannel, heq, Option.elim_some] at hr
    rcases hr with hr | ⟨d, hd⟩ | ⟨j, hj, hr⟩
    · exact .inl (hlist ▸ List.mem_cons_of_mem _ hr)
    · rcases onChannel_of_puts hputs hd with heq | hd
      · exact .inl (Option.some.inj heq ▸ hreq)
      · exact .inr (.inl ⟨d, hd⟩)
    · rcases mem_replace hj with hj | hj
      · obtain rfl := List.mem_singleton.mp hj
        rcases List.mem_cons.mp hr with rfl | hr
        · exact .inl hreq
        · obtain rfl : r = k := by simpa using hr
          exact .inr (.inr hk)
      · exact .inr (.inr ⟨j, hj, hr⟩)
  · simp only [handOff, OnChannel, heq, Option.elim_none] at hr
    rcases hr with hr | hr | ⟨j, hj, hr⟩
    · exact .inl hr
    · exact .inr (.inl hr)
    · rcases mem_replace hj with hj | hj
      · obtain rfl := List.mem_singleton.mp hj
        obtain rfl := List.mem_singleton.mp hr
        exact .inr (.inr hk)
      · exact .inr (.inr ⟨j, hj, hr⟩)

/-- Only a submission adds an outstanding request. -/
theorem State.outstanding_step {a : Label ρ} (h : s.step a = some t) (hr : r ∈ t.outstanding) :
    r ∈ s.outstanding ∨ r ∈ a.submits := by
  cases a with
  | submit req =>
    simp only [step] at h
    split at h
    · cases h
    · cases h
      exact (outstanding_submit hr).imp_right List.mem_singleton.mpr
  | interrupt irq =>
    simp only [step] at h
    split at h
    · cases h
      exact .inl hr
    · rename_i htake
      split at h
      · cases h
        exact .inl (outstanding_take htake hr)
      · cases h
  | kickOff c req k =>
    obtain ⟨hmem, ⟨⟩⟩ := Option.ite_none_right_eq_some.mp h
    refine .inl (outstanding_replace hr hmem ?_ rfl rfl)
    cases k <;> simp [Call.mentions]
  | complete c req =>
    obtain ⟨hmem, ⟨⟩⟩ := Option.ite_none_right_eq_some.mp h
    refine .inl (outstanding_replace hr hmem ?_ rfl rfl)
    simp [Call.mentions]
  | handOff c k =>
    obtain ⟨hmem, ⟨⟩⟩ := Option.ite_none_right_eq_some.mp h
    exact .inl (outstanding_handOff hmem hr)
  | ret k =>
    obtain ⟨hmem, ⟨⟩⟩ := Option.ite_none_right_eq_some.mp h
    refine .inl (outstanding_replace hr hmem ?_ rfl rfl)
    simp

/-- The request that `dma_done` returns the ticket and cookie of is outstanding. -/
theorem State.outstanding_ret (h : s.step (.ret r) = some t) : r ∈ s.outstanding := by
  obtain ⟨hmem, -⟩ := Option.ite_none_right_eq_some.mp h
  exact mem_outstanding.mpr (.inr (.inr ⟨_, hmem, List.mem_singleton_self r⟩))

end Outstanding
end BifrostModule.Dma
