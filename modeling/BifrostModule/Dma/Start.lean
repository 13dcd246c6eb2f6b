import BifrostModule.Dma.UserTransfer
import BifrostModule.Dma.SavedBuffer

/-! # What a start of a transfer leaves behind

`do_dma_start_xfer` takes a request, the shared buffer and a streaming mapping, one
after the other. The log lists what it takes and gives back.
-/
namespace BifrostModule.Dma
open Foundation

/-- A streaming mapping as `pci_map_single` makes it and `pci_unmap_single` names it. -/
structure Mapping where
  busAddr : BitVec 32
  size : BitVec 32
  dir : Direction
  deriving DecidableEq

inductive Effect where
  | allocReq (id : ℕ)
  | freeReq (id : ℕ)
  | startXfer (req : DmaReq)
  | mapSingle (m : Mapping)
  | unmapSingle (m : Mapping)
  deriving DecidableEq

/-- Outcomes of the kernel services of a whole call: `kzalloc`, `dma_alloc_coherent`, the copy from
the user, the bus address of `pci_map_single` (0 for none), whether the completion is done before
the wait times out, and the copy to the user. -/
structure CallServices where
  allocated : Bool
  grown : Bool
  copiedIn : Bool
  busAddr : BitVec 32
  inTime : Bool
  copiedOut : Bool

structure DmaUsrReq where
  usrBuff : BitVec 32
  devBuff : Option ℕ
  size : BitVec 32
  busAddr : BitVec 32
  upDown : Option Direction
  cookie : BitVec 64

/-- What a call works on. The field `allocs` numbers the buffers of `dma_alloc_coherent`. -/
structure StartState where
  saved : SavedDmaBuf
  allocs : ℕ
  counter : BitVec 32
  ctl : DmaCtl DmaReq
  log : List Effect

/-- The growth of `saved_dma_buf`; `false` if there is no memory. -/
def SavedDmaBuf.grow (saved : SavedDmaBuf) (size : BitVec 32) (grown : Bool) (fresh : ℕ) :
    SavedDmaBuf × Bool :=
  if size.toNat > saved.size.toNat then
    if grown then (⟨size, some fresh⟩, true) else (⟨0, none⟩, false)
  else (saved, true)

namespace StartState

def enter (saved : SavedDmaBuf) (allocs : ℕ) (counter : BitVec 32) (ctl : DmaCtl DmaReq) :
    StartState := ⟨saved, allocs, counter, ctl, []⟩

def record (s : StartState) (e : Effect) : StartState := { s with log := s.log ++ [e] }

/-- `pci_map_single`, which makes no mapping if it returns 0. -/
def mapSingle (s : StartState) (sys : CallServices) (size : BitVec 32) (dir : Direction) :
    StartState :=
  if sys.busAddr = 0 then s else s.record (.mapSingle ⟨sys.busAddr, size, dir⟩)

/-- `prepare_dma_buffer`; `none` is a direction that is neither of the two. -/
def prepareDmaBuffer (s : StartState) (sys : CallServices) (xfer : Transfer) (req : DmaReq)
    (upDown : Option Direction) : StartState × Except Errno (Transfer × DmaReq × DmaUsrReq) :=
  if xfer.size = 0 then (s, .error .EFAULT)
  else
    let p := s.saved.grow xfer.size sys.grown s.allocs
    let s := { s with saved := p.1, allocs := s.allocs + 1 }
    if p.2 = false then (s, .error .ENOMEM)
    else
      let req := { req with pwork := some req.id }
      let usrReq : DmaUsrReq := ⟨xfer.system, p.1.virt, xfer.size, sys.busAddr, upDown, req.cookie⟩
      match upDown with
      | none => (s, .error .ENOMEM)
      | some dir =>
        if dir = .down ∧ sys.copiedIn = false then (s, .error .ENOMEM)
        else
          let s := s.mapSingle sys xfer.size dir
          if sys.busAddr = 0 then (s, .error .ENOMEM)
          else (s, .ok ({ xfer with system := sys.busAddr }, req, usrReq))

def finishDmaBuffer (s : StartState) (sys : CallServices) (usrReq : DmaUsrReq) :
    StartState × Except Errno Unit :=
  if sys.inTime = false then (s, .error .ETIMEDOUT)
  else
    match usrReq.upDown with
    | none => (s, .ok ())
    | some dir =>
      let s := s.record (.unmapSingle ⟨usrReq.busAddr, usrReq.size, dir⟩)
      if dir = .up ∧ sys.copiedOut = false then (s, .error .ETIMEDOUT) else (s, .ok ())

def submit (s : StartState) (xfer : Transfer) (req : DmaReq) (upDown : Option Direction) :
    StartState × Except Errno Unit :=
  match upDown with
  | none => (s.record (.freeReq req.id), .error .EINVAL)
  | some dir =>
    let req := req.setDirection xfer dir
    ({ s with ctl := (s.ctl.startDmaXfer req).1 }.record (.startXfer req), .ok ())

/-- `do_dma_start_xfer`; `user` is `BIFROST_DMA_USER_BUFFER`. -/
def doDmaStartXfer (s : StartState) (sys : CallServices) (id : ℕ) (cookie : BitVec 64)
    (user : Bool) (xfer : Transfer) (upDown : Option Direction) :
    StartState × Except Errno (BitVec 32) :=
  if sys.allocated = false then (s, .error .ENOMEM)
  else
    let req := allocDmaReq id s.counter cookie
    let s := { s with counter := (getTicket s.counter).2 }.record (.allocReq id)
    if user then
      let prepared := s.prepareDmaBuffer sys xfer req upDown
      match prepared.2 with
      | .error _ => (prepared.1, .error .ENOMEM)
      | .ok (xfer, req, usrReq) =>
        let submitted := prepared.1.submit xfer req upDown
        match submitted.2 with
        | .error err => (submitted.1, .error err)
        | .ok _ =>
          let finished := submitted.1.finishDmaBuffer sys usrReq
          (finished.1, if finished.2.isOk then .ok req.ticket else .error .ETIMEDOUT)
    else
      let submitted := s.submit xfer req upDown
      (submitted.1, submitted.2.map fun _ => req.ticket)

/-- Every request that was allocated is freed or handed to `start_dma_xfer`, the controller is as it
was unless one was handed over, and every mapping is unmapped exactly once. -/
structure Clean (s : StartState) (ctl : DmaCtl DmaReq) : Prop where
  requests : ∀ id, .allocReq id ∈ s.log →
    .freeReq id ∈ s.log ∨ ∃ req : DmaReq, .startXfer req ∈ s.log ∧ req.id = id
  controller : (∀ req, .startXfer req ∉ s.log) → s.ctl = ctl
  mappings : ∀ m, .mapSingle m ∈ s.log → s.log.count (.unmapSingle m) = 1

end StartState

structure CallServices.Prepares (sys : CallServices) (saved : SavedDmaBuf) (size : BitVec 32)
    (upDown : Option Direction) : Prop where
  sized : size ≠ 0
  grown : saved.size.toNat < size.toNat → sys.grown
  known : upDown.isSome
  copied : upDown = some .down → sys.copiedIn
  mapped : sys.busAddr ≠ 0

@[simp] theorem allocDmaReq_id (id : ℕ) (counter : BitVec 32) (cookie : BitVec 64) :
    (allocDmaReq id counter cookie).id = id := rfl

namespace StartState
variable (s : StartState) (sys : CallServices)

theorem prepareDmaBuffer_ok {xfer : Transfer} {dir : Direction}
    (h : sys.Prepares s.saved xfer.size (some dir)) (req : DmaReq) :
    ∃ t usrReq, s.prepareDmaBuffer sys xfer req (some dir) =
        (t, .ok ({ xfer with system := sys.busAddr }, { req with pwork := some req.id }, usrReq)) ∧
      t.ctl = s.ctl ∧ t.log = s.log ++ [.mapSingle ⟨sys.busAddr, xfer.size, dir⟩] ∧
      usrReq.busAddr = sys.busAddr ∧ usrReq.size = xfer.size ∧ usrReq.upDown = some dir := by
  have hgrow : (s.saved.grow xfer.size sys.grown s.allocs).2 ≠ false := by
    unfold SavedDmaBuf.grow
    split_ifs with hlarge hmem
    · simp
    · exact absurd (h.grown hlarge) hmem
    · simp
  have hcopy : ¬ (dir = .down ∧ sys.copiedIn = false) := by
    rintro ⟨rfl, hno⟩
    rw [h.copied rfl] at hno
    cases hno
  rw [prepareDmaBuffer, if_neg h.sized]
  dsimp only
  rw [if_neg hgrow, if_neg hcopy, if_neg h.mapped]
  refine ⟨_, _, rfl, ?_, ?_, rfl, rfl, rfl⟩
  · rw [mapSingle, if_neg h.mapped]
    rfl
  · rw [mapSingle, if_neg h.mapped]
    rfl

theorem prepareDmaBuffer_error {xfer : Transfer} {upDown : Option Direction}
    (h : ¬ sys.Prepares s.saved xfer.size upDown) (req : DmaReq) :
    ∃ t err, s.prepareDmaBuffer sys xfer req upDown = (t, .error err) ∧
      t.ctl = s.ctl ∧ t.log = s.log := by
  by_cases hsize : xfer.size = 0
  · exact ⟨s, .EFAULT, by rw [prepareDmaBuffer, if_pos hsize], rfl, rfl⟩
  rw [prepareDmaBuffer, if_neg hsize]
  dsimp only
  by_cases hgrow : (s.saved.grow xfer.size sys.grown s.allocs).2 = false
  · rw [if_pos hgrow]
    exact ⟨_, _, rfl, rfl, rfl⟩
  rw [if_neg hgrow]
  cases upDown with
  | none => exact ⟨_, _, rfl, rfl, rfl⟩
  | some dir =>
    dsimp only
    by_cases hcopy : dir = .down ∧ sys.copiedIn = false
    · rw [if_pos hcopy]
      exact ⟨_, _, rfl, rfl, rfl⟩
    rw [if_neg hcopy]
    by_cases hmap : sys.busAddr = 0
    · rw [if_pos hmap]
      exact ⟨_, _, rfl, by rw [mapSingle, if_pos hmap], by rw [mapSingle, if_pos hmap]⟩
    · -- Nothing has failed, so the buffer was prepared.
      refine absurd ⟨hsize, fun hlarge => ?_, rfl, fun hdown => ?_, hmap⟩ h
      · by_contra hmem
        exact hgrow (by rw [SavedDmaBuf.grow, if_pos hlarge, if_neg hmem])
      · by_contra hno
        exact hcopy ⟨Option.some.inj hdown, Bool.eq_false_iff.mpr hno⟩

/-- A wait that times out unmaps nothing; any other `finish_dma_buffer` unmaps its mapping, also
when the copy to the user fails. -/
theorem finishDmaBuffer_spec {usrReq : DmaUsrReq} {dir : Direction}
    (h : usrReq.upDown = some dir) :
    (s.finishDmaBuffer sys usrReq).1.ctl = s.ctl ∧
      (s.finishDmaBuffer sys usrReq).1.log = s.log ++
        if sys.inTime then [.unmapSingle ⟨usrReq.busAddr, usrReq.size, dir⟩] else [] := by
  unfold finishDmaBuffer
  rw [h]
  cases sys.inTime with
  | false => simp
  | true =>
    simp only [Bool.true_eq_false, if_false, if_true]
    split_ifs <;> exact ⟨rfl, rfl⟩

variable (id : ℕ) (cookie : BitVec 64) (xfer : Transfer)

/-- Without a user buffer, a direction that is neither of the two frees the request. -/
theorem log_of_plain_other (h : sys.allocated = true) :
    (s.doDmaStartXfer sys id cookie false xfer none).1.log =
        s.log ++ [.allocReq id] ++ [.freeReq id] ∧
      (s.doDmaStartXfer sys id cookie false xfer none).1.ctl = s.ctl := by
  rw [doDmaStartXfer, if_neg (by simp [h])]
  exact ⟨rfl, rfl⟩

theorem log_of_plain (h : sys.allocated = true) (dir : Direction) :
    (s.doDmaStartXfer sys id cookie false xfer (some dir)).1.log = s.log ++ [.allocReq id] ++
      [.startXfer ((allocDmaReq id s.counter cookie).setDirection xfer dir)] := by
  rw [doDmaStartXfer, if_neg (by simp [h])]
  rfl

/-- A failure of `prepare_dma_buffer` returns with the request still allocated. -/
theorem log_of_not_prepares (h : sys.allocated = true) {upDown : Option Direction}
    (hprep : ¬ sys.Prepares s.saved xfer.size upDown) :
    (s.doDmaStartXfer sys id cookie true xfer upDown).1.log = s.log ++ [.allocReq id] := by
  obtain ⟨t, err, hp, -, hlog⟩ := prepareDmaBuffer_error
    ({ s with counter := (getTicket s.counter).2 }.record (.allocReq id)) sys hprep
    (allocDmaReq id s.counter cookie)
  rw [doDmaStartXfer, if_neg (by simp [h])]
  dsimp only
  rw [if_pos rfl, hp]
  exact hlog

/-- A transfer from a user buffer that starts leaves its mapping when its wait times out. -/
theorem log_of_prepares (h : sys.allocated = true) {dir : Direction}
    (hprep : sys.Prepares s.saved xfer.size (some dir)) :
    (s.doDmaStartXfer sys id cookie true xfer (some dir)).1.log = s.log ++ [.allocReq id] ++
      [.mapSingle ⟨sys.busAddr, xfer.size, dir⟩] ++
      [.startXfer (({ allocDmaReq id s.counter cookie with pwork := some id } :
        DmaReq).setDirection { xfer with system := sys.busAddr } dir)] ++
      if sys.inTime then [.unmapSingle ⟨sys.busAddr, xfer.size, dir⟩] else [] := by
  obtain ⟨t, usrReq, hp, -, hlog, hbus, hsize, hdir⟩ := prepareDmaBuffer_ok
    ({ s with counter := (getTicket s.counter).2 }.record (.allocReq id)) sys hprep
    (allocDmaReq id s.counter cookie)
  rw [doDmaStartXfer, if_neg (by simp [h])]
  dsimp only
  rw [if_pos rfl, hp]
  have hfin := (finishDmaBuffer_spec (t.submit { xfer with system := sys.busAddr }
    { allocDmaReq id s.counter cookie with pwork := some id } (some dir)).1 sys hdir).2
  rw [hbus, hsize] at hfin
  refine hfin.trans ?_
  rw [submit, record, hlog]
  rfl

end StartState

def CallServices.upToStart (sys : CallServices) (saved : SavedDmaBuf) (size : BitVec 32) :
    StartServices :=
  ⟨sys.allocated, decide (size.toNat ≤ saved.size.toNat) || sys.grown, sys.copiedIn, sys.busAddr⟩

section Start
variable {saved : SavedDmaBuf} {allocs : ℕ} {counter : BitVec 32} {ctl : DmaCtl DmaReq}
  {sys : CallServices} {id : ℕ} {cookie : BitVec 64} {user : Bool} {xfer : Transfer}

theorem prepareDmaBuffer_of_prepares {dir : Direction}
    (h : sys.Prepares saved xfer.size (some dir)) (req : DmaReq) :
    prepareDmaBuffer ⟨cookie, user, dir, xfer⟩ (sys.upToStart saved xfer.size) req =
      some ({ req with pwork := some req.id }, { xfer with system := sys.busAddr }) := by
  have hready : (sys.upToStart saved xfer.size).bufferReady := by
    by_cases hlarge : saved.size.toNat < xfer.size.toNat
    · simp [CallServices.upToStart, h.grown hlarge]
    · simp [CallServices.upToStart, not_lt.mp hlarge]
  have hcopy : ¬ (dir = .down ∧ ¬ (sys.upToStart saved xfer.size).copied) := by
    rintro ⟨rfl, hno⟩
    exact hno (h.copied rfl)
  rw [prepareDmaBuffer, if_neg h.sized, if_neg (not_not.mpr hready), if_neg hcopy]
  exact if_neg h.mapped

theorem prepareDmaBuffer_of_not_prepares {dir : Direction}
    (h : ¬ sys.Prepares saved xfer.size (some dir)) (req : DmaReq) :
    prepareDmaBuffer ⟨cookie, user, dir, xfer⟩ (sys.upToStart saved xfer.size) req = none := by
  unfold prepareDmaBuffer
  split_ifs with hsize hready hcopy hmap
  · rfl
  · rfl
  · rfl
  · refine absurd ⟨hsize, fun hlarge => ?_, rfl, fun hdown => ?_, hmap⟩ h
    · simpa [CallServices.upToStart, not_le.mpr hlarge] using hready
    · by_contra hno
      exact hcopy ⟨Option.some.inj hdown, hno⟩
  · rfl

/-- The request that is handed over is the one that `prepareXfer` makes. -/
theorem startXfer_mem_iff {dir : Direction} {req : DmaReq} :
    .startXfer req ∈ ((StartState.enter saved allocs counter ctl).doDmaStartXfer sys id cookie user
        xfer (some dir)).1.log ↔
      prepareXfer id counter ⟨cookie, user, dir, xfer⟩ (sys.upToStart saved xfer.size) =
        .ok req := by
  have hempty : (StartState.enter saved allocs counter ctl).log = [] := rfl
  have hcounter : (StartState.enter saved allocs counter ctl).counter = counter := rfl
  by_cases halloc : sys.allocated
  · have halloc' : (sys.upToStart saved xfer.size).allocated := halloc
    rw [prepareXfer, if_neg (not_not.mpr halloc')]
    cases user with
    | false =>
      rw [StartState.log_of_plain _ sys id cookie xfer halloc dir, hempty, hcounter]
      simp [eq_comm]
    | true =>
      dsimp only
      rw [if_pos rfl]
      by_cases hprep : sys.Prepares saved xfer.size (some dir)
      · rw [StartState.log_of_prepares _ sys id cookie xfer halloc hprep, hempty, hcounter,
          prepareDmaBuffer_of_prepares hprep]
        cases sys.inTime <;> simp [eq_comm, allocDmaReq]
      · rw [StartState.log_of_not_prepares _ sys id cookie xfer halloc hprep, hempty,
          prepareDmaBuffer_of_not_prepares hprep]
        simp
  · have halloc' : ¬ (sys.upToStart saved xfer.size).allocated := halloc
    rw [StartState.doDmaStartXfer, if_pos (Bool.eq_false_iff.mpr halloc), prepareXfer,
      if_pos halloc']
    simp [hempty]

/-- A start is clean if and only if it has no request, no user buffer, or a buffer that is prepared
and a completion that is done in time. -/
theorem start_clean_iff {upDown : Option Direction} :
    ((StartState.enter saved allocs counter ctl).doDmaStartXfer sys id cookie user xfer
        upDown).1.Clean ctl ↔
      (sys.allocated → user → sys.Prepares saved xfer.size upDown ∧ sys.inTime) := by
  have hempty : (StartState.enter saved allocs counter ctl).log = [] := rfl
  by_cases halloc : sys.allocated
  · cases user with
    | false =>
      refine ⟨fun _ _ huser => (nomatch huser), fun _ => ?_⟩
      cases upDown with
      | none =>
        obtain ⟨hlog, hctl⟩ := StartState.log_of_plain_other
          (.enter saved allocs counter ctl) sys id cookie xfer halloc
        exact ⟨by simp [hlog, hempty], fun _ => hctl, by simp [hlog, hempty]⟩
      | some dir =>
        have hlog := StartState.log_of_plain
          (.enter saved allocs counter ctl) sys id cookie xfer halloc dir
        refine ⟨by simp [hlog, hempty], fun hno => ?_, by simp [hlog, hempty]⟩
        rw [hlog] at hno
        exact absurd (List.mem_append_right _ (List.mem_singleton_self _)) (hno _)
    | true =>
      by_cases hprep : sys.Prepares saved xfer.size upDown
      · obtain ⟨dir, rfl⟩ := Option.isSome_iff_exists.mp hprep.known
        have hlog := StartState.log_of_prepares
          (.enter saved allocs counter ctl) sys id cookie xfer halloc hprep
        cases htime : sys.inTime with
        | false =>
          -- The mapping is made and never unmapped.
          rw [htime] at hlog
          refine ⟨fun hclean => ?_, fun h => nomatch (h halloc rfl).2⟩
          have hcount := hclean.mappings ⟨sys.busAddr, xfer.size, dir⟩ (by simp [hlog])
          simp [hlog, hempty] at hcount
        | true =>
          rw [htime] at hlog
          refine ⟨fun _ _ _ => ⟨hprep, rfl⟩, fun _ => ?_⟩
          refine ⟨by simp [hlog, hempty], fun hno => ?_, by simp [hlog, hempty]⟩
          rw [hlog] at hno
          exact absurd (List.mem_append_left _ (List.mem_append_right _
            (List.mem_singleton_self _))) (hno _)
      · -- The request is neither freed nor handed over.
        have hlog := StartState.log_of_not_prepares
          (.enter saved allocs counter ctl) sys id cookie xfer halloc hprep
        refine ⟨fun hclean => ?_, fun h => absurd (h halloc rfl).1 hprep⟩
        have hreq := hclean.requests id (by simp [hlog])
        simp [hlog, hempty] at hreq
  · refine ⟨fun _ h => absurd h halloc, fun _ => ?_⟩
    rw [StartState.doDmaStartXfer, if_pos (Bool.eq_false_iff.mpr halloc)]
    exact ⟨by simp [hempty], fun _ => rfl, by simp [hempty]⟩

end Start

/-- A START_DMA_DOWN_USER of no bytes keeps its request for ever. -/
theorem start_leaks : ¬ ∀ (saved : SavedDmaBuf) (allocs : ℕ) (counter : BitVec 32)
    (ctl : DmaCtl DmaReq) (sys : CallServices) (id : ℕ) (cookie : BitVec 64) (user : Bool)
    (xfer : Transfer) (dir : Direction), ((StartState.enter saved allocs counter
      ctl).doDmaStartXfer sys id cookie user xfer (some dir)).1.Clean ctl := by
  intro h
  have hclean := h ⟨0, none⟩ 0 0 (DmaCtl.bifrostDmaInit 1 0 7)
    ⟨true, true, true, 0x80000000, true, true⟩ 0 0xc0de true ⟨0x1000, 0x2000, 0⟩ .down
  rcases hclean.requests 0 (by decide) with hfreed | ⟨req, hreq, -⟩
  · revert hfreed
    decide
  · exact absurd (List.mem_singleton.mp hreq) (by simp)

end BifrostModule.Dma
