import BifrostModule.Dma.SavedBuffer

/-! # User-buffer transfers that are alone keep apart

While one ioctl works with the shared buffer and no other does, the buffer holds
what that ioctl expects of it: its user's bytes on the way down, the bytes of its
own transfer on the way up.
-/
namespace BifrostModule.Dma
open Foundation

namespace UserCall

/-- What holds of a call whatever becomes of the buffer: a transfer to the device has moved its
user's bytes, and a user who was told of a transfer from the device has got what it moved. -/
structure Settled (c : UserCall) : Prop where
  started : c.moved.isSome → c.started
  finished : c.finished = true → c.moved.isSome
  signalled : c.done = true → c.finished = true
  down : c.dir = .down → ∀ bytes, c.moved = some bytes → bytes = c.sent
  returned : ∀ ticket, c.stage = .returned (.ok ticket) →
    c.finished = true ∧ (c.dir = .up → c.received = c.moved)

/-- What an active call expects of the buffer with number `b`, by its stage. -/
def Expects (c : UserCall) (b : ℕ) (m : Buffer) : Prop :=
  match c.stage with
  | .copying => c.started = false ∧ c.moved = none
  | .mapping => c.started = false ∧ c.moved = none ∧ (c.dir = .down → m.read c.size = c.sent)
  | .starting =>
    c.started = false ∧ c.moved = none ∧ (c.dir = .down → m.read c.size = c.sent) ∧
      c.busAddr = some b
  | .waiting =>
    c.busAddr = some b ∧ (c.moved = none → c.dir = .down → m.read c.size = c.sent) ∧
      ∀ bytes, c.moved = some bytes → c.dir = .up → m.read c.size = bytes
  | .copyingOut => c.dir = .up ∧ c.finished = true ∧ c.moved = some (m.read c.size)
  | .returned _ =>
    c.moved = none → c.busAddr = some b ∧ (c.dir = .down → m.read c.size = c.sent)

theorem active_of_stage {c : UserCall} (h : ∀ rc, c.stage ≠ .returned rc) : c.Active := by
  unfold Active
  split
  · rename_i rc hrc
    exact absurd hrc (h rc)
  · trivial

theorem Live.active {c : UserCall} (h : c.Live) : c.Active :=
  active_of_stage fun rc hrc => by
    rw [Live, hrc] at h
    exact h

theorem settled_of_unmoved {c : UserCall} (hd : c.done = false) (hf : c.finished = false)
    (hm : c.moved = none) (h : ∀ ticket, c.stage ≠ .returned (.ok ticket)) : c.Settled := by
  refine ⟨fun h => ?_, fun h => ?_, fun h => ?_, fun _ bytes h => ?_,
    fun ticket hc => absurd hc (h ticket)⟩
  · rw [hm] at h
    cases h
  · rw [hf] at h
    cases h
  · rw [hd] at h
    cases h
  · rw [hm] at h
    cases h

/-- No `dma_done` has run for a call that has moved nothing. -/
theorem Settled.not_finished {c : UserCall} (h : c.Settled) (hm : c.moved = none) :
    c.finished = false := by
  by_contra hf
  have hs := h.finished (Bool.eq_true_of_not_eq_false hf)
  rw [hm] at hs
  cases hs

/-- A call that has moved nothing was not told that it did. -/
theorem Settled.not_done {c : UserCall} (h : c.Settled) (hm : c.moved = none) : c.done = false := by
  by_contra hd
  have hs := h.signalled (Bool.eq_true_of_not_eq_false hd)
  rw [h.not_finished hm] at hs
  cases hs

/-- A call whose `dma_done` is still to come is active. -/
theorem active_of_started {c : UserCall} (hs : c.started) (hf : c.finished = false) :
    c.Active := by
  unfold Active
  split
  · exact ⟨hs, hf⟩
  · trivial

/-- A `complete` at the address of a call that has returned does not reach it. -/
theorem complete_of_not_live {c : UserCall} {addr : ℕ} (h : c.Live → c.work ≠ addr) :
    c.complete addr = c :=
  if_neg fun hc => h hc.1 hc.2

end UserCall

namespace Buffers

structure Holds (s : Buffers) (c : UserCall) (b : ℕ) (m : Buffer) : Prop where
  saved : s.saved.virt = some b
  mem : s.mem b = some m
  fits : c.size ≤ m.size
  dev : c.devBuff = some b
  expects : c.Expects b m

/-- The saved buffer is allocated, at most one call is active, and it has what it expects. -/
structure Inv (s : Buffers) : Prop where
  saved : ∀ b, s.saved.virt = some b → ∃ m, s.mem b = some m ∧ m.size = s.saved.size
  unsaved : s.saved.virt = none → s.saved.size = 0
  alone : ∀ (f g : ℕ) (c d : UserCall), s.calls[f]? = some c → s.calls[g]? = some d →
    c.Active → d.Active → f = g
  holds : ∀ c ∈ s.calls, c.Active → ∃ b m, s.Holds c b m
  settled : ∀ c ∈ s.calls, c.Settled
  clean : s.stray = []

variable {s t : Buffers} {f b : ℕ} {c c' : UserCall} {m : Buffer}

theorem usable_of (hm : s.mem b = some m) {size : BitVec 32} (h : size ≤ m.size) :
    s.usable (some b) size = some (b, m) := by
  simp [usable, hm, h]

theorem put_of (hm : s.mem b = some m) {size : BitVec 32} (h : size ≤ m.size)
    (bytes : List Byte) : s.put f (some b) size bytes =
      { s with mem := Function.update s.mem b (some (m.write bytes)) } := by
  rw [put, usable_of hm h]

theorem get_of (hm : s.mem b = some m) {size : BitVec 32} (h : size ≤ m.size) :
    s.get f (some b) size = (s, m.read size) := by
  rw [get, usable_of hm h]

/-- One call takes a step. It is the active one, or it leaves the buffers to that. -/
theorem Inv.set (hi : s.Inv) (hf : s.calls[f]? = some c) (hact : c'.Active → c.Active)
    (hrest : c.Active ∨ t.mem = s.mem)
    (hcalls : t.calls = s.calls.set f c') (hsaved : t.saved = s.saved)
    (hmem : ∀ b, s.saved.virt = some b → ∃ m, t.mem b = some m ∧ m.size = s.saved.size)
    (hholds : c'.Active → ∃ b m, t.Holds c' b m) (hset : c'.Settled) (hstray : t.stray = []) :
    t.Inv := by
  have hlt : f < s.calls.length := (List.getElem?_eq_some_iff.mp hf).1
  have hcases : ∀ (g : ℕ) (d : UserCall), t.calls[g]? = some d →
      f = g ∧ d = c' ∨ f ≠ g ∧ s.calls[g]? = some d := by
    intro g d hg
    rw [hcalls, List.getElem?_set] at hg
    by_cases hgf : f = g
    · rw [if_pos hgf, if_pos hlt] at hg
      exact .inl ⟨hgf, (Option.some.inj hg).symm⟩
    · rw [if_neg hgf] at hg
      exact .inr ⟨hgf, hg⟩
  refine ⟨?_, ?_, ?_, ?_, ?_, hstray⟩
  · rw [hsaved]
    exact hmem
  · rw [hsaved]
    exact hi.unsaved
  · intro g g' d d' hg hg' hd hd'
    rcases hcases g d hg with ⟨rfl, rfl⟩ | ⟨hgf, hg⟩
    · rcases hcases g' d' hg' with ⟨rfl, -⟩ | ⟨-, hg'⟩
      · rfl
      · exact hi.alone f g' c d' hf hg' (hact hd) hd'
    · rcases hcases g' d' hg' with ⟨rfl, rfl⟩ | ⟨-, hg'⟩
      · exact hi.alone g f d c hg hf hd (hact hd')
      · exact hi.alone g g' d d' hg hg' hd hd'
  · intro d hd hda
    obtain ⟨g, hg⟩ := List.mem_iff_getElem?.mp hd
    rcases hcases g d hg with ⟨-, rfl⟩ | ⟨hgf, hg⟩
    · exact hholds hda
    · rcases hrest with hc | hmem
      · exact absurd (hi.alone f g c d hf hg hc hda) hgf
      · obtain ⟨b, m, hb⟩ := hi.holds d (List.mem_of_getElem? hg) hda
        exact ⟨b, m, by rw [hsaved]; exact hb.saved, by rw [hmem]; exact hb.mem, hb.fits, hb.dev,
          hb.expects⟩
  · intro d hd
    rw [hcalls] at hd
    rcases List.mem_or_eq_of_mem_set hd with hd | rfl
    · exact hi.settled d hd
    · exact hset

theorem Inv.setCall (hi : s.Inv) (hf : s.calls[f]? = some c) (hact : c'.Active → c.Active)
    (hholds : ∀ b m, s.Holds c b m → c'.Active → (s.setCall f c').Holds c' b m)
    (hset : c'.Settled) : (s.setCall f c').Inv := by
  refine hi.set hf hact (.inr rfl) rfl rfl hi.saved (fun h => ?_) hset hi.clean
  obtain ⟨b, m, hb⟩ := hi.holds c (List.mem_of_getElem? hf) (hact h)
  exact ⟨b, m, hholds b m hb h⟩

theorem Inv.setPut (hi : s.Inv) (hf : s.calls[f]? = some c) (hact : c.Active)
    (hb : s.Holds c b m) (bytes : List Byte)
    (hsize : c'.size = c.size) (hdev : c'.devBuff = c.devBuff)
    (hexp : c'.Active → c'.Expects b (m.write bytes)) (hset : c'.Settled) :
    Inv (({ s with mem := Function.update s.mem b (some (m.write bytes)) } : Buffers).setCall
      f c') := by
  refine hi.set hf (fun _ => hact) (.inl hact) rfl rfl ?_ (fun h => ⟨b, m.write bytes, ?_⟩) hset
    hi.clean
  · intro b' hb'
    obtain rfl : b = b' := Option.some.inj (hb.saved.symm.trans hb')
    obtain ⟨m', hm', hsz⟩ := hi.saved b hb'
    obtain rfl : m = m' := Option.some.inj (hb.mem.symm.trans hm')
    exact ⟨m.write bytes, Function.update_self _ _ _, hsz⟩
  · exact ⟨hb.saved, Function.update_self _ _ _, hsize ▸ hb.fits, hdev.trans hb.dev, hexp h⟩

theorem inv_initial (device : DeviceRam) : (initial device).Inv := by
  constructor <;> simp [initial]

theorem grow_cases (s : Buffers) (size : BitVec 32) (allocated : Bool) :
    (∃ m t, s.grow size allocated = (t, true) ∧ m.size = size ∧ t.saved = ⟨size, some s.allocs⟩ ∧
      t.mem s.allocs = some m ∧ t.calls = s.calls ∧ t.stray = s.stray) ∨
    (∃ t, s.grow size allocated = (t, false) ∧ t.saved = ⟨0, none⟩ ∧ t.calls = s.calls ∧
      t.stray = s.stray) ∨
    (size.toNat ≤ s.saved.size.toNat ∧ s.grow size allocated = (s, true)) := by
  have hfree : ∀ o, (s.free o).calls = s.calls ∧ (s.free o).stray = s.stray := by
    intro o
    cases o <;> exact ⟨rfl, rfl⟩
  unfold grow
  by_cases h : size.toNat > s.saved.size.toNat
  · rw [if_pos h]
    dsimp only
    cases allocated with
    | true =>
      rw [if_pos rfl]
      exact .inl ⟨_, _, rfl, rfl, rfl, Function.update_self _ _ _, hfree s.saved.virt⟩
    | false =>
      rw [if_neg Bool.false_ne_true]
      exact .inr (.inl ⟨_, rfl, rfl, hfree s.saved.virt⟩)
  · rw [if_neg h]
    exact .inr (.inr ⟨Nat.le_of_not_lt h, rfl⟩)

theorem Inv.append (hi : s.Inv) (hidle : ∀ c ∈ s.calls, ¬ c.Active)
    (hcalls : t.calls = s.calls ++ [c])
    (hsaved : ∀ b, t.saved.virt = some b → ∃ m, t.mem b = some m ∧ m.size = t.saved.size)
    (hunsaved : t.saved.virt = none → t.saved.size = 0)
    (hholds : c.Active → ∃ b m, t.Holds c b m) (hset : c.Settled) (hstray : t.stray = []) :
    t.Inv := by
  have hother : ∀ (g : ℕ) (d : UserCall), t.calls[g]? = some d → d.Active →
      g = s.calls.length ∧ d = c := by
    intro g d hg hd
    rw [hcalls] at hg
    rcases Nat.lt_trichotomy g s.calls.length with hlt | rfl | hlt
    · rw [List.getElem?_append_left hlt] at hg
      exact absurd hd (hidle d (List.mem_of_getElem? hg))
    · rw [List.getElem?_concat_length, Option.some.injEq] at hg
      exact ⟨rfl, hg.symm⟩
    · rw [List.getElem?_eq_none (by simp; omega)] at hg
      cases hg
  refine ⟨hsaved, hunsaved, ?_, ?_, ?_, hstray⟩
  · intro g g' d d' hg hg' hd hd'
    rw [(hother g d hg hd).1, (hother g' d' hg' hd').1]
  · intro d hd hda
    obtain ⟨g, hg⟩ := List.mem_iff_getElem?.mp hd
    obtain ⟨-, rfl⟩ := hother g d hg hda
    exact hholds hda
  · intro d hd
    rw [hcalls] at hd
    rcases List.mem_append.mp hd with hd | hd
    · exact hi.settled d hd
    · exact List.mem_singleton.mp hd ▸ hset

theorem settled_newCall {dir : Direction} {device size ticket : BitVec 32} {work : ℕ}
    {ready : Bool} {devBuff : Option ℕ} :
    (newCall dir device size ticket work ready devBuff).Settled := by
  apply UserCall.settled_of_unmoved rfl rfl rfl
  intro ticket h
  cases ready <;> simp [newCall] at h

theorem not_active_newCall {dir : Direction} {device size ticket : BitVec 32} {work : ℕ}
    {devBuff : Option ℕ} : ¬ (newCall dir device size ticket work false devBuff).Active := by
  simp [UserCall.Active, newCall]

theorem inv_enter (hi : s.Inv) (hidle : ∀ c ∈ s.calls, ¬ c.Active) (dir : Direction)
    (device size : BitVec 32) (work : ℕ) (allocated : Bool) :
    (s.enter dir device size work allocated).Inv := by
  unfold enter
  by_cases hz : size = 0
  · rw [if_pos hz]
    refine hi.append hidle rfl hi.saved hi.unsaved (fun h => ?_) settled_newCall hi.clean
    exact absurd h not_active_newCall
  · rw [if_neg hz]
    rcases s.grow_cases size allocated with ⟨m, t, ht, hsize, hsaved, hmem, hcalls, hstray⟩ |
      ⟨t, ht, hsaved, hcalls, hstray⟩ | ⟨hle, ht⟩
    · rw [ht]
      refine hi.append hidle rfl ?_ ?_ (fun _ => ⟨s.allocs, m, ?_⟩) settled_newCall
        (hstray.trans hi.clean)
      · intro b hb
        rw [hsaved] at hb ⊢
        obtain rfl := Option.some.inj hb
        exact ⟨m, hmem, hsize⟩
      · intro hb
        rw [hsaved] at hb
        cases hb
      · refine ⟨by rw [hsaved], hmem, hsize ▸ BitVec.le_refl _, ?_, ⟨rfl, rfl⟩⟩
        change t.saved.virt = _
        rw [hsaved]
    · rw [ht]
      refine hi.append hidle rfl ?_ ?_ (fun h => ?_) settled_newCall (hstray.trans hi.clean)
      · intro b hb
        rw [hsaved] at hb
        cases hb
      · intro _
        rw [hsaved]
      · exact absurd h not_active_newCall
    · rw [ht]
      refine hi.append hidle rfl hi.saved hi.unsaved (fun _ => ?_) settled_newCall hi.clean
      cases hv : s.saved.virt with
      | none =>
        rw [hi.unsaved hv] at hle
        exact absurd (BitVec.eq_of_toNat_eq (Nat.le_zero.mp hle)) hz
      | some b =>
        obtain ⟨m, hm, hsize⟩ := hi.saved b hv
        exact ⟨b, m, hv, hm, hsize ▸ hle, rfl, rfl, rfl⟩

theorem Inv.holding (hi : s.Inv) (hf : s.calls[f]? = some c) (hact : c.Active) :
    ∃ b m, s.Holds c b m := hi.holds c (List.mem_of_getElem? hf) hact

theorem Inv.settled_call (hi : s.Inv) (hf : s.calls[f]? = some c) : c.Settled :=
  hi.settled c (List.mem_of_getElem? hf)

theorem inv_copyIn (hi : s.Inv) (hf : s.calls[f]? = some c) (hst : c.stage = .copying)
    (bytes : List Byte) : (s.copyIn f c bytes).Inv := by
  have hact : c.Active := UserCall.active_of_stage (by simp [hst])
  obtain ⟨b, m, hb⟩ := hi.holding hf hact
  obtain ⟨hstarted, hmoved⟩ : c.started = false ∧ c.moved = none := by
    simpa [UserCall.Expects, hst] using hb.expects
  have hdone := (hi.settled_call hf).not_done hmoved
  have hfin := (hi.settled_call hf).not_finished hmoved
  unfold copyIn
  cases hd : c.dir with
  | up =>
    refine hi.setCall hf (fun _ => hact)
      (fun b m hb _ => ⟨hb.saved, hb.mem, hb.fits, hb.dev, ?_⟩) ?_
    · simp [UserCall.Expects, hstarted, hmoved]
    · exact UserCall.settled_of_unmoved hdone hfin hmoved (by simp)
  | down =>
    dsimp only
    rw [hb.saved, put_of hb.mem hb.fits]
    refine hi.setPut hf hact hb bytes rfl rfl ?_ ?_
    · by_cases hlen : bytes.length = c.size.toNat
      · simp [UserCall.Expects, hlen, hstarted, hmoved, Buffer.read_write m hlen]
      · simp [UserCall.Active, hlen, hstarted]
    · refine UserCall.settled_of_unmoved hdone hfin hmoved fun ticket h => ?_
      dsimp only at h
      split at h <;> cases h

theorem inv_map (hi : s.Inv) (hf : s.calls[f]? = some c) (hst : c.stage = .mapping)
    (mapped : Bool) : (s.setCall f (if mapped then
      { c with busAddr := s.saved.virt, stage := .starting }
      else { c with stage := .returned (.error .ENOMEM) })).Inv := by
  have hact : c.Active := UserCall.active_of_stage (by simp [hst])
  obtain ⟨b, m, hb⟩ := hi.holding hf hact
  obtain ⟨hstarted, hmoved, -⟩ : c.started = false ∧ c.moved = none ∧ _ := by
    simpa only [UserCall.Expects, hst] using hb.expects
  have hdone := (hi.settled_call hf).not_done hmoved
  have hfin := (hi.settled_call hf).not_finished hmoved
  refine hi.setCall hf (fun _ => hact) (fun b m hb hc => ?_) ?_
  · have hexp := hb.expects
    simp only [UserCall.Expects, hst] at hexp
    cases mapped with
    | true => exact ⟨hb.saved, hb.mem, hb.fits, hb.dev, hexp.1, hexp.2.1, hexp.2.2, hb.saved⟩
    | false => simp [UserCall.Active, hstarted] at hc
  · cases mapped with
    | true => exact UserCall.settled_of_unmoved hdone hfin hmoved (by simp)
    | false => exact UserCall.settled_of_unmoved hdone hfin hmoved (by simp)

theorem inv_start (hi : s.Inv) (hf : s.calls[f]? = some c) (hst : c.stage = .starting) :
    (s.setCall f { c with started := true, stage := .waiting }).Inv := by
  have hact : c.Active := UserCall.active_of_stage (by simp [hst])
  obtain ⟨b, m, hb⟩ := hi.holding hf hact
  obtain ⟨-, hmoved, -⟩ : c.started = false ∧ c.moved = none ∧ _ := by
    simpa only [UserCall.Expects, hst] using hb.expects
  refine hi.setCall hf (fun _ => hact) (fun b m hb _ => ⟨hb.saved, hb.mem, hb.fits, hb.dev, ?_⟩) ?_
  · have hexp := hb.expects
    simp only [UserCall.Expects, hst] at hexp
    obtain ⟨-, -, hread, hbus⟩ := hexp
    exact ⟨hbus, fun _ => hread, by simp [hmoved]⟩
  · have hset := hi.settled_call hf
    exact UserCall.settled_of_unmoved (hset.not_done hmoved) (hset.not_finished hmoved) hmoved
      (by simp)

/-- A started transfer goes to the saved buffer, which holds what the user sent. -/
theorem Holds.started (hb : s.Holds c b m) (hs : c.started) (hm : c.moved = none) :
    c.busAddr = some b ∧ (c.dir = .down → m.read c.size = c.sent) := by
  have hexp := hb.expects
  unfold UserCall.Expects at hexp
  split at hexp
  · simp [hexp.1] at hs
  · simp [hexp.1] at hs
  · simp [hexp.1] at hs
  · exact ⟨hexp.1, hexp.2.1 hm⟩
  · simp [hm] at hexp
  · exact hexp hm

theorem Holds.stage_started (hb : s.Holds c b m) (hs : c.started) (hm : c.moved = none) :
    c.stage = .waiting ∨ ∃ rc, c.stage = .returned rc := by
  have hexp := hb.expects
  unfold UserCall.Expects at hexp
  split at hexp
  · simp [hexp.1] at hs
  · simp [hexp.1] at hs
  · simp [hexp.1] at hs
  · exact .inl ‹_›
  · simp [hm] at hexp
  · exact .inr ⟨_, ‹_›⟩

/-- A call that has returned expects nothing more once its transfer has moved its bytes. -/
theorem expects_moved (hb : s.Holds c b m) {bytes : List Byte}
    (hs : c.started) (hm : c.moved = none) {m' : Buffer}
    (hup : c.dir = .up → m'.read c.size = bytes) :
    UserCall.Expects { c with moved := some bytes } b m' := by
  rcases hb.stage_started hs hm with hst | ⟨rc, hst⟩
  · simp only [UserCall.Expects, hst]
    refine ⟨(hb.started hs hm).1, by simp, fun bytes' heq hd => ?_⟩
    rw [hup hd]
    exact Option.some.inj heq
  · simp [UserCall.Expects, hst]

theorem transfer_down (hb : s.Holds c b m) (hbus : c.busAddr = some b) (hd : c.dir = .down) :
    s.transfer f c = Buffers.setCall { s with device := s.device.write c.device (m.read c.size) } f
      { c with moved := some (m.read c.size) } := by
  simp only [transfer, hd, hbus, get_of hb.mem hb.fits]

theorem transfer_up (hb : s.Holds c b m) (hbus : c.busAddr = some b) (hd : c.dir = .up) :
    s.transfer f c = Buffers.setCall
      { s with mem :=
          Function.update s.mem b (some (m.write (s.device.read c.device c.size))) } f
      { c with moved := some (s.device.read c.device c.size) } := by
  simp only [transfer, hd, hbus, put_of hb.mem hb.fits]

theorem inv_transfer (hi : s.Inv) (hf : s.calls[f]? = some c) (hs : c.started)
    (hm : c.moved = none) : (s.transfer f c).Inv := by
  have hset := hi.settled_call hf
  have hact := UserCall.active_of_started hs (hset.not_finished hm)
  obtain ⟨b, m, hb⟩ := hi.holding hf hact
  obtain ⟨hbus, hread⟩ := hb.started hs hm
  have hok : ∀ ticket, c.stage ≠ .returned (.ok ticket) := by
    intro ticket h
    have hsome := hset.finished (hset.returned ticket h).1
    rw [hm] at hsome
    cases hsome
  cases hd : c.dir with
  | down =>
    have hnot : ¬ c.dir = .up := by simp [hd]
    rw [transfer_down hb hbus hd]
    refine hi.set hf (fun _ => hact) (.inl hact) rfl rfl hi.saved (fun _ => ⟨b, m, ?_⟩) ?_ hi.clean
    · refine ⟨hb.saved, hb.mem, hb.fits, hb.dev, ?_⟩
      exact expects_moved hb hs hm fun hu => absurd hu hnot
    · refine ⟨fun _ => hs, fun _ => rfl, hset.signalled, fun _ bytes h => ?_,
        fun ticket h => absurd h (hok ticket)⟩
      rw [← Option.some.inj h]
      exact hread hd
  | up =>
    have hnot : ¬ c.dir = .down := by simp [hd]
    rw [transfer_up hb hbus hd]
    refine hi.setPut hf hact hb _ rfl rfl ?_ ?_
    · exact fun _ => expects_moved hb hs hm fun _ =>
        Buffer.read_write m (DeviceRam.read_length s.device c.device c.size)
    · exact ⟨fun _ => hs, fun _ => rfl, hset.signalled, fun hdown => absurd hdown hnot,
        fun ticket h => absurd h (hok ticket)⟩

/-- While no other call is active, `dma_done` only reaches the call that it is for. -/
theorem Inv.dmaDone_eq (hi : s.Inv) (hf : s.calls[f]? = some c) (hact : c.Active) :
    s.dmaDone f c = s.setCall f (UserCall.complete c.work { c with finished := true }) := by
  have hcalls : (s.calls.set f { c with finished := true }).map (UserCall.complete c.work) =
      s.calls.set f (UserCall.complete c.work { c with finished := true }) := by
    rw [List.map_set]
    apply List.ext_getElem?
    intro g
    rw [List.getElem?_set, List.getElem?_set, List.length_map, List.getElem?_map]
    by_cases hfg : f = g
    · rw [if_pos hfg, if_pos hfg]
    · rw [if_neg hfg, if_neg hfg]
      cases hg : s.calls[g]? with
      | none => rfl
      | some d =>
        rw [Option.map_some, UserCall.complete_of_not_live]
        exact fun hd => absurd (hi.alone f g c d hf hg hact hd.active) hfg
  rw [dmaDone]
  exact congrArg (fun calls => { s with calls := calls }) hcalls

theorem inv_dmaDone (hi : s.Inv) (hf : s.calls[f]? = some c) (hm : c.moved.isSome)
    (hfin : c.finished = false) : (s.dmaDone f c).Inv := by
  have hset := hi.settled_call hf
  have hact := UserCall.active_of_started (hset.started hm) hfin
  rw [hi.dmaDone_eq hf hact]
  refine hi.setCall hf (fun _ => hact) (fun b m hb hc => ?_) ?_
  · unfold UserCall.complete at hc ⊢
    split
    · -- The completion is still there.
      refine ⟨hb.saved, hb.mem, hb.fits, hb.dev, ?_⟩
      have hexp := hb.expects
      unfold UserCall.Expects at hexp ⊢
      dsimp only
      split at hexp
      case h_5 => exact ⟨hexp.1, rfl, hexp.2.2⟩
      all_goals exact hexp
    · -- The call has returned, and nothing of it is still to come.
      rename_i hnot
      rw [if_neg hnot] at hc
      have hlive : ∀ rc, c.stage = .returned rc → False := by
        intro rc hrc
        simp [UserCall.Active, hrc] at hc
      refine absurd ⟨?_, rfl⟩ hnot
      unfold UserCall.Live
      dsimp only
      split
      · exact hlive _ ‹_›
      · trivial
  · unfold UserCall.complete
    split
    · exact ⟨hset.started, fun _ => hm, fun _ => rfl, hset.down, fun ticket h =>
        ⟨rfl, (hset.returned ticket h).2⟩⟩
    · exact ⟨hset.started, fun _ => hm, fun _ => rfl, hset.down, fun ticket h =>
        ⟨rfl, (hset.returned ticket h).2⟩⟩

theorem inv_wake (hi : s.Inv) (hf : s.calls[f]? = some c) (hst : c.stage = .waiting)
    (hdone : c.done) : (s.setCall f { c with
      stage := if c.dir = .up then .copyingOut else .returned (.ok c.ticket) }).Inv := by
  have hact : c.Active := UserCall.active_of_stage (by simp [hst])
  have hset := hi.settled_call hf
  have hfin := hset.signalled hdone
  obtain ⟨bytes, hm⟩ := Option.isSome_iff_exists.mp (hset.finished hfin)
  refine hi.setCall hf (fun _ => hact) (fun b m hb hc => ⟨hb.saved, hb.mem, hb.fits, hb.dev, ?_⟩) ?_
  · have hexp := hb.expects
    simp only [UserCall.Expects, hst] at hexp
    cases hd : c.dir with
    | up => simp [UserCall.Expects, hm, hfin, hexp.2.2 bytes hm hd]
    | down => simp [UserCall.Active, hd, hfin] at hc
  · refine ⟨hset.started, hset.finished, hset.signalled, hset.down,
      fun ticket h => ⟨hfin, fun hu => ?_⟩⟩
    dsimp only at h hu
    rw [if_pos hu] at h
    cases h

theorem inv_expire (hi : s.Inv) (hf : s.calls[f]? = some c) (hst : c.stage = .waiting) :
    (s.setCall f { c with stage := .returned (.error .ETIMEDOUT) }).Inv := by
  have hact : c.Active := UserCall.active_of_stage (by simp [hst])
  have hset := hi.settled_call hf
  refine hi.setCall hf (fun _ => hact) (fun b m hb hc => ⟨hb.saved, hb.mem, hb.fits, hb.dev, ?_⟩) ?_
  · have hexp := hb.expects
    simp only [UserCall.Expects, hst] at hexp
    exact fun hm => ⟨hexp.1, hexp.2.1 hm⟩
  · exact ⟨hset.started, hset.finished, hset.signalled, hset.down, by simp⟩

theorem inv_copyOut (hi : s.Inv) (hf : s.calls[f]? = some c) (hst : c.stage = .copyingOut)
    (copied : Bool) : (s.copyOut f c copied).Inv := by
  have hact : c.Active := UserCall.active_of_stage (by simp [hst])
  obtain ⟨b, m, hb⟩ := hi.holding hf hact
  have hset := hi.settled_call hf
  obtain ⟨hd, hfin, hm⟩ : c.dir = .up ∧ c.finished = true ∧ c.moved = some (m.read c.size) := by
    simpa only [UserCall.Expects, hst] using hb.expects
  have hout : s.copyOut f c copied = s.setCall f { c with
      received := if copied then some (m.read c.size) else none
      stage := .returned (if copied then .ok c.ticket else .error .ETIMEDOUT) } := by
    simp only [copyOut, hb.dev, get_of hb.mem hb.fits]
  rw [hout]
  refine hi.setCall hf (fun _ => hact) (fun b m hb hc => ?_) ?_
  · simp [UserCall.Active, hfin] at hc
  · refine ⟨hset.started, hset.finished, hset.signalled, hset.down,
      fun ticket h => ⟨hfin, fun _ => ?_⟩⟩
    cases copied with
    | true => exact hm.symm
    | false => simp at h

theorem inv_stepCall (hi : s.Inv) (hf : s.calls[f]? = some c) {l : BufferLabel}
    (hst : s.stepCall f c l = some t) : t.Inv := by
  cases l with
  | enter dir device size work allocated => cases hst
  | copyIn g bytes =>
    obtain ⟨hc, ⟨⟩⟩ := Option.ite_none_right_eq_some.mp hst
    exact inv_copyIn hi hf hc.1 bytes
  | map g mapped =>
    obtain ⟨hc, ⟨⟩⟩ := Option.ite_none_right_eq_some.mp hst
    exact inv_map hi hf hc mapped
  | start g =>
    obtain ⟨hc, ⟨⟩⟩ := Option.ite_none_right_eq_some.mp hst
    exact inv_start hi hf hc
  | transfer g =>
    obtain ⟨hc, ⟨⟩⟩ := Option.ite_none_right_eq_some.mp hst
    exact inv_transfer hi hf hc.1 hc.2
  | complete g =>
    obtain ⟨hc, ⟨⟩⟩ := Option.ite_none_right_eq_some.mp hst
    exact inv_dmaDone hi hf hc.1 hc.2
  | wake g =>
    obtain ⟨hc, ⟨⟩⟩ := Option.ite_none_right_eq_some.mp hst
    exact inv_wake hi hf hc.1 hc.2
  | expire g =>
    obtain ⟨hc, ⟨⟩⟩ := Option.ite_none_right_eq_some.mp hst
    exact inv_expire hi hf hc.1
  | copyOut g copied =>
    obtain ⟨hc, ⟨⟩⟩ := Option.ite_none_right_eq_some.mp hst
    exact inv_copyOut hi hf hc copied

theorem step_cases {l : BufferLabel} (hst : s.step l = some t) :
    (∃ dir device size work allocated, l = .enter dir device size work allocated ∧
      t = s.enter dir device size work allocated) ∨
    ∃ f c, l.caller = some f ∧ s.calls[f]? = some c ∧ s.stepCall f c l = some t := by
  cases l with
  | enter dir device size work allocated =>
    obtain ⟨-, ⟨⟩⟩ := Option.ite_none_right_eq_some.mp hst
    exact .inl ⟨dir, device, size, work, allocated, rfl, rfl⟩
  | _ =>
    obtain ⟨c, hf, hst⟩ := Option.bind_eq_some_iff.mp hst
    exact .inr ⟨_, c, rfl, hf, hst⟩

theorem inv_step {l : BufferLabel} (hi : s.Inv) (hok : Alone s l) (hst : s.step l = some t) :
    t.Inv := by
  rcases step_cases hst with ⟨dir, device, size, work, allocated, rfl, rfl⟩ | ⟨f, c, -, hf, hst⟩
  · exact inv_enter hi (hok rfl) dir device size work allocated
  · exact inv_stepCall hi hf hst

theorem reachable_inv (h : sharedBuffer.ReachableUnder Alone s) : s.Inv := by
  apply h.invariant
  · rintro _ ⟨device, rfl⟩
    exact inv_initial device
  · exact fun _ _ _ hi hok hst => inv_step hi hok hst

/-- The device region of a transfer to the device holds its user's bytes right after it. -/
theorem region_of_transfer (hi : s.Inv) (hst : s.step (.transfer f) = some t)
    (hf : s.calls[f]? = some c) (hd : c.dir = .down) : t.device.read c.device c.size = c.sent := by
  obtain ⟨c', hf', hst⟩ := Option.bind_eq_some_iff.mp hst
  obtain rfl : c = c' := Option.some.inj (hf.symm.trans hf')
  obtain ⟨⟨hs, hm⟩, ⟨⟩⟩ := Option.ite_none_right_eq_some.mp hst
  have hfin := (hi.settled_call hf).not_finished hm
  obtain ⟨b, m, hb⟩ := hi.holding hf (UserCall.active_of_started hs hfin)
  obtain ⟨hbus, hread⟩ := hb.started hs hm
  rw [transfer_down hb hbus hd, ← hread hd]
  exact DeviceRam.read_write s.device c.device (Buffer.read_length m c.size)

end Buffers

open Buffers in
/-- As long as each user-buffer ioctl enters when no other is under way or has its `dma_done` still
to come: a DOWN ioctl that returned its ticket has moved its user's bytes, an UP ioctl has given its
user the bytes that it moved, no copy and no transfer used a buffer that was freed or too small, and
each transfer to the device leaves its user's bytes in its device region. -/
theorem transfers_apart {s : Buffers} (h : sharedBuffer.ReachableUnder Alone s) :
    (∀ c ∈ s.calls, ∀ ticket, c.stage = .returned (.ok ticket) →
      (c.dir = .down → c.moved = some c.sent) ∧
        (c.dir = .up → ∃ bytes, c.moved = some bytes ∧ c.received = some bytes)) ∧
    s.stray = [] ∧
    ∀ f t c, s.step (.transfer f) = some t → s.calls[f]? = some c → c.dir = .down →
      t.device.read c.device c.size = c.sent := by
  have hi := reachable_inv h
  refine ⟨fun c hc ticket hret => ?_, hi.clean, fun f t c => region_of_transfer hi⟩
  have hset := hi.settled c hc
  obtain ⟨hsome, hup⟩ := hset.returned ticket hret
  obtain ⟨bytes, hm⟩ := Option.isSome_iff_exists.mp (hset.finished hsome)
  refine ⟨fun hd => ?_, fun hu => ⟨bytes, hm, (hup hu).trans hm⟩⟩
  rw [hm, hset.down hd bytes hm]

theorem transfers_apart_two : ∃ s : Buffers,
    s.calls.map UserCall.moved = [some [7, 9], some [7, 9]] ∧ s.stray = [] := by
  have hrun : (sharedBuffer.execUnder Alone (.initial fun _ => 0)
      [.enter .down 16 2 0 true, .copyIn 0 [7, 9], .map 0 true, .start 0, .transfer 0, .complete 0,
        .wake 0, .enter .up 16 2 0 true, .copyIn 1 [], .map 1 true, .start 1, .transfer 1,
        .complete 1, .wake 1, .copyOut 1 true]).map
      (fun s => decide (s.calls.map UserCall.moved = [some [7, 9], some [7, 9]])) =
      some true := by decide
  obtain ⟨s, hs, hp⟩ := Machine.exists_reachableUnder_of_exec (start_initial _) hrun
  exact ⟨s, of_decide_eq_true hp, (transfers_apart hs).2.1⟩

/-- A second ioctl copies its user's bytes into the buffer before the device has read those of the
first, whose region then gets the bytes of the second. -/
theorem transfers_mixed : ¬ ∀ s, sharedBuffer.Reachable s → ∀ c ∈ s.calls,
    ∀ ticket, c.stage = .returned (.ok ticket) → c.dir = .down → c.moved = some c.sent := by
  have hrun : (sharedBuffer.exec (.initial fun _ => 0)
      [.enter .down 16 2 0 true, .copyIn 0 [7, 9], .map 0 true, .start 0, .enter .down 32 2 1 true,
        .copyIn 1 [1, 3], .transfer 0, .complete 0, .wake 0]).map
      (fun s => decide (∃ c ∈ s.calls, c.stage = .returned (.ok 1) ∧ c.dir = .down ∧
        c.moved ≠ some c.sent)) = some true := by decide
  obtain ⟨s, hs, hp⟩ := Machine.exists_reachable_of_exec (start_initial _) hrun
  obtain ⟨c, hc, hret, hd, hne⟩ := of_decide_eq_true hp
  exact fun hall => hne (hall s hs c hc 1 hret hd)

end BifrostModule.Dma
