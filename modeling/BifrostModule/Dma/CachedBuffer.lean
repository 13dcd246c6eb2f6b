import BifrostModule.Foundation.Ledger
import BifrostModule.Dma.Start

/-! # The cached buffer of user transfers

`saved_dma_buf` grows with the transfers and is freed with the character device.
Its size is a signed `int`, compared as a `u32` and handed on as a `size_t`.
-/
namespace BifrostModule.Dma
open Foundation

inductive SizeT where
  | bits32
  | bits64
  deriving DecidableEq

def SizeT.width : SizeT → ℕ
  | .bits32 => 32
  | .bits64 => 64

def sizeT (arch : SizeT) (size : BitVec 32) : BitVec arch.width := size.signExtend arch.width

/-- The bits that a conversion adds only make the size larger. -/
theorem toNat_le_sizeT (arch : SizeT) (size : BitVec 32) :
    size.toNat ≤ (sizeT arch size).toNat := by
  rw [sizeT, BitVec.toNat_signExtend]
  refine le_trans ?_ (Nat.le_add_right _ _)
  have hlt := size.isLt
  cases arch with
  | bits32 => simp [SizeT.width]
  | bits64 =>
    rw [BitVec.toNat_setWidth, Nat.mod_eq_of_lt]
    simp only [SizeT.width]
    omega

/-- The buffer with the ledger of `dma_alloc_coherent` and `dma_free_coherent`, which number the
buffers and give the size in bytes. -/
structure CachedBuffer (arch : SizeT) where
  saved : SavedDmaBuf
  allocs : ℕ
  ledger : List (Entry ℕ (BitVec arch.width))

/-- A call of `prepare_dma_buffer` with the outcomes of the services that it uses. -/
structure PrepareCall where
  size : BitVec 32
  upDown : Option Direction
  grown : Bool
  copied : Bool
  mapped : Bool

/-- The outcome of a call of some bytes whose buffer is ready. -/
def PrepareCall.outcome (call : PrepareCall) : Except Errno Unit :=
  match call.upDown with
  | none => .error .ENOMEM
  | some dir =>
    if dir = .down ∧ call.copied = false then .error .ENOMEM
    else if call.mapped = false then .error .ENOMEM
    else .ok ()

namespace CachedBuffer
variable {arch : SizeT}

def loaded (arch : SizeT) : CachedBuffer arch := ⟨⟨0, none⟩, 0, []⟩

/-- `dma_free_coherent` of the buffer, if there is one. -/
def free (s : CachedBuffer arch) : CachedBuffer arch :=
  match s.saved.virt with
  | none => s
  | some v => { s with ledger := s.ledger ++ [.give v (sizeT arch s.saved.size)] }

def alloc (s : CachedBuffer arch) (grown : Bool) : CachedBuffer arch × Bool :=
  if grown then
    ({ saved := { s.saved with virt := some s.allocs }, allocs := s.allocs + 1,
       ledger := s.ledger ++ [.take s.allocs (sizeT arch s.saved.size)] }, true)
  else ({ s with saved := ⟨0, none⟩ }, false)

def grow (s : CachedBuffer arch) (size : BitVec 32) (grown : Bool) : CachedBuffer arch × Bool :=
  if size.toNat > s.saved.size.toNat then
    let s := s.free
    { s with saved := { s.saved with size := size } }.alloc grown
  else (s, true)

def prepareDmaBuffer (s : CachedBuffer arch) (call : PrepareCall) :
    CachedBuffer arch × Except Errno Unit :=
  if call.size = 0 then (s, .error .EFAULT)
  else
    let (s, ready) := s.grow call.size call.grown
    if ready = false then (s, .error .ENOMEM)
    else
      match call.upDown with
      | none => (s, .error .ENOMEM)
      | some dir =>
        if dir = .down ∧ call.copied = false then (s, .error .ENOMEM)
        else if call.mapped = false then (s, .error .ENOMEM)
        else (s, .ok ())

def prepareAll (calls : List PrepareCall) : CachedBuffer arch :=
  calls.foldl (fun s call => (s.prepareDmaBuffer call).1) (loaded arch)

def bifrostCdevExit (s : CachedBuffer arch) (cdevInitialized : Bool) : CachedBuffer arch :=
  if cdevInitialized = false then s else s.free

/-- What the ledger holds if the record is right: the buffer alone, with the recorded size. -/
def recorded (s : CachedBuffer arch) : ℕ → Option (BitVec arch.width) :=
  fun v => if s.saved.virt = some v then some (sizeT arch s.saved.size) else none

/-- There is no buffer and its size is 0, or the buffer is all that is held. -/
structure Consistent (s : CachedBuffer arch) : Prop where
  absent : s.saved.virt = none → s.saved.size = 0
  live : Ledger.replay s.ledger = some s.recorded

/-- Every buffer has been allocated once and freed once, with the size of its allocation. -/
structure FreedOnce (s : CachedBuffer arch) : Prop where
  nothing : Ledger.replay s.ledger = some fun _ => none
  once : ∀ v n, .take v n ∈ s.ledger →
    s.ledger.count (.take v n) = 1 ∧ s.ledger.count (.give v n) = 1
  taken : ∀ v n, .give v n ∈ s.ledger → .take v n ∈ s.ledger

/-- The buffers are numbered in the order of their allocations, and only they are freed. -/
structure Numbered (s : CachedBuffer arch) : Prop where
  fresh : ∀ v n, .take v n ∈ s.ledger → v < s.allocs
  taken : ∀ v n, .give v n ∈ s.ledger → .take v n ∈ s.ledger
  once : ∀ v n, s.ledger.count (.take v n) ≤ 1

structure Inv (s : CachedBuffer arch) : Prop extends Consistent s, Numbered s

theorem Inv.loaded : (loaded arch).Inv where
  absent _ := rfl
  live := by
    apply congrArg some
    funext v
    rfl
  fresh _ _ h := nomatch h
  taken _ _ h := nomatch h
  once _ _ := Nat.zero_le 1

theorem recorded_of_none {s : CachedBuffer arch} (h : s.saved.virt = none) :
    s.recorded = fun _ => none := by
  funext v
  rw [recorded, h, if_neg (Option.some_ne_none v).symm]

theorem recorded_of_some {s : CachedBuffer arch} {v : ℕ} (h : s.saved.virt = some v) :
    s.recorded = Function.update (fun _ => none) v (some (sizeT arch s.saved.size)) := by
  funext u
  by_cases hu : u = v
  · subst hu
    rw [recorded, if_pos h, Function.update_self]
  · rw [recorded, h, if_neg (by simpa using Ne.symm hu), Function.update_of_ne hu]

theorem Inv.free {s : CachedBuffer arch} (h : s.Inv) :
    Ledger.replay s.free.ledger = some (fun _ => none) ∧ s.free.Numbered := by
  cases hv : s.saved.virt with
  | none =>
    have hfree : s.free = s := by rw [CachedBuffer.free, hv]
    rw [hfree]
    exact ⟨h.live.trans (congrArg some (recorded_of_none hv)), h.toNumbered⟩
  | some v =>
    have hfree : s.free = { s with ledger := s.ledger ++ [.give v (sizeT arch s.saved.size)] } := by
      rw [CachedBuffer.free, hv]
    have hheld : s.recorded v = some (sizeT arch s.saved.size) := by rw [recorded, if_pos hv]
    have htaken : .take v (sizeT arch s.saved.size) ∈ s.ledger := by
      have hcount := Ledger.count_take h.live v (sizeT arch s.saved.size)
      rw [if_pos hheld] at hcount
      apply List.count_pos_iff.mp
      omega
    rw [hfree]
    constructor
    · rw [Ledger.replay_give h.live hheld, recorded_of_some hv, Function.update_idem,
        Function.update_eq_self_iff.mpr rfl]
    · constructor
      · intro u n hu
        apply h.fresh u n
        simpa using hu
      · intro u n hu
        rcases List.mem_append.mp hu with hu | hu
        · exact List.mem_append_left _ (h.taken u n hu)
        · cases List.mem_singleton.mp hu
          exact List.mem_append_left _ htaken
      · intro u n
        simpa using h.once u n

theorem Inv.alloc {s : CachedBuffer arch} (hnothing : Ledger.replay s.ledger = some fun _ => none)
    (h : s.Numbered) (grown : Bool) : (s.alloc grown).1.Inv := by
  cases grown with
  | false =>
    refine ⟨⟨fun _ => rfl, ?_⟩, ⟨h.fresh, h.taken, h.once⟩⟩
    exact hnothing.trans (congrArg some (recorded_of_none rfl).symm)
  | true =>
    have hnew : ∀ n, .take s.allocs n ∉ s.ledger := fun n hn => lt_irrefl _ (h.fresh _ _ hn)
    refine { absent := (nomatch ·), live := ?_, fresh := ?_, taken := ?_, once := ?_ }
    · refine (Ledger.replay_take hnothing rfl _).trans (congrArg some ?_)
      exact (recorded_of_some (s := (s.alloc true).1) rfl).symm
    · intro u n hu
      rcases List.mem_append.mp hu with hu | hu
      · exact Nat.lt_succ_of_lt (h.fresh u n hu)
      · cases List.mem_singleton.mp hu
        exact Nat.lt_succ_self _
    · intro u n hu
      rcases List.mem_append.mp hu with hu | hu
      · exact List.mem_append_left _ (h.taken u n hu)
      · cases List.mem_singleton.mp hu
    · intro u n
      rw [CachedBuffer.alloc, if_pos rfl, List.count_append, List.count_singleton]
      by_cases hsame : u = s.allocs
      · subst hsame
        rw [List.count_eq_zero.mpr (hnew n)]
        split <;> omega
      · have hother := h.once u n
        rw [if_neg (by simp [Ne.symm hsame])]
        omega

theorem Inv.grow {s : CachedBuffer arch} (h : s.Inv) (size : BitVec 32) (grown : Bool) :
    (s.grow size grown).1.Inv := by
  rw [CachedBuffer.grow]
  split
  · obtain ⟨hnothing, hnumbered⟩ := h.free
    exact Inv.alloc (s := { s.free with saved := { s.free.saved with size := size } }) hnothing
      ⟨hnumbered.fresh, hnumbered.taken, hnumbered.once⟩ grown
  · exact h

/-- A call does to the buffer what its growth does, unless it is of no bytes. -/
theorem prepareDmaBuffer_eq (s : CachedBuffer arch) (call : PrepareCall) :
    s.prepareDmaBuffer call =
      if call.size = 0 then (s, .error .EFAULT)
      else ((s.grow call.size call.grown).1,
        if (s.grow call.size call.grown).2 = false then .error .ENOMEM else call.outcome) := by
  unfold prepareDmaBuffer PrepareCall.outcome
  by_cases hsize : call.size = 0
  · rw [if_pos hsize, if_pos hsize]
  rw [if_neg hsize, if_neg hsize]
  obtain ⟨t, ready⟩ := s.grow call.size call.grown
  dsimp only
  cases ready with
  | false => rfl
  | true =>
    cases call.upDown with
    | none => rfl
    | some dir =>
      dsimp only
      split_ifs <;> rfl

theorem Inv.prepare {s : CachedBuffer arch} (h : s.Inv) (call : PrepareCall) :
    (s.prepareDmaBuffer call).1.Inv := by
  rw [prepareDmaBuffer_eq]
  split
  · exact h
  · exact h.grow _ _

theorem grow_large {s : CachedBuffer arch} (h : s.Inv) {size : BitVec 32} (hsize : size ≠ 0)
    {grown : Bool} (hready : (s.grow size grown).2 ≠ false) :
    ∃ v n, (s.grow size grown).1.saved.virt = some v ∧ (s.grow size grown).1.recorded v = some n ∧
      size.toNat ≤ n.toNat := by
  -- First as `u32`, for the buffer that is there afterwards.
  have hlarge : ∃ v, (s.grow size grown).1.saved.virt = some v ∧
      size.toNat ≤ (s.grow size grown).1.saved.size.toNat := by
    rw [CachedBuffer.grow] at hready ⊢
    split_ifs at hready ⊢ with hgrow
    · cases grown with
      | false => exact absurd rfl hready
      | true => exact ⟨_, rfl, le_rfl⟩
    · cases hv : s.saved.virt with
      | none =>
        -- The recorded size is 0, so any size is larger.
        rw [h.absent hv] at hgrow
        exact absurd (BitVec.eq_of_toNat_eq (Nat.le_zero.mp (not_lt.mp hgrow))) hsize
      | some v => exact ⟨v, rfl, not_lt.mp hgrow⟩
  obtain ⟨v, hv, hle⟩ := hlarge
  refine ⟨v, _, hv, ?_, hle.trans (toNat_le_sizeT arch _)⟩
  rw [recorded, if_pos hv]

theorem Inv.freedOnce {s : CachedBuffer arch} (h : s.Inv) : s.free.FreedOnce := by
  obtain ⟨hnothing, hnumbered⟩ := h.free
  refine ⟨hnothing, fun v n hv => ?_, hnumbered.taken⟩
  have hpos := List.count_pos_iff.mpr hv
  have honce := hnumbered.once v n
  have hgive := Ledger.count_take_of_empty hnothing v n
  omega

theorem Inv.prepareAll (calls : List PrepareCall) : (prepareAll calls : CachedBuffer arch).Inv := by
  induction calls using List.reverseRecOn with
  | nil => exact Inv.loaded
  | append_singleton calls call ih =>
    rw [CachedBuffer.prepareAll, List.foldl_append]
    exact ih.prepare call

/-- After every run of calls the buffer is consistent, the next call that succeeds leaves one that
is large enough, and the exit of the device frees what was allocated. -/
theorem cached_buffer_consistent (calls : List PrepareCall) :
    (prepareAll calls : CachedBuffer arch).Consistent ∧
      (∀ call, ((prepareAll calls : CachedBuffer arch).prepareDmaBuffer call).2 = .ok () →
        ∃ v n,
          ((prepareAll calls : CachedBuffer arch).prepareDmaBuffer call).1.saved.virt = some v ∧
          ((prepareAll calls : CachedBuffer arch).prepareDmaBuffer call).1.recorded v = some n ∧
          call.size.toNat ≤ n.toNat) ∧
      ((prepareAll calls : CachedBuffer arch).bifrostCdevExit true).FreedOnce := by
  have hinv : (prepareAll calls : CachedBuffer arch).Inv := Inv.prepareAll calls
  refine ⟨hinv.toConsistent, fun call hok => ?_, hinv.freedOnce⟩
  rw [prepareDmaBuffer_eq] at hok ⊢
  by_cases hsize : call.size = 0
  · rw [if_pos hsize] at hok
    cases hok
  · rw [if_neg hsize] at hok ⊢
    refine grow_large hinv hsize fun hfail => ?_
    dsimp only at hok
    rw [if_pos hfail] at hok
    cases hok

/-- The buffer of the ioctls is the cached one. -/
theorem prepareDmaBuffer_saved (t : StartState) (s : CachedBuffer arch) (h : t.saved = s.saved)
    (hallocs : t.allocs = s.allocs) (sys : CallServices) (xfer : Transfer) (req : DmaReq)
    (upDown : Option Direction) :
    let call : PrepareCall :=
      ⟨xfer.size, upDown, sys.grown, sys.copiedIn, decide (sys.busAddr ≠ 0)⟩
    (t.prepareDmaBuffer sys xfer req upDown).1.saved = (s.prepareDmaBuffer call).1.saved ∧
      (t.prepareDmaBuffer sys xfer req upDown).2.map (fun _ => ()) =
        (s.prepareDmaBuffer call).2 := by
  dsimp only
  rw [prepareDmaBuffer_eq, StartState.prepareDmaBuffer]
  have hgrow : t.saved.grow xfer.size sys.grown t.allocs =
      ((s.grow xfer.size sys.grown).1.saved, (s.grow xfer.size sys.grown).2) := by
    have hfree : s.free.allocs = s.allocs := by
      unfold CachedBuffer.free
      split <;> rfl
    rw [SavedDmaBuf.grow, CachedBuffer.grow, h, hallocs]
    cases sys.grown <;> split <;> simp [CachedBuffer.alloc, hfree]
  by_cases hsize : xfer.size = 0
  · rw [if_pos hsize, if_pos hsize]
    exact ⟨h, rfl⟩
  rw [if_neg hsize, if_neg hsize, hgrow]
  dsimp only
  cases (s.grow xfer.size sys.grown).2 with
  | false => exact ⟨rfl, rfl⟩
  | true =>
    cases upDown with
    | none => exact ⟨rfl, rfl⟩
    | some dir =>
      by_cases hcopy : dir = .down ∧ sys.copiedIn = false
      · simp [PrepareCall.outcome, hcopy, Except.map]
      · by_cases hmap : sys.busAddr = 0
        · simp [PrepareCall.outcome, hcopy, hmap, StartState.mapSingle, Except.map]
        · rw [PrepareCall.outcome]
          dsimp only
          rw [if_neg hcopy, if_neg hmap, if_neg hcopy, StartState.mapSingle, if_neg hmap]
          have hbus : sys.busAddr ≠ 0#32 := hmap
          exact ⟨rfl, by simp [hbus, Except.map]⟩

end CachedBuffer
end BifrostModule.Dma
