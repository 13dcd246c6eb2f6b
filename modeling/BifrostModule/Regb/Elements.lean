import BifrostModule.Regb.Inside

/-! # The buffers of the range and repeat ioctls on a 32-bit kernel

The size of the allocation and of the copy is a product of 32 bits, while the loop
runs over every element that the user asked for.
-/
namespace BifrostModule.Regb
open Foundation

inductive RangeCmd where
  | readRange
  | readRepeat
  | writeRepeat
  deriving DecidableEq

/-- `incr`; the offset of `WRITE_REPEAT_REGB` does not change either. -/
def RangeCmd.incr : RangeCmd → BitVec 32
  | readRange => 4
  | readRepeat => 0
  | writeRepeat => 0

/-- How an ioctl uses its buffer: the bytes allocated, the elements that it reads or writes, and the
bytes that it copies from or to user space, if it gets there. -/
structure BufferUse where
  allocated : ℕ
  elements : List ℕ
  copied : Option ℕ

/-- `sizeof(u32) * count` in a `size_t` of 32 bits. -/
def bufferBytes (count : BitVec 32) : ℕ := (4 * count).toNat

namespace BifrostDevice
variable (dev : BifrostDevice) (bar offset incr : BitVec 32)

/-- The elements that the reading loop writes from index `i` on, with `n` to go, and whether it gets
to the end. A refused read leaves its element alone. -/
def readElements : ℕ → ℕ → List ℕ × Bool
  | 0, _ => ([], true)
  | n + 1, i =>
    match dev.checkBarAccess bar rdAccess (offset + BitVec.ofNat 32 i * incr) with
    | .error _ => ([], false)
    | .ok _ =>
      let r := readElements n (i + 1)
      (i :: r.1, r.2)

/-- The elements that the writing loop reads: each one before its write is refused or not. -/
def writeElements : ℕ → ℕ → List ℕ
  | 0, _ => []
  | n + 1, i =>
    match dev.checkBarAccess bar wrAccess offset with
    | .error _ => [i]
    | .ok _ => i :: writeElements n (i + 1)

def readUse (count : BitVec 32) : BufferUse :=
  let r := dev.readElements bar offset incr count.toNat 0
  ⟨bufferBytes count, r.1, if r.2 then some (bufferBytes count) else none⟩

/-- The buffer of the writing ioctl, copied in before the loop. -/
def writeUse (count : BitVec 32) : BufferUse :=
  ⟨bufferBytes count, dev.writeElements bar offset count.toNat 0, some (bufferBytes count)⟩

def bufferUse (sys : Services) (cmd : RangeCmd) (count : BitVec 32) : BufferUse :=
  if ¬ (sys.argCopied ∧ sys.allocated) then ⟨0, [], none⟩
  else
    match cmd with
    | .readRange => dev.readUse bar offset RangeCmd.readRange.incr count
    | .readRepeat => dev.readUse bar offset RangeCmd.readRepeat.incr count
    | .writeRepeat => dev.writeUse bar offset count

end BifrostDevice

/-- Every element is inside the allocation, and a copy moves four bytes for each register. -/
structure HoldsElements (count : BitVec 32) (u : BufferUse) : Prop where
  inside : ∀ i ∈ u.elements, 4 * i + 4 ≤ u.allocated
  copied : ∀ n, u.copied = some n → n = 4 * count.toNat

def BifrostDevice.Refused (dev : BifrostDevice) (bar offset incr : BitVec 32) (i : ℕ) : Prop :=
  ∃ e, dev.checkBarAccess bar rdAccess (offset + BitVec.ofNat 32 i * incr) = .error e

namespace BifrostDevice
variable {dev : BifrostDevice} {sys : Services} {bar offset incr count : BitVec 32}

theorem bufferBytes_eq (count : BitVec 32) : bufferBytes count = 4 * (count.toNat % 2 ^ 30) := by
  have hfour : (4 : BitVec 32).toNat = 4 := rfl
  rw [bufferBytes, BitVec.toNat_mul, hfour]
  omega

/-- The loop writes the elements before the first refused read. -/
theorem mem_readElements (n i j : ℕ) : j ∈ (dev.readElements bar offset incr n i).1 ↔
    i ≤ j ∧ j < i + n ∧ ∀ k, i ≤ k → k ≤ j → ¬ dev.Refused bar offset incr k := by
  induction n generalizing i with
  | zero =>
    simp only [readElements, List.not_mem_nil, add_zero, false_iff]
    omega
  | succ n ih =>
    rw [readElements]
    cases h : dev.checkBarAccess bar rdAccess (offset + BitVec.ofNat 32 i * incr) with
    | error e =>
      refine iff_of_false List.not_mem_nil ?_
      rintro ⟨hij, -, hall⟩
      exact hall i le_rfl hij ⟨e, h⟩
    | ok b =>
      have hi : ¬ dev.Refused bar offset incr i := by
        rintro ⟨e, he⟩
        rw [h] at he
        cases he
      rw [List.mem_cons, ih]
      constructor
      · rintro (rfl | ⟨hij, hjn, hall⟩)
        · exact ⟨le_rfl, by omega, fun k hk hkj => le_antisymm hkj hk ▸ hi⟩
        · refine ⟨by omega, by omega, fun k hk hkj => ?_⟩
          rcases Nat.eq_or_lt_of_le hk with rfl | hlt
          · exact hi
          · exact hall k hlt hkj
      · rintro ⟨hij, hjn, hall⟩
        rcases Nat.eq_or_lt_of_le hij with rfl | hlt
        · exact .inl rfl
        · exact .inr ⟨hlt, by omega, fun k hk hkj => hall k (by omega) hkj⟩

theorem readElements_complete (n i : ℕ) : (dev.readElements bar offset incr n i).2 = true ↔
    ∀ k, i ≤ k → k < i + n → ¬ dev.Refused bar offset incr k := by
  induction n generalizing i with
  | zero => exact iff_of_true rfl fun k hk hki => absurd hki (by omega)
  | succ n ih =>
    rw [readElements]
    cases h : dev.checkBarAccess bar rdAccess (offset + BitVec.ofNat 32 i * incr) with
    | error e =>
      exact iff_of_false Bool.false_ne_true fun hall => hall i le_rfl (by omega) ⟨e, h⟩
    | ok b =>
      have hi : ¬ dev.Refused bar offset incr i := by
        rintro ⟨e, he⟩
        rw [h] at he
        cases he
      refine (ih (i + 1)).trans ⟨fun hall k hk hkn => ?_, fun hall k hk hkn => ?_⟩
      · rcases Nat.eq_or_lt_of_le hk with rfl | hlt
        · exact hi
        · exact hall k hlt (by omega)
      · exact hall k (by omega) (by omega)

theorem mem_writeElements {n i j : ℕ} (h : j ∈ dev.writeElements bar offset n i) : j < i + n := by
  induction n generalizing i with
  | zero => cases h
  | succ n ih =>
    rw [writeElements] at h
    cases hcheck : dev.checkBarAccess bar wrAccess offset with
    | error e =>
      rw [hcheck] at h
      rw [List.mem_singleton.mp h]
      omega
    | ok b =>
      rw [hcheck] at h
      rcases List.mem_cons.mp h with rfl | h
      · omega
      · have hj := ih h
        omega

theorem bufferBytes_of_lt (hcount : count.toNat < 2 ^ 30) :
    bufferBytes count = 4 * count.toNat := by
  rw [bufferBytes_eq, Nat.mod_eq_of_lt hcount]

theorem readUse_holds_iff : HoldsElements count (dev.readUse bar offset incr count) ↔
    count.toNat < 2 ^ 30 ∨ ∃ i ≤ count.toNat % 2 ^ 30, dev.Refused bar offset incr i := by
  constructor
  · intro h
    by_cases hcount : count.toNat < 2 ^ 30
    · exact .inl hcount
    · right
      by_contra hno
      -- The first element outside the allocation is reached.
      have hmem : count.toNat % 2 ^ 30 ∈ (dev.readElements bar offset incr count.toNat 0).1 := by
        rw [mem_readElements]
        refine ⟨Nat.zero_le _, by omega, fun k _ hk hrefused => hno ⟨k, hk, hrefused⟩⟩
      have hinside : 4 * (count.toNat % 2 ^ 30) + 4 ≤ bufferBytes count := h.inside _ hmem
      rw [bufferBytes_eq] at hinside
      omega
  · intro h
    by_cases hcount : count.toNat < 2 ^ 30
    · refine ⟨fun i hi => ?_, fun n hn => ?_⟩
      · have hlt := ((mem_readElements _ _ _).mp hi).2.1
        change 4 * i + 4 ≤ bufferBytes count
        rw [bufferBytes_of_lt hcount]
        omega
      · have hsome : n = bufferBytes count := by
          dsimp only [readUse] at hn
          split at hn
          · exact (Option.some.inj hn).symm
          · cases hn
        rw [hsome, bufferBytes_of_lt hcount]
    · obtain ⟨k, hk, hrefused⟩ := h.resolve_left hcount
      refine ⟨fun i hi => ?_, fun n hn => ?_⟩
      · obtain ⟨-, -, hall⟩ := (mem_readElements _ _ _).mp hi
        have hlt : i < k := by
          by_contra hge
          exact hall k (Nat.zero_le _) (by omega) hrefused
        change 4 * i + 4 ≤ bufferBytes count
        rw [bufferBytes_eq]
        omega
      · have hcomplete : ¬ (dev.readElements bar offset incr count.toNat 0).2 = true := by
          intro hall
          exact (readElements_complete _ _).mp hall k (Nat.zero_le _) (by omega) hrefused
        simp only [readUse, hcomplete] at hn
        cases hn

/-- The writing ioctl copies before it looks at the BAR. -/
theorem writeUse_holds_iff : HoldsElements count (dev.writeUse bar offset count) ↔
    count.toNat < 2 ^ 30 := by
  constructor
  · intro h
    have hcopied : bufferBytes count = 4 * count.toNat := h.copied _ rfl
    rw [bufferBytes_eq] at hcopied
    omega
  · intro hcount
    refine ⟨fun i hi => ?_, fun n hn => ?_⟩
    · have hlt := mem_writeElements hi
      change 4 * i + 4 ≤ bufferBytes count
      rw [bufferBytes_of_lt hcount]
      omega
    · rw [← Option.some.inj hn, bufferBytes_of_lt hcount]

/-- On a 32-bit kernel the buffer holds every element exactly if there are fewer than 2^30, or
nothing is allocated, or a reading ioctl is refused before it leaves the allocation. -/
theorem bufferUse_holds_iff (dev : BifrostDevice) (bar offset : BitVec 32) (sys : Services)
    (cmd : RangeCmd) (count : BitVec 32) :
    HoldsElements count (dev.bufferUse bar offset sys cmd count) ↔
      ¬ (sys.argCopied ∧ sys.allocated) ∨ count.toNat < 2 ^ 30 ∨
        (cmd ≠ .writeRepeat ∧
          ∃ i ≤ count.toNat % 2 ^ 30, dev.Refused bar offset cmd.incr i) := by
  unfold bufferUse
  by_cases hsys : sys.argCopied ∧ sys.allocated
  · rw [if_neg (not_not.mpr hsys), or_iff_right (not_not.mpr hsys)]
    cases cmd with
    | readRange => simpa using readUse_holds_iff
    | readRepeat => simpa using readUse_holds_iff
    | writeRepeat => simpa using writeUse_holds_iff
  · rw [if_pos hsys]
    exact iff_of_true ⟨nofun, nofun⟩ (.inl hsys)

end BifrostDevice

/-- `READ_REPEAT_REGB` of 2^30 registers gets an empty buffer and writes its first element. -/
theorem elements_outside : ¬ ∀ (dev : BifrostDevice) (bar offset : BitVec 32) (sys : Services)
    (cmd : RangeCmd) (count : BitVec 32),
    HoldsElements count (dev.bufferUse bar offset sys cmd count) := by
  intro h
  have hholds := h (membusDevice false fun _ => true) 0 0 ⟨true, true, true, true⟩ .readRepeat
    0x40000000
  rw [BifrostDevice.bufferUse, if_neg (by decide)] at hholds
  rcases BifrostDevice.readUse_holds_iff.mp hholds with hlt | ⟨i, hi, e, he⟩
  · exact absurd hlt (by decide)
  · obtain rfl := Nat.le_zero.mp hi
    cases he

end BifrostModule.Regb
