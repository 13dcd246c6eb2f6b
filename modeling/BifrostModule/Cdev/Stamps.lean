import BifrostModule.Foundation.BitFields
import BifrostModule.Cdev.Payload

/-! # What the words of a frame event hold

`FVDIRQ2Service` packs eleven fields of seven registers into `frameNo` and `frameSize`.
-/
namespace BifrostModule.Cdev
open Foundation

section Fields
variable (regs : Registers)

def Registers.Ec501 : Prop := regs.read 0x23 &&& 0xFFFF = 0x19 ∨ regs.read 0x23 &&& 0xFFFF = 0x1F

def frameTime0 : BitVec 4 := (regs.read 0x14F).extractLsb' 0 4

/-- The fields of `frameNo`: the buffer, the line state, the trig state, the frame time stamps of
the two channels and the frame count. -/
def frameNoFields (channel0 : BitVec 4) : List (BitField 32) :=
  [⟨0, 4, (regs.read 0xb9).extractLsb' 0 4⟩, ⟨4, 1, (regs.read 0x152).extractLsb' 0 1⟩,
    ⟨5, 1, (regs.read 0x152).extractLsb' 8 1⟩, ⟨6, 1, (regs.read 0x14E).extractLsb' 0 1⟩,
    ⟨7, 1, (regs.read 0x14E).extractLsb' 8 1⟩, ⟨8, 4, channel0⟩,
    ⟨12, 4, (regs.read 0x150).extractLsb' 8 4⟩, ⟨16, 16, (regs.read 0x153).extractLsb' 0 16⟩]

def frameSizeFields : List (BitField 32) :=
  [⟨0, 8, (regs.read 0x14F).extractLsb' 8 8⟩, ⟨8, 8, (regs.read 0x150).extractLsb' 0 8⟩,
    ⟨16, 16, (regs.read 0x151).extractLsb' 0 16⟩]

/-- Every field can be taken out of its word of the event, and no two fields share a bit. -/
structure StampsKept (w : PaddedEvent) : Prop where
  frameNo : ∀ f ∈ frameNoFields regs (frameTime0 regs), f.InWord (w.event.data 1)
  frameSize : ∀ f ∈ frameSizeFields regs, f.InWord (w.event.data 2)
  frameNoApart : (frameNoFields regs (frameTime0 regs)).Pairwise BitField.Apart
  frameSizeApart : (frameSizeFields regs).Pairwise BitField.Apart

theorem frameNoFields_apart (channel0 : BitVec 4) :
    (frameNoFields regs channel0).Pairwise BitField.Apart := by
  simp [frameNoFields, BitField.Apart]

theorem frameSizeFields_apart : (frameSizeFields regs).Pairwise BitField.Apart := by
  simp [frameSizeFields, BitField.Apart]

theorem frameNoFields_fit (channel0 : BitVec 4) :
    ∀ f ∈ frameNoFields regs channel0, f.offset + f.width ≤ 32 := by
  simp [frameNoFields]

theorem frameSizeFields_fit : ∀ f ∈ frameSizeFields regs, f.offset + f.width ≤ 32 := by
  simp [frameSizeFields]

/-- The mask is shifted before it is applied, so the nibble of channel 0 is the one that the line
time stamp begins with. -/
theorem lineState_frameNo (event : PaddedEvent) :
    (lineState regs event).event.data 1 =
      BitField.pack (frameNoFields regs ((regs.read 0x14F).extractLsb' 8 4)) := by
  have hword : (lineState regs event).event.data 1 =
      (BitField.flag (regs.read 0x14E) 8 7 (BitField.flag (regs.read 0x14E) 0 6
        (BitField.flag (regs.read 0x152) 8 5 (BitField.flag (regs.read 0x152) 0 4
          (regs.read 0xb9 &&& BitVec.ofNat 32 (2 ^ 4 - 1)))))) |||
        (regs.read 0x14F &&& (BitVec.ofNat 32 (2 ^ 4 - 1) <<< 8)) |||
        (((regs.read 0x150 >>> 8) &&& BitVec.ofNat 32 (2 ^ 4 - 1)) <<< 12) |||
        (regs.read 0x153 <<< 16) := rfl
  rw [hword, BitField.flag_eq _ (by decide), BitField.flag_eq _ (by decide),
    BitField.flag_eq _ (by decide), BitField.flag_eq _ (by decide), BitField.and_mask,
    BitField.and_shifted_mask, BitField.shift_and_mask, BitField.shiftLeft_low _ 16 16 le_rfl]
  simp [BitField.pack, frameNoFields, BitField.bits]

theorem lineState_frameSize (event : PaddedEvent) :
    (lineState regs event).event.data 2 = BitField.pack (frameSizeFields regs) := by
  have hword : (lineState regs event).event.data 2 =
      ((regs.read 0x14F >>> 8) &&& BitVec.ofNat 32 (2 ^ 8 - 1)) |||
        ((regs.read 0x150 &&& BitVec.ofNat 32 (2 ^ 8 - 1)) <<< 8) |||
        ((regs.read 0x151 &&& BitVec.ofNat 32 (2 ^ 16 - 1)) <<< 16) := rfl
  rw [hword, BitField.shift_and_mask, BitField.and_mask, BitField.and_mask]
  simp [BitField.pack, frameSizeFields, BitField.bits]

variable {regs} {now : BitVec 64 × BitVec 64} {stack w : PaddedEvent}

theorem words_of_ec501 (h : regs.Ec501) (now : BitVec 64 × BitVec 64) (stack : PaddedEvent) :
    ∃ w, fvdIrq2Service regs now stack = [w] ∧
      w.event.data 1 =
        BitField.pack (frameNoFields regs ((regs.read 0x14F).extractLsb' 8 4)) ∧
      w.event.data 2 = BitField.pack (frameSizeFields regs) := by
  have hcamtype : regs.read 0x23 &&& 0xFFFF = 0x19 ∨ regs.read 0x23 &&& 0xFFFF = 0x1F := h
  refine ⟨_, rfl, ?_, ?_⟩
  · rw [← lineState_frameNo regs stack.memset, fvdIrq2Report, if_pos hcamtype]
    rfl
  · rw [← lineState_frameSize regs stack.memset, fvdIrq2Report, if_pos hcamtype]
    rfl

/-- The stamps are kept exactly if the frame time stamp of channel 0 is the nibble that is packed
in its place. -/
theorem stamps_kept_iff (h : regs.Ec501) :
    (∃ w, fvdIrq2Service regs now stack = [w] ∧ StampsKept regs w) ↔
      frameTime0 regs = (regs.read 0x14F).extractLsb' 8 4 := by
  obtain ⟨w, hw, hframeNo, hframeSize⟩ := words_of_ec501 h now stack
  constructor
  · rintro ⟨w', hw', hkept⟩
    obtain rfl : w = w' := List.singleton_injective (hw.symm.trans hw')
    -- The place of channel 0 holds the other nibble.
    have hplace : (⟨8, 4, frameTime0 regs⟩ : BitField 32).InWord (w.event.data 1) :=
      hkept.frameNo _ (by simp [frameNoFields])
    have hpacked := BitField.inWord_pack
      (frameNoFields_apart regs ((regs.read 0x14F).extractLsb' 8 4))
      (f := ⟨8, 4, (regs.read 0x14F).extractLsb' 8 4⟩) (by simp [frameNoFields]) (by simp)
    rw [← hframeNo] at hpacked
    exact hplace.symm.trans hpacked
  · intro hsame
    refine ⟨w, hw, ?_, ?_, frameNoFields_apart regs _, frameSizeFields_apart regs⟩
    · intro f hf
      rw [hframeNo, ← hsame]
      exact BitField.inWord_pack (frameNoFields_apart regs _) hf (frameNoFields_fit regs _ f hf)
    · intro f hf
      rw [hframeSize]
      exact BitField.inWord_pack (frameSizeFields_apart regs) hf (frameSizeFields_fit regs f hf)

end Fields

def ec501Registers (hd2 : BitVec 16) : Registers :=
  fun offset => if offset = 0x23 then 0x19 else if offset = 0x14F then hd2 else 0

theorem ec501Registers_ec501 (hd2 : BitVec 16) : (ec501Registers hd2).Ec501 := by
  left
  simp [ec501Registers, Registers.read]

/-- An EC501 with stamps in all registers, the two nibbles of the second half of the frame data
being the same. -/
def stampedRegisters : Registers := fun offset =>
  if offset = 0x23 then 0x19
  else if offset = 0xb9 then 0x7
  else if offset = 0x14E then 0x100
  else if offset = 0x14F then 0x3A5A
  else if offset = 0x150 then 0x0C81
  else if offset = 0x151 then 0xBEEF
  else if offset = 0x152 then 0x101
  else if offset = 0x153 then 0x1234
  else 0

theorem stamps_kept_stamped :
    stampedRegisters.Ec501 ∧ frameTime0 stampedRegisters = 0xA ∧
      ∃ w, fvdIrq2Service stampedRegisters (0, 0) (filled 0) = [w] ∧
        StampsKept stampedRegisters w := by
  have hec501 : stampedRegisters.Ec501 := .inl (by decide)
  exact ⟨hec501, by decide, (stamps_kept_iff hec501).mpr (by decide)⟩

/-- Two frames that differ in the time stamp of channel 0 have the same words, so that nothing
recovers it. -/
theorem channel0_lost : ¬ ∃ recover : BitVec 32 → BitVec 32 → BitVec 4,
    ∀ (regs : Registers) (now : BitVec 64 × BitVec 64) (stack w : PaddedEvent), regs.Ec501 →
      fvdIrq2Service regs now stack = [w] →
      recover (w.event.data 1) (w.event.data 2) = frameTime0 regs := by
  rintro ⟨recover, h⟩
  have hwords : ∀ hd2, recover
      (BitField.pack (frameNoFields (ec501Registers hd2)
        (((ec501Registers hd2).read 0x14F).extractLsb' 8 4)))
      (BitField.pack (frameSizeFields (ec501Registers hd2))) = frameTime0 (ec501Registers hd2) := by
    intro hd2
    obtain ⟨w, hw, hframeNo, hframeSize⟩ :=
      words_of_ec501 (ec501Registers_ec501 hd2) (0, 0) (filled 0)
    rw [← hframeNo, ← hframeSize]
    exact h _ _ _ w (ec501Registers_ec501 hd2) hw
  have hsame : frameTime0 (ec501Registers 0) = frameTime0 (ec501Registers 1) :=
    (hwords 0).symm.trans (hwords 1)
  exact absurd hsame (by decide)

end BifrostModule.Cdev
