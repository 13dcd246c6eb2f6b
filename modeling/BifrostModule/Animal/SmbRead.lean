import BifrostModule.Animal.Messages

/-! # What the SMBus reads show of the handler's stack

The reads of a byte and of a word put the value that the bus returns. The read of a
block copies as many bytes as the user asks for out of the array `block`, whatever
number the device has delivered into it.
-/
namespace BifrostModule.Animal
open Foundation

abbrev BlockData := { data : List (BitVec 8) // data.length ≤ smbBufferMaxSize }

/-- The reads of the SMBus core for the client of the handle, by command. -/
structure SmBus where
  readByteData : BitVec 8 → Except Errno (BitVec 32)
  readWordData : BitVec 8 → Except Errno (BitVec 32)
  readBlockData : BitVec 8 → Except Errno BlockData

/-- What an ioctl finds at its user: the fields that `get_user` reads, `none` where it fails, and
how many bytes can be written before a fault. -/
structure UserMessage where
  command : Option (BitVec 8)
  size : Option (BitVec 32)
  writable : ℕ

/-- The return value of an ioctl and the bytes that it has written to its user. -/
structure SmbOutcome where
  rc : Except Errno Unit
  written : List (BitVec 8)
  deriving DecidableEq

inductive SmbRead where
  | read8
  | read16
  | readBlock
  deriving DecidableEq

section Ioctls
variable (bus : SmBus) (user : UserMessage)

/-- `put_user`, which writes all of the bytes or none. -/
def putUser (bytes : List (BitVec 8)) : SmbOutcome :=
  if bytes.length ≤ user.writable then ⟨.ok (), bytes⟩ else ⟨.error .EFAULT, []⟩

/-- The read of a value, whose bytes are put if it is no error. -/
def smbReadValue (read : BitVec 8 → Except Errno (BitVec 32))
    (bytes : BitVec 32 → List (BitVec 8)) : SmbOutcome :=
  match user.command with
  | none => ⟨.error .EFAULT, []⟩
  | some command =>
    match read command with
    | .error err => ⟨.error err, []⟩
    | .ok rc => putUser user (bytes rc)

def smbRead8 : SmbOutcome :=
  smbReadValue user bus.readByteData fun rc => [rc.extractLsb' 0 8]

def smbRead16 : SmbOutcome :=
  smbReadValue user bus.readWordData fun rc => [rc.extractLsb' 0 8, rc.extractLsb' 8 8]

/-- `copy_to_user`, which writes up to a fault. -/
def copyOut (block : List (BitVec 8)) (size : ℕ) : SmbOutcome :=
  if user.writable < size then ⟨.error .EFAULT, block.take user.writable⟩
  else ⟨.ok (), block.take size⟩

def smbReadBlock (block : Vector (BitVec 8) smbBufferMaxSize) : SmbOutcome :=
  match user.command, user.size with
  | some command, some size =>
    let size := if size.toNat > smbBufferMaxSize then smbBufferMaxSize else size.toNat
    match bus.readBlockData command with
    | .error err => ⟨.error err, []⟩
    | .ok data => copyOut user (Buffer.write block.toList 0 data.val) size
  | _, _ => ⟨.error .EFAULT, []⟩

/-- The SMBus reads of `do_animal_ioctl`, with the array `block` as it is found on the stack. -/
def smbRead (block : Vector (BitVec 8) smbBufferMaxSize) : SmbRead → SmbOutcome
  | .read8 => smbRead8 bus user
  | .read16 => smbRead16 bus user
  | .readBlock => smbReadBlock bus user block

/-- The user gets the same bytes whatever is on the stack, and those of a block are the bytes that
the device has delivered. -/
structure OnlyDeviceData (kind : SmbRead) : Prop where
  same : ∀ block block',
    (smbRead bus user block kind).written = (smbRead bus user block' kind).written
  delivered : kind = .readBlock → ∀ (command : BitVec 8) (data : BlockData),
    user.command = some command → bus.readBlockData command = .ok data → ∀ block (i : ℕ) byte,
      (smbRead bus user block kind).written[i]? = some byte → data.val[i]? = some byte

end Ioctls

theorem take_write {b data : List (BitVec 8)} {n : ℕ} (h : n ≤ data.length) :
    (Buffer.write b 0 data).take n = data.take n := by
  rw [Buffer.write, List.take_zero, List.nil_append, List.take_append_of_le_length h]

variable {bus : SmBus} {user : UserMessage} {block : Vector (BitVec 8) smbBufferMaxSize}

theorem copyOut_written (block : List (BitVec 8)) (size : ℕ) :
    (copyOut user block size).written = block.take (min user.writable size) := by
  unfold copyOut
  split_ifs with h
  · rw [min_eq_left h.le]
  · rw [min_eq_right (not_lt.mp h)]

/-- The block that reaches the user is cut to what is asked for and what can be written. -/
theorem readBlock_written {command : BitVec 8} {size : BitVec 32} {data : BlockData}
    (hcommand : user.command = some command) (hsize : user.size = some size)
    (hdata : bus.readBlockData command = .ok data) :
    (smbReadBlock bus user block).written = (Buffer.write block.toList 0 data.val).take
      (min user.writable (min size.toNat smbBufferMaxSize)) := by
  have hmin : (if size.toNat > smbBufferMaxSize then smbBufferMaxSize else size.toNat) =
      min size.toNat smbBufferMaxSize := by
    split_ifs with h
    · rw [min_eq_right h.le]
    · rw [min_eq_left (not_lt.mp h)]
  rw [smbReadBlock, hcommand, hsize]
  dsimp only
  rw [hdata]
  dsimp only
  rw [copyOut_written, hmin]

theorem readBlock_none (h : ∀ command size data, user.command = some command →
    user.size = some size → bus.readBlockData command ≠ .ok data) :
    (smbReadBlock bus user block).written = [] := by
  unfold smbReadBlock
  split
  · rename_i command size hcommand hsize
    cases hdata : bus.readBlockData command with
    | error err => rfl
    | ok data => exact absurd hdata (h command size data hcommand hsize)
  · rfl

/-- The SMBus reads show device data only, exactly if a block that is read has as many bytes as
reach the user. -/
theorem onlyDeviceData_iff {kind : SmbRead} :
    OnlyDeviceData bus user kind ↔ (kind = .readBlock → ∀ command size data,
      user.command = some command → user.size = some size →
      bus.readBlockData command = .ok data →
      min user.writable (min size.toNat smbBufferMaxSize) ≤ data.val.length) := by
  constructor
  · rintro h rfl command size data hcommand hsize hdata
    by_contra hlong
    have hshort := not_le.mp hlong
    -- The byte after the last one that was delivered is copied as well.
    let block : Vector (BitVec 8) smbBufferMaxSize := .replicate _ 0
    have hlen : (Buffer.write block.toList 0 data.val).length = smbBufferMaxSize := by
      rw [Buffer.length_write]
      · simp [block]
      · simpa [block] using data.property
    have hwritten : (smbReadBlock bus user block).written = _ :=
      readBlock_written hcommand hsize hdata
    have hbound : data.val.length < (smbReadBlock bus user block).written.length := by
      rw [hwritten, List.length_take, hlen]
      omega
    have hnone := h.delivered rfl command data hcommand hdata block data.val.length _
      (List.getElem?_eq_getElem hbound)
    simp at hnone
  · intro h
    cases kind with
    | read8 => exact ⟨fun _ _ => rfl, fun hkind => nomatch hkind⟩
    | read16 => exact ⟨fun _ _ => rfl, fun hkind => nomatch hkind⟩
    | readBlock =>
      by_cases hread : ∃ command size data, user.command = some command ∧ user.size = some size ∧
          bus.readBlockData command = .ok data
      · obtain ⟨command, size, data, hcommand, hsize, hdata⟩ := hread
        have hfits := h rfl command size data hcommand hsize hdata
        have hwritten : ∀ block, (smbReadBlock bus user block).written = data.val.take
            (min user.writable (min size.toNat smbBufferMaxSize)) := by
          intro block
          rw [readBlock_written hcommand hsize hdata, take_write hfits]
        constructor
        · intro block block'
          exact (hwritten block).trans (hwritten block').symm
        · intro _ command' data' hcommand' hdata' block i byte hbyte
          obtain rfl := Option.some.inj (hcommand.symm.trans hcommand')
          obtain rfl := Except.ok.inj (hdata.symm.trans hdata')
          rw [smbRead, hwritten block, List.getElem?_take] at hbyte
          split_ifs at hbyte
          exact hbyte
      · have hnone : ∀ block, (smbReadBlock bus user block).written = [] := by
          intro block
          apply readBlock_none
          intro command size data hcommand hsize hdata
          exact hread ⟨command, size, data, hcommand, hsize, hdata⟩
        constructor
        · intro block block'
          exact (hnone block).trans (hnone block').symm
        · intro _ _ _ _ _ block i byte hbyte
          rw [smbRead, hnone block] at hbyte
          cases hbyte

theorem block_leaks : ¬ ∀ (bus : SmBus) (user : UserMessage) (kind : SmbRead),
    OnlyDeviceData bus user kind := by
  intro h
  have hsame := (h ⟨fun _ => .ok 0, fun _ => .ok 0, fun _ => .ok ⟨[7], by decide⟩⟩
    ⟨some 0, some 2, 32⟩ .readBlock).same (.replicate _ 0) (.replicate _ 1)
  revert hsame
  decide

end BifrostModule.Animal
