import BifrostModule.Animal.Messages

/-! # The read of `I2C_WRITEREAD`

The device delivers into `pblock`, but the ioctl copies `block` to the user. The
two are the same buffer as long as the read fits in the array on the stack.
-/
namespace BifrostModule.Animal
open Foundation

/-- What `i2c_transfer` returns, and what the device has put into the buffer of the read. -/
structure Transferred where
  rc : Except Errno ℕ
  delivered : List (BitVec 8)

/-- A `copy_to_user` and the bytes it copies, `none` when it reads beyond its buffer. -/
structure UserCopy where
  copy : Copy
  bytes : Option (List (BitVec 8))

def copyToUser (buf : List (BitVec 8)) (n room : ℕ) : UserCopy :=
  ⟨⟨n, buf.length, room⟩, Buffer.read buf n⟩

/-- The return value, the copy to the user if one is made, and the calls of `kmalloc` that
succeeded and of `kfree`. -/
structure Outcome where
  rc : Except Errno Unit
  sent : Option UserCopy
  allocated : ℕ
  freed : ℕ

namespace HandlerMemory
variable (mem : HandlerMemory)

/-- `ANIMAL_IOCTL_I2C_WRITEREAD`, for a user with `room` in its block; `userOk` is whether the copy
to the user succeeds. -/
def i2cWriteread (transfer : List I2cMsg → Transferred) (userOk : Bool) (room : ℕ)
    (addr : BitVec 16) (command : BitVec 8) (size : BitVec 32) : Outcome :=
  match mem.i2cWritereadMsgs addr command size with
  | .error err => ⟨.error err, none, 0, 0⟩
  | .ok msgs =>
    let heap := size.toNat > smbBufferMaxSize
    let t := transfer msgs
    let block :=
      if heap then mem.block.toList else Buffer.write mem.block.toList 0 t.delivered
    let p : Except Errno Unit × Option UserCopy :=
      match t.rc with
      | .error err => (.error err, none)
      | .ok _ =>
        (if userOk then .ok () else .error .EFAULT, some (copyToUser block size.toNat room))
    ⟨p.1, p.2, if heap then 1 else 0, if heap then 1 else 0⟩

end HandlerMemory

namespace Outcome

/-- The user gets the bytes of the device, by a copy inside its buffers, and what was allocated is
freed. -/
def Returns (o : Outcome) (data : List (BitVec 8)) : Prop :=
  (∃ c, o.sent = some c ∧ c.bytes = some data ∧ c.copy.Inside) ∧ o.freed = o.allocated

end Outcome

variable {mem : HandlerMemory} {transfer : List I2cMsg → Transferred} {addr : BitVec 16}
  {command : BitVec 8} {size : BitVec 32} {room : ℕ}

/-- The heap buffer is freed on every path that allocated it. -/
theorem HandlerMemory.i2cWriteread_freed (userOk : Bool) :
    (mem.i2cWriteread transfer userOk room addr command size).freed =
      (mem.i2cWriteread transfer userOk room addr command size).allocated := by
  unfold HandlerMemory.i2cWriteread
  split <;> rfl

theorem HandlerMemory.i2cWritereadMsgs_total (addr : BitVec 16) (command : BitVec 8)
    (hsize : size.toNat ≤ i2cBufferMaxSize)
    (hmem : mem.fresh.isSome) : ∃ msgs, mem.i2cWritereadMsgs addr command size = .ok msgs := by
  obtain ⟨bytes, hfresh⟩ := Option.isSome_iff_exists.mp hmem
  have hblock : ∃ buf, mem.pblock size.toNat = .ok buf := by
    unfold HandlerMemory.pblock HandlerMemory.kmalloc
    rw [hfresh]
    split <;> exact ⟨_, rfl⟩
  obtain ⟨buf, hbuf⟩ := hblock
  rw [HandlerMemory.i2cWritereadMsgs, if_neg (not_lt.mpr hsize), hbuf]
  exact ⟨_, rfl⟩

/-- After a successful transfer, the user gets what the device has delivered exactly if it fits in
the array on the stack. -/
theorem writeread_returns_iff {data : List (BitVec 8)} (hsize : size.toNat ≤ i2cBufferMaxSize)
    (hmem : mem.fresh.isSome) (hlen : data.length = size.toNat) (hroom : size.toNat ≤ room)
    (hok : ∀ msgs, transfer msgs = ⟨.ok 2, data⟩) :
    (mem.i2cWriteread transfer true room addr command size).Returns data ↔
      size.toNat ≤ smbBufferMaxSize := by
  obtain ⟨msgs, hmsgs⟩ := mem.i2cWritereadMsgs_total addr command hsize hmem
  have hsent : (mem.i2cWriteread transfer true room addr command size).sent =
      some (copyToUser (if size.toNat > smbBufferMaxSize then mem.block.toList
        else Buffer.write mem.block.toList 0 data) size.toNat room) := by
    simp [HandlerMemory.i2cWriteread, hmsgs, hok]
  have hblock : mem.block.toList.length = smbBufferMaxSize := by simp
  constructor
  · rintro ⟨⟨c, hc, -, hinside⟩, -⟩
    obtain rfl := Option.some.inj (hsent.symm.trans hc)
    by_contra hgt
    have hread := hinside.1
    rw [if_pos (not_le.mp hgt)] at hread
    exact hgt (hread.trans hblock.le)
  · intro hle
    rw [if_neg (not_lt.mpr hle)] at hsent
    have hfits : data.length ≤ mem.block.toList.length := by omega
    refine ⟨⟨_, hsent, hlen ▸ Buffer.read_write hfits, ?_, hroom⟩,
      HandlerMemory.i2cWriteread_freed true⟩
    change size.toNat ≤ (Buffer.write mem.block.toList 0 data).length
    rw [Buffer.length_write (by omega)]
    omega

theorem writeread_returns_three : ((⟨.replicate _ 0, some fun _ => 0⟩ : HandlerMemory).i2cWriteread
    (fun _ => ⟨.ok 2, [1, 2, 3]⟩) true 3 0x20 7 3).Returns [1, 2, 3] := by
  have hsize : (3 : BitVec 32).toNat ≤ i2cBufferMaxSize := by decide
  have hfits : (3 : BitVec 32).toNat ≤ smbBufferMaxSize := by decide
  exact (writeread_returns_iff hsize rfl rfl le_rfl fun _ => rfl).mpr hfits

/-- A read of 33 bytes reaches the user from beyond the array on the stack. -/
theorem writeread_beyond_block : ¬ ∀ (mem : HandlerMemory) (transfer : List I2cMsg → Transferred)
    (addr : BitVec 16) (command : BitVec 8) (size : BitVec 32) (room : ℕ)
    (data : List (BitVec 8)), size.toNat ≤ i2cBufferMaxSize → mem.fresh.isSome →
    data.length = size.toNat → size.toNat ≤ room → (∀ msgs, transfer msgs = ⟨.ok 2, data⟩) →
    (mem.i2cWriteread transfer true room addr command size).Returns data := by
  intro h
  obtain ⟨⟨c, hc, -, hinside⟩, -⟩ := h ⟨.replicate _ 0, some fun _ => 0⟩
    (fun _ => ⟨.ok 2, List.replicate 33 7⟩) 0x20 7 33 33 (List.replicate 33 7) (by decide) rfl rfl
    le_rfl fun _ => rfl
  obtain rfl := Option.some.inj hc
  exact absurd hinside.1 (by decide)

end BifrostModule.Animal
