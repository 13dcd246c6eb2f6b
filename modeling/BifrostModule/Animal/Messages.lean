import BifrostModule.Foundation.Buffer
import BifrostModule.Foundation.Errno

/-! # The messages of the I2C ioctls

`ANIMAL_IOCTL_I2C_WRITE` and `ANIMAL_IOCTL_I2C_WRITEREAD` of `i2c_main.c` up to the
call of `i2c_transfer`: the limits on the size, the choice between the array on the
stack and a buffer from `kmalloc`, and the messages.
-/
namespace BifrostModule.Animal
open Foundation

def i2cBufferMaxSize : ℕ := 2048

def smbBufferMaxSize : ℕ := 32

/-- `struct i2c_msg`, with the bytes of the buffer that `buf` points to. -/
structure I2cMsg where
  addr : BitVec 16
  read : Bool
  len : BitVec 16
  buf : List (BitVec 8)

/-- The memory of one call of the handler: the array `block` as it is found on the stack, and the
bytes that `kmalloc` returns, if it has any. -/
structure HandlerMemory where
  block : Vector (BitVec 8) smbBufferMaxSize
  fresh : Option (ℕ → BitVec 8)

namespace HandlerMemory
variable (mem : HandlerMemory)

def kmalloc (n : ℕ) : Except Errno (List (BitVec 8)) :=
  match mem.fresh with
  | none => .error .ENOMEM
  | some bytes => .ok (List.ofFn fun i : Fin n => bytes i)

/-- `pblock` for `n` bytes: the buffer `block` is used again when they fit. -/
def pblock (n : ℕ) : Except Errno (List (BitVec 8)) :=
  if n > smbBufferMaxSize then mem.kmalloc n else .ok mem.block.toList

/-- The message of `I2C_WRITE`: the command byte and `size` bytes of the user. -/
def i2cWriteMsgs (addr : BitVec 16) (command : BitVec 8) (size : BitVec 32)
    (user : ℕ → BitVec 8) : Except Errno (List I2cMsg) :=
  if size.toNat > i2cBufferMaxSize then .error .EFAULT
  else (mem.pblock (size + 1).toNat).map fun pblock =>
    let pblock := Buffer.write pblock 1 (List.ofFn fun i : Fin size.toNat => user i)
    [⟨addr, false, (size + 1).setWidth 16, Buffer.write pblock 0 [command]⟩]

/-- The two messages of `I2C_WRITEREAD`: the command byte, and a read of `size` bytes. -/
def i2cWritereadMsgs (addr : BitVec 16) (command : BitVec 8) (size : BitVec 32) :
    Except Errno (List I2cMsg) :=
  if size.toNat > i2cBufferMaxSize then .error .EFAULT
  else (mem.pblock size.toNat).map fun pblock =>
    [⟨addr, false, 1, [command]⟩, ⟨addr, true, size.setWidth 16, pblock⟩]

variable {mem} {addr : BitVec 16} {command : BitVec 8} {size : BitVec 32}

theorem pblock_length {n : ℕ} {buf : List (BitVec 8)} (h : mem.pblock n = .ok buf) :
    n ≤ buf.length := by
  unfold HandlerMemory.pblock at h
  split at h
  · unfold HandlerMemory.kmalloc at h
    split at h
    · cases h
    · cases h
      simp
  · rename_i hn
    cases h
    simpa using hn

/-- The message of `I2C_WRITE` has one byte more than the user asked for, all in its buffer. -/
theorem i2cWriteMsgs_ok {user : ℕ → BitVec 8} {msgs : List I2cMsg}
    (h : mem.i2cWriteMsgs addr command size user = .ok msgs) :
    ∃ msg, msgs = [msg] ∧ msg.read = false ∧ msg.len.toNat = size.toNat + 1 ∧
      msg.len.toNat ≤ msg.buf.length := by
  unfold i2cWriteMsgs at h
  split at h
  · cases h
  · rename_i hsize
    have hle : size.toNat ≤ 2048 := not_lt.mp hsize
    have hnext : (size + 1).toNat = size.toNat + 1 := by
      rw [BitVec.toNat_add]
      exact Nat.mod_eq_of_lt (by simp; omega)
    have hlen : ((size + 1).setWidth 16).toNat = size.toNat + 1 := by
      rw [BitVec.toNat_setWidth, hnext]
      exact Nat.mod_eq_of_lt (by omega)
    obtain ⟨buf, hp, rfl⟩ := map_eq_ok h
    have hroom := pblock_length hp
    refine ⟨_, rfl, rfl, hlen, ?_⟩
    rw [hlen, Buffer.length_write, Buffer.length_write]
    · omega
    · rw [List.length_ofFn]
      omega
    · rw [Buffer.length_write]
      · simp only [List.length_singleton]
        omega
      · rw [List.length_ofFn]
        omega

theorem i2cWritereadMsgs_ok {msgs : List I2cMsg}
    (h : mem.i2cWritereadMsgs addr command size = .ok msgs) :
    ∃ first second, msgs = [first, second] ∧
      (first.read = false ∧ first.len.toNat = 1 ∧ first.buf.length = 1) ∧
      second.read = true ∧ second.len.toNat = size.toNat ∧
        second.len.toNat ≤ second.buf.length := by
  unfold i2cWritereadMsgs at h
  split at h
  · cases h
  · rename_i hsize
    have hle : size.toNat ≤ 2048 := not_lt.mp hsize
    have hlen : (size.setWidth 16).toNat = size.toNat := by
      rw [BitVec.toNat_setWidth]
      exact Nat.mod_eq_of_lt (by omega)
    obtain ⟨buf, hp, rfl⟩ := map_eq_ok h
    have hroom := pblock_length hp
    exact ⟨_, _, rfl, ⟨rfl, rfl, rfl⟩, rfl, hlen, hlen.le.trans hroom⟩

end HandlerMemory
end BifrostModule.Animal
