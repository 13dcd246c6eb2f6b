import BifrostModule.Foundation.Machine

/-! # Error numbers

Kernel functions return a negative errno; a result or an errno is an `Except`.
-/
namespace BifrostModule.Foundation

inductive Errno where
  | EIO
  | ENOMEM
  | EACCES
  | EFAULT
  | EBUSY
  | ENODEV
  | EINVAL
  | ENOTTY
  | EPROTO
  | ETIMEDOUT
  | ERESTARTSYS
  deriving DecidableEq, Repr

/-- The value a function returns for the error. -/
def Errno.toInt : Errno → ℤ
  | EIO => -5
  | ENOMEM => -12
  | EACCES => -13
  | EFAULT => -14
  | EBUSY => -16
  | ENODEV => -19
  | EINVAL => -22
  | ENOTTY => -25
  | EPROTO => -71
  | ETIMEDOUT => -110
  | ERESTARTSYS => -512

theorem Errno.toInt_neg (e : Errno) : e.toInt < 0 := by
  cases e <;> decide

def maxErrno : ℤ := 4095

def IsErrno (rc : ℤ) : Prop := -maxErrno ≤ rc ∧ rc < 0

theorem Errno.isErrno (e : Errno) : IsErrno e.toInt := by
  unfold IsErrno maxErrno
  cases e <;> decide

theorem map_eq_ok {ε α β : Type*} {f : α → β} {x : Except ε α} {b : β} (h : x.map f = .ok b) :
    ∃ a, x = .ok a ∧ f a = b := by
  cases x with
  | error e => cases h
  | ok a => exact ⟨a, rfl, Except.ok.inj h⟩

end BifrostModule.Foundation
