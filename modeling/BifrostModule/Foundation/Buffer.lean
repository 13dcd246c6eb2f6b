import Mathlib

/-! # Buffers and the copies between them

A buffer is the list of its elements. A copy is kept as the number of elements it
moves and the number that its source and its destination have from where it starts.
-/
namespace BifrostModule.Foundation

structure Copy where
  count : ℕ
  source : ℕ
  dest : ℕ
  deriving DecidableEq

def Copy.Inside (c : Copy) : Prop := c.count ≤ c.source ∧ c.count ≤ c.dest

instance (c : Copy) : Decidable c.Inside := inferInstanceAs (Decidable (_ ∧ _))

namespace Buffer
variable {α : Type*}

/-- The first `n` elements, `none` when the buffer ends before. -/
def read (b : List α) (n : ℕ) : Option (List α) := if n ≤ b.length then some (b.take n) else none

def write (b : List α) (i : ℕ) (new : List α) : List α :=
  b.take i ++ new ++ b.drop (i + new.length)

theorem length_write {b new : List α} {i : ℕ} (h : i + new.length ≤ b.length) :
    (write b i new).length = b.length := by
  simp only [write, List.length_append, List.length_take, List.length_drop]
  omega

theorem read_write {b new : List α} (h : new.length ≤ b.length) :
    read (write b 0 new) new.length = some new := by
  have hlen : new.length ≤ (write b 0 new).length := by
    rw [length_write (by omega)]
    exact h
  rw [read, if_pos hlen]
  simp [write]

end Buffer
end BifrostModule.Foundation
