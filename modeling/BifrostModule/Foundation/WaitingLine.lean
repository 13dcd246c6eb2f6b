import Mathlib

/-! # Waiting lines

Members join a line at its end and are served from its front. One that gives up
withdraws from anywhere. Who does not withdraw is served after at most as many
turns as there were members ahead.
-/
namespace BifrostModule.Foundation.WaitingLine
variable {α : Type*} [DecidableEq α]

inductive Move (α : Type*) where
  | join (a : α)
  | serve
  | withdraw (a : α)
  deriving DecidableEq

def act (l : List α) : Move α → List α
  | .join a => l ++ [a]
  | .serve => l.tail
  | .withdraw a => l.erase a

def served : List α → List (Move α) → List α
  | _, [] => []
  | l, .join a :: ms => served (act l (.join a)) ms
  | l, .serve :: ms => l.head?.toList ++ served (act l .serve) ms
  | l, .withdraw a :: ms => served (act l (.withdraw a)) ms

theorem served_cons (l : List α) (m : Move α) (ms : List (Move α)) :
    served l (m :: ms) = served l [m] ++ served (act l m) ms := by
  cases m <;> simp [served]

/-- Nobody moves back when another member withdraws. -/
theorem idxOf_erase_le {a b : α} (h : a ≠ b) (l : List α) : (l.erase b).idxOf a ≤ l.idxOf a := by
  induction l with
  | nil => exact le_rfl
  | cons x l ih =>
    by_cases hb : x = b
    · subst hb
      rw [List.erase_cons_head, List.idxOf_cons_ne _ (Ne.symm h)]
      exact Nat.le_succ _
    · rw [List.erase_cons_tail (by simpa using hb)]
      by_cases ha : x = a
      · subst ha
        simp
      · rw [List.idxOf_cons_ne _ ha, List.idxOf_cons_ne _ ha]
        exact Nat.succ_le_succ ih

/-- A member that does not withdraw is served, or has moved up by one at each turn. -/
theorem served_or_waits {a : α} {ms : List (Move α)} (hno : .withdraw a ∉ ms) {l : List α}
    (ha : a ∈ l) : a ∈ served l ms ∨
      a ∈ ms.foldl act l ∧ (ms.foldl act l).idxOf a + ms.count .serve ≤ l.idxOf a := by
  induction ms generalizing l with
  | nil => exact .inr ⟨ha, le_rfl⟩
  | cons m ms ih =>
    obtain ⟨hm, hms⟩ := not_or.mp (mt List.mem_cons.mpr hno)
    cases m with
    | join b =>
      have hidx := ih hms (l := act l (.join b)) (List.mem_append_left _ ha)
      have hsame : (act l (.join b)).idxOf a = l.idxOf a := List.idxOf_append_of_mem ha
      rw [hsame] at hidx
      rw [List.count_cons_of_ne (by simp)]
      exact hidx
    | serve =>
      cases l with
      | nil => cases ha
      | cons x l =>
        by_cases hx : x = a
        · exact .inl (by simp [served, hx])
        · have hmem : a ∈ l := (List.mem_cons.mp ha).resolve_left (Ne.symm hx)
          rcases ih hms (l := act (x :: l) .serve) hmem with hserved | ⟨hwaits, hidx⟩
          · exact .inl (List.mem_append_right _ hserved)
          · refine .inr ⟨hwaits, ?_⟩
            rw [List.count_cons_self, List.idxOf_cons_ne _ hx]
            exact Nat.succ_le_succ hidx
    | withdraw b =>
      have hne : a ≠ b := fun h => hm (h ▸ rfl)
      have hmem : a ∈ act l (.withdraw b) := (List.mem_erase_of_ne hne).mpr ha
      rcases ih hms hmem with hserved | ⟨hwaits, hidx⟩
      · exact .inl hserved
      · refine .inr ⟨hwaits, ?_⟩
        rw [List.count_cons_of_ne (by simp)]
        exact hidx.trans (idxOf_erase_le hne l)

theorem served_of_lt {a : α} {ms : List (Move α)} (hno : .withdraw a ∉ ms) {l : List α} (ha : a ∈ l)
    (hlt : l.idxOf a < ms.count .serve) : a ∈ served l ms := by
  rcases served_or_waits hno ha with h | ⟨-, h⟩
  · exact h
  · exact absurd h (by omega)

end BifrostModule.Foundation.WaitingLine
