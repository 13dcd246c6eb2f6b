import BifrostModule.Foundation.Machine

/-! # Bounded queues that drop what does not fit

A queue of at most `cap` elements. An element offered to a full queue is lost,
and one is taken from the front.
-/
namespace BifrostModule.Foundation.BoundedFifo

variable {ε δ : Type*} {cap : ℕ} {q : List ε} {e : ε}

/-- Append an element unless the queue is full. -/
def offer (cap : ℕ) (q : List ε) (e : ε) : List ε := if q.length < cap then q ++ [e] else q

theorem offer_of_lt (h : q.length < cap) : offer cap q e = q ++ [e] := if_pos h

theorem offer_of_le (h : cap ≤ q.length) : offer cap q e = q := if_neg (Nat.not_lt.mpr h)

/-- The capacity is never exceeded. -/
theorem length_offer_le (h : q.length ≤ cap) : (offer cap q e).length ≤ cap := by
  by_cases hlt : q.length < cap
  · rw [offer_of_lt hlt, List.length_append, List.length_singleton]
    exact hlt
  · rw [offer_of_le (Nat.not_lt.mp hlt)]
    exact h

theorem mem_offer {x : ε} (h : x ∈ offer cap q e) : x ∈ q ∨ x = e := by
  unfold offer at h
  split at h
  · simpa using h
  · exact .inl h

theorem map_offer (f : ε → δ) : (offer cap q e).map f = offer cap (q.map f) (f e) := by
  by_cases hlt : q.length < cap
  · rw [offer_of_lt hlt, offer_of_lt (by rwa [List.length_map]), List.map_append,
      List.map_singleton]
  · rw [offer_of_le (Nat.not_lt.mp hlt), offer_of_le (by rw [List.length_map]; omega)]

end BifrostModule.Foundation.BoundedFifo
