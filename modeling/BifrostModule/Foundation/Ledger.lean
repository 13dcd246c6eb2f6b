import BifrostModule.Foundation.Machine

/-! # Ledgers of what is taken and given back

A ledger lists what is taken and given back under a key, each with what belongs to
it. It replays to what is held, unless it takes a key that is held or gives back
what is not held.
-/
namespace BifrostModule.Foundation

inductive Entry (κ ν : Type*) where
  | take (k : κ) (v : ν)
  | give (k : κ) (v : ν)
  deriving DecidableEq

namespace Ledger
variable {κ ν : Type*} [DecidableEq κ] [DecidableEq ν]

def post (held : κ → Option ν) : Entry κ ν → Option (κ → Option ν)
  | .take k v => if held k = none then some (Function.update held k (some v)) else none
  | .give k v => if held k = some v then some (Function.update held k none) else none

/-- What is held after a ledger that starts with nothing. -/
def replay (l : List (Entry κ ν)) : Option (κ → Option ν) := l.foldlM post fun _ => none

@[simp] theorem replay_nil : replay ([] : List (Entry κ ν)) = some fun _ => none := rfl

theorem replay_concat (l : List (Entry κ ν)) (e : Entry κ ν) :
    replay (l ++ [e]) = (replay l).bind fun held => post held e := by
  rw [replay, List.foldlM_append]
  cases h : List.foldlM post (fun _ => none) l with
  | none => simp [replay, h]
  | some held => simp [replay, h]

theorem replay_take {l : List (Entry κ ν)} {held : κ → Option ν} (h : replay l = some held)
    {k : κ} (hk : held k = none) (v : ν) :
    replay (l ++ [.take k v]) = some (Function.update held k (some v)) := by
  rw [replay_concat, h, Option.bind_some, post, if_pos hk]

theorem replay_give {l : List (Entry κ ν)} {held : κ → Option ν} (h : replay l = some held)
    {k : κ} {v : ν} (hk : held k = some v) :
    replay (l ++ [.give k v]) = some (Function.update held k none) := by
  rw [replay_concat, h, Option.bind_some, post, if_pos hk]

/-- What is held has been taken once more than it was given back, all else as often. -/
theorem count_take {l : List (Entry κ ν)} {held : κ → Option ν} (h : replay l = some held)
    (k : κ) (v : ν) :
    l.count (.take k v) = l.count (.give k v) + if held k = some v then 1 else 0 := by
  induction l using List.reverseRecOn generalizing held with
  | nil =>
    cases h
    simp
  | append_singleton l e ih =>
    rw [replay_concat] at h
    obtain ⟨before, hbefore, hpost⟩ := Option.bind_eq_some_iff.mp h
    have hcount := ih hbefore
    rw [List.count_append, List.count_append, List.count_singleton, List.count_singleton]
    cases e with
    | take k' v' =>
      rw [post] at hpost
      split_ifs at hpost with hfree
      cases hpost
      by_cases hk : k' = k
      · subst hk
        rw [hfree] at hcount
        simp_all
      · simp [hk, Function.update_of_ne (Ne.symm hk), hcount]
    | give k' v' =>
      rw [post] at hpost
      split_ifs at hpost with hheld
      cases hpost
      by_cases hk : k' = k
      · subst hk
        rw [hheld] at hcount
        simp_all
      · simp [hk, Function.update_of_ne (Ne.symm hk), hcount]

/-- A ledger after which nothing is held gives back what it takes as often as it takes it. -/
theorem count_take_of_empty {l : List (Entry κ ν)} (h : replay l = some fun _ => none) (k : κ)
    (v : ν) : l.count (.take k v) = l.count (.give k v) := by
  have hcount := count_take h k v
  simpa using hcount

end Ledger
end BifrostModule.Foundation
