import BifrostModule.Foundation.Machine

/-! # Pools of calls in flight and arrays of slots

A pool lists the calls that are between two of their steps; a partial key says
which resource a call holds. A slot array holds at most one resource in each
slot. What either holds is a multiset, and each update has its equation.
-/
namespace BifrostModule.Foundation.InFlight

variable {κ β : Type*}

/-- The resource of a single holder, if it has one. -/
def held : Option β → Multiset β
  | none => 0
  | some b => {b}

@[simp] theorem held_none : held (none : Option β) = 0 := rfl

@[simp] theorem held_some (b : β) : held (some b) = {b} := rfl

/-- The resources held by the calls of a pool. -/
def keys (f : κ → Option β) : List κ → Multiset β
  | [] => 0
  | a :: l => held (f a) + keys f l

@[simp] theorem keys_nil (f : κ → Option β) : keys f [] = 0 := rfl

@[simp] theorem keys_cons (f : κ → Option β) (a : κ) (l : List κ) :
    keys f (a :: l) = held (f a) + keys f l := rfl

@[simp] theorem keys_append (f : κ → Option β) (l l' : List κ) :
    keys f (l ++ l') = keys f l + keys f l' := by
  induction l with
  | nil => simp
  | cons a l ih => simp [ih, add_assoc]

theorem mem_keys {f : κ → Option β} {l : List κ} {k : β} :
    k ∈ keys f l ↔ ∃ a ∈ l, f a = some k := by
  induction l with
  | nil => simp
  | cons a l ih =>
    cases h : f a with
    | none => simp [h, ih]
    | some b => simp [h, ih, eq_comm]

theorem mem_keys_of {f : κ → Option β} {l : List κ} {a : κ} {k : β} (ha : a ∈ l)
    (hk : f a = some k) : k ∈ keys f l := mem_keys.mpr ⟨a, ha, hk⟩

/-- A sum over distinct indices, one of which changes its term. -/
theorem sum_map_change {ι M : Type*} [AddCommMonoid M] {l : List ι} (hl : l.Nodup) {i : ι}
    (hi : i ∈ l) {f g : ι → M} (hfg : ∀ j, j ≠ i → g j = f j) :
    (l.map g).sum + f i = g i + (l.map f).sum := by
  induction l with
  | nil => cases hi
  | cons j l ih =>
    obtain ⟨hj, hl⟩ := List.nodup_cons.mp hl
    simp only [List.map_cons, List.sum_cons]
    rcases List.mem_cons.mp hi with rfl | hi
    · have hrest : l.map g = l.map f :=
        List.map_congr_left fun k hk => hfg k fun hki => hj (hki ▸ hk)
      rw [hrest, add_assoc, add_comm (f i)]
    · rw [hfg j fun hji => hj (hji ▸ hi), add_assoc, ih hl hi, add_left_comm]

section Slots
variable {n : ℕ}

/-- What the slots of an array hold. -/
def occupied (f : Fin n → Option β) : Multiset β := ∑ c, held (f c)

theorem mem_occupied {f : Fin n → Option β} {b : β} : b ∈ occupied f ↔ ∃ c, f c = some b := by
  simp only [occupied, Multiset.mem_sum, Finset.mem_univ, true_and]
  refine exists_congr fun c => ?_
  cases h : f c with
  | none => simp
  | some d => simp [eq_comm]

theorem occupied_update (f : Fin n → Option β) (c : Fin n) (b : Option β) :
    occupied (Function.update f c b) + held (f c) = held b + occupied f := by
  have hsum : ∀ g : Fin n → Option β, occupied g =
      held (g c) + ∑ d ∈ Finset.univ.erase c, held (g d) := fun g =>
    (Finset.add_sum_erase _ _ (Finset.mem_univ c)).symm
  have hrest : ∑ d ∈ Finset.univ.erase c, held (Function.update f c b d) =
      ∑ d ∈ Finset.univ.erase c, held (f d) :=
    Finset.sum_congr rfl fun d hd => by rw [Function.update_of_ne (Finset.ne_of_mem_erase hd)]
  rw [hsum (Function.update f c b), hsum f, hrest, Function.update_self]
  abel

theorem occupied_put {f : Fin n → Option β} {c : Fin n} (h : f c = none) (b : β) :
    occupied (Function.update f c (some b)) = {b} + occupied f := by
  simpa [h] using occupied_update f c (some b)

theorem occupied_take {f : Fin n → Option β} {c : Fin n} {b : β} (h : f c = some b) :
    occupied f = {b} + occupied (Function.update f c none) := by
  have hu := occupied_update f c none
  rw [h, held_some, held_none, zero_add] at hu
  rw [← hu, add_comm]

/-- When the slots hold nothing twice, a resource is in one slot only. -/
theorem slot_unique {f : Fin n → Option β} (h : (occupied f).Nodup) {c d : Fin n} {b : β}
    (hc : f c = some b) (hd : f d = some b) : c = d := by
  by_contra hne
  rw [occupied_take hc, Multiset.singleton_add, Multiset.nodup_cons] at h
  exact h.1 (mem_occupied.mpr ⟨d, by rw [Function.update_of_ne (Ne.symm hne), hd]⟩)

end Slots

variable [DecidableEq κ]

/-- What remains of the pool when call `a` steps to the calls `new`. -/
def replace (l : List κ) (a : κ) (new : List κ) : List κ := new ++ l.erase a

theorem mem_replace {l new : List κ} {a b : κ} (h : b ∈ replace l a new) : b ∈ new ∨ b ∈ l :=
  (List.mem_append.mp h).imp_right List.mem_of_mem_erase

theorem mem_replace_of_ne {l new : List κ} {a b : κ} (hb : b ∈ l) (hne : b ≠ a) :
    b ∈ replace l a new := List.mem_append_right _ ((List.mem_erase_of_ne hne).mpr hb)

theorem mem_replace_new {l new : List κ} {a b : κ} (hb : b ∈ new) : b ∈ replace l a new :=
  List.mem_append_left _ hb

theorem keys_erase (f : κ → Option β) {l : List κ} {a : κ} (ha : a ∈ l) :
    keys f l = held (f a) + keys f (l.erase a) := by
  induction l with
  | nil => cases ha
  | cons b l ih =>
    by_cases h : b = a
    · simp [h]
    · have hal : a ∈ l := (List.mem_cons.mp ha).resolve_left (Ne.symm h)
      rw [List.erase_cons_tail (by simpa using h), keys_cons, keys_cons, ih hal]
      abel

/-- A step trades the key of the call that steps for the keys of what remains of it. -/
theorem keys_replace (f : κ → Option β) {l : List κ} {a : κ} (ha : a ∈ l) (new : List κ) :
    keys f new + keys f l = held (f a) + keys f (replace l a new) := by
  rw [keys_erase f ha, replace, keys_append]
  abel

/-- A call that keeps its resource to itself leaves the keys as they are. -/
theorem keys_replace_pass {f : κ → Option β} {l : List κ} {a b : κ} (ha : a ∈ l)
    (hk : f b = f a) : keys f (replace l a [b]) = keys f l := by
  have h := keys_replace f ha [b]
  rw [keys_cons, keys_nil, add_zero, hk] at h
  exact (add_left_cancel h).symm

/-- A call without a resource leaves what remains of it. -/
theorem keys_replace_gain {f : κ → Option β} {l : List κ} {a : κ} (ha : a ∈ l)
    (hk : f a = none) (new : List κ) : keys f (replace l a new) = keys f new + keys f l := by
  rw [keys_replace f ha new, hk, held_none, zero_add]

/-- A call whose remains hold nothing gives its resource up. -/
theorem keys_replace_gone {f : κ → Option β} {l new : List κ} {a : κ} {k : β} (ha : a ∈ l)
    (hk : f a = some k) (hnew : keys f new = 0) :
    keys f l = {k} + keys f (replace l a new) := by
  rw [← held_some, ← hk, ← keys_replace f ha new, hnew, zero_add]

end BifrostModule.Foundation.InFlight
