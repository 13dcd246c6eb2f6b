import Mathlib

/-! # Pieces cut off from the end

A stretch of numbers is cut from its end downwards. The pieces lie apart and make up its upper
part.
-/
namespace BifrostModule.Foundation

/-- The start and the length of the pieces that are cut off below `top`, in order. -/
def carve (top : ℕ) : List ℕ → List (ℕ × ℕ)
  | [] => []
  | n :: ns => (top - n, n) :: carve (top - n) ns

@[simp] theorem carve_nil (top : ℕ) : carve top [] = [] := rfl

@[simp] theorem carve_cons (top n : ℕ) (ns : List ℕ) :
    carve top (n :: ns) = (top - n, n) :: carve (top - n) ns := rfl

theorem carve_append (top : ℕ) (ns ms : List ℕ) :
    carve top (ns ++ ms) = carve top ns ++ carve (top - ns.sum) ms := by
  induction ns generalizing top with
  | nil => rfl
  | cons n ns ih => simp [ih, Nat.sub_sub]

@[simp] theorem length_carve (top : ℕ) (ns : List ℕ) : (carve top ns).length = ns.length := by
  induction ns generalizing top with
  | nil => rfl
  | cons n ns ih => simp [ih]

theorem map_snd_carve (top : ℕ) (ns : List ℕ) : (carve top ns).map Prod.snd = ns := by
  induction ns generalizing top with
  | nil => rfl
  | cons n ns ih => simp [ih]

theorem mem_carve {top : ℕ} {ns : List ℕ} (h : ns.sum ≤ top) {p : ℕ × ℕ} (hp : p ∈ carve top ns) :
    top - ns.sum ≤ p.1 ∧ p.1 + p.2 ≤ top := by
  induction ns generalizing top with
  | nil => cases hp
  | cons n ns ih =>
    rw [List.sum_cons] at h ⊢
    rcases List.mem_cons.mp hp with rfl | hp
    · exact ⟨by omega, by omega⟩
    · obtain ⟨hlo, hhi⟩ := ih (by omega) hp
      exact ⟨by omega, by omega⟩

theorem dvd_of_mem_carve {m top : ℕ} {ns : List ℕ} (htop : m ∣ top) (h : ∀ n ∈ ns, m ∣ n)
    {p : ℕ × ℕ} (hp : p ∈ carve top ns) : m ∣ p.1 := by
  induction ns generalizing top with
  | nil => cases hp
  | cons n ns ih =>
    obtain ⟨hn, hns⟩ := List.forall_mem_cons.mp h
    have hnext : m ∣ top - n := Nat.dvd_sub htop hn
    rcases List.mem_cons.mp hp with rfl | hp
    · exact hnext
    · exact ih hnext hns hp

/-- Each piece lies below those that were cut off before it. -/
theorem pairwise_carve {top : ℕ} {ns : List ℕ} (h : ns.sum ≤ top) :
    (carve top ns).Pairwise fun p q => q.1 + q.2 ≤ p.1 := by
  induction ns generalizing top with
  | nil => exact List.Pairwise.nil
  | cons n ns ih =>
    rw [List.sum_cons] at h
    exact List.pairwise_cons.mpr ⟨fun q hq => (mem_carve (by omega) hq).2, ih (by omega)⟩

/-- Nothing between the pieces is lost. -/
theorem exists_mem_carve {top : ℕ} {ns : List ℕ} (h : ns.sum ≤ top) {x : ℕ}
    (hlo : top - ns.sum ≤ x) (hhi : x < top) : ∃ p ∈ carve top ns, p.1 ≤ x ∧ x < p.1 + p.2 := by
  induction ns generalizing top with
  | nil =>
    rw [List.sum_nil] at hlo
    omega
  | cons n ns ih =>
    rw [List.sum_cons] at h hlo
    by_cases hx : top - n ≤ x
    · exact ⟨(top - n, n), List.mem_cons_self, hx, show x < top - n + n by omega⟩
    · have hrest : ns.sum ≤ top - n := by omega
      obtain ⟨p, hp, hin⟩ := ih hrest (by omega) (by omega)
      exact ⟨p, List.mem_cons_of_mem _ hp, hin⟩

end BifrostModule.Foundation
