import BifrostModule.Foundation.Machine

/-! # Shared objects and their holders

Clients enter and leave, and hold objects: an object may have several holders, and a client
may hold it several times. An object without holders can be acquired by one client; others
share it. What clients that have left still hold is forgotten at some time.
-/
namespace BifrostModule.Foundation

structure Registry (κ φ : Type*) where
  holders : κ → Multiset φ
  opened : Finset φ

inductive Machine.RunUnder {σ α : Type*} (M : Machine σ α) (ok : σ → α → Prop) :
    σ → List α → σ → Prop where
  | nil (s : σ) : RunUnder M ok s [] s
  | cons {s t u : σ} {a : α} {as : List α} (hok : ok s a) (h : M.step s a = some t)
      (hrest : RunUnder M ok t as u) : RunUnder M ok s (a :: as) u

theorem Machine.RunUnder.of_exec {σ α : Type*} {M : Machine σ α} {ok : σ → α → Prop} {s t : σ}
    {as : List α} (hok : ∀ a ∈ as, ∀ u, ok u a) (h : M.exec s as = some t) :
    M.RunUnder ok s as t := by
  induction as generalizing s with
  | nil =>
    simp only [Machine.exec, Option.some.injEq] at h
    exact h ▸ .nil s
  | cons a as ih =>
    obtain ⟨u, hu, ht⟩ := Option.bind_eq_some_iff.mp h
    exact .cons (hok a List.mem_cons_self s) hu
      (ih (fun b hb => hok b (List.mem_cons_of_mem a hb)) ht)

namespace Registry
variable {κ φ : Type*} [DecidableEq κ] [DecidableEq φ]

inductive Event (κ φ : Type*) where
  | enter (f : φ)
  | leave (f : φ)
  | acquire (k : κ) (f : φ)
  | share (k : κ) (f : φ)
  | drop (k : κ) (f : φ)
  | forget
  | idle

/-- One step. To forget takes nothing from clients that have not left. -/
inductive Step : Registry κ φ → Event κ φ → Registry κ φ → Prop where
  | enter {r : Registry κ φ} {f : φ} (hf : f ∉ r.opened) :
      Step r (.enter f) { r with opened := insert f r.opened }
  | leave {r : Registry κ φ} {f : φ} (hf : f ∈ r.opened) :
      Step r (.leave f) { r with opened := r.opened.erase f }
  | acquire {r : Registry κ φ} {k : κ} {f : φ} (hf : f ∈ r.opened) (hk : r.holders k = 0) :
      Step r (.acquire k f) { r with holders := Function.update r.holders k {f} }
  | share {r : Registry κ φ} {k : κ} {f : φ} (hf : f ∈ r.opened) (hk : r.holders k ≠ 0) :
      Step r (.share k f) { r with holders := Function.update r.holders k (f ::ₘ r.holders k) }
  | drop {r : Registry κ φ} {k : κ} {f : φ} (hf : f ∈ r.opened) (hk : f ∈ r.holders k) :
      Step r (.drop k f) { r with
        holders := Function.update r.holders k ((r.holders k).erase f) }
  | forget {r : Registry κ φ} {holders : κ → Multiset φ} (hle : ∀ k, holders k ≤ r.holders k)
      (hkeep : ∀ k, ∀ f ∈ r.opened, (r.holders k).count f = (holders k).count f) :
      Step r .forget { r with holders := holders }
  | idle {r : Registry κ φ} : Step r .idle r

inductive Run : Registry κ φ → List (Event κ φ) → Registry κ φ → Prop where
  | nil (r : Registry κ φ) : Run r [] r
  | cons {r s t : Registry κ φ} {e : Event κ φ} {es : List (Event κ φ)} (h : Step r e s)
      (hrest : Run s es t) : Run r (e :: es) t

theorem Step.count_le {r t : Registry κ φ} {e : Event κ φ} (h : Step r e t) {k : κ} {f : φ}
    (hf : f ∈ r.opened) (hdrop : e ≠ .drop k f) (hleave : e ≠ .leave f) :
    f ∈ t.opened ∧ (r.holders k).count f ≤ (t.holders k).count f := by
  cases h with
  | enter hg => exact ⟨Finset.mem_insert_of_mem hf, le_rfl⟩
  | leave hg =>
    refine ⟨Finset.mem_erase.mpr ⟨fun heq => hleave (heq ▸ rfl), hf⟩, le_rfl⟩
  | @acquire j g hg hj =>
    refine ⟨hf, ?_⟩
    by_cases hjk : k = j
    · subst hjk
      simp [hj]
    · simp [Function.update_of_ne hjk]
  | @share j g hg hj =>
    refine ⟨hf, ?_⟩
    by_cases hjk : k = j
    · subst hjk
      simpa using Multiset.count_le_count_cons f g (r.holders k)
    · simp [Function.update_of_ne hjk]
  | @drop j g hg hj =>
    refine ⟨hf, ?_⟩
    by_cases hjk : k = j
    · subst hjk
      have hgf : f ≠ g := fun heq => hdrop (heq ▸ rfl)
      simp [Multiset.count_erase_of_ne hgf]
    · simp [Function.update_of_ne hjk]
  | forget hle hkeep => exact ⟨hf, (hkeep k f hf).le⟩
  | idle => exact ⟨hf, le_rfl⟩

/-- A client keeps what it holds along a run in which it neither drops it nor leaves. -/
theorem Run.count_le {r t : Registry κ φ} {es : List (Event κ φ)} (h : Run r es t) {k : κ} {f : φ}
    (hf : f ∈ r.opened) (hdrop : ∀ e ∈ es, e ≠ .drop k f) (hleave : ∀ e ∈ es, e ≠ .leave f) :
    f ∈ t.opened ∧ (r.holders k).count f ≤ (t.holders k).count f := by
  induction h with
  | nil => exact ⟨hf, le_rfl⟩
  | cons hstep _ ih =>
    obtain ⟨hopen, hle⟩ := hstep.count_le hf (hdrop _ List.mem_cons_self)
      (hleave _ List.mem_cons_self)
    obtain ⟨hlast, hrest⟩ := ih hopen (fun e he => hdrop e (List.mem_cons_of_mem _ he))
      fun e he => hleave e (List.mem_cons_of_mem _ he)
    exact ⟨hlast, hle.trans hrest⟩

/-- Only clients that have entered become holders. -/
theorem Step.mem_or_opened {r t : Registry κ φ} {e : Event κ φ} (h : Step r e t) {k : κ} {f : φ}
    (hf : f ∈ t.holders k) : f ∈ r.holders k ∨ f ∈ r.opened := by
  cases h with
  | enter hg => exact .inl hf
  | leave hg => exact .inl hf
  | @acquire j g hg hj =>
    dsimp only at hf
    by_cases hjk : k = j
    · subst hjk
      rw [Function.update_self, Multiset.mem_singleton] at hf
      exact .inr (hf ▸ hg)
    · rw [Function.update_of_ne hjk] at hf
      exact .inl hf
  | @share j g hg hj =>
    dsimp only at hf
    by_cases hjk : k = j
    · subst hjk
      rw [Function.update_self, Multiset.mem_cons] at hf
      exact hf.symm.imp_right fun heq => by rwa [heq]
    · rw [Function.update_of_ne hjk] at hf
      exact .inl hf
  | @drop j g hg hj =>
    dsimp only at hf
    by_cases hjk : k = j
    · subst hjk
      rw [Function.update_self] at hf
      exact .inl (Multiset.mem_of_mem_erase hf)
    · rw [Function.update_of_ne hjk] at hf
      exact .inl hf
  | forget hle hkeep => exact .inl (Multiset.mem_of_le (hle k) hf)
  | idle => exact .inl hf

end Registry
end BifrostModule.Foundation
