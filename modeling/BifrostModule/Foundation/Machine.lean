import Mathlib

/-! # Labelled machines, guarded runs and functional simulation

A machine is a start predicate with a partial step function. Every choice of
the environment sits in the label, so a run is a list of labels that can be
evaluated. A guard on the steps of a run is kept apart from the machine.
-/
namespace BifrostModule.Foundation

structure Machine (σ α : Type*) where
  start : σ → Prop
  step : σ → α → Option σ

namespace Machine
variable {σ τ α β : Type*}

/-- States reached by runs whose every step meets the guard in the state before it. -/
inductive ReachableUnder (M : Machine σ α) (ok : σ → α → Prop) : σ → Prop where
  | start {s : σ} (h : M.start s) : ReachableUnder M ok s
  | step {s t : σ} {a : α} (hs : ReachableUnder M ok s) (hok : ok s a)
      (h : M.step s a = some t) : ReachableUnder M ok t

def Reachable (M : Machine σ α) : σ → Prop := M.ReachableUnder fun _ _ => True

variable {M : Machine σ α} {ok : σ → α → Prop}

theorem Reachable.next {s t : σ} {a : α} (hs : M.Reachable s) (h : M.step s a = some t) :
    M.Reachable t :=
  ReachableUnder.step hs trivial h

/-- What holds at the start and survives every guarded step holds of every guarded run. -/
theorem ReachableUnder.invariant {I : σ → Prop} (hstart : ∀ s, M.start s → I s)
    (hstep : ∀ s a t, I s → ok s a → M.step s a = some t → I t) {s : σ}
    (h : M.ReachableUnder ok s) : I s := by
  induction h with
  | start h => exact hstart _ h
  | step _ hok h ih => exact hstep _ _ _ ih hok h

theorem Reachable.invariant {I : σ → Prop} (hstart : ∀ s, M.start s → I s)
    (hstep : ∀ s a t, I s → M.step s a = some t → I t) {s : σ} (h : M.Reachable s) : I s :=
  ReachableUnder.invariant hstart (fun s a t hi _ h => hstep s a t hi h) h

theorem ReachableUnder.mono {ok' : σ → α → Prop} (hle : ∀ s a, ok s a → ok' s a) {s : σ}
    (h : M.ReachableUnder ok s) : M.ReachableUnder ok' s := by
  induction h with
  | start h => exact .start h
  | step _ hok h ih => exact .step ih (hle _ _ hok) h

/-- Evaluate a list of labels, refusing as soon as a step or its guard does. -/
def execUnder (M : Machine σ α) (ok : σ → α → Prop) [∀ s a, Decidable (ok s a)] :
    σ → List α → Option σ
  | s, [] => some s
  | s, a :: as => if ok s a then (M.step s a).bind fun t => execUnder M ok t as else none

theorem ReachableUnder.of_execUnder [∀ s a, Decidable (ok s a)] {s t : σ} {as : List α}
    (hs : M.ReachableUnder ok s) (h : M.execUnder ok s as = some t) : M.ReachableUnder ok t := by
  induction as generalizing s with
  | nil =>
    simp only [execUnder, Option.some.injEq] at h
    exact h ▸ hs
  | cons a as ih =>
    rw [execUnder] at h
    split at h
    · rename_i hok
      obtain ⟨u, hu, ht⟩ := Option.bind_eq_some_iff.mp h
      exact ih (.step hs hok hu) ht
    · cases h

def exec (M : Machine σ α) : σ → List α → Option σ
  | s, [] => some s
  | s, a :: as => (M.step s a).bind fun t => exec M t as

theorem Reachable.of_exec {s t : σ} {as : List α} (hs : M.Reachable s)
    (h : M.exec s as = some t) : M.Reachable t := by
  induction as generalizing s with
  | nil =>
    simp only [exec, Option.some.injEq] at h
    exact h ▸ hs
  | cons a as ih =>
    obtain ⟨u, hu, ht⟩ := Option.bind_eq_some_iff.mp h
    exact ih (hs.next hu) ht

theorem ReachableUnder.of_exec {s t : σ} {as : List α} (hs : M.ReachableUnder ok s)
    (hok : ∀ a ∈ as, ∀ u, ok u a) (h : M.exec s as = some t) : M.ReachableUnder ok t := by
  induction as generalizing s with
  | nil =>
    simp only [exec, Option.some.injEq] at h
    exact h ▸ hs
  | cons a as ih =>
    obtain ⟨u, hu, ht⟩ := Option.bind_eq_some_iff.mp h
    exact ih (.step hs (hok a List.mem_cons_self s) hu)
      (fun b hb => hok b (List.mem_cons_of_mem a hb)) ht

/-- A label list whose last state passes a test gives a reachable state that passes it. -/
theorem exists_reachable_of_exec {s : σ} {as : List α} {p : σ → Bool} (hs : M.start s)
    (h : (M.exec s as).map p = some true) : ∃ t, M.Reachable t ∧ p t = true := by
  obtain ⟨t, ht, hp⟩ := Option.map_eq_some_iff.mp h
  exact ⟨t, Reachable.of_exec (.start hs) ht, hp⟩

theorem exists_reachableUnder_of_exec [∀ s a, Decidable (ok s a)] {s : σ} {as : List α}
    {p : σ → Bool} (hs : M.start s) (h : (M.execUnder ok s as).map p = some true) :
    ∃ t, M.ReachableUnder ok t ∧ p t = true := by
  obtain ⟨t, ht, hp⟩ := Option.map_eq_some_iff.mp h
  exact ⟨t, ReachableUnder.of_execUnder (.start hs) ht, hp⟩

/-- What an observer sees along a run, read off the state before each step. -/
def views (M : Machine σ α) (view : σ → α → β) : σ → List α → List β
  | _, [] => []
  | s, a :: as => view s a :: (M.step s a).elim [] fun t => views M view t as

/-- If each step acts on the abstraction as its view says, a run does so view by view. -/
theorem exec_abs {abs : σ → τ} {view : σ → α → β} {act : τ → β → τ} {I : σ → Prop}
    (hI : ∀ s a t, I s → M.step s a = some t → I t)
    (hsim : ∀ s a t, I s → M.step s a = some t → abs t = act (abs s) (view s a))
    {s t : σ} {as : List α} (hs : I s) (h : M.exec s as = some t) :
    abs t = (M.views view s as).foldl act (abs s) := by
  induction as generalizing s with
  | nil =>
    simp only [exec, Option.some.injEq] at h
    simp [views, h]
  | cons a as ih =>
    obtain ⟨u, hu, ht⟩ := Option.bind_eq_some_iff.mp h
    simp only [views, hu, Option.elim_some, List.foldl_cons]
    rw [← hsim s a u hs hu]
    exact ih (hI s a u hs hu) ht

/-- Two machines whose steps keep a relation between their states keep it along runs. -/
theorem exec_related {N : Machine τ β} {R : σ → τ → Prop} {L : α → β → Prop}
    (hstep : ∀ s t a b s', R s t → L a b → M.step s a = some s' →
      ∃ t', N.step t b = some t' ∧ R s' t')
    {s s' : σ} {t : τ} {as : List α} {bs : List β} (hst : R s t) (hlabels : List.Forall₂ L as bs)
    (h : M.exec s as = some s') : ∃ t', N.exec t bs = some t' ∧ R s' t' := by
  induction hlabels generalizing s t with
  | nil =>
    simp only [exec, Option.some.injEq] at h
    exact ⟨t, rfl, h ▸ hst⟩
  | cons hab _ ih =>
    obtain ⟨u, hu, hs'⟩ := Option.bind_eq_some_iff.mp h
    obtain ⟨v, hv, huv⟩ := hstep _ _ _ _ _ hst hab hu
    obtain ⟨t', ht', hrel⟩ := ih huv hs'
    exact ⟨t', by rw [exec, hv, Option.bind_some, ht'], hrel⟩

end Machine
end BifrostModule.Foundation
