import BifrostModule.Foundation.Machine

/-! # Programs that call services

Straight-line code with early exits and unwinding is a tree of service calls,
with one branch for each answer. A program is run against an environment that
offers the answers, or one call at a time between the steps of others.
-/
namespace BifrostModule.Foundation

inductive Program {Op : Type} (Ans : Op → Type) (α : Type) where
  | ret (a : α)
  | call (op : Op) (next : Ans op → Program Ans α)

/-- What a call does when the environment offers an answer: the answer that the program sees and
the state after it, `none` if it does not return. -/
structure Services {Op : Type} (Ans : Op → Type) (σ : Type*) where
  reply : σ → (op : Op) → Ans op → Option (Ans op × σ)

namespace Program
variable {Op : Type} {Ans : Op → Type} {α β : Type} {σ τ : Type*}

def bind (p : Program Ans α) (k : α → Program Ans β) : Program Ans β :=
  match p with
  | ret a => k a
  | call op next => .call op fun a => (next a).bind k

instance : Monad (Program Ans) where
  pure := ret
  bind := bind

def perform (op : Op) : Program Ans (Ans op) := call op ret

@[simp] theorem pure_eq (a : α) : (pure a : Program Ans α) = ret a := rfl

@[simp] theorem ret_bind (a : α) (k : α → Program Ans β) :
    (ret a : Program Ans α) >>= k = k a := rfl

@[simp] theorem call_bind (op : Op) (next : Ans op → Program Ans α) (k : α → Program Ans β) :
    (call op next : Program Ans α) >>= k = call op fun a => next a >>= k := rfl

@[simp] theorem perform_bind (op : Op) (k : Ans op → Program Ans β) :
    (perform op : Program Ans (Ans op)) >>= k = call op k := rfl

def head : Program Ans α → Option Op
  | ret _ => none
  | call op _ => some op

theorem head_bind {p : Program Ans α} {k : α → Program Ans β} {op : Op} (h : p.head = some op) :
    (p >>= k).head = some op := by
  cases p with
  | ret a => cases h
  | call op next => exact h

section Run
variable (S : Services Ans σ) (env : (op : Op) → Ans op)

/-- Run to the end without interruption, `none` if some call does not return. -/
def run : Program Ans α → σ → Option (α × σ)
  | ret a, s => some (a, s)
  | call op next, s => (S.reply s op (env op)).bind fun r => (next r.1).run r.2

theorem run_call (op : Op) (next : Ans op → Program Ans α) (s : σ) :
    (call op next).run S env s = (S.reply s op (env op)).bind fun r => (next r.1).run S env r.2 :=
  rfl

theorem run_bind (p : Program Ans α) (k : α → Program Ans β) (s : σ) :
    (p >>= k).run S env s = (p.run S env s).bind fun r => (k r.1).run S env r.2 := by
  induction p generalizing s with
  | ret a => rfl
  | call op next ih =>
    rw [call_bind, run_call, run_call, Option.bind_assoc]
    congr 1
    funext r
    exact ih r.1 r.2

/-- A loop whose body always returns is a fold. -/
theorem run_forM {ι : Type} {f : ι → Program Ans Unit} {g : σ → ι → σ}
    (h : ∀ i s, (f i).run S env s = some ((), g s i)) (is : List ι) (s : σ) :
    (is.forM f).run S env s = some ((), is.foldl g s) := by
  induction is generalizing s with
  | nil => rfl
  | cons i is ih =>
    refine (run_bind S env (f i) (fun _ => is.forM f) s).trans ?_
    rw [h, Option.bind_some]
    exact ih (g s i)

end Run

def Calls (P : Op → Prop) : Program Ans α → Prop
  | ret _ => True
  | call op next => P op ∧ ∀ a, (next a).Calls P

section Calls
variable {P : Op → Prop}

@[simp] theorem calls_ret (a : α) : (ret a : Program Ans α).Calls P ↔ True := Iff.rfl

@[simp] theorem calls_call {op : Op} {next : Ans op → Program Ans α} :
    (call op next).Calls P ↔ P op ∧ ∀ a, (next a).Calls P := Iff.rfl

@[simp] theorem calls_perform {op : Op} :
    (perform op : Program Ans (Ans op)).Calls P ↔ P op :=
  ⟨fun h => h.1, fun h => ⟨h, fun _ => trivial⟩⟩

theorem Calls.bind {p : Program Ans α} {k : α → Program Ans β} (hp : p.Calls P)
    (hk : ∀ a, (k a).Calls P) : (p >>= k).Calls P := by
  induction p with
  | ret a => exact hk a
  | call op next ih => exact ⟨hp.1, fun a => ih a (hp.2 a)⟩

theorem Calls.mono {P' : Op → Prop} {p : Program Ans α} (hp : p.Calls P)
    (h : ∀ op, P op → P' op) : p.Calls P' := by
  induction p with
  | ret a => trivial
  | call op next ih => exact ⟨h op hp.1, fun a => ih a (hp.2 a)⟩

theorem Calls.forM {ι : Type} {f : ι → Program Ans Unit} (hf : ∀ i, (f i).Calls P)
    (is : List ι) : (is.forM f).Calls P := by
  induction is with
  | nil => trivial
  | cons i is ih => exact (hf i).bind fun _ => ih

/-- If each of these calls returns and keeps something, so does every run. -/
theorem Calls.exists_run {S : Services Ans σ} {env : (op : Op) → Ans op} {R : σ → σ → Prop}
    (hrefl : ∀ s, R s s) (htrans : ∀ s t u, R s t → R t u → R s u)
    (hstep : ∀ s op, P op → ∃ b t, S.reply s op (env op) = some (b, t) ∧ R s t)
    {p : Program Ans α} (hp : p.Calls P) (s : σ) : ∃ a t, p.run S env s = some (a, t) ∧ R s t := by
  induction p generalizing s with
  | ret a => exact ⟨a, s, rfl, hrefl s⟩
  | call op next ih =>
    obtain ⟨b, u, hu, hsu⟩ := hstep s op hp.1
    obtain ⟨a, t, ht, hut⟩ := ih b (hp.2 b) u
    refine ⟨a, t, ?_, htrans s u t hsu hut⟩
    rw [run_call, hu]
    exact ht

/-- No call that meets `P` comes after one that does not. -/
def Prologue (P : Op → Prop) : Program Ans α → Prop
  | ret _ => True
  | call op next => (¬ P op → ∀ a, (next a).Calls fun op => ¬ P op) ∧ ∀ a, (next a).Prologue P

theorem Calls.prologue {p : Program Ans α} (hp : p.Calls P) : p.Prologue P := by
  induction p with
  | ret a => trivial
  | call op next ih => exact ⟨fun hop => absurd hp.1 hop, fun a => ih a (hp.2 a)⟩

theorem Calls.prologue_of_not {p : Program Ans α} (hp : p.Calls fun op => ¬ P op) :
    p.Prologue P := by
  induction p with
  | ret a => trivial
  | call op next ih => exact ⟨fun _ => hp.2, fun a => ih a (hp.2 a)⟩

theorem Prologue.bind {p : Program Ans α} {k : α → Program Ans β} (hp : p.Prologue P)
    (hk : ∀ a, (k a).Calls fun op => ¬ P op) : (p >>= k).Prologue P := by
  induction p with
  | ret a => exact (hk a).prologue_of_not
  | call op next ih => exact ⟨fun hop a => (hp.1 hop a).bind hk, fun a => ih a (hp.2 a)⟩

end Calls

section Always
variable (R : σ → (op : Op) → Ans op → σ → Prop) (I : Op → σ → Prop)

/-- `I` holds before every call and `Q` at the end, whatever is answered within `R`. -/
def Always (Q : α → σ → Prop) : Program Ans α → σ → Prop
  | ret a, s => Q a s
  | call op next, s => I op s ∧ ∀ a t, R s op a t → (next a).Always Q t

variable {R I}

theorem Always.bind {Q : α → σ → Prop} {Q' : β → σ → Prop} {p : Program Ans α}
    {k : α → Program Ans β} {s : σ} (hp : p.Always R I Q s)
    (hk : ∀ a t, Q a t → (k a).Always R I Q' t) : (p >>= k).Always R I Q' s := by
  induction p generalizing s with
  | ret a => exact hk a s hp
  | call op next ih => exact ⟨hp.1, fun a t ht => ih a (hp.2 a t ht)⟩

theorem Always.mono {Q Q' : α → σ → Prop} (hQ : ∀ a t, Q a t → Q' a t) {p : Program Ans α}
    {s : σ} (hp : p.Always R I Q s) : p.Always R I Q' s := by
  induction p generalizing s with
  | ret a => exact hQ a s hp
  | call op next ih => exact ⟨hp.1, fun a t ht => ih a (hp.2 a t ht)⟩

/-- What survives every call that the program makes holds throughout. -/
theorem Calls.always {P : Op → Prop} {J : σ → Prop} {p : Program Ans α} (hp : p.Calls P)
    (hJ : ∀ s op a t, P op → J s → R s op a t → J t) (hI : ∀ op s, P op → J s → I op s) {s : σ}
    (hs : J s) : p.Always R I (fun _ => J) s := by
  induction p generalizing s with
  | ret a => exact hs
  | call op next ih =>
    exact ⟨hI op s hp.1 hs, fun a t ht => ih a (hp.2 a) (hJ s op a t hp.1 hs ht)⟩

/-- What holds of the state before the next call, or at the end. -/
theorem Always.now {Q : α → σ → Prop} {J : σ → Prop} (hI : ∀ op s, I op s → J s)
    (hQ : ∀ a s, Q a s → J s) {p : Program Ans α} {s : σ} (hp : p.Always R I Q s) : J s := by
  cases p with
  | ret a => exact hQ a s hp
  | call op next => exact hI op s hp.1

end Always

section Interference
variable {same : σ → σ → Prop} {I : Op → σ → Prop} {Q : α → σ → Prop}

/-- A call after steps of others, who change the state within `same`. -/
def Interleaved (S : Services Ans σ) (same : σ → σ → Prop) (s : σ) (op : Op) (a : Ans op) (t : σ) :
    Prop := ∃ (u : σ) (a₀ : Ans op), same s u ∧ S.reply u op a₀ = some (a, t)

/-- A judgement that allows for others survives their steps. -/
theorem Always.interfere {S : Services Ans σ} (htrans : ∀ s t u, same s t → same t u → same s u)
    (hI : ∀ op s t, same s t → I op s → I op t) (hQ : ∀ a s t, same s t → Q a s → Q a t)
    {p : Program Ans α} {s t : σ} (hst : same s t) (hp : p.Always (Interleaved S same) I Q s) :
    p.Always (Interleaved S same) I Q t := by
  cases p with
  | ret a => exact hQ a s t hst hp
  | call op next =>
    refine ⟨hI op s t hst hp.1, fun a u hu => hp.2 a u ?_⟩
    obtain ⟨v, a₀, htv, hreply⟩ := hu
    exact ⟨v, a₀, htrans s t v hst htv, hreply⟩

end Interference

end Program
end BifrostModule.Foundation
