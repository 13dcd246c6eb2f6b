import BifrostModule.Foundation.BoundedFifo
import BifrostModule.Cdev.Events

/-! # What event delivery is for: independent mailboxes

Every open handle is a mailbox of its own: two masks, a bounded queue of pending
events, and the event that its filter has accepted and that is about to be
appended. An operation concerns one mailbox.
-/
namespace BifrostModule.Cdev
open Foundation Foundation.BoundedFifo

variable {γ : Type*}

structure Mailbox (γ : Type*) where
  enabled : BitVec 32
  forwarded : BitVec 32
  pending : List (Work γ)
  accepted : Option (Work γ)

namespace Mailbox

def Subscribes (m : Mailbox γ) (a : Addr) (e : Event) : Prop :=
  e.type &&& m.enabled ≠ 0 ∧
    (e.type = eventTypeIrq → m.forwarded &&& e.irqSource ≠ 0) ∧
    (e.type = eventTypeDmaDone → a = e.dmaCookie)

instance (m : Mailbox γ) (a : Addr) (e : Event) : Decidable (m.Subscribes a e) :=
  inferInstanceAs (Decidable (_ ∧ _ ∧ _))

/-- An event is accepted if the handle subscribes to it and a copy could be allocated. -/
def accept (m : Mailbox γ) (a : Addr) (w : Work γ) (allocated : Bool) : Mailbox γ :=
  if m.Subscribes a w.event ∧ allocated then { m with accepted := some w } else m

/-- The accepted event is appended unless the mailbox is full. -/
def append (m : Mailbox γ) : Mailbox γ :=
  match m.accepted with
  | none => m
  | some w => { m with pending := offer eventBufferSize m.pending w, accepted := none }

def oldest (m : Mailbox γ) (now : ℕ) (copied : Bool) : Except Errno (Work γ) :=
  match m.pending with
  | [] => .error .EINVAL
  | w :: _ => State.forward w now copied

def remove (m : Mailbox γ) : Mailbox γ := { m with pending := m.pending.tail }

def Has (m : Mailbox γ) (w : Work γ) : Prop := w ∈ m.pending ∨ m.accepted = some w

theorem has_remove {m : Mailbox γ} {w : Work γ} (h : m.remove.Has w) : m.Has w :=
  h.imp_left List.mem_of_mem_tail

theorem has_append {m : Mailbox γ} {w : Work γ} (h : m.append.Has w) : m.Has w := by
  unfold append at h
  split at h
  · exact h
  · rename_i v hv
    rcases h with h | h
    · rcases mem_offer h with h | rfl
      · exact .inl h
      · exact .inr hv
    · cases h

theorem has_accept {m : Mailbox γ} {a : Addr} {v w : Work γ} {allocated : Bool}
    (h : (m.accept a v allocated).Has w) : m.Has w ∨ v = w ∧ m.Subscribes a w.event := by
  unfold accept at h
  split at h
  · rename_i hacc
    rcases h with h | h
    · exact .inl (.inl h)
    · obtain rfl := Option.some.inj h
      exact .inr ⟨rfl, hacc.1⟩
  · exact .inl h

end Mailbox

/-- An operation on one mailbox, or none of their concern. -/
inductive Op (γ : Type*) where
  | opened (a : Addr)
  | closed (a : Addr)
  | enable (a : Addr) (mask : BitVec 32)
  | forwardIrq (a : Addr) (mask : BitVec 32)
  | dequeue (a : Addr) (now : ℕ) (copied : Bool)
  | accept (a : Addr) (w : Work γ) (allocated : Bool)
  | append (a : Addr)
  | idle

def Op.target : Op γ → Option Addr
  | .opened a => some a
  | .closed a => some a
  | .enable a _ => some a
  | .forwardIrq a _ => some a
  | .dequeue a _ _ => some a
  | .accept a _ _ => some a
  | .append a => some a
  | .idle => none

/-- The mailboxes of the open handles, and what the dequeueing ioctls returned. -/
@[ext]
structure Mailboxes (γ : Type*) where
  box : Addr → Option (Mailbox γ)
  results : List (Addr × Except Errno (Work γ))

namespace Mailboxes

def modify (b : Mailboxes γ) (a : Addr) (f : Mailbox γ → Mailbox γ) : Mailboxes γ :=
  { b with box := Function.update b.box a ((b.box a).map f) }

def act (b : Mailboxes γ) : Op γ → Mailboxes γ
  | .opened a => { b with box := Function.update b.box a (some ⟨0, 0, [], none⟩) }
  | .closed a => { b with box := Function.update b.box a none }
  | .enable a mask => b.modify a fun m => { m with enabled := mask }
  | .forwardIrq a mask => b.modify a fun m => { m with forwarded := mask }
  | .dequeue a now copied =>
    { b.modify a Mailbox.remove with
      results := b.results ++ ((b.box a).map fun m => (a, m.oldest now copied)).toList }
  | .accept a w allocated => b.modify a fun m => m.accept a w allocated
  | .append a => b.modify a Mailbox.append
  | .idle => b

def empty : Mailboxes γ := ⟨fun _ => none, []⟩

/-- The mailboxes are independent: an operation leaves all but its target alone. -/
theorem act_box_of_ne (b : Mailboxes γ) (op : Op γ) {a : Addr} (h : op.target ≠ some a) :
    (b.act op).box a = b.box a := by
  cases op with
  | idle => rfl
  | _ => exact Function.update_of_ne (fun heq => h (congrArg some heq.symm)) _ _

/-- What an operation makes of its target depends on the target only. -/
theorem act_box_congr {b c : Mailboxes γ} {a : Addr} (h : b.box a = c.box a) (op : Op γ) :
    (b.act op).box a = (c.act op).box a := by
  by_cases ht : op.target = some a
  · cases op with
    | idle => cases ht
    | _ =>
      obtain rfl := Option.some.inj ht
      simp only [act, modify, Function.update_self, h]
  · rw [act_box_of_ne b op ht, act_box_of_ne c op ht, h]

/-- A mailbox is what the operations on it alone make of it. -/
theorem foldl_act_box (ops : List (Op γ)) (a : Addr) {b c : Mailboxes γ}
    (h : b.box a = c.box a) : (ops.foldl act b).box a =
      ((ops.filter (fun op => op.target = some a)).foldl act c).box a := by
  induction ops generalizing b c with
  | nil => exact h
  | cons op ops ih =>
    rw [List.foldl_cons, List.filter_cons]
    by_cases ht : op.target = some a
    · rw [if_pos (decide_eq_true ht), List.foldl_cons]
      exact ih (act_box_congr h op)
    · rw [if_neg (by simpa using ht)]
      exact ih ((act_box_of_ne b op ht).trans h)

def Holds (b : Mailboxes γ) (a : Addr) (w : Work γ) : Prop := ∃ m, b.box a = some m ∧ m.Has w

theorem box_modify {b : Mailboxes γ} {a c : Addr} {f : Mailbox γ → Mailbox γ} {m : Mailbox γ}
    (h : (b.modify c f).box a = some m) :
    ∃ m', b.box a = some m' ∧ m = if a = c then f m' else m' := by
  by_cases hac : a = c
  · subst hac
    simp only [modify, Function.update_self] at h
    obtain ⟨m', hm', rfl⟩ := Option.map_eq_some_iff.mp h
    exact ⟨m', hm', (if_pos rfl).symm⟩
  · simp only [modify, Function.update_of_ne hac] at h
    exact ⟨m, h, (if_neg hac).symm⟩

theorem holds_modify {b : Mailboxes γ} {a c : Addr} {f : Mailbox γ → Mailbox γ} {w : Work γ}
    (hf : ∀ m : Mailbox γ, (f m).Has w → m.Has w) (h : (b.modify c f).Holds a w) :
    b.Holds a w := by
  obtain ⟨m, hm, hw⟩ := h
  obtain ⟨m', hm', rfl⟩ := box_modify hm
  split at hw
  · exact ⟨m', hm', hf m' hw⟩
  · exact ⟨m', hm', hw⟩

theorem isSome_act {b : Mailboxes γ} {op : Op γ} {a : Addr} (h : ((b.act op).box a).isSome) :
    (b.box a).isSome ∨ op = .opened a := by
  by_cases ht : op.target = some a
  · cases op with
    | opened c =>
      obtain rfl := Option.some.inj ht
      exact .inr rfl
    | closed c =>
      obtain rfl := Option.some.inj ht
      simp [act] at h
    | idle => cases ht
    | _ =>
      obtain rfl := Option.some.inj ht
      simpa [act, modify] using h
  · rw [act_box_of_ne b op ht] at h
    exact .inl h

theorem isSome_of_act {b : Mailboxes γ} {a : Addr} (h : (b.box a).isSome) (op : Op γ) :
    ((b.act op).box a).isSome ∨ op = .closed a := by
  by_cases ht : op.target = some a
  · cases op with
    | closed c =>
      obtain rfl := Option.some.inj ht
      exact .inr rfl
    | opened c =>
      obtain rfl := Option.some.inj ht
      simp [act]
    | idle => cases ht
    | _ =>
      obtain rfl := Option.some.inj ht
      simpa [act, modify] using h
  · rw [act_box_of_ne b op ht]
    exact .inl h

/-- A mailbox accepts events to which it subscribes, and gets none in another way. -/
theorem holds_act {b : Mailboxes γ} {op : Op γ} {a : Addr} {w : Work γ}
    (h : (b.act op).Holds a w) : b.Holds a w ∨
      ∃ m allocated, op = .accept a w allocated ∧ b.box a = some m ∧ m.Subscribes a w.event := by
  cases op with
  | opened c =>
    obtain ⟨m, hm, hw⟩ := h
    by_cases hac : a = c
    · simp only [act, hac, Function.update_self, Option.some.injEq] at hm
      subst hm
      simp [Mailbox.Has] at hw
    · simp only [act, Function.update_of_ne hac] at hm
      exact .inl ⟨m, hm, hw⟩
  | closed c =>
    obtain ⟨m, hm, hw⟩ := h
    by_cases hac : a = c
    · simp only [act, hac, Function.update_self] at hm
      cases hm
    · simp only [act, Function.update_of_ne hac] at hm
      exact .inl ⟨m, hm, hw⟩
  | enable c mask =>
    exact .inl (holds_modify (f := fun m => { m with enabled := mask }) (fun _ h => h) h)
  | forwardIrq c mask =>
    exact .inl (holds_modify (f := fun m => { m with forwarded := mask }) (fun _ h => h) h)
  | dequeue c now copied => exact .inl (holds_modify (fun _ => Mailbox.has_remove) h)
  | append c => exact .inl (holds_modify (fun _ => Mailbox.has_append) h)
  | idle => exact .inl h
  | accept c v allocated =>
    obtain ⟨m, hm, hw⟩ := h
    obtain ⟨m', hm', rfl⟩ := box_modify hm
    by_cases hac : a = c
    · rw [if_pos hac] at hw
      rcases Mailbox.has_accept hw with hw | ⟨rfl, hsub⟩
      · exact .inl ⟨m', hm', hw⟩
      · exact .inr ⟨m', allocated, by rw [hac], hm', hac ▸ hsub⟩
    · rw [if_neg hac] at hw
      exact .inl ⟨m', hm', hw⟩

end Mailboxes
end BifrostModule.Cdev
