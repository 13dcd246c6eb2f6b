import BifrostModule.Dma.ChanStart
import BifrostModule.Regb.Bystander

/-! # Each kick-off launches its own parameters

Calls of `bifrost_dma_chan_start` on any number of threads interleave with the register
ioctls. The spinlock of the DMA BAR makes the six writes of a call one operation on the
controller, so that it launches the calls in the order in which they take the lock.
-/
namespace BifrostModule.Dma
open Foundation Regb Lifecycle

/-- Where a `bifrost_dma_chan_start` is: before the `spin_lock_irqsave`, or with the writes that it
has still to make. -/
inductive StartPhase where
  | waiting
  | writing (todo : List (BitVec 32 × BitVec 32))

structure ChanStartCall where
  number : ℕ
  params : ChanStart
  phase : StartPhase

/-- The register ioctls and the calls of `bifrost_dma_chan_start` of each thread, with the history
of the calls: the parameters of all of them, and those that have taken the lock. -/
structure KickOffs where
  regs : Concurrent
  starts : ℕ → Option ChanStartCall
  entered : List ChanStart
  order : List (ℕ × ChanStart)

inductive KickOffLabel where
  | ioctl (l : IoctlLabel)
  | enter (t : ℕ) (x : ChanStart)
  | spinLock (t : ℕ)
  | write (t : ℕ)
  | spinUnlock (t : ℕ)

namespace KickOffs
variable (dev : BifrostDevice) (hw : Hardware) (bar : Bar)

def setStart (s : KickOffs) (t : ℕ) (c : Option ChanStartCall) : KickOffs :=
  { s with starts := Function.update s.starts t c }

def lock (s : KickOffs) (t n : ℕ) (x : ChanStart) : KickOffs :=
  { s.setStart t (some ⟨n, x, .writing x.writes⟩) with
    regs := { s.regs with holder := Function.update s.regs.holder bar (some t) }
    order := s.order ++ [(n, x)] }

def writeReg (s : KickOffs) (t n : ℕ) (x : ChanStart) (w : BitVec 32 × BitVec 32)
    (rest : List (BitVec 32 × BitVec 32)) : KickOffs :=
  { s.setStart t (some ⟨n, x, .writing rest⟩) with
    regs := { s.regs with log := (dev.regb bar).fns.wr bar w.1 w.2 s.regs.log } }

def unlock (s : KickOffs) (t : ℕ) : KickOffs :=
  { s.setStart t none with
    regs := { s.regs with holder := Function.update s.regs.holder bar none } }

/-- One step of one thread, which is either in an ioctl or in a `bifrost_dma_chan_start`. -/
def step (s : KickOffs) : KickOffLabel → Option KickOffs
  | .ioctl l =>
    match s.starts l.thread with
    | none => (s.regs.step dev hw l).map fun r => { s with regs := r }
    | some _ => none
  | .enter t x =>
    match s.starts t, s.regs.calls t with
    | none, none =>
      some { s.setStart t (some ⟨s.entered.length, x, .waiting⟩) with entered := s.entered ++ [x] }
    | _, _ => none
  | .spinLock t =>
    match s.starts t with
    | some ⟨n, x, .waiting⟩ => if s.regs.holder bar = none then some (s.lock bar t n x) else none
    | _ => none
  | .write t =>
    match s.starts t with
    | some ⟨n, x, .writing (w :: rest)⟩ => some (s.writeReg dev bar t n x w rest)
    | _ => none
  | .spinUnlock t =>
    match s.starts t with
    | some ⟨_, _, .writing []⟩ => some (s.unlock bar t)
    | _ => none

def initial : KickOffs := ⟨.initial, fun _ => none, [], []⟩

/-- The call in its locked section that has still to start its transfer. -/
def launching (s : KickOffs) : List ChanStart :=
  match (s.regs.holder bar).bind s.starts with
  | some ⟨_, x, .writing (_ :: _)⟩ => [x]
  | _ => []

inductive Step (s : KickOffs) : KickOffLabel → KickOffs → Prop where
  | ioctl {l : IoctlLabel} {r : Concurrent} (hs : s.starts l.thread = none)
      (hr : s.regs.step dev hw l = some r) : Step s (.ioctl l) { s with regs := r }
  | enter {t : ℕ} {x : ChanStart} (hs : s.starts t = none) (hc : s.regs.calls t = none) :
      Step s (.enter t x) { s.setStart t (some ⟨s.entered.length, x, .waiting⟩) with
        entered := s.entered ++ [x] }
  | spinLock {t n : ℕ} {x : ChanStart} (hs : s.starts t = some ⟨n, x, .waiting⟩)
      (hfree : s.regs.holder bar = none) : Step s (.spinLock t) (s.lock bar t n x)
  | write {t n : ℕ} {x : ChanStart} {w : BitVec 32 × BitVec 32}
      {rest : List (BitVec 32 × BitVec 32)} (hs : s.starts t = some ⟨n, x, .writing (w :: rest)⟩) :
      Step s (.write t) (s.writeReg dev bar t n x w rest)
  | spinUnlock {t n : ℕ} {x : ChanStart} (hs : s.starts t = some ⟨n, x, .writing []⟩) :
      Step s (.spinUnlock t) (s.unlock bar t)

variable {dev hw bar}

theorem Step.of_step {s t : KickOffs} {l : KickOffLabel} (h : s.step dev hw bar l = some t) :
    s.Step dev hw bar l t := by
  cases l with
  | ioctl l =>
    simp only [step] at h
    split at h
    · rename_i hs
      obtain ⟨r, hr, rfl⟩ := Option.map_eq_some_iff.mp h
      exact .ioctl hs hr
    · cases h
  | enter t x =>
    simp only [step] at h
    split at h
    · rename_i hs hc
      exact Option.some.inj h ▸ .enter hs hc
    · cases h
  | spinLock t =>
    simp only [step] at h
    split at h
    · rename_i n x hs
      obtain ⟨hfree, ⟨⟩⟩ := Option.ite_none_right_eq_some.mp h
      exact .spinLock hs hfree
    · cases h
  | write t =>
    simp only [step] at h
    split at h
    · rename_i n x w rest hs
      exact Option.some.inj h ▸ .write hs
    · cases h
  | spinUnlock t =>
    simp only [step] at h
    split at h
    · rename_i n x hs
      exact Option.some.inj h ▸ .spinUnlock hs
    · cases h

end KickOffs

def kickOffs (dev : BifrostDevice) (hw : Hardware) (bar : Bar) :
    Machine KickOffs KickOffLabel where
  start s := s = .initial
  step s := s.step dev hw bar

/-- The ioctl that is entered writes none of the registers of a call. -/
def SparesDma (dev : BifrostDevice) (bar : Bar) (_ : KickOffs) : KickOffLabel → Prop
  | .ioctl (.enter _ sys req) =>
    ∀ a ∈ dev.accesses sys req, a.Spares dev bar DmaUnit.IsRegister
  | _ => True

namespace KickOffs
variable {dev : BifrostDevice} {hw : Hardware} {bar : Bar} {s s' : KickOffs} {l : KickOffLabel}

/-! ## The calls and their numbers -/

/-- Each call under way, and each that has taken the lock, goes by its own number, and none is
missing. -/
structure Numbered (s : KickOffs) : Prop where
  params : ∀ t c, s.starts t = some c → s.entered[c.number]? = some c.params
  distinct : ∀ t u c d, s.starts t = some c → s.starts u = some d → c.number = d.number → t = u
  waiting : ∀ t n x, s.starts t = some ⟨n, x, .waiting⟩ → n ∉ s.order.map Prod.fst
  ordered : ∀ x ∈ s.order, s.entered[x.1]? = some x.2
  nodup : (s.order.map Prod.fst).Nodup
  complete : ∀ n < s.entered.length, n ∈ s.order.map Prod.fst ∨
    ∃ t x, s.starts t = some ⟨n, x, .waiting⟩

theorem numbered_initial : Numbered .initial where
  params _ _ h := by cases h
  distinct _ _ _ _ h := by cases h
  waiting _ _ _ h := by cases h
  ordered _ h := by cases h
  nodup := List.nodup_nil
  complete _ h := absurd h (Nat.not_lt_zero _)

theorem starts_update {f : ℕ → Option ChanStartCall} {t u : ℕ} {o : Option ChanStartCall}
    {c : ChanStartCall}
    (h : Function.update f t o u = some c) : u = t ∧ o = some c ∨ u ≠ t ∧ f u = some c := by
  by_cases hut : u = t
  · rw [hut, Function.update_self] at h
    exact .inl ⟨hut, h⟩
  · rw [Function.update_of_ne hut] at h
    exact .inr ⟨hut, h⟩

theorem getElem?_snoc {α : Type*} {xs : List α} {n : ℕ} {a : α} (h : xs[n]? = some a) (b : α) :
    (xs ++ [b])[n]? = some a := by
  obtain ⟨hn, -⟩ := List.getElem?_eq_some_iff.mp h
  rw [List.getElem?_append_left hn, h]

theorem Numbered.lt (hs : s.Numbered) {n : ℕ} (h : n ∈ s.order.map Prod.fst) :
    n < s.entered.length := by
  obtain ⟨x, hx, rfl⟩ := List.mem_map.mp h
  exact (List.getElem?_eq_some_iff.mp (hs.ordered x hx)).1

theorem Numbered.enter (hs : s.Numbered) {t : ℕ} (ht : s.starts t = none) (x : ChanStart) :
    Numbered { s.setStart t (some ⟨s.entered.length, x, .waiting⟩) with
      entered := s.entered ++ [x] } where
  params u c hu := by
    rcases starts_update hu with ⟨-, hnew⟩ | ⟨-, hold⟩
    · cases hnew
      exact List.getElem?_concat_length
    · exact getElem?_snoc (hs.params u c hold) x
  distinct u v c d hu hv hnum := by
    have hlt : ∀ w e, s.starts w = some e → e.number < s.entered.length :=
      fun w e he => (List.getElem?_eq_some_iff.mp (hs.params w e he)).1
    rcases starts_update hu with ⟨rfl, hc⟩ | ⟨-, hc⟩
    · rcases starts_update hv with ⟨rfl, -⟩ | ⟨-, hd⟩
      · rfl
      · cases hc
        exact absurd hnum (hlt v d hd).ne'
    · rcases starts_update hv with ⟨-, hd⟩ | ⟨-, hd⟩
      · cases hd
        exact absurd hnum (hlt u c hc).ne
      · exact hs.distinct u v c d hc hd hnum
  waiting u n y hu := by
    rcases starts_update hu with ⟨-, hnew⟩ | ⟨-, hold⟩
    · cases hnew
      exact fun hmem => lt_irrefl _ (hs.lt hmem)
    · exact hs.waiting u n y hold
  ordered y hy := getElem?_snoc (hs.ordered y hy) x
  nodup := hs.nodup
  complete n hn := by
    rcases Nat.lt_succ_iff_lt_or_eq.mp (List.length_append ▸ hn) with hlt | rfl
    · rcases hs.complete n hlt with hmem | ⟨u, y, hu⟩
      · exact .inl hmem
      · refine .inr ⟨u, y, (Function.update_of_ne ?_ _ _).trans hu⟩
        rintro rfl
        rw [ht] at hu
        cases hu
    · exact .inr ⟨t, x, Function.update_self _ _ _⟩

/-- After a call has got further, or returned, each call was under way before with its number and
its parameters; those that still wait for the lock are the same. -/
theorem starts_old {t : ℕ} {c : ChanStartCall} (ht : s.starts t = some c) {o : Option ChanStartCall}
    (ho : ∀ d, o = some d → ∃ todo, d = ⟨c.number, c.params, .writing todo⟩) {u : ℕ}
    {d : ChanStartCall} (hu : Function.update s.starts t o u = some d) :
    ∃ e, s.starts u = some e ∧ e.number = d.number ∧ e.params = d.params ∧
      (d.phase = .waiting → u ≠ t ∧ e = d) := by
  rcases starts_update hu with ⟨rfl, hd⟩ | ⟨hut, hd⟩
  · obtain ⟨todo, rfl⟩ := ho d hd
    exact ⟨c, ht, rfl, rfl, nofun⟩
  · exact ⟨d, hd, rfl, rfl, fun _ => ⟨hut, rfl⟩⟩

theorem Numbered.proceed (hs : s.Numbered) {t : ℕ} {c : ChanStartCall} (ht : s.starts t = some c)
    (hc : c.phase ≠ .waiting) {o : Option ChanStartCall}
    (ho : ∀ d, o = some d → ∃ todo, d = ⟨c.number, c.params, .writing todo⟩)
    (hstarts : s'.starts = Function.update s.starts t o) (hentered : s'.entered = s.entered)
    (horder : s'.order = s.order) : s'.Numbered where
  params u d hu := by
    obtain ⟨e, he, hnum, hparams, -⟩ := starts_old ht ho (hstarts ▸ hu)
    rw [hentered, ← hnum, ← hparams]
    exact hs.params u e he
  distinct u v d d' hu hv hnum := by
    obtain ⟨e, he, hd, -⟩ := starts_old ht ho (hstarts ▸ hu)
    obtain ⟨e', he', hd', -⟩ := starts_old ht ho (hstarts ▸ hv)
    exact hs.distinct u v e e' he he' (hd.trans (hnum.trans hd'.symm))
  waiting u n x hu := by
    obtain ⟨e, he, -, -, hwait⟩ := starts_old ht ho (hstarts ▸ hu)
    rw [horder]
    exact hs.waiting u n x ((hwait rfl).2 ▸ he)
  ordered x hx := by
    rw [hentered]
    exact hs.ordered x (horder ▸ hx)
  nodup := horder ▸ hs.nodup
  complete n hn := by
    rw [horder]
    rcases hs.complete n (hentered ▸ hn) with hmem | ⟨u, x, hu⟩
    · exact .inl hmem
    · refine .inr ⟨u, x, ?_⟩
      rw [hstarts, Function.update_of_ne, hu]
      rintro rfl
      rw [ht] at hu
      exact hc (congrArg ChanStartCall.phase (Option.some.inj hu))

theorem Numbered.lock (hs : s.Numbered) {t n : ℕ} {x : ChanStart}
    (ht : s.starts t = some ⟨n, x, .waiting⟩) : (s.lock bar t n x).Numbered := by
  have ho : ∀ d, some (ChanStartCall.mk n x (.writing x.writes)) = some d →
      ∃ todo, d = ⟨n, x, .writing todo⟩ := fun d hd => ⟨x.writes, (Option.some.inj hd).symm⟩
  have horder : (s.lock bar t n x).order.map Prod.fst = s.order.map Prod.fst ++ [n] :=
    List.map_append
  refine ⟨?_, ?_, ?_, ?_, ?_, ?_⟩
  · intro u d hu
    obtain ⟨e, he, hnum, hparams, -⟩ := starts_old ht ho hu
    rw [← hnum, ← hparams]
    exact hs.params u e he
  · intro u v d d' hu hv hnum
    obtain ⟨e, he, hd, -⟩ := starts_old ht ho hu
    obtain ⟨e', he', hd', -⟩ := starts_old ht ho hv
    exact hs.distinct u v e e' he he' (hd.trans (hnum.trans hd'.symm))
  · intro u m y hu
    obtain ⟨e, he, -, -, hwait⟩ := starts_old ht ho hu
    obtain ⟨hut, rfl⟩ := hwait rfl
    rw [horder]
    intro hmem
    rcases List.mem_append.mp hmem with hmem | hmem
    · exact hs.waiting u m y he hmem
    · exact hut (hs.distinct u t _ _ he ht (List.mem_singleton.mp hmem))
  · intro y hy
    rcases List.mem_append.mp hy with hy | hy
    · exact hs.ordered y hy
    · rw [List.mem_singleton.mp hy]
      exact hs.params t _ ht
  · rw [horder]
    refine List.nodup_append.mpr ⟨hs.nodup, List.nodup_singleton n, ?_⟩
    rintro m hm _ hn rfl
    exact hs.waiting t n x ht (List.mem_singleton.mp hn ▸ hm)
  · intro m hm
    rw [horder]
    rcases hs.complete m hm with hmem | ⟨u, y, hu⟩
    · exact .inl (List.mem_append_left _ hmem)
    · by_cases hut : u = t
      · subst hut
        rw [ht] at hu
        cases hu
        exact .inl (List.mem_append_right _ (List.mem_singleton_self n))
      · exact .inr ⟨u, y, (Function.update_of_ne hut _ _).trans hu⟩

theorem Numbered.step (hs : s.Numbered) (h : s.Step dev hw bar l s') : s'.Numbered := by
  cases h with
  | ioctl hs' hr => exact ⟨hs.params, hs.distinct, hs.waiting, hs.ordered, hs.nodup, hs.complete⟩
  | enter ht hc => exact hs.enter ht _
  | spinLock ht hfree => exact hs.lock ht
  | @write t n x w rest ht =>
    exact hs.proceed ht nofun (fun d hd => ⟨rest, (Option.some.inj hd).symm⟩) rfl rfl rfl
  | spinUnlock ht => exact hs.proceed (o := none) ht nofun nofun rfl rfl rfl

/-! ## The locked sections one after the other -/

/-- Of the bus operations of an ioctl that spares the registers the controller notices nothing. -/
theorem react_ioctl (u : DmaUnit) {r : Concurrent} {t : ℕ} {op : BusOp}
    (hspares : ∀ t c, r.calls t = some c → ∀ a ∈ c.todo, a.Spares dev bar DmaUnit.IsRegister)
    (hop : r.pendingOp dev t = some op) : DmaUnit.react bar u op = u := by
  rcases Concurrent.pendingOp_spec hop with ⟨b, offset, rfl⟩ |
    ⟨c, a, b, offset, value, hc, ha, hw, rfl⟩
  · cases (dev.regb b).fns <;> rfl
  · by_cases hb : b = bar
    · subst hb
      have hspare := hspares t c hc a ha offset hw
      cases hfns : (dev.regb b).fns with
      | membusDeviceMemory => rfl
      | deviceMemory =>
        rw [hfns] at hspare
        have hne : ¬ DmaUnit.IsRegister offset.toNat := by
          intro hreg
          exact hspare _ hreg ⟨le_refl _, Nat.lt_add_of_pos_right (by decide)⟩
        exact (if_pos rfl).trans (DmaUnit.write_of_ne hne value)
    · cases (dev.regb b).fns with
      | membusDeviceMemory => rfl
      | deviceMemory => exact if_neg hb

theorem react_write (hfns : (dev.regb bar).fns = .deviceMemory) (u : DmaUnit)
    (w : BitVec 32 × BitVec 32) :
    DmaUnit.react bar u ((dev.regb bar).fns.writeOp bar w.1 w.2) = u.write w.1.toNat w.2 := by
  rw [hfns]
  exact if_pos rfl

/-- The writes that a call in its locked section has still to make complete the launches of all the
calls that have taken the lock; with no call in its section they are complete. -/
structure Serial (dev : BifrostDevice) (hw : Hardware) (bar : Bar) (u : DmaUnit) (s : KickOffs) :
    Prop where
  regs : s.regs.Inv dev hw
  apart : ∀ t c, s.starts t = some c → s.regs.calls t = none
  held : ∀ t n x todo, s.starts t = some ⟨n, x, .writing todo⟩ → s.regs.holder bar = some t
  spares : ∀ t c, s.regs.calls t = some c → ∀ a ∈ c.todo, a.Spares dev bar DmaUnit.IsRegister
  suffix : ∀ t n x todo, s.starts t = some ⟨n, x, .writing todo⟩ → todo <:+ x.writes
  completes : ∀ t n x todo, s.starts t = some ⟨n, x, .writing todo⟩ →
    ((u.after bar s.regs.log).writeAll todo).launched = s.order.map Prod.snd
  lacks : ∀ t n x todo, s.starts t = some ⟨n, x, .writing todo⟩ → todo ≠ [] →
    s.order.map Prod.snd = (u.after bar s.regs.log).launched ++ [x]
  idle : (∀ t n x todo, s.starts t ≠ some ⟨n, x, .writing todo⟩) →
    (u.after bar s.regs.log).launched = s.order.map Prod.snd

variable {u : DmaUnit}

theorem serial_initial (hu : u.launched = []) : Serial dev hw bar u .initial where
  regs := Concurrent.inv_initial
  apart _ _ h := by cases h
  held _ _ _ _ h := by cases h
  spares _ _ h := by cases h
  suffix _ _ _ _ h := by cases h
  completes _ _ _ _ h := by cases h
  lacks _ _ _ _ h := by cases h
  idle _ := hu

theorem Serial.unique (hs : s.Serial dev hw bar u) {t v n m : ℕ} {x y : ChanStart}
    {todo todo' : List (BitVec 32 × BitVec 32)} (ht : s.starts t = some ⟨n, x, .writing todo⟩)
    (hv : s.starts v = some ⟨m, y, .writing todo'⟩) : v = t := by
  have hheld := hs.held v m y todo' hv
  rw [hs.held t n x todo ht] at hheld
  exact (Option.some.inj hheld).symm

theorem Serial.ioctl (hs : s.Serial dev hw bar u) {l : IoctlLabel} {r : Concurrent}
    (hok : SparesDma dev bar s (.ioctl l)) (hidle : s.starts l.thread = none)
    (hr : s.regs.step dev hw l = some r) : Serial dev hw bar u { s with regs := r } := by
  have hne : ∀ t c, s.starts t = some c → t ≠ l.thread := by
    rintro t c ht rfl
    rw [hidle] at ht
    cases ht
  have hunit : u.after bar r.log = u.after bar s.regs.log := by
    rcases Concurrent.log_step hr with hlog | ⟨op, hop, hlog⟩
    · rw [hlog]
    · rw [hlog, DmaUnit.after_snoc, react_ioctl _ hs.spares hop]
  refine ⟨Concurrent.inv_step hs.regs hr, fun t c ht => ?_, fun t n x todo ht => ?_,
    fun t c ht a ha => ?_, hs.suffix, ?_, ?_, ?_⟩
  · exact (Concurrent.calls_of_ne hr (hne t c ht)).trans (hs.apart t c ht)
  · exact Concurrent.holder_of_ne hs.regs hr (hne t _ ht) (hs.held t n x todo ht)
  · by_cases hthread : t = l.thread
    · subst hthread
      rcases Concurrent.todo_step hr ht ha with ⟨d, hd, had⟩ | ⟨t, sys, req, rfl, hacc⟩
      · exact hs.spares _ d hd a had
      · exact hok a hacc
    · rw [Concurrent.calls_of_ne hr hthread] at ht
      exact hs.spares t c ht a ha
  · change ∀ t n x todo, _ → ((u.after bar r.log).writeAll todo).launched = _
    rw [hunit]
    exact hs.completes
  · change ∀ t n x todo, _ → _ → _ = (u.after bar r.log).launched ++ [x]
    rw [hunit]
    exact hs.lacks
  · change _ → (u.after bar r.log).launched = _
    rw [hunit]
    exact hs.idle

theorem Serial.enter (hs : s.Serial dev hw bar u) {t : ℕ} {x : ChanStart}
    (ht : s.starts t = none) (hc : s.regs.calls t = none) {n : ℕ} {entered : List ChanStart} :
    Serial dev hw bar u
      { s.setStart t (some ⟨n, x, .waiting⟩) with entered := entered } := by
  have hold : ∀ v m y todo, Function.update s.starts t (some ⟨n, x, .waiting⟩) v =
      some ⟨m, y, .writing todo⟩ → s.starts v = some ⟨m, y, .writing todo⟩ := by
    intro v m y todo hv
    rcases starts_update hv with ⟨-, hnew⟩ | ⟨-, hold⟩
    · cases hnew
    · exact hold
  refine ⟨hs.regs, fun v c hv => ?_, fun v m y todo hv => hs.held v m y todo (hold v m y todo hv),
    hs.spares, fun v m y todo hv => hs.suffix v m y todo (hold v m y todo hv),
    fun v m y todo hv => hs.completes v m y todo (hold v m y todo hv),
    fun v m y todo hv => hs.lacks v m y todo (hold v m y todo hv), fun hidle => hs.idle ?_⟩
  · rcases starts_update hv with ⟨rfl, -⟩ | ⟨-, hv⟩
    · exact hc
    · exact hs.apart v c hv
  · intro v m y todo hv
    refine hidle v m y todo ((Function.update_of_ne ?_ _ _).trans hv)
    rintro rfl
    rw [ht] at hv
    cases hv

/-- If no other call is in its locked section, the one that has got further is the only one. -/
theorem only_writing {t : ℕ} {o : Option ChanStartCall}
    (hs : ∀ v n x todo, s.starts v = some ⟨n, x, .writing todo⟩ → v = t) {v n : ℕ} {x : ChanStart}
    {todo : List (BitVec 32 × BitVec 32)}
    (hv : Function.update s.starts t o v = some ⟨n, x, .writing todo⟩) :
    v = t ∧ o = some ⟨n, x, .writing todo⟩ := by
  rcases starts_update hv with hnew | ⟨hne, hold⟩
  · exact hnew
  · exact absurd (hs v n x todo hold) hne

theorem Serial.lock (hs : s.Serial dev hw bar u) {t n : ℕ} {x : ChanStart}
    (ht : s.starts t = some ⟨n, x, .waiting⟩) (hfree : s.regs.holder bar = none) :
    (s.lock bar t n x).Serial dev hw bar u := by
  have hnone : ∀ v m y todo, s.starts v ≠ some ⟨m, y, .writing todo⟩ := by
    intro v m y todo hv
    have hheld := hs.held v m y todo hv
    rw [hfree] at hheld
    cases hheld
  have honly : ∀ v m y todo, (s.lock bar t n x).starts v = some ⟨m, y, .writing todo⟩ →
      v = t ∧ y = x ∧ todo = x.writes := by
    intro v m y todo hv
    obtain ⟨rfl, hnew⟩ := only_writing (fun w k z rest hw => absurd hw (hnone w k z rest)) hv
    cases hnew
    exact ⟨rfl, rfl, rfl⟩
  have horder : (s.lock bar t n x).order.map Prod.snd =
      (u.after bar s.regs.log).launched ++ [x] := by
    rw [hs.idle hnone]
    exact List.map_append
  refine ⟨?_, fun v c hv => ?_, fun v m y todo hv => ?_, hs.spares, fun v m y todo hv => ?_,
    fun v m y todo hv => ?_, fun v m y todo hv _ => ?_, fun hidle => ?_⟩
  · refine hs.regs.setHolder fun v c hv => ?_
    rw [hfree] at hv
    cases hv
  · rcases starts_update hv with ⟨rfl, -⟩ | ⟨-, hv⟩
    · exact hs.apart _ _ ht
    · exact hs.apart v c hv
  · obtain ⟨rfl, -, -⟩ := honly v m y todo hv
    exact Function.update_self _ _ _
  · obtain ⟨-, rfl, rfl⟩ := honly v m y todo hv
    exact List.suffix_refl _
  · obtain ⟨-, -, rfl⟩ := honly v m y todo hv
    rw [horder]
    exact DmaUnit.launched_writes _ x
  · obtain ⟨-, rfl, -⟩ := honly v m y todo hv
    exact horder
  · exact absurd (Function.update_self _ _ _) (hidle t n x x.writes)

theorem Serial.write (hfns : (dev.regb bar).fns = .deviceMemory) (hs : s.Serial dev hw bar u)
    {t n : ℕ} {x : ChanStart} {w : BitVec 32 × BitVec 32} {rest : List (BitVec 32 × BitVec 32)}
    (ht : s.starts t = some ⟨n, x, .writing (w :: rest)⟩) :
    (s.writeReg dev bar t n x w rest).Serial dev hw bar u := by
  have honly : ∀ v m y todo, (s.writeReg dev bar t n x w rest).starts v =
      some ⟨m, y, .writing todo⟩ → v = t ∧ y = x ∧ todo = rest := by
    intro v m y todo hv
    obtain ⟨rfl, hnew⟩ := only_writing (fun _ _ _ _ hw => hs.unique ht hw) hv
    cases hnew
    exact ⟨rfl, rfl, rfl⟩
  have hheld : s.regs.holder bar = some t := hs.held t n x _ ht
  have hunit : u.after bar (s.writeReg dev bar t n x w rest).regs.log =
      (u.after bar s.regs.log).write w.1.toNat w.2 := by
    rw [← react_write hfns]
    exact DmaUnit.after_snoc _ _ _ _
  have hsuffix := hs.suffix t n x _ ht
  refine ⟨?_, fun v c hv => ?_, fun v m y todo hv => ?_, hs.spares, fun v m y todo hv => ?_,
    fun v m y todo hv => ?_, fun v m y todo hv hne => ?_, fun hidle => ?_⟩
  · exact hs.regs.foreign (hs.apart t _ ht) (by rw [AccessFns.writeOp_bar, hheld])
  · rcases starts_update hv with ⟨rfl, -⟩ | ⟨-, hv⟩
    · exact hs.apart _ _ ht
    · exact hs.apart v c hv
  · obtain ⟨rfl, -, -⟩ := honly v m y todo hv
    exact hheld
  · obtain ⟨-, rfl, rfl⟩ := honly v m y todo hv
    exact (List.suffix_cons w _).trans hsuffix
  · obtain ⟨-, -, rfl⟩ := honly v m y todo hv
    rw [hunit]
    exact hs.completes t n x _ ht
  · obtain ⟨-, rfl, rfl⟩ := honly v m y todo hv
    rw [hunit, DmaUnit.launched_setting _ (ChanStart.mem_settings hsuffix hne)]
    exact hs.lacks t n y _ ht (List.cons_ne_nil _ _)
  · exact absurd (Function.update_self _ _ _) (hidle t n x rest)

theorem Serial.unlock (hs : s.Serial dev hw bar u) {t n : ℕ} {x : ChanStart}
    (ht : s.starts t = some ⟨n, x, .writing []⟩) : (s.unlock bar t).Serial dev hw bar u := by
  have hnone : ∀ v m y todo, (s.unlock bar t).starts v ≠ some ⟨m, y, .writing todo⟩ := by
    intro v m y todo hv
    obtain ⟨-, hnew⟩ := only_writing (fun _ _ _ _ hw => hs.unique ht hw) hv
    cases hnew
  have hheld : s.regs.holder bar = some t := hs.held t n x _ ht
  refine ⟨?_, fun v c hv => ?_, fun v m y todo hv => absurd hv (hnone v m y todo), hs.spares,
    fun v m y todo hv => absurd hv (hnone v m y todo),
    fun v m y todo hv => absurd hv (hnone v m y todo),
    fun v m y todo hv => absurd hv (hnone v m y todo), fun _ => hs.completes t n x [] ht⟩
  · refine hs.regs.setHolder fun v c hv hc => ?_
    obtain rfl := Option.some.inj (hheld.symm.trans hv)
    rw [hs.apart _ _ ht] at hc
    cases hc
  · rcases starts_update hv with ⟨-, hnew⟩ | ⟨-, hv⟩
    · cases hnew
    · exact hs.apart v c hv

theorem Serial.step (hfns : (dev.regb bar).fns = .deviceMemory) (hs : s.Serial dev hw bar u)
    (hok : SparesDma dev bar s l) (h : s.Step dev hw bar l s') : s'.Serial dev hw bar u := by
  cases h with
  | ioctl hidle hr => exact hs.ioctl hok hidle hr
  | enter ht hc => exact hs.enter ht hc
  | spinLock ht hfree => exact hs.lock ht hfree
  | write ht => exact hs.write hfns ht
  | spinUnlock ht => exact hs.unlock ht

theorem reachable_serial (hfns : (dev.regb bar).fns = .deviceMemory) (hu : u.launched = [])
    (h : (kickOffs dev hw bar).ReachableUnder (SparesDma dev bar) s) : s.Serial dev hw bar u :=
  Machine.ReachableUnder.invariant (M := kickOffs dev hw bar) (fun _ h => h ▸ serial_initial hu)
    (fun _ _ _ hs hok h => hs.step hfns hok (.of_step h)) h

theorem reachable_numbered (h : (kickOffs dev hw bar).ReachableUnder (SparesDma dev bar) s) :
    s.Numbered :=
  Machine.ReachableUnder.invariant (M := kickOffs dev hw bar) (fun _ h => h ▸ numbered_initial)
    (fun _ _ _ hs _ h => hs.step (.of_step h)) h

/-- The launches lack at most that of the call in its locked section. -/
theorem Serial.launched (hs : s.Serial dev hw bar u) :
    (u.after bar s.regs.log).launched ++ s.launching bar = s.order.map Prod.snd := by
  by_cases hany : ∃ t n x todo, s.starts t = some ⟨n, x, .writing todo⟩
  · obtain ⟨t, n, x, todo, ht⟩ := hany
    rw [launching, hs.held t n x todo ht, Option.bind_some, ht]
    cases todo with
    | nil => exact (List.append_nil _).trans (hs.completes t n x [] ht)
    | cons w rest => exact (hs.lacks t n x _ ht (List.cons_ne_nil w rest)).symm
  · have hnone : s.launching bar = [] := by
      unfold launching
      split
      · rename_i n x w rest hc
        obtain ⟨t, -, ht⟩ := Option.bind_eq_some_iff.mp hc
        exact absurd ⟨t, n, x, w :: rest, ht⟩ hany
      · rfl
    rw [hnone, List.append_nil]
    exact hs.idle fun t n x todo ht => hany ⟨t, n, x, todo, ht⟩

theorem filterMap_getElem?_range {α : Type*} (xs : List α) :
    ((List.range xs.length).filterMap fun n => xs[n]?) = xs := by
  induction xs using List.reverseRecOn with
  | nil => rfl
  | append_singleton xs a ih =>
    have hold : ((List.range xs.length).filterMap fun n => (xs ++ [a])[n]?) = xs := by
      rw [List.filterMap_congr fun n hn => List.getElem?_append_left (List.mem_range.mp hn), ih]
    rw [List.length_append, List.length_singleton, List.range_succ, List.filterMap_append, hold]
    simp

/-- With no call under way, those that have taken the lock are all calls. -/
theorem Numbered.perm (hs : s.Numbered) (hidle : ∀ t, s.starts t = none) :
    (s.order.map Prod.snd).Perm s.entered := by
  have hrange : (s.order.map Prod.fst).Perm (List.range s.entered.length) := by
    apply (List.perm_ext_iff_of_nodup hs.nodup List.nodup_range).mpr
    intro n
    rw [List.mem_range]
    refine ⟨hs.lt, fun hn => (hs.complete n hn).resolve_right ?_⟩
    rintro ⟨t, x, ht⟩
    rw [hidle t] at ht
    cases ht
  have horder : (s.order.map Prod.fst).filterMap (fun n => s.entered[n]?) =
      s.order.map Prod.snd := by
    rw [List.filterMap_map, ← List.filterMap_eq_map]
    exact List.filterMap_congr fun x hx => hs.ordered x hx
  have hperm := hrange.filterMap fun n => s.entered[n]?
  rwa [horder, filterMap_getElem?_range] at hperm

end KickOffs

theorem dmaBar_fns (p : Platform) (resourceLen : Bar → ℕ) (iomapOk : Bar → Bool) :
    ((pciDevice p.fvd resourceLen iomapOk).regb p.dmaBar).fns = .deviceMemory := by
  obtain ⟨rocky, evander, eoco, ec702⟩ := p
  cases rocky <;> cases evander <;> cases eoco <;> cases ec702 <;> rfl

/-- In every interleaving with register ioctls that spare the registers of a call, the controller
launches the parameters of the calls in the order in which they take the lock, all but those of the
call in its section; each call takes the lock once, unless it still waits for it; and when no call
is under way, the calls and the launches are the same. -/
theorem kick_offs_launch_own (p : Platform) (resourceLen : Bar → ℕ) (iomapOk : Bar → Bool)
    (hw : Hardware) (chan : BitVec 32) (sets : BitVec 32 → ChanRegisters) {s : KickOffs}
    (h : (kickOffs (pciDevice p.fvd resourceLen iomapOk) hw p.dmaBar).ReachableUnder
      (SparesDma (pciDevice p.fvd resourceLen iomapOk) p.dmaBar) s) :
    (DmaUnit.after ⟨chan, sets, []⟩ p.dmaBar s.regs.log).launched ++ s.launching p.dmaBar =
      s.order.map Prod.snd ∧
    (s.order.map Prod.fst).Nodup ∧ (∀ x ∈ s.order, s.entered[x.1]? = some x.2) ∧
    (∀ n < s.entered.length, n ∈ s.order.map Prod.fst ∨
      ∃ t x, s.starts t = some ⟨n, x, .waiting⟩) ∧
    ((∀ t, s.starts t = none) →
      ((DmaUnit.after ⟨chan, sets, []⟩ p.dmaBar s.regs.log).launched).Perm s.entered) := by
  have hserial := KickOffs.reachable_serial (dmaBar_fns p resourceLen iomapOk)
    (u := ⟨chan, sets, []⟩) rfl h
  have hnumbered := KickOffs.reachable_numbered h
  refine ⟨hserial.launched, hnumbered.nodup, hnumbered.ordered, hnumbered.complete, ?_⟩
  intro hidle
  rw [hserial.idle fun t n x todo ht => by rw [hidle t] at ht; cases ht]
  exact hnumbered.perm hidle

def fpgaReq : DmaReq := ⟨0, 0x10, 0x20, 32, .down, 1, 8, none⟩

/-- Two kick-offs, the second of which is first to take the lock, beside a `MODIFY_REGB`. -/
def crossing : List KickOffLabel :=
  [.enter 0 (kickOffXfer 2 fpgaReq), .enter 1 (kickOffXfer 4 { fpgaReq with dir := .up }),
    .ioctl (.enter 2 ⟨true, true, true, true⟩ (.modifyRegb 3 0x200 0 1)), .spinLock 1, .write 1,
    .write 1, .write 1, .write 1, .write 1, .write 1, .spinUnlock 1, .ioctl (.spinLock 2),
    .ioctl (.access 2), .ioctl (.access 2), .ioctl (.spinUnlock 2), .spinLock 0, .write 0, .write 0]

def rockyDevice : BifrostDevice := pciDevice true (fun _ => 4096) fun _ => true

theorem crossing_spares : ∀ l ∈ crossing, ∀ s, SparesDma rockyDevice 3 s l := by
  have hmodify : ∀ a ∈ rockyDevice.accesses ⟨true, true, true, true⟩ (.modifyRegb 3 0x200 0 1),
      a.Spares rockyDevice 3 DmaUnit.IsRegister := by
    intro a ha offset hoffset n hn hle
    obtain rfl : a = .modify 3 0x200 0 1 := List.mem_singleton.mp ha
    obtain rfl : 0x200 = offset := congrArg Prod.snd (Option.some.inj hoffset)
    exact absurd (hn.2.trans_le (by decide)) (not_lt.mpr hle.1)
  intro l hl s
  simp only [crossing, List.mem_cons, List.not_mem_nil, or_false] at hl
  rcases hl with rfl | rfl | rfl | rfl | rfl | rfl | rfl | rfl | rfl | rfl | rfl | rfl | rfl | rfl |
    rfl | rfl | rfl | rfl
  all_goals first | exact trivial | exact hmodify

theorem kick_offs_launch_own_crossing : ∃ s : KickOffs,
    s.order = [(1, ⟨4, 0x10, 0x20, 32, 1⟩), (0, ⟨2, 0x10, 0x20, 32, 0⟩)] ∧
    (DmaUnit.after ⟨7, fun _ => ⟨0, 0, 0, 0⟩, []⟩ 3 s.regs.log).launched ++ s.launching 3 =
      s.order.map Prod.snd := by
  have hrun : ((kickOffs rockyDevice (fun _ _ => 0) 3).exec .initial crossing).map KickOffs.order =
      some [(1, ⟨4, 0x10, 0x20, 32, 1⟩), (0, ⟨2, 0x10, 0x20, 32, 0⟩)] := by decide
  obtain ⟨s, hs, horder⟩ := Option.map_eq_some_iff.mp hrun
  have hreach := Machine.ReachableUnder.of_exec (.start rfl) crossing_spares hs
  exact ⟨s, horder, (kick_offs_launch_own ⟨true, false, false, false⟩ _ _ _ 7 _ hreach).1⟩

end BifrostModule.Dma
