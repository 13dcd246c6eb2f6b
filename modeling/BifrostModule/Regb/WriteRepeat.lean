import BifrostModule.Regb.Inside

/-! # `WRITE_REPEAT_REGB` and its user buffer

The result of `copy_from_user` and those of the register writes share the variable
`rc`, and the loop runs whatever the copy has left there. The size of the buffer is a
product in a `size_t`, while the loop takes every value that the user asked for.
-/
namespace BifrostModule.Regb
open Foundation

/-- Outcomes of the kernel services: the argument copied in, the buffer allocated, the bytes that
`copy_from_user` leaves uncopied, and the error of the `i`-th call of `mem->wr`. -/
structure RepeatServices where
  argCopied : Bool
  allocated : Bool
  uncopied : ℕ
  wr : ℕ → Option Errno

/-- The return value, the bus operations so far, and the calls of `kmalloc` that succeeded and of
`kfree`. -/
structure RepeatOutcome where
  rc : ℤ
  log : List BusOp
  allocated : ℕ
  freed : ℕ

/-- `sizeof(u32) * count` in a `size_t` of `w` bits. -/
def bufferSize (w : ℕ) (count : BitVec 32) : ℕ := 4 * count.toNat % 2 ^ w

/-- `buf[i]`, where addresses have `w` bits too. -/
def wordAt (w : ℕ) (bytes : ℕ → BitVec 8) (i : ℕ) : BitVec 32 :=
  bytes ((4 * i + 3) % 2 ^ w) ++ bytes ((4 * i + 2) % 2 ^ w) ++ bytes ((4 * i + 1) % 2 ^ w) ++
    bytes (4 * i % 2 ^ w)

/-- The bytes from the start of the buffer on, the first `n` of which have been copied in; `rest`
holds what lies there otherwise. -/
def kernelBuf (user rest : ℕ → BitVec 8) (n : ℕ) : ℕ → BitVec 8 :=
  fun i => if i < n then user i else rest i

def RepeatServices.copied (sys : RepeatServices) (w : ℕ) (count : BitVec 32) : ℕ :=
  bufferSize w count - sys.uncopied

def rcOf (err : Option Errno) : ℤ := err.elim 0 Errno.toInt

namespace BifrostDevice
variable (dev : BifrostDevice) (bar offset : BitVec 32)

/-- `do_write_regb`, where `mem->wr` fails with the error, if there is one. -/
def doWriteRegbRc (value : BitVec 32) (err : Option Errno) (log : List BusOp) : ℤ × List BusOp :=
  match dev.checkBarAccess bar wrAccess offset with
  | .error e => (e.toInt, log)
  | .ok b => (rcOf err, (dev.regb b).fns.wr b offset value log)

/-- The loop from index `i` on, with `n` values to go. -/
def repeatLoop (buf : ℕ → BitVec 32) (wr : ℕ → Option Errno) :
    ℕ → ℕ → ℤ → List BusOp → ℤ × List BusOp
  | 0, _, rc, log => (rc, log)
  | n + 1, i, _, log =>
    let r := dev.doWriteRegbRc bar offset (buf i) (wr i) log
    if r.1 < 0 then r else repeatLoop buf wr n (i + 1) r.1 r.2

/-- `WRITE_REPEAT_REGB`, with a `size_t` of `w` bits. -/
def writeRepeatRegb (w : ℕ) (sys : RepeatServices) (count : BitVec 32)
    (user rest : ℕ → BitVec 8) (log : List BusOp) : RepeatOutcome :=
  if ¬ (sys.argCopied ∧ sys.allocated) then ⟨Errno.toInt .ENOMEM, log, 0, 0⟩
  else
    let buf := wordAt w (kernelBuf user rest (sys.copied w count))
    let rc := if sys.uncopied ≠ 0 then Errno.toInt .EFAULT else 0
    let r := dev.repeatLoop bar offset buf sys.wr count.toNat 0 rc log
    ⟨r.1, r.2, 1, 1⟩

end BifrostDevice

/-- The argument, the buffer and every byte of the user's values are there. -/
def RepeatServices.Copied (sys : RepeatServices) (w : ℕ) (count : BitVec 32) : Prop :=
  sys.argCopied ∧ sys.allocated ∧ sys.copied w count = 4 * count.toNat

section Promise
variable (dev : BifrostDevice) (bar offset : BitVec 32)

def writesFrom (b : Bar) (buf : ℕ → BitVec 32) (i k : ℕ) : List BusOp :=
  (List.range k).map fun j => (dev.regb b).fns.writeOp b offset (buf (i + j))

/-- Of the `n` values from index `i` on, all are written, or those up to the first failing write,
with its error. -/
def WritesUntil (b : Bar) (buf : ℕ → BitVec 32) (wr : ℕ → Option Errno) (n i : ℕ)
    (log : List BusOp) (rc : ℤ) (log' : List BusOp) : Prop :=
  (rc = 0 ∧ (∀ j < n, wr (i + j) = none) ∧ log' = log ++ writesFrom dev offset b buf i n) ∨
  ∃ k < n, ∃ e, wr (i + k) = some e ∧ (∀ j < k, wr (i + j) = none) ∧ rc = e.toInt ∧
    log' = log ++ writesFrom dev offset b buf i (k + 1)

/-- All values of the user are written or an error is returned, and nothing is written unless all
were copied in. -/
structure WritesOrReports (w : ℕ) (sys : RepeatServices) (count : BitVec 32)
    (user : ℕ → BitVec 8) (log : List BusOp) (o : RepeatOutcome) : Prop where
  incomplete : ¬ sys.Copied w count → o.log = log ∧ IsErrno o.rc
  granted : sys.Copied w count → ∀ b, dev.checkBarAccess bar wrAccess offset = .ok b →
    WritesUntil dev offset b (wordAt w user) sys.wr count.toNat 0 log o.rc o.log
  refused : sys.Copied w count → ∀ e, dev.checkBarAccess bar wrAccess offset = .error e →
    o.log = log ∧ o.rc = if count = 0 then 0 else e.toInt
  freed : o.freed = o.allocated

end Promise

namespace BifrostDevice
variable {dev : BifrostDevice} {bar offset : BitVec 32} {sys : RepeatServices}
  {count : BitVec 32} {buf : ℕ → BitVec 32} {wr : ℕ → Option Errno} {log : List BusOp}
  {w : ℕ} {user rest : ℕ → BitVec 8}

theorem wordAt_kernelBuf {n i : ℕ} (h : 4 * i + 4 ≤ n) :
    wordAt w (kernelBuf user rest n) i = wordAt w user i := by
  have hlt : ∀ k < 4, (4 * i + k) % 2 ^ w < n := fun k hk =>
    (Nat.mod_le _ _).trans_lt (by omega)
  have h0 : 4 * i % 2 ^ w < n := hlt 0 (by decide)
  simp only [wordAt, kernelBuf, if_pos h0, if_pos (hlt 1 (by decide)), if_pos (hlt 2 (by decide)),
    if_pos (hlt 3 (by decide))]

/-- All bytes of the values are copied exactly if none of the buffer is left and its size does not
wrap. -/
theorem copied_eq_iff (hle : sys.uncopied ≤ bufferSize w count) :
    sys.copied w count = 4 * count.toNat ↔ sys.uncopied = 0 ∧ 4 * count.toNat < 2 ^ w := by
  have hmod : 4 * count.toNat % 2 ^ w < 2 ^ w := Nat.mod_lt _ (Nat.two_pow_pos w)
  have hsize := Nat.mod_le (4 * count.toNat) (2 ^ w)
  rw [RepeatServices.copied]
  unfold bufferSize at hle ⊢
  constructor
  · intro h
    exact ⟨by omega, by omega⟩
  · rintro ⟨hu, hlt⟩
    rw [hu, Nat.mod_eq_of_lt hlt, Nat.sub_zero]

theorem repeatLoop_congr {buf' : ℕ → BitVec 32} {n i : ℕ} (h : ∀ j < n, buf (i + j) = buf' (i + j))
    (rc : ℤ) (log : List BusOp) : dev.repeatLoop bar offset buf wr n i rc log =
      dev.repeatLoop bar offset buf' wr n i rc log := by
  induction n generalizing i rc log with
  | zero => rfl
  | succ n ih =>
    have hfirst : buf i = buf' i := h 0 n.succ_pos
    have hrest : ∀ j < n, buf (i + 1 + j) = buf' (i + 1 + j) := fun j hj => by
      rw [add_assoc, add_comm 1]
      exact h (j + 1) (Nat.succ_lt_succ hj)
    rw [repeatLoop, repeatLoop, hfirst]
    split
    · rfl
    · exact ih hrest _ _

theorem rcOf_neg {err : Option Errno} : rcOf err < 0 ↔ err ≠ none := by
  cases err with
  | none => simp [rcOf]
  | some e => exact iff_of_true e.toInt_neg nofun

theorem writesFrom_succ (b : Bar) (buf : ℕ → BitVec 32) (i k : ℕ) :
    writesFrom dev offset b buf i (k + 1) =
      (dev.regb b).fns.writeOp b offset (buf i) :: writesFrom dev offset b buf (i + 1) k := by
  rw [writesFrom, List.range_succ_eq_map, List.map_cons, List.map_map, add_zero, writesFrom]
  simp only [List.cons.injEq, true_and]
  exact List.map_congr_left fun j _ => by simp only [Function.comp, add_assoc, add_comm 1]

theorem repeatLoop_granted (buf : ℕ → BitVec 32) (wr : ℕ → Option Errno) {b : Bar}
    (hb : dev.checkBarAccess bar wrAccess offset = .ok b) (n i : ℕ) (log : List BusOp) :
    WritesUntil dev offset b buf wr n i log (dev.repeatLoop bar offset buf wr n i 0 log).1
      (dev.repeatLoop bar offset buf wr n i 0 log).2 := by
  induction n generalizing i log with
  | zero => exact .inl ⟨rfl, fun _ h => absurd h (Nat.not_lt_zero _), (List.append_nil _).symm⟩
  | succ n ih =>
    rw [repeatLoop, doWriteRegbRc, hb]
    dsimp only
    by_cases hwr : wr i = none
    · rw [if_neg (by rw [rcOf_neg]; exact not_not.mpr hwr), hwr]
      have hrest := ih (i + 1) ((dev.regb b).fns.wr b offset (buf i) log)
      rw [AccessFns.wr_log] at hrest ⊢
      have hshift : ∀ j, wr (i + 1 + j) = wr (i + (j + 1)) := fun j => by
        rw [add_assoc, add_comm 1]
      have hnone : ∀ m, (∀ j < m, wr (i + 1 + j) = none) → ∀ j < m + 1, wr (i + j) = none := by
        intro m hall j hj
        cases j with
        | zero => exact hwr
        | succ j =>
          rw [← hshift]
          exact hall j (by omega)
      rcases hrest with ⟨hrc, hall, hlog⟩ | ⟨k, hk, e, he, hall, hrc, hlog⟩
      · refine .inl ⟨hrc, hnone n hall, ?_⟩
        rw [writesFrom_succ]
        exact hlog.trans (List.append_assoc _ _ _)
      · refine .inr ⟨k + 1, by omega, e, ?_, hnone k hall, hrc, ?_⟩
        · rw [← hshift]
          exact he
        · rw [writesFrom_succ]
          exact hlog.trans (List.append_assoc _ _ _)
    · rw [if_pos (rcOf_neg.mpr hwr)]
      obtain ⟨e, he⟩ := Option.ne_none_iff_exists'.mp hwr
      refine .inr ⟨0, by omega, e, he, fun _ h => absurd h (Nat.not_lt_zero _), ?_, ?_⟩
      · rw [he]
        rfl
      · rw [writesFrom_succ]
        rfl

/-- The copy's result is forgotten as soon as a value is written. -/
theorem repeatLoop_rc {n : ℕ} (hn : n ≠ 0) (i : ℕ) (rc rc' : ℤ) (log : List BusOp) :
    dev.repeatLoop bar offset buf wr n i rc log = dev.repeatLoop bar offset buf wr n i rc' log := by
  obtain ⟨m, rfl⟩ := Nat.exists_eq_succ_of_ne_zero hn
  rw [repeatLoop, repeatLoop]

theorem repeatLoop_refused {e : Errno} (he : dev.checkBarAccess bar wrAccess offset = .error e)
    {n : ℕ} (hn : n ≠ 0) (i : ℕ) (rc : ℤ) (log : List BusOp) :
    dev.repeatLoop bar offset buf wr n i rc log = (e.toInt, log) := by
  obtain ⟨m, rfl⟩ := Nat.exists_eq_succ_of_ne_zero hn
  rw [repeatLoop, doWriteRegbRc, he, if_pos e.toInt_neg]

theorem repeatLoop_log_ne {b : Bar} (hb : dev.checkBarAccess bar wrAccess offset = .ok b) {n : ℕ}
    (hn : n ≠ 0) (i : ℕ) (rc : ℤ) (log : List BusOp) :
    (dev.repeatLoop bar offset buf wr n i rc log).2 ≠ log := by
  rw [repeatLoop_rc hn i rc 0]
  obtain ⟨m, rfl⟩ := Nat.exists_eq_succ_of_ne_zero hn
  rcases repeatLoop_granted buf wr hb (m + 1) i log with
    ⟨-, -, hlog⟩ | ⟨k, -, e, -, -, -, hlog⟩
  all_goals
    rw [hlog, writesFrom_succ]
    simp

/-- `WRITE_REPEAT_REGB` writes all values or reports an error exactly if the argument or the buffer
is missing, all bytes of the values are copied in, or the first write is refused. -/
theorem writeRepeat_reports_iff (hle : sys.uncopied ≤ bufferSize w count) :
    WritesOrReports dev bar offset w sys count user log
      (dev.writeRepeatRegb bar offset w sys count user rest log) ↔
    ¬ (sys.argCopied ∧ sys.allocated) ∨ (sys.uncopied = 0 ∧ 4 * count.toNat < 2 ^ w) ∨
      ∃ e, dev.checkBarAccess bar wrAccess offset = .error e := by
  by_cases hsys : sys.argCopied ∧ sys.allocated
  · have hzero : count = 0 ↔ count.toNat = 0 := by
      rw [← BitVec.toNat_inj]
      rfl
    have hcopied : sys.Copied w count ↔ sys.uncopied = 0 ∧ 4 * count.toNat < 2 ^ w := by
      rw [← copied_eq_iff hle]
      simp only [RepeatServices.Copied, hsys.1, hsys.2, true_and]
    -- An ioctl that is asked for nothing has all of it.
    have hcount : ¬ sys.Copied w count → count.toNat ≠ 0 := by
      intro hnot h0
      refine hnot (hcopied.mpr ⟨?_, ?_⟩)
      · rw [bufferSize, h0] at hle
        exact Nat.le_zero.mp (hle.trans (Nat.mod_le _ _))
      · rw [h0]
        exact Nat.two_pow_pos w
    simp only [hsys.1, hsys.2, and_self, not_true_eq_false, false_or]
    rw [writeRepeatRegb, if_neg (not_not.mpr hsys), ← hcopied]
    dsimp only
    constructor
    · intro h
      by_cases hc : sys.Copied w count
      · exact .inl hc
      · right
        cases hcheck : dev.checkBarAccess bar wrAccess offset with
        | error e => exact ⟨e, rfl⟩
        | ok b =>
          have hlog := (h.incomplete hc).1
          exact absurd hlog (repeatLoop_log_ne hcheck (hcount hc) 0 _ log)
    · intro h
      refine ⟨?_, ?_, ?_, rfl⟩
      · intro hnot
        obtain ⟨e, he⟩ := h.resolve_left hnot
        rw [repeatLoop_refused he (hcount hnot)]
        exact ⟨rfl, e.isErrno⟩
      · intro hc b hb
        have hvalues : ∀ j < count.toNat,
            wordAt w (kernelBuf user rest (sys.copied w count)) (0 + j) =
              wordAt w user (0 + j) := by
          intro j hj
          apply wordAt_kernelBuf
          rw [hc.2.2]
          omega
        rw [if_neg (not_not.mpr (hcopied.mp hc).1), repeatLoop_congr hvalues]
        exact repeatLoop_granted _ _ hb count.toNat 0 log
      · intro hc e he
        rw [if_neg (not_not.mpr (hcopied.mp hc).1)]
        by_cases hn : count = 0
        · rw [if_pos hn, hzero.mp hn]
          exact ⟨rfl, rfl⟩
        · rw [if_neg hn, repeatLoop_refused he fun h0 => hn (hzero.mpr h0)]
          exact ⟨rfl, rfl⟩
  · refine iff_of_true ?_ (.inl hsys)
    have hnot : ¬ sys.Copied w count := fun hc => hsys ⟨hc.1, hc.2.1⟩
    rw [writeRepeatRegb, if_pos hsys]
    exact ⟨fun _ => ⟨rfl, Errno.isErrno .ENOMEM⟩, fun hc => absurd hc hnot,
      fun hc => absurd hc hnot, rfl⟩

/-- While no call of `mem->wr` fails, the loop is the one of the register ioctls. -/
theorem repeatLoop_writeLoop (hwr : ∀ i, wr i = none) (n i : ℕ) (log : List BusOp) :
    (dev.repeatLoop bar offset buf wr n i 0 log).2 =
      (dev.writeLoop bar offset ((List.range n).map fun j => buf (i + j)) log).2 := by
  induction n generalizing i log with
  | zero => rfl
  | succ n ih =>
    have htail : (List.range (n + 1)).map (fun j => buf (i + j)) =
        buf i :: (List.range n).map fun j => buf (i + 1 + j) := by
      rw [List.range_succ_eq_map, List.map_cons, List.map_map, add_zero]
      simp only [List.cons.injEq, true_and]
      exact List.map_congr_left fun j _ => by simp only [Function.comp, add_assoc, add_comm 1]
    rw [htail, repeatLoop, writeLoop, doWriteRegbRc, doWriteRegb, hwr]
    cases dev.checkBarAccess bar wrAccess offset with
    | error e =>
      dsimp only
      rw [if_pos e.toInt_neg]
    | ok b => exact ih (i + 1) _

/-- The ioctl of the register model, whose buffer is the kernel's after the copy. -/
theorem writeRepeatRegb_ioctl (hwr : ∀ i, sys.wr i = none) (resultCopied : Bool)
    (hw : Hardware) (hle : sys.uncopied ≤ bufferSize w count) :
    (dev.writeRepeatRegb bar offset w sys count user rest log).log =
      (dev.ioctl hw ⟨sys.argCopied, sys.allocated, decide (sys.uncopied = 0), resultCopied⟩ log
        (.writeRepeatRegb bar offset count
          (wordAt w (kernelBuf user rest (sys.copied w count))))).2 := by
  set buf := wordAt w (kernelBuf user rest (sys.copied w count)) with hbuf
  rw [writeRepeatRegb, ← hbuf, ioctl, writeRepeat]
  by_cases hsys : sys.argCopied ∧ sys.allocated
  · have hskip : ¬ (count = 0 ∧ ¬ decide (sys.uncopied = 0) = true) := by
      rintro ⟨hc, hnot⟩
      rw [bufferSize, hc] at hle
      exact hnot (decide_eq_true (Nat.le_zero.mp (hle.trans (Nat.mod_le _ _))))
    have hrange : (List.range count.toNat).map buf =
        (List.range count.toNat).map fun j => buf (0 + j) := by simp only [zero_add]
    rw [if_neg (not_not.mpr hsys), if_neg (not_not.mpr hsys), if_neg hskip, hrange]
    dsimp only
    rw [← repeatLoop_writeLoop hwr count.toNat 0 log]
    by_cases hn : count.toNat = 0
    · rw [hn]
      rfl
    · rw [repeatLoop_rc hn 0 _ 0]
  · rw [if_pos hsys, if_pos hsys]

end BifrostDevice

theorem writeRepeat_reports_two : WritesOrReports (membusDevice false fun _ => true) 0 4 32
    ⟨true, true, 0, fun _ => none⟩ 2 (fun i => i) []
    ((membusDevice false fun _ => true).writeRepeatRegb 0 4 32 ⟨true, true, 0, fun _ => none⟩ 2
      (fun i => i) (fun _ => 0xff) []) :=
  (BifrostDevice.writeRepeat_reports_iff (by decide)).mpr (.inr (.inl ⟨rfl, by decide⟩))

/-- A buffer of two values of which the second is not copied in: both are written and the ioctl
returns 0. -/
theorem fault_written : ¬ ∀ (dev : BifrostDevice) (bar offset : BitVec 32) (w : ℕ)
    (sys : RepeatServices) (count : BitVec 32) (user rest : ℕ → BitVec 8) (log : List BusOp),
    sys.uncopied ≤ bufferSize w count → WritesOrReports dev bar offset w sys count user log
      (dev.writeRepeatRegb bar offset w sys count user rest log) := by
  intro h
  have hreports := h (membusDevice false fun _ => true) 0 4 32 ⟨true, true, 4, fun _ => none⟩ 2
    (fun i => i) (fun _ => 0xff) [] (by decide)
  have hnot : ¬ (⟨true, true, 4, fun _ => none⟩ : RepeatServices).Copied 32 2 := by
    rintro ⟨-, -, hc⟩
    exact absurd hc (by decide)
  have hrc := (hreports.incomplete hnot).2.2
  exact absurd hrc (by decide)

end BifrostModule.Regb
