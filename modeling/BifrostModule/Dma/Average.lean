import BifrostModule.Dma.Stats
import BifrostModule.Foundation.RunningMean

/-! # The running average of the transfer speeds

`add_stats` multiplies the old average by the count of the buffers before it
divides. As long as the product fits in an `unsigned long` and the count does
not come back to 0, the average is the truncated mean of the speeds.
-/
namespace BifrostModule.Dma
open Foundation

/-- A request that is done, with the time that its transfer has taken. -/
abbrev Completed := DmaReq × BitVec 64

namespace Stats
variable {w : ℕ} (s : Stats w)

def speedAvg : Direction → BitVec w
  | .down => s.writeSpeedAvg
  | .up => s.readSpeedAvg

/-- What `add_stats` does in a direction when it does not divide by zero. -/
theorem addStats_counts {req : DmaReq} {time : BitVec 64} (ht : time ≠ 0)
    (hlow : lowTime time ≠ 0) (hbuf : s.buf req.dir + 1 ≠ 0) :
    ∃ t, s.addStats req time = some t ∧ t.buf req.dir = s.buf req.dir + 1 ∧
      averageSpeed (s.speedAvg req.dir) (t.speedLast req.dir) (s.buf req.dir + 1) =
        some (t.speedAvg req.dir) ∧
      ∀ d, d ≠ req.dir → t.buf d = s.buf d ∧ t.speedAvg d = s.speedAvg d := by
  obtain ⟨speed, hspeed⟩ : ∃ speed, doDiv (req.len.setWidth 64 * nsecPerSec) time = some speed :=
    ⟨_, by rw [doDiv_eq, if_neg hlow]⟩
  rw [addStats, if_neg ht, hspeed, Option.bind_eq_bind, Option.bind_some]
  cases hdir : req.dir with
  | up =>
    rw [hdir] at hbuf
    have hread : s.readBuf + 1 ≠ 0 := hbuf
    simp only [averageSpeed_eq, if_neg hread, Option.bind_eq_bind, Option.bind_some, buf, speedAvg,
      speedLast]
    refine ⟨_, rfl, rfl, rfl, fun d hd => ?_⟩
    cases d with
    | up => exact absurd rfl hd
    | down => exact ⟨rfl, rfl⟩
  | down =>
    rw [hdir] at hbuf
    have hwrite : s.writeBuf + 1 ≠ 0 := hbuf
    simp only [averageSpeed_eq, if_neg hwrite, Option.bind_eq_bind, Option.bind_some, buf, speedAvg,
      speedLast]
    refine ⟨_, rfl, rfl, rfl, fun d hd => ?_⟩
    cases d with
    | up => exact ⟨rfl, rfl⟩
    | down => exact absurd rfl hd

theorem addStats_none {req : DmaReq} {time : BitVec 64} (ht : time ≠ 0)
    (h : lowTime time = 0 ∨ s.buf req.dir + 1 = 0) : s.addStats req time = none := by
  cases hadd : s.addStats req time with
  | none => rfl
  | some t =>
    obtain ⟨hbuf, speed, hspeed, -⟩ := (s.addStats_spec req ht _).mp ⟨t, hadd, rfl⟩
    rw [doDiv_eq] at hspeed
    rcases h with hlow | hzero
    · simp [hlow] at hspeed
    · exact absurd hzero hbuf

end Stats

theorem toNat_succ {w : ℕ} {buf : BitVec w} (hbuf : buf + 1 ≠ 0) :
    (buf + 1).toNat = buf.toNat + 1 := by
  have hsum : (buf + 1).toNat = (buf.toNat + 1) % 2 ^ w := by simp [BitVec.toNat_add]
  have hne : (buf + 1).toNat ≠ 0 := fun h => hbuf (BitVec.eq_of_toNat_eq (by simpa using h))
  rcases Nat.lt_or_eq_of_le (Nat.succ_le_of_lt buf.isLt) with hlt | heq
  · rw [hsum, Nat.mod_eq_of_lt hlt]
  · rw [hsum, ← Nat.succ_eq_add_one, heq, Nat.mod_self] at hne
    exact absurd rfl hne

/-- The new average as a natural number: only the product can be cut to the word. -/
theorem averageSpeed_toNat {w : ℕ} (avg last : BitVec w) {buf : BitVec w} (hbuf : buf + 1 ≠ 0) :
    ∃ v, averageSpeed avg last (buf + 1) = some v ∧
      v.toNat = avg.toNat * buf.toNat % 2 ^ w / (buf.toNat + 1) + last.toNat / (buf.toNat + 1) := by
  have hsucc : (buf + 1).toNat = buf.toNat + 1 := toNat_succ hbuf
  refine ⟨_, by rw [Stats.averageSpeed_eq, if_neg hbuf], ?_⟩
  have hold : (avg * (buf + 1 - 1)).toNat = avg.toNat * buf.toNat % 2 ^ w := by
    rw [BitVec.add_sub_cancel, BitVec.toNat_mul]
  have hprod : avg.toNat * buf.toNat % 2 ^ w < 2 ^ w := Nat.mod_lt _ (Nat.two_pow_pos w)
  have hlast := last.isLt
  rw [BitVec.toNat_add, BitVec.toNat_udiv, BitVec.toNat_udiv, hold, hsucc]
  refine Nat.mod_eq_of_lt ?_
  rcases Nat.eq_zero_or_pos buf.toNat with hzero | hpos
  · simp [hzero, hlast]
  · have hhalf : ∀ a, a / (buf.toNat + 1) ≤ a / 2 := fun a =>
      Nat.div_le_div_left (by omega) (by norm_num)
    have h1 := hhalf (avg.toNat * buf.toNat % 2 ^ w)
    have h2 := hhalf last.toNat
    omega

/-- The statistics, with the speeds that each direction has stored so far. -/
structure Recorded (w : ℕ) where
  stats : Stats w
  speeds : Direction → List (BitVec w)

namespace Recorded
variable {w : ℕ}

def start (s : Stats w) : Recorded w where
  stats := { s with readBuf := 0, writeBuf := 0 }
  speeds := fun _ => []

/-- `add_stats`, keeping the speed that it stores. A transfer without a time stores none. -/
def add (r : Recorded w) (done : Completed) : Option (Recorded w) :=
  (r.stats.addStats done.1 done.2).map fun t =>
    { stats := t
      speeds := if done.2 = 0 then r.speeds
        else Function.update r.speeds done.1.dir (r.speeds done.1.dir ++ [t.speedLast done.1.dir]) }

/-- The transfers of a history, `none` when one of them divides by zero. -/
def run (s : Stats w) (history : List Completed) : Option (Recorded w) :=
  history.foldlM add (start s)

def sum (r : Recorded w) (d : Direction) : ℕ := ((r.speeds d).map BitVec.toNat).sum

/-- The average of each direction tracks the mean of its speeds. -/
def Tracks (r : Recorded w) : Prop :=
  ∀ d, r.speeds d ≠ [] →
    0 ≤ (r.sum d : ℚ) / (r.speeds d).length - (r.stats.speedAvg d).toNat ∧
      (r.sum d : ℚ) / (r.speeds d).length - (r.stats.speedAvg d).toNat < (r.speeds d).length + 1

/-- The divisors are not zero and the product of the average with the count fits in a word. -/
def Fits (r : Recorded w) (done : Completed) : Prop :=
  done.2 ≠ 0 → lowTime done.2 ≠ 0 ∧ r.stats.buf done.1.dir + 1 ≠ 0 ∧
    (r.stats.speedAvg done.1.dir).toNat * (r.stats.buf done.1.dir).toNat < 2 ^ w

/-- Each direction has counted its speeds, and its average is their truncated mean. -/
def Inv (r : Recorded w) : Prop :=
  ∀ d, (r.stats.buf d).toNat = (r.speeds d).length ∧
    RunningMean.Tracks (r.speeds d).length (r.stats.speedAvg d).toNat (r.sum d)

theorem Inv.tracks {r : Recorded w} (h : r.Inv) : r.Tracks :=
  fun d hd => (h d).2.within (fun hzero => hd (List.length_eq_zero_iff.mp hzero))

theorem start_inv (s : Stats w) : (start s).Inv := by
  intro d
  refine ⟨?_, RunningMean.tracks_zero _⟩
  cases d <;> simp [start, Stats.buf]

theorem add_of_no_time (r : Recorded w) {done : Completed} (h : done.2 = 0) :
    r.add done = some r := by
  simp [add, Stats.addStats, h]

theorem add_next {r : Recorded w} (hi : r.Inv) {done : Completed} (ht : done.2 ≠ 0)
    (hlow : lowTime done.2 ≠ 0) (hbuf : r.stats.buf done.1.dir + 1 ≠ 0) :
    ∃ r' speed, r.add done = some r' ∧
      r'.speeds = Function.update r.speeds done.1.dir (r.speeds done.1.dir ++ [speed]) ∧
      (r'.stats.buf done.1.dir).toNat = (r.speeds done.1.dir).length + 1 ∧
      (r'.stats.speedAvg done.1.dir).toNat =
        (r.stats.speedAvg done.1.dir).toNat * (r.speeds done.1.dir).length % 2 ^ w /
          ((r.speeds done.1.dir).length + 1) + speed.toNat / ((r.speeds done.1.dir).length + 1) ∧
      ∀ d, d ≠ done.1.dir →
        r'.stats.buf d = r.stats.buf d ∧ r'.stats.speedAvg d = r.stats.speedAvg d := by
  obtain ⟨t, hadd, hcount, havg, hother⟩ := r.stats.addStats_counts ht hlow hbuf
  obtain ⟨v, hv, hval⟩ := averageSpeed_toNat (r.stats.speedAvg done.1.dir)
    (t.speedLast done.1.dir) hbuf
  have heq : t.speedAvg done.1.dir = v := Option.some.inj (havg.symm.trans hv)
  rw [(hi done.1.dir).1] at hval
  refine ⟨_, t.speedLast done.1.dir, by rw [add, hadd, Option.map_some], ?_, ?_, ?_, hother⟩
  · exact if_neg ht
  · rw [hcount, toNat_succ hbuf, (hi done.1.dir).1]
  · rw [heq, hval]

theorem add_inv {r : Recorded w} (hi : r.Inv) {done : Completed} (hfits : r.Fits done) :
    ∃ r', r.add done = some r' ∧ r'.Inv := by
  by_cases ht : done.2 = 0
  · exact ⟨r, r.add_of_no_time ht, hi⟩
  · obtain ⟨hlow, hbuf, hprod⟩ := hfits ht
    obtain ⟨r', speed, hadd, hspeeds, hcount, havg, hother⟩ := add_next hi ht hlow hbuf
    refine ⟨r', hadd, fun d => ?_⟩
    by_cases hd : d = done.1.dir
    · subst hd
      rw [(hi done.1.dir).1] at hprod
      rw [Nat.mod_eq_of_lt hprod] at havg
      have htracks := (hi done.1.dir).2.next speed.toNat
      refine ⟨by simp [hcount, hspeeds], ?_⟩
      rw [RunningMean.next, ← havg] at htracks
      simpa [hspeeds, sum] using htracks
    · have hsame : r'.speeds d = r.speeds d := by rw [hspeeds, Function.update_of_ne hd]
      rw [sum, hsame, (hother d hd).1, (hother d hd).2]
      exact hi d

/-- While the counts are small, a division by zero or an overflow shows at once. -/
theorem Inv.fits_of_tracks {r r' : Recorded w} (hi : r.Inv) {done : Completed}
    (hsmall : ((r.speeds done.1.dir).length + 1) * ((r.speeds done.1.dir).length + 2) ≤ 2 ^ w)
    (hadd : r.add done = some r') (htracks : r'.Tracks) : r.Fits done := by
  intro ht
  have hdivides : ¬ (lowTime done.2 = 0 ∨ r.stats.buf done.1.dir + 1 = 0) := by
    intro hzero
    rw [add, r.stats.addStats_none ht hzero] at hadd
    cases hadd
  push Not at hdivides
  obtain ⟨hlow, hbuf⟩ := hdivides
  refine ⟨hlow, hbuf, ?_⟩
  obtain ⟨_, speed, hadd', hspeeds, -, havg, -⟩ := add_next hi ht hlow hbuf
  obtain rfl := Option.some.inj (hadd.symm.trans hadd')
  rw [(hi done.1.dir).1]
  by_contra hover
  -- The product loses a multiple of 2^w, which is more than the truncations may lose.
  have hlost := Nat.mod_add_div
    ((r.stats.speedAvg done.1.dir).toNat * (r.speeds done.1.dir).length) (2 ^ w)
  have hquot : 1 ≤ (r.stats.speedAvg done.1.dir).toNat * (r.speeds done.1.dir).length / 2 ^ w :=
    (Nat.one_le_div_iff (Nat.two_pow_pos w)).mpr (not_lt.mp hover)
  have hkept : ((r.speeds done.1.dir).length + 1) * (r'.stats.speedAvg done.1.dir).toNat + 2 ^ w ≤
      (r.stats.speedAvg done.1.dir).toNat * (r.speeds done.1.dir).length + speed.toNat := by
    have h1 := Nat.mul_div_le ((r.stats.speedAvg done.1.dir).toNat *
      (r.speeds done.1.dir).length % 2 ^ w) ((r.speeds done.1.dir).length + 1)
    have h2 := Nat.mul_div_le speed.toNat ((r.speeds done.1.dir).length + 1)
    have h3 := Nat.mul_le_mul_left (2 ^ w) hquot
    rw [havg, Nat.mul_add]
    omega
  have hwithin := (htracks done.1.dir (by simp [hspeeds])).2
  refine RunningMean.not_within_of_lost (hi done.1.dir).2 hsmall hkept ?_
  simpa [hspeeds, sum] using hwithin

theorem length_add_le {r r' : Recorded w} {done : Completed} (h : r.add done = some r')
    (d : Direction) : (r'.speeds d).length ≤ (r.speeds d).length + 1 := by
  obtain ⟨t, -, rfl⟩ := Option.map_eq_some_iff.mp h
  by_cases ht : done.2 = 0
  · simp [ht]
  · by_cases hd : d = done.1.dir
    · subst hd
      simp only [if_neg ht]
      simp
    · simp only [if_neg ht]
      simp [Function.update_of_ne hd]

theorem run_concat (s : Stats w) (past : List Completed) (done : Completed) :
    run s (past ++ [done]) = (run s past).bind fun r => r.add done := by
  simp [run, List.foldlM_append]

theorem length_run_le {s : Stats w} {past : List Completed} {r : Recorded w}
    (h : run s past = some r) (d : Direction) : (r.speeds d).length ≤ past.length := by
  induction past using List.reverseRecOn generalizing r with
  | nil =>
    obtain rfl := Option.some.inj h
    simp [start]
  | append_singleton past done ih =>
    rw [run_concat] at h
    obtain ⟨r₀, hr₀, hadd⟩ := Option.bind_eq_some_iff.mp h
    have hle := length_add_le hadd d
    have hpast := ih hr₀
    rw [List.length_append, List.length_singleton]
    omega

/-- Every transfer of a history fits the statistics that it finds. -/
def FitsAll (s : Stats w) (history : List Completed) : Prop :=
  ∀ past done, past ++ [done] <+: history → ∀ r, run s past = some r → r.Fits done

theorem fitsAll_nil (s : Stats w) : FitsAll s [] := by
  intro past done hpast
  exact absurd (List.prefix_nil.mp hpast)
    (List.append_ne_nil_of_right_ne_nil _ (List.cons_ne_nil _ _))

theorem fitsAll_concat {s : Stats w} {history : List Completed} {done : Completed} :
    FitsAll s (history ++ [done]) ↔
      FitsAll s history ∧ ∀ r ∈ run s history, r.Fits done := by
  constructor
  · intro h
    refine ⟨fun past last hpast => h past last (hpast.trans (List.prefix_append _ _)), ?_⟩
    exact fun r hr => h history done List.prefix_rfl r hr
  · rintro ⟨hhistory, hdone⟩ past last hpast r hr
    rcases List.prefix_concat_iff.mp hpast with heq | hpast
    · obtain ⟨rfl, hlast⟩ := List.append_inj' heq rfl
      obtain rfl := List.singleton_inj.mp hlast
      exact hdone r hr
    · exact hhistory past last hpast r hr

instance (r : Recorded w) (done : Completed) : Decidable (r.Fits done) :=
  inferInstanceAs (Decidable (_ → _ ∧ _ ∧ _))

/-- Along a history no transfer divides by zero and the averages track the means. -/
def TracksAll (s : Stats w) (history : List Completed) : Prop :=
  ∀ past, past <+: history → ∃ r, run s past = some r ∧ r.Tracks

theorem run_inv_of_fitsAll {s : Stats w} {history : List Completed} (hfits : FitsAll s history)
    {past : List Completed} (hpast : past <+: history) : ∃ r, run s past = some r ∧ r.Inv := by
  induction past using List.reverseRecOn with
  | nil => exact ⟨_, rfl, start_inv s⟩
  | append_singleton past done ih =>
    obtain ⟨r, hr, hi⟩ := ih ((List.prefix_append _ _).trans hpast)
    obtain ⟨r', hadd, hi'⟩ := add_inv hi (hfits past done hpast r hr)
    exact ⟨r', by rw [run_concat, hr, Option.bind_some, hadd], hi'⟩

/-- A history that tracks and is short fits, one transfer after the other. -/
theorem fits_of_tracksAll {s : Stats w} {history : List Completed} (htracks : TracksAll s history)
    (hsmall : history.length * (history.length + 1) ≤ 2 ^ w) {past : List Completed}
    {done : Completed} (hpast : past ++ [done] <+: history) {r : Recorded w}
    (hr : run s past = some r) (hi : r.Inv) : r.Fits done := by
  obtain ⟨r', hr', htracks'⟩ := htracks _ hpast
  rw [run_concat, hr, Option.bind_some] at hr'
  refine hi.fits_of_tracks (le_trans ?_ hsmall) hr' htracks'
  have hlen := length_run_le hr done.1.dir
  have hshort := hpast.length_le
  rw [List.length_append, List.length_singleton] at hshort
  exact Nat.mul_le_mul (by omega) (by omega)

theorem run_inv_of_tracksAll {s : Stats w} {history : List Completed}
    (htracks : TracksAll s history) (hsmall : history.length * (history.length + 1) ≤ 2 ^ w)
    {past : List Completed} (hpast : past <+: history) : ∃ r, run s past = some r ∧ r.Inv := by
  induction past using List.reverseRecOn with
  | nil => exact ⟨_, rfl, start_inv s⟩
  | append_singleton past done ih =>
    obtain ⟨r, hr, hi⟩ := ih ((List.prefix_append _ _).trans hpast)
    obtain ⟨r', hadd, hi'⟩ := add_inv hi (fits_of_tracksAll htracks hsmall hpast hr hi)
    exact ⟨r', by rw [run_concat, hr, Option.bind_some, hadd], hi'⟩

/-- A history tracks the means if every transfer of it fits. A history that is short for the word
tracks them only then. -/
theorem averages_track_iff (s : Stats w) (history : List Completed) :
    (FitsAll s history → TracksAll s history) ∧
      (history.length * (history.length + 1) ≤ 2 ^ w →
        (TracksAll s history ↔ FitsAll s history)) := by
  have hmain : FitsAll s history → TracksAll s history := by
    intro hfits past hpast
    obtain ⟨r, hr, hi⟩ := run_inv_of_fitsAll hfits hpast
    exact ⟨r, hr, hi.tracks⟩
  refine ⟨hmain, fun hsmall => ⟨fun htracks past done hpast r hr => ?_, hmain⟩⟩
  obtain ⟨r', hr', hi⟩ := run_inv_of_tracksAll htracks hsmall
    ((List.prefix_append _ _).trans hpast)
  obtain rfl := Option.some.inj (hr.symm.trans hr')
  exact fits_of_tracksAll htracks hsmall hpast hr hi

def readOf3MB : Completed := (⟨0, 0, 0, 3000000, .up, 0, 0, none⟩, 2000000)

/-- A read of 3 MB, two more at 1 GB/s and 250 MB/s, and a write at 500 MB/s between them. -/
def fourTransfers : List Completed :=
  [readOf3MB, (⟨0, 0, 0, 1000000, .up, 0, 0, none⟩, 1000000),
    (⟨0, 0, 0, 2000000, .down, 0, 0, none⟩, 4000000),
    (⟨0, 0, 0, 1000000, .up, 0, 0, none⟩, 4000000)]

theorem averages_track_four : TracksAll (⟨0, 0, 0, 0, 0, 0, 0, 0⟩ : Stats 32) fourTransfers := by
  refine (averages_track_iff _ _).1 ?_
  have hfirst : FitsAll (⟨0, 0, 0, 0, 0, 0, 0, 0⟩ : Stats 32) (fourTransfers.take 1) :=
    fitsAll_concat.mpr ⟨fitsAll_nil _, by decide⟩
  have hsecond : FitsAll (⟨0, 0, 0, 0, 0, 0, 0, 0⟩ : Stats 32) (fourTransfers.take 2) :=
    fitsAll_concat.mpr ⟨hfirst, by decide⟩
  have hthird : FitsAll (⟨0, 0, 0, 0, 0, 0, 0, 0⟩ : Stats 32) (fourTransfers.take 3) :=
    fitsAll_concat.mpr ⟨hsecond, by decide⟩
  exact fitsAll_concat.mpr ⟨hthird, by decide⟩

/-- With four reads of 3 MB three times the average is more than 2^32. -/
theorem average_overflows : ¬ ∀ w : ℕ, w = 32 ∨ w = 64 →
    ∀ (s : Stats w) (history : List Completed), TracksAll s history := by
  intro h
  obtain ⟨r, hr, htracks⟩ := h 32 (.inl rfl) ⟨0, 0, 0, 0, 0, 0, 0, 0⟩
    (List.replicate 4 readOf3MB) _ List.prefix_rfl
  have hrun : (run (⟨0, 0, 0, 0, 0, 0, 0, 0⟩ : Stats 32) (List.replicate 4 readOf3MB)).map
      (fun r => (r.speeds .up, (r.stats.speedAvg .up).toNat)) =
      some (List.replicate 4 1500000000, 426258176) := by decide +kernel
  rw [hr, Option.map_some, Option.some.injEq, Prod.mk.injEq] at hrun
  obtain ⟨hspeeds, havg⟩ := hrun
  have hsum : r.sum .up = 6000000000 := by
    rw [sum, hspeeds]
    decide
  have hbad := (htracks .up (by simp [hspeeds])).2
  rw [hsum, hspeeds, havg] at hbad
  norm_num at hbad

end Recorded
end BifrostModule.Dma
