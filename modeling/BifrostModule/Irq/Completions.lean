import BifrostModule.Irq.Msi

/-! # Who hears the completions of the DMA channels

The channels are numbered by the CAPABILITY register, their interrupts by position in
the table `msi`. A channel is heard if its interrupt reaches `dma_msi_handler` and
leads `dma_done` back to it.
-/
namespace BifrostModule.Irq
open Foundation Lifecycle Dma

variable {ρ : Type*}

/-- The completion of the channel has a handler, and `dma_done` finds the channel by its irq. -/
def Heard (s : MsiState) (ctl : DmaCtl ρ) (c : Chan) : Prop :=
  (∃ v, s.requested (BitVec.ofInt 32 (ctl.ch c).irq) = some v ∧
    (s.msi v).handler = some .dmaMsi) ∧
  ctl.lookupChan (ctl.ch c).irq = some c

structure AtRest (s : MsiState) : Prop where
  slots : ∀ v, s.msi v = ⟨msiTable v, noIrq⟩
  free : s.requested = fun _ => none

section Attach
variable (env : Env) (irq : ℤ)

def vectorIrq (v : Vec) : BitVec 32 := BitVec.ofInt 32 (irq + v.val)

def Granted (v : Vec) : Prop :=
  (msiTable v).isSome ∧ env (.take (.msiIrq v)) = none ∧ vectorIrq irq v ≠ noIrq

theorem vectorIrq_injective : Function.Injective (vectorIrq irq) := by
  intro u v h
  have hmod := congrArg BitVec.toInt h
  simp only [vectorIrq, BitVec.toInt_ofInt] at hmod
  have hu := u.isLt
  have hv := v.isLt
  apply Fin.ext
  rw [Int.bmod_def, Int.bmod_def] at hmod
  omega

/-- The table after the loop has gone through some of the entries. -/
structure Attached (s : MsiState) (done : List Vec) : Prop where
  handler : ∀ v, (s.msi v).handler = msiTable v
  left : ∀ v, v ∉ done → (s.msi v).irq = noIrq
  requested : ∀ i v, s.requested i = some v ↔ v ∈ done ∧ Granted env irq v ∧ i = vectorIrq irq v

variable {env irq} {s : MsiState} {done : List Vec} {v : Vec}

theorem attachOne_refused (hirq : (s.msi v).irq = noIrq) (hhandler : (s.msi v).handler = msiTable v)
    (h : ¬ Granted env irq v) : s.attachOne env irq v = s := by
  rw [MsiState.attachOne]
  by_cases hskip : (s.msi v).handler.isSome ∧ (s.msi v).irq = noIrq
  · rw [if_pos hskip]
    rcases (s.setIrq v (vectorIrq irq v)).requestIrq_cases v (env (.take (.msiIrq v))) with
      ⟨e, heq⟩ | ⟨hrc, hne, -, -⟩
    · rw [vectorIrq] at heq
      rw [heq]
      dsimp only
      rw [Option.isSome_some, if_pos rfl]
      -- The number is written and reset.
      simp [MsiState.setIrq, ← hirq]
    · rw [MsiState.setIrq_irq, if_pos rfl] at hne
      exact absurd ⟨hhandler ▸ hskip.1, hrc, hne⟩ h
  · rw [if_neg hskip]

theorem attachOne_granted (hirq : (s.msi v).irq = noIrq) (hhandler : (s.msi v).handler = msiTable v)
    (h : Granted env irq v) (hfree : s.requested (vectorIrq irq v) = none) :
    s.attachOne env irq v =
      { s.setIrq v (vectorIrq irq v) with
        requested := Function.update s.requested (vectorIrq irq v) (some v)
        ledger := s.ledger ++ [.take (vectorIrq irq v) v] } := by
  obtain ⟨hsome, hrc, hne⟩ := h
  have hset : ((s.setIrq v (vectorIrq irq v)).msi v).irq = vectorIrq irq v := by
    rw [MsiState.setIrq_irq, if_pos rfl]
  have hnone : (s.setIrq v (vectorIrq irq v)).requested (vectorIrq irq v) = none := hfree
  have hrequest : (s.setIrq v (vectorIrq irq v)).requestIrq v none =
      (none, { s.setIrq v (vectorIrq irq v) with
        requested := Function.update s.requested (vectorIrq irq v) (some v)
        ledger := s.ledger ++ [.take (vectorIrq irq v) v] }) := by
    rw [MsiState.requestIrq, hset]
    dsimp only
    rw [if_neg (by simp), if_neg hne, hnone, if_neg (by simp)]
    rfl
  rw [MsiState.attachOne, if_pos ⟨hhandler ▸ hsome, hirq⟩, hrc]
  change (if ((s.setIrq v (vectorIrq irq v)).requestIrq v none).1.isSome
    then ((s.setIrq v (vectorIrq irq v)).requestIrq v none).2.setIrq v noIrq
    else ((s.setIrq v (vectorIrq irq v)).requestIrq v none).2) = _
  rw [hrequest, if_neg (by simp)]

theorem Attached.attachOne (h : Attached env irq s done) (hv : v ∉ done) :
    Attached env irq (s.attachOne env irq v) (done ++ [v]) := by
  have hdone : ∀ u, u ∈ done ++ [v] ↔ u ∈ done ∨ u = v := fun u => by simp
  by_cases hg : Granted env irq v
  · have hfree : s.requested (vectorIrq irq v) = none := by
      cases hheld : s.requested (vectorIrq irq v) with
      | none => rfl
      | some u =>
        obtain ⟨hu, -, heq⟩ := (h.requested _ u).mp hheld
        exact absurd (vectorIrq_injective irq heq ▸ hu) hv
    rw [attachOne_granted (h.left v hv) (h.handler v) hg hfree]
    refine ⟨fun u => ?_, fun u hu => ?_, fun i u => ?_⟩
    · by_cases huv : u = v
      · subst huv
        simpa [MsiState.setIrq] using h.handler u
      · simpa [MsiState.setIrq, huv] using h.handler u
    · obtain ⟨hu, huv⟩ := not_or.mp fun hmem => hu ((hdone u).mpr hmem)
      change ((s.setIrq v (vectorIrq irq v)).msi u).irq = noIrq
      rw [MsiState.setIrq_irq, if_neg huv]
      exact h.left u hu
    · change Function.update s.requested (vectorIrq irq v) (some v) i = some u ↔ _
      rw [hdone]
      by_cases hi : i = vectorIrq irq v
      · subst hi
        rw [Function.update_self]
        constructor
        · rintro ⟨⟩
          exact ⟨.inr rfl, hg, rfl⟩
        · rintro ⟨-, -, heq⟩
          rw [vectorIrq_injective irq heq]
      · rw [Function.update_of_ne hi, h.requested]
        constructor
        · rintro ⟨hu, hrest⟩
          exact ⟨.inl hu, hrest⟩
        · rintro ⟨hu | rfl, hgranted, heq⟩
          · exact ⟨hu, hgranted, heq⟩
          · exact absurd heq hi
  · rw [attachOne_refused (h.left v hv) (h.handler v) hg]
    refine ⟨h.handler, fun u hu => h.left u fun hmem => hu ((hdone u).mpr (.inl hmem)), ?_⟩
    intro i u
    rw [h.requested, hdone]
    constructor
    · rintro ⟨hu, hrest⟩
      exact ⟨.inl hu, hrest⟩
    · rintro ⟨hu | rfl, hgranted, heq⟩
      · exact ⟨hu, hgranted, heq⟩
      · exact absurd hgranted hg

theorem Attached.foldl {vs : List Vec} (h : Attached env irq s done) (hvs : (done ++ vs).Nodup) :
    Attached env irq (vs.foldl (MsiState.attachOne env irq) s) (done ++ vs) := by
  induction vs generalizing s done with
  | nil =>
    rw [List.append_nil]
    exact h
  | cons v vs ih =>
    have hsplit : done ++ v :: vs = done ++ [v] ++ vs := by simp
    have hv : v ∉ done := by
      intro hmem
      exact List.disjoint_of_nodup_append hvs hmem (List.mem_cons_self ..)
    rw [hsplit] at hvs ⊢
    exact ih (h.attachOne hv) hvs

variable {p : Platform} {t : MsiState}

/-- After an attach that starts from rest, the vectors of the platform hold what was granted. -/
theorem attached_of_atRest (h : AtRest s) (ht : (msiCalls p).step s (.attach irq env) = some t) :
    Attached env irq t (MsiState.vectors p) := by
  rw [MsiState.step_attach] at ht
  obtain rfl := Option.some.inj ht
  have hnodup : (MsiState.vectors p).Nodup := (List.nodup_finRange 32).filter _
  have hstart : Attached env irq (if p.fvd then s.copyMsiFvd p.msiInterrupts else s) [] := by
    have hslots : ∀ v, (if p.fvd then s.copyMsiFvd p.msiInterrupts else s).msi v =
        ⟨msiTable v, noIrq⟩ := by
      intro v
      split_ifs with hp
      · rw [MsiState.copyMsiFvd, Platform.msiInterrupts, if_pos hp]
        dsimp only
        split_ifs with hv
        · obtain rfl : v = 0 := Fin.ext (Nat.lt_one_iff.mp hv)
          rfl
        · exact h.slots v
      · exact h.slots v
    refine ⟨fun v => by rw [hslots], fun v _ => by rw [hslots], fun i v => ?_⟩
    have hnone : (if p.fvd then s.copyMsiFvd p.msiInterrupts else s).requested i = none := by
      split_ifs
      · exact congrFun h.free i
      · exact congrFun h.free i
    rw [hnone]
    simp
  exact hstart.foldl hnodup

theorem find_unique {ι : Type*} {q : ι → Bool} {l : List ι} {i : ι} (hi : i ∈ l) (hq : q i)
    (hunique : ∀ j, q j → j = i) : l.find? q = some i := by
  cases hfind : l.find? q with
  | none => exact absurd hq (List.find?_eq_none.mp hfind i hi)
  | some j => rw [hunique j (List.find?_some hfind)]

/-- A channel that is idle after `bifrost_dma_init` has the irq of its vector, by which it is
found. -/
theorem idle_channel {capability status : BitVec 32} {c : Chan}
    (h : (DmaCtl.bifrostDmaInit capability status irq : DmaCtl ρ).Idle c) :
    ((DmaCtl.bifrostDmaInit capability status irq : DmaCtl ρ).ch c).irq = irq + c.val ∧
      (DmaCtl.bifrostDmaInit capability status irq : DmaCtl ρ).lookupChan (irq + c.val) =
        some c := by
  set numCh := (capability &&& 0xf#32).toNat
  set ctl : DmaCtl ρ := DmaCtl.bifrostDmaInit capability status irq with hctl
  have hnumCh : numCh ≤ 15 := by
    change (capability &&& 0xf#32).toNat ≤ 15
    rw [BitVec.toNat_and]
    exact Nat.and_le_right
  have hirq : ∀ n : Chan, n.val < numCh → (ctl.ch n).irq = irq + n.val := by
    intro n hn
    rw [hctl, DmaCtl.bifrostDmaInit, DmaCtl.build, DmaCtl.enableChannels_irq, if_pos]
    exact List.mem_filter.mpr ⟨List.mem_finRange n, decide_eq_true hn⟩
  obtain ⟨-, hbitmap, hnum, -⟩ := DmaCtl.enableChannels_frame (ρ := ρ) (fun n => irq + n.val)
    ((List.finRange maxDmaChannels).filter fun n => n.val < numCh)
    (.allocDmaCtl numCh (~~~status &&& (1#32 <<< numCh - 1#32)))
  have hlt : c.val < numCh := by
    have hbit : ctl.idleBitmap.getLsbD c.val = true := h
    rw [show ctl.idleBitmap = _ from hbitmap, DmaCtl.allocDmaCtl, BitVec.getLsbD_and,
      Bitmap.getLsbD_lowMask (by omega)] at hbit
    exact of_decide_eq_true (Bool.and_eq_true_iff.mp hbit).2
  have hcount : ctl.numCh = numCh := by
    rw [show ctl.numCh = _ from hnum, DmaCtl.allocDmaCtl]
    exact min_eq_left (hnumCh.trans (by decide))
  refine ⟨hirq c hlt, find_unique (List.mem_finRange c) ?_ fun n hn => ?_⟩
  · rw [hcount, hirq c hlt]
    simpa using hlt
  · rw [hcount] at hn
    obtain ⟨hn, heq⟩ := Bool.and_eq_true_iff.mp hn
    have hnlt := of_decide_eq_true hn
    have hsame := of_decide_eq_true heq
    rw [hirq n hnlt] at hsame
    exact Fin.ext (by omega)

/-- An idle channel is heard exactly if it has one of the vectors of the platform, the vector has
the DMA handler, and its interrupt was granted. -/
theorem heard_iff {capability status : BitVec 32} {c : Chan} (h : AtRest s)
    (ht : (msiCalls p).step s (.attach irq env) = some t)
    (hidle : (DmaCtl.bifrostDmaInit capability status irq : DmaCtl ρ).Idle c) :
    Heard t (DmaCtl.bifrostDmaInit capability status irq : DmaCtl ρ) c ↔
      c.val < (if p.fvd then 1 else 8) ∧ env (.take (.msiIrq c)) = none ∧
        vectorIrq irq c ≠ noIrq := by
  have hattached := attached_of_atRest h ht
  obtain ⟨hirq, hfound⟩ := idle_channel hidle
  have hmem : c ∈ MsiState.vectors p ↔ c.val < p.msiInterrupts := by
    simp [MsiState.vectors]
  have hdma : msiTable c = some .dmaMsi ↔ c.val < 8 := by
    unfold msiTable
    split_ifs with hlow herr <;> simp [hlow]
  have hrange : c.val < p.msiInterrupts ∧ c.val < 8 ↔ c.val < (if p.fvd then 1 else 8) := by
    unfold Platform.msiInterrupts
    split <;> omega
  rw [Heard, hirq]
  constructor
  · rintro ⟨⟨v, hv, hhandler⟩, -⟩
    obtain ⟨hvectors, ⟨-, hrc, hne⟩, heq⟩ := (hattached.requested _ v).mp hv
    obtain rfl : c = v := vectorIrq_injective irq heq
    rw [hattached.handler] at hhandler
    exact ⟨hrange.mp ⟨hmem.mp hvectors, hdma.mp hhandler⟩, hrc, hne⟩
  · rintro ⟨hlt, hrc, hne⟩
    obtain ⟨hvectors, hlow⟩ := hrange.mpr hlt
    have hhandler := hdma.mpr hlow
    refine ⟨⟨c, (hattached.requested _ c).mpr ⟨hmem.mpr hvectors, ⟨?_, hrc, hne⟩, rfl⟩, ?_⟩, hfound⟩
    · rw [hhandler]
      rfl
    · rw [hattached.handler, hhandler]

/-- Every idle channel is heard exactly if each of them has a DMA vector of the platform whose
interrupt was granted. -/
theorem all_heard_iff {capability status : BitVec 32} (h : AtRest s)
    (ht : (msiCalls p).step s (.attach irq env) = some t) :
    (∀ c, (DmaCtl.bifrostDmaInit capability status irq : DmaCtl ρ).Idle c →
      Heard t (DmaCtl.bifrostDmaInit capability status irq : DmaCtl ρ) c) ↔
    ∀ c, (DmaCtl.bifrostDmaInit capability status irq : DmaCtl ρ).Idle c →
      c.val < (if p.fvd then 1 else 8) ∧ env (.take (.msiIrq c)) = none ∧
        vectorIrq irq c ≠ noIrq :=
  forall_congr' fun _ => forall_congr' fun hidle => heard_iff h ht hidle

end Attach

theorem atRest_initial : AtRest .initial := ⟨fun _ => rfl, rfl⟩

theorem all_heard_eight : ∃ t : MsiState,
    (msiCalls ⟨false, false, false, false⟩).step .initial (.attach 100 granted) = some t ∧
      ∀ c, (DmaCtl.bifrostDmaInit 8 0 100 : DmaCtl ℕ).Idle c →
        Heard t (DmaCtl.bifrostDmaInit 8 0 100 : DmaCtl ℕ) c := by
  refine ⟨_, MsiState.step_attach, (all_heard_iff atRest_initial MsiState.step_attach).mpr ?_⟩
  decide

/-- On an FVD platform only channel 0 is heard, whatever the CAPABILITY register says. -/
theorem channel_unheard : ¬ ∀ (p : Platform) (env : Env) (irq : ℤ) (capability status : BitVec 32)
    (t : MsiState), (msiCalls p).step .initial (.attach irq env) = some t →
    ∀ c, (DmaCtl.bifrostDmaInit capability status irq : DmaCtl ℕ).Idle c →
      Heard t (DmaCtl.bifrostDmaInit capability status irq : DmaCtl ℕ) c := by
  intro h
  obtain ⟨⟨v, hv, -⟩, -⟩ := h ⟨true, false, false, false⟩ granted 100 2 0 _ MsiState.step_attach 1
    (by decide)
  revert hv
  revert v
  decide

end BifrostModule.Irq
