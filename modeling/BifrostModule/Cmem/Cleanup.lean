import BifrostModule.Cmem.Registry

/-! # All buffers come back

A file that is released leaves no registration behind unless a signal interrupts its
release, and the last close takes even those off. Then every buffer is free again and each
heap is one extent.
-/
namespace BifrostModule.Cmem
open Foundation

section
variable {w : ℕ} (L : CmemLayout w)

/-- Nothing is busy: the pools have all their buffers, the heaps all their memory. -/
structure AllFree (s : CmemState) : Prop where
  busy : ∀ id ∈ L.walk, (s.pObjs id).busylist = []
  pools : ∀ id ∈ L.walk, L.isHeap id = false →
    ((s.pObjs id).freelist.map PoolBuffer.phys).Perm (L.buffers id)
  heaps : ∀ bi (h : (L.block bi).heapPool ≠ none),
    Holds (s.heapOf bi) [(L.region bi h).toExtent]

variable {L}

theorem Inv.allFree {s : CmemState} (hs : Inv L s)
    (hbusy : ∀ id ∈ L.walk, (s.pObjs id).busylist = []) : AllFree L s where
  busy := hbusy
  pools := fun id hid hheap => by
    have hperm := hs.pools id hheap
    rw [hbusy id hid, List.append_nil] at hperm
    exact hperm
  heaps := fun bi hbi => by
    obtain ⟨hp, hpool⟩ := Option.ne_none_iff_exists'.mp hbi
    have hid : L.isHeap (bi, hp) = true := isHeap_iff.mpr hpool
    obtain ⟨free, ht⟩ := hs.heaps bi hbi
    have hempty : heapBusy L s bi = [] := by
      rw [heapBusy_of_isHeap hid, hbusy (bi, hp) (mem_walk_of_isHeap hid)]
      rfl
    have htiled := ht.tiled
    rw [hempty] at htiled
    exact htiled.free_eq_whole ▸ ht.holds

end

namespace CmemRun

/-- No signal interrupts a release. -/
def Uninterrupted (w : ℕ) (s : CmemRun) (a : CmemStep) : Prop :=
  Proper w s a ∧ ∀ filp, a ≠ .sweep filp false

section
variable {w : ℕ} {L : CmemLayout w} {s t : CmemRun} {a : CmemStep}

/-- A registered file is open, or its release has still to come to the pool. -/
def Owned (L : CmemLayout w) (s : CmemRun) : Prop :=
  ∀ k : BufferKey, k.1 ∈ L.walk → ∀ f ∈ s.state.holders k,
    f ∈ s.opened ∨ ∃ c, s.closing f = some c ∧ k.1 ∈ c.todo

theorem Owned.step (hs : Owned L s) (hinv : Inv L s.state) (hok : Uninterrupted w s a)
    (h : s.step L.toCmemConfig a = some t) : Owned L t := by
  intro k hk f hf
  cases a with
  | openFile filp =>
    rw [CmemRun.step] at h
    split at h
    · cases h
    · cases h
      exact (hs k hk f hf).imp_left Finset.mem_insert_of_mem
  | ioctl filp req o =>
    rw [CmemRun.step] at h
    split at h
    · rename_i hmem
      obtain ⟨r, hr, rfl⟩ := Option.map_eq_some_iff.mp h
      obtain ⟨e, -, hstep⟩ := ioctl_registry hinv hok.1 hmem hr
      rcases hstep.mem_or_opened hf with hf | hf
      · exact hs k hk f hf
      · exact .inl hf
    · cases h
  | release filp =>
    rw [CmemRun.step] at h
    split at h
    · cases h
      by_cases hfilp : f = filp
      · subst hfilp
        exact .inr ⟨_, Function.update_self f _ _, hk⟩
      · rcases hs k hk f hf with hopen | ⟨c, hc, htodo⟩
        · exact .inl (Finset.mem_erase.mpr ⟨hfilp, hopen⟩)
        · exact .inr ⟨c, (Function.update_of_ne hfilp _ _).trans hc, htodo⟩
    · cases h
  | sweep filp locked =>
    rw [CmemRun.step] at h
    split at h
    · cases h
    · rename_i hfilp
      cases h
      rcases hs k hk f hf with hopen | ⟨c, hc, htodo⟩
      · exact .inl hopen
      · have hne : f ≠ filp := by
          rintro rfl
          rw [hfilp] at hc
          cases hc
          cases htodo
        exact .inr ⟨c, (Function.update_of_ne hne _ _).trans hc, htodo⟩
    · rename_i lastClose id todo hfilp
      split at h
      · rename_i hlocked
        exact absurd (congrArg (CmemStep.sweep filp) hlocked) (hok.2 filp)
      · obtain ⟨state, hstate, rfl⟩ := Option.map_eq_some_iff.mp h
        have hholders := sweep_holders hinv hstate k
        have hold : f ∈ s.state.holders k ∧ (k.1 = id → f ≠ filp) := by
          change f ∈ state.holders k at hf
          rw [hholders] at hf
          split at hf
          · obtain ⟨hf, -, hne⟩ := Multiset.mem_filter.mp hf
            exact ⟨hf, fun _ => hne⟩
          · rename_i hid
            exact ⟨hf, fun heq => absurd heq hid⟩
        rcases hs k hk f hold.1 with hopen | ⟨c, hc, htodo⟩
        · exact .inl hopen
        · refine .inr ?_
          by_cases hne : f = filp
          · subst hne
            rw [hfilp] at hc
            cases hc
            rcases List.mem_cons.mp htodo with hid | htodo
            · exact absurd rfl (hold.2 hid)
            · exact ⟨_, Function.update_self f _ _, htodo⟩
          · exact ⟨c, (Function.update_of_ne hne _ _).trans hc, htodo⟩
  | write mem =>
    cases h
    exact hs k hk f hf

theorem owned_of_reachable (hs : (machine L).ReachableUnder (Uninterrupted w) s) :
    Inv L s.state ∧ Owned L s := by
  refine hs.invariant (I := fun s => Inv L s.state ∧ Owned L s)
    (fun s (h : Start L s) => ⟨h.loaded.inv, fun k hk f hf => ?_⟩)
    fun _ _ _ hi hok h => ⟨Inv.step hi.1 hok.1 h, Owned.step hi.2 hi.1 hok h⟩
  obtain ⟨e, he, -⟩ := mem_usersOf.mp hf
  rw [h.loaded.busy k.1] at he
  cases he

/-- In every run whose releases are not interrupted, all buffers are free whenever no file is open
and no release is under way. -/
theorem all_returned (hs : (machine L).ReachableUnder (Uninterrupted w) s) (hopened : s.opened = ∅)
    (hclosing : ∀ filp, s.closing filp = none) : AllFree L s.state := by
  obtain ⟨hinv, howned⟩ := owned_of_reachable hs
  refine hinv.allFree fun id hid => List.eq_nil_iff_forall_not_mem.mpr fun e he => ?_
  obtain ⟨f, hf⟩ := List.exists_mem_of_ne_nil _ (hinv.busyUsers id e he)
  have hheld : f ∈ s.state.holders (id, e.phys) := mem_usersOf.mpr ⟨e, he, rfl, hf⟩
  rcases howned (id, e.phys) hid f hheld with hopen | ⟨c, hc, -⟩
  · rw [hopened] at hopen
    cases hopen
  · rw [hclosing f] at hc
    cases hc

theorem all_returned_one : ∃ s, (machine onePoolLayout).ReachableUnder (Uninterrupted 32) s ∧
    AllFree onePoolLayout s.state := by
  have hrun : ((machine onePoolLayout).exec onePoolStart [.openFile 7,
      .ioctl 7 (.alloc 0 0 0#32) served, .release 7, .sweep 7 true, .sweep 7 true,
      .sweep 7 true]).map (fun s => (s.opened, s.closing)) =
      some ((insert 7 (∅ : Finset Filp)).erase 7,
        Function.update (Function.update (Function.update (Function.update (fun _ => none) 7
          (some ⟨true, [(0, 0), (0, 1)]⟩)) 7 (some ⟨true, [(0, 1)]⟩)) 7 (some ⟨true, []⟩))
          7 none) := rfl
  obtain ⟨s, hs, hinfo⟩ := Option.map_eq_some_iff.mp hrun
  obtain ⟨hopened, hclosing⟩ := Prod.mk.inj hinfo
  have hreach : (machine onePoolLayout).ReachableUnder (Uninterrupted 32) s := by
    refine Machine.ReachableUnder.of_exec (.start start_onePool) (fun a ha u => ?_) hs
    simp only [List.mem_cons, List.not_mem_nil, or_false] at ha
    rcases ha with rfl | rfl | rfl | rfl | rfl | rfl
    · exact ⟨trivial, by simp⟩
    · exact ⟨show (0 : ℤ) ≤ 0 from le_rfl, by simp⟩
    · exact ⟨trivial, by simp⟩
    · exact ⟨trivial, by simp⟩
    · exact ⟨trivial, by simp⟩
    · exact ⟨trivial, by simp⟩
  refine ⟨s, hreach, all_returned hreach (by rw [hopened]; decide) fun filp => ?_⟩
  rw [hclosing]
  simp [Function.update_apply]

/-! ## The last close -/

/-- What a last close has swept stays free. -/
def Swept (L : CmemLayout w) (s : CmemRun) : Prop :=
  ∀ f c, s.closing f = some c → c.lastClose = true → ∀ id ∈ L.walk,
    id ∈ c.todo ∨ (s.state.pObjs id).busylist = []

theorem Swept.step (hs : Swept L s) (hcounted : Counted s) (hinv : Inv L s.state)
    (hok : Quiet w s a) (h : s.step L.toCmemConfig a = some t) : Swept L t := by
  intro f c hc hlast id hid
  cases a with
  | openFile filp =>
    rw [CmemRun.step] at h
    split at h
    · cases h
    · cases h
      exact hs f c hc hlast id hid
  | ioctl filp req o =>
    rw [CmemRun.step] at h
    split at h
    · rename_i hmem
      obtain ⟨r, -, rfl⟩ := Option.map_eq_some_iff.mp h
      rw [hcounted.last f c hc hlast] at hmem
      cases hmem
    · cases h
  | release filp =>
    rw [CmemRun.step] at h
    split at h
    · cases h
      by_cases hfilp : f = filp
      · subst hfilp
        cases (Function.update_self f _ _).symm.trans hc
        exact .inl hid
      · exact hs f c ((Function.update_of_ne hfilp _ _).symm.trans hc) hlast id hid
    · cases h
  | sweep filp locked =>
    rw [CmemRun.step] at h
    have hend : Function.update s.closing filp none f = some c →
        id ∈ c.todo ∨ (s.state.pObjs id).busylist = [] := by
      intro hc
      by_cases hfilp : f = filp
      · subst hfilp
        rw [Function.update_self] at hc
        cases hc
      · rw [Function.update_of_ne hfilp] at hc
        exact hs f c hc hlast id hid
    split at h
    · cases h
    · cases h
      exact hend hc
    · rename_i lastClose swept todo hfilp
      split at h
      · cases h
        exact hend hc
      · obtain ⟨state, hstate, rfl⟩ := Option.map_eq_some_iff.mp h
        obtain ⟨state', hstate', -, -, hother, hbusy⟩ := hinv.sweep filp lastClose swept
        rw [hstate] at hstate'
        cases hstate'
        -- A sweep takes nothing onto a busy list.
        have hkept : (s.state.pObjs id).busylist = [] → (state.pObjs id).busylist = [] := by
          intro hnil
          by_cases hswept : id = swept
          · subst hswept
            rw [hbusy, hnil]
            rfl
          · rw [hother id hswept, hnil]
        by_cases hf : f = filp
        · subst hf
          cases (Function.update_self f _ _).symm.trans hc
          rcases hs f _ hfilp hlast id hid with htodo | hnil
          · rcases List.mem_cons.mp htodo with rfl | htodo
            · right
              have hall : lastClose = true := hlast
              rw [hbusy, hall, keptBusy]
              simp [CmemState.keptUsers]
            · exact .inl htodo
          · exact .inr (hkept hnil)
        · have hc' := (Function.update_of_ne hf _ _).symm.trans hc
          exact (hs f c hc' hlast id hid).imp_right hkept
  | write mem =>
    cases h
    exact hs f c hc hlast id hid

theorem swept_of_reachable (hs : (machine L).ReachableUnder (Quiet w) s) :
    Inv L s.state ∧ Counted s ∧ Swept L s := by
  refine hs.invariant (I := fun s => Inv L s.state ∧ Counted s ∧ Swept L s)
    (fun s (h : Start L s) => ⟨h.loaded.inv, .start h, fun f c hc => ?_⟩)
    fun _ _ _ hi hok h => ⟨Inv.step hi.1 hok.1 h, Counted.step hi.2.1 hok h,
      Swept.step hi.2.2 hi.2.1 hi.1 hok h⟩
  rw [h.closing f] at hc
  cases hc

/-- When the last close has swept the last pool all buffers are free, also those of releases that
were interrupted. -/
theorem last_close_returns (hs : (machine L).ReachableUnder (Quiet w) s) {filp : Filp}
    (hlast : s.closing filp = some ⟨true, []⟩) : AllFree L s.state := by
  obtain ⟨hinv, -, hswept⟩ := swept_of_reachable hs
  refine hinv.allFree fun id hid => ?_
  exact (hswept filp _ hlast rfl id hid).resolve_left List.not_mem_nil

/-- The release of the first file is interrupted. -/
theorem last_close_returns_two : ∃ s, (machine onePoolLayout).ReachableUnder (Quiet 32) s ∧
    s.closing 7 = none ∧ AllFree onePoolLayout s.state := by
  have hrun : ((machine onePoolLayout).exec onePoolOpened [.ioctl 7 (.alloc 0 0 0#32) served,
      .release 7, .sweep 7 false, .release 8, .sweep 8 true, .sweep 8 true]).map
      (fun s => (s.closing 7, s.closing 8)) = some (none, some ⟨true, []⟩) := rfl
  obtain ⟨s, hs, hinfo⟩ := Option.map_eq_some_iff.mp hrun
  obtain ⟨hinterrupted, hlast⟩ := Prod.mk.inj hinfo
  have hreach : (machine onePoolLayout).ReachableUnder (Quiet 32) s := by
    refine Machine.ReachableUnder.of_exec reachable_onePoolOpened (fun a ha u => ?_) hs
    simp only [List.mem_cons, List.not_mem_nil, or_false] at ha
    rcases ha with rfl | rfl | rfl | rfl | rfl | rfl
    · exact quiet_of_ne (show (0 : ℤ) ≤ 0 from le_rfl) (by simp)
    · exact quiet_of_ne trivial (by simp)
    · exact quiet_of_ne trivial (by simp)
    · exact quiet_of_ne trivial (by simp)
    · exact quiet_of_ne trivial (by simp)
    · exact quiet_of_ne trivial (by simp)
  exact ⟨s, hreach, hinterrupted, last_close_returns hreach hlast⟩

end
end CmemRun
end BifrostModule.Cmem
