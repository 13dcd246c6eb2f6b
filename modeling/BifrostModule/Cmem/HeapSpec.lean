import BifrostModule.Cmem.HeapFit

/-! # The free list in memory

The headers in memory hold a list of free extents. `HeapMem_alloc` takes the first one that
fits out of it and `HeapMem_free` puts one in its place, as on the list.
-/
namespace BifrostModule.Cmem
open Foundation

/-- The headers from `heap_head` on describe the extents of a list. -/
structure Holds (h : HeapMem) (l : List (Extent ℕ)) : Prop where
  linked : Linked 0 h.next none (l.map Extent.lo)
  sizes : ∀ e ∈ l, (h.mem e.lo).size = e.hi - e.lo

theorem Holds.unique {h : HeapMem} {l m : List (Extent ℕ)} (hl : Holds h l) (hm : Holds h m) :
    l = m := by
  have hlos := hl.linked.unique hm.linked
  have hlen : l.length = m.length := by simpa using congrArg List.length hlos
  refine List.ext_getElem hlen fun i hi hj => ?_
  have hlo : (l[i]).lo = (m[i]).lo := by
    have hget := congrArg (fun los => los[i]?) hlos
    simpa [hi, hj] using hget
  have hsl := hl.sizes l[i] (List.getElem_mem hi)
  have hsm := hm.sizes m[i] (List.getElem_mem hj)
  have hlt := (l[i]).lt
  have hlt' := (m[i]).lt
  rw [hlo] at hsl
  exact Extent.ext hlo (by omega)

/-- The link behind the extents that lie before another one is not in that one. -/
theorem lastLink_ne {before : List (Extent ℕ)} {S : Set ℕ} (hS : ∀ f ∈ before, f.lo ∉ S) :
    ∀ x ∈ S, lastLink none (before.map Extent.lo) ≠ some x := by
  intro x hx
  rcases lastLink_mem none (before.map Extent.lo) with h | ⟨a, ha, h⟩
  · rw [h]
    exact (Option.some_ne_none x).symm
  · obtain ⟨f, hf, rfl⟩ := List.mem_map.mp ha
    rw [h]
    exact fun heq => hS f hf (Option.some.inj heq ▸ hx)

/-- Writes to the link behind some extents and inside a part of the memory replace what follows
these extents up to the ones that lie outside the part. -/
theorem Holds.replace {h h' : HeapMem} (old new : List (Extent ℕ)) {before after : List (Extent ℕ)}
    {S : Set ℕ}
    (hh : Holds h (before ++ (old ++ after))) (hord : Ordered (before ++ after))
    (hS : ∀ f ∈ before ++ after, f.lo ∉ S)
    (hnext : ∀ p, p ≠ lastLink none (before.map Extent.lo) → (∀ x ∈ S, p ≠ some x) →
      h'.next p = h.next p)
    (hsize : ∀ x ∉ S, (h'.mem x).size = (h.mem x).size)
    (hnew : Path 0 h'.next (lastLink none (before.map Extent.lo)) (new.map Extent.lo))
    (hend : h'.next (lastLink (lastLink none (before.map Extent.lo)) (new.map Extent.lo)) =
      h.next (lastLink (lastLink none (before.map Extent.lo)) (old.map Extent.lo)))
    (hsizes : ∀ e ∈ new, (h'.mem e.lo).size = e.hi - e.lo) :
    Holds h' (before ++ (new ++ after)) := by
  have hnodup := hord.nodup
  rw [List.map_append, List.nodup_append] at hnodup
  obtain ⟨hbefore, -, hcross⟩ := hnodup
  constructor
  · have hlinked := hh.linked
    rw [List.map_append, List.map_append] at hlinked ⊢
    refine hlinked.replace (fun p hp => ?_) hnew hend fun a ha => ?_
    · refine hnext p (fun heq => ?_) fun x hx heq => ?_
      · exact lastLink_notMem_followed hbefore (fun a _ => Option.some_ne_none a) (heq ▸ hp)
      · rcases mem_followed hp with hnone | ⟨b, hb, hsome⟩
        · exact Option.some_ne_none x (heq.symm.trans hnone)
        · obtain ⟨f, hf, rfl⟩ := List.mem_map.mp hb
          have hfx : f.lo = x := Option.some.inj (hsome.symm.trans heq)
          exact hS f (List.mem_append_left after hf) (hfx ▸ hx)
    · obtain ⟨f, hf, rfl⟩ := List.mem_map.mp ha
      refine hnext (some f.lo) (fun heq => ?_) fun x hx heq => ?_
      · rcases lastLink_mem none (before.map Extent.lo) with hlast | ⟨b, hb, hlast⟩
        · exact Option.some_ne_none f.lo (heq.trans hlast)
        · exact hcross b hb f.lo ha (Option.some.inj (hlast.symm.trans heq.symm))
      · exact hS f (List.mem_append_right before hf) (Option.some.inj heq ▸ hx)
  · intro e he
    have hkeep : ∀ f ∈ before ++ after, (h'.mem f.lo).size = f.hi - f.lo := by
      intro f hf
      rw [hsize f.lo (hS f hf)]
      refine hh.sizes f ?_
      rcases List.mem_append.mp hf with hf | hf
      · exact List.mem_append_left _ hf
      · exact List.mem_append_right _ (List.mem_append_right _ hf)
    rcases List.mem_append.mp he with he | he
    · exact hkeep e (List.mem_append_left after he)
    · rcases List.mem_append.mp he with he | he
      · exact hsizes e he
      · exact hkeep e (List.mem_append_right before he)

/-- The header of an extent that follows others is where the link behind these points. -/
theorem Holds.next_eq {h : HeapMem} {before after : List (Extent ℕ)} {e : Extent ℕ}
    (hh : Holds h (before ++ e :: after)) :
    h.next (lastLink none (before.map Extent.lo)) = e.lo ∧ e.lo ≠ 0 := by
  have hlinked := hh.linked
  rw [List.map_append] at hlinked
  have htail := hlinked.next_lastLink
  exact ⟨htail.1, htail.2.1⟩

theorem Holds.next_end {h : HeapMem} {before : List (Extent ℕ)} (hh : Holds h before) :
    h.next (lastLink none (before.map Extent.lo)) = 0 := by
  have hlinked := hh.linked
  rw [← List.append_nil (before.map Extent.lo)] at hlinked
  exact hlinked.next_lastLink

theorem ordered_remove {before after : List (Extent ℕ)} {e : Extent ℕ}
    (h : Ordered (before ++ e :: after)) : Ordered (before ++ after) :=
  List.Pairwise.sublist ((List.sublist_cons_self e after).append_left before) h

/-! ## Allocation -/

section
variable {w : ℕ} {h : HeapMem} {before after : List (Extent ℕ)} {e r : Extent ℕ}

theorem allocFrom_eq (hh : Holds h (before ++ e :: after)) (hr : r.Inside e) (hhi : e.hi < 2 ^ w)
    (p : Option ℕ) :
    h.allocFrom w p e.lo (r.hi - r.lo) (r.lo - e.lo) =
      if e.lo < r.lo then
        if r.hi < e.hi then
          ((((h.setSize e.lo (r.lo - e.lo)).setNext (some r.hi) (h.next (some e.lo))).setSize
            r.hi (e.hi - r.hi)).setNext (some e.lo) r.hi)
        else h.setSize e.lo (r.lo - e.lo)
      else if r.hi < e.hi then
        (((h.setNext (some r.hi) (h.next (some e.lo))).setSize r.hi (e.hi - r.hi)).setNext p r.hi)
      else h.setNext p (h.next (some e.lo)) := by
  have hlo := hr.1
  have hrhi := hr.2
  have hlt := r.lt
  have hsize := hh.sizes e (by simp)
  have hrem : subWord w (subWord w (h.mem e.lo).size (r.hi - r.lo)) (r.lo - e.lo) =
      e.hi - r.hi := by
    have hrest : subWord w (e.hi - e.lo) (r.hi - r.lo) = e.hi - e.lo - (r.hi - r.lo) :=
      subWord_eq (by omega) (by omega)
    have hall : subWord w (e.hi - e.lo - (r.hi - r.lo)) (r.lo - e.lo) =
        e.hi - e.lo - (r.hi - r.lo) - (r.lo - e.lo) := subWord_eq (by omega) (by omega)
    rw [hsize, hrest, hall]
    omega
  have hnew : addWord w (addWord w e.lo (r.lo - e.lo)) (r.hi - r.lo) = r.hi := by
    have hsum : e.lo + (r.lo - e.lo) = r.lo := by omega
    rw [addWord_eq (a := e.lo) (by omega), hsum, addWord_eq (by omega)]
    omega
  have hleft : r.lo - e.lo ≠ 0 ↔ e.lo < r.lo := by omega
  have hright : e.hi - r.hi ≠ 0 ↔ r.hi < e.hi := by omega
  simp only [HeapMem.allocFrom, hrem, hnew, hleft, hright, HeapMem.next_setSize]

/-- To allocate from an extent leaves what is around the block. -/
theorem Holds.allocFrom (hh : Holds h (before ++ e :: after))
    (hord : Ordered (before ++ e :: after)) (hr : r.Inside e) (hhi : e.hi < 2 ^ w) :
    Holds (h.allocFrom w (lastLink none (before.map Extent.lo)) e.lo (r.hi - r.lo)
      (r.lo - e.lo)) (before ++ (e.cut r ++ after)) := by
  obtain ⟨hnext, hne⟩ := hh.next_eq
  have hout : ∀ f ∈ before ++ after, f.lo ∉ e.points := fun f hf => hord.lo_notMem hf
  have hlast := lastLink_ne (S := e.points) fun f hf => hout f (List.mem_append_left after hf)
  have hlo := hr.1
  have hrhi := hr.2
  have hlt := r.lt
  have helo : e.lo ∈ e.points := e.lo_mem
  rw [allocFrom_eq hh hr hhi]
  generalize hp : lastLink none (before.map Extent.lo) = p at hnext hlast ⊢
  have hpe : p ≠ some e.lo := hlast e.lo helo
  by_cases hleft : e.lo < r.lo
  · by_cases hright : r.hi < e.hi
    · have hrmem : r.hi ∈ e.points := ⟨by omega, hright⟩
      have hpr : p ≠ some r.hi := hlast r.hi hrmem
      have hre : r.hi ≠ e.lo := by omega
      rw [if_pos hleft, if_pos hright, Extent.cut, dif_pos hleft, dif_pos hright]
      refine Holds.replace [e] _ (S := e.points) hh (ordered_remove hord) hout
        (fun q hq hqS => ?_) (fun x hx => ?_) ?_ ?_ ?_
      · have hqe := hqS e.lo helo
        have hqr := hqS r.hi hrmem
        simp [HeapMem.next_setNext, hqe, hqr]
      · have hxe : x ≠ e.lo := fun heq => hx (heq ▸ helo)
        have hxr : x ≠ r.hi := fun heq => hx (heq ▸ hrmem)
        simp [HeapMem.size_setSize, hxe, hxr]
      · rw [hp]
        refine ⟨?_, hne, ?_, by change r.hi ≠ 0; omega, trivial⟩
        · simp [HeapMem.next_setNext, hpe, hpr, hnext]
        · simp
      · simp [lastLink, HeapMem.next_setNext, hre]
      · simp [HeapMem.size_setSize, hre.symm]
    · rw [if_pos hleft, if_neg hright, Extent.cut, dif_pos hleft, dif_neg hright]
      refine Holds.replace [e] _ (S := e.points) hh (ordered_remove hord) hout
        (fun q hq hqS => ?_) (fun x hx => ?_) ?_ ?_ ?_
      · simp
      · have hxe : x ≠ e.lo := fun heq => hx (heq ▸ helo)
        simp [HeapMem.size_setSize, hxe]
      · rw [hp]
        exact ⟨by simp [hnext], hne, trivial⟩
      · simp [lastLink]
      · simp [HeapMem.size_setSize]
  · by_cases hright : r.hi < e.hi
    · have hrmem : r.hi ∈ e.points := ⟨by omega, hright⟩
      have hpr : p ≠ some r.hi := hlast r.hi hrmem
      rw [if_neg hleft, if_pos hright, Extent.cut, dif_neg hleft, dif_pos hright]
      refine Holds.replace [e] _ (S := e.points) hh (ordered_remove hord) hout
        (fun q hq hqS => ?_) (fun x hx => ?_) ?_ ?_ ?_
      · rw [hp] at hq
        have hqr := hqS r.hi hrmem
        simp [HeapMem.next_setNext, hq, hqr]
      · have hxr : x ≠ r.hi := fun heq => hx (heq ▸ hrmem)
        simp [HeapMem.size_setSize, hxr]
      · rw [hp]
        exact ⟨by simp, by change r.hi ≠ 0; omega, trivial⟩
      · simp [lastLink, HeapMem.next_setNext, hpr.symm]
      · simp [HeapMem.size_setSize]
    · rw [if_neg hleft, if_neg hright, Extent.cut, dif_neg hleft, dif_neg hright]
      refine Holds.replace [e] _ (S := e.points) hh (ordered_remove hord) hout
        (fun q hq hqS => ?_) (fun x hx => ?_) ?_ ?_ ?_
      · rw [hp] at hq
        simp [HeapMem.next_setNext, hq]
      · simp
      · trivial
      · rw [hp]
        simp [lastLink]
      · simp

theorem allocFrom_frame (hh : Holds h (before ++ e :: after)) (hr : r.Inside e)
    (hhi : e.hi < 2 ^ w) {x : ℕ} (hx : x ∉ covers (before ++ e :: after)) :
    (h.allocFrom w (lastLink none (before.map Extent.lo)) e.lo (r.hi - r.lo)
      (r.lo - e.lo)).mem x = h.mem x := by
  have hout : ∀ y, y ∈ e.points → x ≠ y := fun y hy heq =>
    hx (points_subset_covers (by simp) (heq ▸ hy))
  have hxe : x ≠ e.lo := hout e.lo e.lo_mem
  have hp : lastLink none (before.map Extent.lo) ≠ some x := by
    refine lastLink_ne (S := {x}) (fun f hf hfx => ?_) x rfl
    exact hx (points_subset_covers (List.mem_append_left _ hf) (hfx ▸ f.lo_mem))
  have hlo := hr.1
  have hlt := r.lt
  rw [allocFrom_eq hh hr hhi]
  split
  · split
    · rename_i hright
      have hxr : x ≠ r.hi := hout r.hi ⟨by omega, hright⟩
      rw [HeapMem.mem_setNext_of_ne _ (fun heq => hxe (Option.some.inj heq).symm),
        HeapMem.mem_setSize_of_ne _ hxr,
        HeapMem.mem_setNext_of_ne _ (fun heq => hxr (Option.some.inj heq).symm),
        HeapMem.mem_setSize_of_ne _ hxe]
    · exact HeapMem.mem_setSize_of_ne _ hxe _
  · split
    · rename_i hright
      have hxr : x ≠ r.hi := hout r.hi ⟨by omega, hright⟩
      rw [HeapMem.mem_setNext_of_ne _ hp, HeapMem.mem_setSize_of_ne _ hxr,
        HeapMem.mem_setNext_of_ne _ (fun heq => hxr (Option.some.inj heq).symm)]
    · exact HeapMem.mem_setNext_of_ne _ hp _

end

section
variable {w n k : ℕ}

/-- The test of the loop, without its masks and its wrapping sum. -/
theorem big_enough_iff (hword : n + 2 ^ k < 2 ^ w) (e : Extent ℕ) :
    addWord w n (alignOffset w e.lo (2 ^ k)) ≤ e.hi - e.lo ↔
      roundUp (2 ^ k) e.lo + n ≤ e.hi := by
  have hpos : 0 < 2 ^ k := Nat.two_pow_pos k
  have hle := le_roundUp hpos e.lo
  have hlt := roundUp_lt_add hpos e.lo
  have helt := e.lt
  rw [alignOffset_eq (by omega), addWord_eq (by omega)]
  omega

theorem allocLoop_append {h : HeapMem} {dryrun : Bool} (hn : 0 < n) (hword : n + 2 ^ k < 2 ^ w)
    {small rest : List (Extent ℕ)} (hsmall : ∀ e ∈ small, fit n (2 ^ k) e = none)
    {p : Option ℕ} (hlinked : Linked 0 h.next p ((small ++ rest).map Extent.lo))
    (hsizes : ∀ e ∈ small, (h.mem e.lo).size = e.hi - e.lo) (fuel : ℕ) :
    h.allocLoop w n (2 ^ k) dryrun (fuel + small.length) p (h.next p) =
      h.allocLoop w n (2 ^ k) dryrun fuel (lastLink p (small.map Extent.lo))
        (h.next (lastLink p (small.map Extent.lo))) := by
  induction small generalizing p with
  | nil => rfl
  | cons e small ih =>
    obtain ⟨hnext, hne, hrest⟩ := hlinked
    have htest := (fit_eq_none hn).mp (hsmall e List.mem_cons_self)
    rw [← Nat.not_le, ← big_enough_iff hword, ← hsizes e List.mem_cons_self] at htest
    have hloop := ih (fun f hf => hsmall f (List.mem_cons_of_mem e hf)) hrest
      fun f hf => hsizes f (List.mem_cons_of_mem e hf)
    rw [List.length_cons, ← Nat.add_assoc, HeapMem.allocLoop, hnext, if_neg hne, if_neg htest,
      hloop]
    rfl

/-- The loop finds the first extent in which the request fits, and `NULL` if there is none. -/
theorem allocLoop_eq {h : HeapMem} {l : List (Extent ℕ)} (hh : Holds h l) (dryrun : Bool)
    (hn : 0 < n) (hword : n + 2 ^ k < 2 ^ w) (hhi : ∀ e ∈ l, e.hi < 2 ^ w) {fuel : ℕ}
    (hfuel : l.length < fuel) :
    (take (fit n (2 ^ k)) l = none ∧
      h.allocLoop w n (2 ^ k) dryrun fuel none (h.next none) = some (0, h)) ∨
    ∃ before e after r, l = before ++ e :: after ∧ fit n (2 ^ k) e = some r ∧
      take (fit n (2 ^ k)) l = some (r, before ++ e.cut r ++ after) ∧
      h.allocLoop w n (2 ^ k) dryrun fuel none (h.next none) = some (r.lo, if dryrun then h else
        h.allocFrom w (lastLink none (before.map Extent.lo)) e.lo (r.hi - r.lo) (r.lo - e.lo)) := by
  have hpos : 0 < 2 ^ k := Nat.two_pow_pos k
  cases htake : take (fit n (2 ^ k)) l with
  | none =>
    refine .inl ⟨rfl, ?_⟩
    obtain ⟨spare, rfl⟩ : ∃ spare, fuel = spare + 1 + l.length := ⟨fuel - l.length - 1, by omega⟩
    have hlinked : Linked 0 h.next none ((l ++ []).map Extent.lo) :=
      (List.append_nil l).symm ▸ hh.linked
    rw [allocLoop_append hn hword (take_eq_none_iff.mp htake) hlinked hh.sizes (spare + 1),
      hh.next_end, HeapMem.allocLoop, if_pos rfl]
  | some found =>
    obtain ⟨r, l'⟩ := found
    obtain ⟨before, e, after, rfl, hbefore, hfit, rfl⟩ := take_eq_some htake
    refine .inr ⟨before, e, after, r, rfl, hfit, rfl, ?_⟩
    have hlen : (before ++ e :: after).length = before.length + after.length + 1 := by
      simp only [List.length_append, List.length_cons]
      omega
    obtain ⟨spare, rfl⟩ : ∃ spare, fuel = spare + 1 + before.length :=
      ⟨fuel - before.length - 1, by omega⟩
    obtain ⟨hlo, hrhi, -, hle⟩ := fit_eq_some hfit
    obtain ⟨hnext, hne⟩ := hh.next_eq
    have hehi := hhi e (by simp)
    have hround := le_roundUp hpos e.lo
    have htest : addWord w n (alignOffset w e.lo (2 ^ k)) ≤ (h.mem e.lo).size := by
      rw [hh.sizes e (by simp), big_enough_iff hword]
      omega
    have hoff : alignOffset w e.lo (2 ^ k) = r.lo - e.lo := by
      rw [alignOffset_eq (by omega), hlo]
    have haddr : addWord w e.lo (r.lo - e.lo) = r.lo := by
      rw [addWord_eq (by omega)]
      omega
    have hsize : n = r.hi - r.lo := by omega
    rw [allocLoop_append hn hword hbefore hh.linked
      (fun f hf => hh.sizes f (List.mem_append_left _ hf)), hnext, HeapMem.allocLoop,
      if_neg hne, if_pos htest, hoff, haddr, hsize]
    cases dryrun with
    | true => rfl
    | false => rfl

end

def takeFor (reqSize reqAlign : ℕ) (l : List (Extent ℕ)) : Option (Extent ℕ × List (Extent ℕ)) :=
  take (fit (roundUp pageSize reqSize) (adjAlign reqAlign)) l

section
variable {w fuel reqSize reqAlign : ℕ} {h : HeapMem} {l l' : List (Extent ℕ)} {r : Extent ℕ}

/-- `HeapMem_alloc` takes what the request takes out of the list that memory holds, and writes only
inside the extents that were free. -/
theorem heapMemAlloc_some (hh : Holds h l) (hl : Canonical l) (hhi : ∀ e ∈ l, e.hi < 2 ^ w)
    (hfuel : l.length < fuel) (hreq : ProperRequest w reqSize reqAlign)
    (htake : takeFor reqSize reqAlign l = some (r, l')) :
    ∃ h', h.heapMemAlloc w fuel reqSize reqAlign false = some (r.lo, h') ∧ Holds h' l' ∧
      ∀ x ∉ covers l, h'.mem x = h.mem x := by
  have hword := hreq.in_word
  have hn := roundUp_pos pageSize_pos hreq.some_bytes
  obtain ⟨k, hk, -⟩ := adjAlign_eq hreq.power
  rw [takeFor] at htake
  rw [HeapMem.heapMemAlloc, adjSize_eq (by omega)]
  rw [hk] at hword htake ⊢
  rcases allocLoop_eq hh false hn hword hhi hfuel with ⟨hnone, -⟩ | ⟨before, e, after, s, rfl,
    hfit, hsome, hloop⟩
  · rw [hnone] at htake
    cases htake
  · rw [hsome] at htake
    obtain ⟨rfl, rfl⟩ := Prod.mk.inj (Option.some.inj htake)
    have hin := fit_inside (Nat.two_pow_pos k) e s hfit
    have hehi := hhi e (by simp)
    refine ⟨_, hloop, ?_, fun x hx => allocFrom_frame hh hin hehi hx⟩
    rw [List.append_assoc]
    exact hh.allocFrom hl.ordered hin hehi

theorem heapMemAlloc_none (hh : Holds h l) (hhi : ∀ e ∈ l, e.hi < 2 ^ w)
    (hfuel : l.length < fuel) (hreq : ProperRequest w reqSize reqAlign)
    (htake : takeFor reqSize reqAlign l = none) :
    h.heapMemAlloc w fuel reqSize reqAlign false = some (0, h) := by
  have hword := hreq.in_word
  have hn := roundUp_pos pageSize_pos hreq.some_bytes
  obtain ⟨k, hk, -⟩ := adjAlign_eq hreq.power
  rw [takeFor] at htake
  rw [HeapMem.heapMemAlloc, adjSize_eq (by omega)]
  rw [hk] at hword htake ⊢
  rcases allocLoop_eq hh false hn hword hhi hfuel with ⟨-, hloop⟩ |
    ⟨before, e, after, s, -, -, hsome, -⟩
  · exact hloop
  · rw [hsome] at htake
    cases htake

/-- A dry run finds the same address and writes nothing. -/
theorem heapMemAlloc_dryrun (hh : Holds h l) (hhi : ∀ e ∈ l, e.hi < 2 ^ w)
    (hfuel : l.length < fuel) (hreq : ProperRequest w reqSize reqAlign) :
    h.heapMemAlloc w fuel reqSize reqAlign true =
      some ((takeFor reqSize reqAlign l).elim 0 (fun p => p.1.lo), h) := by
  have hword := hreq.in_word
  have hn := roundUp_pos pageSize_pos hreq.some_bytes
  obtain ⟨k, hk, -⟩ := adjAlign_eq hreq.power
  rw [takeFor, HeapMem.heapMemAlloc, adjSize_eq (by omega)]
  rw [hk] at hword ⊢
  rcases allocLoop_eq hh true hn hword hhi hfuel with ⟨hnone, hloop⟩ | ⟨before, e, after, s, rfl,
    -, hsome, hloop⟩
  · rw [hnone, hloop]
    rfl
  · rw [hsome, hloop]
    rfl

end

/-! ## Release -/

section
variable {w : ℕ} {h : HeapMem}

/-- The place of a header is behind the extents that start before it. -/
theorem findPlace_eq {addr : ℕ} {lower upper : List (Extent ℕ)} (hlower : ∀ e ∈ lower, e.lo < addr)
    (hupper : ∀ e ∈ upper, ¬ e.lo < addr) {p : Option ℕ}
    (hlinked : Linked 0 h.next p ((lower ++ upper).map Extent.lo)) {fuel : ℕ}
    (hfuel : lower.length < fuel) :
    h.findPlace addr fuel p (h.next p) = some (lastLink p (lower.map Extent.lo),
      h.next (lastLink p (lower.map Extent.lo))) := by
  induction lower generalizing p fuel with
  | nil =>
    cases fuel with
    | zero => exact absurd hfuel (Nat.not_lt_zero _)
    | succ fuel =>
      rw [HeapMem.findPlace]
      refine if_neg fun hgo => ?_
      cases upper with
      | nil => exact hgo.1 hlinked
      | cons e upper => exact hupper e List.mem_cons_self (hlinked.1 ▸ hgo.2)
  | cons e lower ih =>
    obtain ⟨hnext, hne, hrest⟩ := hlinked
    cases fuel with
    | zero => exact absurd hfuel (Nat.not_lt_zero _)
    | succ fuel =>
      rw [HeapMem.findPlace, hnext, if_pos ⟨hne, hlower e List.mem_cons_self⟩]
      exact ih (fun f hf => hlower f (List.mem_cons_of_mem e hf)) hrest
        (Nat.lt_of_succ_lt_succ hfuel)

theorem Holds.insert {before after : List (Extent ℕ)} {e : Extent ℕ}
    (hh : Holds h (before ++ after)) (hord : Ordered (before ++ e :: after)) (hne : e.lo ≠ 0) :
    Holds (((h.setNext (some e.lo) (h.next (lastLink none (before.map Extent.lo)))).setSize e.lo
      (e.hi - e.lo)).setNext (lastLink none (before.map Extent.lo)) e.lo)
      (before ++ e :: after) := by
  have hout : ∀ f ∈ before ++ after, f.lo ∉ e.points := fun f hf => hord.lo_notMem hf
  have hlast := lastLink_ne (S := e.points) fun f hf => hout f (List.mem_append_left after hf)
  generalize hp : lastLink none (before.map Extent.lo) = p at hlast ⊢
  have hpe : p ≠ some e.lo := hlast e.lo e.lo_mem
  refine Holds.replace [] [e] (S := e.points) hh (ordered_remove hord) hout
    (fun q hq hqS => ?_) (fun x hx => ?_) ?_ ?_ ?_
  · rw [hp] at hq
    have hqe := hqS e.lo e.lo_mem
    simp [HeapMem.next_setNext, hq, hqe]
  · have hxe : x ≠ e.lo := fun heq => hx (heq ▸ e.lo_mem)
    simp [HeapMem.size_setSize, hxe]
  · rw [hp]
    exact ⟨by simp, hne, trivial⟩
  · rw [hp]
    simp [lastLink, HeapMem.next_setNext, hpe.symm]
  · simp [HeapMem.size_setSize]

/-- Two headers that touch are joined. -/
theorem Holds.join {before after : List (Extent ℕ)} {e f : Extent ℕ}
    (hh : Holds h (before ++ e :: f :: after)) (hord : Ordered (before ++ e :: f :: after))
    (htouch : e.hi = f.lo) (hhi : f.hi < 2 ^ w) :
    Holds ((h.setNext (some e.lo) (h.next (some f.lo))).setSize e.lo
      (addWord w (h.mem e.lo).size (h.mem f.lo).size))
      (before ++ ⟨e.lo, f.hi, e.lt.trans (htouch ▸ f.lt)⟩ :: after) := by
  have hord' := ordered_remove hord
  have hout : ∀ g ∈ before ++ after, g.lo ∉ e.points := fun g hg =>
    hord.lo_notMem (by
      rcases List.mem_append.mp hg with hg | hg
      · exact List.mem_append_left _ hg
      · exact List.mem_append_right _ (List.mem_cons_of_mem f hg))
  have hlast := lastLink_ne (S := e.points) fun g hg => hout g (List.mem_append_left after hg)
  obtain ⟨hnext, hne⟩ := hh.next_eq
  have hlte := e.lt
  have hltf := f.lt
  have hsum : addWord w (h.mem e.lo).size (h.mem f.lo).size = f.hi - e.lo := by
    rw [hh.sizes e (by simp), hh.sizes f (by simp), addWord_eq (by omega)]
    omega
  rw [hsum]
  generalize hp : lastLink none (before.map Extent.lo) = p at hnext hlast ⊢
  have hpe : p ≠ some e.lo := hlast e.lo e.lo_mem
  refine Holds.replace [e, f] [⟨e.lo, f.hi, e.lt.trans (htouch ▸ f.lt)⟩]
    (S := e.points) hh (ordered_remove hord') hout (fun q hq hqS => ?_) (fun x hx => ?_) ?_ ?_ ?_
  · have hqe := hqS e.lo e.lo_mem
    simp [HeapMem.next_setNext, hqe]
  · have hxe : x ≠ e.lo := fun heq => hx (heq ▸ e.lo_mem)
    simp [HeapMem.size_setSize, hxe]
  · rw [hp]
    exact ⟨by simp [HeapMem.next_setNext, hpe, hnext], hne, trivial⟩
  · simp [lastLink]
  · simp [HeapMem.size_setSize]

theorem Holds.joinUpper {before after : List (Extent ℕ)} {e : Extent ℕ}
    (hh : Holds h (before ++ e :: after)) (hord : Ordered (before ++ e :: after))
    (hhi : ∀ f ∈ after, f.hi < 2 ^ w) (hehi : e.hi < 2 ^ w) :
    Holds (h.joinUpper w e.lo (e.hi - e.lo) (h.next (some e.lo))) (before ++ glue e after) := by
  have hlt := e.lt
  have hsum : addWord w e.lo (e.hi - e.lo) = e.hi := by
    rw [addWord_eq (by omega)]
    omega
  rw [HeapMem.joinUpper, hsum]
  have hnext : h.next (lastLink none ((before ++ [e]).map Extent.lo)) = h.next (some e.lo) := by
    rw [List.map_append, List.map_cons, List.map_nil, lastLink_concat]
  cases after with
  | nil =>
    rw [← hnext, hh.next_end]
    exact hh
  | cons f after =>
    have hh' : Holds h ((before ++ [e]) ++ f :: after) := by
      rw [List.append_assoc]
      exact hh
    rw [← hnext, hh'.next_eq.1, glue]
    by_cases htouch : e.hi = f.lo
    · rw [if_pos ⟨hh'.next_eq.2, htouch⟩, dif_pos htouch]
      simp only [HeapMem.size_setNext]
      exact hh.join hord htouch (hhi f List.mem_cons_self)
    · rw [if_neg fun hboth => htouch hboth.2, dif_neg htouch]
      exact hh

theorem Holds.joinLower {before after : List (Extent ℕ)} {c e : Extent ℕ}
    (hh : Holds h (before ++ c :: e :: after)) (hord : Ordered (before ++ c :: e :: after))
    (hchi : c.hi < 2 ^ w) (hehi : e.hi < 2 ^ w) :
    Holds (h.joinLower w e.lo (some c.lo)) (before ++ glue c (e :: after)) := by
  have hlt := c.lt
  have hsum : addWord w c.lo (c.hi - c.lo) = c.hi := by
    rw [addWord_eq (by omega)]
    omega
  rw [HeapMem.joinLower, hh.sizes c (by simp), hsum, glue]
  by_cases htouch : c.hi = e.lo
  · rw [if_pos htouch, dif_pos htouch]
    simp only [HeapMem.size_setNext]
    exact hh.join hord htouch hehi
  · rw [if_neg htouch, dif_neg htouch]
    exact hh

end

section
variable {w fuel size : ℕ} {h : HeapMem} {l : List (Extent ℕ)} {e : Extent ℕ}

theorem exists_lower_upper (hl : Canonical l) (addr : ℕ) :
    ∃ lower upper, l = lower ++ upper ∧ (∀ f ∈ lower, f.lo < addr) ∧
      ∀ f ∈ upper, ¬ f.lo < addr := by
  induction l with
  | nil => exact ⟨[], [], rfl, fun f hf => (List.not_mem_nil hf).elim,
      fun f hf => (List.not_mem_nil hf).elim⟩
  | cons f l ih =>
    by_cases hlt : f.lo < addr
    · obtain ⟨lower, upper, rfl, hlower, hupper⟩ := ih hl.tail
      refine ⟨f :: lower, upper, rfl, fun g hg => ?_, hupper⟩
      rcases List.mem_cons.mp hg with rfl | hg
      · exact hlt
      · exact hlower g hg
    · refine ⟨[], f :: l, rfl, fun g hg => (List.not_mem_nil hg).elim, fun g hg => ?_⟩
      rcases List.mem_cons.mp hg with rfl | hg
      · exact hlt
      · have hfg := hl.hi_lt hg
        have hflt := f.lt
        omega

/-- An extent that shares no point with a list lies between the extents before it and the others. -/
theorem ordered_insert {lower upper : List (Extent ℕ)} (hl : Canonical (lower ++ upper))
    (he : Disjoint e.points (covers (lower ++ upper))) (hlower : ∀ f ∈ lower, f.lo < e.lo)
    (hupper : ∀ f ∈ upper, ¬ f.lo < e.lo) : Ordered (lower ++ e :: upper) := by
  have hsplit := List.pairwise_append.mp hl.ordered
  have hone : ∀ f ∈ lower ++ upper, Disjoint e.points f.points := fun f hf =>
    he.mono_right (points_subset_covers hf)
  have hbelow : ∀ f ∈ lower, f.hi ≤ e.lo := fun f hf =>
    Extent.hi_le_lo_of_disjoint (hone f (List.mem_append_left upper hf)).symm (hlower f hf)
  have habove : ∀ f ∈ upper, e.hi ≤ f.lo := by
    intro f hf
    have hdisj := hone f (List.mem_append_right lower hf)
    have hne : e.lo ≠ f.lo := fun heq => Set.disjoint_left.mp hdisj e.lo_mem (heq ▸ f.lo_mem)
    exact Extent.hi_le_lo_of_disjoint hdisj (lt_of_le_of_ne (not_lt.mp (hupper f hf)) hne)
  refine List.pairwise_append.mpr ⟨hsplit.1, List.pairwise_cons.mpr ⟨habove, hsplit.2.1⟩, ?_⟩
  intro f hf g hg
  rcases List.mem_cons.mp hg with rfl | hg
  · exact hbelow f hf
  · exact hsplit.2.2 f hf g hg

/-- Once a header is linked in, the two joins leave the list to which its extent was given back. -/
theorem Holds.joined {lower upper : List (Extent ℕ)} (hh : Holds h (lower ++ e :: upper))
    (hl : Canonical (lower ++ upper)) (hord : Ordered (lower ++ e :: upper))
    (hlower : ∀ f ∈ lower, f.lo < e.lo) (hupper : ∀ f ∈ upper, ¬ f.lo < e.lo)
    (hhi : ∀ f ∈ lower ++ upper, f.hi < 2 ^ w) (hehi : e.hi < 2 ^ w) :
    Holds ((h.joinUpper w e.lo (e.hi - e.lo) (h.next (some e.lo))).joinLower w e.lo
      (lastLink none (lower.map Extent.lo))) (release e (lower ++ upper)) := by
  have hup := hh.joinUpper hord (fun f hf => hhi f (List.mem_append_right lower hf)) hehi
  rcases lower.eq_nil_or_concat with rfl | ⟨before, c, rfl⟩
  · rw [List.nil_append, release_of_forall_ge hupper]
    exact hup
  · have hc : c.lo < e.lo := hlower c (by simp)
    have hgap : Canonical (before ++ c :: upper) := by simpa using hl
    obtain ⟨g, m, hglue, hglo⟩ := glue_eq_cons e upper
    have hord' := ordered_glue hord
    have hends : ∀ f ∈ glue e upper, f.lo < 2 ^ w ∧ f.hi < 2 ^ w := by
      refine glue_ends (P := fun x => x < 2 ^ w) ⟨e.lt.trans hehi, hehi⟩ fun f hf => ?_
      have hfhi := hhi f (List.mem_append_right _ hf)
      exact ⟨f.lt.trans hfhi, hfhi⟩
    rw [hglue] at hup hord' hends
    have hlast : lastLink none ((before.concat c).map Extent.lo) = some c.lo := by
      simp [lastLink_concat]
    have hrelease : release e (before.concat c ++ upper) = before ++ glue c (g :: m) := by
      rw [List.concat_append, release_append hgap (fun f hf => hlower f (by simp [hf])) hc,
        release_of_forall_ge hupper, hglue]
    rw [hlast, hrelease, ← hglo]
    rw [List.concat_append] at hup hord'
    rw [← hglo] at hup
    exact hup.joinLower hord' (hhi c (by simp)) (hends g List.mem_cons_self).2

/-- `HeapMem_free` gives an extent back to the list that memory holds, and writes only inside it
and the extents that were free. -/
theorem heapMemFree_eq (hh : Holds h l) (hl : Canonical l) (hhi : ∀ f ∈ l, f.hi < 2 ^ w)
    (hfuel : l.length < fuel) (hdisj : Disjoint e.points (covers l)) (hehi : e.hi < 2 ^ w)
    (hne : e.lo ≠ 0) (hsize : adjSize w size = e.hi - e.lo) :
    ∃ h', h.heapMemFree w fuel e.lo size = some h' ∧ Holds h' (release e l) ∧
      ∀ x ∉ e.points ∪ covers l, h'.mem x = h.mem x := by
  obtain ⟨lower, upper, rfl, hlower, hupper⟩ := exists_lower_upper hl e.lo
  have hplace := findPlace_eq hlower hupper hh.linked
    (show lower.length < fuel by simp only [List.length_append] at hfuel; omega)
  have hord := ordered_insert hl hdisj hlower hupper
  have hins := hh.insert hord hne
  have hlast := lastLink_ne (S := e.points)
    (fun f hf => hord.lo_notMem (List.mem_append_left upper hf)) e.lo e.lo_mem
  have hnext : (((h.setNext (some e.lo) (h.next (lastLink none (lower.map Extent.lo)))).setSize
      e.lo (e.hi - e.lo)).setNext (lastLink none (lower.map Extent.lo)) e.lo).next (some e.lo) =
      h.next (lastLink none (lower.map Extent.lo)) := by
    simp [HeapMem.next_setNext, hlast.symm]
  have hjoined := hins.joined hl hord hlower hupper hhi hehi
  rw [hnext] at hjoined
  refine ⟨_, by rw [HeapMem.heapMemFree, hplace, hsize]; rfl, hjoined, fun x hx => ?_⟩
  have hxe : x ≠ e.lo := fun heq => hx (.inl (heq ▸ e.lo_mem))
  have hxp : lastLink none (lower.map Extent.lo) ≠ some x :=
    lastLink_ne (S := {x}) (fun f hf hfx => hx (.inr (points_subset_covers
      (List.mem_append_left upper hf) (hfx ▸ f.lo_mem)))) x rfl
  rw [HeapMem.mem_joinLower_of_ne _ w e.lo hxp, HeapMem.mem_joinUpper_of_ne _ w _ _ hxe,
    HeapMem.mem_setNext_of_ne _ hxp, HeapMem.mem_setSize_of_ne _ hxe,
    HeapMem.mem_setNext_of_ne _ fun heq => hxe (Option.some.inj heq).symm]

end
end BifrostModule.Cmem
