import BifrostModule.Cmem.Layout

/-! # The options that the module is loaded with

The script `cmemk_modopts` makes the parameters of the module out of a configuration of pools;
`cmem_init` reads them back with `simple_strtol`.
-/
namespace BifrostModule.Cmem
open Foundation

/-! ## Numbers as texts -/

theorem digitValue_digitChar : ∀ d < 16, digitValue (Nat.digitChar d) = some d := by decide

theorem digitValue_of_mem {b n : ℕ} (hb : 1 < b) (hb16 : b ≤ 16) :
    ∀ c ∈ Nat.toDigits b n, ∃ d < b, digitValue c = some d := by
  induction n using Nat.strong_induction_on with
  | _ n ih =>
    rw [Nat.toDigits_eq_if hb]
    split
    · rename_i hlt
      intro c hc
      rw [List.mem_singleton.mp hc]
      exact ⟨n, hlt, digitValue_digitChar n (hlt.trans_le hb16)⟩
    · rename_i hle
      intro c hc
      have hmod : n % b < b := Nat.mod_lt n (by omega)
      rcases List.mem_append.mp hc with hc | hc
      · exact ih (n / b) (Nat.div_lt_self (by omega) hb) c hc
      · rw [List.mem_singleton.mp hc]
        exact ⟨n % b, hmod, digitValue_digitChar _ (hmod.trans_le hb16)⟩

/-- The loop goes through digits. -/
theorem parseDigits_append {b : ℕ} {ds : List Char}
    (hds : ∀ c ∈ ds, ∃ d < b, digitValue c = some d) (acc : ℕ) (cs : List Char) :
    parseDigits b acc (ds ++ cs) = parseDigits b (parseDigits b acc ds) cs := by
  induction ds generalizing acc with
  | nil => rfl
  | cons c ds ih =>
    obtain ⟨d, hd, hc⟩ := hds c List.mem_cons_self
    have hrest := ih (fun e he => hds e (List.mem_cons_of_mem c he)) (acc * b + d)
    simp only [List.cons_append, parseDigits, hc, if_pos hd]
    exact hrest

theorem parseDigits_toDigits {b : ℕ} (hb : 1 < b) (hb16 : b ≤ 16) (n : ℕ) :
    parseDigits b 0 (Nat.toDigits b n) = n := by
  induction n using Nat.strong_induction_on with
  | _ n ih =>
    rw [Nat.toDigits_eq_if hb]
    split
    · rename_i hlt
      have hc := digitValue_digitChar n (hlt.trans_le hb16)
      simp [parseDigits, hc, hlt]
    · have hmod : n % b < b := Nat.mod_lt n (by omega)
      have hc := digitValue_digitChar (n % b) (hmod.trans_le hb16)
      rw [parseDigits_append (digitValue_of_mem hb hb16),
        ih (n / b) (Nat.div_lt_self (by omega) hb)]
      simp only [parseDigits, hc, if_pos hmod]
      exact Nat.div_add_mod' n b

theorem parseDigits_zeros {b : ℕ} (hb : 0 < b) (k : ℕ) (cs : List Char) :
    parseDigits b 0 (List.replicate k '0' ++ cs) = parseDigits b 0 cs := by
  induction k with
  | zero => rfl
  | succ k ih =>
    have hc : digitValue '0' = some 0 := by decide
    simp only [List.replicate_succ, List.cons_append, parseDigits, hc, if_pos hb, Nat.zero_mul,
      Nat.add_zero]
    exact ih

/-- A text that starts with a digit has no sign. -/
theorem strtolDecimal_eq {cs : List Char} (h : ∀ c ∈ cs, ∃ d < 10, digitValue c = some d) :
    strtolDecimal cs = parseDigits 10 0 cs % 2 ^ 32 := by
  unfold strtolDecimal
  split
  · obtain ⟨d, -, hd⟩ := h '-' List.mem_cons_self
    cases hd
  · rfl

theorem strtolDecimal_toDigits {n : ℕ} (h : n < 2 ^ 32) :
    strtolDecimal (Nat.toDigits 10 n) = n := by
  rw [strtolDecimal_eq (digitValue_of_mem (by decide) (by decide)),
    parseDigits_toDigits (by decide) (by decide), Nat.mod_eq_of_lt h]

/-! ## The script -/

def memStart : ℕ := 2147483648

/-- The variables of `/etc/cmemk.pools`; the pools are `POOL_#` with `SIZE_#`, in their order. -/
structure PoolsConfig where
  poolStart : ℕ
  poolSize : ℕ
  align : ℕ
  pools : List (ℕ × ℕ)

namespace PoolsConfig
variable (c : PoolsConfig)

def cmemStart : ℕ := c.poolStart * 1024 * 1024

def cmemEnd : ℕ := c.cmemStart + c.poolSize * 1024 * 1024

def alignedSize (size : ℕ) : ℕ :=
  if size % 4096 ≠ 0 then size + c.align - size % 4096 else size

/-- The loop of `_gen_args`: the numbers and sizes of the buffers that it prints, up to the first
pool of no buffers. -/
def genPools : List (ℕ × ℕ) → List (ℕ × ℕ)
  | [] => []
  | (num, size) :: pools =>
    if num = 0 then [] else (num, c.alignedSize size) :: genPools pools

def total : ℕ := ((c.genPools c.pools).map fun p => p.1 * p.2).sum

def freePoolMemory : ℤ := (c.cmemEnd : ℤ) - c.cmemStart - c.total

end PoolsConfig

def poolText (p : ℕ × ℕ) : List Char := Nat.toDigits 10 p.1 ++ 'x' :: Nat.toDigits 10 p.2

def hexText (n : ℕ) : List Char :=
  '0' :: 'x' :: (List.replicate (8 - (Nat.toDigits 16 n).length) '0' ++ Nat.toDigits 16 n)

/-- `_gen_args`: the parameters of the module as the kernel splits them. Nothing behind `pools=` is
one empty text. -/
def PoolsConfig.genArgs (c : PoolsConfig) : Params where
  physStart := fun bi => if bi = 0 then some (hexText (memStart + c.cmemStart)) else none
  physEnd := fun bi => if bi = 0 then some (hexText (memStart + c.cmemEnd)) else none
  pools := fun bi =>
    if bi = 0 then
      match c.genPools c.pools with
      | [] => [[]]
      | pools => pools.map poolText
    else []
  useHeapIfPoolUnavailable := false

theorem strtolHex_hexText {n : ℕ} (h : n < 2 ^ 32) : strtolHex (hexText n) = n := by
  change parseDigits 16 0 _ % 2 ^ 32 = n
  rw [parseDigits_zeros (by decide), parseDigits_toDigits (by decide) (by decide),
    Nat.mod_eq_of_lt h]

theorem splitPool_poolText (p : ℕ × ℕ) :
    splitPool (poolText p) = some (Nat.toDigits 10 p.1, Nat.toDigits 10 p.2) := by
  have hno : ∀ c ∈ Nat.toDigits 10 p.1, decide (c ≠ 'x') = true := by
    intro c hc
    obtain ⟨d, -, hd⟩ := digitValue_of_mem (by decide) (by decide) c hc
    refine decide_eq_true fun hx => ?_
    subst hx
    cases hd
  rw [splitPool, poolText, List.dropWhile_append_of_pos hno, List.takeWhile_append_of_pos hno]
  simp

theorem readPool_poolText {p : ℕ × ℕ} (hnum : p.1 < 2 ^ 32) (hsize : p.2 < 2 ^ 32) :
    readPool (poolText p) = some p := by
  rw [readPool, splitPool_poolText, Option.map_some, strtolDecimal_toDigits hnum,
    strtolDecimal_toDigits hsize]

/-! ## What is loaded -/

def PoolsConfig.configured (c : PoolsConfig) : List (ℕ × ℕ) := c.pools.takeWhile fun p => p.1 ≠ 0

/-- Sizes are aligned to pages, no pool has buffers of no bytes, and all numbers fit in words. -/
structure PoolsConfig.Sane (c : PoolsConfig) : Prop where
  align : c.align = pageSize
  size_pos : 0 < c.poolSize
  in_word : memStart + c.cmemEnd < 2 ^ 32
  pools : ∀ p ∈ c.pools, p.1 < 2 ^ 31 ∧ 0 < p.2 ∧ p.2 + pageSize < 2 ^ 32

section
variable {c : PoolsConfig}

theorem PoolsConfig.Sane.alignedSize_eq (hc : c.Sane) (size : ℕ) :
    c.alignedSize size = roundUp pageSize size := by
  have hsum : size + c.align - size % 4096 = size + pageSize - size % pageSize := by
    rw [hc.align]
    rfl
  rw [PoolsConfig.alignedSize, hsum]
  by_cases hmod : size % pageSize = 0
  · rw [roundUp_of_mod_eq_zero pageSize_pos hmod]
    exact if_neg (not_not.mpr hmod)
  · rw [roundUp_of_mod_ne_zero pageSize_pos hmod]
    have hlt := Nat.mod_lt size pageSize_pos
    have hmod' : size % 4096 ≠ 0 := hmod
    rw [if_pos hmod']
    omega

theorem PoolsConfig.Sane.genPools_eq (hc : c.Sane) :
    c.genPools c.pools = c.configured.map fun p => (p.1, roundUp pageSize p.2) := by
  rw [PoolsConfig.configured]
  induction c.pools with
  | nil => rfl
  | cons p pools ih =>
    rw [PoolsConfig.genPools, List.takeWhile_cons]
    by_cases hnum : p.1 = 0
    · simp [hnum]
    · simp [hnum, hc.alignedSize_eq, ih]

/-- What is printed of a pool is read back as it is. -/
theorem PoolsConfig.Sane.printed (hc : c.Sane) {p : ℕ × ℕ} (hp : p ∈ c.genPools c.pools) :
    readPool (poolText p) = some p ∧ SanePool p ∧ pageAlign p.2 = p.2 := by
  rw [hc.genPools_eq] at hp
  obtain ⟨q, hq, rfl⟩ := List.mem_map.mp hp
  obtain ⟨hnum, hpos, hlt⟩ := hc.pools q (List.takeWhile_subset _ hq)
  have hround := roundUp_lt_add pageSize_pos q.2
  have hle := le_roundUp pageSize_pos q.2
  have halign : pageAlign (roundUp pageSize q.2) = roundUp pageSize q.2 :=
    pageAlign_of_dvd (dvd_roundUp pageSize q.2) (by omega)
  refine ⟨readPool_poolText (by dsimp only; omega) (by dsimp only; omega), ⟨hnum, ?_⟩, halign⟩
  dsimp only
  omega

theorem PoolsConfig.Sane.start_eq (hc : c.Sane) : c.genArgs.start 0 = memStart + c.cmemStart := by
  have hword := hc.in_word
  have hend : c.cmemEnd = c.cmemStart + c.poolSize * 1024 * 1024 := rfl
  have hdvd : pageSize ∣ memStart + c.cmemStart :=
    ⟨524288 + c.poolStart * 256, by rw [memStart, PoolsConfig.cmemStart, pageSize]; omega⟩
  have htext : strtolHex (hexText (memStart + c.cmemStart)) = memStart + c.cmemStart :=
    strtolHex_hexText (by omega)
  change pageAlign (strtolHex (hexText (memStart + c.cmemStart))) = _
  rw [htext, pageAlign_of_dvd hdvd (by omega)]

theorem PoolsConfig.Sane.stop_eq (hc : c.Sane) : c.genArgs.stop 0 = memStart + c.cmemEnd := by
  have hdvd : pageSize ∣ memStart + c.cmemEnd :=
    ⟨524288 + c.poolStart * 256 + c.poolSize * 256, by
      rw [memStart, PoolsConfig.cmemEnd, PoolsConfig.cmemStart, pageSize]; omega⟩
  change pageAlign (strtolHex (hexText (memStart + c.cmemEnd))) = _
  rw [strtolHex_hexText hc.in_word, pageAlign_of_dvd hdvd hc.in_word]

/-- Without pools the one empty text cannot be read. -/
theorem PoolsConfig.pools_cases (c : PoolsConfig) :
    c.genArgs.pools 0 = [[]] ∨ c.genArgs.pools 0 = (c.genPools c.pools).map poolText := by
  have hpools : c.genArgs.pools 0 = match c.genPools c.pools with
    | [] => [[]]
    | pools => pools.map poolText := rfl
  rw [hpools]
  cases c.genPools c.pools with
  | nil => exact .inl rfl
  | cons p pools => exact .inr rfl

theorem PoolsConfig.Sane.params (hc : c.Sane) : c.genArgs.Sane where
  pools := Fin.forall_fin_two.mpr ⟨fun t ht q hq => by
    rcases c.pools_cases with hnil | hpools
    · rw [hnil] at ht
      rw [List.mem_singleton.mp ht] at hq
      cases hq
    · rw [hpools] at ht
      obtain ⟨p, hp, rfl⟩ := List.mem_map.mp ht
      obtain ⟨hread, hsane, -⟩ := hc.printed hp
      rw [hread] at hq
      exact Option.some.inj hq ▸ hsane, fun t ht => by cases ht⟩
  range := Fin.forall_fin_two.mpr ⟨fun a b ha hb => by
    cases ha
    cases hb
    have hstart := hc.start_eq
    have hstop := hc.stop_eq
    have hpos := hc.size_pos
    have hend : c.cmemEnd = c.cmemStart + c.poolSize * 1024 * 1024 := rfl
    change c.genArgs.start 0 < c.genArgs.stop 0
    omega, fun a b ha => by cases ha⟩

end

/-- A module that is loaded with the options of the script has the pools of the configuration, with
their sizes in whole pages, and its heap has what the script calls the free pool memory. -/
theorem genArgs_loads {sv : Services} {c : PoolsConfig} {s : InitState} (hsv : sv.Honest)
    (hc : c.Sane) (h : InitState.cmemInit sv c.genArgs = some (.ok s)) :
    (s.block 0).start = memStart + c.cmemStart ∧ (s.block 0).stop = memStart + c.cmemEnd ∧
      (s.block 0).npools = c.configured.length ∧
      ((s.block 0).heapSize : ℤ) = c.freePoolMemory ∧
      ∀ i (hi : i < c.configured.length),
        (s.loaded.pObjs (0, i)).numbufs = c.configured[i].1 ∧
          (s.loaded.pObjs (0, i)).size = roundUp pageSize c.configured[i].2 := by
  rcases InitState.done_of_init hsv hc.params h 0 with ⟨-, pools, hread, hat, hstart, -⟩ | ⟨hno, -⟩
  · have hpools : pools = c.genPools c.pools := by
      rcases c.pools_cases with hnil | hpools
      · rw [hnil] at hread
        have hmem : (none : Option (ℕ × ℕ)) ∈ pools.map some := hread ▸ List.mem_singleton_self _
        obtain ⟨q, -, hq⟩ := List.mem_map.mp hmem
        cases hq
      · rw [hpools, List.map_map] at hread
        have hsome : (c.genPools c.pools).map (readPool ∘ poolText) =
            (c.genPools c.pools).map some :=
          List.map_congr_left fun p hp => (hc.printed hp).1
        exact (List.map_injective_iff.mpr (Option.some_injective _)) (hread.symm.trans hsome)
    subst hpools
    rw [hc.start_eq, hc.stop_eq] at hat
    rw [hc.start_eq] at hstart
    have hbytes : poolBytes (c.genPools c.pools) = c.total := by
      rw [poolBytes, PoolsConfig.total]
      refine congrArg List.sum (List.map_congr_left fun p hp => ?_)
      rw [(hc.printed hp).2.2]
    have hend : c.cmemEnd = c.cmemStart + c.poolSize * 1024 * 1024 := rfl
    have hfits := hat.fits
    refine ⟨hstart, ?_, ?_, ?_, fun i hi => ?_⟩
    · rw [hat.mapped.stop_eq, hstart]
      omega
    · rw [hat.npools, hc.genPools_eq, List.length_map]
    · rw [hat.heap.size, PoolsConfig.freePoolMemory, hbytes]
      rw [hbytes] at hfits
      omega
    · have hlen : (c.genPools c.pools).length = c.configured.length := by
        rw [hc.genPools_eq, List.length_map]
      have hi' : i < (c.genPools c.pools).length := hlen ▸ hi
      obtain ⟨top, hpool⟩ := hat.stacked.get hi'
      rw [Nat.zero_add] at hpool
      obtain ⟨-, -, hnum, hsize, -⟩ := hpool.lists
      have hget : (c.genPools c.pools)[i] =
          (c.configured[i].1, roundUp pageSize c.configured[i].2) := by
        simp [hc.genPools_eq]
      have halign := (hc.printed (List.getElem_mem hi')).2.2
      rw [halign, hget] at hsize
      rw [hget] at hnum
      exact ⟨hnum, hsize⟩
  · exact absurd ⟨⟨Option.some_ne_none _, Option.some_ne_none _⟩, Option.some_ne_none _,
      Option.some_ne_none _⟩ hno

/-- The configuration that comes with the module, which leaves 101777408 bytes to the heap. -/
def cmemkPools : PoolsConfig := ⟨505, 320, 4096, [(16, 6220800), (32, 4194304)]⟩

theorem cmemkPools_sane : cmemkPools.Sane where
  align := rfl
  size_pos := by decide
  in_word := by decide
  pools := by decide

theorem genArgs_loads_cmemkPools :
    ∃ s, InitState.cmemInit (oneRegion 0x9f900000 0x14000000 0xc0000000) cmemkPools.genArgs =
        some (.ok s) ∧
      (s.block 0).start = memStart + cmemkPools.cmemStart ∧
      (s.block 0).stop = memStart + cmemkPools.cmemEnd ∧
      (s.block 0).npools = cmemkPools.configured.length ∧
      ((s.block 0).heapSize : ℤ) = cmemkPools.freePoolMemory ∧
      ∀ i (hi : i < cmemkPools.configured.length),
        (s.loaded.pObjs (0, i)).numbufs = cmemkPools.configured[i].1 ∧
          (s.loaded.pObjs (0, i)).size = roundUp pageSize cmemkPools.configured[i].2 := by
  have hsv : (oneRegion 0x9f900000 0x14000000 0xc0000000).Honest :=
    oneRegion_honest 0x9f900000 ⟨786432, rfl⟩ (by decide)
  have hok : (InitState.cmemInit (oneRegion 0x9f900000 0x14000000 0xc0000000)
      cmemkPools.genArgs).map Except.isOk = some true := rfl
  obtain ⟨r, hr, hrok⟩ := Option.map_eq_some_iff.mp hok
  cases r with
  | error e => cases hrok
  | ok s => exact ⟨s, hr, genArgs_loads hsv cmemkPools_sane hr⟩

end BifrostModule.Cmem
