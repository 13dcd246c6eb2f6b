import BifrostModule.Cmem.Layout

/-! # When loading succeeds

With the services of the kernel at hand, the starts of the blocks and the sizes of the pools
decide what becomes of `cmem_init`.
-/
namespace BifrostModule.Cmem
open Foundation

structure Services.Grants (sv : Services) (p : Params) : Prop where
  chrdev : sv.registerChrdev = true
  region : ∀ bi, p.Used bi →
    sv.requestMemRegion bi (p.start bi) (p.stop bi - p.start bi) = true
  remap : ∀ bi, p.Used bi → sv.ioremap bi (p.start bi) (p.stop bi - p.start bi) ≠ 0
  kmalloc : ∀ id i, sv.kmalloc id i ≠ none

/-- The parameters name these pools, for blocks that are set up. -/
structure Params.Names (p : Params) (pools : BlockId → List (ℕ × ℕ)) : Prop where
  read : ∀ bi, (p.pools bi).map readPool = (pools bi).map some
  sane : ∀ bi, ∀ q ∈ pools bi, SanePool q
  few : ∀ bi, (pools bi).length ≤ maxPools
  given : ∀ bi, p.pools bi ≠ [] → p.Used bi
  range : ∀ bi, p.Used bi → p.start bi < p.stop bi

/-- Neither are the pools too big for the block, nor is there something left for the heap with all
pools taken. -/
def Params.Fits (p : Params) (pools : BlockId → List (ℕ × ℕ)) (bi : BlockId) : Prop :=
  poolBytes (pools bi) ≤ p.stop bi - p.start bi ∧
    (poolBytes (pools bi) = p.stop bi - p.start bi ∨ (pools bi).length ≠ maxPools)

section
variable {p : Params} {pools : BlockId → List (ℕ × ℕ)}

theorem Params.Used.eq_some {bi : BlockId} (h : p.Used bi) :
    ∃ physStart physEnd, p.physStart bi = some physStart ∧ p.physEnd bi = some physEnd ∧
      p.start bi = pageAlign (strtolHex physStart) ∧ p.stop bi = pageAlign (strtolHex physEnd) := by
  obtain ⟨physStart, hstart⟩ := Option.ne_none_iff_exists'.mp h.2.1
  obtain ⟨physEnd, hend⟩ := Option.ne_none_iff_exists'.mp h.2.2
  refine ⟨physStart, physEnd, hstart, hend, ?_, ?_⟩
  · rw [Params.start, hstart]
    rfl
  · rw [Params.stop, hend]
    rfl

theorem Params.Names.saneText (hp : p.Names pools) (bi : BlockId) :
    ∀ t ∈ p.pools bi, ∀ q, readPool t = some q → SanePool q := by
  intro t ht q hq
  have hmem : some q ∈ (pools bi).map some := hp.read bi ▸ hq ▸ List.mem_map_of_mem ht
  obtain ⟨q', hq', heq⟩ := List.mem_map.mp hmem
  exact Option.some.inj heq ▸ hp.sane bi q' hq'

theorem Params.Names.length_eq (hp : p.Names pools) (bi : BlockId) :
    (p.pools bi).length = (pools bi).length := by
  simpa using congrArg List.length (hp.read bi)

end

namespace InitState
variable {sv : Services} {s : InitState} {p : Params} {pools : BlockId → List (ℕ × ℕ)}

theorem initBlock_outcome (hsv : sv.Honest) (hg : sv.Grants p) (hp : p.Names pools) {bi : BlockId}
    (hused : p.Used bi) {physStart physEnd : List Char}
    (hstart : p.start bi = pageAlign (strtolHex physStart))
    (hstop : p.stop bi = pageAlign (strtolHex physEnd)) (hothers : OthersMapped sv s bi)
    (hnpools : (s.block bi).npools = (p.pools bi).length) :
    (p.start bi = 0 ∧ ∃ u, initBlock sv p bi physStart physEnd s = some (.error (.EINVAL, u))) ∨
    (p.stop bi - p.start bi < poolBytes (pools bi) ∧
      ∃ u, initBlock sv p bi physStart physEnd s = some (.error (.ENOMEM, u))) ∨
    (poolBytes (pools bi) < p.stop bi - p.start bi ∧ (pools bi).length = maxPools ∧
      initBlock sv p bi physStart physEnd s = none) ∨
    (p.start bi ≠ 0 ∧ p.Fits pools bi) ∧
      ∃ t, initBlock sv p bi physStart physEnd s = some (.ok t) := by
  by_cases hzero : p.start bi = 0
  · left
    rw [initBlock]
    dsimp only
    rw [← hstart, if_pos hzero]
    exact ⟨hzero, _, rfl⟩
  right
  have hrange := hp.range bi hused
  have hlt : p.stop bi < 2 ^ 32 := hstop ▸ pageAlign_lt _
  have hlen : subWord 32 (p.stop bi) (p.start bi) = p.stop bi - p.start bi :=
    subWord_eq hrange.le hlt
  have hregion : sv.requestMemRegion bi (p.start bi) (subWord 32 (p.stop bi) (p.start bi)) = true :=
    hlen ▸ hg.region bi hused
  have hremap : sv.ioremap bi (p.start bi) (subWord 32 (p.stop bi) (p.start bi)) ≠ 0 :=
    hlen ▸ hg.remap bi hused
  rw [initBlock_eq hstart.symm hstop.symm hzero hregion hremap]
  obtain ⟨-, hm, hal⟩ := mapBlock_mapped hsv hzero (hstart ▸ pageAlign_dvd _)
    (hstop ▸ pageAlign_dvd _) hrange hlt rfl hregion hremap hothers
  rw [hlen] at hm hal ⊢
  have hself := mapBlock_self s bi (p.start bi) (p.stop bi)
    (sv.ioremap bi (p.start bi) (p.stop bi - p.start bi)) (p.stop bi - p.start bi)
  rcases carveBlock_outcome hm hal (Function.update_self _ _ _) (by rw [hself]; exact hnpools)
    (hp.read bi) (hp.sane bi) hg.kmalloc with h | ⟨hless, hmax, h⟩ | ⟨hle, hmax, h⟩
  · exact .inl h
  · exact .inr (.inl ⟨hless, hmax, h⟩)
  · exact .inr (.inr ⟨⟨hzero, hle, hmax⟩, h⟩)

theorem initBlocks_outcome (hsv : sv.Honest) (hg : sv.Grants p) (hp : p.Names pools)
    (hblock : s.block = (blank sv p).block) (hpObjs : s.pObjs = fun _ => none) :
    ((∃ bi, p.Used bi ∧ p.start bi = 0) ∧
      ∃ u, initBlocks sv p s = some (.error (.EINVAL, u))) ∨
    ((∃ bi, p.Used bi ∧ p.stop bi - p.start bi < poolBytes (pools bi)) ∧
      ∃ u, initBlocks sv p s = some (.error (.ENOMEM, u))) ∨
    ((∃ bi, p.Used bi ∧ poolBytes (pools bi) < p.stop bi - p.start bi ∧
        (pools bi).length = maxPools) ∧ initBlocks sv p s = none) ∨
    (∀ bi, p.Used bi → p.start bi ≠ 0 ∧ p.Fits pools bi) ∧
      ∃ t, initBlocks sv p s = some (.ok t) := by
  have hblank : ∀ bj, s.block bj = ⟨0, 0, 0, 0, 0, (p.pools bj).length, none, 0, 0⟩ := fun bj =>
    congrFun hblock bj
  have hne : (0 : BlockId) ≠ 1 := by decide
  by_cases hused : p.Used 0
  · obtain ⟨start₀, stop₀, hstart₀, hstop₀, hs₀, he₀⟩ := hused.eq_some
    unfold initBlocks
    simp only [hstart₀, hstop₀]
    have hothers : OthersMapped sv s 0 := fun bj _ => .inl (by rw [hblank])
    rcases initBlock_outcome hsv hg hp hused hs₀ he₀ hothers (by rw [hblank]) with
      ⟨hzero, u, hu⟩ | ⟨hbig, u, hu⟩ | ⟨hless, hmax, hu⟩ | ⟨hfits, u, hu⟩
    · rw [hu]
      exact .inl ⟨⟨0, hused, hzero⟩, u, rfl⟩
    · rw [hu]
      exact .inr (.inl ⟨⟨0, hused, hbig⟩, u, rfl⟩)
    · rw [hu]
      exact .inr (.inr (.inl ⟨⟨0, hused, hless, hmax⟩, rfl⟩))
    · rw [hu, Option.bind_some]
      have hrange := hp.range 0 hused
      rw [hs₀, he₀] at hrange
      obtain ⟨length, pools₀, -, -, hat, ho, -, -⟩ := initBlock_ok hsv
        hrange hothers (by rw [hblank]) (by rw [hblank])
        (fun i => by rw [hpObjs]) (hp.saneText 0) hu
      by_cases hused₁ : p.Used 1
      · obtain ⟨start₁, stop₁, hstart₁, hstop₁, hs₁, he₁⟩ := hused₁.eq_some
        simp only [hstart₁, hstop₁]
        have hothers₁ : OthersMapped sv u 1 := fun bj hj =>
          .inr ⟨length, (blockId_cases bj).resolve_right hj ▸ hat.mapped⟩
        rcases initBlock_outcome hsv hg hp hused₁ hs₁ he₁ hothers₁
          (by rw [ho.block 1 hne.symm, hblank]) with
          ⟨hzero, v, hv⟩ | ⟨hbig, v, hv⟩ | ⟨hless, hmax, hv⟩ | ⟨hfits₁, v, hv⟩
        · exact .inl ⟨⟨1, hused₁, hzero⟩, v, hv⟩
        · exact .inr (.inl ⟨⟨1, hused₁, hbig⟩, v, hv⟩)
        · exact .inr (.inr (.inl ⟨⟨1, hused₁, hless, hmax⟩, hv⟩))
        · refine .inr (.inr (.inr ⟨fun bi _ => ?_, v, hv⟩))
          rcases blockId_cases bi with rfl | rfl
          · exact hfits
          · exact hfits₁
      · right
        right
        right
        refine ⟨fun bi hbi => ?_, u, ?_⟩
        · rcases blockId_cases bi with rfl | rfl
          · exact hfits
          · exact absurd hbi hused₁
        · have hgiven : p.physStart 0 ≠ none ∧ p.physEnd 0 ≠ none := hused.1
          cases hstart₁ : p.physStart 1 with
          | none => rfl
          | some start₁ =>
            cases hstop₁ : p.physEnd 1 with
            | none => rfl
            | some stop₁ => exact absurd ⟨hgiven, by simp [hstart₁, hstop₁]⟩ hused₁
  · have hnil : p.pools 0 = [] := by
      by_contra hne
      exact hused (hp.given 0 hne)
    right
    right
    right
    refine ⟨fun bi hbi => absurd ⟨hbi.1, hbi.1⟩ hused, s, ?_⟩
    unfold initBlocks
    cases hstart₀ : p.physStart 0 with
    | none => simp [hnil]
    | some start₀ =>
      cases hstop₀ : p.physEnd 0 with
      | none => simp [hnil]
      | some stop₀ =>
        have hgiven : p.physStart 0 ≠ none ∧ p.physEnd 0 ≠ none := by simp [hstart₀, hstop₀]
        exact absurd ⟨hgiven, hgiven⟩ hused

/-- With the services of the kernel at hand the module is loaded if no block starts at 0 and the
pools of each block fit and leave nothing behind `MAX_POOLS` pools. Else it gives back the regions
and mappings that it has, or it writes outside of its arrays. -/
theorem init_outcome (hsv : sv.Honest) (hg : sv.Grants p) (hp : p.Names pools) :
    ((∀ bi, p.Used bi → p.start bi ≠ 0 ∧ p.Fits pools bi) ∧
      ∃ s, cmemInit sv p = some (.ok s)) ∨
    ((∃ bi, p.Used bi ∧ p.start bi = 0) ∧
      ∃ s, cmemInit sv p = some (.error (.EINVAL, s)) ∧
        (∀ bi, s.memRegion bi = false ∧ s.mapped bi = false) ∧ s.chrdev = false) ∨
    ((∃ bi, p.Used bi ∧ p.stop bi - p.start bi < poolBytes (pools bi)) ∧
      ∃ s, cmemInit sv p = some (.error (.ENOMEM, s)) ∧
        (∀ bi, s.memRegion bi = false ∧ s.mapped bi = false) ∧ s.chrdev = false) ∨
    (∃ bi, p.Used bi ∧ poolBytes (pools bi) < p.stop bi - p.start bi ∧
      (pools bi).length = maxPools) ∧ cmemInit sv p = none := by
  have hfew : ¬ ∃ bi, maxPools < (p.pools bi).length := fun ⟨bi, hlt⟩ => by
    have hle := hp.few bi
    rw [← hp.length_eq bi] at hle
    omega
  rw [cmemInit, if_neg hfew, if_neg (by simp [hg.chrdev])]
  rcases initBlocks_outcome (s := { blank sv p with chrdev := true }) hsv hg hp rfl rfl with
    ⟨hbad, u, hu⟩ | ⟨hbad, u, hu⟩ | ⟨hbad, hu⟩ | ⟨hgood, u, hu⟩
  · rw [hu]
    exact .inr (.inl ⟨hbad, _, rfl, fun _ => ⟨rfl, rfl⟩, rfl⟩)
  · rw [hu]
    exact .inr (.inr (.inl ⟨hbad, _, rfl, fun _ => ⟨rfl, rfl⟩, rfl⟩))
  · rw [hu]
    exact .inr (.inr (.inr ⟨hbad, rfl⟩))
  · rw [hu]
    exact .inl ⟨hgood, u, rfl⟩

theorem onePage_names : onePage.Names fun bi => if bi = 0 then [(1, 4096)] else [] where
  read := by decide
  sane := Fin.forall_fin_two.mpr ⟨fun q hq => by
    cases List.mem_singleton.mp hq
    exact ⟨by decide, by decide⟩, fun q hq => by cases hq⟩
  few := by decide
  given := onePage_used
  range := Fin.forall_fin_two.mpr ⟨fun _ => by decide, fun h => absurd rfl h.2.1⟩

theorem threePages_grants : threePages.Grants onePage where
  chrdev := rfl
  region := Fin.forall_fin_two.mpr ⟨fun _ => by decide, fun h => absurd rfl h.2.1⟩
  remap := Fin.forall_fin_two.mpr ⟨fun _ => by decide, fun h => absurd rfl h.2.1⟩
  kmalloc := fun _ _ => Option.some_ne_none _

theorem init_outcome_one :
    (∀ bi, onePage.Used bi → onePage.start bi ≠ 0 ∧
      onePage.Fits (fun bi => if bi = 0 then [(1, 4096)] else []) bi) ∧
      ∃ s, cmemInit threePages onePage = some (.ok s) := by
  refine (init_outcome threePages_honest threePages_grants onePage_names).resolve_right ?_
  rintro (⟨⟨bi, hused, hzero⟩, -⟩ | ⟨⟨bi, hused, hbig⟩, -⟩ | ⟨⟨bi, hused, -, hmax⟩, -⟩)
  · revert bi
    exact Fin.forall_fin_two.mpr ⟨fun _ => by decide, fun h => absurd rfl h.2.1⟩
  · revert bi
    exact Fin.forall_fin_two.mpr ⟨fun _ => by decide, fun h => absurd rfl h.2.1⟩
  · revert bi
    exact Fin.forall_fin_two.mpr ⟨fun _ => by decide, fun h => absurd rfl h.2.1⟩

end InitState
end BifrostModule.Cmem
