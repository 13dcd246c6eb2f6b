import BifrostModule.Foundation.Machine

/-! # Extents of an ordered space

A finite union of half-open intervals is kept as a list of extents in their order, no two
of which touch. Such a list is determined by the points that it covers. Extents are taken
out of a list by a search for the first one that fits and are given back with coalescing.
-/
namespace BifrostModule.Foundation

/-- A half-open interval that is not empty. -/
@[ext] structure Extent (α : Type*) [LT α] where
  lo : α
  hi : α
  lt : lo < hi

namespace Extent
variable {α : Type*} [LinearOrder α]

instance : DecidableEq (Extent α) := fun e f =>
  decidable_of_iff (e.lo = f.lo ∧ e.hi = f.hi) Extent.ext_iff.symm

def points (e : Extent α) : Set α := Set.Ico e.lo e.hi

@[simp] theorem mem_points {e : Extent α} {x : α} : x ∈ e.points ↔ e.lo ≤ x ∧ x < e.hi := Iff.rfl

theorem lo_mem (e : Extent α) : e.lo ∈ e.points := ⟨le_rfl, e.lt⟩

def Inside (r e : Extent α) : Prop := e.lo ≤ r.lo ∧ r.hi ≤ e.hi

theorem Inside.subset {r e : Extent α} (h : r.Inside e) : r.points ⊆ e.points :=
  Set.Ico_subset_Ico h.1 h.2

/-- Two extents without a common point lie one before the other. -/
theorem hi_le_lo_of_disjoint {e f : Extent α} (h : Disjoint e.points f.points)
    (hlt : e.lo < f.lo) : e.hi ≤ f.lo := by
  by_contra hover
  exact Set.disjoint_left.mp h ⟨hlt.le, not_le.mp hover⟩ f.lo_mem

/-- What is left of an extent around a part of it. -/
def cut (e r : Extent α) : List (Extent α) :=
  (if h : e.lo < r.lo then [⟨e.lo, r.lo, h⟩] else []) ++
    (if h : r.hi < e.hi then [⟨r.hi, e.hi, h⟩] else [])

end Extent

/-- The extents are in their order, and no two of them touch. -/
def Canonical {α : Type*} [LinearOrder α] (l : List (Extent α)) : Prop :=
  l.Pairwise fun e f => e.hi < f.lo

def covers {α : Type*} [LinearOrder α] (l : List (Extent α)) : Set α :=
  {x | ∃ e ∈ l, x ∈ e.points}

section
variable {α : Type*} [LinearOrder α]

theorem mem_covers {l : List (Extent α)} {x : α} : x ∈ covers l ↔ ∃ e ∈ l, x ∈ e.points :=
  Iff.rfl

@[simp] theorem covers_nil : covers ([] : List (Extent α)) = ∅ := by
  ext x
  simp [mem_covers]

@[simp] theorem covers_cons (e : Extent α) (l : List (Extent α)) :
    covers (e :: l) = e.points ∪ covers l := by
  ext x
  simp [mem_covers]

@[simp] theorem covers_append (l m : List (Extent α)) :
    covers (l ++ m) = covers l ∪ covers m := by
  ext x
  simp [mem_covers, or_and_right, exists_or]

theorem covers_perm {l m : List (Extent α)} (h : l.Perm m) : covers l = covers m := by
  ext x
  simp [mem_covers, h.mem_iff]

theorem points_subset_covers {e : Extent α} {l : List (Extent α)} (he : e ∈ l) :
    e.points ⊆ covers l :=
  fun _ hx => ⟨e, he, hx⟩

/-- The extents are in their order, and may touch. -/
def Ordered (l : List (Extent α)) : Prop := l.Pairwise fun e f => e.hi ≤ f.lo

theorem Canonical.ordered {l : List (Extent α)} (h : Canonical l) : Ordered l :=
  h.imp fun hef => hef.le

theorem Ordered.nodup {l : List (Extent α)} (h : Ordered l) : (l.map Extent.lo).Nodup :=
  List.pairwise_map.mpr (h.imp fun {e _} hef => (e.lt.trans_le hef).ne)

/-- No other extent of a list starts inside one of it. -/
theorem Ordered.lo_notMem {before after : List (Extent α)} {e : Extent α}
    (h : Ordered (before ++ e :: after)) {f : Extent α} (hf : f ∈ before ++ after) :
    f.lo ∉ e.points := by
  obtain ⟨-, hrest, hcross⟩ := List.pairwise_append.mp h
  rcases List.mem_append.mp hf with hf | hf
  · exact fun hx => absurd hx.1 (f.lt.trans_le (hcross f hf e List.mem_cons_self)).not_ge
  · exact fun hx => absurd hx.2 ((List.pairwise_cons.mp hrest).1 f hf).not_gt

theorem canonical_singleton (e : Extent α) : Canonical [e] := List.pairwise_singleton _ e

theorem Canonical.tail {e : Extent α} {l : List (Extent α)} (h : Canonical (e :: l)) :
    Canonical l :=
  (List.pairwise_cons.mp h).2

theorem Canonical.hi_lt {e f : Extent α} {l : List (Extent α)} (h : Canonical (e :: l))
    (hf : f ∈ l) : e.hi < f.lo :=
  (List.pairwise_cons.mp h).1 f hf

theorem Canonical.lo_le {e : Extent α} {l : List (Extent α)} (h : Canonical (e :: l)) {x : α}
    (hx : x ∈ covers (e :: l)) : e.lo ≤ x := by
  rw [covers_cons] at hx
  obtain hx | ⟨f, hf, hx⟩ := hx
  · exact hx.1
  · exact (e.lt.trans (h.hi_lt hf)).le.trans hx.1

theorem Canonical.hi_notMem {l : List (Extent α)} (h : Canonical l) {e : Extent α} (he : e ∈ l) :
    e.hi ∉ covers l := by
  induction l with
  | nil => cases he
  | cons f l ih =>
    rintro ⟨g, hg, hx⟩
    rcases List.mem_cons.mp he with hef | he <;> rcases List.mem_cons.mp hg with hgf | hg
    · exact absurd (hef ▸ hgf ▸ hx.2) (lt_irrefl _)
    · exact absurd hx.1 (hef ▸ h.hi_lt hg).not_ge
    · exact absurd hx.2 (hgf ▸ (h.hi_lt he).trans e.lt).not_gt
    · exact ih h.tail he ⟨g, hg, hx⟩

/-- An interval that is covered lies in a single extent. -/
theorem Canonical.exists_inside {l : List (Extent α)} (h : Canonical l) {r : Extent α}
    (hr : r.points ⊆ covers l) : ∃ e ∈ l, r.Inside e := by
  obtain ⟨e, he, hlo⟩ := hr r.lo_mem
  refine ⟨e, he, hlo.1, ?_⟩
  by_contra hover
  exact h.hi_notMem he (hr ⟨hlo.2.le, not_le.mp hover⟩)

theorem Canonical.points_disjoint {e : Extent α} {l : List (Extent α)} (h : Canonical (e :: l)) :
    Disjoint e.points (covers l) := by
  refine Set.disjoint_left.mpr fun x hx hcov => ?_
  obtain ⟨f, hf, hfx⟩ := hcov
  exact absurd (hx.2.trans (h.hi_lt hf)) hfx.1.not_gt

/-- A canonical list is determined by its points. -/
theorem eq_of_covers_eq {l m : List (Extent α)} (hl : Canonical l) (hm : Canonical m)
    (h : covers l = covers m) : l = m := by
  induction l generalizing m with
  | nil =>
    cases m with
    | nil => rfl
    | cons f m =>
      have hmem : f.lo ∈ covers (f :: m) := points_subset_covers List.mem_cons_self f.lo_mem
      rw [← h, covers_nil] at hmem
      cases hmem
  | cons e l ih =>
    cases m with
    | nil =>
      have hmem : e.lo ∈ covers (e :: l) := points_subset_covers List.mem_cons_self e.lo_mem
      rw [h, covers_nil] at hmem
      cases hmem
    | cons f m =>
      have helo : e.lo ∈ covers (f :: m) :=
        h ▸ points_subset_covers List.mem_cons_self e.lo_mem
      have hflo : f.lo ∈ covers (e :: l) :=
        h ▸ points_subset_covers List.mem_cons_self f.lo_mem
      have hlo : e.lo = f.lo := le_antisymm (hl.lo_le hflo) (hm.lo_le helo)
      -- The end of the shorter one would be covered by the other list.
      have hhi : e.hi = f.hi := by
        refine le_antisymm (not_lt.mp fun hlt => ?_) (not_lt.mp fun hlt => ?_)
        · have hin : f.hi ∈ e.points := ⟨hlo ▸ f.lt.le, hlt⟩
          exact hm.hi_notMem List.mem_cons_self
            (h ▸ points_subset_covers List.mem_cons_self hin)
        · have hin : e.hi ∈ f.points := ⟨hlo ▸ e.lt.le, hlt⟩
          exact hl.hi_notMem List.mem_cons_self
            (h ▸ points_subset_covers List.mem_cons_self hin)
      have hef : e = f := Extent.ext hlo hhi
      subst hef
      have htail : covers l = covers m := by
        rw [covers_cons, covers_cons] at h
        rw [← hl.points_disjoint.sup_sdiff_cancel_left, ← hm.points_disjoint.sup_sdiff_cancel_left]
        exact congrArg (· \ e.points) h
      rw [ih hl.tail hm.tail htail]

/-! ## Giving an extent back -/

/-- An extent before a list, joined with its first extent if the two touch. -/
def glue (e : Extent α) : List (Extent α) → List (Extent α)
  | [] => [e]
  | f :: l => if h : e.hi = f.lo then ⟨e.lo, f.hi, e.lt.trans (h ▸ f.lt)⟩ :: l else e :: f :: l

/-- Put an extent in its place and join it with its neighbours. -/
def release (e : Extent α) : List (Extent α) → List (Extent α)
  | [] => [e]
  | f :: l => if f.lo < e.lo then glue f (release e l) else glue e (f :: l)

@[simp] theorem covers_glue (e : Extent α) (l : List (Extent α)) :
    covers (glue e l) = e.points ∪ covers l := by
  cases l with
  | nil => simp [glue]
  | cons f l =>
    rw [glue]
    split
    · rename_i h
      have hjoin : Set.Ico e.lo e.hi ∪ Set.Ico f.lo f.hi = Set.Ico e.lo f.hi := by
        rw [h]
        exact Set.Ico_union_Ico_eq_Ico (h ▸ e.lt.le) f.lt.le
      rw [covers_cons, covers_cons, ← Set.union_assoc]
      exact congrArg (· ∪ covers l) hjoin.symm
    · simp

@[simp] theorem covers_release (e : Extent α) (l : List (Extent α)) :
    covers (release e l) = e.points ∪ covers l := by
  induction l with
  | nil => simp [release]
  | cons f l ih =>
    rw [release]
    split
    · rw [covers_glue, ih, covers_cons, Set.union_left_comm]
    · rw [covers_glue]

theorem glue_eq_cons (e : Extent α) (l : List (Extent α)) :
    ∃ g m, glue e l = g :: m ∧ g.lo = e.lo := by
  cases l with
  | nil => exact ⟨e, [], rfl, rfl⟩
  | cons f l =>
    rw [glue]
    split
    · exact ⟨_, l, rfl, rfl⟩
    · exact ⟨e, f :: l, rfl, rfl⟩

theorem lo_of_mem_glue {e g : Extent α} {l : List (Extent α)} (hg : g ∈ glue e l) :
    g.lo = e.lo ∨ ∃ f ∈ l, g.lo = f.lo := by
  cases l with
  | nil =>
    rw [glue, List.mem_singleton] at hg
    exact .inl (hg ▸ rfl)
  | cons f l =>
    rw [glue] at hg
    split at hg
    · rcases List.mem_cons.mp hg with rfl | hg
      · exact .inl rfl
      · exact .inr ⟨g, List.mem_cons_of_mem f hg, rfl⟩
    · rcases List.mem_cons.mp hg with rfl | hg
      · exact .inl rfl
      · exact .inr ⟨g, hg, rfl⟩

theorem lo_of_mem_release {e g : Extent α} {l : List (Extent α)} (hg : g ∈ release e l) :
    g.lo = e.lo ∨ ∃ f ∈ l, g.lo = f.lo := by
  induction l generalizing g with
  | nil =>
    rw [release, List.mem_singleton] at hg
    exact .inl (hg ▸ rfl)
  | cons f l ih =>
    rw [release] at hg
    split at hg
    · rcases lo_of_mem_glue hg with h | ⟨k, hk, h⟩
      · exact .inr ⟨f, List.mem_cons_self, h⟩
      · rcases ih hk with hk | ⟨j, hj, hk⟩
        · exact .inl (h.trans hk)
        · exact .inr ⟨j, List.mem_cons_of_mem f hj, h.trans hk⟩
    · exact lo_of_mem_glue hg

theorem canonical_glue {e : Extent α} {l : List (Extent α)} (hl : Canonical l)
    (he : ∀ f ∈ l, e.hi ≤ f.lo) : Canonical (glue e l) := by
  cases l with
  | nil => exact canonical_singleton e
  | cons f l =>
    have hf := he f List.mem_cons_self
    rw [glue]
    split
    · exact List.pairwise_cons.mpr ⟨fun g hg => hl.hi_lt hg, hl.tail⟩
    · rename_i hne
      refine List.pairwise_cons.mpr ⟨fun g hg => ?_, hl⟩
      rcases List.mem_cons.mp hg with rfl | hg
      · exact lt_of_le_of_ne hf hne
      · exact hf.trans_lt (f.lt.trans (hl.hi_lt hg))

/-- An extent that shares no point with a canonical list can be given back to it. -/
theorem canonical_release {e : Extent α} {l : List (Extent α)} (hl : Canonical l)
    (he : Disjoint e.points (covers l)) : Canonical (release e l) := by
  induction l with
  | nil => exact canonical_singleton e
  | cons f l ih =>
    rw [covers_cons, Set.disjoint_union_right] at he
    rw [release]
    split
    · rename_i hlt
      refine canonical_glue (ih hl.tail he.2) fun g hg => ?_
      rcases lo_of_mem_release hg with h | ⟨k, hk, h⟩
      · exact h ▸ Extent.hi_le_lo_of_disjoint he.1.symm hlt
      · exact h ▸ (hl.hi_lt hk).le
    · rename_i hle
      have hne : e.lo ≠ f.lo := fun h => Set.disjoint_left.mp he.1 e.lo_mem (h ▸ f.lo_mem)
      have hef := Extent.hi_le_lo_of_disjoint he.1 (lt_of_le_of_ne (not_lt.mp hle) hne)
      refine canonical_glue hl fun g hg => ?_
      rcases List.mem_cons.mp hg with rfl | hg
      · exact hef
      · exact hef.trans (f.lt.trans (hl.hi_lt hg)).le

/-- Behind the extents that lie before it, an extent is joined with the last of them. -/
theorem release_append {e c : Extent α} {before after : List (Extent α)}
    (h : Canonical (before ++ c :: after)) (hbefore : ∀ f ∈ before, f.lo < e.lo)
    (hc : c.lo < e.lo) :
    release e (before ++ c :: after) = before ++ glue c (release e after) := by
  induction before with
  | nil => simp [release, hc]
  | cons f before ih =>
    have hrest : Canonical (before ++ c :: after) := Canonical.tail h
    have hfhi : ∀ g ∈ before ++ c :: after, f.hi < g.lo := fun g hg => Canonical.hi_lt h hg
    rw [List.cons_append, release, if_pos (hbefore f List.mem_cons_self),
      ih hrest fun g hg => hbefore g (List.mem_cons_of_mem f hg)]
    cases before with
    | nil =>
      have hne : f.hi ≠ c.lo := (hfhi c (by simp)).ne
      obtain ⟨g, l, hglue, hg⟩ := glue_eq_cons c (release e after)
      rw [List.nil_append, List.cons_append, List.nil_append, hglue, glue, dif_neg (hg ▸ hne)]
    | cons g before =>
      have hne : f.hi ≠ g.lo := (hfhi g (by simp)).ne
      simp [glue, hne]

/-- Before the extents that lie behind it, an extent is joined with the first of them. -/
theorem release_of_forall_ge {e : Extent α} {l : List (Extent α)}
    (h : ∀ f ∈ l, ¬ f.lo < e.lo) : release e l = glue e l := by
  cases l with
  | nil => rfl
  | cons f l => rw [release, if_neg (h f List.mem_cons_self)]

theorem ordered_glue {before after : List (Extent α)} {e : Extent α}
    (h : Ordered (before ++ e :: after)) : Ordered (before ++ glue e after) := by
  cases after with
  | nil => exact h
  | cons f after =>
    rw [glue]
    split
    · obtain ⟨hbefore, hrest, hcross⟩ := List.pairwise_append.mp h
      have hafter := (List.pairwise_cons.mp hrest).2
      refine List.pairwise_append.mpr ⟨hbefore, List.pairwise_cons.mpr
        ⟨(List.pairwise_cons.mp hafter).1, (List.pairwise_cons.mp hafter).2⟩, fun g hg k hk => ?_⟩
      rcases List.mem_cons.mp hk with rfl | hk
      · exact hcross g hg e List.mem_cons_self
      · exact hcross g hg k (List.mem_cons_of_mem e (List.mem_cons_of_mem f hk))
    · exact h

/-- The ends of the extents stay among what the ends were taken from. -/
theorem glue_ends {P : α → Prop} {e : Extent α} {l : List (Extent α)} (he : P e.lo ∧ P e.hi)
    (hl : ∀ f ∈ l, P f.lo ∧ P f.hi) : ∀ g ∈ glue e l, P g.lo ∧ P g.hi := by
  intro g hg
  cases l with
  | nil =>
    rw [glue, List.mem_singleton] at hg
    exact hg ▸ he
  | cons f l =>
    rw [glue] at hg
    split at hg
    · rcases List.mem_cons.mp hg with rfl | hg
      · exact ⟨he.1, (hl f List.mem_cons_self).2⟩
      · exact hl g (List.mem_cons_of_mem f hg)
    · rcases List.mem_cons.mp hg with rfl | hg
      · exact he
      · exact hl g hg

theorem release_ends {P : α → Prop} {e : Extent α} {l : List (Extent α)} (he : P e.lo ∧ P e.hi)
    (hl : ∀ f ∈ l, P f.lo ∧ P f.hi) : ∀ g ∈ release e l, P g.lo ∧ P g.hi := by
  induction l with
  | nil =>
    intro g hg
    rw [release, List.mem_singleton] at hg
    exact hg ▸ he
  | cons f l ih =>
    rw [release]
    split
    · exact glue_ends (hl f List.mem_cons_self)
        (ih fun g hg => hl g (List.mem_cons_of_mem f hg))
    · exact glue_ends he hl

/-! ## Taking an extent out -/

/-- Take the first extent in which something fits, and leave what is around it. -/
def take (fit : Extent α → Option (Extent α)) :
    List (Extent α) → Option (Extent α × List (Extent α))
  | [] => none
  | e :: l =>
    match fit e with
    | some r => some (r, e.cut r ++ l)
    | none => (take fit l).map fun p => (p.1, e :: p.2)

def FitsInside (fit : Extent α → Option (Extent α)) : Prop :=
  ∀ e r, fit e = some r → r.Inside e

theorem mem_cut_inside {e r g : Extent α} (hr : r.Inside e) (hg : g ∈ e.cut r) : g.Inside e := by
  rw [Extent.cut, List.mem_append] at hg
  obtain hg | hg := hg
  · split at hg
    · rw [List.mem_singleton] at hg
      exact hg ▸ ⟨le_rfl, r.lt.le.trans hr.2⟩
    · cases hg
  · split at hg
    · rw [List.mem_singleton] at hg
      exact hg ▸ ⟨hr.1.trans r.lt.le, le_rfl⟩
    · cases hg

theorem canonical_cut (e r : Extent α) : Canonical (e.cut r) := by
  rw [Extent.cut]
  split <;> split
  · simpa [Canonical] using r.lt
  · simp [Canonical]
  · simp [Canonical]
  · simp [Canonical]

theorem covers_cut {e r : Extent α} (hr : r.Inside e) :
    covers (e.cut r) = e.points \ r.points := by
  ext x
  have hleft : x ∈ covers (if h : e.lo < r.lo then [⟨e.lo, r.lo, h⟩] else []) ↔
      e.lo ≤ x ∧ x < r.lo := by
    split
    · simp
    · rename_i hle
      simp only [covers_nil, Set.mem_empty_iff_false, false_iff, not_and, not_lt]
      exact (not_lt.mp hle).trans
  have hright : x ∈ covers (if h : r.hi < e.hi then [⟨r.hi, e.hi, h⟩] else []) ↔
      r.hi ≤ x ∧ x < e.hi := by
    split
    · simp
    · rename_i hle
      simp only [covers_nil, Set.mem_empty_iff_false, false_iff, not_and, not_lt]
      exact (not_lt.mp hle).trans
  rw [Extent.cut, covers_append, Set.mem_union, hleft, hright, Set.mem_sdiff, Extent.mem_points,
    Extent.mem_points]
  constructor
  · rintro (⟨h₁, h₂⟩ | ⟨h₁, h₂⟩)
    · exact ⟨⟨h₁, h₂.trans (r.lt.trans_le hr.2)⟩, fun h => absurd h₂ h.1.not_gt⟩
    · exact ⟨⟨(hr.1.trans r.lt.le).trans h₁, h₂⟩, fun h => absurd h.2 h₁.not_gt⟩
  · rintro ⟨⟨h₁, h₂⟩, hout⟩
    by_cases hx : x < r.lo
    · exact .inl ⟨h₁, hx⟩
    · exact .inr ⟨not_lt.mp fun h => hout ⟨not_lt.mp hx, h⟩, h₂⟩

/-- What was taken lies in an extent of the list, and all before it was too small. -/
theorem take_eq_some {fit : Extent α → Option (Extent α)} {l l' : List (Extent α)} {r : Extent α}
    (h : take fit l = some (r, l')) :
    ∃ before e after, l = before ++ e :: after ∧ (∀ f ∈ before, fit f = none) ∧
      fit e = some r ∧ l' = before ++ e.cut r ++ after := by
  induction l generalizing l' with
  | nil => cases h
  | cons e l ih =>
    rw [take] at h
    cases hfit : fit e with
    | some s =>
      rw [hfit] at h
      obtain ⟨rfl, rfl⟩ := Prod.mk.inj (Option.some.inj h)
      exact ⟨[], e, l, rfl, fun f hf => (List.not_mem_nil hf).elim, hfit, rfl⟩
    | none =>
      rw [hfit] at h
      obtain ⟨⟨s, m⟩, hm, heq⟩ := Option.map_eq_some_iff.mp h
      obtain ⟨hsr, hl'⟩ := Prod.mk.inj heq
      have hr : s = r := hsr
      subst hr
      subst hl'
      obtain ⟨before, f, after, hl, hbefore, hf, hleft⟩ := ih hm
      refine ⟨e :: before, f, after, congrArg (e :: ·) hl, fun g hg => ?_, hf,
        congrArg (e :: ·) hleft⟩
      rcases List.mem_cons.mp hg with rfl | hg
      · exact hfit
      · exact hbefore g hg

/-- Nothing is taken only if nothing fits anywhere. -/
theorem take_eq_none_iff {fit : Extent α → Option (Extent α)} {l : List (Extent α)} :
    take fit l = none ↔ ∀ e ∈ l, fit e = none := by
  induction l with
  | nil => simp [take]
  | cons e l ih =>
    rw [take]
    cases hfit : fit e with
    | some r => simp [hfit]
    | none => simp [hfit, ih]

variable {fit : Extent α → Option (Extent α)}

theorem cut_ends {P : α → Prop} {e r : Extent α} (he : P e.lo ∧ P e.hi) (hr : P r.lo ∧ P r.hi) :
    ∀ g ∈ e.cut r, P g.lo ∧ P g.hi := by
  intro g hg
  rw [Extent.cut, List.mem_append] at hg
  obtain hg | hg := hg
  · split at hg
    · rw [List.mem_singleton] at hg
      exact hg ▸ ⟨he.1, hr.1⟩
    · cases hg
  · split at hg
    · rw [List.mem_singleton] at hg
      exact hg ▸ ⟨hr.2, he.2⟩
    · cases hg

theorem take_ends {P : α → Prop} {l l' : List (Extent α)} {r : Extent α}
    (h : take fit l = some (r, l')) (hr : P r.lo ∧ P r.hi) (hl : ∀ f ∈ l, P f.lo ∧ P f.hi) :
    ∀ g ∈ l', P g.lo ∧ P g.hi := by
  obtain ⟨before, e, after, rfl, -, -, rfl⟩ := take_eq_some h
  intro g hg
  rcases List.mem_append.mp hg with hg | hg
  · rcases List.mem_append.mp hg with hg | hg
    · exact hl g (by simp [hg])
    · exact cut_ends (hl e (by simp)) hr g hg
  · exact hl g (by simp [hg])

theorem covers_take (hfit : FitsInside fit) {l l' : List (Extent α)} {r : Extent α}
    (hl : Canonical l) (h : take fit l = some (r, l')) : covers l' = covers l \ r.points := by
  obtain ⟨before, e, after, rfl, -, he, rfl⟩ := take_eq_some h
  have hin := hfit e r he
  have hsplit := List.pairwise_append.mp hl
  have hbefore : Disjoint (covers before) r.points := by
    refine Set.disjoint_left.mpr fun x hx hrx => ?_
    obtain ⟨f, hf, hfx⟩ := hx
    have hlt := hsplit.2.2 f hf e List.mem_cons_self
    exact absurd (hin.subset hrx).1 (hfx.2.trans hlt).not_ge
  have hafter : Disjoint (covers after) r.points :=
    (Canonical.points_disjoint hsplit.2.1).symm.mono_right hin.subset
  rw [covers_append, covers_append, covers_cut hin, covers_append, covers_cons,
    Set.union_sdiff_distrib, Set.union_sdiff_distrib, hbefore.sdiff_eq_left, hafter.sdiff_eq_left,
    Set.union_assoc]

theorem canonical_take (hfit : FitsInside fit) {l l' : List (Extent α)} {r : Extent α}
    (hl : Canonical l) (h : take fit l = some (r, l')) : Canonical l' := by
  obtain ⟨before, e, after, rfl, -, he, rfl⟩ := take_eq_some h
  have hin := hfit e r he
  obtain ⟨hbefore, hrest, hcross⟩ := List.pairwise_append.mp hl
  have hcut : ∀ g ∈ e.cut r, g.Inside e := fun g hg => mem_cut_inside hin hg
  rw [List.append_assoc]
  refine List.pairwise_append.mpr ⟨hbefore, List.pairwise_append.mpr
    ⟨canonical_cut e r, Canonical.tail hrest, fun g hg f hf => ?_⟩, fun f hf g hg => ?_⟩
  · exact (hcut g hg).2.trans_lt (Canonical.hi_lt hrest hf)
  · rcases List.mem_append.mp hg with hg | hg
    · exact (hcross f hf e List.mem_cons_self).trans_le (hcut g hg).1
    · exact hcross f hf g (List.mem_cons_of_mem e hg)

theorem take_subset (hfit : FitsInside fit) {l l' : List (Extent α)} {r : Extent α}
    (h : take fit l = some (r, l')) : r.points ⊆ covers l := by
  obtain ⟨before, e, after, rfl, -, he, -⟩ := take_eq_some h
  exact (hfit e r he).subset.trans (points_subset_covers (by simp))

/-! ## Free and live extents of a whole -/

/-- The free extents and the live ones make up the whole, none of them overlaps another. -/
structure Tiled (whole : Extent α) (free live : List (Extent α)) : Prop where
  canonical : Canonical free
  apart : live.Pairwise fun e f => Disjoint e.points f.points
  disjoint : Disjoint (covers free) (covers live)
  union : covers free ∪ covers live = whole.points

namespace Tiled
variable {whole : Extent α} {free live : List (Extent α)}

theorem all_free (whole : Extent α) : Tiled whole [whole] [] where
  canonical := canonical_singleton whole
  apart := List.Pairwise.nil
  disjoint := by simp
  union := by simp

theorem free_subset (h : Tiled whole free live) : covers free ⊆ whole.points :=
  h.union ▸ Set.subset_union_left

theorem live_subset (h : Tiled whole free live) : covers live ⊆ whole.points :=
  h.union ▸ Set.subset_union_right

theorem perm {live' : List (Extent α)} (h : Tiled whole free live) (hp : live.Perm live') :
    Tiled whole free live' where
  canonical := h.canonical
  apart := hp.pairwise h.apart fun hef => hef.symm
  disjoint := covers_perm hp ▸ h.disjoint
  union := covers_perm hp ▸ h.union

theorem take (hfit : FitsInside fit) {free' : List (Extent α)} {r : Extent α}
    (h : Tiled whole free live) (htake : Foundation.take fit free = some (r, free')) :
    Tiled whole free' (r :: live) := by
  have hcov := covers_take hfit h.canonical htake
  have hsub := take_subset hfit htake
  refine ⟨canonical_take hfit h.canonical htake, List.pairwise_cons.mpr ⟨fun f hf => ?_, h.apart⟩,
    ?_, ?_⟩
  · exact h.disjoint.mono hsub (points_subset_covers hf)
  · rw [hcov, covers_cons, Set.disjoint_union_right]
    exact ⟨Set.disjoint_sdiff_left, h.disjoint.mono_left Set.sdiff_subset⟩
  · rw [hcov, covers_cons, ← Set.union_assoc, Set.sdiff_union_of_subset hsub, h.union]

theorem release {e : Extent α} (h : Tiled whole free (e :: live)) :
    Tiled whole (release e free) live := by
  have hpair := List.pairwise_cons.mp h.apart
  have hdisj := h.disjoint
  rw [covers_cons, Set.disjoint_union_right] at hdisj
  refine ⟨canonical_release h.canonical hdisj.1.symm, hpair.2, ?_, ?_⟩
  · rw [covers_release, Set.disjoint_union_left]
    refine ⟨Set.disjoint_left.mpr fun x hx hlive => ?_, hdisj.2⟩
    obtain ⟨f, hf, hfx⟩ := hlive
    exact Set.disjoint_left.mp (hpair.1 f hf) hx hfx
  · rw [covers_release, ← h.union, covers_cons, Set.union_comm e.points, Set.union_assoc]

/-- What is free depends on the live extents alone. -/
theorem free_unique {free' live' : List (Extent α)} (h : Tiled whole free live)
    (h' : Tiled whole free' live') (hcov : covers live = covers live') : free = free' := by
  refine eq_of_covers_eq h.canonical h'.canonical ?_
  rw [← h.disjoint.sup_sdiff_cancel_right, ← h'.disjoint.sup_sdiff_cancel_right, hcov]
  exact congrArg (· \ covers live') ((hcov ▸ h.union).trans h'.union.symm)

/-- Once nothing is live, the whole is free again. -/
theorem free_eq_whole (h : Tiled whole free []) : free = [whole] :=
  h.free_unique (all_free whole) rfl

end Tiled
end
end BifrostModule.Foundation
