import BifrostModule.Foundation.Machine

/-! # Singly linked lists in memory

A link is the head of a list (`none`) or the next field of a node. A memory is read by
the address that each link holds.
-/
namespace BifrostModule.Foundation
variable {α : Type*}

/-- The nodes from a link on; the last link holds `null`. -/
def Linked (null : α) (next : Option α → α) : Option α → List α → Prop
  | link, [] => next link = null
  | link, a :: l => next link = a ∧ a ≠ null ∧ Linked null next (some a) l

def Path (null : α) (next : Option α → α) : Option α → List α → Prop
  | _, [] => True
  | link, a :: l => next link = a ∧ a ≠ null ∧ Path null next (some a) l

/-- The link behind the last node of a path. -/
def lastLink : Option α → List α → Option α
  | link, [] => link
  | _, a :: l => lastLink (some a) l

/-- The links of a path that are followed, all but the one behind its last node. -/
def followed : Option α → List α → List (Option α)
  | _, [] => []
  | link, a :: l => link :: followed (some a) l

theorem lastLink_append (link : Option α) (l m : List α) :
    lastLink link (l ++ m) = lastLink (lastLink link l) m := by
  induction l generalizing link with
  | nil => rfl
  | cons a l ih => exact ih (some a)

theorem lastLink_concat (link : Option α) (l : List α) (a : α) :
    lastLink link (l ++ [a]) = some a := by
  rw [lastLink_append]
  rfl

theorem mem_followed {link k : Option α} {l : List α} (hk : k ∈ followed link l) :
    k = link ∨ ∃ a ∈ l, k = some a := by
  induction l generalizing link with
  | nil => cases hk
  | cons a l ih =>
    rcases List.mem_cons.mp hk with rfl | hk
    · exact .inl rfl
    · rcases ih hk with rfl | ⟨b, hb, rfl⟩
      · exact .inr ⟨a, List.mem_cons_self, rfl⟩
      · exact .inr ⟨b, List.mem_cons_of_mem a hb, rfl⟩

theorem lastLink_mem (link : Option α) (l : List α) :
    lastLink link l = link ∨ ∃ a ∈ l, lastLink link l = some a := by
  induction l generalizing link with
  | nil => exact .inl rfl
  | cons a l ih =>
    rcases ih (some a) with h | ⟨b, hb, h⟩
    · exact .inr ⟨a, List.mem_cons_self, h⟩
    · exact .inr ⟨b, List.mem_cons_of_mem a hb, h⟩

theorem lastLink_notMem_followed {link : Option α} {l : List α} (hl : l.Nodup)
    (hlink : ∀ a ∈ l, some a ≠ link) : lastLink link l ∉ followed link l := by
  induction l generalizing link with
  | nil => exact List.not_mem_nil
  | cons a l ih =>
    have ha : ∀ b ∈ l, some b ≠ some a := fun b hb h =>
      (List.nodup_cons.mp hl).1 (Option.some.inj h ▸ hb)
    have hrest := ih (List.nodup_cons.mp hl).2 ha
    intro hmem
    rcases List.mem_cons.mp hmem with h | hmem
    · rcases lastLink_mem (some a) l with hlast | ⟨b, hb, hlast⟩
      · exact hlink a List.mem_cons_self (hlast.symm.trans h)
      · exact hlink b (List.mem_cons_of_mem a hb) (hlast.symm.trans h)
    · exact hrest hmem

variable {null : α} {next next' : Option α → α}

/-- A list survives writes to other links, and can be moved behind another link. -/
theorem Linked.congr {link link' : Option α} {l : List α} (h : Linked null next link l)
    (hlink : next' link' = next link) (hl : ∀ a ∈ l, next' (some a) = next (some a)) :
    Linked null next' link' l := by
  induction l generalizing link link' with
  | nil => exact hlink.trans h
  | cons a l ih =>
    exact ⟨hlink.trans h.1, h.2.1, ih h.2.2 (hl a List.mem_cons_self)
      fun b hb => hl b (List.mem_cons_of_mem a hb)⟩

theorem Path.congr {link : Option α} {l : List α} (h : Path null next link l)
    (hl : ∀ k ∈ followed link l, next' k = next k) : Path null next' link l := by
  induction l generalizing link with
  | nil => trivial
  | cons a l ih =>
    exact ⟨(hl link List.mem_cons_self).trans h.1, h.2.1,
      ih h.2.2 fun k hk => hl k (List.mem_cons_of_mem link hk)⟩

theorem linked_append {link : Option α} {l m : List α} :
    Linked null next link (l ++ m) ↔
      Path null next link l ∧ Linked null next (lastLink link l) m := by
  induction l generalizing link with
  | nil => simp [Path, lastLink]
  | cons a l ih => simp [Linked, Path, lastLink, ih, and_assoc]

/-- A memory holds one list at a link. -/
theorem Linked.unique {link : Option α} {l m : List α} (hl : Linked null next link l)
    (hm : Linked null next link m) : l = m := by
  induction l generalizing link m with
  | nil =>
    cases m with
    | nil => rfl
    | cons b m => exact absurd (hm.1.symm.trans hl) hm.2.1
  | cons a l ih =>
    cases m with
    | nil => exact absurd (hl.1.symm.trans hm) hl.2.1
    | cons b m =>
      have hab : a = b := hl.1.symm.trans hm.1
      subst hab
      rw [ih hl.2.2 hm.2.2]

theorem Linked.next_lastLink {link : Option α} {l m : List α}
    (h : Linked null next link (l ++ m)) : Linked null next (lastLink link l) m :=
  (linked_append.mp h).2

/-- Replace the nodes between a path and the rest of a list. -/
theorem Linked.replace {link : Option α} {l old new rest : List α}
    (h : Linked null next link (l ++ (old ++ rest)))
    (hl : ∀ k ∈ followed link l, next' k = next k)
    (hnew : Path null next' (lastLink link l) new)
    (hend : next' (lastLink (lastLink link l) new) = next (lastLink (lastLink link l) old))
    (hrest : ∀ a ∈ rest, next' (some a) = next (some a)) :
    Linked null next' link (l ++ (new ++ rest)) := by
  obtain ⟨hpath, htail⟩ := linked_append.mp h
  exact linked_append.mpr ⟨hpath.congr hl, linked_append.mpr
    ⟨hnew, htail.next_lastLink.congr hend hrest⟩⟩

end BifrostModule.Foundation
