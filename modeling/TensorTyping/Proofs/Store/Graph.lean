import TensorTyping.Proofs.Ty.Children
import TensorTyping.Store.Basic
import Mathlib.Data.Finset.Card
import Mathlib.Data.Finset.Range
import Mathlib.Logic.Relation

/-!
# The graph of a store

A cell needs the cell that it is linked to, or the cells in the type that it is bound to. A store is
valid when this graph has no cycle and stays inside the store. Since the store is finite, a cell
then has a rank, the number of cells that lie behind it, which falls along every edge and is less
than the number of cells. The rank is what makes every bound on links and on nested bound cells
large enough: links lead from each cell to its root, and the root depends on nothing else.

Three changes keep the graph free of cycles: a new cell, a shorter path to the same root, and new
edges out of a free cell to cells from which there is no way back.
-/
namespace TensorTyping

section Cycles

variable {α : Type} {r r' : α → α → Prop}
variable {v : α} {target : α → Prop}

/-- What a path gains when edges out of `v` are added. -/
theorem transGen_extend (hr' : ∀ a b, r' a b → r a b ∨ a = v ∧ target b)
    (hback : ∀ x, target x → ¬ Relation.ReflTransGen r x v) {a b : α}
    (h : Relation.TransGen r' a b) :
    Relation.TransGen r a b ∨
      Relation.ReflTransGen r a v ∧ ∃ x, target x ∧ Relation.ReflTransGen r x b := by
  induction h with
  | single hab =>
    rcases hr' _ _ hab with hab | ⟨rfl, hb⟩
    · exact .inl (.single hab)
    · exact .inr ⟨.refl, _, hb, .refl⟩
  | tail _ hbc ih =>
    rcases hr' _ _ hbc with hbc | ⟨rfl, hc⟩
    · rcases ih with hab | ⟨hav, x, hx, hxb⟩
      · exact .inl (hab.tail hbc)
      · exact .inr ⟨hav, x, hx, hxb.tail hbc⟩
    · rcases ih with hab | ⟨_, x, hx, hxb⟩
      · exact .inr ⟨hab.to_reflTransGen, _, hc, .refl⟩
      · exact absurd hxb (hback x hx)

theorem acyclic_extend (hr' : ∀ a b, r' a b → r a b ∨ a = v ∧ target b)
    (hback : ∀ x, target x → ¬ Relation.ReflTransGen r x v) (hr : ∀ a, ¬ Relation.TransGen r a a)
    (a : α) : ¬ Relation.TransGen r' a a := by
  intro h
  rcases transGen_extend hr' hback h with h | ⟨hav, x, hx, hxa⟩
  · exact hr a h
  · exact hback x hx (hxa.trans hav)

theorem acyclic_of_paths (h : ∀ a b, r' a b → Relation.TransGen r a b)
    (hr : ∀ a, ¬ Relation.TransGen r a a) (a : α) : ¬ Relation.TransGen r' a a := by
  intro ha
  exact hr a (Relation.TransGen.closed h a a ha)

end Cycles

namespace Store

variable {s : Store} {c : Cell} {i : Nat}
variable {t : Ty} {r : Nat}

def Link (s : Store) (i j : Nat) : Prop := s.slots[i]? = some (.link j)

/-- A cell is linked to another, or bound to a type in which it occurs. -/
def Needs (s : Store) (i j : Nat) : Prop :=
  s.Link i j ∨ ∃ t, s.slots[i]? = some (.bound t) ∧ ∃ c ∈ t.cellOccurrences, c.index = j

def IsRoot (s : Store) (i : Nat) : Prop := ∀ j, ¬ s.Link i j

/-- A store whose links and bound types stay inside it and lead in no circle. -/
structure Valid (s : Store) : Prop where
  link_lt : ∀ {i j : Nat}, s.Link i j → j < s.size
  owned : ∀ {i : Nat} {t : Ty}, s.slots[i]? = some (.bound t) →
    ∀ c ∈ t.cellOccurrences, s.owns c = true
  proper : ∀ {i : Nat} {t : Ty}, s.slots[i]? = some (.bound t) → t.isCell = false
  height_le : ∀ {i : Nat} {t : Ty}, s.slots[i]? = some (.bound t) → t.height ≤ s.height
  acyclic : ∀ i, ¬ Relation.TransGen s.Needs i i

theorem owns_iff : s.owns c = true ↔ c.store = s.serial ∧ c.index < s.size := by
  simp [owns]

theorem owns_cellAt : s.owns (s.cellAt i) = true ↔ i < s.size := by
  simp [owns_iff, cellAt]

theorem cellAt_index (hc : s.owns c = true) : s.cellAt c.index = c := by
  obtain ⟨hs, _⟩ := owns_iff.1 hc
  cases c
  simp_all [cellAt]

theorem ownsAll_iff : s.ownsAll t = true ↔ ∀ c ∈ t.cellOccurrences, s.owns c = true := by
  simp [ownsAll]

theorem lt_size_of_slot {x : Slot} (h : s.slots[i]? = some x) : i < s.size :=
  (Array.getElem?_eq_some_iff.1 h).1

theorem Link.lt_size {j : Nat} (h : s.Link i j) : i < s.size := lt_size_of_slot h

namespace Valid

variable {s : Store} {i j : Nat}

theorem needs_lt (h : s.Valid) (hij : s.Needs i j) : j < s.size := by
  rcases hij with hij | ⟨t, ht, c, hc, rfl⟩
  · exact h.link_lt hij
  · exact (owns_iff.1 (h.owned ht c hc)).2

open Classical in
/-- The number of cells that lie behind a cell. -/
noncomputable def rank (_ : s.Valid) (i : Nat) : Nat :=
  ((Finset.range s.size).filter fun j => Relation.TransGen s.Needs i j).card

theorem rank_lt_of_needs (h : s.Valid) (hij : s.Needs i j) : h.rank j < h.rank i := by
  classical
  refine Finset.card_lt_card (Finset.ssubset_iff_of_subset ?_ |>.2 ⟨j, ?_, ?_⟩)
  · intro k hk
    simp only [Finset.mem_filter] at hk ⊢
    exact ⟨hk.1, hk.2.head hij⟩
  · simpa using ⟨h.needs_lt hij, Relation.TransGen.single hij⟩
  · simpa using fun _ => h.acyclic j

theorem rank_lt_of_link (h : s.Valid) (hij : s.Link i j) : h.rank j < h.rank i :=
  h.rank_lt_of_needs (.inl hij)

theorem rank_lt_size (h : s.Valid) (hi : i < s.size) : h.rank i < s.size := by
  classical
  have hsub : (Finset.range s.size).filter (fun j => Relation.TransGen s.Needs i j) ⊂
      Finset.range s.size := by
    refine Finset.ssubset_iff_of_subset (Finset.filter_subset _ _) |>.2 ⟨i, by simpa using hi, ?_⟩
    simpa using fun _ => h.acyclic i
  simpa [rank] using Finset.card_lt_card hsub

theorem rank_le_of_path (h : s.Valid) (hij : Relation.ReflTransGen s.Link i j) :
    h.rank j ≤ h.rank i := by
  induction hij with
  | refl => exact Nat.le_refl _
  | tail _ hbc ih => exact (Nat.le_of_lt (h.rank_lt_of_link hbc)).trans ih

end Valid

theorem root_unique {q : Nat} (hr : Relation.ReflTransGen s.Link i r) (hr' : s.IsRoot r)
    (hq : Relation.ReflTransGen s.Link i q) (hq' : s.IsRoot q) : r = q := by
  induction hr using Relation.ReflTransGen.head_induction_on with
  | refl =>
    cases hq using Relation.ReflTransGen.head_induction_on with
    | refl => rfl
    | head hrj _ => exact absurd hrj (hr' _)
  | head hij _ ih =>
    cases hq using Relation.ReflTransGen.head_induction_on with
    | refl => exact absurd hij (hq' _)
    | head hik hkq =>
      have : some (Slot.link _) = some (Slot.link _) := hij.symm.trans hik
      simp only [Option.some.injEq, Slot.link.injEq] at this
      exact ih (this ▸ hkq)

theorem rootWithin_spec (h : s.Valid) {fuel : Nat} (hi : h.rank i ≤ fuel) :
    Relation.ReflTransGen s.Link i (rootWithin s.slots fuel i) ∧
      s.IsRoot (rootWithin s.slots fuel i) := by
  induction fuel generalizing i with
  | zero =>
    refine ⟨.refl, fun j hij => ?_⟩
    have hij : s.Link i j := hij
    have := h.rank_lt_of_link hij
    omega
  | succ fuel ih =>
    unfold rootWithin
    split
    · next j hj =>
      have hij : s.Link i j := hj
      have hrank := h.rank_lt_of_link hij
      obtain ⟨hpath, hroot⟩ := ih (i := j) (by omega)
      exact ⟨hpath.head hij, hroot⟩
    · next hj => exact ⟨.refl, fun j hij => hj j hij⟩

namespace Valid

variable {s : Store} {i : Nat}

section

variable (h : s.Valid)

include h

section

variable (hi : i < s.size)

include hi

theorem path_root : Relation.ReflTransGen s.Link i (s.root i) :=
  (rootWithin_spec h (Nat.le_of_lt (h.rank_lt_size hi))).1

theorem isRoot_root : s.IsRoot (s.root i) :=
  (rootWithin_spec h (Nat.le_of_lt (h.rank_lt_size hi))).2

theorem root_eq (hir : Relation.ReflTransGen s.Link i r) (hr : s.IsRoot r) : s.root i = r :=
  root_unique (h.path_root hi) (h.isRoot_root hi) hir hr

theorem root_of_isRoot (hr : s.IsRoot i) : s.root i = i :=
  h.root_eq hi .refl hr

omit hi in
theorem root_of_link {j : Nat} (hij : s.Link i j) : s.root i = s.root j :=
  h.root_eq hij.lt_size ((h.path_root (h.link_lt hij)).head hij) (h.isRoot_root (h.link_lt hij))

theorem path_lt {j : Nat} (hij : Relation.ReflTransGen s.Link i j) : j < s.size := by
  cases hij with
  | refl => exact hi
  | tail _ hbc => exact h.link_lt hbc

theorem root_lt : s.root i < s.size :=
  h.path_lt hi (h.path_root hi)

end

end

end Valid

theorem isRoot_of_free (h : s.slots[i]? = some .free) : s.IsRoot i := by
  intro j hij
  simp [Link, h] at hij

theorem isRoot_of_bound (h : s.slots[i]? = some (.bound t)) : s.IsRoot i := by
  intro j hij
  simp [Link, h] at hij

/-- The cell that stands for all cells it is grouped with. -/
def leader (s : Store) (c : Cell) : Cell := s.cellAt (s.root c.index)

theorem leader_eq_iff {v : Cell} (hv : s.owns v = true) :
    s.leader c = v ↔ s.root c.index = v.index := by
  constructor
  · rintro rfl
    rfl
  · intro h
    rw [leader, h, cellAt_index hv]

theorem needs_path {j : Nat} (h : Relation.ReflTransGen s.Link i j) :
    Relation.ReflTransGen s.Needs i j :=
  Relation.ReflTransGen.mono (fun _ _ => .inl) _ _ h

end Store

end TensorTyping
