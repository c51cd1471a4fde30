import Mathlib.Data.Set.Function
import TensorTyping.Proofs.Unify.MostGeneral

/-!
# Stores that say the same

Two stores of the same cells say the same when the values of each respect all that the other knows.
Then every type resolves to the same type in both but for the names of free cells.
-/
namespace TensorTyping

theorem Ty.eq_cell_of_mapCells {f : Cell → Ty} {t : Ty} {c : Cell} (h : t.mapCells f = .cell c) :
    ∃ d, t = .cell d ∧ f d = .cell c := by
  cases ht : t.isCell with
  | true =>
    obtain ⟨d, rfl⟩ := isCell_iff.1 ht
    exact ⟨d, rfl, h⟩
  | false =>
    rw [mapCells_of_not_cell f ht] at h
    have hcell := t.isCell_mapChildren (mapCells f)
    rw [h, ht] at hcell
    exact Bool.noConfusion hcell

namespace Store

variable {s s' : Store}

def IsFree (s : Store) (c : Cell) : Prop := s.owns c = true ∧ s.slots[c.index]? = some .free

theorem Valid.isFree_iff (h : s.Valid) {c : Cell} :
    s.IsFree c ↔ s.owns c = true ∧ s.value c = .cell c := by
  constructor
  · rintro ⟨ho, hf⟩
    exact ⟨ho, h.value_free ho hf⟩
  · rintro ⟨ho, hv⟩
    apply h.free_of_mem_value ho
    simp [hv]

theorem Valid.isFree_of_mem_value (h : s.Valid) {c d : Cell} (hc : s.owns c = true)
    (hd : d ∈ (s.value c).cellOccurrences) : s.IsFree d := h.free_of_mem_value hc hd

/-- Every type resolves to the same type in both stores, up to a renaming of the free cells of one
store to those of the other. -/
def SameUpToNames (s s' : Store) : Prop :=
  ∃ ρ : Cell → Cell, Set.BijOn ρ {c | s.IsFree c} {c | s'.IsFree c} ∧
    ∀ t, s.ownsAll t = true → s'.resolve t = (s.resolve t).mapCells fun c => .cell (ρ c)

/-- The cell that a cell stands for, if it stands for one. -/
def standIn (s : Store) (c : Cell) : Cell := (s.value c).cellOccurrences.headD c

/-- Where one store says that a cell is free, the other says that it stands for a free cell, which
the first takes back to it. -/
theorem Valid.value_of_models (h' : s'.Valid) (howns : ∀ c, s'.owns c = s.owns c)
    (hback : s'.Models s.value) {c : Cell} (hc : s.owns c = true) (hfree : s.value c = .cell c) :
    ∃ d, s'.value c = .cell d ∧ s'.IsFree d ∧ s.value d = .cell c := by
  have hc' := hback c
  rw [hfree] at hc'
  obtain ⟨d, hd, hdc⟩ := Ty.eq_cell_of_mapCells hc'
  refine ⟨d, hd, ?_, hdc⟩
  apply h'.isFree_of_mem_value ((howns c).trans hc)
  simp [hd]

theorem Valid.sameUpToNames (h : s.Valid) (h' : s'.Valid) (howns : ∀ c, s'.owns c = s.owns c)
    (hmodels : s.Models s'.value) (hback : s'.Models s.value) : s.SameUpToNames s' := by
  have hρ : ∀ c d, s'.value c = .cell d → s'.standIn c = d := by
    intro c d hd
    simp [standIn, hd]
  refine ⟨s'.standIn, ⟨?_, ?_, ?_⟩, ?_⟩
  · intro c hc
    obtain ⟨ho, hfree⟩ := h.isFree_iff.1 hc
    obtain ⟨d, hd, hfd, -⟩ := h'.value_of_models howns hback ho hfree
    rw [hρ c d hd]
    exact hfd
  · intro c hc c' hc' heq
    obtain ⟨ho, hfree⟩ := h.isFree_iff.1 hc
    obtain ⟨ho', hfree'⟩ := h.isFree_iff.1 hc'
    obtain ⟨d, hd, -, hdc⟩ := h'.value_of_models howns hback ho hfree
    obtain ⟨d', hd', -, hdc'⟩ := h'.value_of_models howns hback ho' hfree'
    rw [hρ c d hd, hρ c' d' hd'] at heq
    rw [heq, hdc'] at hdc
    simpa using hdc.symm
  · intro d hd
    obtain ⟨ho, hfree⟩ := h'.isFree_iff.1 hd
    obtain ⟨c, -, hfc, hcd⟩ := h.value_of_models (fun c => (howns c).symm) hmodels ho hfree
    exact ⟨c, hfc, hρ c d hcd⟩
  · intro t ht
    rw [s'.resolve_eq, ← hmodels.resolve t]
    apply Ty.mapCells_congr
    intro c hc
    have hfc := h.free_of_mem_resolve ht hc
    obtain ⟨d, hd, -, -⟩ := h'.value_of_models howns hback hfc.1 (h.value_free hfc.1 hfc.2)
    rw [hd, hρ c d hd]

end Store

end TensorTyping
