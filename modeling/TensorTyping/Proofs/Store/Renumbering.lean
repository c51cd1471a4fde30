import TensorTyping.Proofs.Simulation
import TensorTyping.Proofs.Ty.Renumbering
import TensorTyping.Proofs.Unify.Pair

/-!
# Stores with other serial numbers

A store may have another serial number, and the parameters in the types of its cells others too. All
operations on it and unification then run as before.
-/
namespace TensorTyping

variable {ρ : Serial ↪ Serial}

def Slot.renumber (ρ : Serial → Serial) : Slot → Slot
  | .free => .free
  | .link j => .link j
  | .bound t => .bound (t.renumber ρ)

namespace Store

def renumber (ρ : Serial → Serial) (s : Store) : Store :=
  { serial := ρ s.serial, slots := s.slots.map (Slot.renumber ρ), trail := s.trail,
    height := s.height }

@[simp] theorem size_renumber (ρ : Serial ↪ Serial) (s : Store) : (s.renumber ρ).size = s.size := by
  simp [size, renumber]

theorem owns_renumber (s : Store) (c : Cell) : (s.renumber ρ).owns (c.renumber ρ) = s.owns c := by
  have hserial : (ρ c.store == ρ s.serial) = (c.store == s.serial) := by
    rw [Bool.eq_iff_iff, beq_iff_eq, beq_iff_eq]
    exact ρ.injective.eq_iff
  simp only [owns, Cell.renumber, size_renumber]
  exact congrArg (· && _) hserial

theorem ownsAll_renumber (s : Store) (t : Ty) :
    (s.renumber ρ).ownsAll (t.renumber ρ) = s.ownsAll t := by
  rw [ownsAll, ownsAll, Ty.cellOccurrences_renumber, List.all_map]
  congr 1
  funext c
  exact owns_renumber s c

theorem rootWithin_renumber (slots : Array Slot) (fuel i : Nat) :
    rootWithin (slots.map (Slot.renumber ρ)) fuel i = rootWithin slots fuel i := by
  induction fuel generalizing i with
  | zero => rfl
  | succ fuel ih =>
    rw [rootWithin, rootWithin, Array.getElem?_map]
    cases slots[i]? with
    | none => rfl
    | some x =>
      cases x with
      | link j => exact ih j
      | free => rfl
      | bound t => rfl

theorem root_renumber (s : Store) (i : Nat) : (s.renumber ρ).root i = s.root i := by
  rw [root, root, size_renumber]
  exact rootWithin_renumber s.slots s.size i

theorem peek_renumber (s : Store) (c : Cell) :
    (s.renumber ρ).peek (c.renumber ρ) = (s.peek c).renumber ρ := by
  unfold peek
  rw [owns_renumber]
  split
  · have hroot : (s.renumber ρ).root (c.renumber ρ).index = s.root c.index := root_renumber s c.index
    simp only [hroot]
    have hslot : (s.renumber ρ).slots[s.root c.index]? =
        s.slots[s.root c.index]?.map (Slot.renumber ρ) := Array.getElem?_map
    rw [hslot]
    cases s.slots[s.root c.index]? with
    | none => rfl
    | some x => cases x <;> rfl
  · rfl

theorem shortenWithin_renumber (r fuel i : Nat) (slots : Array Slot) :
    shortenWithin r fuel i (slots.map (Slot.renumber ρ)) =
      (shortenWithin r fuel i slots).map (Slot.renumber ρ) := by
  induction fuel generalizing i slots with
  | zero => rfl
  | succ fuel ih =>
    rw [shortenWithin, shortenWithin, Array.getElem?_map]
    cases slots[i]? with
    | none => rfl
    | some x =>
      cases x with
      | link j =>
        simp only [Option.map_some, Slot.renumber]
        split
        · rfl
        · rw [← ih, Array.map_setIfInBounds]
          rfl
      | free => rfl
      | bound t => rfl

theorem shorten_renumber (s : Store) (i : Nat) :
    (s.renumber ρ).shorten i = (s.shorten i).renumber ρ := by
  unfold shorten
  rw [root_renumber, size_renumber]
  simp only [renumber, shortenWithin_renumber]

theorem resolveWithin_renumber (s : Store) (fuel : Nat) (t : Ty) :
    (s.renumber ρ).resolveWithin fuel (t.renumber ρ) = (s.resolveWithin fuel t).renumber ρ := by
  induction fuel generalizing t with
  | zero => rfl
  | succ fuel ih =>
    rw [resolveWithin, resolveWithin]
    apply Ty.mapCells_renumber
    intro c
    rw [peek_renumber]
    cases s.peek c with
    | cell r => rfl
    | _ => exact ih _

theorem resolve_renumber (s : Store) (t : Ty) :
    (s.renumber ρ).resolve (t.renumber ρ) = (s.resolve t).renumber ρ := by
  rw [resolve, resolve, size_renumber, resolveWithin_renumber]

theorem shortenAll_renumber (fuel : Nat) (cs : List Cell) (s : Store) :
    shortenAll fuel (cs.map (Cell.renumber ρ)) (s.renumber ρ) =
      (shortenAll fuel cs s).renumber ρ := by
  induction fuel generalizing cs s with
  | zero => rfl
  | succ fuel ih =>
    rw [shortenAll, shortenAll]
    induction cs generalizing s with
    | nil => rfl
    | cons c cs hcs =>
      rw [List.map_cons, List.foldl_cons, List.foldl_cons, ← hcs]
      congr 1
      simp only [Cell.renumber, shorten_renumber]
      have hpeek := peek_renumber (ρ := ρ) (s.shorten c.index) c
      simp only [Cell.renumber] at hpeek
      rw [hpeek]
      cases (s.shorten c.index).peek c with
      | cell r => rfl
      | _ =>
        rw [← ih, ← Ty.cellOccurrences_renumber]
        rfl

theorem shortenThrough_renumber (s : Store) (t : Ty) :
    (s.renumber ρ).shortenThrough (t.renumber ρ) = (s.shortenThrough t).renumber ρ := by
  unfold shortenThrough
  rw [size_renumber, ← shortenAll_renumber, Ty.cellOccurrences_renumber, List.takeWhile_map]
  congr 3
  funext c
  exact owns_renumber s c

theorem settle_renumber (s : Store) (i : Nat) (x : Slot) (h : Nat) :
    (s.renumber ρ).settle i (x.renumber ρ) h = (s.settle i x h).renumber ρ := by
  simp [settle, renumber, Array.map_setIfInBounds]

end Store

namespace StoreM

open Ty (renumber renumberPairs)

theorem fresh_tracks : Tracks (Image (Store.renumber ρ)) (Image (renumber ρ)) fresh fresh := by
  rintro s _ rfl a s' hrun
  cases hrun
  refine ⟨_, _, rfl, ?_, ?_⟩
  · simp [Image, Store.cellAt, Cell.renumber, Store.renumber, Store.size]
  · simp [Image, Store.renumber, Slot.renumber]

theorem settle_tracks (i : Nat) (x : Slot) (h : Nat) :
    Tracks (ε := Fault) (Image (Store.renumber ρ)) (fun _ _ => True)
      (modify fun s => s.settle i x h) (modify fun s => s.settle i (x.renumber ρ) h) := by
  apply Tracks.modify
  rintro s _ rfl
  exact Store.settle_renumber s i x h

theorem unifyProper_tracks (site : Option Phrase) (x y : Ty) :
    Tracks (Image (Store.renumber ρ)) (Image (renumberPairs ρ)) (unifyProper site x y)
      (unifyProper site (x.renumber ρ) (y.renumber ρ)) := by
  unfold unifyProper
  rw [Ty.parts_renumber]
  cases Ty.parts x y with
  | ok pairs => exact .pure rfl
  | error kind =>
    cases kind with
    | kindMismatch =>
      intro s t hst a s' hrun
      obtain ⟨u, s₁, -, hrun⟩ := bind_eq_ok hrun
      obtain ⟨u', s₂, -, hrun⟩ := bind_eq_ok hrun
      cases hrun
    | _ => exact .throw

theorem find_tracks (t : Ty) :
    Tracks (Image (Store.renumber ρ)) (Image (renumber ρ)) (find t) (find (t.renumber ρ)) := by
  cases t with
  | cell c =>
    rintro s _ rfl a s' hrun
    rw [find_cell] at hrun
    split at hrun
    · next howns =>
      cases hrun
      refine ⟨_, _, ?_, Store.peek_renumber s c, Store.shorten_renumber s c.index⟩
      rw [Ty.renumber_cell, find_cell, Store.owns_renumber, if_pos howns]
      rfl
    · cases hrun
  | _ => exact Tracks.pure rfl

theorem resolve_tracks (t : Ty) :
    Tracks (Image (Store.renumber ρ)) (Image (renumber ρ)) (resolve t)
      (resolve (t.renumber ρ)) := by
  rintro s _ rfl a s' hrun
  cases hall : s.ownsAll t with
  | false => simp [resolve, Store.resolve?, hall] at hrun
  | true =>
    obtain ⟨rfl, rfl⟩ : s.resolve t = a ∧ s.shortenThrough t = s' := by
      simpa [resolve, Store.resolve?, hall] using hrun
    refine ⟨_, _, ?_, Store.resolve_renumber s t, Store.shortenThrough_renumber s t⟩
    simp [resolve, Store.resolve?, Store.ownsAll_renumber, hall]

theorem freeCells_tracks (t : Ty) :
    Tracks (Image (Store.renumber ρ)) (Image (List.map (Cell.renumber ρ))) (freeCells t)
      (freeCells (t.renumber ρ)) := by
  apply (resolve_tracks t).bind_image
  intro u
  exact .pure (Ty.cells_renumber u)

theorem bind_tracks (v t : Ty) (site : Option Phrase) :
    Tracks (Image (Store.renumber ρ)) (fun _ _ => True) (bind v t site)
      (bind (v.renumber ρ) (t.renumber ρ) site) := by
  apply (find_tracks v).bind_image
  intro v
  cases v with
  | cell v =>
    apply (find_tracks t).bind_image
    intro t
    cases t with
    | cell u =>
      apply Tracks.ite (Cell.renumber_injective ρ).eq_iff.symm
      · intro _
        exact .pure trivial
      · intro _
        exact settle_tracks v.index (.link u.index) 0
    | _ =>
      apply (freeCells_tracks _).bind_image
      intro cells
      apply Tracks.ite (List.mem_map_of_injective (Cell.renumber_injective ρ)).symm
      · intro _
        exact .throw
      · intro _
        rw [Ty.height_renumber]
        exact settle_tracks v.index (.bound _) _
  | _ => exact .throw

theorem unifyPair_tracks (site : Option Phrase) (x y : Ty) :
    Tracks (Image (Store.renumber ρ)) (Image (renumberPairs ρ)) (unifyPair site x y)
      (unifyPair site (x.renumber ρ) (y.renumber ρ)) := by
  rw [unifyPair_eq, unifyPair_eq]
  apply (find_tracks x).bind_image
  intro x
  apply (find_tracks y).bind_image
  intro y
  simp only [unifyTops, Ty.same_renumber, Ty.isCell_renumber]
  split
  · exact .pure rfl
  · split
    · exact (bind_tracks x y site).bind_unit (.pure rfl)
    · split
      · exact (bind_tracks y x site).bind_unit (.pure rfl)
      · exact unifyProper_tracks site x y

theorem unifyRound_tracks (site : Option Phrase) (pairs : List (Ty × Ty)) :
    Tracks (Image (Store.renumber ρ)) (Image (renumberPairs ρ)) (unifyRound site pairs)
      (unifyRound site (renumberPairs ρ pairs)) := by
  induction pairs with
  | nil => exact .pure rfl
  | cons pair pairs ih =>
    apply (unifyPair_tracks site pair.1 pair.2).bind_image
    intro parts
    apply ih.bind_image
    intro rest
    exact .pure List.map_append.symm

theorem unifyWithin_tracks (site : Option Phrase) (fuel : Nat) (pairs : List (Ty × Ty)) :
    Tracks (Image (Store.renumber ρ)) (fun _ _ => True) (unifyWithin site fuel pairs)
      (unifyWithin site fuel (renumberPairs ρ pairs)) := by
  induction fuel generalizing pairs with
  | zero =>
    cases pairs with
    | nil => exact .pure trivial
    | cons pair pairs => exact .throw
  | succ fuel ih =>
    cases pairs with
    | nil => exact .pure trivial
    | cons pair pairs => exact (unifyRound_tracks site (pair :: pairs)).bind_image ih

theorem unify_tracks (a b : Ty) (site : Option Phrase) :
    Tracks (Image (Store.renumber ρ)) (fun _ _ => True) (unify a b site)
      (unify (a.renumber ρ) (b.renumber ρ) site) := by
  apply Tracks.get_bind
  rintro s _ rfl
  have hrounds : rounds (s.renumber ρ) (a.renumber ρ) (b.renumber ρ) = rounds s a b := by
    simp [rounds, Store.renumber, Store.size]
  rw [hrounds]
  exact unifyWithin_tracks site _ [(a, b)]

end StoreM

end TensorTyping
