import TensorTyping.Proofs.Effects
import TensorTyping.Report

/-!
# Issues that can be shown

A sentence can be completed when it has as many holes as there are pieces of evidence. An issue can
be shown together with a store when its sentence can be completed and the types of its evidence
belong to the store, and it says where the problem is when it blames a phrase.
-/
namespace TensorTyping

namespace Text

variable {args : List String}

/-- The number of holes of a template in which every percent sign begins a plain hole. -/
def holes : List Char → Option Nat
  | [] => some 0
  | '%' :: 's' :: cs => (holes cs).map (· + 1)
  | c :: cs => if c = '%' then none else holes cs

theorem piecesFrom_plain (fuel position : Nat) (cs : List Char) (args : List String) {c : Char}
    (hc : c ≠ '%') : piecesFrom (fuel + 1) position (c :: cs) args =
      (piecesFrom fuel (position + 1) cs args).map (⟨[c], false, 0⟩ :: ·) := by
  cases args <;> simp [piecesFrom, hc]

theorem readHole_plain (cs : List Char) : readHole ('s' :: cs) = .ok (⟨false, 0, none, 's'⟩, cs) :=
  rfl

theorem piecesFrom_hole (fuel position : Nat) (cs : List Char) (arg : String)
    (args : List String) :
    piecesFrom (fuel + 1) position ('%' :: 's' :: cs) (arg :: args) =
      (piecesFrom fuel (position + 1 + (('s' :: cs).length - cs.length)) cs args).map
        (⟨arg.toList, false, 0⟩ :: ·) := by
  have hplace : ∀ position, (⟨false, 0, none, 's'⟩ : Hole).convert position arg =
      .ok ⟨arg.toList, false, 0⟩ := fun _ => rfl
  simp [piecesFrom, readHole_plain, hplace]

/-- A plain template takes as many texts as it has holes. -/
theorem piecesFrom_of_holes {cs : List Char} (h : holes cs = some args.length) {fuel : Nat}
    (hfuel : cs.length ≤ fuel) (position : Nat) :
    ∃ pieces, piecesFrom fuel position cs args = .ok pieces := by
  fun_induction holes cs generalizing args fuel position with
  | case1 =>
    obtain rfl : args = [] := by simpa using h.symm
    cases fuel <;> exact ⟨[], rfl⟩
  | case2 cs ih =>
    obtain ⟨n, hn, hlen⟩ := Option.map_eq_some_iff.1 h
    obtain ⟨arg, args, rfl⟩ := List.exists_cons_of_length_eq_add_one hlen.symm
    obtain ⟨fuel, rfl⟩ : ∃ k, fuel = k + 1 := ⟨fuel - 1, by simp at hfuel; omega⟩
    have hrest : cs.length ≤ fuel := by
      simp at hfuel
      omega
    obtain ⟨pieces, hpieces⟩ := ih (by simpa [hn] using hlen) hrest
      (position + 1 + (('s' :: cs).length - cs.length))
    exact ⟨_, by rw [piecesFrom_hole, hpieces]; rfl⟩
  | case3 => cases h
  | case4 c cs _ hc ih =>
    obtain ⟨fuel, rfl⟩ : ∃ k, fuel = k + 1 := ⟨fuel - 1, by simp at hfuel; omega⟩
    obtain ⟨pieces, hpieces⟩ := ih h (by simpa using hfuel) (position + 1)
    exact ⟨_, by rw [piecesFrom_plain _ _ _ _ hc, hpieces]; rfl⟩

theorem fill_of_holes {template : String} (h : holes template.toList = some args.length) :
    ∃ s, fill template args = .ok s := by
  obtain ⟨pieces, hpieces⟩ := piecesFrom_of_holes h (Nat.le_of_eq String.length_toList) 0
  exact ⟨_, by rw [fill, hpieces]; rfl⟩

end Text

namespace Evidence

attribute [simp] types typesList

theorem length_textsWith (names : List Cell) (es : List Evidence) :
    (textsWith names es).length = es.length := by
  induction es with
  | nil => rfl
  | cons e es ih => simp [textsWith, ih]

theorem length_mapTypesList (f : Ty → Ty) (es : List Evidence) :
    (mapTypesList f es).length = es.length := by
  induction es with
  | nil => rfl
  | cons e es ih => simp [mapTypesList, ih]

mutual

theorem textWith_mapTypes {names names' : List Cell} {f : Ty → Ty}
    (hf : ∀ t : Ty, (f t).textWith names' = t.textWith names) (e : Evidence) :
    (e.mapTypes f).textWith names' = e.textWith names := by
  cases e with
  | type t => exact hf t
  | relation | value => rfl
  | list items => exact congrArg Ty.parenthesised (textsWith_mapTypesList hf items)

theorem textsWith_mapTypesList {names names' : List Cell} {f : Ty → Ty}
    (hf : ∀ t : Ty, (f t).textWith names' = t.textWith names) (es : List Evidence) :
    textsWith names' (mapTypesList f es) = textsWith names es := by
  cases es with
  | nil => rfl
  | cons e es =>
    simp only [mapTypesList, textsWith, textWith_mapTypes hf e, textsWith_mapTypesList hf es]

end

@[simp] theorem typesList_map_type (ts : List Ty) : typesList (ts.map .type) = ts := by
  induction ts with
  | nil => rfl
  | cons t ts ih => simp [typesList, types, ih]

end Evidence

namespace Issue

variable {i : Issue} {phrase : Phrase → Prop}
variable {s : Store} {site : Phrase}

/-- The sentence of the issue has a hole for each piece of evidence. -/
def Fits (i : Issue) : Prop :=
  Text.holes (i.sentence.getD i.kind.sentence).toList = some i.evidence.length

instance (i : Issue) : Decidable i.Fits := inferInstanceAs (Decidable (_ = _))

theorem fits_of_holes (n : Nat) (h : Text.holes (i.sentence.getD i.kind.sentence).toList = some n)
    (hn : i.evidence.length = n) : i.Fits := by
  unfold Fits
  rw [h, hn]

theorem Fits.message (h : i.Fits) : ∃ text, i.message = .ok text := by
  apply Text.fill_of_holes
  rw [Evidence.length_textsWith]
  exact h

theorem Fits.mapTypes (h : i.Fits) (f : Ty → Ty) : (i.mapTypes f).Fits := by
  unfold Fits at h ⊢
  rw [Issue.mapTypes, Evidence.length_mapTypesList]
  exact h

/-- The issue says where, its types belong to the store, and its sentence fits its evidence. -/
structure Shown (phrase : Phrase → Prop) (s : Store) (i : Issue) : Prop where
  site : ∃ p, i.site = some p ∧ phrase p
  owned : ∀ t ∈ Evidence.typesList i.evidence, s.ownsAll t = true
  fits : i.Fits

theorem Shown.sentence (h : i.Shown phrase s) : ∃ text, Report.sentence i (some s) = .ok text := by
  have howned : (Evidence.typesList i.evidence).all s.ownsAll = true := List.all_eq_true.2 h.owned
  obtain ⟨text, htext⟩ := (h.fits.mapTypes s.resolve).message
  refine ⟨text, ?_⟩
  unfold Report.sentence
  simp only [howned, if_true, htext]

theorem Shown.blame (h : i.Shown phrase s) (site : Option Phrase) : i.blame site = i := by
  obtain ⟨p, hp, -⟩ := h.site
  unfold Issue.blame
  rw [hp]

theorem Shown.unboundName (hsite : phrase site) (s : Store) (name : String) :
    (Issue.unboundName name (some site)).Shown phrase s where
  site := ⟨site, rfl, hsite⟩
  owned t ht := absurd ht List.not_mem_nil
  fits := fits_of_holes 1 (by cbv) rfl

theorem Shown.typeArgumentArity (hsite : phrase site) (s : Store) (needed given : Nat) :
    (Issue.typeArgumentArity needed given (some site)).Shown phrase s where
  site := ⟨site, rfl, hsite⟩
  owned t ht := absurd ht List.not_mem_nil
  fits := fits_of_holes 2 (by cbv) rfl

end Issue

end TensorTyping
