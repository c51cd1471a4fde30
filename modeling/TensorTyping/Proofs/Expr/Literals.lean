import TensorTyping.Expr.Literal

/-!
# The shape of a literal

The shape of a literal is read off the first items, and the rest is held against it as far as the
shape goes. So a path of positions inside the shape always leads somewhere, and unless it is as long
as the shape it leads to a list of the length that the shape says. What stands at the ends of the
longest paths is not looked at. None of it is a list exactly if nothing in the value is nested more
deeply than the shape is long (`ofValue_nested`).
-/
namespace TensorTyping

open List

namespace Value

variable {v w : Value} {lengths path : List Nat}

/-- The value that a path of positions leads to. -/
def at? : List Nat → Value → Option Value
  | [], v => some v
  | i :: path, .list vs => vs[i]?.bind (at? path)
  | _ :: _, _ => none

def isList : Value → Bool
  | .list _ => true
  | _ => false

mutual
def depth : Value → Nat
  | .list vs => depthList vs + 1
  | _ => 0
def depthList : List Value → Nat
  | [] => 0
  | v :: vs => max v.depth (depthList vs)
end

/-- Every position of a path is less than the length at its place. -/
def Inside : List Nat → List Nat → Prop
  | [], _ => True
  | i :: path, n :: lengths => i < n ∧ Inside path lengths
  | _ :: _, [] => False

theorem depthList_le {vs : List Value} {n : Nat} : depthList vs ≤ n ↔ ∀ v ∈ vs, v.depth ≤ n := by
  induction vs with
  | nil => simp [depthList]
  | cons v vs ih => rw [depthList, Nat.max_le, ih, forall_mem_cons]

theorem hasLengths_cons {n : Nat} :
    v.hasLengths (n :: lengths) = true ↔
      ∃ vs, v = .list vs ∧ vs.length = n ∧ ∀ w ∈ vs, w.hasLengths lengths = true := by
  cases v <;> simp [hasLengths]

/-- A path inside the lengths leads to a value that has the lengths that are left. -/
theorem exists_at? (h : v.hasLengths lengths = true) (hpath : Inside path lengths) :
    ∃ w, v.at? path = some w ∧ w.hasLengths (lengths.drop path.length) = true := by
  induction path generalizing v lengths with
  | nil => exact ⟨v, rfl, h⟩
  | cons i path ih =>
    cases lengths with
    | nil => exact hpath.elim
    | cons n lengths =>
      obtain ⟨vs, rfl, rfl, hvs⟩ := hasLengths_cons.1 h
      obtain ⟨w, hw, hlengths⟩ := ih (hvs _ (getElem_mem hpath.1)) hpath.2
      refine ⟨w, ?_, hlengths⟩
      rw [at?, getElem?_eq_getElem hpath.1]
      exact hw

theorem depth_le_iff (h : v.hasLengths lengths = true) :
    v.depth ≤ lengths.length ↔
      ∀ path, Inside path lengths → path.length = lengths.length →
        ∃ w, v.at? path = some w ∧ w.isList = false := by
  induction lengths generalizing v with
  | nil =>
    constructor
    · intro hdepth path _ hlen
      obtain rfl := eq_nil_of_length_eq_zero hlen
      refine ⟨v, rfl, ?_⟩
      cases v with
      | list vs => simp [depth] at hdepth
      | _ => rfl
    · intro hleaves
      obtain ⟨w, hw, hlist⟩ := hleaves [] trivial rfl
      cases hw
      cases v with
      | list vs => cases hlist
      | _ => exact Nat.le_refl 0
  | cons n lengths ih =>
    obtain ⟨vs, rfl, rfl, hvs⟩ := hasLengths_cons.1 h
    simp only [depth, length_cons, Nat.add_le_add_iff_right, depthList_le]
    constructor
    · intro hdepth path hpath hlen
      cases path with
      | nil => cases hlen
      | cons i path =>
        have hmem := getElem_mem hpath.1
        have hleaf := (ih (hvs _ hmem)).1 (hdepth _ hmem) path hpath.2 (Nat.succ.inj hlen)
        rwa [at?, getElem?_eq_getElem hpath.1]
    · intro hleaves w hw
      obtain ⟨i, hi, rfl⟩ := mem_iff_getElem.1 hw
      refine (ih (hvs _ hw)).2 fun path hpath hlen => ?_
      have hleaf := hleaves (i :: path) ⟨hi, hpath⟩ (congrArg (· + 1) hlen)
      rwa [at?, getElem?_eq_getElem hi] at hleaf

end Value

namespace Constant

theorem ofValue_lengths {v : Value} {dtype : Option String} {c : Constant}
    (h : ofValue v dtype = .ok c) :
    ∃ lengths : List Nat, c.shape = lengths.map (fun (n : Nat) => .value (.int n)) ∧
      v.hasLengths lengths = true := by
  unfold ofValue at h
  split at h
  · cases h
  · next lengths leaf _ =>
    split at h
    · next hlengths =>
      refine ⟨lengths, ?_, hlengths⟩
      split at h
      · cases h
        rfl
      · cases htype : leaf.elementType with
        | error e =>
          rw [htype] at h
          cases h
        | ok d =>
          rw [htype] at h
          cases h
          rfl
    · cases h

/-- The value of a literal is a nest of lists of the lengths in its shape. Its elements are no lists
exactly if nothing in it is nested more deeply than that. -/
theorem ofValue_nested (v : Value) (dtype : Option String) (c : Constant)
    (h : ofValue v dtype = .ok c) :
    ∃ lengths : List Nat, c.shape = lengths.map (fun (n : Nat) => .value (.int n)) ∧
      (∀ path, Value.Inside path lengths → ∀ n, lengths[path.length]? = some n →
        ∃ vs, v.at? path = some (.list vs) ∧ vs.length = n) ∧
      (v.depth ≤ lengths.length ↔
        ∀ path, Value.Inside path lengths → path.length = lengths.length →
          ∃ w, v.at? path = some w ∧ w.isList = false) := by
  obtain ⟨lengths, hshape, hlengths⟩ := ofValue_lengths h
  refine ⟨lengths, hshape, fun path hpath n hn => ?_, Value.depth_le_iff hlengths⟩
  obtain ⟨w, hw, hrest⟩ := Value.exists_at? hlengths hpath
  obtain ⟨hlt, rfl⟩ := List.getElem?_eq_some_iff.1 hn
  rw [List.drop_eq_getElem_cons hlt] at hrest
  obtain ⟨vs, rfl, hlen, -⟩ := Value.hasLengths_cons.1 hrest
  exact ⟨vs, hw, hlen⟩

theorem ofValue_nested_square :
    let square : Value := .list [.list [.int 1, .int 2], .list [.int 3, .int 4]]
    ofValue square none = .ok ⟨"int32", [.value (.int 2), .value (.int 2)], square⟩ ∧
      square.depth = 2 ∧ ∃ w, square.at? [1, 0] = some w ∧ w.isList = false := by
  intro square
  obtain ⟨lengths, hshape, -, hleaves⟩ := ofValue_nested square none _ rfl
  have hinj (m n : Nat) (h : DimEntry.value (.int m) = .value (.int n)) : m = n := by
    injections
  obtain rfl : [2, 2] = lengths := (List.map_inj_right hinj).1 hshape
  exact ⟨rfl, rfl, hleaves.1 (Nat.le_refl 2) [1, 0] (by simp [Value.Inside]) rfl⟩

/-- The shape of a literal does not say what its elements are: one of them may be a list. -/
theorem ofValue_ragged :
    ofValue (.list [.int 1, .list [.int 2]]) none =
        .ok ⟨"int32", [.value (.int 2)], .list [.int 1, .list [.int 2]]⟩ ∧
      Value.at? [1] (.list [.int 1, .list [.int 2]]) = some (.list [.int 2]) :=
  ⟨rfl, rfl⟩

end Constant

end TensorTyping
