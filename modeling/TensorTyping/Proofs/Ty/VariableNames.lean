import Mathlib.Data.List.Induction
import Mathlib.Data.List.Shortlex
import Mathlib.Data.Set.Function
import TensorTyping.Proofs.Ty.Children
import TensorTyping.Ty.Printer

/-!
# Names of variables

The names of variables are numerals to the base of 26, whose digits are the letters and start at
one. Since no digit is zero, every word of letters is the numeral of exactly one number, and the
words stand in the order of their numbers, the shorter before the longer.
-/
namespace TensorTyping

open List

/-- The letters of the name of a variable. -/
def letters (n : Nat) : List Char := variableName.go n n []

def readLetter (n : Nat) (c : Char) : Nat := 26 * n + (c.toNat - 96)

/-- The number whose name has these letters. -/
def number (cs : List Char) : Nat := cs.foldl readLetter 0

theorem toNat_letter {k : Nat} (hk : k < 26) : (Char.ofNat (97 + k)).toNat = 97 + k := by
  have hvalid : (97 + k).isValidChar := Or.inl (by omega)
  rw [Char.ofNat, dif_pos hvalid]
  rfl

/-- Any bound on the number of letters will do, if it is not less than the number. -/
theorem go_append {fuel fuel' n : Nat} (h : n ≤ fuel) (h' : n ≤ fuel') (cs ds : List Char) :
    variableName.go fuel n (cs ++ ds) = variableName.go fuel' n cs ++ ds := by
  induction fuel generalizing fuel' n cs with
  | zero =>
    obtain rfl : n = 0 := by omega
    cases fuel' <;> rfl
  | succ fuel ih =>
    cases n with
    | zero => cases fuel' <;> rfl
    | succ n =>
      obtain ⟨fuel', rfl⟩ := Nat.exists_eq_add_of_le' (Nat.one_le_of_lt h')
      exact ih (by omega) (by omega) (Char.ofNat (97 + n % 26) :: cs)

@[simp] theorem letters_zero : letters 0 = [] := rfl

theorem letters_succ (n : Nat) : letters (n + 1) = letters (n / 26) ++ [Char.ofNat (97 + n % 26)] :=
  go_append (Nat.div_le_self n 26) (Nat.le_refl _) [] _

theorem number_append (cs : List Char) (c : Char) :
    number (cs ++ [c]) = 26 * number cs + (c.toNat - 96) := by
  simp [number, readLetter]

theorem number_letters (n : Nat) : number (letters n) = n := by
  induction n using Nat.strongRecOn with
  | ind n ih =>
    cases n with
    | zero => rfl
    | succ n =>
      rw [letters_succ, number_append, ih _ (by omega), toNat_letter (Nat.mod_lt _ (by omega))]
      omega

theorem between_iff {c : Char} : 'a' ≤ c ∧ c ≤ 'z' ↔ 97 ≤ c.toNat ∧ c.toNat ≤ 122 := Iff.rfl

theorem letter_of_mem {n : Nat} {c : Char} (h : c ∈ letters n) : 'a' ≤ c ∧ c ≤ 'z' := by
  induction n using Nat.strongRecOn with
  | ind n ih =>
    cases n with
    | zero => simp at h
    | succ n =>
      rw [letters_succ, mem_append, mem_singleton] at h
      rcases h with h | rfl
      · exact ih _ (by omega) h
      · have hlt : n % 26 < 26 := Nat.mod_lt _ (by omega)
        rw [between_iff, toNat_letter hlt]
        omega

/-- Every word of letters is read back from its number, from its last letter on. -/
theorem letters_number {cs : List Char} (h : ∀ c ∈ cs, 'a' ≤ c ∧ c ≤ 'z') :
    letters (number cs) = cs := by
  induction cs using List.reverseRecOn with
  | nil => rfl
  | append_singleton cs c ih =>
    have hc := between_iff.1 (h c (by simp))
    have hnumber : number (cs ++ [c]) = 26 * number cs + (c.toNat - 97) + 1 := by
      rw [number_append]
      omega
    have hquotient : (26 * number cs + (c.toNat - 97)) / 26 = number cs := by omega
    have hdigit : 97 + (26 * number cs + (c.toNat - 97)) % 26 = c.toNat := by omega
    rw [hnumber, letters_succ, hquotient, hdigit, Char.ofNat_toNat,
      ih fun d hd => h d (mem_append_left _ hd)]

theorem variableName_injective : Function.Injective variableName := by
  intro m n h
  rw [← number_letters m, ← number_letters n]
  exact congrArg number (String.ofList_injective h)

theorem toList_variableName (n : Nat) : (variableName n).toList = letters n :=
  String.toList_ofList

theorem variableName_bijOn : Set.BijOn variableName {n | 0 < n}
    {name | name ≠ "" ∧ ∀ c ∈ name.toList, 'a' ≤ c ∧ c ≤ 'z'} := by
  refine ⟨fun n hn => ⟨fun hname => ?_, fun c hc => ?_⟩, variableName_injective.injOn, ?_⟩
  · exact Nat.ne_of_gt hn (variableName_injective hname)
  · rw [toList_variableName] at hc
    exact letter_of_mem hc
  · rintro name ⟨hne, hname⟩
    have hletters : variableName (number name.toList) = name := by
      rw [← String.ofList_toList (s := name), String.toList_ofList]
      exact congrArg String.ofList (letters_number hname)
    refine ⟨number name.toList, Nat.pos_of_ne_zero fun hzero => hne ?_, hletters⟩
    rw [← hletters, hzero]
    rfl

theorem lex_append {α : Type} {r : α → α → Prop} {as bs : List α} (h : List.Lex r as bs)
    (hlength : as.length = bs.length) (cs ds : List α) : List.Lex r (as ++ cs) (bs ++ ds) := by
  induction h with
  | nil => cases hlength
  | cons _ ih => exact .cons (ih (Nat.succ.inj hlength))
  | rel h => exact .rel h

theorem shortlex_append {as bs : List Char} (h : List.Shortlex (· < ·) as bs) (c d : Char) :
    List.Shortlex (· < ·) (as ++ [c]) (bs ++ [d]) := by
  rcases shortlex_def.1 h with hlt | ⟨heq, hlex⟩
  · exact .of_length_lt (by simpa using hlt)
  · exact .of_lex (by simpa using heq) (lex_append hlex heq _ _)

/-- Names are compared by all but their last letters first, which are the names of smaller
numbers. -/
theorem shortlex_letters {m n : Nat} (h : m < n) :
    List.Shortlex (· < ·) (letters m) (letters n) := by
  induction n using Nat.strongRecOn generalizing m with
  | ind n ih =>
    obtain ⟨n, rfl⟩ := Nat.exists_eq_add_of_le' (Nat.one_le_of_lt h)
    cases m with
    | zero => exact .of_length_lt (by simp [letters_succ])
    | succ m =>
      rw [letters_succ, letters_succ]
      by_cases hlt : m / 26 < n / 26
      · exact shortlex_append (ih _ (by omega) hlt) _ _
      · have heq : m / 26 = n / 26 := by omega
        rw [heq]
        apply List.Shortlex.append_left
        rw [shortlex_singleton_iff]
        have hm := toNat_letter (Nat.mod_lt m (by omega : 0 < 26))
        have hn := toNat_letter (Nat.mod_lt n (by omega : 0 < 26))
        change Char.toNat _ < Char.toNat _
        omega

/-! ## The names of cells -/

namespace Ty

/-- The type with every cell replaced by a parameter of the given name. -/
def labelled (name : Cell → String) (t : Ty) : Ty :=
  t.mapCells fun c => .param { serial := 0, name := name c }

theorem cellText_injOn (names : List Cell) : Set.InjOn (cellText names) {c | c ∈ names} := by
  intro c hc d _ h
  have hname := variableName_injective ((String.append_right_inj _).1 h)
  exact (idxOf_inj hc).1 (Nat.succ_injective hname)

theorem textsWith_eq_map (names : List Cell) (ts : List Ty) :
    textsWith names ts = ts.map (textWith names) := by
  induction ts with
  | nil => rfl
  | cons t ts ih => simp [textsWith, ih]

theorem relationTextsWith_eq_map (names : List Cell) (rs : List TypeRelation) :
    relationTextsWith names rs =
      rs.map fun r => r.name ++ parenthesised (r.args.map (textWith names)) := by
  induction rs with
  | nil => rfl
  | cons r rs ih => simp [relationTextsWith, textsWith_eq_map, ih]

/-- The text of a type other than a cell depends on the texts of its parts only. -/
theorem textWith_mapChildren {names names' : List Cell} {f : Ty → Ty} {t : Ty}
    (ht : t.isCell = false)
    (hf : ∀ u ∈ t.children, (f u).textWith names' = u.textWith names) :
    (t.mapChildren f).textWith names' = t.textWith names := by
  have hmap {ts : List Ty} (hts : ∀ u ∈ ts, u ∈ t.children) :
      textsWith names' (ts.map f) = textsWith names ts := by
    rw [textsWith_eq_map, textsWith_eq_map, map_map]
    exact map_congr_left fun u hu => hf u (hts u hu)
  cases t with
  | tensor s d => cases s <;> rfl
  | param p => rfl
  | handle h => rfl
  | cell c => cases ht
  | tuple ts =>
    have hts := hmap fun u hu => hu
    rcases ts with _ | ⟨u, _ | ⟨v, ts⟩⟩
    · rfl
    · have hu := hf u (mem_singleton.2 rfl)
      simp only [mapChildren, map_cons, map_nil, textWith, hu]
    · exact congrArg parenthesised hts
  | data h as =>
    have has := hmap fun u hu => hu
    rcases as with _ | ⟨u, as⟩
    · rfl
    · exact congrArg (fun texts => h.name ++ "[" ++ ", ".intercalate texts ++ "]") has
  | func as r ps rs =>
    simp only [mem_children_func] at hf hmap
    have has := hmap fun u hu => .inl hu
    have hr := hf r (.inr (.inl rfl))
    have hrs : relationTextsWith names' (rs.map fun rel => { rel with args := rel.args.map f }) =
        relationTextsWith names rs := by
      simp only [relationTextsWith_eq_map, map_map, ← textsWith_eq_map]
      refine map_congr_left fun rel hrel => ?_
      simp only [Function.comp_apply, hmap fun u hu => .inr (.inr ⟨rel, hrel, hu⟩)]
    simp only [mapChildren, textWith, has, hr, hrs, isEmpty_map]

/-- Wherever a cell stands in a type, the text has its name. -/
theorem textWith_labelled (names names' : List Cell) (t : Ty) :
    (t.labelled (cellText names)).textWith names' = t.textWith names := by
  induction t using induction_cells with
  | cell c => rfl
  | node t ht ih =>
    rw [labelled, mapCells_of_not_cell _ ht]
    exact textWith_mapChildren ht ih

theorem textsWith_labelled (names names' : List Cell) (ts : List Ty) :
    textsWith names' (ts.map (labelled (cellText names))) = textsWith names ts := by
  simp [textsWith_eq_map, textWith_labelled]

end Ty

end TensorTyping
