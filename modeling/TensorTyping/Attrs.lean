import TensorTyping.Value

/-!
# Attributes

Named settings of one use of an operator or relation, kept in the order of their names.
-/
namespace TensorTyping

/-- Settings by name, ascending, each name once. -/
structure Attrs where
  entries : List (String × Value) := []
deriving Inhabited

namespace Attrs

def empty : Attrs := {}

def get? (a : Attrs) (name : String) : Option Value := a.entries.lookup name

/-- Put a setting at its place among the entries, over an earlier one of the same name. -/
def insertEntry (name : String) (v : Value) : List (String × Value) → List (String × Value)
  | [] => [(name, v)]
  | (n, w) :: rest =>
    if name = n then (name, v) :: rest
    else if name < n then (name, v) :: (n, w) :: rest
    else (n, w) :: insertEntry name v rest

def insert (a : Attrs) (name : String) (v : Value) : Attrs := ⟨insertEntry name v a.entries⟩

def ofList (l : List (String × Value)) : Attrs :=
  l.foldl (fun a e => a.insert e.1 e.2) empty

/-- The settings of `a` with those of `b` over them. -/
def merge (a b : Attrs) : Attrs :=
  b.entries.foldl (fun a e => a.insert e.1 e.2) a

def same (a b : Attrs) : Bool :=
  a.entries.length == b.entries.length &&
    (a.entries.zip b.entries).all fun p => p.1.1 == p.2.1 && p.1.2.same p.2.2

instance : BEq Attrs := ⟨same⟩

theorem lookup_insertEntry (name j : String) (v : Value) (es : List (String × Value)) :
    (insertEntry name v es).lookup j = if j = name then some v else es.lookup j := by
  induction es with
  | nil =>
    by_cases h : j = name
    · simp [insertEntry, h]
    · have hb : (j == name) = false := by simpa using h
      simp [insertEntry, h, List.lookup_cons, hb]
  | cons e es ih =>
    obtain ⟨n, w⟩ := e
    by_cases hn : name = n
    · subst hn
      by_cases h : j = name
      · simp [insertEntry, h]
      · have hb : (j == name) = false := by simpa using h
        simp [insertEntry, h, List.lookup_cons, hb]
    · by_cases hlt : name < n
      · by_cases h : j = name
        · simp [insertEntry, hn, hlt, h]
        · have hb : (j == name) = false := by simpa using h
          simp [insertEntry, hn, hlt, h, List.lookup_cons, hb]
      · by_cases h : j = n
        · subst h
          have hne : ¬ j = name := fun e => hn e.symm
          simp [insertEntry, hn, hlt, hne]
        · have hb : (j == n) = false := by simpa using h
          simp [insertEntry, hn, hlt, List.lookup_cons, hb, ih]

theorem get?_insert (a : Attrs) (name j : String) (v : Value) :
    (a.insert name v).get? j = if j = name then some v else a.get? j :=
  lookup_insertEntry name j v a.entries

end Attrs

end TensorTyping
