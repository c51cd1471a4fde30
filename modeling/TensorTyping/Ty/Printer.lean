import TensorTyping.Ty.Occurrence

/-!
# The text of types

Cells are printed as letters in order of first appearance in whatever is printed together, so the
printer takes the list of cells that it may meet.
-/
namespace TensorTyping

/-- The name of the `n`-th variable: `a` to `z`, then `aa` and on, counting from one. The fuel is
the number itself. -/
def variableName (n : Nat) : String := String.ofList (go n n [])
where
  go : Nat → Nat → List Char → List Char
  | 0, _, acc => acc
  | fuel + 1, n, acc =>
    if n = 0 then acc else go fuel ((n - 1) / 26) (Char.ofNat (97 + (n - 1) % 26) :: acc)

namespace Ty

def cellText (names : List Cell) (c : Cell) : String :=
  "?" ++ variableName (names.idxOf c + 1)

def parenthesised (texts : List String) : String := "(" ++ ", ".intercalate texts ++ ")"

mutual
/-- The text of a type, given the cells that are named by position. -/
def textWith (names : List Cell) : Ty → String
  | .tensor [] d => d
  | .tensor s d => "Tensor[" ++ parenthesised (s.map Dim.text) ++ ", " ++ d ++ "]"
  | .tuple [t] => "(" ++ t.textWith names ++ ",)"
  | .tuple ts => parenthesised (textsWith names ts)
  | .func as r ps rs =>
    let generic := if ps.isEmpty then "" else
      "<" ++ ", ".intercalate (ps.map fun p => p.name) ++ ">"
    let head := "fn" ++ generic ++ parenthesised (textsWith names as) ++ " -> " ++ r.textWith names
    if rs.isEmpty then head
    else head ++ " where " ++ ", ".intercalate (relationTextsWith names rs)
  | .param p => p.name
  | .cell c => cellText names c
  | .handle h => h.name
  | .data h [] => h.name
  | .data h as => h.name ++ "[" ++ ", ".intercalate (textsWith names as) ++ "]"
def textsWith (names : List Cell) : List Ty → List String
  | [] => []
  | t :: ts => t.textWith names :: textsWith names ts
def relationTextsWith (names : List Cell) : List TypeRelation → List String
  | [] => []
  | ⟨n, as, _, _⟩ :: rs =>
    (n ++ parenthesised (textsWith names as)) :: relationTextsWith names rs
end

def text (t : Ty) : String := t.textWith t.cells

end Ty

def TypeRelation.text (r : TypeRelation) : String :=
  r.name ++ Ty.parenthesised (Ty.textsWith (cellsOf r.args) r.args)

end TensorTyping
