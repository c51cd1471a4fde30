/-!
# Symbols

A symbol is a named thing with identity. Two symbols that share a name are still two, because each
takes a serial number of its own from a supply when it is made. Nodes of expressions and stores of
cells take theirs from the same supply, so that no two things of a session share one.
-/
namespace TensorTyping

/-- The number of a symbol, a node or a store. -/
abbrev Serial := Nat

/-- Where serial numbers come from. -/
structure Supply where
  /-- The last number given out. -/
  last : Serial := 0
deriving DecidableEq, Repr, Inhabited

/-- Computations that make things with identity. -/
abbrev Mint := StateM Supply

/-- Take the next serial number. -/
def Mint.serial : Mint Serial := fun s => (s.last + 1, ⟨s.last + 1⟩)

/-- A named thing. Its serial number alone tells it from others. -/
structure Symbol where
  serial : Serial
  name : String
deriving DecidableEq, Repr, Inhabited

namespace Symbol

def mint (name : String) : Mint Symbol := do
  return ⟨← Mint.serial, name⟩

/-- The text that tells a symbol from every other, with the sort of thing it names. -/
def distinctText (s : Symbol) (sort : String) : String :=
  "\x7b" ++ s.name ++ "#" ++ toString s.serial ++ ":" ++ sort ++ "\x7d"

end Symbol

end TensorTyping
