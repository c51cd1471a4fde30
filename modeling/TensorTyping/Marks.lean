import TensorTyping.Ty.Basic

/-!
# Marks on syntax

What is known about syntax apart from the trees themselves: the checked type of a node, the type
arguments that a call was given, and the tag of a constructor. Later marks win over earlier ones.
-/
namespace TensorTyping

structure Marks where
  types : List (Serial × Ty) := []
  typeArgs : List (Serial × List Ty) := []
  tags : List (Serial × Nat) := []
deriving Inhabited

namespace Marks

def type? (m : Marks) (s : Serial) : Option Ty := m.types.lookup s

def typeArgs? (m : Marks) (s : Serial) : Option (List Ty) := m.typeArgs.lookup s

def tag? (m : Marks) (s : Serial) : Option Nat := m.tags.lookup s

def setType (m : Marks) (s : Serial) (t : Ty) : Marks := { m with types := (s, t) :: m.types }

def setTypeArgs (m : Marks) (s : Serial) (ts : List Ty) : Marks :=
  { m with typeArgs := (s, ts) :: m.typeArgs }

def setTag (m : Marks) (s : Serial) (tag : Nat) : Marks := { m with tags := (s, tag) :: m.tags }

end Marks

end TensorTyping
