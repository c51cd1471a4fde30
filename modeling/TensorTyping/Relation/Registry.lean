import TensorTyping.Relation.Rule
import TensorTyping.Table

/-!
# Registered relations

Relations are known by name. A name is registered once, with the rule that it follows and, if it
matters, the number of slots of every use.
-/
namespace TensorTyping

structure RelationEntry where
  rule : Rule
  arity : Option Int := none
deriving DecidableEq, Repr

structure Registry where
  table : Table String RelationEntry := {}

namespace Registry

def register (r : Registry) (name : String) (entry : RelationEntry) : Except Fault Registry :=
  if r.table.contains name then .error (.registered name)
  else .ok ⟨r.table.insert name entry⟩

def lookup (r : Registry) (name : String) (site : Option Phrase) : Except Fault RelationEntry :=
  match r.table.get? name with
  | some entry => .ok entry
  | none => .error (.issue (.unboundName name site))

/-- The relations of the standard operators. -/
def standard : Registry where
  table := ⟨[("Identity", ⟨.identity, some 2⟩), ("Broadcast", ⟨.broadcast, some 3⟩),
    ("BroadcastComparison", ⟨.comparison, some 3⟩), ("MatMul", ⟨.matmul, some 3⟩),
    ("Reduce", ⟨.reduce, some 2⟩), ("ExpandDims", ⟨.expandDims, some 2⟩),
    ("Concatenate", ⟨.concatenate, some 2⟩), ("TupleGetItem", ⟨.projection, some 2⟩)]⟩

end Registry

end TensorTyping
