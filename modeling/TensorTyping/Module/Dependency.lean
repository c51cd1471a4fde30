import TensorTyping.Expr.Listing
import TensorTyping.Module.Basic

/-!
# Dependency groups

Functions that refer to one another in a circle are checked together. The groups are the strongly
connected components of the graph of references, dependencies first, and the members of a group
stand in the order in which the search first met them.

The search keeps the functions on its path, and those it could not yet close, on a stack. A
function's index is its place on the stack when it was met; its low mark is the least index that
it can get back to. A function that cannot get back below itself closes the group above it.
-/
namespace TensorTyping

namespace Module

/-- The functions of the module that a function refers to, in order of definition. -/
def references (m : Module) (f : Function) : List Global :=
  let mentioned := f.body.mentions
  m.functions.keys.filter fun g => mentioned.contains g

def referenceGraph (m : Module) : List (Global × List Global) :=
  m.functions.entries.map fun e => (e.1, m.references e.2)

end Module

structure GroupSearch where
  index : List (Global × Nat) := []
  stack : List Global := []
  groups : List (List Global) := []

namespace GroupSearch

/-- The first visit to a function, with its place on the stack. -/
def enter (s : GroupSearch) (g : Global) : Nat × GroupSearch :=
  let i := s.stack.length
  (i, { s with index := (g, i) :: s.index, stack := s.stack ++ [g] })

def close (s : GroupSearch) (i : Nat) : GroupSearch :=
  { s with stack := s.stack.take i, groups := s.groups ++ [s.stack.drop i] }

/-- Visit a function and everything that it leads to, and tell its low mark. The fuel bounds the
length of a path. -/
def visit (graph : List (Global × List Global)) : Nat → Global → GroupSearch → Nat × GroupSearch
  | 0, _, s => (s.stack.length, s)
  | fuel + 1, g, s =>
    let (i, s) := s.enter g
    let (low, s) := ((graph.lookup g).getD []).foldl (fun (low, s) r =>
      match s.index.lookup r with
      | none =>
        let (l, s) := visit graph fuel r s
        (min low l, s)
      | some j => (if s.stack.contains r then min low j else low, s)) (i, s)
    (low, if low = i then s.close i else s)

end GroupSearch

def Module.groups (m : Module) : List (List Global) :=
  let graph := m.referenceGraph
  let search := m.functions.keys.foldl (fun s g =>
    match s.index.lookup g with
    | some _ => s
    | none => (GroupSearch.visit graph graph.length g s).2) ({} : GroupSearch)
  search.groups

end TensorTyping
