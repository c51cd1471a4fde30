import TensorTyping.Expr.Basic

/-!
# The nodes of an expression

Every node of an expression or pattern in preorder. A node that is used twice is listed twice.
-/
namespace TensorTyping

inductive NodeSort where
  | var
  | global
  | op
  | ctor
  | constant
  | fn
  | call
  | letIn
  | tuple
  | proj
  | cond
  | matchOn
  | wildcardPattern
  | varPattern
  | ctorPattern
deriving DecidableEq, Repr

/-- A node: its sort, its serial number, and its name if it has one. -/
structure NodeEntry where
  sort : NodeSort
  serial : Serial
  name : Option String := none
deriving DecidableEq, Repr

def Var.entry (x : Var) : NodeEntry := ⟨.var, x.serial, some x.name⟩

namespace Pattern

mutual
def nodes : Pattern → List NodeEntry
  | .wildcard n => [⟨.wildcardPattern, n, none⟩]
  | .var n x => [⟨.varPattern, n, none⟩, x.entry]
  | .ctor n _ subs => ⟨.ctorPattern, n, none⟩ :: nodesList subs
def nodesList : List Pattern → List NodeEntry
  | [] => []
  | p :: ps => p.nodes ++ nodesList ps
end

end Pattern

namespace Expr

mutual
def nodes : Expr → List NodeEntry
  | .var x => [x.entry]
  | .global g => [⟨.global, g.serial, some g.name⟩]
  | .op n name => [⟨.op, n, some name⟩]
  | .ctor c => [⟨.ctor, c.serial, some c.name⟩]
  | .constant n _ => [⟨.constant, n, none⟩]
  | .fn n params body _ _ _ => ⟨.fn, n, none⟩ :: params.map Var.entry ++ body.nodes
  | .call n callee args _ _ => ⟨.call, n, none⟩ :: callee.nodes ++ nodesList args
  | .letIn n x value body => ⟨.letIn, n, none⟩ :: x.entry :: value.nodes ++ body.nodes
  | .tuple n fields => ⟨.tuple, n, none⟩ :: nodesList fields
  | .proj n t _ => ⟨.proj, n, none⟩ :: t.nodes
  | .cond n test whenTrue whenFalse =>
    ⟨.cond, n, none⟩ :: test.nodes ++ whenTrue.nodes ++ whenFalse.nodes
  | .matchOn n subject clauses => ⟨.matchOn, n, none⟩ :: subject.nodes ++ clauseNodes clauses
def nodesList : List Expr → List NodeEntry
  | [] => []
  | e :: es => e.nodes ++ nodesList es
def clauseNodes : List (Pattern × Expr) → List NodeEntry
  | [] => []
  | (p, e) :: cs => p.nodes ++ e.nodes ++ clauseNodes cs
end

mutual
/-- The global functions that an expression mentions, from left to right. -/
def mentions : Expr → List Global
  | .global g => [g]
  | .var _ | .op .. | .ctor _ | .constant .. => []
  | .fn _ _ body _ _ _ => body.mentions
  | .call _ callee args _ _ => callee.mentions ++ mentionsList args
  | .letIn _ _ value body => value.mentions ++ body.mentions
  | .tuple _ fields => mentionsList fields
  | .proj _ t _ => t.mentions
  | .cond _ test whenTrue whenFalse =>
    test.mentions ++ whenTrue.mentions ++ whenFalse.mentions
  | .matchOn _ subject clauses => subject.mentions ++ mentionsClauses clauses
def mentionsList : List Expr → List Global
  | [] => []
  | e :: es => e.mentions ++ mentionsList es
def mentionsClauses : List (Pattern × Expr) → List Global
  | [] => []
  | (_, e) :: cs => e.mentions ++ mentionsClauses cs
end

end Expr

end TensorTyping
