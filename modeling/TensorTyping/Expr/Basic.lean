import TensorTyping.Ty.Basic

/-!
# Expressions

The expressions of the tensor language as trees. A variable both binds and refers, and it is told
from others by its serial number, so shadowing is a new variable of the same name. Nodes that are
not symbols carry a serial number of their own; a tree that is used twice keeps its numbers.
-/
namespace TensorTyping

/-- A local variable, perhaps with the type that its binder declares. -/
structure Var extends Symbol where
  ascription : Option Ty := none
deriving Inhabited

structure Global extends Symbol
deriving DecidableEq, Repr, Inhabited

/-- A constructor of a data type. -/
structure Ctor extends Symbol where
  inputs : List Ty
  owner : Handle
deriving Inhabited

namespace Ctor

def arity (c : Ctor) : Nat := c.inputs.length

end Ctor

/-- A literal tensor. The value may be left out, and the shape is checked when it is typed. -/
structure Constant where
  dtype : String
  shape : List DimEntry := []
  value : Value := .null
deriving Inhabited

inductive Pattern where
  | wildcard (node : Serial)
  | var (node : Serial) (x : Var)
  | ctor (node : Serial) (c : Ctor) (subs : List Pattern)
deriving Inhabited

inductive Expr where
  | var (x : Var)
  | global (g : Global)
  | op (node : Serial) (name : String)
  | ctor (c : Ctor)
  | constant (node : Serial) (c : Constant)
  | fn (node : Serial) (params : List Var) (body : Expr) (ret : Option Ty)
      (typeParams : List TypeParam) (relations : List TypeRelation)
  | call (node : Serial) (callee : Expr) (args : List Expr) (typeArgs : Option (List Ty))
      (attrs : Attrs)
  | letIn (node : Serial) (x : Var) (value body : Expr)
  | tuple (node : Serial) (fields : List Expr)
  | proj (node : Serial) (tuple : Expr) (index : Index)
  | cond (node : Serial) (test whenTrue whenFalse : Expr)
  | matchOn (node : Serial) (subject : Expr) (clauses : List (Pattern × Expr))
deriving Inhabited

namespace Pattern

def serial : Pattern → Serial
  | .wildcard n | .var n _ | .ctor n _ _ => n

end Pattern

namespace Expr

def serial : Expr → Serial
  | .var x => x.serial
  | .global g => g.serial
  | .ctor c => c.serial
  | .op n _ | .constant n _ | .fn n .. | .call n .. | .letIn n .. | .tuple n _ | .proj n ..
  | .cond n .. | .matchOn n .. => n

/-- Whether the expression is a symbol that all its uses share: a global function or a
constructor. -/
def isShared : Expr → Bool
  | .global _ | .ctor _ => true
  | _ => false

end Expr

structure Function where
  node : Serial
  params : List Var
  body : Expr
  ret : Option Ty := none
  typeParams : List TypeParam := []
  relations : List TypeRelation := []
deriving Inhabited

namespace Function

def toExpr (f : Function) : Expr := .fn f.node f.params f.body f.ret f.typeParams f.relations

/-- The ascriptions of all parameters, if each has one. -/
def paramTypes? : List Var → Option (List Ty)
  | [] => some []
  | x :: xs =>
    match x.ascription, paramTypes? xs with
    | some t, some ts => some (t :: ts)
    | _, _ => none

/-- The signature of a function all of whose parameters and whose result are annotated. -/
def declared? (f : Function) : Option Signature :=
  match f.ret, paramTypes? f.params with
  | some ret, some args => some ⟨args, ret, f.typeParams, f.relations⟩
  | _, _ => none

/-- Whether every parameter and the result are annotated. -/
def isDeclared (f : Function) : Bool := f.declared?.isSome

end Function

def Expr.function? : Expr → Option Function
  | .fn node params body ret typeParams relations =>
    some ⟨node, params, body, ret, typeParams, relations⟩
  | _ => none

end TensorTyping
