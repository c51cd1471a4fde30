import TensorTyping.Attrs
import TensorTyping.Shape
import TensorTyping.Symbol

/-!
# Types

A type is a tensor, a tuple, a function, a data type applied to arguments, or one of three things
with identity: a type parameter, the handle of a data type, or a cell. A cell stands for a type
that is not known yet. A function type may bind type parameters and carry relations among types.
-/
namespace TensorTyping

inductive Kind where
  | type
  | baseType
  | shape
  | shapeVar
deriving DecidableEq, Repr, Inhabited

namespace Kind

def text : Kind → String
  | .type => "Type"
  | .baseType => "BaseType"
  | .shape => "Shape"
  | .shapeVar => "ShapeVar"

/-- Whether a parameter of this kind can stand where a whole type is expected. -/
def standsForType : Kind → Bool
  | .type | .baseType => true
  | .shape | .shapeVar => false

end Kind

structure TypeParam extends Symbol where
  kind : Kind := .type
deriving DecidableEq, Repr, Inhabited

structure Handle extends Symbol
deriving DecidableEq, Repr, Inhabited

/-- A cell: the store it belongs to and its position there. -/
structure Cell where
  store : Serial
  index : Nat
deriving DecidableEq, Repr, Inhabited

/-- A named relation among the types in its slots, the first `inputs` of which are inputs. -/
structure Relation (τ : Type) where
  name : String
  args : List τ
  inputs : Int
  attrs : Attrs := .empty
deriving Inhabited

inductive Ty where
  | tensor (shape : Shape) (dtype : String)
  | tuple (fields : List Ty)
  | func (args : List Ty) (ret : Ty) (params : List TypeParam) (relations : List (Relation Ty))
  | param (p : TypeParam)
  | cell (c : Cell)
  | handle (h : Handle)
  | data (h : Handle) (args : List Ty)
deriving Inhabited

abbrev TypeRelation := Relation Ty

namespace TypeRelation

/-- A relation whose last slot is its output unless the number of inputs is given. -/
def of (name : String) (args : List Ty) (inputs : Option Int) (attrs : Attrs) : TypeRelation :=
  ⟨name, args, inputs.getD ((args.length : Int) - 1), attrs⟩

end TypeRelation

/-- A function type in its parts: what a global function, an operator or a constructor is
declared as. -/
structure Signature where
  args : List Ty
  ret : Ty
  params : List TypeParam := []
  relations : List TypeRelation := []
deriving Inhabited

def Signature.toTy (s : Signature) : Ty := .func s.args s.ret s.params s.relations

namespace Ty

def signature? : Ty → Option Signature
  | .func args ret params relations => some ⟨args, ret, params, relations⟩
  | _ => none

def scalar (dtype : String) : Ty := .tensor [] dtype

def bool : Ty := scalar "bool"

def cell? : Ty → Option Cell
  | .cell c => some c
  | _ => none

end Ty

/-- The form of a type. Types of different forms are never equal, and a type with identity is
alone in its form. -/
inductive Form where
  | tensor
  | tuple
  | func
  | data
  | param (p : TypeParam)
  | cell (c : Cell)
  | handle (h : Handle)
deriving DecidableEq, Repr

def Ty.form : Ty → Form
  | .tensor .. => .tensor
  | .tuple .. => .tuple
  | .func .. => .func
  | .data .. => .data
  | .param p => .param p
  | .cell c => .cell c
  | .handle h => .handle h

end TensorTyping
