import TensorTyping.Issue
import TensorTyping.Table

/-!
# Operators

The primitive operators by name, with the signatures that they are declared at. A standard
operator is polymorphic, and one relation ties its parameters together; the attributes of that
relation are the defaults that a call may override.
-/
namespace TensorTyping

/-- The declared operators, in the order of declaration. -/
structure Operators where
  table : Table String Signature := {}

namespace Operators

def declare (ops : Operators) (name : String) (t : Ty) : Except Fault Operators :=
  match t.signature? with
  | none => .error .notAFunctionType
  | some s =>
    if ops.table.contains name then .error (.registered name)
    else .ok ⟨ops.table.insert name s⟩

def lookup (ops : Operators) (name : String) : Except Fault Signature :=
  match ops.table.get? name with
  | some s => .ok s
  | none => .error (.missing name)

/-- A signature with a parameter for each input and one for the output, tied by a relation. -/
def related (relation : String) (arity : Nat) (attrs : Attrs) : Mint Signature := do
  let inputs ← (List.range arity).mapM fun i => do
    return (⟨← Symbol.mint (variableName (i + 1)), .type⟩ : TypeParam)
  let output : TypeParam := ⟨← Symbol.mint (variableName (arity + 1)), .type⟩
  let params := inputs ++ [output]
  return {
    args := inputs.map .param
    ret := .param output
    params
    relations := [⟨relation, params.map .param, arity, attrs⟩] }

structure Family where
  relation : String
  arity : Nat
  attrs : Attrs := .empty
  names : List String

/-- The standard operators by family. -/
def families : List Family := [
  { relation := "Broadcast", arity := 2,
    names := ["add", "subtract", "multiply", "divide", "power", "maximum", "minimum"] },
  { relation := "BroadcastComparison", arity := 2,
    names := ["equal", "not_equal", "less", "greater", "less_equal", "greater_equal"] },
  { relation := "Identity", arity := 1,
    names := ["negative", "abs", "exp", "log", "sqrt", "tanh", "sigmoid", "relu", "copy"] },
  { relation := "MatMul", arity := 2, names := ["matmul"] },
  { relation := "Reduce", arity := 1,
    attrs := .ofList [("axis", .null), ("keepdims", .bool false)],
    names := ["sum", "mean", "max", "min", "prod"] },
  { relation := "ExpandDims", arity := 1,
    attrs := .ofList [("axis", .int 0), ("num_newaxis", .int 1)], names := ["expand_dims"] },
  { relation := "Concatenate", arity := 1, attrs := .ofList [("axis", .int 0)],
    names := ["concatenate"] }]

def standard : Mint Operators := do
  let entries ← families.mapM fun f => f.names.mapM fun name => do
    return (name, ← related f.relation f.arity f.attrs)
  return ⟨⟨entries.flatten⟩⟩

end Operators

end TensorTyping
