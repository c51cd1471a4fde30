import TensorTyping.Expr.Basic

/-!
# Literal tensors

A constant made from a scalar or from nested lists. Its shape is read off the first items and then
checked against the rest, and its element type is that of the first element unless it is given.
-/
namespace TensorTyping

/-- Why a value is no literal tensor. -/
inductive LiteralError where
  | emptyTensor
  | ragged
  | noElementType (v : Value)

namespace LiteralError

def message : LiteralError → String
  | .emptyTensor => "Cannot tell the element type of an empty tensor"
  | .ragged => "Ragged tensor constant"
  | .noElementType v => "No tensor element type for " ++ v.written

end LiteralError

namespace Value

/-- The lengths of the lists met on the way to the first element, and that element. -/
def probe : Value → Except LiteralError (List Nat × Value)
  | .list [] => .error .emptyTensor
  | .list (v :: vs) =>
    match v.probe with
    | .error e => .error e
    | .ok (lengths, leaf) => .ok ((vs.length + 1) :: lengths, leaf)
  | v => .ok ([], v)

/-- Whether a value is nested lists of the given lengths. What stands at the innermost level is
not looked at. -/
def hasLengths : List Nat → Value → Bool
  | [], _ => true
  | n :: ns, .list vs => vs.length == n && vs.all (hasLengths ns)
  | _ :: _, _ => false

/-- The element type of a scalar. -/
def elementType : Value → Except LiteralError String
  | .bool _ => .ok "bool"
  | .int _ => .ok "int32"
  | .float _ | .nan _ => .ok "float32"
  | v => .error (.noElementType v)

end Value

namespace Constant

/-- The literal tensor that a value denotes. An empty element type counts as none given. -/
def ofValue (v : Value) (dtype : Option String) : Except LiteralError Constant :=
  match v.probe with
  | .error e => .error e
  | .ok (lengths, leaf) =>
    if v.hasLengths lengths then
      let shape := lengths.map fun (n : Nat) => DimEntry.value (.int n)
      match dtype.filter (· ≠ "") with
      | some d => .ok ⟨d, shape, v⟩
      | none => leaf.elementType.map fun d => ⟨d, shape, v⟩
    else .error .ragged

end Constant

end TensorTyping
