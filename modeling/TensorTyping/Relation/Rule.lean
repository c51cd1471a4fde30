import TensorTyping.Issue

/-!
# Relation rules

A rule says how the type of its output slot follows from the types of the others. It looks at
resolved types and at the attributes of one use. Either it concludes what the output is, or it
fails for good, or it cannot tell yet because a type that it needs is not known. A type parameter
might still become any tensor, so it is not known either.
-/
namespace TensorTyping

inductive Rule where
  | identity
  | broadcast
  | comparison
  | matmul
  | reduce
  | expandDims
  | concatenate
  | projection
deriving DecidableEq, Repr, Inhabited

/-- What a rule says of its slots. -/
inductive Verdict where
  /-- The relation is satisfied once the slot has this type. -/
  | holds (slot : Nat) (t : Ty)
  | fails
  | indeterminate

/-- Why a rule ends without a conclusion. -/
inductive Halt where
  | fails
  | undecided
  | fault (f : Fault)

namespace Rule

def slot (types : List Ty) (i : Nat) : Except Halt Ty :=
  match types[i]? with
  | some t => .ok t
  | none => .error (.fault .missingSlot)

def tensor : Ty → Except Halt (Shape × String)
  | .tensor s d => .ok (s, d)
  | .cell _ | .param _ => .error .undecided
  | _ => .error .fails

def tensorSlot (types : List Ty) (i : Nat) : Except Halt (Shape × String) := do
  tensor (← slot types i)

def fields : Ty → Except Halt (List Ty)
  | .tuple ts => .ok ts
  | .cell _ | .param _ => .error .undecided
  | _ => .error .fails

def tensors : List Ty → Except Halt (List (Shape × String))
  | [] => .ok []
  | t :: ts => do
    let x ← tensor t
    let xs ← tensors ts
    return x :: xs

/-- The dimension that an axis of a tensor of some rank means, counted from the end if it is
negative. -/
def axis? (rank : Nat) (v : Value) : Option Nat :=
  match v.int? with
  | none => none
  | some a => if -(rank : Int) ≤ a ∧ a < rank then some (a % rank).toNat else none

/-- The dimensions that the axes of a list mean. -/
def axes? (rank : Nat) : List Value → Option (List Nat)
  | [] => some []
  | v :: vs =>
    match axis? rank v, axes? rank vs with
    | some a, some as => some (a :: as)
    | _, _ => none

/-- The dimensions that a reduction runs over: all of them unless an axis is set. -/
def reducedAxes? (rank : Nat) : Value → Option (List Nat)
  | .null => some (List.range rank)
  | .list vs => axes? rank vs
  | v => axes? rank [v]

/-- The shape of a reduction. Its dimensions become one or go away. -/
def reducedShape (keep : Bool) (axes : List Nat) (s : Shape) : Shape :=
  s.zipIdx.filterMap fun (d, i) =>
    if i ∈ axes then (if keep then some (.known 1) else none) else some d

def number (v : Value) : Except Halt Numeral :=
  match v.numeral? with
  | some n => .ok n
  | none => .error (.fault .unfitAttribute)

def wholeNumber (v : Value) : Except Halt Int :=
  match v.int? with
  | some n => .ok n
  | none => .error (.fault .unfitAttribute)

/-- The greatest number that can be a length. -/
def lengthLimit : Nat := Nat.pow 2 63 - 1

/-- The greatest number of dimensions that can be held. -/
def rankLimit : Nat := Nat.pow 2 33

/-- A number of dimensions to add, which is not negative. -/
def addedRank (n : Int) : Except Halt Nat :=
  if (lengthLimit : Int) < n then .error (.fault .countTooBig)
  else if (rankLimit : Int) < n then .error (.fault .tooLarge)
  else .ok n.toNat

/-- The shape with `count` ones put in front of the dimension `axis`. -/
def expandedShape (axis count : Nat) (s : Shape) : Shape :=
  s.take axis ++ List.replicate count (.known 1) ++ s.drop axis

/-- The conclusion of expanding a tensor. The axis is looked at before the count. -/
def expand (s : Shape) (axis count : Value) : Except Halt Shape := do
  let rank : Int := s.length
  let a ← number axis
  unless a.atLeast (-rank - 1) && a.atMost rank do throw .fails
  let c ← number count
  if c.below 0 then throw .fails
  let a ← wholeNumber axis
  let c ← addedRank (← wholeNumber count)
  let a := if a < 0 then a + rank + 1 else a
  return expandedShape a.toNat c s

/-- Whether two shapes of the same rank agree everywhere but at one dimension. -/
def agreeExcept (axis : Nat) (s t : Shape) : Bool :=
  s.length == t.length &&
    (s.zip t).zipIdx.all fun ((d, e), i) => i == axis || d.agree e

/-- The conclusion of laying tensors end to end along an axis. -/
def concatenation (first : Shape × String) (all : List (Shape × String)) (axis : Value) :
    Except Halt (Shape × String) :=
  match axis? first.1.length axis with
  | none => .error .fails
  | some a =>
    if all.all fun t => t.2 == first.2 && agreeExcept a first.1 t.1 then
      let total := all.foldl (fun n t => Dim.join n (t.1.getD a (.known 0))) (.known 0)
      .ok (first.1.take a ++ total :: first.1.drop (a + 1), first.2)
    else .error .fails

/-- The field of a tuple that an index picks. -/
def project (ts : List Ty) (index : Value) : Except Halt Ty := do
  let n ← number index
  if n.atLeast 0 && n.below ts.length then
    let i ← wholeNumber index
    slot ts i.toNat
  else
    throw (.fault (.issue
      { kind := .indexOutOfRange, evidence := [.value index, .type (.tuple ts)] }))

/-- The common conclusion of two operands stretched together. -/
def stretched (types : List Ty) (dtype : String → String) : Except Halt Ty := do
  let (s, d) ← tensorSlot types 0
  let (t, e) ← tensorSlot types 1
  if d ≠ e then throw .fails
  match s.broadcast? t with
  | some shape => return .tensor shape (dtype d)
  | none => throw .fails

def target : Rule → Nat
  | .broadcast | .comparison | .matmul => 2
  | _ => 1

def conclude (rule : Rule) (types : List Ty) (attrs : Attrs) : Except Halt Ty :=
  match rule with
  | .identity => do
    let (s, d) ← tensorSlot types 0
    return .tensor s d
  | .broadcast => stretched types id
  | .comparison => stretched types fun _ => "bool"
  | .matmul => do
    let (s, d) ← tensorSlot types 0
    let (t, e) ← tensorSlot types 1
    if d ≠ e ∨ s.length < 2 ∨ t.length ≠ 2 then throw .fails
    match s.getLast?, t with
    | some inner, outer :: rest =>
      if inner.agree outer then return .tensor (s.dropLast ++ rest) d else throw .fails
    | _, _ => throw .fails
  | .reduce => do
    let (s, d) ← tensorSlot types 0
    match reducedAxes? s.length ((attrs.get? "axis").getD .null) with
    | none => throw .fails
    | some axes =>
      let keep := ((attrs.get? "keepdims").getD .null).isTrue
      return .tensor (reducedShape keep axes s) d
  | .expandDims => do
    let (s, d) ← tensorSlot types 0
    let axis := (attrs.get? "axis").getD (.int 0)
    let count := (attrs.get? "num_newaxis").getD (.int 1)
    return .tensor (← expand s axis count) d
  | .concatenate => do
    match ← fields (← slot types 0) with
    | [] => throw .fails
    | t :: ts =>
      let first ← tensor t
      let rest ← tensors ts
      let (s, d) ← concatenation first (first :: rest) ((attrs.get? "axis").getD (.int 0))
      return .tensor s d
  | .projection => do
    let t ← slot types 0
    match attrs.get? "index" with
    | none => throw (.fault (.missing "index"))
    | some index => project (← fields t) index

def verdict (rule : Rule) (types : List Ty) (attrs : Attrs) : Except Fault Verdict :=
  match rule.conclude types attrs with
  | .ok t => .ok (.holds rule.target t)
  | .error .fails => .ok .fails
  | .error .undecided => .ok .indeterminate
  | .error (.fault f) => .error f

end Rule

end TensorTyping
