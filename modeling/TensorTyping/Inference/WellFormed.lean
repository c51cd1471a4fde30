import TensorTyping.Inference.State

/-!
# Well-formed ascriptions

A written type may mention only type parameters that are in scope and of a kind that can stand for
a type. A handle has to be applied, to as many arguments as its data type has parameters. The
relations of a function type are not looked at.
-/
namespace TensorTyping.Inference

mutual
/-- The first thing wrong with a written type. -/
def misformed? (m : Module) (scope : List TypeParam) (site : Option Phrase) : Ty → Option Issue
  | .tensor .. | .cell _ => none
  | .tuple ts => misformedList? m scope site ts
  | .func as r ps _ =>
    (misformedList? m (scope ++ ps) site as).or (misformed? m (scope ++ ps) site r)
  | .param p =>
    if p ∉ scope then
      some { kind := .kindMismatch, evidence := [.type (.param p)],
             sentence := some "The type parameter %s is not in scope here.", site }
    else if p.kind.standsForType then none
    else
      some { kind := .kindMismatch, evidence := [.type (.param p), .ofText p.kind.text],
             sentence := some
               "The type parameter %s is of kind %s, which cannot stand for a whole type.",
             site }
  | .handle h =>
    some { kind := .kindMismatch, evidence := [.type (.handle h)],
           sentence := some "%s needs type arguments to be a type.", site }
  | .data h as =>
    match m.dataTypes.get? h with
    | none => some (.unboundName h.name site)
    | some d =>
      if d.params.length ≠ as.length then
        some (.typeArgumentArity d.params.length as.length site)
      else misformedList? m scope site as
def misformedList? (m : Module) (scope : List TypeParam) (site : Option Phrase) :
    List Ty → Option Issue
  | [] => none
  | t :: ts => (misformed? m scope site t).or (misformedList? m scope site ts)
end

/-- Check a list of written types against the parameters in scope. -/
def checkWritten (Γ : Context) (ts : List Ty) (site : Phrase) : InferM Unit := do
  match misformedList? Γ.module (← get).scope (some site) ts with
  | some i => complain i
  | none => return ()

end TensorTyping.Inference
