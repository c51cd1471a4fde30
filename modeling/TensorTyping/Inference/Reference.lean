import TensorTyping.Inference.WellFormed

/-!
# References

A reference to a global function, an operator or a constructor takes an instance of its signature:
its parameters become new cells, or the types given for them, and its relations become instances
of the engine. A function that is still being typed is referred to at its provisional type, unless
its signature is declared.
-/
namespace TensorTyping.Inference

/-- Refuse explicit type arguments for parameters that no type can be given for. -/
def refuseKinds (site : Phrase) : List TypeParam → InferM Unit
  | [] => return ()
  | p :: ps =>
    if p.kind.standsForType then refuseKinds site ps
    else complain
      { kind := .kindMismatch, evidence := [.type (.param p), .ofText p.kind.text],
        sentence := some
          "The type parameter %s is of kind %s, so no type can be given for it.",
        site := some site }

def instantiate (Γ : Context) (sig : Signature) (explicit : Option (List Ty)) (site : Phrase)
    (attrs : Attrs) : InferM (Ty × List Ty) := do
  match explicit with
  | some ts =>
    if ts.length ≠ sig.params.length then
      complain (.typeArgumentArity sig.params.length ts.length (some site))
    refuseKinds site sig.params
  | none => pure ()
  if sig.params.isEmpty then
    relateAll Γ site attrs sig.relations
    return (sig.toTy, [])
  else
    let typeArgs ← match explicit with
      | some ts => pure ts
      | none => freshFor sig.params
    let γ := Substitution.ofParams sig.params typeArgs
    relateAll Γ site attrs (sig.relations.map γ.applyRelation)
    return (.func (sig.args.map γ.apply) (γ.apply sig.ret) [] [], typeArgs)

/-- The signature of a global function; `solve` types one that is not done. -/
def signatureOf (Γ : Context) (solve : Global → InferM Unit) (g : Global) : InferM Signature := do
  if !Γ.module.functions.contains g then
    complain (.unboundName g.name (some (.expr (.global g))))
  match Γ.declared? g with
  | some sig => if (← get).solving.contains g then return sig
  | none => pure ()
  if !(← get).schemes.contains g then solve g
  match (← get).schemes.get? g with
  | some sig => return sig
  | none => throw (.missing g.name)

def reference (Γ : Context) (solve : Global → InferM Unit) (e : Expr)
    (explicit : Option (List Ty)) (site : Phrase) (attrs : Attrs) :
    InferM (Option (Ty × List Ty)) := do
  match e with
  | .global g =>
    checkWritten Γ (explicit.getD []) site
    match (← get).provisional.get? g with
    | some t =>
      let given := explicit.getD []
      if !given.isEmpty then complain (.typeArgumentArity 0 given.length (some site))
      return some (t, [])
    | none => return some (← instantiate Γ (← signatureOf Γ solve g) explicit site attrs)
  | .op _ name =>
    checkWritten Γ (explicit.getD []) site
    match Γ.operators.table.get? name with
    | none => complain (.unboundName name (some (.expr e)))
    | some sig => return some (← instantiate Γ sig explicit site attrs)
  | .ctor c =>
    checkWritten Γ (explicit.getD []) site
    match Γ.module.dataTypeOf? c with
    | none => complain (.unboundName c.name (some (.expr e)))
    | some d => return some (← instantiate Γ (d.ctorSignature c) explicit site attrs)
  | _ => return none

end TensorTyping.Inference
