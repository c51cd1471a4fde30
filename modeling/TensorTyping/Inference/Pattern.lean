import TensorTyping.Inference.WellFormed

/-!
# Patterns

A pattern is checked against the type of what is matched. A constructor pattern demands the data
type of its constructor at new type arguments, and passes the constructor's inputs on to its
sub-patterns. A pattern variable takes whatever type it meets.
-/
namespace TensorTyping.Inference

mutual
/-- Check a pattern against a type, and tell the variables that it binds, last one first. -/
def checkPattern (Γ : Context) : Pattern → Ty → InferM Env
  | .wildcard _, _ => return []
  | .var n x, expected => do
    let site : Phrase := .pattern (.var n x)
    match x.ascription with
    | some t =>
      checkWritten Γ [t] site
      unify t expected site
    | none => pure ()
    note (.var x) expected
    return [(x.serial, expected)]
  | .ctor n c subs, expected => do
    let site : Phrase := .pattern (.ctor n c subs)
    match Γ.module.dataTypeOf? c with
    | none => complain (.unboundName c.name (some site))
    | some d =>
      let typeArgs ← freshFor d.params
      unify expected (.data d.handle typeArgs) site
      if subs.length ≠ c.arity then
        complain
          { kind := .arityMismatch
            evidence := [.ofText c.name, .ofNat c.arity, .ofNat subs.length]
            sentence := some "Constructor %s takes %s argument(s), but this pattern has %s."
            site := some site }
      let γ := Substitution.ofParams d.params typeArgs
      checkPatterns Γ subs (c.inputs.map γ.apply)
def checkPatterns (Γ : Context) : List Pattern → List Ty → InferM Env
  | p :: ps, t :: ts => do
    let bound ← checkPattern Γ p t
    notePattern p t
    let more ← checkPatterns Γ ps ts
    return more ++ bound
  | _, _ => return []
end

/-- Check that what is matched on is some data type, as far as is known; at the end, `final`, it
has to be known. -/
def checkSubject (final : Bool) (subject : Expr) (t : Ty) : InferM Unit := do
  match ← find t with
  | .cell c =>
    if final then
      complain { kind := .ambiguousType, evidence := [.type (.cell c)],
                 site := some (.expr subject) }
  | .data .. => return ()
  | _ =>
    complain
      { kind := .kindMismatch, evidence := [.type (← resolve t)],
        sentence := some
          "Only a value of some data type can be matched on, but this is %s.",
        site := some (.expr subject) }

end TensorTyping.Inference
