import TensorTyping.Inference.Group
import TensorTyping.Report

/-!
# Runs

Checking a module and typing an expression. A run that succeeds marks the syntax with the types it
has found and, for a module, records the signatures; a run that ends in an issue marks nothing.
-/
namespace TensorTyping

namespace Inference

/-- Check that everything matched on has come out as a data type. -/
def checkSubjects : List (Expr × Ty) → InferM Unit
  | [] => return ()
  | (subject, t) :: rest => do
    checkSubject true subject t
    checkSubjects rest

def finalTypes : List (Serial × (Phrase × Ty)) → InferM (List (Serial × Ty))
  | [] => return []
  | (n, (site, t)) :: rest => do
    let u ← resolve t
    if !u.cells.isEmpty then
      complain { kind := .ambiguousType, evidence := [.type u], site := some site }
    let more ← finalTypes rest
    return (n, u) :: more

def markCalls : List (Serial × List Ty) → InferM Unit
  | [] => return ()
  | (n, ts) :: rest => do
    let us ← resolveAll ts
    onSession (SessionM.mark fun m => m.setTypeArgs n us)
    markCalls rest

/-- Mark the syntax with what was found, once all of it is known to be complete. -/
def annotate : InferM Unit := do
  checkSubjects (← get).scrutinees
  let final ← finalTypes (← get).nodeTypes.entries
  onSession (SessionM.mark fun m => final.foldl (fun m (n, t) => m.setType n t) m)
  markCalls (← get).callArgs.entries

def solveGroups (Γ : Context) : List (List Global) → InferM Unit
  | [] => return ()
  | group :: rest => do
    match group.head? with
    | some g => if !(← get).schemes.contains g then solve Γ g
    | none => pure ()
    solveGroups Γ rest

def recordSignatures : List Global → Module → InferM Module
  | [], m => return m
  | g :: gs, m => do
    match (← get).schemes.get? g with
    | none => throw (.missing g.name)
    | some sig =>
      onSession (SessionM.mark fun marks => marks.setType g.serial sig.toTy)
      recordSignatures gs { m with checked := m.checked.insert g sig }

def markCtors (d : DataType) : InferM Unit :=
  onSession (SessionM.mark fun m =>
    d.ctors.foldl (fun m c => m.setType c.serial (d.ctorSignature c).toTy) m)

def checkModule (Γ : Context) : InferM Module := do
  solveGroups Γ Γ.groups
  onEngine (EngineM.finish Γ.registry)
  annotate
  let m ← recordSignatures Γ.module.functions.keys Γ.module
  Γ.module.dataTypes.values.forM markCtors
  return m

def typeExpr (Γ : Context) (e : Expr) : InferM Ty := do
  let t ← infer Γ (solve Γ) e []
  onEngine (EngineM.finish Γ.registry)
  annotate
  resolve t

/-- The beginning of a run, with a store of its own. -/
def start (session : Session) : State :=
  let (serial, supply) := Mint.serial session.supply
  { session := { session with supply }, engine := { store := { serial } } }

end Inference

/-- What comes of checking a module. -/
structure Checked where
  /-- Whether the module is well typed, or why checking could not be completed. -/
  outcome : Except Fault Bool
  module : Module
  session : Session
  report : Report
  /-- The lines told about progress. -/
  told : List String

def Module.check (m : Module) (operators : Operators) (registry : Registry) (report : Report)
    (session : Session) : Checked :=
  let Γ : Inference.Context :=
    { module := m, operators, registry, groups := m.groups, verbose := report.verbose }
  match Inference.checkModule Γ (Inference.start session) with
  | .ok m' s => ⟨.ok true, m', s.session, report, s.told⟩
  | .error (.issue i) s =>
    let (report, fault) := report.fileIssue i (some s.engine.store)
    let outcome := match fault with
      | some f => .error f
      | none => .ok false
    ⟨outcome, m, s.session, report, s.told⟩
  | .error f s => ⟨.error f, m, s.session, report, s.told⟩

def Module.typeOf (m : Module) (operators : Operators) (registry : Registry) (e : Expr) :
    SessionM Ty := fun session =>
  let Γ : Inference.Context := { module := m, operators, registry, groups := m.groups }
  match Inference.typeExpr Γ e (Inference.start session) with
  | .ok t s => .ok t s.session
  | .error f s => .error f s.session

end TensorTyping
