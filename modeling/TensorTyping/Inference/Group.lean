import TensorTyping.Inference.Expression
import TensorTyping.Inference.Generalise

/-!
# Typing groups of functions

The functions of a dependency group are typed together. Those without a declared signature see one
another at provisional types and are generalised at the end; those with one are used at it
throughout.
-/
namespace TensorTyping.Inference

/-- Start the functions of a group that declare no signature, at new provisional types. -/
def startProvisional : List Global → InferM Unit
  | [] => return ()
  | g :: gs => do
    let t ← fresh
    modify fun s => { s with provisional := s.provisional.insert g t }
    startProvisional gs

def typeBody (Γ : Context) (solve : Global → InferM Unit) (g : Global) : InferM Span := do
  match Γ.module.functions.get? g with
  | none => throw (.missing g.name)
  | some f =>
    let before := (← get).engine.added
    let t ← infer Γ solve f.toExpr []
    let span : Span := ⟨g, before, (← get).engine.added⟩
    match (← get).provisional.get? g with
    | some u => unify u t (.expr f.toExpr)
    | none => pure ()
    return span

def typeBodies (Γ : Context) (solve : Global → InferM Unit) : List Global → InferM (List Span)
  | [] => return []
  | g :: gs => do
    let span ← typeBody Γ solve g
    let spans ← typeBodies Γ solve gs
    return span :: spans

/-- Record the declared signatures of a group, and tell every signature. -/
def announce (Γ : Context) : List Global → InferM Unit
  | [] => return ()
  | g :: gs => do
    match Γ.declared? g with
    | some sig => modify fun s => { s with schemes := s.schemes.insert g sig }
    | none => pure ()
    match (← get).schemes.get? g with
    | some sig => tell Γ ("  " ++ g.name ++ " : " ++ sig.toTy.text)
    | none => throw (.missing g.name)
    announce Γ gs

/-- Begin with a group: its functions are being typed, those that declare no signature at
provisional types. -/
def openGroup (Γ : Context) (group : List Global) : InferM Unit := do
  tell Γ ("Typing " ++ ", ".intercalate (group.map fun g => g.name))
  modify fun s => { s with solving := s.solving ++ group }
  startProvisional (Γ.undeclared group)

/-- End with a group whose bodies are typed: give its functions their signatures, with the
instances added after the mark that are left over. -/
def closeGroup (Γ : Context) (group : List Global) (spans : List Span) (mark : Nat) :
    InferM Unit := do
  onEngine (EngineM.propagate Γ.registry)
  dischargeDeclared Γ group mark
  generalise Γ (spans.filter fun s => (Γ.undeclared group).contains s.function) mark
  announce Γ group
  modify fun s => { s with solving := s.solving.filter fun g => !group.contains g }

def typeGroup (Γ : Context) (solve : Global → InferM Unit) (group : List Global) :
    InferM Unit := do
  let mark := (← get).engine.added
  openGroup Γ group
  let spans ← typeBodies Γ solve group
  closeGroup Γ group spans mark

/-- Type the group of a function and, before it, whatever it depends on. A group depends only on
groups before it, so their number bounds the depth. -/
def solveWithin (Γ : Context) : Nat → Global → InferM Unit
  | 0, _ => throw .outOfFuel
  | fuel + 1, g => typeGroup Γ (solveWithin Γ fuel) (Γ.groupOf g)

def solve (Γ : Context) (g : Global) : InferM Unit := solveWithin Γ (Γ.groups.length + 1) g

end TensorTyping.Inference
