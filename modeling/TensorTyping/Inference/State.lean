import TensorTyping.Engine
import TensorTyping.Module.Dependency
import TensorTyping.Operators

/-!
# The state of an inference run

A run types the functions of a module or one expression with a store of its own. It notes the type
of every node as it goes and writes nothing onto the syntax before all of it has come out
complete.
-/
namespace TensorTyping.Inference

structure Context where
  module : Module
  operators : Operators
  registry : Registry
  /-- The dependency groups of the module. -/
  groups : List (List Global)
  /-- Whether to tell about progress. -/
  verbose : Bool := false

namespace Context

/-- The signature that a function declares, if it is annotated throughout. -/
def declared? (Γ : Context) (g : Global) : Option Signature :=
  (Γ.module.functions.get? g).bind Function.declared?

def undeclared (Γ : Context) (group : List Global) : List Global :=
  group.filter fun g => (Γ.declared? g).isNone

def groupOf (Γ : Context) (g : Global) : List Global :=
  (Γ.groups.find? fun group => group.contains g).getD []

end Context

/-- What is known so far. -/
structure State where
  session : Session := {}
  engine : Engine := {}
  /-- The types of nodes, in the order in which they were first noted. -/
  nodeTypes : Table Serial (Phrase × Ty) := {}
  callArgs : Table Serial (List Ty) := {}
  scope : List TypeParam := []
  /-- The signatures of the functions that are done. -/
  schemes : Table Global Signature := {}
  /-- The provisional types of the functions being typed. -/
  provisional : Table Global Ty := {}
  /-- The functions being typed. -/
  solving : List Global := []
  /-- What is matched on, with its type. -/
  scrutinees : List (Expr × Ty) := []
  told : List String := []

/-- Steps of a run. What was done before a fault stays done. -/
abbrev InferM := EStateM Fault State

/-- The types of the local variables in scope, by serial number, innermost first. -/
abbrev Env := List (Serial × Ty)

def onEngine {α : Type} (act : EngineM α) : InferM α := fun s =>
  match act s.engine with
  | .ok a engine => .ok a { s with engine }
  | .error f engine => .error f { s with engine }

def onSession {α : Type} (act : SessionM α) : InferM α := fun s =>
  match act s.session with
  | .ok a session => .ok a { s with session }
  | .error f session => .error f { s with session }

def complain {α : Type} (i : Issue) : InferM α := throw (.issue i)

def fresh : InferM Ty := onEngine (EngineM.onStore StoreM.fresh)

def freshFor {α : Type} : List α → InferM (List Ty)
  | [] => return []
  | _ :: as => do
    let t ← fresh
    let ts ← freshFor as
    return t :: ts

def find (t : Ty) : InferM Ty := onEngine (EngineM.onStore (StoreM.find t))

def resolve (t : Ty) : InferM Ty := onEngine (EngineM.onStore (StoreM.resolve t))

def resolveAll (ts : List Ty) : InferM (List Ty) := onEngine (EngineM.resolveAll ts)

def unify (a b : Ty) (site : Phrase) : InferM Unit :=
  onEngine (EngineM.onStore (StoreM.unify a b (some site)))

def relate (Γ : Context) (r : TypeRelation) (site : Phrase) (attrs : Attrs) : InferM Unit :=
  onEngine (do let _ ← EngineM.add Γ.registry r (some site) attrs)

def relateAll (Γ : Context) (site : Phrase) (attrs : Attrs) : List TypeRelation → InferM Unit
  | [] => return ()
  | r :: rs => do
    relate Γ r site attrs
    relateAll Γ site attrs rs

def noteAt (n : Serial) (p : Phrase) (t : Ty) : InferM Unit :=
  modify fun s => { s with nodeTypes := s.nodeTypes.insert n (p, t) }

/-- Note the type of an expression. Shared symbols have no single type, so nothing is noted. -/
def note (e : Expr) (t : Ty) : InferM Unit :=
  if e.isShared then return () else noteAt e.serial (.expr e) t

def notePattern (p : Pattern) (t : Ty) : InferM Unit := noteAt p.serial (.pattern p) t

/-- Type an expression by the given step, blame the expression for an issue that blames nothing,
and note its type. -/
def typed (e : Expr) (act : InferM Ty) : InferM Ty := fun s =>
  match act s with
  | .ok t s => (do note e t; return t : InferM Ty) s
  | .error f s => .error (f.blame (some (.expr e))) s

/-- Work with more type parameters in scope. -/
def withScope {α : Type} (params : List TypeParam) (act : InferM α) : InferM α := fun s =>
  match act { s with scope := s.scope ++ params } with
  | .ok a s' => .ok a { s' with scope := s.scope }
  | .error f s' => .error f { s' with scope := s.scope }

def tell (Γ : Context) (line : String) : InferM Unit :=
  if Γ.verbose then modify fun s => { s with told := s.told ++ [line] } else return ()

end TensorTyping.Inference
