import TensorTyping.Session
import TensorTyping.Table

/-!
# Modules

A module defines global functions and data types, each name once. It is filled before checking and
may be extended between runs; a successful run records the signature of every function.
-/
namespace TensorTyping

structure DataType where
  handle : Handle
  params : List TypeParam
  ctors : List Ctor
deriving Inhabited

namespace DataType

def selfType (d : DataType) : Ty := .data d.handle (d.params.map .param)

def ctorSignature (d : DataType) (c : Ctor) : Signature := ⟨c.inputs, d.selfType, d.params, []⟩

def text (d : DataType) : String := "<data " ++ d.handle.name ++ ">"

/-- Tag constructors with their positions, counted from `n`, as long as they belong to the
handle. -/
def tagAll (h : Handle) : Nat → List Ctor → SessionM Unit
  | _, [] => return ()
  | n, c :: cs => do
    if c.owner = h then
      SessionM.mark fun m => m.setTag c.serial n
      tagAll h (n + 1) cs
    else throw .strayConstructor

/-- Define a data type by its constructors, which are tagged with their positions. -/
def define (handle : Handle) (params : List TypeParam) (ctors : List Ctor) :
    SessionM DataType := do
  tagAll handle 0 ctors
  return ⟨handle, params, ctors⟩

end DataType

structure Module where
  functions : Table Global Function := {}
  dataTypes : Table Handle DataType := {}
  /-- The signatures that checking has established. -/
  checked : Table Global Signature := {}
  globals : Table String Global := {}
  handles : Table String Handle := {}
  /-- The data type of each constructor, by its serial number. -/
  ctors : Table Serial DataType := {}
deriving Inhabited

namespace Module

def empty : Module := {}

def addFunction (m : Module) (g : Global) (e : Expr) : Except Fault Module :=
  if m.globals.contains g.name then .error (.duplicate g.name)
  else match e.function? with
    | none => .error .notAFunction
    | some f => .ok { m with
        globals := m.globals.insert g.name g
        functions := m.functions.insert g f }

def addData (m : Module) (d : DataType) : Except Fault Module :=
  if m.handles.contains d.handle.name then .error (.duplicate d.handle.name)
  else .ok { m with
    handles := m.handles.insert d.handle.name d.handle
    dataTypes := m.dataTypes.insert d.handle d
    ctors := d.ctors.foldl (fun t c => t.insert c.serial d) m.ctors }

/-- Make the constructors of a data type from their names and inputs, and add its definition. -/
def defineData (m : Module) (handle : Handle) (params : List TypeParam)
    (cases : List (String × List Ty)) : SessionM (DataType × Module) := do
  let ctors ← cases.mapM fun (name, inputs) => do
    return (⟨← SessionM.mint (Symbol.mint name), inputs, handle⟩ : Ctor)
  let d ← DataType.define handle params ctors
  return (d, ← SessionM.ofExcept (m.addData d))

def global? (m : Module) (name : String) : Except Fault Global :=
  match m.globals.get? name with
  | some g => .ok g
  | none => .error (.missing name)

def handle? (m : Module) (name : String) : Except Fault Handle :=
  match m.handles.get? name with
  | some h => .ok h
  | none => .error (.missing name)

def dataTypeOf? (m : Module) (c : Ctor) : Option DataType := m.ctors.get? c.serial

def ctorNamed (m : Module) (typeName ctorName : String) : Except Fault Ctor :=
  match m.handle? typeName with
  | .error f => .error f
  | .ok h =>
    match (m.dataTypes.get? h).bind fun d => d.ctors.find? fun c => c.name == ctorName with
    | some c => .ok c
    | none => .error (.missing ctorName)

def signature? (m : Module) (g : Global) : Option Signature := m.checked.get? g

/-- Add definitions one after the other; those before a collision stay. -/
def addAll {α : Type} (add : Module → α → Except Fault Module) :
    Module → List α → Module × Option Fault
  | m, [] => (m, none)
  | m, a :: as =>
    match add m a with
    | .ok m => addAll add m as
    | .error f => (m, some f)

/-- Bring in the definitions of another module: data types, then functions, then, if no name
collides, the signatures. -/
def update (m other : Module) : Module × Option Fault :=
  match addAll addData m other.dataTypes.values with
  | (m, some f) => (m, some f)
  | (m, none) =>
    match addAll (fun m e => m.addFunction e.1 e.2.toExpr) m other.functions.entries with
    | (m, some f) => (m, some f)
    | (m, none) => ({ m with checked := m.checked.merge other.checked }, none)

end Module

end TensorTyping
