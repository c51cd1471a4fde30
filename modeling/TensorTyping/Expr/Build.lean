import TensorTyping.Expr.Basic

/-!
# Building expressions

Expressions made node by node, each node with a new serial number, from left to right.
-/
namespace TensorTyping.Build

def newVar (name : String) (ascription : Option Ty := none) : Mint Var := do
  return ⟨← Symbol.mint name, ascription⟩

def newGlobal (name : String) : Mint Global := do
  return ⟨← Symbol.mint name⟩

def newHandle (name : String) : Mint Handle := do
  return ⟨← Symbol.mint name⟩

def newTypeParam (name : String) (kind : Kind := .type) : Mint TypeParam := do
  return ⟨← Symbol.mint name, kind⟩

def use (x : Var) : Mint Expr := return .var x

def global (g : Global) : Mint Expr := return .global g

def ctor (c : Ctor) : Mint Expr := return .ctor c

def op (name : String) : Mint Expr := do
  return .op (← Mint.serial) name

def constant (c : Constant) : Mint Expr := do
  return .constant (← Mint.serial) c

def int (n : Int) : Mint Expr := constant ⟨"int32", [], .int n⟩

def float (x : Float) : Mint Expr := constant ⟨"float32", [], .float x⟩

def ints (ns : List Int) : Mint Expr :=
  constant ⟨"int32", [.value (.int ns.length)], .list (ns.map .int)⟩

def fn (params : List Var) (body : Mint Expr) : Mint Expr := do
  let body ← body
  return .fn (← Mint.serial) params body none [] []

def call (callee : Mint Expr) (args : List (Mint Expr)) : Mint Expr := do
  let callee ← callee
  let args ← args.mapM id
  return .call (← Mint.serial) callee args none .empty

def letIn (x : Var) (value body : Mint Expr) : Mint Expr := do
  let value ← value
  let body ← body
  return .letIn (← Mint.serial) x value body

def tuple (fields : List (Mint Expr)) : Mint Expr := do
  let fields ← fields.mapM id
  return .tuple (← Mint.serial) fields

def proj (e : Mint Expr) (index : Int) : Mint Expr := do
  let e ← e
  return .proj (← Mint.serial) e (.int index)

def cond (test whenTrue whenFalse : Mint Expr) : Mint Expr := do
  let test ← test
  let whenTrue ← whenTrue
  let whenFalse ← whenFalse
  return .cond (← Mint.serial) test whenTrue whenFalse

def anything : Mint Pattern := do
  return .wildcard (← Mint.serial)

def binding (x : Var) : Mint Pattern := do
  return .var (← Mint.serial) x

def shape (c : Ctor) (subs : List (Mint Pattern)) : Mint Pattern := do
  let subs ← subs.mapM id
  return .ctor (← Mint.serial) c subs

def matchOn (subject : Mint Expr) (clauses : List (Mint Pattern × Mint Expr)) : Mint Expr := do
  let subject ← subject
  let clauses ← clauses.mapM fun (p, e) => do
    let p ← p
    let e ← e
    return (p, e)
  return .matchOn (← Mint.serial) subject clauses

end TensorTyping.Build
