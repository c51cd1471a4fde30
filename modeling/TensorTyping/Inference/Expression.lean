import TensorTyping.Inference.Pattern
import TensorTyping.Inference.Reference

/-!
# Types of expressions

The type of an expression in an environment of local variables, by recursion on the expression.
Functions of the module that are not done yet are typed on demand, by the step `solve`.
-/
namespace TensorTyping.Inference

def paramTypes (Γ : Context) : List Var → InferM (List Ty)
  | [] => return []
  | x :: xs => do
    let t ← match x.ascription with
      | none => fresh
      | some t => do
        checkWritten Γ [t] (.expr (.var x))
        pure t
    note (.var x) t
    let ts ← paramTypes Γ xs
    return t :: ts

/-- Extend an environment; later variables shadow earlier ones. -/
def extend (env : Env) (xs : List Var) (ts : List Ty) : Env :=
  ((xs.zip ts).map fun (x, t) => (x.serial, t)).reverse ++ env

def unifyArgs : List Ty → List Ty → List Expr → InferM Unit
  | p :: ps, t :: ts, e :: es => do
    unify p t (.expr e)
    unifyArgs ps ts es
  | _, _, _ => return ()

/-- The result of a call, given what is called, how, and the types of the arguments. A function
that is not referred to directly may still be polymorphic, and is instantiated here. -/
def applyTo (Γ : Context) (site : Expr) (fnType : Ty) (direct : Option (List Ty))
    (args : List Expr) (argTypes : List Ty) (attrs : Attrs) : InferM (Ty × List Ty) := do
  let typeArgs := direct.getD []
  match ← find fnType with
  | .cell c => do
    let ret ← fresh
    unify (.cell c) (.func argTypes ret [] []) (.expr site)
    return (ret, typeArgs)
  | .func as r ps rs => do
    let (found, typeArgs) ←
      if !ps.isEmpty && direct.isNone then
        instantiate Γ ⟨as, r, ps, rs⟩ none (.expr site) attrs
      else pure (.func as r ps rs, typeArgs)
    match found with
    | .func as r _ _ =>
      if as.length ≠ argTypes.length then
        complain
          { kind := .arityMismatch, evidence := [.ofNat as.length, .ofNat argTypes.length],
            sentence := some "This function takes %s argument(s), but the call passes %s.",
            site := some (.expr site) }
      unifyArgs as argTypes args
      return (r, typeArgs)
    | _ => throw .notAFunctionType
  | t =>
    complain
      { kind := .kindMismatch, evidence := [.type (← resolve t)],
        sentence := some "Something of type %s cannot be called as a function.",
        site := some (.expr site) }

/-- The type of a projection out of something of type `t`. When the tuple is not known yet, a
relation waits for it. -/
def projectFrom (Γ : Context) (site : Expr) (t : Ty) (index : Index) : InferM Ty := do
  let outOfRange (shown : Ty) : Issue :=
    { kind := .indexOutOfRange, evidence := [.value index.toValue, .type shown],
      site := some (.expr site) }
  match ← find t with
  | .tuple ts =>
    if index.toInt < 0 then complain (outOfRange (.tuple ts))
    else match ts[index.toInt.toNat]? with
      | some u => return u
      | none => complain (outOfRange (.tuple ts))
  | found =>
    if index.toInt < 0 then complain (outOfRange t)
    match found with
    | .cell _ => do
      let out ← fresh
      relate Γ ⟨"TupleGetItem", [t, out], 1, .ofList [("index", index.toValue)]⟩ (.expr site)
        .empty
      return out
    | _ =>
      complain
        { kind := .kindMismatch, evidence := [.type found],
          sentence := some "Only a tuple can be projected, but this is %s.",
          site := some (.expr site) }

/-- Make the types of the later branches equal to that of the first, each at its own body. -/
def unifyBranches (result : Ty) : List (Expr × Ty) → InferM Unit
  | [] => return ()
  | (body, t) :: rest => do
    unify result t (.expr body)
    unifyBranches result rest

mutual
def infer (Γ : Context) (solve : Global → InferM Unit) : Expr → Env → InferM Ty
  | .var x, env => typed (.var x) do
    match env.lookup x.serial with
    | some t => return t
    | none => complain (.unboundName x.name (some (.expr (.var x))))
  | .global g, _ => typed (.global g) do
    match ← reference Γ solve (.global g) none (.expr (.global g)) .empty with
    | some (t, _) => return t
    | none => throw .notAFunctionType
  | .op n name, _ => typed (.op n name) do
    match ← reference Γ solve (.op n name) none (.expr (.op n name)) .empty with
    | some (t, _) => return t
    | none => throw .notAFunctionType
  | .ctor c, _ => typed (.ctor c) do
    match ← reference Γ solve (.ctor c) none (.expr (.ctor c)) .empty with
    | some (t, _) => return t
    | none => throw .notAFunctionType
  | .constant n c, _ => typed (.constant n c) do
    match Ty.ofEntries c.shape c.dtype with
    | .ok t => return t
    | .error f => throw f
  | .fn n params body ret typeParams relations, env =>
    let site : Expr := .fn n params body ret typeParams relations
    typed site <| withScope typeParams do
      let ts ← paramTypes Γ params
      let bodyType ← infer Γ solve body (extend env params ts)
      let result ← match ret with
        | none => pure bodyType
        | some r => do
          checkWritten Γ [r] (.expr site)
          unify r bodyType (.expr body)
          pure r
      checkWritten Γ (relations.flatMap fun r => r.args) (.expr site)
      if typeParams.isEmpty then relateAll Γ (.expr site) .empty relations
      return .func ts result typeParams relations
  | .call n callee args typeArgs attrs, env =>
    let site : Expr := .call n callee args typeArgs attrs
    typed site do
      let (fnType, direct) ← match ← reference Γ solve callee typeArgs (.expr site) attrs with
        | some (t, given) => do
          note callee t
          pure (t, some given)
        | none => do
          let given := typeArgs.getD []
          if !given.isEmpty then
            complain (.typeArgumentArity 0 given.length (some (.expr site)))
          let t ← infer Γ solve callee env
          pure (t, none)
      let argTypes ← inferList Γ solve args env
      let (result, given) ← applyTo Γ site fnType direct args argTypes attrs
      modify fun s => { s with callArgs := s.callArgs.insert n given }
      return result
  | .letIn n x value body, env =>
    typed (.letIn n x value body) do
      let t ← match value.function? with
        | some _ => do
          let t ← fresh
          let u ← infer Γ solve value ((x.serial, t) :: env)
          unify t u (.expr value)
          pure t
        | none => infer Γ solve value env
      match x.ascription with
      | some a =>
        checkWritten Γ [a] (.expr (.var x))
        unify a t (.expr (.letIn n x value body))
      | none => pure ()
      note (.var x) t
      infer Γ solve body ((x.serial, t) :: env)
  | .tuple n fields, env => typed (.tuple n fields) do
    return .tuple (← inferList Γ solve fields env)
  | .proj n tuple index, env =>
    typed (.proj n tuple index) do
      let t ← infer Γ solve tuple env
      projectFrom Γ (.proj n tuple index) t index
  | .cond n test whenTrue whenFalse, env =>
    typed (.cond n test whenTrue whenFalse) do
      let c ← infer Γ solve test env
      unify .bool c (.expr test)
      let t ← infer Γ solve whenTrue env
      let u ← infer Γ solve whenFalse env
      unify t u (.expr (.cond n test whenTrue whenFalse))
      return t
  | .matchOn n subject clauses, env =>
    typed (.matchOn n subject clauses) do
      let t ← infer Γ solve subject env
      checkSubject false subject t
      match ← inferClauses Γ solve t clauses env with
      | [] => fresh
      | (_, result) :: rest =>
        unifyBranches result rest
        modify fun s => { s with scrutinees := s.scrutinees ++ [(subject, t)] }
        return result
def inferList (Γ : Context) (solve : Global → InferM Unit) : List Expr → Env → InferM (List Ty)
  | [], _ => return []
  | e :: es, env => do
    let t ← infer Γ solve e env
    let ts ← inferList Γ solve es env
    return t :: ts
def inferClauses (Γ : Context) (solve : Global → InferM Unit) (subject : Ty) :
    List (Pattern × Expr) → Env → InferM (List (Expr × Ty))
  | [], _ => return []
  | (p, body) :: rest, env => do
    let bound ← checkPattern Γ p subject
    notePattern p subject
    let t ← infer Γ solve body (bound ++ env)
    let ts ← inferClauses Γ solve subject rest env
    return (body, t) :: ts
end

end TensorTyping.Inference
