import TensorTyping.Inference.State

/-!
# Generalisation

When the bodies of a group are typed, every cell that is left in its types becomes a type
parameter, and every relation instance that is left moves onto the signature of the function that
gave rise to it. An instance may hold cells that no type mentions, so long as other instances
connect them to cells that one does; an instance that connects to nothing could be settled only by
guessing.
-/
namespace TensorTyping.Inference

/-- The relation of an instance with its slots resolved and the attributes of its use. -/
def resolvedRelation (i : Instance) : InferM TypeRelation := do
  return { i.relation with args := ← resolveAll i.relation.args, attrs := i.attrs }

def resolvedRelations : List Instance → InferM (List TypeRelation)
  | [] => return []
  | i :: is => do
    let r ← resolvedRelation i
    let rs ← resolvedRelations is
    return r :: rs

def isPromised (promised : List TypeRelation) (r : TypeRelation) : Bool :=
  promised.any fun p => p.name == r.name && Ty.sameList p.args r.args

/-- The instances whose relations are promised. -/
def entailed (promised : List TypeRelation) : List Instance → InferM (List Nat)
  | [] => return []
  | i :: is => do
    let r ← resolvedRelation i
    let rest ← entailed promised is
    return if isPromised promised r then i.seq :: rest else rest

def promised (Γ : Context) (group : List Global) : List TypeRelation :=
  (group.filterMap Γ.declared?).flatMap fun s => s.relations

/-- Drop the pending instances that the declared signatures of a group promise. -/
def dischargeDeclared (Γ : Context) (group : List Global) (mark : Nat) : InferM Unit := do
  if (promised Γ group).isEmpty then return ()
  let seqs ← entailed (promised Γ group) ((← get).engine.pendingSince mark)
  onEngine (EngineM.detach seqs)

/-- A function of a group with the range of the instances that typing it added. -/
structure Span where
  function : Global
  after : Nat
  upTo : Nat

/-- Whether an instance was added while the function was typed. -/
def Span.covers (s : Span) (i : Instance) : Bool := s.after < i.seq && i.seq ≤ s.upTo

def checkOwned (spans : List Span) : List Instance → InferM Unit
  | [] => return ()
  | i :: is => do
    if spans.any fun s => s.covers i then checkOwned spans is
    else
      complain { kind := .ambiguousType, evidence := [.relation (← resolvedRelation i)],
                 site := i.origin }

/-- The instances that belong to a function: those that it covers and no function before it
does. -/
def ownedBy (spans : List Span) (g : Global) (instances : List Instance) : List Instance :=
  instances.filter fun i =>
    match spans.find? fun s => s.covers i with
    | some s => s.function == g
    | none => false

/-- One pass over the waiting relations: those that share a cell with the reached ones, or have
none, are let through and their cells are reached. -/
def reachPass : List Cell → List (Instance × TypeRelation) →
    List Cell × List (Instance × TypeRelation)
  | reached, [] => (reached, [])
  | reached, (i, r) :: rest =>
    let cells := cellsOf r.args
    if cells.isEmpty || cells.any reached.contains then
      reachPass (reached ++ cells.filter fun c => !reached.contains c) rest
    else
      let (reached, waiting) := reachPass reached rest
      (reached, (i, r) :: waiting)

/-- Passes until one lets nothing through. Each pass but the last shortens the list. -/
def reachWithin : Nat → List Cell → List (Instance × TypeRelation) →
    List Cell × List (Instance × TypeRelation)
  | 0, reached, waiting => (reached, waiting)
  | fuel + 1, reached, waiting =>
    let (reached', waiting') := reachPass reached waiting
    if waiting'.length = waiting.length then (reached', waiting')
    else reachWithin fuel reached' waiting'

/-- The cells that relations connect to the given ones, or the first relation that never
connects. -/
def reachable (cells : List Cell) (waiting : List (Instance × TypeRelation)) :
    Except (Instance × TypeRelation) (List Cell) :=
  match reachWithin (waiting.length + 1) cells waiting with
  | (reached, []) => .ok reached
  | (_, stuck :: _) => .error stuck

def freshNames (taken : List String) (n : Nat) : List String :=
  let candidates := (List.range (n + taken.length)).map fun i => variableName (i + 1)
  (candidates.filter fun name => !taken.contains name).take n

def bindParams : List Cell → List String → InferM Unit
  | c :: cs, name :: names => do
    let p : TypeParam := ⟨← onSession (SessionM.mint (Symbol.mint name)), .type⟩
    onEngine (EngineM.onStore (StoreM.bind (.cell c) (.param p) none))
    bindParams cs names
  | _, _ => return ()

def takeProvisional : List Global → InferM (List Ty)
  | [] => return []
  | g :: gs => do
    match (← get).provisional.get? g with
    | none => throw (.missing g.name)
    | some t =>
      modify fun s => { s with provisional := s.provisional.erase g }
      let u ← resolve t
      let us ← takeProvisional gs
      return u :: us

/-- A list of parameters with those of another that it lacks. -/
def addParams (params more : List TypeParam) : List TypeParam :=
  params ++ more.filter fun p => !params.contains p

def relationsOf (spans : List Span) (pending : List Instance) :
    List Span → InferM (List (List TypeRelation))
  | [] => return []
  | s :: rest => do
    let rs ← resolvedRelations (ownedBy spans s.function pending)
    let more ← relationsOf spans pending rest
    return rs :: more

def resolveRelations : List TypeRelation → InferM (List TypeRelation)
  | [] => return []
  | r :: rs => do
    let args ← resolveAll r.args
    let rest ← resolveRelations rs
    return { r with args } :: rest

def recordScheme (Γ : Context) (g : Global) (t : Ty) (rs : List TypeRelation) : InferM Unit := do
  match Γ.module.functions.get? g with
  | none => throw (.missing g.name)
  | some f =>
    let mono ← resolve t
    let rels ← resolveRelations rs
    let free := freeParamsOf (mono :: rels.flatMap fun r => r.args)
    match mono.signature? with
    | none => throw .notAFunctionType
    | some sig =>
      let scheme : Signature :=
        ⟨sig.args, sig.ret, addParams f.typeParams free, f.relations ++ rels⟩
      modify fun s => { s with schemes := s.schemes.insert g scheme }

def recordSchemes (Γ : Context) :
    List Span → List Ty → List (List TypeRelation) → InferM Unit
  | s :: spans, t :: ts, rs :: rss => do
    recordScheme Γ s.function t rs
    recordSchemes Γ spans ts rss
  | _, _, _ => return ()

def generalise (Γ : Context) (spans : List Span) (mark : Nat) : InferM Unit := do
  let pending := (← get).engine.pendingSince mark
  checkOwned spans pending
  onEngine (EngineM.detach (pending.map fun i => i.seq))
  let functions := spans.map fun s => s.function
  let monos ← takeProvisional functions
  let relations ← relationsOf spans pending spans
  let owned := functions.flatMap fun g => ownedBy spans g pending
  match reachable (cellsOf monos) (owned.zip relations.flatten) with
  | .error (i, r) =>
    complain { kind := .ambiguousType, evidence := [.relation r], site := i.origin }
  | .ok free =>
    let taken := (functions.filterMap Γ.module.functions.get?).flatMap fun f =>
      f.typeParams.map fun p => p.name
    bindParams free (freshNames taken free.length)
    recordSchemes Γ spans monos relations

end TensorTyping.Inference
