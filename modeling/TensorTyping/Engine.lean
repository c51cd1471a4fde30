import TensorTyping.Relation.Registry
import TensorTyping.Store.Unify

/-!
# The relation engine

An engine joins a store with the relation instances that wait on it. Instances are tried in the
order in which they were added. One that cannot be decided sleeps, watching the free cells of its
slots; when a watched cell is bound it becomes dirty and goes back into the queue. One that holds
is discharged, after its conclusion was unified with its output slot.

An instance is in the queue at most once while it is dirty. It is woken at most once for each cell
that is bound, and a cell is bound only once, which bounds the number of attempts.
-/
namespace TensorTyping

/-- One use of a relation. -/
structure Instance where
  /-- Its place in the order of addition. -/
  seq : Nat
  relation : TypeRelation
  /-- The phrase that gave rise to it. -/
  origin : Option Phrase
  attrs : Attrs
  dirty : Bool

namespace Instance

def text (i : Instance) : String := "<" ++ toString i.seq ++ ":" ++ i.relation.text ++ ">"

end Instance

/-- A store and the instances that wait on it. -/
structure Engine where
  store : Store := {}
  /-- The instances not yet discharged, in order of addition. -/
  pending : List Instance := []
  /-- The numbers of instances to try, ascending. -/
  queue : List Nat := []
  /-- Which instance watches which root. -/
  watchers : List (Nat × Nat) := []
  /-- The number of instances added so far. -/
  added : Nat := 0

namespace Engine

def instance? (e : Engine) (seq : Nat) : Option Instance :=
  e.pending.find? fun i => i.seq == seq

def insertSorted (n : Nat) : List Nat → List Nat
  | [] => [n]
  | m :: ms => if n ≤ m then n :: m :: ms else m :: insertSorted n ms

def setDirty (e : Engine) (seq : Nat) (dirty : Bool) : Engine :=
  { e with pending := e.pending.map fun i => if i.seq == seq then { i with dirty } else i }

def wake (e : Engine) (seq : Nat) : Engine :=
  match e.instance? seq with
  | some i =>
    if i.dirty then e
    else { e.setDirty seq true with queue := insertSorted seq e.queue }
  | none => e

/-- Wake the watchers of a root that was bound. -/
def hear (e : Engine) (root : Nat) : Engine :=
  let woken := e.watchers.filterMap fun w => if w.1 == root then some w.2 else none
  woken.foldl wake { e with watchers := e.watchers.filter fun w => w.1 != root }

def watch (e : Engine) (seq root : Nat) : Engine :=
  if e.watchers.contains (root, seq) then e
  else { e with watchers := e.watchers ++ [(root, seq)] }

def discharge (e : Engine) (seq : Nat) : Engine :=
  { e with pending := e.pending.filter fun i => i.seq != seq }

/-- The pending instances added after a mark. -/
def pendingSince (e : Engine) (mark : Nat) : List Instance :=
  e.pending.filter fun i => mark < i.seq

/-- The instance number that a whole number is, if it has been given to an instance. -/
def number? (e : Engine) (n : Int) : Option Nat :=
  if 0 < n ∧ n ≤ e.added then some n.toNat else none

/-- How many instances may be taken from the queue before it runs dry. -/
def attempts (e : Engine) : Nat := e.queue.length + e.store.size * e.pending.length + 1

end Engine

/-- Computations on an engine. What was done before a fault stays done. -/
abbrev EngineM := EStateM Fault Engine

namespace EngineM

/-- Work on the store, and let the watchers hear of every root that was bound. -/
def onStore {α : Type} (act : StoreM α) : EngineM α := fun e =>
  let before := e.store.trail.size
  match act e.store with
  | .ok a s => .ok a ((s.heardSince before).foldl Engine.hear { e with store := s })
  | .error f s => .error f ((s.heardSince before).foldl Engine.hear { e with store := s })

/-- Blame a phrase for an issue that blames none. -/
def blaming {α : Type} (site : Option Phrase) (act : EngineM α) : EngineM α := fun e =>
  match act e with
  | .ok a e => .ok a e
  | .error f e => .error (f.blame site) e

def ofExcept {α : Type} : Except Fault α → EngineM α
  | .ok a => pure a
  | .error f => throw f

def resolveAll : List Ty → EngineM (List Ty)
  | [] => return []
  | t :: ts => do
    let u ← onStore (StoreM.resolve t)
    let us ← resolveAll ts
    return u :: us

/-- Add an instance of a relation whose own attributes are overridden by those of its use. -/
def add (registry : Registry) (relation : TypeRelation) (origin : Option Phrase)
    (attrs : Attrs) : EngineM Instance := do
  let entry ← ofExcept (registry.lookup relation.name origin)
  match entry.arity with
  | some n =>
    if n ≠ relation.args.length then
      throw (.issue
        { kind := .arityMismatch
          evidence := [.ofText relation.name, .value (.int n), .ofNat relation.args.length]
          sentence := some "The relation %s takes %s types, but this use gives it %s."
          site := origin })
  | none => pure ()
  let seq := (← get).added + 1
  let i : Instance := ⟨seq, relation, origin, relation.attrs.merge attrs, true⟩
  modify fun e => { e with
    added := seq
    pending := e.pending ++ [i]
    queue := Engine.insertSorted seq e.queue }
  return i

def watchAll (seq : Nat) : List Ty → EngineM Unit
  | [] => return ()
  | t :: ts => do
    let cells ← onStore (StoreM.freeCells t)
    modify fun e => cells.foldl (fun e c => e.watch seq c.index) e
    watchAll seq ts

def assign (i : Instance) (slot : Nat) (t : Ty) : EngineM Unit :=
  match i.relation.args[slot]? with
  | some arg => onStore (StoreM.unify arg t i.origin)
  | none => throw .missingSlot

def attempt (registry : Registry) (i : Instance) : EngineM Unit := do
  let entry ← ofExcept (registry.lookup i.relation.name i.origin)
  let types ← resolveAll i.relation.args
  match ← blaming i.origin (ofExcept (entry.rule.verdict types i.attrs)) with
  | .holds slot t =>
    blaming i.origin (assign i slot t)
    modify fun e => e.discharge i.seq
  | .fails =>
    let final ← resolveAll i.relation.args
    throw (.issue
      { kind := .relationViolation
        evidence := [.ofText i.relation.name, .list (final.map .type)]
        site := i.origin })
  | .indeterminate => watchAll i.seq i.relation.args

/-- Try the first instance of the queue, and tell whether there was one. -/
def step (registry : Registry) : EngineM Bool := do
  match (← get).queue with
  | [] => return false
  | seq :: rest =>
    modify fun e => { e with queue := rest }
    match (← get).instance? seq with
    | some i =>
      if i.dirty then
        modify fun e => e.setDirty seq false
        attempt registry { i with dirty := false }
    | none => pure ()
    return true

def propagateWithin (registry : Registry) : Nat → EngineM Unit
  | 0 => do unless (← get).queue.isEmpty do throw .outOfFuel
  | fuel + 1 => do if ← step registry then propagateWithin registry fuel

/-- Work until every pending instance sleeps. -/
def propagate (registry : Registry) : EngineM Unit := do
  propagateWithin registry (← get).attempts

def detach : List Nat → EngineM Unit
  | [] => return ()
  | seq :: seqs => do
    match (← get).instance? seq with
    | some _ => modify fun e => e.discharge seq
    | none => throw (.missing (toString seq))
    detach seqs

/-- Instance numbers, or the first that was never given to an instance. -/
def numbered : List Int → EngineM (List Nat)
  | [] => return []
  | n :: ns => do
    match (← get).number? n with
    | none => throw (.missing (toString n))
    | some seq =>
      let seqs ← numbered ns
      return seq :: seqs

/-- Take instances out of play by their numbers. All numbers are looked up before any instance is
taken. -/
def detachNumbered (ns : List Int) : EngineM Unit := do detach (← numbered ns)

/-- Work until every instance is discharged; one that is left could be settled only by
guessing. -/
def finish (registry : Registry) : EngineM Unit := do
  propagate registry
  match (← get).pending with
  | [] => return ()
  | i :: _ =>
    let args ← resolveAll i.relation.args
    throw (.issue
      { kind := .ambiguousType, evidence := [.relation { i.relation with args }],
        site := i.origin })

end EngineM

end TensorTyping
