import TensorTyping.Issue
import TensorTyping.Marks

/-!
# Sessions

What outlives a single operation: the supply of serial numbers and the marks on syntax.
-/
namespace TensorTyping

structure Session where
  supply : Supply := {}
  marks : Marks := {}
deriving Inhabited

/-- Computations in a session. What was done before a fault stays done. -/
abbrev SessionM := EStateM Fault Session

namespace SessionM

def mint {α : Type} (act : Mint α) : SessionM α := fun s =>
  let (a, supply) := act s.supply
  .ok a { s with supply }

def mark (f : Marks → Marks) : SessionM Unit := modify fun s => { s with marks := f s.marks }

def ofExcept {α : Type} : Except Fault α → SessionM α
  | .ok a => pure a
  | .error f => throw f

end SessionM

end TensorTyping
