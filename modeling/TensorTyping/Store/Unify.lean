import TensorTyping.Store.Basic
import TensorTyping.Ty.Equality

/-!
# Unification

Two types are made equal by binding cells. Work goes breadth first: a round takes every pair of
one depth, brings both sides to what they stand for, and leaves the pairs of their parts for the
next round. A pair is dropped when its sides are equal, binds a cell when either side is one, and
otherwise has to be of one form.

The pairs of a round lie one level deeper in the resolved types than those of the round before,
and no resolved type is nested more deeply than its own height plus that of one bound type for
each cell. This bounds the number of rounds.
-/
namespace TensorTyping

/-- The pairs of parts that have to be equal for two types to be, or the kind of their
mismatch. -/
def Ty.parts : Ty → Ty → Except IssueKind (List (Ty × Ty))
  | .tensor s d, .tensor s' d' =>
    if d ≠ d' then .error .dtypeMismatch
    else if s.agree s' then .ok []
    else .error .shapeMismatch
  | .tuple ts, .tuple ts' =>
    if ts.length = ts'.length then .ok (ts.zip ts') else .error .arityMismatch
  | .func as r _ _, .func as' r' _ _ =>
    if as.length = as'.length then .ok (as.zip as' ++ [(r, r')]) else .error .arityMismatch
  | .data h as, .data h' as' =>
    if h ≠ h' then .error .dataMismatch
    else if as.length = as'.length then .ok (as.zip as')
    else .error .arityMismatch
  | _, _ => .error .kindMismatch

namespace StoreM

/-- Settle one pair, leaving the pairs of its parts. -/
def unifyPair (site : Option Phrase) (x y : Ty) : StoreM (List (Ty × Ty)) := do
  let x ← find x
  let y ← find y
  if x.same y then return []
  match x, y with
  | .cell _, _ => bind x y site; return []
  | _, .cell _ => bind y x site; return []
  | _, _ =>
    match Ty.parts x y with
    | .ok pairs => return pairs
    | .error .kindMismatch =>
      throw (.issue { kind := .kindMismatch,
                      evidence := [.type (← resolve x), .type (← resolve y)], site })
    | .error kind => throw (.issue { kind, evidence := [.type x, .type y], site })

def unifyRound (site : Option Phrase) : List (Ty × Ty) → StoreM (List (Ty × Ty))
  | [] => return []
  | (x, y) :: pairs => do
    let parts ← unifyPair site x y
    let rest ← unifyRound site pairs
    return parts ++ rest

def unifyWithin (site : Option Phrase) : Nat → List (Ty × Ty) → StoreM Unit
  | _, [] => return ()
  | 0, _ :: _ => throw .outOfFuel
  | fuel + 1, pair :: pairs => do unifyWithin site fuel (← unifyRound site (pair :: pairs))

/-- How many rounds the unification of two types may take. -/
def rounds (s : Store) (a b : Ty) : Nat :=
  (max s.height (max a.height b.height) + 1) * (s.size + 1)

def unify (a b : Ty) (site : Option Phrase) : StoreM Unit := do
  unifyWithin site (rounds (← get) a b) [(a, b)]

end StoreM

end TensorTyping
