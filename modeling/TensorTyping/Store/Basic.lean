import TensorTyping.Issue
import TensorTyping.Ty.Substitution

/-!
# Stores of cells

A store owns the cells of one run and says what each has become. A cell is free, bound to a type
that is not a cell, or linked to another cell that it has been made equal to. Following the links
leads to the root of a cell. Binding is the only change; every root that is bound or linked is
written on the trail. Paths are shortened when they are followed, which no later answer shows.

All questions about a store go through `peek`, what a cell stands for at the top. Deep resolution
follows cells inside bound types; since no type may contain a cell that stands for it, a nest of
bound cells is never deeper than the number of cells.
-/
namespace TensorTyping

/-- What a store knows of one cell. -/
inductive Slot where
  | free
  | link (target : Nat)
  | bound (t : Ty)
deriving Inhabited

/-- The cells of one run. -/
structure Store where
  serial : Serial := 0
  slots : Array Slot := #[]
  /-- The roots that were bound or linked, oldest first. -/
  trail : Array Nat := #[]
  /-- No bound type is nested more deeply than this. -/
  height : Nat := 0
deriving Inhabited

namespace Ty

mutual
def height : Ty → Nat
  | .tensor .. | .param _ | .cell _ | .handle _ => 0
  | .tuple ts => heightList ts + 1
  | .func as r _ _ => max (heightList as) r.height + 1
  | .data _ as => heightList as + 1
def heightList : List Ty → Nat
  | [] => 0
  | t :: ts => max t.height (heightList ts)
end

end Ty

namespace Store

def size (s : Store) : Nat := s.slots.size

def owns (s : Store) (c : Cell) : Bool := c.store == s.serial && decide (c.index < s.size)

def ownsAll (s : Store) (t : Ty) : Bool := t.cellOccurrences.all s.owns

def cellAt (s : Store) (i : Nat) : Cell := ⟨s.serial, i⟩

def cells (s : Store) : List Cell := (List.range s.size).map s.cellAt

/-- Follow at most `fuel` links. -/
def rootWithin (slots : Array Slot) : Nat → Nat → Nat
  | 0, i => i
  | fuel + 1, i =>
    match slots[i]? with
    | some (.link j) => rootWithin slots fuel j
    | _ => i

def root (s : Store) (i : Nat) : Nat := rootWithin s.slots s.size i

/-- What a cell stands for at the top: its bound type, or else its root. -/
def peek (s : Store) (c : Cell) : Ty :=
  if s.owns c then
    let r := s.root c.index
    match s.slots[r]? with
    | some (.bound t) => t
    | _ => .cell (s.cellAt r)
  else .cell c

/-- Point every cell on the way from `i` straight at `r`. -/
def shortenWithin (r : Nat) : Nat → Nat → Array Slot → Array Slot
  | 0, _, slots => slots
  | fuel + 1, i, slots =>
    match slots[i]? with
    | some (.link j) =>
      if j = r then slots else shortenWithin r fuel j (slots.setIfInBounds i (.link r))
    | _ => slots

def shorten (s : Store) (i : Nat) : Store :=
  { s with slots := shortenWithin (s.root i) s.size i s.slots }

/-- Resolve a type through at most `fuel` nested bound cells. -/
def resolveWithin (s : Store) : Nat → Ty → Ty
  | 0, t => t
  | fuel + 1, t => t.mapCells fun c =>
    match s.peek c with
    | .cell r => .cell r
    | u => resolveWithin s fuel u

/-- Replace every cell in a type with what it has become, as far as is known. -/
def resolve (s : Store) (t : Ty) : Ty := s.resolveWithin (s.size + 1) t

/-- Resolve a type all of whose cells belong to the store. -/
def resolve? (s : Store) (t : Ty) : Except Fault Ty :=
  if s.ownsAll t then .ok (s.resolve t) else .error .foreignCell

/-- Shorten the paths from the given cells, and from the cells in what they are bound to, through
at most `fuel` nested bound cells. -/
def shortenAll : Nat → List Cell → Store → Store
  | 0, _, s => s
  | fuel + 1, cs, s => cs.foldl (fun s c =>
    let s := s.shorten c.index
    match s.peek c with
    | .cell _ => s
    | u => shortenAll fuel u.cellOccurrences s) s

/-- Shorten every path that the resolution of a type follows. It ends at the first cell of some
other store. -/
def shortenThrough (s : Store) (t : Ty) : Store :=
  shortenAll (s.size + 1) (t.cellOccurrences.takeWhile s.owns) s

def fresh (s : Store) : Cell × Store :=
  (s.cellAt s.size, { s with slots := s.slots.push .free })

/-- Write what a root has become, and note it on the trail. -/
def settle (s : Store) (i : Nat) (x : Slot) (height : Nat) : Store :=
  { s with
    slots := s.slots.setIfInBounds i x
    trail := s.trail.push i
    height := max s.height height }

@[simp] theorem size_fresh (s : Store) : s.fresh.2.size = s.size + 1 := by
  simp [fresh, size]

@[simp] theorem size_settle (s : Store) (i : Nat) (x : Slot) (h : Nat) :
    (s.settle i x h).size = s.size := by
  simp [settle, size]

theorem size_shortenWithin (r fuel i : Nat) (slots : Array Slot) :
    (shortenWithin r fuel i slots).size = slots.size := by
  induction fuel generalizing i slots with
  | zero => rfl
  | succ fuel ih =>
    unfold shortenWithin
    split
    · split
      · rfl
      · rw [ih, Array.size_setIfInBounds]
    · rfl

@[simp] theorem size_shorten (s : Store) (i : Nat) : (s.shorten i).size = s.size :=
  size_shortenWithin _ _ _ _

/-- The roots noted on the trail since it had the given length. -/
def heardSince (s : Store) (n : Nat) : List Nat := (s.trail.extract n s.trail.size).toList

/-- A store with a number of free cells. -/
def withCells (serial : Serial) (n : Nat) : Store :=
  { serial, slots := Array.replicate n .free }

end Store

/-- Computations on a store. What was done before a fault stays done. -/
abbrev StoreM := EStateM Fault Store

namespace StoreM

def fresh : StoreM Ty := fun s =>
  let (c, s') := s.fresh
  .ok (.cell c) s'

def find : Ty → StoreM Ty
  | .cell c => fun s =>
    if s.owns c then .ok (s.peek c) (s.shorten c.index) else .error .foreignCell s
  | t => pure t

def resolve (t : Ty) : StoreM Ty := fun s =>
  match s.resolve? t with
  | .ok u => .ok u (s.shortenThrough t)
  | .error e => .error e (s.shortenThrough t)

def freeCells (t : Ty) : StoreM (List Cell) := return (← resolve t).cells

/-- Make a free cell stand for a type. A cell may not come to stand for a type that contains it. -/
def bind (v t : Ty) (site : Option Phrase) : StoreM Unit := do
  match ← find v with
  | .cell v =>
    match ← find t with
    | .cell u => if u = v then pure () else modify fun s => s.settle v.index (.link u.index) 0
    | t =>
      if v ∈ (← freeCells t) then
        throw (.issue { kind := .occursCheck, evidence := [.type (.cell v), .type t], site })
      else modify fun s => s.settle v.index (.bound t) t.height
  | _ => throw .notFree

end StoreM

end TensorTyping
