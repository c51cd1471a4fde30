import TensorTyping.Value

/-!
# Shapes

A shape is a list of dimensions. A dimension is a known size or a named one; a named size is only
known when the program runs and agrees with every other.
-/
namespace TensorTyping

inductive Dim where
  | known (n : Nat)
  | named (name : String)
deriving DecidableEq, Repr, Inhabited

namespace Dim

/-- The size that stands for a sum with an unknown part. -/
def any : Dim := .named "any"

def text : Dim → String
  | .known n => toString n
  | .named name => name

def agree : Dim → Dim → Bool
  | .known m, .known n => m == n
  | _, _ => true

/-- The size of two dimensions stretched together: a one gives way, then a named size does. -/
def stretch? (d e : Dim) : Option Dim :=
  if d = e then some d
  else if d = .known 1 then some e
  else if e = .known 1 then some d
  else match d, e with
    | .named _, _ => some e
    | _, .named _ => some d
    | _, _ => none

def join : Dim → Dim → Dim
  | .known m, .known n => .known (m + n)
  | _, _ => any

@[simp] theorem agree_self (d : Dim) : d.agree d = true := by
  cases d <;> simp [agree]

theorem agree_comm (d e : Dim) : d.agree e = e.agree d := by
  cases d <;> cases e <;> simp [agree, Bool.beq_comm]

end Dim

/-- The dimensions of a tensor, outermost first. -/
abbrev Shape := List Dim

namespace Shape

/-- The sizes with ones in front, up to the given rank. -/
def padTo {α : Type} (one : α) (rank : Nat) (s : List α) : List α :=
  List.replicate (rank - s.length) one ++ s

/-- Stretch two lists of sizes of the same length, size by size. -/
def stretchEach? {α : Type} (stretch? : α → α → Option α) : List α → List α → Option (List α)
  | d :: s, e :: t =>
    match stretch? d e, stretchEach? stretch? s t with
    | some x, some r => some (x :: r)
    | _, _ => none
  | _, _ => some []

/-- Stretch two lists of sizes, aligned at the innermost one. -/
def stretchAligned? {α : Type} (one : α) (stretch? : α → α → Option α) (s t : List α) :
    Option (List α) :=
  let rank := max s.length t.length
  stretchEach? stretch? (padTo one rank s) (padTo one rank t)

def broadcast? (s t : Shape) : Option Shape := stretchAligned? (.known 1) Dim.stretch? s t

/-- Whether two shapes have the same rank and dimensions that agree. -/
def agree : Shape → Shape → Bool
  | [], [] => true
  | d :: s, e :: t => d.agree e && agree s t
  | _, _ => false

theorem length_padTo {α : Type} (one : α) (rank : Nat) (s : List α) :
    (padTo one rank s).length = max rank s.length := by
  simp [padTo]
  omega

@[simp] theorem agree_self (s : Shape) : s.agree s = true := by
  induction s with
  | nil => rfl
  | cons d s ih => simp [agree, ih]

theorem agree_comm (s t : Shape) : s.agree t = t.agree s := by
  induction s generalizing t with
  | nil => cases t <;> rfl
  | cons d s ih =>
    cases t with
    | nil => rfl
    | cons e t => simp only [agree, ih t, Dim.agree_comm d e]

end Shape

/-- What is written in the place of a dimension: a name, or a value that may or may not be a size. -/
inductive DimEntry where
  | named (name : String)
  | value (v : Value)
deriving Inhabited

namespace DimEntry

def dim? : DimEntry → Option Dim
  | .named name => some (.named name)
  | .value (.int n) => if 0 ≤ n then some (.known n.toNat) else none
  | .value _ => none

def text : DimEntry → String
  | .named name => name
  | .value v => v.written

def isNamed : DimEntry → Bool
  | .named _ => true
  | .value _ => false

def same : DimEntry → DimEntry → Bool
  | .named a, .named b => a == b
  | .value v, .value w => v.same w
  | _, _ => false

def one : DimEntry := .value (.int 1)

/-- Whether two entries may stand for the same size. -/
def agree (d e : DimEntry) : Bool := d.same e || d.isNamed || e.isNamed

/-- The entry for two entries stretched together, by the rule for dimensions. Whether an entry gives
a dimension makes no difference. -/
def stretch? (d e : DimEntry) : Option DimEntry :=
  if d.same e then some d
  else if d.same one then some e
  else if e.same one then some d
  else if d.isNamed then some e
  else if e.isNamed then some d
  else none

/-- The common entries of two operands, aligned at the innermost one. -/
def broadcast? (s t : List DimEntry) : Option (List DimEntry) :=
  Shape.stretchAligned? one stretch? s t

end DimEntry

namespace Dim

def toEntry : Dim → DimEntry
  | .known n => .value (.int n)
  | .named name => .named name

@[simp] theorem dim?_toEntry (d : Dim) : d.toEntry.dim? = some d := by
  cases d <;> simp [toEntry, DimEntry.dim?]

theorem same_toEntry (d e : Dim) : d.toEntry.same e.toEntry = decide (d = e) := by
  cases d with
  | known m =>
    cases e with
    | known n =>
      simp only [toEntry, DimEntry.same, Value.same, Value.numeral?, Numeral.same,
        Bool.beq_eq_decide_eq, Rat.intCast_inj, Int.ofNat_inj, Dim.known.injEq]
    | named _ => simp [toEntry, DimEntry.same]
  | named a =>
    cases e with
    | known _ => simp [toEntry, DimEntry.same]
    | named b => simp [toEntry, DimEntry.same, Bool.beq_eq_decide_eq]

theorem agree_toEntry (d e : Dim) : d.toEntry.agree e.toEntry = d.agree e := by
  unfold DimEntry.agree
  rw [same_toEntry]
  cases d <;> cases e <;> simp [toEntry, agree, DimEntry.isNamed, Bool.beq_eq_decide_eq]

end Dim

/-- The shape that entries give, or the first entry that gives no dimension. -/
def Shape.ofEntries : List DimEntry → Except DimEntry Shape
  | [] => .ok []
  | d :: ds =>
    match d.dim? with
    | none => .error d
    | some x => (Shape.ofEntries ds).map (x :: ·)

end TensorTyping
