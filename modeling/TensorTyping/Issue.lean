import TensorTyping.Expr.Literal
import TensorTyping.Expr.Printer
import TensorTyping.Text.Template

/-!
# Issues and faults

An issue is a type error: its kind, the evidence, perhaps a sentence of its own, and the phrase to
blame. A fault is any reason for an operation to stop; most are misuse by the caller, and an issue
is the one that a report can show. The wording of all of them is here.
-/
namespace TensorTyping

inductive IssueKind where
  | kindMismatch
  | shapeMismatch
  | dtypeMismatch
  | arityMismatch
  | occursCheck
  | typeArgumentArity
  | indexOutOfRange
  | dataMismatch
  | relationViolation
  | ambiguousType
  | unboundName
deriving DecidableEq, Repr

namespace IssueKind

def name : IssueKind → String
  | .kindMismatch => "KindMismatch"
  | .shapeMismatch => "ShapeMismatch"
  | .dtypeMismatch => "DTypeMismatch"
  | .arityMismatch => "ArityMismatch"
  | .occursCheck => "OccursCheckFailure"
  | .typeArgumentArity => "TypeArgumentArityError"
  | .indexOutOfRange => "IndexOutOfRange"
  | .dataMismatch => "AdtMismatch"
  | .relationViolation => "RelationViolation"
  | .ambiguousType => "AmbiguousType"
  | .unboundName => "UnboundName"

def all : List IssueKind :=
  [.kindMismatch, .shapeMismatch, .dtypeMismatch, .arityMismatch, .occursCheck,
    .typeArgumentArity, .indexOutOfRange, .dataMismatch, .relationViolation, .ambiguousType,
    .unboundName]

def ofName? (s : String) : Option IssueKind := all.find? fun k => k.name == s

/-- The usual sentence of a kind, with a hole for each piece of evidence. -/
def sentence : IssueKind → String
  | .kindMismatch =>
    "This tries to be both %s and also %s, which are not even the same sort of thing."
  | .shapeMismatch => "The shapes of %s and %s do not agree."
  | .dtypeMismatch => "This tries to be both %s and also %s, but the element types differ."
  | .arityMismatch =>
    "This tries to be both %s and also %s, but they have different numbers of parts."
  | .occursCheck =>
    "This tries to equate %s with %s which contains it, but a type cannot be part of itself."
  | .typeArgumentArity => "%s type-arguments are needed; %s were given."
  | .indexOutOfRange => "Index %s is out of range for the tuple type %s."
  | .dataMismatch => "This tries to be both %s and also %s, which are different data types."
  | .relationViolation => "The relation %s does not hold among %s."
  | .ambiguousType => "I cannot work out a definite type here. The best I can say is %s."
  | .unboundName => "I don't see what '%s' refers to."

end IssueKind

inductive Evidence where
  | type (t : Ty)
  | relation (r : TypeRelation)
  | value (v : Value)
  | list (items : List Evidence)
deriving Inhabited

namespace Evidence

def ofText (s : String) : Evidence := .value (.text s)

def ofNat (n : Nat) : Evidence := .value (.int n)

mutual
/-- The types that are printed together with the rest of the evidence. A relation is printed
alone. -/
def types : Evidence → List Ty
  | .type t => [t]
  | .relation _ | .value _ => []
  | .list items => typesList items
def typesList : List Evidence → List Ty
  | [] => []
  | e :: es => e.types ++ typesList es
end

mutual
def mapTypes (f : Ty → Ty) : Evidence → Evidence
  | .type t => .type (f t)
  | .relation r => .relation r
  | .value v => .value v
  | .list items => .list (mapTypesList f items)
def mapTypesList (f : Ty → Ty) : List Evidence → List Evidence
  | [] => []
  | e :: es => e.mapTypes f :: mapTypesList f es
end

mutual
/-- The text of evidence, given the cells that are named by position. -/
def textWith (names : List Cell) : Evidence → String
  | .type t => t.textWith names
  | .relation r => r.text
  | .value v => v.plain
  | .list items => Ty.parenthesised (textsWith names items)
def textsWith (names : List Cell) : List Evidence → List String
  | [] => []
  | e :: es => e.textWith names :: textsWith names es
end

end Evidence

structure Issue where
  kind : IssueKind
  evidence : List Evidence
  /-- The sentence, if it is not the usual one of the kind. -/
  sentence : Option String := none
  /-- The phrase to blame. -/
  site : Option Phrase := none

namespace Issue

def blame (i : Issue) (site : Option Phrase) : Issue :=
  match i.site with
  | some _ => i
  | none => { i with site := site }

/-- The sentence of an issue. All its evidence is printed together. -/
def message (i : Issue) : Except Text.TemplateError String :=
  let names := cellsOf (Evidence.typesList i.evidence)
  Text.fill (i.sentence.getD i.kind.sentence) (Evidence.textsWith names i.evidence)

def mapTypes (f : Ty → Ty) (i : Issue) : Issue :=
  { i with evidence := Evidence.mapTypesList f i.evidence }

def unboundName (name : String) (site : Option Phrase) : Issue :=
  { kind := .unboundName, evidence := [.ofText name], site }

/-- A number of type arguments other than the one that is needed. -/
def typeArgumentArity (needed given : Nat) (site : Option Phrase) : Issue :=
  { kind := .typeArgumentArity, evidence := [.ofNat needed, .ofNat given], site }

end Issue

inductive Fault where
  | issue (i : Issue)
  /-- A value that is no literal tensor. -/
  | literal (e : LiteralError)
  /-- An entry that is no dimension. -/
  | notADimension (d : DimEntry)
  /-- A text in the place of a number that writes none. -/
  | notANumeral (text : String)
  /-- A key that a table lacks. -/
  | missing (key : String)
  /-- A name that is defined already. -/
  | duplicate (name : String)
  /-- A cell that belongs to some other store. -/
  | foreignCell
  /-- Something other than a free cell where one has to be bound. -/
  | notFree
  /-- A relation or operator that is registered already. -/
  | registered (name : String)
  /-- An operator declared with a type that is no function type. -/
  | notAFunctionType
  /-- A definition that is no function. -/
  | notAFunction
  /-- A constructor given to a data type that it does not belong to. -/
  | strayConstructor
  /-- A projection by something other than a whole number. -/
  | notAnIndex
  /-- A relation that reaches for a slot that is not there. -/
  | missingSlot
  /-- An attribute of a sort that its use does not admit. -/
  | unfitAttribute
  /-- A count that is beyond every length. -/
  | countTooBig
  /-- A result that is too large to be held. -/
  | tooLarge
  /-- A sentence that does not fit its evidence. -/
  | template (e : Text.TemplateError)
  /-- A report that has reached its limit. -/
  | tooManyIssues
  /-- A computation that did not end within its bound. -/
  | outOfFuel

namespace Fault

def blame (site : Option Phrase) : Fault → Fault
  | .issue i => .issue (i.blame site)
  | f => f

/-- The sentence or the key that tells more about a fault, where there is one. -/
def detail? : Fault → Option String
  | .literal e => some e.message
  | .notADimension d => some ("Not a dimension: " ++ d.text)
  | .notANumeral text => some ("could not convert string to float: " ++ Text.quoted text)
  | .missing key => some key
  | .duplicate name => some name
  | .template e => e.message?
  | _ => none

end Fault

/-- The type of a tensor whose shape is written as entries. -/
def Ty.ofEntries (shape : List DimEntry) (dtype : String) : Except Fault Ty :=
  match Shape.ofEntries shape with
  | .ok s => .ok (.tensor s dtype)
  | .error d => .error (.notADimension d)

end TensorTyping
