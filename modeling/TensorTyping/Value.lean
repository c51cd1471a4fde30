import TensorTyping.Decimal.Layout
import TensorTyping.Decimal.Reader
import TensorTyping.Symbol
import TensorTyping.Text.Quoted

/-!
# Values of constants and attributes

The values that tensor programs carry: nothing, truth values, whole numbers, doubles, texts and
lists. A truth value counts as the number one or zero, and numbers of all three sorts are compared
by what they denote. A double that is not a number denotes nothing, so it equals no other value;
each one that is made has an identity, by which it still equals itself.
-/
namespace TensorTyping

inductive Value where
  | null
  | bool (b : Bool)
  | int (n : Int)
  | float (x : Float)
  /-- A double that is not a number, told from others by its serial number. -/
  | nan (serial : Serial)
  | text (s : String)
  | list (items : List Value)
deriving Inhabited

inductive Numeral where
  | exact (r : Rat)
  | infinite (negative : Bool)
  | notANumber
deriving DecidableEq

namespace Numeral

def ofFloat (x : Float) : Numeral :=
  match Decimal.Binary.ofFloat x with
  | .notANumber => .notANumber
  | .infinite negative => .infinite negative
  | .finite negative m q => .exact (Decimal.signedValue negative m q)

def atLeast (v : Numeral) (n : Int) : Bool :=
  match v with
  | .exact r => decide ((n : Rat) ≤ r)
  | .infinite negative => !negative
  | .notANumber => false

def atMost (v : Numeral) (n : Int) : Bool :=
  match v with
  | .exact r => decide (r ≤ (n : Rat))
  | .infinite negative => negative
  | .notANumber => false

def below (v : Numeral) (n : Int) : Bool :=
  match v with
  | .exact r => decide (r < (n : Rat))
  | .infinite negative => negative
  | .notANumber => false

/-- Whether two numbers are equal. What is not a number equals nothing. -/
def same : Numeral → Numeral → Bool
  | .exact r, .exact s => r == s
  | .infinite b, .infinite c => b == c
  | _, _ => false

def isZero (v : Numeral) : Bool := v == .exact 0

end Numeral

namespace Value

def ofFloat (x : Float) : Mint Value := do
  match Decimal.Binary.ofFloat x with
  | .notANumber => return .nan (← Mint.serial)
  | _ => return .float x

/-- The whole number that a value is, a truth value included. -/
def int? : Value → Option Int
  | .bool b => some (if b then 1 else 0)
  | .int n => some n
  | _ => none

/-- The number that a value denotes, if it is numeric. -/
def numeral? : Value → Option Numeral
  | .bool b => some (.exact (if b then 1 else 0))
  | .int n => some (.exact n)
  | .float x => some (.ofFloat x)
  | .nan _ => some .notANumber
  | _ => none

/-- Whether a value counts as true in a condition. -/
def isTrue : Value → Bool
  | .null => false
  | .bool b => b
  | .int n => n != 0
  | .float x => !(Numeral.ofFloat x).isZero
  | .nan _ => true
  | .text s => s != ""
  | .list items => !items.isEmpty

mutual
/-- Equality of values: numbers by what they denote, what is not a number by identity, everything
else part by part. -/
def same : Value → Value → Bool
  | .null, .null => true
  | .text s, .text t => s == t
  | .list xs, .list ys => sameList xs ys
  | .nan i, .nan j => i == j
  | x, y =>
    match x.numeral?, y.numeral? with
    | some a, some b => a.same b
    | _, _ => false
def sameList : List Value → List Value → Bool
  | [], [] => true
  | x :: xs, y :: ys => x.same y && sameList xs ys
  | _, _ => false
end

instance : BEq Value := ⟨same⟩

mutual
/-- The written form of a value, in which a text is quoted. -/
def written : Value → String
  | .null => "None"
  | .bool b => if b then "True" else "False"
  | .int n => toString n
  | .float x => Decimal.Format.standard.text x
  | .nan _ => Decimal.Format.standard.text (0.0 / 0.0)
  | .text s => Text.quoted s
  | .list items => "[" ++ ", ".intercalate (writtenList items) ++ "]"
def writtenList : List Value → List String
  | [] => []
  | v :: vs => v.written :: writtenList vs
end

/-- The text of a value in a sentence: as written, but a text stands for itself. -/
def plain : Value → String
  | .text s => s
  | v => v.written

end Value

/-- A position in a tuple: a whole number, or a truth value used as one. -/
inductive Index where
  | int (n : Int)
  | bool (b : Bool)
deriving DecidableEq, Repr

namespace Index

def toInt : Index → Int
  | .int n => n
  | .bool b => if b then 1 else 0

def toValue : Index → Value
  | .int n => .int n
  | .bool b => .bool b

/-- The position that a value names, if it is a whole number. -/
def ofValue? : Value → Option Index
  | .int n => some (.int n)
  | .bool b => some (.bool b)
  | _ => none

end Index

end TensorTyping
