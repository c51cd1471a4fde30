import TensorTyping.Decimal.Nearest
import TensorTyping.Text.Blank
import TensorTyping.Text.Numeral

/-!
# Reading doubles

A written double is a sign and a decimal or one of the words for infinity and for what is not a
number, in letters of either case. Blanks may stand around it, digits may be of any script, and an
underscore may stand between two digits. A decimal has digits before or after its point, and
perhaps an exponent.
-/
namespace TensorTyping.Decimal

/-- Whether a character of the first 128 is blank around a number. -/
def isPlainBlank (c : Char) : Bool := c = ' ' || (9 ≤ c.toNat && c.toNat ≤ 13)

/-- A character beyond the first 128 by what it means in a number: a digit or a blank. -/
def plainChar (c : Char) : Char :=
  if c.toNat < 128 then c
  else match Text.digitValue? c with
    | some d => Char.ofNat ('0'.toNat + d)
    | none => if Text.isBlank c then ' ' else c

def trimmed (cs : List Char) : List Char :=
  ((cs.dropWhile isPlainBlank).reverse.dropWhile isPlainBlank).reverse

/-- The characters without underscores, each of which has to stand between two digits; `afterDigit`
tells whether a digit stands before them. -/
def withoutUnderscores? (afterDigit : Bool) : List Char → Option (List Char)
  | [] => some []
  | '_' :: cs =>
    if afterDigit && cs.head?.any Char.isDigit then withoutUnderscores? false cs else none
  | c :: cs => (withoutUnderscores? c.isDigit cs).map (c :: ·)

/-- The number that a run of digits denotes. -/
def naturalValue (ds : List Char) : Nat :=
  ds.foldl (fun n d => 10 * n + (d.toNat - '0'.toNat)) 0

def natural? (ds : List Char) : Option Nat :=
  if !ds.isEmpty && ds.all Char.isDigit then some (naturalValue ds) else none

/-- The exponent that the characters after the digits write, zero if there are none. -/
def exponent? : List Char → Option Int
  | [] => some 0
  | c :: cs =>
    if c = 'e' ∨ c = 'E' then
      match cs with
      | '-' :: ds => (natural? ds).map fun n => -(n : Int)
      | '+' :: ds => (natural? ds).map Int.ofNat
      | ds => (natural? ds).map Int.ofNat
    else none

/-- The bits of the double nearest to a run of digits times a power of ten. Past the powers of ten
that doubles come near to, it is infinity or zero. -/
def decimalBits (digits : List Char) (shift : Int) : Nat :=
  let significant := digits.dropWhile (· = '0')
  let magnitude := significant.length + shift
  if significant.isEmpty || magnitude < -330 then 0
  else if 310 < magnitude then infinityBits
  else
    let m := naturalValue significant
    if 0 ≤ shift then nearestBits (m * Nat.pow 10 shift.toNat) 1
    else nearestBits m (Nat.pow 10 (-shift).toNat)

def unsignedBits? (cs : List Char) : Option Nat :=
  let whole := cs.takeWhile Char.isDigit
  let (fraction, rest) := match cs.dropWhile Char.isDigit with
    | '.' :: r => (r.takeWhile Char.isDigit, r.dropWhile Char.isDigit)
    | r => ([], r)
  if whole.isEmpty && fraction.isEmpty then none
  else (exponent? rest).map fun e => decimalBits (whole ++ fraction) (e - fraction.length)

def unsigned? (negative : Bool) (cs : List Char) : Option Float :=
  let word := String.ofList (cs.map Char.toLower)
  if word = "nan" then some (0.0 / 0.0)
  else if word = "inf" ∨ word = "infinity" then some (withSign negative infinityBits)
  else (unsignedBits? cs).map (withSign negative)

def read? (s : String) : Option Float :=
  match withoutUnderscores? false (trimmed (s.toList.map plainChar)) with
  | none => none
  | some ('-' :: cs) => unsigned? true cs
  | some ('+' :: cs) => unsigned? false cs
  | some cs => unsigned? false cs

end TensorTyping.Decimal
