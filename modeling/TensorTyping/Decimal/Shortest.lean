import TensorTyping.Decimal.Binary

/-!
# The shortest decimal that reads back

Among the decimals that round to a given double, the one with the fewest digits is taken, and of
those the nearest. The candidates with `k` digits are the two neighbours of the exact value on the
grid of `k`-digit decimals; seventeen digits always suffice.
-/
namespace TensorTyping.Decimal

/-- A positive decimal `0.d₁d₂… * 10 ^ point`, with no zero at either end of the digits. -/
structure Digits where
  digits : List Nat
  point : Int
deriving DecidableEq, Repr

/-- The decimal digits of a number, most significant first; none for zero. The fuel is the number
itself. -/
def digitsOf (n : Nat) : List Nat := go n n []
where
  go : Nat → Nat → List Nat → List Nat
  | 0, _, acc => acc
  | fuel + 1, n, acc => if n = 0 then acc else go fuel (n / 10) (n % 10 :: acc)

/-- The least `j ≤ fuel` with `den ≤ num * 10 ^ j`. -/
def scaleUp : Nat → Nat → Nat → Nat
  | 0, _, _ => 0
  | fuel + 1, num, den => if den ≤ num then 0 else scaleUp fuel (num * 10) den + 1

/-- The exponent of the leading digit of the positive number `num / den`. -/
def leadingExponent (num den : Nat) : Int :=
  if den ≤ num then ((digitsOf (num / den)).length : Int) - 1
  else -(scaleUp 400 num den : Int)

/-- The reals that round to a double: between two fractions, with or without the ends. -/
structure Interval where
  low : Nat × Nat
  high : Nat × Nat
  closed : Bool
deriving DecidableEq, Repr

def fractionLt (a b : Nat × Nat) : Bool := a.1 * b.2 < b.1 * a.2

/-- Whether a fraction rounds to the double. -/
def Interval.contains (i : Interval) (x : Nat × Nat) : Bool :=
  if i.closed then !fractionLt x i.low && !fractionLt i.high x
  else fractionLt i.low x && fractionLt x i.high

/-- The interval of `m * 2 ^ q`. The gap below a power of two is half as wide. -/
def roundingInterval (m : Nat) (q : Int) : Interval :=
  let (num, den) := powTwo (q - 2)
  let below := if m = Nat.pow 2 52 ∧ q ≠ -1074 then 1 else 2
  ⟨((4 * m - below) * num, den), ((4 * m + 2) * num, den), m % 2 = 0⟩

/-- The multiple `n` of `10 ^ e` as a fraction. -/
def gridPoint (n : Nat) (e : Int) : Nat × Nat :=
  if 0 ≤ e then (n * Nat.pow 10 e.toNat, 1) else (n, Nat.pow 10 (-e).toNat)

/-- The neighbour of `num / den` on the grid of `k`-digit decimals that rounds to the double, the
nearer one if both do, and the even one if they are equally near. -/
def candidate (i : Interval) (num den k : Nat) : Option (Nat × Int) :=
  let e := leadingExponent num den - (k : Int) + 1
  let (n, d) :=
    if 0 ≤ e then (num, den * Nat.pow 10 e.toNat) else (num * Nat.pow 10 (-e).toNat, den)
  let lower := n / d
  let twice := 2 * (n % d)
  let lowerFits := lower ≠ 0 && i.contains (gridPoint lower e)
  let upperFits := i.contains (gridPoint (lower + 1) e)
  if lowerFits && upperFits then
    if twice < d || (twice == d && lower % 2 == 0) then some (lower, e) else some (lower + 1, e)
  else if lowerFits then some (lower, e)
  else if upperFits then some (lower + 1, e)
  else none

/-- Try one digit, then two, up to seventeen. -/
def firstCandidate (i : Interval) (num den : Nat) : Option (Nat × Int) :=
  (List.range 17).findSome? fun k => candidate i num den (k + 1)

def dropTrailingZeros (ds : List Nat) : List Nat := (ds.reverse.dropWhile (· == 0)).reverse

def shortest (m : Nat) (q : Int) : Digits :=
  let (p, den) := powTwo q
  match firstCandidate (roundingInterval m q) (m * p) den with
  | some (n, e) =>
    let ds := digitsOf n
    ⟨dropTrailingZeros ds, e + ds.length⟩
  | none => ⟨[], 0⟩

end TensorTyping.Decimal
