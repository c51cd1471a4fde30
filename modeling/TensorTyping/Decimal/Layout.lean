import TensorTyping.Decimal.Shortest

/-!
# Written decimals

How a double is written: in positional notation between two powers of ten, else with an exponent.
-/
namespace TensorTyping.Decimal

/-- The decisions of a number format. -/
structure Format where
  /-- Exponents of the leading digit from which positional notation is used. -/
  lowest : Int
  /-- The first exponent of the leading digit past positional notation. -/
  beyond : Int
  /-- The least number of digits of a written exponent. -/
  exponentWidth : Nat
deriving DecidableEq, Repr

/-- Numbers from a ten-thousandth up to ten to the sixteenth are written out; an exponent has at
least two digits and always a sign. -/
def Format.standard : Format := ⟨-4, 16, 2⟩

def digitText (ds : List Nat) : String :=
  String.ofList (ds.map fun d => Char.ofNat ('0'.toNat + d))

/-- A run of digits with a point after the first `n`, filled with zeros where needed. -/
def pointed (ds : List Nat) (n : Nat) : String :=
  let whole := ds.take n ++ List.replicate (n - ds.length) 0
  let fraction := ds.drop n
  digitText whole ++ "." ++ (if fraction.isEmpty then "0" else digitText fraction)

def positional (d : Digits) : String :=
  if 0 < d.point then pointed d.digits d.point.toNat
  else "0." ++ digitText (List.replicate (-d.point).toNat 0 ++ d.digits)

def exponential (f : Format) (d : Digits) : String :=
  let e := d.point - 1
  let es := digitsOf e.natAbs
  let sign := if e < 0 then "-" else "+"
  let mantissa := match d.digits with
    | [] => "0"
    | [x] => digitText [x]
    | x :: rest => digitText [x] ++ "." ++ digitText rest
  mantissa ++ "e" ++ sign ++ digitText (List.replicate (f.exponentWidth - es.length) 0 ++ es)

def Format.text (f : Format) (x : Float) : String :=
  match Binary.ofFloat x with
  | .notANumber => "nan"
  | .infinite negative => if negative then "-inf" else "inf"
  | .finite negative m q =>
    let sign := if negative then "-" else ""
    if m = 0 then sign ++ "0.0"
    else
      let d := shortest m q
      let e := d.point - 1
      sign ++ (if f.lowest ≤ e ∧ e < f.beyond then positional d else exponential f d)

end TensorTyping.Decimal
