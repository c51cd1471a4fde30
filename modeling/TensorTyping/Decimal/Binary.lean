/-!
# Binary floating-point numbers as exact numbers

A double is not a number, an infinity, or `m * 2 ^ q` with a sign. Everything exact that the
library says about a double goes through this view.
-/
namespace TensorTyping.Decimal

/-- The exact content of a double. -/
inductive Binary where
  | notANumber
  | infinite (negative : Bool)
  /-- The magnitude is `m * 2 ^ q`. -/
  | finite (negative : Bool) (m : Nat) (q : Int)
deriving DecidableEq, Repr

def Binary.ofFloat (x : Float) : Binary :=
  let bits := x.toBits.toNat
  let negative := bits / Nat.pow 2 63 == 1
  let exponent : Nat := bits / Nat.pow 2 52 % Nat.pow 2 11
  let fraction : Nat := bits % Nat.pow 2 52
  if exponent = 2047 then
    if fraction = 0 then .infinite negative else .notANumber
  else if exponent = 0 then .finite negative fraction (-1074)
  else .finite negative (Nat.pow 2 52 + fraction) ((exponent : Int) - 1075)

/-- `2 ^ q` as a fraction. -/
def powTwo (q : Int) : Nat × Nat :=
  if 0 ≤ q then (Nat.pow 2 q.toNat, 1) else (1, Nat.pow 2 (-q).toNat)

/-- The number `m * 2 ^ q` with its sign. -/
def signedValue (negative : Bool) (m : Nat) (q : Int) : Rat :=
  let (num, den) := powTwo q
  mkRat (if negative then -(m * num : Nat) else (m * num : Nat)) den

end TensorTyping.Decimal
