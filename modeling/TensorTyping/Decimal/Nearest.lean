/-!
# The nearest double

The double nearest to a fraction, by exact arithmetic on natural numbers; of two that are equally
near, the one with the even last place. The bits of doubles without a sign are in the order of what
they denote, so a fraction past the greatest double gets the bits of infinity.
-/
namespace TensorTyping.Decimal

/-- The whole number nearest to a quotient, the even one if two are equally near. -/
def roundHalfEven (num den : Nat) : Nat :=
  if 2 * (num % den) < den ∨ (2 * (num % den) = den ∧ num / den % 2 = 0) then num / den
  else num / den + 1

/-- A fraction divided by `2 ^ q`, as a fraction. -/
def scaled (num den : Nat) (q : Int) : Nat × Nat :=
  if 0 ≤ q then (num, den * Nat.pow 2 q.toNat) else (num * Nat.pow 2 (-q).toNat, den)

/-- The exponent of the last place of the double next to a positive fraction. The fraction divided
by this power of two lies below `2 ^ 53`, and not below `2 ^ 52` unless the last place is that of the
least double. -/
def lastPlace (num den : Nat) : Int :=
  let q : Int := (num.log2 : Int) - den.log2 - 53
  let (n, d) := scaled num den q
  max (if Nat.pow 2 53 ≤ n / d then q + 1 else q) (-1074)

def infinityBits : Nat := 2047 * Nat.pow 2 52

/-- The bits of the double nearest to a fraction. A carry out of the fraction field raises the
exponent field, as it should. -/
def nearestBits (num den : Nat) : Nat :=
  if num = 0 then 0
  else
    let q := lastPlace num den
    let (n, d) := scaled num den q
    min ((q + 1074).toNat * Nat.pow 2 52 + roundHalfEven n d) infinityBits

def withSign (negative : Bool) (bits : Nat) : Float :=
  Float.ofBits (UInt64.ofNat (if negative then Nat.pow 2 63 + bits else bits))

theorem nearestBits_le (num den : Nat) : nearestBits num den ≤ infinityBits := by
  unfold nearestBits
  split
  · exact Nat.zero_le _
  · exact Nat.min_le_right _ _

theorem roundHalfEven_mul (n : Nat) {den : Nat} (h : 0 < den) :
    roundHalfEven (n * den) den = n := by
  simp [roundHalfEven, Nat.mul_div_cancel n h, h]

end TensorTyping.Decimal
