/-!
# Finite binary64 numbers

A `Binary64` is a sign, a mantissa and a power of two, in the one form that the format has for the
value: the mantissa has 53 bits, or fewer at the least exponent. `nearest` rounds a ratio of
natural numbers, a half going to the even mantissa. Everything is exact integer arithmetic.
-/

namespace VisualScript

/-- The number `± mantissa * 2 ^ exponent`. -/
structure Binary64 where
  negative : Bool
  mantissa : Nat
  exponent : Int
deriving DecidableEq

namespace Binary64

/-- The exponent of the least positive number. -/
def leastExponent : Int := -1074

/-- The exponent of the largest numbers. -/
def greatestExponent : Int := 971

def zero (negative : Bool) : Binary64 := ⟨negative, 0, leastExponent⟩

def isZero (x : Binary64) : Bool := x.mantissa == 0

def negate (x : Binary64) : Binary64 := { x with negative := !x.negative }

/-- Both zeros have this form, and every other number is its own. -/
def unsignedZero (x : Binary64) : Binary64 :=
  if x.isZero then { x with negative := false } else x

/-- `n / d` in whole units of `2 ^ e`, a half going to the even neighbour. -/
def roundAt (n d : Nat) (e : Int) : Nat :=
  let n := n * Nat.pow 2 (-e).toNat
  let d := d * Nat.pow 2 e.toNat
  let q := n / d
  let twice := 2 * (n % d)
  if d < twice ∨ (twice = d ∧ q % 2 = 1) then q + 1 else q

/-- The exponent at which `n / d` has 53 bits, if that is not below the least one. -/
def exponentOf (n d : Nat) : Int :=
  let guess : Int := (n.log2 : Int) - (d.log2 : Int) - 52
  let fits := d * Nat.pow 2 52 * Nat.pow 2 guess.toNat ≤ n * Nat.pow 2 (-guess).toNat
  max leastExponent (if fits then guess else guess - 1)

/-- The number nearest to `n / d`, for a positive `d`; `none` if it is past the largest. -/
def nearest (n d : Nat) : Option Binary64 :=
  if n = 0 then some (zero false)
  else
    let e := exponentOf n d
    let m := roundAt n d e
    let x : Binary64 := if m = Nat.pow 2 53 then ⟨false, Nat.pow 2 52, e + 1⟩ else ⟨false, m, e⟩
    if x.exponent ≤ greatestExponent then some x else none

/-- The magnitude of `x`, as a numerator and a denominator. -/
def ratio (x : Binary64) : Nat × Nat :=
  (x.mantissa * Nat.pow 2 x.exponent.toNat, Nat.pow 2 (-x.exponent).toNat)

/-- The product of two magnitudes, rounded. -/
def mul (x y : Binary64) : Option Binary64 :=
  nearest (x.ratio.1 * y.ratio.1) (x.ratio.2 * y.ratio.2)

/-- The quotient of two magnitudes, rounded; `y` is not zero. -/
def div (x y : Binary64) : Option Binary64 :=
  nearest (x.ratio.1 * y.ratio.2) (x.ratio.2 * y.ratio.1)

/-- The number nearest to `n`; past the largest number the answer is `none`. -/
def ofNat? (n : Nat) : Option Binary64 := nearest n 1

/-- The number nearest to `i`. -/
def ofInt? (i : Int) : Option Binary64 :=
  (ofNat? i.natAbs).map fun x => if i < 0 then x.negate else x

/-- The largest power of ten that binary64 holds. -/
def topPower : Nat := 308

/-- `significand * 10 ^ exponent`, reckoned in binary64: the significand and the power are rounded,
and so is their product or quotient. A power below the least one is divided out in two turns. `none`
says that the number is past the largest. -/
def ofScaled? (significand : Nat) (exponent : Int) : Option Binary64 := do
  let x ← ofNat? significand
  if x.isZero then return x
  if 0 ≤ exponent then
    if exponent.toNat ≤ topPower then x.mul (← ofNat? (Nat.pow 10 exponent.toNat)) else none
  else
    let k := (-exponent).toNat
    if k ≤ topPower then x.div (← ofNat? (Nat.pow 10 k))
    else if k ≤ 2 * topPower then do
      (← x.div (← ofNat? (Nat.pow 10 topPower))).div (← ofNat? (Nat.pow 10 (k - topPower)))
    else return zero false

end Binary64

end VisualScript
