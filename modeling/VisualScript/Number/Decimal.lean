import VisualScript.Number.Binary64

/-!
# Decimal text of binary64 numbers

`shortest` finds the decimal with the fewest digits that reads back as the number, and the nearest
of those. `Binary64.text` lays it out: positional between `10 ^ -5` and `10 ^ 16`, with at least one
digit after the point, and in scientific form with a signed exponent beyond.
-/

namespace VisualScript

/-- The number `digits * 10 ^ exponent`. -/
structure Decimal where
  digits : Nat
  exponent : Int
deriving DecidableEq

namespace Binary64

/-- `c * 10 ^ p`, over the common denominator of `10 ^ p` and `2 ^ q`. -/
def onGrid (c : Nat) (p q : Int) : Nat := c * Nat.pow 10 p.toNat * Nat.pow 2 (-q).toNat

/-- `x * 2 ^ q`, over the same denominator. -/
def offGrid (x : Nat) (p q : Int) : Nat := x * Nat.pow 2 q.toNat * Nat.pow 10 (-p).toNat

/-- Whether `c * 10 ^ p` rounds to `x`: it lies between the midpoints to the two neighbours of `x`,
and on a midpoint only if the mantissa is even. -/
def readsBack (x : Binary64) (c : Nat) (p : Int) : Bool :=
  let below := if x.mantissa = Nat.pow 2 52 ∧ leastExponent < x.exponent then 1 else 2
  let q := x.exponent - 2
  let v := onGrid c p q
  let low := offGrid (4 * x.mantissa - below) p q
  let high := offGrid (4 * x.mantissa + 2) p q
  if x.mantissa % 2 = 0 then low ≤ v && v ≤ high else low < v && v < high

/-- The power of ten of the leading digit of `x`, which is not zero. -/
def leadingPower (x : Binary64) : Int :=
  let count (n : Nat) : Int := (Nat.toDigits 10 n).length
  let guess := count x.ratio.1 - count x.ratio.2
  if onGrid 1 guess x.exponent ≤ offGrid x.mantissa guess x.exponent then guess else guess - 1

/-- The better of the two neighbours of `x` among the multiples of `10 ^ p`, if one reads back; of
two equally near the even one. -/
def onPower? (x : Binary64) (p : Int) : Option Decimal :=
  let v := offGrid x.mantissa p x.exponent
  let unit := onGrid 1 p x.exponent
  let low := v / unit
  let twice := 2 * (v % unit)
  match x.readsBack low p, x.readsBack (low + 1) p with
  | true, true =>
    if twice < unit ∨ (twice = unit ∧ low % 2 = 0) then some ⟨low, p⟩ else some ⟨low + 1, p⟩
  | true, false => some ⟨low, p⟩
  | false, true => some ⟨low + 1, p⟩
  | false, false => none

/-- Drops the zeros at the end of the digits; `n` bounds how many. -/
def trimZeros : Nat → Decimal → Decimal
  | 0, d => d
  | n + 1, d =>
    if d.digits ≠ 0 ∧ d.digits % 10 = 0 then trimZeros n ⟨d.digits / 10, d.exponent + 1⟩ else d

/-- The fewest digits that read back, seventeen at most. -/
def shortest (x : Binary64) : Decimal :=
  if x.isZero then ⟨0, 0⟩
  else
    let top := x.leadingPower
    let found := (List.range 17).findSome? fun k : Nat => x.onPower? (top - k)
    trimZeros 20 (found.getD ⟨x.mantissa, x.exponent⟩)

/-- The greatest number of digits before the point in positional form. -/
def positionalDigits : Int := 16

/-- The greatest number of zeros between the point and the first digit in positional form. -/
def leadingZeros : Int := 4

/-- The exponent of the scientific form, always with its sign. -/
def exponentMark (e : Int) : List Char :=
  'e' :: (if e < 0 then '-' else '+') :: Nat.toDigits 10 e.natAbs

/-- Lays out decimal digits with the point `point` places after the first digit's left. -/
def layOut (digits : List Char) (point : Int) : List Char :=
  let len : Int := digits.length
  if len ≤ point ∧ point ≤ positionalDigits then
    digits ++ List.replicate (point - len).toNat '0' ++ ['.', '0']
  else if 0 < point ∧ point ≤ positionalDigits then
    digits.take point.toNat ++ '.' :: digits.drop point.toNat
  else if -leadingZeros ≤ point ∧ point ≤ 0 then
    '0' :: '.' :: List.replicate (-point).toNat '0' ++ digits
  else
    let mark := exponentMark (point - 1)
    match digits with
    | [d] => d :: mark
    | d :: ds => d :: '.' :: ds ++ mark
    | [] => mark

/-- The written form. Zero is `0.0`, with its sign. -/
def text (x : Binary64) : String :=
  let body :=
    if x.isZero then ['0', '.', '0']
    else
      let digits := Nat.toDigits 10 x.shortest.digits
      layOut digits (digits.length + x.shortest.exponent)
  String.ofList (if x.negative then '-' :: body else body)

end Binary64

end VisualScript
