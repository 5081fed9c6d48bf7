/-!
# Binary floating-point numbers

The numbers a JSON text can write with a point or an exponent are kept as binary
numbers of 53 bits, as every reader of such texts keeps them.  A finite one is
`mantissa · 2 ^ exponent`, exactly.

## Main definitions

* `Binary64` — signed finite numbers, the two infinities, and not-a-number.
* `Binary64.ofDecimal` — the nearest number to a decimal, a tie going to the even
  mantissa; what is too large becomes infinite.
-/

namespace SchemaScript

/-- A binary number of 53 bits. -/
inductive Binary64
  /-- The number `mantissa · 2 ^ exponent`, with a sign that zero has too. -/
  | finite (negative : Bool) (mantissa : Nat) (exponent : Int)
  /-- Beyond every finite number. -/
  | infinite (negative : Bool)
  /-- No number. -/
  | nan
  deriving DecidableEq, Inhabited

namespace Binary64

/-- The least exponent of a finite number. -/
def leastExponent : Int := -1074

/-- The greatest exponent of a finite number. -/
def greatestExponent : Int := 971

/-- The bound below which a mantissa lies. -/
def mantissaBound : Nat := Nat.pow 2 53

/-- Zero has one mantissa, and only zero has it. -/
def isZero : Binary64 → Bool
  | finite _ mantissa _ => mantissa == 0
  | _ => false

/-! ### Rounding -/

/-- The whole number nearest to `num / den`; of two equally near ones the even. -/
def roundHalfEven (num den : Nat) : Nat :=
  let low := num / den
  let twice := 2 * (num % den)
  if twice < den then low
  else if den < twice then low + 1
  else if low % 2 = 0 then low else low + 1

/-- The quotient `num / den` is below `2 ^ e`. -/
def belowPower (num den : Nat) (e : Int) : Bool :=
  if 0 ≤ e then num < den * Nat.pow 2 e.toNat else num * Nat.pow 2 (-e).toNat < den

/-- The quotient `num / den` in units of `2 ^ e`, rounded. -/
def inUnits (num den : Nat) (e : Int) : Nat :=
  if 0 ≤ e then roundHalfEven num (den * Nat.pow 2 e.toNat)
  else roundHalfEven (num * Nat.pow 2 (-e).toNat) den

/-- The number nearest to the positive quotient `num / den`. -/
def ofQuotient (negative : Bool) (num den : Nat) : Binary64 :=
  let size : Int := (num.log2 : Int) - den.log2
  let top := if belowPower num den size then size - 53 else size - 52
  let e := max top leastExponent
  let m := inUnits num den e
  let (m, e) := if m = mantissaBound then (m / 2, e + 1) else (m, e)
  if greatestExponent < e then infinite negative else finite negative m e

/-- The number nearest to `digits · 10 ^ scale`.  A scale that alone decides the
answer is not multiplied out. -/
def ofDecimal (negative : Bool) (digits : Nat) (scale : Int) : Binary64 :=
  let size : Int := ((Nat.toDigits 10 digits).length : Int) + scale
  if digits = 0 ∨ size < -330 then finite negative 0 leastExponent
  else if 310 < size then infinite negative
  else if 0 ≤ scale then ofQuotient negative (digits * Nat.pow 10 scale.toNat) 1
  else ofQuotient negative digits (Nat.pow 10 (-scale).toNat)

end Binary64
end SchemaScript
