import SchemaScript.Decimal.Binary64

/-!
# Shortest decimals

A binary number is written with the fewest decimal digits that read back as the
same number, and of the decimals of that length with the nearest one.

On each decimal grid only the two neighbours of the number can be the answer, so
the grids of one digit, two digits, … are tried in turn, in exact arithmetic.

## Main definitions

* `Window` — the interval of reals that round to a number, in quarters of its last
  binary place.
* `shortest` — the digits and the scale of the shortest decimal.
* `DecimalLayout`, `layout` — how digits and scale are laid out as a text.
-/

namespace SchemaScript
namespace Decimal

/-! ### Digits -/

/-- The reals that round to `mantissa · 2 ^ exponent`, in units of `2 ^ (exponent - 2)`:
from `low` to `high`, the ends included if `closed`. -/
structure Window where
  low : Nat
  middle : Nat
  high : Nat
  closed : Bool

/-- The window of a number.  At a power of two the numbers below lie closer. -/
def Window.of (mantissa : Nat) (exponent : Int) : Window where
  low :=
    if mantissa = Nat.pow 2 52 ∧ Binary64.leastExponent < exponent then 4 * mantissa - 1
    else 4 * mantissa - 2
  middle := 4 * mantissa
  high := 4 * mantissa + 2
  closed := mantissa % 2 == 0

/-- A point `x · unit` lies in the window, the window's unit being `scale`. -/
def Window.has (w : Window) (x scale : Nat) : Bool :=
  if w.closed then w.low * scale ≤ x && x ≤ w.high * scale
  else w.low * scale < x && x < w.high * scale

/-- The numerator of `10 ^ t`. -/
def tenNum (t : Int) : Nat := Nat.pow 10 t.toNat

/-- The numerator of `2 ^ e`. -/
def twoNum (e : Int) : Nat := Nat.pow 2 e.toNat

/-- The nearest point of the grid `10 ^ t` that lies in the window. -/
def onGrid (w : Window) (exponent t : Int) : Option Nat :=
  let step := tenNum t * twoNum (2 - exponent)
  let unit := twoNum (exponent - 2) * tenNum (-t)
  let below := w.middle * unit / step
  let fits := fun c => w.has (c * step) unit
  let away := w.middle * unit - below * step
  match fits below, fits (below + 1) with
  | true, true =>
    if 2 * away < step ∨ (2 * away = step ∧ below % 2 = 0) then some below else some (below + 1)
  | true, false => some below
  | false, true => some (below + 1)
  | false, false => none

/-- The first grid from `10 ^ t` downwards with a point in the window. -/
def firstGrid (w : Window) (exponent : Int) : Nat → Int → Nat × Int
  | 0, t => (w.middle * twoNum (exponent - 2) * tenNum (-t) / (tenNum t * twoNum (2 - exponent)), t)
  | n + 1, t =>
    match onGrid w exponent t with
    | some c => (c, t)
    | none => firstGrid w exponent n (t - 1)

/-- The greatest `t`, from the given one downwards, with `10 ^ t` at most the number. -/
def leadingScale (mantissa : Nat) (exponent : Int) : Nat → Int → Int
  | 0, t => t
  | n + 1, t =>
    if tenNum t * twoNum (-exponent) ≤ mantissa * twoNum exponent * tenNum (-t) then t
    else leadingScale mantissa exponent n (t - 1)

/-- The digits without the zeros at their end, and the scale that makes up for them. -/
def dropZeros : Nat → Nat → Int → Nat × Int
  | 0, c, t => (c, t)
  | n + 1, c, t => if c % 10 = 0 then dropZeros n (c / 10) (t + 1) else (c, t)

/-- The shortest decimal `digits · 10 ^ scale` of a positive number. -/
def shortest (mantissa : Nat) (exponent : Int) : Nat × Int :=
  let t := leadingScale mantissa exponent 640 309
  let (c, t) := firstGrid (Window.of mantissa exponent) exponent 17 t
  dropZeros 17 c t

/-! ### Layout -/

/-- How a decimal is laid out: between which places of the point it is written out
in full, and the fewest digits of an exponent. -/
structure DecimalLayout where
  leastPoint : Int
  greatestPoint : Int
  exponentWidth : Nat

/-- The text of the positive number `digits · 10 ^ scale`.  Its point stands after
`point` digits; a number written in full always shows a digit on either side of it. -/
def layout (form : DecimalLayout) (digits : Nat) (scale : Int) : List Char :=
  let ds := Nat.toDigits 10 digits
  let point : Int := ds.length + scale
  if form.leastPoint ≤ point ∧ point ≤ form.greatestPoint then
    if point ≤ 0 then '0' :: '.' :: (List.replicate (-point).toNat '0' ++ ds)
    else if ds.length ≤ point.toNat then
      ds ++ List.replicate (point.toNat - ds.length) '0' ++ ['.', '0']
    else ds.take point.toNat ++ '.' :: ds.drop point.toNat
  else
    let e := point - 1
    let es := Nat.toDigits 10 e.natAbs
    let fraction := if ds.length ≤ 1 then [] else '.' :: ds.drop 1
    ds.take 1 ++ fraction ++ 'e' :: (if e < 0 then '-' else '+') ::
      (List.replicate (form.exponentWidth - es.length) '0' ++ es)

end Decimal
end SchemaScript
