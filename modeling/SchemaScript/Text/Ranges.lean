/-!
# Ranges of character codes

The character classes of Unicode are written as tables of ranges.  Neighbouring
letters that alternate between the cases fill a range with stride two.

## Main definitions

* `inRanges` — membership in a list of ranges.
* `Stride` — the codes from `first` to `last` in equal steps.
* `shifted` — a mapping that moves each stride of a table as a whole.
-/

namespace SchemaScript
namespace Text

/-- The number lies in one of the ranges, both ends included. -/
def inRanges (n : Nat) (ranges : List (Nat × Nat)) : Bool :=
  ranges.any fun r => r.1 ≤ n && n ≤ r.2

/-- The codes `first`, `first + step`, … up to `last`. -/
structure Stride where
  first : Nat
  last : Nat
  step : Nat
  deriving DecidableEq

/-- The code is one of the stride. -/
def Stride.has (s : Stride) (n : Nat) : Bool :=
  s.first ≤ n && n ≤ s.last && (n - s.first) % s.step == 0

/-- The code moved with the first stride that has it, whose first code goes to the
number beside it; a code of no stride stays. -/
def shifted (n : Nat) : List (Stride × Nat) → Nat
  | [] => n
  | (s, target) :: rest => if s.has n then target + (n - s.first) else shifted n rest

end Text
end SchemaScript
