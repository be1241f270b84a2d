/-!
Units of measure. A measure is compared as it is written: `m/s` and `m s^-1` are
different measures, and nothing is normalised.
-/
namespace LetPoly

/-- A unit of measure. -/
inductive Measure where
  /-- The dimensionless measure `1`. -/
  | one
  | named (name : String)
  | product (left right : Measure)
  | quotient (numerator denominator : Measure)
  | power (base : Measure) (exponent : Int)
  deriving DecidableEq, Repr, Inhabited

namespace Measure

/-- Measures that are written without parentheses below a quotient or a power. -/
def isAtomic : Measure → Bool
  | one | named _ | power _ _ => true
  | product _ _ | quotient _ _ => false

/-- The written form. A product is written by a blank; the right of a quotient and the base of a
    power are parenthesised unless atomic. -/
def text : Measure → String
  | one => "1"
  | named name => name
  | product left right => left.text ++ " " ++ right.text
  | quotient numerator denominator =>
    numerator.text ++ "/" ++
      (if denominator.isAtomic then denominator.text else "(" ++ denominator.text ++ ")")
  | power base exponent =>
    (if base.isAtomic then base.text else "(" ++ base.text ++ ")") ++ "^" ++ toString exponent

end Measure

end LetPoly
