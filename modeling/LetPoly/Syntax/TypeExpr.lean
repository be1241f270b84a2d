import LetPoly.Source.Span

/-!
Types and measures as they are written in a program, before their names are resolved.
-/
namespace LetPoly

/-- A written measure. -/
inductive MeasureExpr where
  | one
  | named (name : String) (span : Span)
  | product (left right : MeasureExpr)
  | quotient (numerator denominator : MeasureExpr)
  | power (base : MeasureExpr) (exponent : Int)
  deriving DecidableEq, Repr, Inhabited

/-- A written type. -/
inductive TypeExpr where
  /-- A type constructor with its arguments; `int list` is `list` with the argument `int`. -/
  | con (name : String) (args : List TypeExpr) (span : Span)
  /-- A named variable such as `'a`, without the quote. -/
  | var (name : String) (span : Span)
  | func (param result : TypeExpr)
  | tuple (elements : List TypeExpr) (span : Span)
  | measured (base : TypeExpr) (measure : MeasureExpr) (span : Span)
  deriving Repr, Inhabited

/-- The measure with a name in it written elsewhere. Only names have a place of their own. -/
def MeasureExpr.withSpan (span : Span) : MeasureExpr → MeasureExpr
  | .named name _ => .named name span
  | measure => measure

namespace TypeExpr

/-- Where a type is written. A function type stands where its parameter stands. -/
def span : TypeExpr → Span
  | .con _ _ span | .var _ span | .tuple _ span | .measured _ _ span => span
  | .func param _ => param.span

/-- The same type written elsewhere. A function type has no place of its own. -/
def withSpan (span : Span) : TypeExpr → TypeExpr
  | .con name args _ => .con name args span
  | .var name _ => .var name span
  | .func param result => .func param result
  | .tuple elements _ => .tuple elements span
  | .measured base measure _ => .measured base measure span

end TypeExpr

end LetPoly
