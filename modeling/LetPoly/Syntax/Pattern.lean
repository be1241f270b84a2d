import LetPoly.Syntax.TypeExpr

/-!
Literals and patterns.
-/
namespace LetPoly

/-- The value of a number literal. -/
inductive Number where
  | int (value : Int)
  | float (value : Float)
  deriving Repr, Inhabited

/-- A literal, in an expression or in a pattern. -/
inductive Literal where
  | number (value : Number)
  | bool (value : Bool)
  | char (value : Char)
  | string (value : String)
  | unit
  /-- A number with a measure, as in `9.81<m/s^2>`. -/
  | measured (value : Number) (measure : MeasureExpr)
  deriving Repr, Inhabited

/-- A name and where it is written. -/
structure Ident where
  name : String
  span : Span := {}
  deriving DecidableEq, Repr, Inhabited

/-- A pattern. -/
inductive Pattern where
  /-- The pattern `_`, which binds nothing. -/
  | wild (span : Span)
  | ident (id : Ident)
  | const (value : Literal) (span : Span)
  | tuple (elements : List Pattern) (span : Span)
  /-- A list of fixed length, as in `[p; q]`. -/
  | list (elements : List Pattern) (span : Span)
  /-- A list `head :: tail`. -/
  | cons (head tail : Pattern) (span : Span)
  | some (inner : Pattern) (span : Span)
  | none (span : Span)
  /-- An annotated pattern `(inner : ascribed)`. -/
  | typed (inner : Pattern) (ascribed : TypeExpr) (span : Span)
  deriving Repr, Inhabited

namespace Pattern

/-- Where a pattern is written. -/
def span : Pattern → Span
  | .ident id => id.span
  | .wild span | .const _ span | .tuple _ span | .list _ span | .cons _ _ span | .some _ span
  | .none span | .typed _ _ span => span

/-- The same pattern written elsewhere. -/
def withSpan (span : Span) : Pattern → Pattern
  | .wild _ => .wild span
  | .ident id => .ident { id with span }
  | .const value _ => .const value span
  | .tuple elements _ => .tuple elements span
  | .list elements _ => .list elements span
  | .cons head tail _ => .cons head tail span
  | .some inner _ => .some inner span
  | .none _ => .none span
  | .typed inner ascribed _ => .typed inner ascribed span

mutual

/-- The names that a pattern binds, from left to right, repetitions included. -/
def idents : Pattern → List Ident
  | .wild _ | .const _ _ | .none _ => []
  | .ident id => [id]
  | .tuple elements _ | .list elements _ => identsList elements
  | .cons head tail _ => head.idents ++ tail.idents
  | .some inner _ | .typed inner _ _ => inner.idents

/-- The names that a list of patterns binds. -/
def identsList : List Pattern → List Ident
  | [] => []
  | p :: ps => p.idents ++ identsList ps

end

end Pattern

end LetPoly
