import LetPoly.Syntax.Expr

/-!
Programs are lists of top-level items.
-/
namespace LetPoly

/-- A top-level item of a program. -/
inductive Item where
  /-- An expression, whose type is checked and forgotten. -/
  | expr (value : Expr)
  /-- A `let` group, which the following items see. -/
  | letGroup (recursive : Bool) (bindings : List (Binding Expr))
  /-- The declaration of a measure, with its definition if it has one. -/
  | measure (name : String) (definition : Option MeasureExpr) (span : Span)
  deriving Inhabited

/-- The same item written elsewhere. Only the declaration of a measure has a place of its own. -/
def Item.withSpan (span : Span) : Item → Item
  | .measure name definition _ => .measure name definition span
  | item => item

end LetPoly
