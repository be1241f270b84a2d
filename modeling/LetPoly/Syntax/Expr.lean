import LetPoly.Syntax.Pattern

/-!
Expressions.
-/
namespace LetPoly

/-- A binding `pattern = value` of a `let` group. -/
structure Binding (ε : Type) where
  pattern : Pattern
  value : ε
  deriving Repr, Inhabited

/-- A rule `pattern when guard -> body` of a match. -/
structure Rule (ε : Type) where
  pattern : Pattern
  guard : Option ε := none
  body : ε
  deriving Repr, Inhabited

/-- An expression. -/
inductive Expr where
  | const (value : Literal) (span : Span)
  | ident (id : Ident)
  /-- A function `fun param -> body`. -/
  | lambda (param : Pattern) (body : Expr) (span : Span)
  | apply (func arg : Expr) (span : Span)
  /-- A group `let bindings in body`; the bindings of a recursive group see each other. -/
  | letIn (recursive : Bool) (bindings : List (Binding Expr)) (body : Expr) (span : Span)
  /-- A condition; without an `else` the other branch is the unit value. -/
  | ifThenElse (condition yes : Expr) (no : Option Expr) (span : Span)
  | matchWith (scrutinee : Expr) (rules : List (Rule Expr)) (span : Span)
  /-- A function that matches its argument with rules. -/
  | function (rules : List (Rule Expr)) (span : Span)
  | tuple (elements : List Expr) (span : Span)
  | list (elements : List Expr) (span : Span)
  /-- A list `head :: tail`. -/
  | cons (head tail : Expr) (span : Span)
  | some (value : Expr) (span : Span)
  | none (span : Span)
  /-- An annotated expression `(value : ascribed)`. -/
  | typed (value : Expr) (ascribed : TypeExpr) (span : Span)
  deriving Inhabited

namespace Expr

/-- Where an expression is written. -/
def span : Expr → Span
  | .ident id => id.span
  | .const _ span | .lambda _ _ span | .apply _ _ span | .letIn _ _ _ span | .ifThenElse _ _ _ span
  | .matchWith _ _ span | .function _ span | .tuple _ span | .list _ span | .cons _ _ span
  | .some _ span | .none span | .typed _ _ span => span

/-- The same expression written elsewhere. -/
def withSpan (span : Span) : Expr → Expr
  | .const value _ => .const value span
  | .ident id => .ident { id with span }
  | .lambda param body _ => .lambda param body span
  | .apply func arg _ => .apply func arg span
  | .letIn recursive bindings body _ => .letIn recursive bindings body span
  | .ifThenElse condition yes no _ => .ifThenElse condition yes no span
  | .matchWith scrutinee rules _ => .matchWith scrutinee rules span
  | .function rules _ => .function rules span
  | .tuple elements _ => .tuple elements span
  | .list elements _ => .list elements span
  | .cons head tail _ => .cons head tail span
  | .some value _ => .some value span
  | .none _ => .none span
  | .typed value ascribed _ => .typed value ascribed span

/-- The application of a function to arguments in turn. -/
def call (func : Expr) (args : List Expr) : Expr :=
  args.foldl (fun func arg => .apply func arg {}) func

end Expr

end LetPoly
