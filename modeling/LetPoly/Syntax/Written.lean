import LetPoly.Syntax.Item

/-!
What a program says about types in writing: its literals and its annotations, and the variables and
measures that they name.
-/
namespace LetPoly

/-- The names in a measure, from left to right. -/
def MeasureExpr.names : MeasureExpr → List String
  | .one => []
  | .named name _ => [name]
  | .product left right => left.names ++ right.names
  | .quotient numerator denominator => numerator.names ++ denominator.names
  | .power base _ => base.names

namespace TypeExpr

mutual

/-- The named variables of a written type, from left to right. -/
def varNames : TypeExpr → List String
  | .con _ args _ => varNamesList args
  | .var name _ => [name]
  | .func param result => param.varNames ++ result.varNames
  | .tuple elements _ => varNamesList elements
  | .measured base _ _ => base.varNames

/-- The named variables of written types. -/
def varNamesList : List TypeExpr → List String
  | [] => []
  | e :: es => e.varNames ++ varNamesList es

end

mutual

/-- The measures that a written type names. -/
def measureNames : TypeExpr → List String
  | .con _ args _ => measureNamesList args
  | .var _ _ => []
  | .func param result => param.measureNames ++ result.measureNames
  | .tuple elements _ => measureNamesList elements
  | .measured base measure _ => base.measureNames ++ measure.names

/-- The measures that written types name. -/
def measureNamesList : List TypeExpr → List String
  | [] => []
  | e :: es => e.measureNames ++ measureNamesList es

end

end TypeExpr

/-- The measures that a literal names. -/
def Literal.measureNames : Literal → List String
  | .measured _ measure => measure.names
  | .number _ | .bool _ | .char _ | .string _ | .unit => []

/-- A literal or an annotation of a program. -/
inductive Written where
  | literal (value : Literal)
  | ascribed (t : TypeExpr)

/-- The named variables of a literal or an annotation. -/
def Written.varNames : Written → List String
  | .literal _ => []
  | .ascribed t => t.varNames

/-- The measures that a literal or an annotation names. -/
def Written.measureNames : Written → List String
  | .literal value => value.measureNames
  | .ascribed t => t.measureNames

namespace Pattern

mutual

/-- The literals and annotations of a pattern. -/
def written : Pattern → List Written
  | .wild _ | .ident _ | .none _ => []
  | .const value _ => [.literal value]
  | .tuple elements _ | .list elements _ => writtenList elements
  | .cons head tail _ => head.written ++ tail.written
  | .some inner _ => inner.written
  | .typed inner ascribed _ => .ascribed ascribed :: inner.written

/-- The literals and annotations of patterns. -/
def writtenList : List Pattern → List Written
  | [] => []
  | p :: ps => p.written ++ writtenList ps

end

end Pattern

namespace Expr

mutual

/-- The literals and annotations of an expression. -/
def written : Expr → List Written
  | .ident _ | .none _ => []
  | .const value _ => [.literal value]
  | .lambda param body _ => param.written ++ body.written
  | .apply func arg _ => func.written ++ arg.written
  | .letIn _ bindings body _ => writtenBindings bindings ++ body.written
  | .ifThenElse condition yes no _ => condition.written ++ yes.written ++ writtenOption no
  | .matchWith scrutinee rules _ => scrutinee.written ++ writtenRules rules
  | .function rules _ => writtenRules rules
  | .tuple elements _ | .list elements _ => writtenList elements
  | .cons head tail _ => head.written ++ tail.written
  | .some value _ => value.written
  | .typed value ascribed _ => .ascribed ascribed :: value.written

/-- The literals and annotations of an expression that may be missing. -/
def writtenOption : Option Expr → List Written
  | .none => []
  | .some e => e.written

/-- The literals and annotations of expressions. -/
def writtenList : List Expr → List Written
  | [] => []
  | e :: es => e.written ++ writtenList es

/-- The literals and annotations of bindings. -/
def writtenBindings : List (Binding Expr) → List Written
  | [] => []
  | ⟨pattern, value⟩ :: bindings => pattern.written ++ value.written ++ writtenBindings bindings

/-- The literals and annotations of rules. -/
def writtenRules : List (Rule Expr) → List Written
  | [] => []
  | ⟨pattern, guard, body⟩ :: rules =>
    pattern.written ++ writtenOption guard ++ body.written ++ writtenRules rules

end

end Expr

namespace Item

/-- The literals and annotations of an item. -/
def written : Item → List Written
  | .expr value => value.written
  | .letGroup _ bindings => Expr.writtenBindings bindings
  | .measure _ _ _ => []

/-- The measures that an item names: in its literals and annotations, or in the definition of the
    measure that it declares. -/
def measureNames : Item → List String
  | .measure _ definition _ => definition.elim [] MeasureExpr.names
  | item => item.written.flatMap Written.measureNames

/-- The measure that an item declares. -/
def declares : Item → List String
  | .measure name _ _ => [name]
  | .expr _ | .letGroup _ _ => []

/-- No annotation of the item has a named variable. -/
def NoNamedVars (item : Item) : Prop :=
  ∀ w ∈ item.written, w.varNames = []

instance (item : Item) : Decidable item.NoNamedVars :=
  inferInstanceAs (Decidable (∀ w ∈ item.written, w.varNames = []))

end Item

end LetPoly
