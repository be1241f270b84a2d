import LetPoly.Syntax.Item

/-!
Scoping: the names that patterns, groups and items bind, and the identifiers that are free in an
expression. The parameter of a function and the pattern of a rule scope over the body, and a rule's
over its guard too; the names of a group scope over its body, and over its values if it is recursive.
-/
namespace LetPoly

/-- The names that a pattern binds. -/
def Pattern.names (p : Pattern) : List String :=
  p.idents.map Ident.name

/-- The names that a group binds. -/
def groupNames (bindings : List (Binding Expr)) : List String :=
  bindings.flatMap fun b => b.pattern.names

/-- The names that an item adds to the environment. -/
def Item.names : Item → List String
  | .letGroup _ bindings => groupNames bindings
  | .expr _ | .measure _ _ _ => []

/-- The identifiers whose names are not bound. -/
def hide (names : List String) (ids : List Ident) : List Ident :=
  ids.filter fun id => !names.contains id.name

namespace Expr

mutual

/-- The free identifiers of an expression, from left to right, each as often as it is written. -/
def free : Expr → List Ident
  | .const _ _ | .none _ => []
  | .ident id => [id]
  | .lambda param body _ => hide param.names body.free
  | .apply func arg _ => func.free ++ arg.free
  | .letIn recursive bindings body _ =>
    let names := groupNames bindings
    if recursive then hide names (freeValues bindings ++ body.free)
    else freeValues bindings ++ hide names body.free
  | .ifThenElse condition yes no _ => condition.free ++ yes.free ++ freeOption no
  | .matchWith scrutinee rules _ => scrutinee.free ++ freeRules rules
  | .function rules _ => freeRules rules
  | .tuple elements _ | .list elements _ => freeList elements
  | .cons head tail _ => head.free ++ tail.free
  | .some value _ | .typed value _ _ => value.free

/-- The free identifiers of an expression that may be missing. -/
def freeOption : Option Expr → List Ident
  | .none => []
  | .some e => e.free

/-- The free identifiers of expressions. -/
def freeList : List Expr → List Ident
  | [] => []
  | e :: es => e.free ++ freeList es

/-- The free identifiers of the values of a group, the names of the group included. -/
def freeValues : List (Binding Expr) → List Ident
  | [] => []
  | ⟨_, value⟩ :: bindings => value.free ++ freeValues bindings

/-- The free identifiers of rules. -/
def freeRules : List (Rule Expr) → List Ident
  | [] => []
  | ⟨pattern, guard, body⟩ :: rules =>
    hide pattern.names (freeOption guard ++ body.free) ++ freeRules rules

end

end Expr

/-- The free identifiers of an item. -/
def Item.free : Item → List Ident
  | .expr value => value.free
  | .letGroup recursive bindings =>
    if recursive then hide (groupNames bindings) (Expr.freeValues bindings) else Expr.freeValues bindings
  | .measure _ _ _ => []

end LetPoly
