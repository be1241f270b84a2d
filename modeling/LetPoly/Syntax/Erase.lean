import LetPoly.Syntax.Item

/-!
Programs without their annotations.
-/
namespace LetPoly

namespace Pattern

mutual

/-- The pattern without annotations. -/
def erase : Pattern → Pattern
  | .wild span => .wild span
  | .ident id => .ident id
  | .const value span => .const value span
  | .tuple elements span => .tuple (eraseList elements) span
  | .list elements span => .list (eraseList elements) span
  | .cons head tail span => .cons head.erase tail.erase span
  | .some inner span => .some inner.erase span
  | .none span => .none span
  | .typed inner _ _ => inner.erase

/-- The patterns without annotations. -/
def eraseList : List Pattern → List Pattern
  | [] => []
  | p :: ps => p.erase :: eraseList ps

end

end Pattern

namespace Expr

mutual

/-- The expression without annotations. -/
def erase : Expr → Expr
  | .const value span => .const value span
  | .ident id => .ident id
  | .lambda param body span => .lambda param.erase body.erase span
  | .apply func arg span => .apply func.erase arg.erase span
  | .letIn recursive bindings body span => .letIn recursive (eraseBindings bindings) body.erase span
  | .ifThenElse condition yes no span => .ifThenElse condition.erase yes.erase (eraseOption no) span
  | .matchWith scrutinee rules span => .matchWith scrutinee.erase (eraseRules rules) span
  | .function rules span => .function (eraseRules rules) span
  | .tuple elements span => .tuple (eraseList elements) span
  | .list elements span => .list (eraseList elements) span
  | .cons head tail span => .cons head.erase tail.erase span
  | .some value span => .some value.erase span
  | .none span => .none span
  | .typed value _ _ => value.erase

/-- An expression that may be missing, without annotations. -/
def eraseOption : Option Expr → Option Expr
  | .none => .none
  | .some e => .some e.erase

/-- The expressions without annotations. -/
def eraseList : List Expr → List Expr
  | [] => []
  | e :: es => e.erase :: eraseList es

/-- The bindings without annotations. -/
def eraseBindings : List (Binding Expr) → List (Binding Expr)
  | [] => []
  | ⟨pattern, value⟩ :: bindings => ⟨pattern.erase, value.erase⟩ :: eraseBindings bindings

/-- The rules without annotations. -/
def eraseRules : List (Rule Expr) → List (Rule Expr)
  | [] => []
  | ⟨pattern, guard, body⟩ :: rules => ⟨pattern.erase, eraseOption guard, body.erase⟩ :: eraseRules rules

end

end Expr

/-- The item without annotations. -/
def Item.erase : Item → Item
  | .expr value => .expr value.erase
  | .letGroup recursive bindings => .letGroup recursive (Expr.eraseBindings bindings)
  | .measure name definition span => .measure name definition span

end LetPoly
