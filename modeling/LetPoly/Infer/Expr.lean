import LetPoly.Infer.Pattern
import LetPoly.Syntax.Expr

/-!
Inference of expressions. An expression yields its type and the substitution solved on the way;
substitutions are composed in the order in which the parts are visited, and each part sees the
environment under what is solved before it. The names of a `let` group are generalised, the names of
other patterns are not.
-/
namespace LetPoly.Infer

/-- Infers the patterns of a recursive group, each against a new variable that stands for its value
    until the value is inferred. -/
def inferPlaceholders (s : Subst) : List Pattern → Infer (Subst × List Ty × List (String × Ty))
  | [] => return (s, [], [])
  | p :: ps => do
    let placeholder ← fresh
    let (s₁, named) ← inferPattern placeholder p
    let (s₂, placeholders, others) ← inferPlaceholders (s₁.after s) ps
    return (s₂, placeholder :: placeholders, named ++ others)

/-- Quantifies the types of the names of a group over what is not free in the environment, and adds
    the names to it. -/
def generalizeAll (Γ : Env) (named : List (String × Ty)) : Infer Env := do
  let schemes := named.map fun (name, t) => (name, Γ.generalize t)
  record (schemes.map fun (name, σ) => .generalized name σ)
  return Γ.extend schemes

/-- Infers a `let` group, given the inference of its values: `plain` if they do not see the names of
    the group, `values` from the environment with these names, what is solved, and the placeholders
    if they do. Returns the environment that the body of the group sees. -/
def groupOf (Γ : Env) (recursive : Bool) (bindings : List (Binding Expr))
    (plain : Infer (Subst × List (String × Ty))) (values : Env → Subst → List Ty → Infer Subst) :
    Infer (Subst × Env) := do
  checkDistinct (bindings.flatMap fun b => b.pattern.idents)
  let (s, named) ←
    if recursive then do
      let (s₁, placeholders, named) ← inferPlaceholders ∅ (bindings.map Binding.pattern)
      let s ← values (Γ.extendMono named) s₁ placeholders
      pure (s, named)
    else plain
  let Γ' ← generalizeAll (Γ.subst s) (s.applyNamed named)
  return (s, Γ')

mutual

/-- Infers an expression. -/
def inferExpr (Γ : Env) : Expr → Infer (Subst × Ty)
  | .const value span => do
    let t ← literalType span value
    return (∅, t)
  | .ident id =>
    match Γ[id.name]? with
    | some σ => do
      let t ← instantiate σ
      return (∅, t)
    | none => fail id.span (.unboundVariable id.name)
  | .lambda param body _ => do
    let t ← fresh
    let (s₁, named) ← inferPattern t param
    let (s₂, result) ← inferExpr ((Γ.subst s₁).extendMono named) body
    let s := s₂.after s₁
    return (s, .func (s.apply t) result)
  | .apply func arg span => do
    let (s₁, funcType) ← inferExpr Γ func
    let (s₂, argType) ← inferExpr (Γ.subst s₁) arg
    let result ← fresh
    let s₃ ← equate span (s₂.apply funcType) (.func argType result)
    let s := (s₃.after s₂).after s₁
    return (s, s.apply result)
  | .letIn recursive bindings body _ => do
    let (s₁, Γ') ← groupOf Γ recursive bindings (inferPlain Γ ∅ bindings)
      fun Γ s placeholders => inferValues Γ s placeholders bindings
    let (s₂, t) ← inferExpr Γ' body
    return (s₂.after s₁, t)
  | .ifThenElse condition yes no span => do
    let (s₁, conditionType) ← inferExpr Γ condition
    let s₂ ← equate condition.span .bool conditionType (some "the condition of an if must be a bool")
    let s := s₂.after s₁
    let (s₃, yesType) ← inferExpr (Γ.subst s) yes
    let s := s₃.after s
    let (s₄, noType) ← inferElse (Γ.subst s) no
    let s := s₄.after s
    let s₅ ← equate span (s.apply yesType) (s.apply noType)
      (some "both branches of an if must have the same type")
    let s := s₅.after s
    return (s, s.apply yesType)
  | .matchWith scrutinee rules _ => do
    let (s₁, input) ← inferExpr Γ scrutinee
    let result ← fresh
    let s ← inferRules Γ input result s₁ rules
    return (s, s.apply result)
  | .function rules _ => do
    let input ← fresh
    let result ← fresh
    let s ← inferRules Γ input result ∅ rules
    return (s, .func (s.apply input) (s.apply result))
  | .tuple elements span => do
    let (s, ts) ← inferSequence Γ ∅ elements
    let t ← tupleType span ts
    return (s, t)
  | .list elements _ => do
    let elem ← fresh
    let s ← inferElements Γ elem ∅ elements
    return (s, .list (s.apply elem))
  | .cons head tail span => do
    let (s₁, headType) ← inferExpr Γ head
    let (s₂, tailType) ← inferExpr (Γ.subst s₁) tail
    let expected := Ty.list (s₂.apply headType)
    let s₃ ← equate span expected tailType
    let s := (s₃.after s₂).after s₁
    return (s, s.apply expected)
  | .some value _ => do
    let (s, t) ← inferExpr Γ value
    return (s, .option t)
  | .none _ => do
    let t ← fresh
    return (∅, .option t)
  | .typed value ascribed span => do
    let (s₁, t) ← inferExpr Γ value
    let annotated ← resolve ascribed
    let s₂ ← equate span annotated t
    let s := s₂.after s₁
    return (s, s.apply annotated)

/-- Infers the other branch of a condition, which is the unit value if it is not written. -/
def inferElse (Γ : Env) : Option Expr → Infer (Subst × Ty)
  | some e => inferExpr Γ e
  | none => return (∅, .unit)

/-- Infers the guard of a rule, which has to be a truth value. -/
def inferGuard (Γ : Env) : Option Expr → Infer Subst
  | some e => do
    let (s₁, t) ← inferExpr Γ e
    let s₂ ← equate e.span .bool t (some "a when guard must be a bool")
    return s₂.after s₁
  | none => return ∅

/-- Infers rules in turn, under the substitution solved so far: each pattern has to accept the type
    `input`, and each body has the type `result`. -/
def inferRules (Γ : Env) (input result : Ty) (s : Subst) : List (Rule Expr) → Infer Subst
  | [] => return s
  | ⟨pattern, guard, body⟩ :: rules => do
    let (s₁, named) ← inferPattern (s.apply input) pattern
    let s := s₁.after s
    let Γ' := (Γ.subst s).extendMono named
    let s₂ ← inferGuard Γ' guard
    let s := s₂.after s
    let (s₃, t) ← inferExpr (Γ'.subst s) body
    let s := s₃.after s
    let s₄ ← equate body.span (s.apply result) (s.apply t)
      (some "all match rules must return the same type")
    inferRules Γ input result (s₄.after s) rules

/-- Infers the elements of a list in turn, each of which has the type `elem`. -/
def inferElements (Γ : Env) (elem : Ty) (s : Subst) : List Expr → Infer Subst
  | [] => return s
  | e :: es => do
    let (s₁, t) ← inferExpr (Γ.subst s) e
    let s := s₁.after s
    let s₂ ← equate e.span (s.apply elem) t (some "list elements must all have the same type")
    inferElements Γ elem (s₂.after s) es

/-- Infers expressions in turn. All types are under the substitution that is returned. -/
def inferSequence (Γ : Env) (s : Subst) : List Expr → Infer (Subst × List Ty)
  | [] => return (s, [])
  | e :: es => do
    let (s₁, t) ← inferExpr (Γ.subst s) e
    let (s₂, ts) ← inferSequence Γ (s₁.after s) es
    return (s₂, s₂.apply t :: ts)

/-- Infers the bindings of a group that is not recursive: no value sees the names of the group. -/
def inferPlain (Γ : Env) (s : Subst) : List (Binding Expr) → Infer (Subst × List (String × Ty))
  | [] => return (s, [])
  | ⟨pattern, value⟩ :: bindings => do
    let (s₁, t) ← inferExpr (Γ.subst s) value
    let s := s₁.after s
    let (s₂, named) ← inferPattern t pattern
    let (s₃, others) ← inferPlain Γ (s₂.after s) bindings
    return (s₃, named ++ others)

/-- Infers the values of a recursive group, each of which has the type of its placeholder. The
    environment has all names of the group. -/
def inferValues (Γ : Env) (s : Subst) : List Ty → List (Binding Expr) → Infer Subst
  | placeholder :: placeholders, ⟨_, value⟩ :: bindings => do
    let (s₁, t) ← inferExpr (Γ.subst s) value
    let s := s₁.after s
    let s₂ ← equate value.span (s.apply placeholder) (s.apply t)
    inferValues Γ (s₂.after s) placeholders bindings
  | _, _ => return s

end

/-- Infers a `let` group and returns the environment that its body sees. -/
def inferGroup (Γ : Env) (recursive : Bool) (bindings : List (Binding Expr)) : Infer (Subst × Env) :=
  groupOf Γ recursive bindings (inferPlain Γ ∅ bindings)
    fun Γ s placeholders => inferValues Γ s placeholders bindings

theorem inferExpr_letIn (Γ : Env) (recursive : Bool) (bindings : List (Binding Expr)) (body : Expr)
    (span : Span) :
    inferExpr Γ (.letIn recursive bindings body span) = (do
      let (s₁, Γ') ← inferGroup Γ recursive bindings
      let (s₂, t) ← inferExpr Γ' body
      return (s₂.after s₁, t)) := by
  rw [inferExpr, inferGroup]

end LetPoly.Infer
