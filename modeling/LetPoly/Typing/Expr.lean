import LetPoly.Scheme.Instance
import LetPoly.Syntax.Scope
import LetPoly.Typing.Pattern

/-!
The typing rules of expressions, as relations that choose types freely: no rule has substitutions or
new variables. An identifier has every instance of its scheme; the names of a group are quantified
over what is not free outside the group, all other names have one type.
-/
namespace LetPoly.Typing

/-- The environment that the body of a group sees: its names have their types quantified over what
    is not free outside. -/
def bodyEnv (Γ : Env) (named : List (String × Ty)) : Env :=
  Γ.extend (named.map fun (name, t) => (name, Γ.generalize t))

/-- The environment in which the values of a group are typed. -/
def valueEnv (Γ : Env) (recursive : Bool) (named : List (String × Ty)) : Env :=
  if recursive then Γ.extendMono named else Γ

mutual

/-- An expression has a type. -/
inductive HasType (M : Measures) (A : Reading) : Env → Expr → Ty → Prop where
  | const {Γ : Env} {value : Literal} {t : Ty} (span : Span) : LiteralType M value t →
    HasType M A Γ (.const value span) t
  | ident {Γ : Env} {id : Ident} {σ : Scheme} {t : Ty} : Γ[id.name]? = Option.some σ → σ.Instance t →
    HasType M A Γ (.ident id) t
  | lambda {Γ : Env} {param : Pattern} {body : Expr} {a b : Ty} {named : List (String × Ty)} (span : Span) :
    param.names.Nodup → Accepts M A param a named → HasType M A (Γ.extendMono named) body b →
    HasType M A Γ (.lambda param body span) (.func a b)
  | apply {Γ : Env} {func arg : Expr} {a b : Ty} (span : Span) : HasType M A Γ func (.func a b) →
    HasType M A Γ arg a → HasType M A Γ (.apply func arg span) b
  | letIn {Γ : Env} {recursive : Bool} {bindings : List (Binding Expr)} {body : Expr} {t : Ty}
    {named : List (String × Ty)} (span : Span) : (groupNames bindings).Nodup →
    ValuesTyped M A (valueEnv Γ recursive named) bindings named →
    HasType M A (bodyEnv Γ named) body t → HasType M A Γ (.letIn recursive bindings body span) t
  | ifThenElse {Γ : Env} {condition yes no : Expr} {t : Ty} (span : Span) :
    HasType M A Γ condition .bool → HasType M A Γ yes t → HasType M A Γ no t →
    HasType M A Γ (.ifThenElse condition yes (Option.some no) span) t
  | ifThen {Γ : Env} {condition yes : Expr} (span : Span) : HasType M A Γ condition .bool →
    HasType M A Γ yes .unit → HasType M A Γ (.ifThenElse condition yes Option.none span) .unit
  | matchWith {Γ : Env} {scrutinee : Expr} {rules : List (Rule Expr)} {a b : Ty} (span : Span) :
    HasType M A Γ scrutinee a → RulesTyped M A Γ rules a b → HasType M A Γ (.matchWith scrutinee rules span) b
  | function {Γ : Env} {rules : List (Rule Expr)} {a b : Ty} (span : Span) : RulesTyped M A Γ rules a b →
    HasType M A Γ (.function rules span) (.func a b)
  | tuple {Γ : Env} {elements : List Expr} {a b : Ty} {ts : List Ty} (span : Span) :
    HaveTypes M A Γ elements (a :: b :: ts) → HasType M A Γ (.tuple elements span) (.tuple a b ts)
  | list {Γ : Env} {elements : List Expr} {t : Ty} (span : Span) :
    HaveTypes M A Γ elements (elements.map fun _ => t) → HasType M A Γ (.list elements span) (.list t)
  | cons {Γ : Env} {head tail : Expr} {t : Ty} (span : Span) : HasType M A Γ head t →
    HasType M A Γ tail (.list t) → HasType M A Γ (.cons head tail span) (.list t)
  | some {Γ : Env} {value : Expr} {t : Ty} (span : Span) : HasType M A Γ value t →
    HasType M A Γ (.some value span) (.option t)
  | none {Γ : Env} (span : Span) (t : Ty) : HasType M A Γ (.none span) (.option t)
  | typed {Γ : Env} {value : Expr} {ascribed : TypeExpr} {t : Ty} (span : Span) : A ascribed t →
    HasType M A Γ value t → HasType M A Γ (.typed value ascribed span) t

/-- Expressions have types one by one. -/
inductive HaveTypes (M : Measures) (A : Reading) : Env → List Expr → List Ty → Prop where
  | nil {Γ : Env} : HaveTypes M A Γ [] []
  | cons {Γ : Env} {e : Expr} {es : List Expr} {t : Ty} {ts : List Ty} : HasType M A Γ e t →
    HaveTypes M A Γ es ts → HaveTypes M A Γ (e :: es) (t :: ts)

/-- The values of a group have types that their patterns accept. -/
inductive ValuesTyped (M : Measures) (A : Reading) : Env → List (Binding Expr) → List (String × Ty) → Prop where
  | nil {Γ : Env} : ValuesTyped M A Γ [] []
  | cons {Γ : Env} {pattern : Pattern} {value : Expr} {bindings : List (Binding Expr)} {t : Ty}
    {named others : List (String × Ty)} : HasType M A Γ value t → Accepts M A pattern t named →
    ValuesTyped M A Γ bindings others → ValuesTyped M A Γ (⟨pattern, value⟩ :: bindings) (named ++ others)

/-- Rules that match values of the type `a` and give results of the type `b`. -/
inductive RulesTyped (M : Measures) (A : Reading) : Env → List (Rule Expr) → Ty → Ty → Prop where
  | nil {Γ : Env} {a b : Ty} : RulesTyped M A Γ [] a b
  | cons {Γ : Env} {pattern : Pattern} {guard : Option Expr} {body : Expr} {rules : List (Rule Expr)}
    {a b : Ty} {named : List (String × Ty)} : pattern.names.Nodup → Accepts M A pattern a named →
    GuardTyped M A (Γ.extendMono named) guard → HasType M A (Γ.extendMono named) body b →
    RulesTyped M A Γ rules a b → RulesTyped M A Γ (⟨pattern, guard, body⟩ :: rules) a b

/-- A guard is missing or a truth value. -/
inductive GuardTyped (M : Measures) (A : Reading) : Env → Option Expr → Prop where
  | missing {Γ : Env} : GuardTyped M A Γ Option.none
  | bool {Γ : Env} {guard : Expr} : HasType M A Γ guard .bool → GuardTyped M A Γ (Option.some guard)

end

end LetPoly.Typing
