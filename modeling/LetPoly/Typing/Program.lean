import LetPoly.Typing.Expr

/-!
The typing rules of items and programs. They take the types that an annotation allows as a parameter,
for each choice of declared measures; `Means` is the reading of a program as it is written.
-/
namespace LetPoly.Typing

/-- An item is typed in an environment, and leaves the measures and the environment to the next
    one. -/
inductive ItemTyped (R : Measures → Reading) : Measures → Env → Item → Measures → Env → Prop where
  | expr {M : Measures} {Γ : Env} {value : Expr} {t : Ty} : HasType M (R M) Γ value t →
    ItemTyped R M Γ (.expr value) M Γ
  | letGroup {M : Measures} {Γ : Env} {recursive : Bool} {bindings : List (Binding Expr)}
    {named : List (String × Ty)} : (groupNames bindings).Nodup →
    ValuesTyped M (R M) (valueEnv Γ recursive named) bindings named →
    ItemTyped R M Γ (.letGroup recursive bindings) M (bodyEnv Γ named)
  | measure {M : Measures} {Γ : Env} {name : String} {definition : Option MeasureExpr} (span : Span) :
    (∀ m ∈ definition, Declared M m) →
    ItemTyped R M Γ (.measure name definition span) (M.insert name) Γ

/-- The items of a program are typed in turn, from the measures and the environment at the start to
    the environment at the end. -/
inductive ItemsTyped (R : Measures → Reading) : Measures → Env → List Item → Env → Prop where
  | nil {M : Measures} {Γ : Env} : ItemsTyped R M Γ [] Γ
  | cons {M M' : Measures} {Γ Γ' Γ'' : Env} {item : Item} {items : List Item} :
    ItemTyped R M Γ item M' Γ' → ItemsTyped R M' Γ' items Γ'' → ItemsTyped R M Γ (item :: items) Γ''

end LetPoly.Typing
