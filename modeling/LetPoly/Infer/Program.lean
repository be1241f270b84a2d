import LetPoly.Infer.Expr
import LetPoly.Syntax.Item

/-!
Inference of whole programs: items in turn, each in the environment that the items before it leave.
The first error ends the run.
-/
namespace LetPoly.Infer

/-- Checks the definition of a measure, if there is one. -/
def checkDefinition (span : Span) : Option MeasureExpr → Infer Unit
  | some definition => discard (resolveMeasure span definition)
  | none => return

/-- Infers an item and returns the environment that the next item sees. Named annotation variables
    and what is solved belong to one item. -/
def inferItem (Γ : Env) (item : Item) : Infer Env := do
  modify fun st => { st with named := ∅, solved := ∅ }
  match item with
  | .expr value =>
    let (s, t) ← inferExpr Γ value
    record [.typed t]
    return Γ.subst s
  | .letGroup recursive bindings =>
    let (_, Γ') ← inferGroup Γ recursive bindings
    return Γ'
  | .measure name definition span =>
    checkDefinition span definition
    record [.declared name]
    modify fun st => { st with measures := st.measures.insert name }
    return Γ

/-- Infers items in turn. -/
def inferItems (Γ : Env) : List Item → Infer Env
  | [] => return Γ
  | item :: items => do
    let Γ' ← inferItem Γ item
    inferItems Γ' items

/-- Infers a program and returns the schemes of all names. -/
def inferProgram (Γ : Env) (items : List Item) : Infer Env := do
  record [.began items.length]
  inferItems Γ items

/-- Infers a program from the start, in a given environment. -/
def inferFrom (Γ : Env) (items : List Item) : Infer Env := do
  reserve Γ
  inferProgram Γ items

end LetPoly.Infer

namespace LetPoly

/-- What is left of a run when its final state is forgotten. -/
def Infer.outcome {α : Type} : EStateM.Result Failure State α → Except Failure α
  | .ok a _ => .ok a
  | .error e _ => .error e

/-- The schemes of the names of a program and of the environment it starts in, or why it has none. -/
def runInfer (Γ : Env) (items : List Item) : Except Failure Env :=
  Infer.outcome ((Infer.inferFrom Γ items).run {})

end LetPoly
