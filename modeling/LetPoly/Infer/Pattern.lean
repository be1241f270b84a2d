import LetPoly.Infer.Resolve

/-!
Inference of patterns: what a pattern says about the type that it is matched with, and the types of
the names that it binds. These types are not quantified.
-/
namespace LetPoly.Infer

/-- The first name that a list has for the second time, where it stands then. -/
def duplicate? (seen : List String) : List Ident → Option Ident
  | [] => none
  | id :: ids => if id.name ∈ seen then some id else duplicate? (id.name :: seen) ids

/-- Refuses a name that is bound twice. -/
def checkDistinct (ids : List Ident) : Infer Unit :=
  match duplicate? [] ids with
  | some id => fail id.span (.duplicateVariable id.name)
  | none => return

/-- Refuses a tuple pattern of `n` components against a tuple type of another length. -/
def checkArity (span : Span) (t : Ty) (n : Nat) : Infer Unit :=
  match t.components? with
  | some components => if components.length = n then return else fail span (.patternArity components.length n)
  | none => return

/-- The tuple type of the components of a tuple pattern. -/
def tupleShape (span : Span) (components : List Ty) : Infer Ty :=
  match Ty.tupleOf? components with
  | some shape => return shape
  | none =>
    fail span (.impossiblePattern
      ("a tuple pattern needs at least two components, found " ++ toString components.length))

mutual

/-- Matches a pattern with a type. The types of the names are under the substitution that is
    returned. -/
def matchPattern (t : Ty) : Pattern → Infer (Subst × List (String × Ty))
  | .wild _ => return (∅, [])
  | .ident id => return (∅, [(id.name, t)])
  | .const value span => do
    let found ← literalType span value
    let s ← equate span t found
    return (s, [])
  | .tuple elements span => do
    checkArity span t elements.length
    let vars ← freshList elements.length
    let shape ← tupleShape span vars
    let s ← equate span t shape
    matchPatterns s vars elements
  | .list elements span => do
    let elem ← fresh
    let s ← equate span t (.list elem)
    matchPatterns s (elements.map fun _ => elem) elements
  | .cons head tail span => do
    let elem ← fresh
    let s₁ ← equate span t (.list elem)
    let (s₂, heads) ← matchPattern (s₁.apply elem) head
    let s := s₂.after s₁
    let (s₃, tails) ← matchPattern (s.apply (.list elem)) tail
    let s := s₃.after s
    return (s, s.applyNamed (heads ++ tails))
  | .some inner span => do
    let elem ← fresh
    let s₁ ← equate span t (.option elem)
    let (s₂, named) ← matchPattern (s₁.apply elem) inner
    let s := s₂.after s₁
    return (s, s.applyNamed named)
  | .none span => do
    let elem ← fresh
    let s ← equate span t (.option elem)
    return (s, [])
  | .typed inner ascribed span => do
    let annotated ← resolve ascribed
    let s₁ ← equate span t annotated
    let (s₂, named) ← matchPattern (s₁.apply annotated) inner
    let s := s₂.after s₁
    return (s, s.applyNamed named)

/-- Matches patterns with types in turn, each under what is solved before it. -/
def matchPatterns (s : Subst) : List Ty → List Pattern → Infer (Subst × List (String × Ty))
  | t :: ts, p :: ps => do
    let (s₁, named) ← matchPattern (s.apply t) p
    let (s₂, others) ← matchPatterns (s₁.after s) ts ps
    return (s₂, s₂.applyNamed named ++ others)
  | _, _ => return (s, [])

end

/-- Infers a pattern against a type. A name may be bound only once. -/
def inferPattern (t : Ty) (p : Pattern) : Infer (Subst × List (String × Ty)) := do
  checkDistinct p.idents
  matchPattern t p

end LetPoly.Infer
