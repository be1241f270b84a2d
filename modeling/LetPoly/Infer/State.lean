import LetPoly.Env
import LetPoly.TypeError
import LetPoly.Infer.Event

/-!
The state of inference and its elementary steps: new variables, instances of schemes, equations
between types.
-/
namespace LetPoly

/-- The bound of the numbers of variables, which fit into 64 bits. The number after a variable in
    use has to stay below it too. -/
def varLimit : Nat :=
  UInt64.size

/-- What inference knows at a point of a program. It survives an error. -/
structure State where
  /-- The number of the next new variable. -/
  next : Nat := 0
  /-- The declared measures. -/
  measures : Std.ExtTreeSet String compare := ∅
  /-- The variables behind the named variables of the annotations of the current item. -/
  named : Std.ExtTreeMap String TyVar compare := ∅
  /-- Everything solved in the current item. -/
  solved : Subst := ∅
  /-- What happened, in order. -/
  journal : Array Event := #[]
  deriving DecidableEq

/-- Why inference stops. -/
inductive Failure where
  | illTyped (e : TypeError)
  /-- No number is left for a new variable. -/
  | outOfVariables
  deriving DecidableEq, Repr

/-- A step of inference. -/
abbrev Infer := EStateM Failure State

namespace Infer

/-- Stops with a type error. -/
def fail {α : Type} (span : Span) (cause : TypeError.Cause) : Infer α :=
  throw (.illTyped { cause, span })

/-- Adds events to the journal. -/
def record (events : List Event) : Infer Unit :=
  modify fun st => { st with journal := st.journal ++ events }

/-- A new variable. -/
def freshVar : Infer TyVar := do
  let st ← get
  if st.next + 1 < varLimit then
    set { st with next := st.next + 1 }
    return st.next
  else throw .outOfVariables

/-- The type of a new variable. -/
def fresh : Infer Ty :=
  return .var (← freshVar)

/-- The types of `n` new variables. -/
def freshList : Nat → Infer (List Ty)
  | 0 => return []
  | n + 1 => do
    let t ← fresh
    let ts ← freshList n
    return t :: ts

/-- Keeps the new variables apart from those that an environment mentions. -/
def reserve (Γ : Env) : Infer Unit := do
  if Γ.supply < varLimit then
    modify fun st => { st with next := max st.next Γ.supply }
  else throw .outOfVariables

/-- A substitution of new variables for the given ones. One that is given twice gets two new ones,
    and the later one counts. -/
def renewal : List TyVar → Infer Subst
  | [] => return ∅
  | v :: vs => do
    let t ← fresh
    let s ← renewal vs
    return (Subst.single v t) ∪ s

/-- An instance of a scheme by new variables. -/
def instantiate (σ : Scheme) : Infer Ty := do
  let s ← renewal σ.vars
  return s.apply σ.ty

/-- Makes two types equal and adds the solution to what is solved. The errors of this equation are
    reported at `span`, with the note if there is one. -/
def equate (span : Span) (expected found : Ty) (note : Option String := none) : Infer Subst := do
  record [.equated expected found]
  match unify expected found with
  | .ok s =>
    modify fun st => { st with solved := s.after st.solved }
    return s
  | .error e =>
    let e := TypeError.ofUnify span e
    throw (.illTyped (match note with
      | some note => e.withNote note
      | none => e))

end Infer

end LetPoly
