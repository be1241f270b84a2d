import LetPoly.Ty.Basic

/-!
The parts of a type by their place in it.
-/
namespace LetPoly.Ty

/-- The direct parts of a type. -/
def parts : Ty → List Ty
  | .prim _ | .var _ => []
  | .wrap _ t => [t]
  | .func a b => [a, b]
  | .tuple a b ts => a :: b :: ts

/-- The part at a path, which says at each step which direct part to take. -/
def at? (t : Ty) : List Nat → Option Ty
  | [] => some t
  | i :: path =>
    match t.parts[i]? with
    | some part => part.at? path
    | none => none

/-- What a type that is no variable is at the outside. -/
inductive Head where
  | prim (p : Prim)
  | wrap (w : Wrapper)
  | func
  | tuple (length : Nat)
  deriving DecidableEq, Repr

/-- The head of a type that is no variable. -/
def head? : Ty → Option Head
  | .prim p => some (.prim p)
  | .var _ => none
  | .wrap w _ => some (.wrap w)
  | .func _ _ => some .func
  | .tuple _ _ ts => some (.tuple (ts.length + 2))

/-- Two types that are no variables and differ at the outside, so that no replacement of variables
    makes them equal. -/
def Clash (t u : Ty) : Prop :=
  ∃ h k, t.head? = some h ∧ u.head? = some k ∧ h ≠ k

end LetPoly.Ty
