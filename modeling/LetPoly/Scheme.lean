import LetPoly.Subst
import LetPoly.Ty.Text

/-!
Type schemes: a type and the variables it is quantified over. The list of quantified variables is
kept as it is given, so it may hold a variable twice or one that the type does not mention.
-/
namespace LetPoly

/-- A type quantified over some variables. -/
structure Scheme where
  vars : List TyVar
  ty : Ty
  deriving DecidableEq, Repr, Inhabited

/-- The letters of the alphabet in turn, followed from the second round on by the number of the round. -/
def letterName (index : Nat) : String :=
  let letter := Char.ofNat ('a'.toNat + index % 26)
  if index < 26 then letter.toString else letter.toString ++ toString (index / 26)

/-- The places of the members of a list, counted from `n`. -/
def placesFrom (n : Nat) : List TyVar → Std.ExtTreeMap TyVar Nat compare
  | [] => ∅
  | v :: vs => (placesFrom (n + 1) vs).insert v n

namespace Scheme

/-- The scheme of a type that is not quantified. -/
def mono (t : Ty) : Scheme :=
  { vars := [], ty := t }

/-- The quantified variables as a set. -/
def bound (σ : Scheme) : VarSet :=
  .ofList σ.vars

/-- The variables that are not quantified. -/
def freeVars (σ : Scheme) : VarSet :=
  σ.ty.freeVars \ σ.bound

/-- Replaces the variables that are not quantified. Quantified variables are not renamed, so a type
    that comes in with a variable of the same number is captured. -/
def subst (s : Subst) (σ : Scheme) : Scheme :=
  let bound := σ.bound
  { σ with ty := σ.ty.bind fun v => if v ∈ bound then .var v else s.value v }

/-- The quantified variables that the type mentions, by first appearance. -/
def boundInOrder (σ : Scheme) : List TyVar :=
  let bound := σ.bound
  σ.ty.varsInOrder.filter fun v => v ∈ bound

/-- The places of the quantified variables in the order of first appearance. -/
def places (σ : Scheme) : Std.ExtTreeMap TyVar Nat compare :=
  placesFrom 0 σ.boundInOrder

/-- The same scheme quantified over `0`, `1`, … by first appearance, and over nothing else. -/
def normalize (σ : Scheme) : Scheme :=
  let order := σ.boundInOrder
  let places := placesFrom 0 order
  { vars := List.range order.length
    ty := σ.ty.bind fun v => .var (places[v]?.getD v) }

/-- The name of a variable in the written form: a letter if it has a place, else its number. -/
def varText (places : Std.ExtTreeMap TyVar Nat compare) (v : TyVar) : String :=
  match places[v]? with
  | some i => "'" ++ letterName i
  | none => v.text

/-- The written form of a scheme. -/
def text (σ : Scheme) : String :=
  σ.ty.textWith (varText σ.places)

end Scheme

end LetPoly
