import LetPoly.Env
import LetPoly.TypeError

/-!
Renaming of type variables, in everything that mentions them.
-/
namespace LetPoly

/-- Moves the variables from `n` on by `k`. -/
def TyVar.shift (n k : Nat) (v : TyVar) : TyVar :=
  if v < n then v else v + k

/-- Renames the variables of a type. -/
def Ty.rename (ρ : TyVar → TyVar) (t : Ty) : Ty :=
  t.bind fun v => .var (ρ v)

/-- Renames the variables of a scheme, the quantified ones too. -/
def Scheme.rename (ρ : TyVar → TyVar) (σ : Scheme) : Scheme :=
  { vars := σ.vars.map ρ, ty := σ.ty.rename ρ }

/-- Renames the variables of all schemes. -/
def Env.rename (ρ : TyVar → TyVar) (Γ : Env) : Env :=
  Γ.map fun _ σ => σ.rename ρ

/-- Renames the variables that an error mentions. -/
def TypeError.rename (ρ : TyVar → TyVar) (e : TypeError) : TypeError :=
  match e.cause with
  | .mismatch expected found note =>
    { e with cause := .mismatch (expected.rename ρ) (found.rename ρ) note }
  | .infinite v t => { e with cause := .infinite (ρ v) (t.rename ρ) }
  | _ => e

end LetPoly
