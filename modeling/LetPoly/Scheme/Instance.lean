import LetPoly.Ty.Rename

/-!
The meaning of schemes: their instances, when one is at least as general as another, and when two
differ only in the names of quantified variables.
-/
namespace LetPoly.Scheme

/-- A type that comes from the scheme by replacing quantified variables. -/
def Instance (σ : Scheme) (t : Ty) : Prop :=
  ∃ f : TyVar → Ty, (∀ v, v ∉ σ.vars → f v = .var v) ∧ σ.ty.bind f = t

/-- Every instance of `τ` is an instance of `σ`. -/
def Generalizes (σ τ : Scheme) : Prop :=
  ∀ t, τ.Instance t → σ.Instance t

/-- No variable is free. -/
def Closed (σ : Scheme) : Prop :=
  ∀ v, v ∉ σ.freeVars

/-- The schemes are equal up to the names of quantified variables: a renaming that is injective on
    the variables of the type, keeps the free ones and maps quantified to quantified ones leads from
    one type to the other. Order, repetition and unused entries of the quantified variables do not
    count. -/
def AlphaEq (σ τ : Scheme) : Prop :=
  ∃ ρ : TyVar → TyVar,
    (∀ v ∈ σ.ty.freeVars, ∀ w ∈ σ.ty.freeVars, ρ v = ρ w → v = w) ∧
    (∀ v ∈ σ.ty.freeVars, (v ∈ σ.vars ↔ ρ v ∈ τ.vars) ∧ (v ∉ σ.vars → ρ v = v)) ∧
    σ.ty.rename ρ = τ.ty

end LetPoly.Scheme

namespace LetPoly.Env

/-- All schemes are closed. -/
def Closed (Γ : Env) : Prop :=
  ∀ (name : String) (σ : Scheme), Γ[name]? = some σ → σ.Closed

/-- The environments have the same names, and related schemes for each. -/
def Related (R : Scheme → Scheme → Prop) (Γ Δ : Env) : Prop :=
  ∀ name : String, match Γ[name]?, Δ[name]? with
    | some σ, some τ => R σ τ
    | none, none => True
    | _, _ => False

/-- Every variable that a scheme mentions, free or quantified, is below `n`. -/
def Below (n : Nat) (Γ : Env) : Prop :=
  ∀ v ∈ Γ.mentioned, v < n

end LetPoly.Env
