import LetPoly.Scheme

/-!
Type environments: finite maps from names to schemes, in the order of the names' code points.
-/
namespace LetPoly

/-- The schemes of the names in scope. -/
abbrev Env := Std.ExtTreeMap String Scheme compare

namespace Env

/-- Adds names in turn; a later entry for a name replaces an earlier one. -/
def extend (Γ : Env) (entries : List (String × Scheme)) : Env :=
  entries.foldl (fun Γ (name, σ) => Γ.insert name σ) Γ

/-- Adds names with types that are not quantified. -/
def extendMono (Γ : Env) (named : List (String × Ty)) : Env :=
  Γ.extend (named.map fun (name, t) => (name, Scheme.mono t))

/-- Replaces the free variables of every scheme. The empty substitution does not look at the
    schemes. -/
def subst (s : Subst) (Γ : Env) : Env :=
  if s.isEmpty then Γ else Γ.map fun _ σ => σ.subst s

/-- The variables that are free in some scheme. -/
def freeVars (Γ : Env) : VarSet :=
  Γ.foldl (fun vars _ σ => vars ∪ σ.freeVars) ∅

/-- The type quantified over its variables that are not free in the environment, ascending. -/
def generalize (Γ : Env) (t : Ty) : Scheme :=
  { vars := (t.freeVars \ Γ.freeVars).toList, ty := t }

/-- The variables that some scheme mentions, free or quantified. -/
def mentioned (Γ : Env) : List TyVar :=
  Γ.toList.flatMap fun (_, σ) => σ.ty.freeVars.toList ++ σ.vars

/-- The least number above every variable that some scheme mentions. -/
def supply (Γ : Env) : Nat :=
  Γ.mentioned.foldl (fun n v => max n (v + 1)) 0

end Env

end LetPoly
