import Std.Data.ExtTreeMap
import LetPoly.Ty.Basic

/-!
Substitutions: finite maps from variables to types, equal when they map the same variables to the
same types. `s.after r` acts as `r` first and `s` next.
-/
namespace LetPoly

/-- A finite map from variables to types. -/
abbrev Subst := Std.ExtTreeMap TyVar Ty compare

namespace Subst

/-- What stands for a variable; a variable that is not a key stands for itself. -/
def value (s : Subst) (v : TyVar) : Ty :=
  s[v]?.getD (.var v)

/-- Replaces every variable of a type by what stands for it. The empty substitution does not look at
    the type. -/
def apply (s : Subst) (t : Ty) : Ty :=
  if s.isEmpty then t else t.bind s.value

/-- The substitution of one variable. -/
def single (v : TyVar) (t : Ty) : Subst :=
  (∅ : Subst).insert v t

/-- First `r`, then `s`: a key of `r` gets its type under `s`, any other key of `s` keeps its type. -/
def after (s r : Subst) : Subst :=
  if s.isEmpty then r else s ∪ r.map fun _ t => s.apply t

/-- The substitution without the given keys. -/
def without (s : Subst) (vars : VarSet) : Subst :=
  s.filter fun v _ => !vars.contains v

/-- Replaces the variables in the types of a list of named types. -/
def applyNamed (s : Subst) (named : List (String × Ty)) : List (String × Ty) :=
  named.map fun (name, t) => (name, s.apply t)

end Subst

end LetPoly
