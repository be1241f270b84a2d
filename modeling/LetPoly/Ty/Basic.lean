import Std.Data.ExtTreeSet
import LetPoly.Measure

/-!
Types and their variables. Three traversals look for variables: `occurs` asks for one of them,
`freeVars` collects them as a set, `varsInOrder` lists them by first appearance.
-/
namespace LetPoly

/-- A type variable is its number. -/
abbrev TyVar := Nat

/-- A finite set of type variables. -/
abbrev VarSet := Std.ExtTreeSet TyVar compare

/-- The types without parts. -/
inductive Prim where
  | int
  | float
  | bool
  | char
  | string
  | unit
  deriving DecidableEq, Repr, Inhabited

/-- What a single type can be wrapped in. -/
inductive Wrapper where
  | list
  | option
  | measured (measure : Measure)
  deriving DecidableEq, Repr, Inhabited

/-- Types. A tuple has at least two components, its first two and the rest. -/
inductive Ty where
  | prim (p : Prim)
  | var (v : TyVar)
  | wrap (w : Wrapper) (t : Ty)
  | func (param result : Ty)
  | tuple (first second : Ty) (rest : List Ty)
  deriving Repr, Inhabited

namespace Ty

@[match_pattern] abbrev int : Ty := .prim .int
@[match_pattern] abbrev float : Ty := .prim .float
@[match_pattern] abbrev bool : Ty := .prim .bool
@[match_pattern] abbrev char : Ty := .prim .char
@[match_pattern] abbrev string : Ty := .prim .string
@[match_pattern] abbrev unit : Ty := .prim .unit
@[match_pattern] abbrev list (elem : Ty) : Ty := .wrap .list elem
@[match_pattern] abbrev option (elem : Ty) : Ty := .wrap .option elem
@[match_pattern] abbrev measured (base : Ty) (m : Measure) : Ty := .wrap (.measured m) base

/-- Induction over types in which the rest of a tuple is a list of smaller types. -/
@[elab_as_elim, induction_eliminator]
theorem induct {motive : Ty → Prop}
    (prim : ∀ p, motive (.prim p))
    (var : ∀ v, motive (.var v))
    (wrap : ∀ w t, motive t → motive (.wrap w t))
    (func : ∀ param result, motive param → motive result → motive (.func param result))
    (tuple : ∀ first second rest, motive first → motive second → (∀ t ∈ rest, motive t) →
      motive (.tuple first second rest))
    (t : Ty) : motive t :=
  @Ty.rec motive (fun ts => ∀ t ∈ ts, motive t) prim var wrap func tuple
    (fun _ member => nomatch member)
    (fun _ _ head tail t member => by
      rcases List.mem_cons.mp member with rfl | member
      · exact head
      · exact tail t member)
    t

mutual

/-- Equality of types is decided part by part. -/
def decEq : (a b : Ty) → Decidable (a = b)
  | .prim p, .prim q => decidable_of_iff (p = q) (by simp)
  | .var v, .var w => decidable_of_iff (v = w) (by simp)
  | .wrap w t, .wrap x u =>
    have := decEq t u
    decidable_of_iff (w = x ∧ t = u) (by simp)
  | .func a b, .func c d =>
    have := decEq a c
    have := decEq b d
    decidable_of_iff (a = c ∧ b = d) (by simp)
  | .tuple a b ts, .tuple c d us =>
    have := decEq a c
    have := decEq b d
    have := decEqList ts us
    decidable_of_iff (a = c ∧ b = d ∧ ts = us) (by simp)
  | .prim _, .var _ | .prim _, .wrap _ _ | .prim _, .func _ _ | .prim _, .tuple _ _ _
  | .var _, .prim _ | .var _, .wrap _ _ | .var _, .func _ _ | .var _, .tuple _ _ _
  | .wrap _ _, .prim _ | .wrap _ _, .var _ | .wrap _ _, .func _ _ | .wrap _ _, .tuple _ _ _
  | .func _ _, .prim _ | .func _ _, .var _ | .func _ _, .wrap _ _ | .func _ _, .tuple _ _ _
  | .tuple _ _ _, .prim _ | .tuple _ _ _, .var _ | .tuple _ _ _, .wrap _ _
  | .tuple _ _ _, .func _ _ => isFalse (by simp)

/-- Equality of lists of types. -/
def decEqList : (ts us : List Ty) → Decidable (ts = us)
  | [], [] => isTrue rfl
  | t :: ts, u :: us =>
    have := decEq t u
    have := decEqList ts us
    decidable_of_iff (t = u ∧ ts = us) (by simp)
  | [], _ :: _ | _ :: _, [] => isFalse (by simp)

end

instance : DecidableEq Ty := decEq

/-- The tuple of the given components, if there are at least two. -/
def tupleOf? : List Ty → Option Ty
  | first :: second :: rest => some (.tuple first second rest)
  | _ => none

/-- The components of a tuple. -/
def components? : Ty → Option (List Ty)
  | .tuple first second rest => some (first :: second :: rest)
  | _ => none

/-- A number type with a measure. The dimensionless measure adds nothing. -/
def withMeasure (base : Ty) : Measure → Ty
  | .one => base
  | m => .measured base m

mutual

/-- Whether `v` occurs in a type. -/
def occurs (v : TyVar) : Ty → Bool
  | .prim _ => false
  | .var w => v == w
  | .wrap _ t => t.occurs v
  | .func a b => a.occurs v || b.occurs v
  | .tuple a b ts => a.occurs v || b.occurs v || occursList v ts

/-- Whether `v` occurs in one of the types. -/
def occursList (v : TyVar) : List Ty → Bool
  | [] => false
  | t :: ts => t.occurs v || occursList v ts

end

mutual

/-- The variables of a type. -/
def freeVars : Ty → VarSet
  | .prim _ => ∅
  | .var v => {v}
  | .wrap _ t => t.freeVars
  | .func a b => a.freeVars ∪ b.freeVars
  | .tuple a b ts => a.freeVars ∪ b.freeVars ∪ freeVarsList ts

/-- The variables of a list of types. -/
def freeVarsList : List Ty → VarSet
  | [] => ∅
  | t :: ts => t.freeVars ∪ freeVarsList ts

end

mutual

/-- The variables of a type from left to right, as often as they occur, with `rest` after them. -/
def occurrencesBefore (rest : List TyVar) : Ty → List TyVar
  | .prim _ => rest
  | .var v => v :: rest
  | .wrap _ t => t.occurrencesBefore rest
  | .func a b => a.occurrencesBefore (b.occurrencesBefore rest)
  | .tuple a b ts => a.occurrencesBefore (b.occurrencesBefore (occurrencesBeforeList rest ts))

/-- The variables of a list of types from left to right, with `rest` after them. -/
def occurrencesBeforeList (rest : List TyVar) : List Ty → List TyVar
  | [] => rest
  | t :: ts => t.occurrencesBefore (occurrencesBeforeList rest ts)

end

/-- The variables of a type from left to right, as often as they occur. -/
def occurrences (t : Ty) : List TyVar :=
  t.occurrencesBefore []

end Ty

/-- The members of a list that are not in `seen`, each where it stands first. -/
def VarSet.unseen (seen : VarSet) : List TyVar → List TyVar
  | [] => []
  | v :: vs => if v ∈ seen then unseen seen vs else v :: unseen (seen.insert v) vs

namespace Ty

/-- The variables of a type by first appearance, from left to right. -/
def varsInOrder (t : Ty) : List TyVar :=
  VarSet.unseen ∅ t.occurrences

mutual

/-- Replaces each variable `v` by `f v`. -/
def bind (f : TyVar → Ty) : Ty → Ty
  | .prim p => .prim p
  | .var v => f v
  | .wrap w t => .wrap w (t.bind f)
  | .func a b => .func (a.bind f) (b.bind f)
  | .tuple a b ts => .tuple (a.bind f) (b.bind f) (bindList f ts)

/-- Replaces each variable `v` of each type by `f v`. -/
def bindList (f : TyVar → Ty) : List Ty → List Ty
  | [] => []
  | t :: ts => t.bind f :: bindList f ts

end

mutual

/-- The number of nodes of a type. -/
def size : Ty → Nat
  | .prim _ | .var _ => 1
  | .wrap _ t => t.size + 1
  | .func a b => a.size + b.size + 1
  | .tuple a b ts => a.size + b.size + sizeList ts + 1

/-- The number of nodes of a list of types. -/
def sizeList : List Ty → Nat
  | [] => 0
  | t :: ts => t.size + sizeList ts

end

end Ty

end LetPoly
