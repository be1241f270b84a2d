import LetPoly.Ty.Basic

/-!
Measures in types: which names they use, and when every measure stands on a number type.
-/
namespace LetPoly

/-- The names in a measure, from left to right. -/
def Measure.names : Measure → List String
  | .one => []
  | .named name => [name]
  | .product left right => left.names ++ right.names
  | .quotient numerator denominator => numerator.names ++ denominator.names
  | .power base _ => base.names

/-- The measures that a wrapper names. -/
def Wrapper.measureNames : Wrapper → List String
  | .measured m => m.names
  | .list | .option => []

namespace Ty

mutual

/-- The measures that a type names. -/
def measureNames : Ty → List String
  | .prim _ | .var _ => []
  | .wrap w t => w.measureNames ++ t.measureNames
  | .func a b => a.measureNames ++ b.measureNames
  | .tuple a b ts => a.measureNames ++ b.measureNames ++ measureNamesList ts

/-- The measures that types name. -/
def measureNamesList : List Ty → List String
  | [] => []
  | t :: ts => t.measureNames ++ measureNamesList ts

end

/-- Every measure in the type stands on `int` or `float` and is not the dimensionless one. -/
inductive WellMeasured : Ty → Prop where
  | prim (p : Prim) : WellMeasured (.prim p)
  | var (v : TyVar) : WellMeasured (.var v)
  | list {t : Ty} : WellMeasured t → WellMeasured (.list t)
  | option {t : Ty} : WellMeasured t → WellMeasured (.option t)
  | measured {t : Ty} {m : Measure} : t = .int ∨ t = .float → m ≠ .one → WellMeasured (.measured t m)
  | func {a b : Ty} : WellMeasured a → WellMeasured b → WellMeasured (.func a b)
  | tuple {a b : Ty} {ts : List Ty} : WellMeasured a → WellMeasured b → (∀ t ∈ ts, WellMeasured t) →
    WellMeasured (.tuple a b ts)

mutual

/-- The type has no measure in it. -/
def isUnmeasured : Ty → Bool
  | .prim _ | .var _ => true
  | .list t | .option t => t.isUnmeasured
  | .measured _ _ => false
  | .func a b => a.isUnmeasured && b.isUnmeasured
  | .tuple a b ts => a.isUnmeasured && b.isUnmeasured && areUnmeasured ts

/-- None of the types has a measure in it. -/
def areUnmeasured : List Ty → Bool
  | [] => true
  | t :: ts => t.isUnmeasured && areUnmeasured ts

end

end Ty

end LetPoly
