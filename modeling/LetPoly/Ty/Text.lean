import LetPoly.Ty.Basic

/-!
The written form of types. Arrows associate to the right; a component of a tuple and the element of
a list or an option is parenthesised when it is itself a function or a tuple.
-/
namespace LetPoly

/-- The name of a type without parts. -/
def Prim.text : Prim → String
  | .int => "int"
  | .float => "float"
  | .bool => "bool"
  | .char => "char"
  | .string => "string"
  | .unit => "unit"

/-- The name under which a variable is written when nothing better is known. -/
def TyVar.text (v : TyVar) : String :=
  "'t" ++ toString v

/-- The text in parentheses if `needed`. -/
def parenthesized (needed : Bool) (text : String) : String :=
  if needed then "(" ++ text ++ ")" else text

namespace Ty

def isFunc : Ty → Bool
  | .func _ _ => true
  | _ => false

/-- Types that are parenthesised below a tuple, a list or an option. -/
def isCompound : Ty → Bool
  | .func _ _ | .tuple _ _ _ => true
  | _ => false

mutual

/-- The written form of a type whose variables are written by `name`. -/
def textWith (name : TyVar → String) : Ty → String
  | .prim p => p.text
  | .var v => name v
  | .list t => parenthesized t.isCompound (t.textWith name) ++ " list"
  | .option t => parenthesized t.isCompound (t.textWith name) ++ " option"
  | .measured t m => t.textWith name ++ "<" ++ m.text ++ ">"
  | .func a b => parenthesized a.isFunc (a.textWith name) ++ " -> " ++ b.textWith name
  | .tuple a b ts =>
    parenthesized a.isCompound (a.textWith name) ++ " * " ++
      parenthesized b.isCompound (b.textWith name) ++ restText name ts

/-- The written form of the components after the second, each with the star before it. -/
def restText (name : TyVar → String) : List Ty → String
  | [] => ""
  | t :: ts => " * " ++ parenthesized t.isCompound (t.textWith name) ++ restText name ts

end

/-- The written form of a type. -/
def text (t : Ty) : String :=
  t.textWith TyVar.text

end Ty

end LetPoly
