import Std.Data.ExtTreeSet
import LetPoly.Syntax.Written
import LetPoly.Ty.Text

/-!
Typing of literals, annotations and patterns, as relations: what an annotation means, and which types
a pattern accepts. Named annotation variables have no meaning here. The rules take the types that an
annotation allows as a parameter; in a program it allows the type that it means.
-/
namespace LetPoly.Typing

/-- The declared measures. -/
abbrev Measures := Std.ExtTreeSet String compare

/-- Which types an annotation allows. -/
abbrev Reading := TypeExpr → Ty → Prop

/-- The measure that is written. -/
def measureOf : MeasureExpr → Measure
  | .one => .one
  | .named name _ => .named name
  | .product left right => .product (measureOf left) (measureOf right)
  | .quotient numerator denominator => .quotient (measureOf numerator) (measureOf denominator)
  | .power base exponent => .power (measureOf base) exponent

/-- All names of a measure are declared. -/
def Declared (M : Measures) (m : MeasureExpr) : Prop :=
  ∀ name ∈ m.names, name ∈ M

/-- The type of a number. -/
inductive NumberType : Number → Ty → Prop where
  | int (n : Int) : NumberType (.int n) .int
  | float (x : Float) : NumberType (.float x) .float

/-- The type of a literal. -/
inductive LiteralType (M : Measures) : Literal → Ty → Prop where
  | number {n : Number} {t : Ty} : NumberType n t → LiteralType M (.number n) t
  | bool (b : Bool) : LiteralType M (.bool b) .bool
  | char (c : Char) : LiteralType M (.char c) .char
  | string (s : String) : LiteralType M (.string s) .string
  | unit : LiteralType M .unit .unit
  | measured {n : Number} {m : MeasureExpr} {t : Ty} : NumberType n t → Declared M m →
    LiteralType M (.measured n m) (t.withMeasure (measureOf m))

mutual

/-- The type that an annotation means. -/
inductive Means (M : Measures) : TypeExpr → Ty → Prop where
  | prim (p : Prim) (span : Span) : Means M (.con p.text [] span) (.prim p)
  | list {arg : TypeExpr} {t : Ty} (span : Span) : Means M arg t →
    Means M (.con "list" [arg] span) (.list t)
  | option {arg : TypeExpr} {t : Ty} (span : Span) : Means M arg t →
    Means M (.con "option" [arg] span) (.option t)
  | func {param result : TypeExpr} {a b : Ty} : Means M param a → Means M result b →
    Means M (.func param result) (.func a b)
  | tuple {elements : List TypeExpr} {a b : Ty} {ts : List Ty} (span : Span) :
    MeansAll M elements (a :: b :: ts) → Means M (.tuple elements span) (.tuple a b ts)
  | measured {base : TypeExpr} {m : MeasureExpr} {t : Ty} (span : Span) : Means M base t →
    t = .int ∨ t = .float → Declared M m →
    Means M (.measured base m span) (t.withMeasure (measureOf m))

/-- The types that annotations mean. -/
inductive MeansAll (M : Measures) : List TypeExpr → List Ty → Prop where
  | nil : MeansAll M [] []
  | cons {e : TypeExpr} {es : List TypeExpr} {t : Ty} {ts : List Ty} : Means M e t → MeansAll M es ts →
    MeansAll M (e :: es) (t :: ts)

end

mutual

/-- A pattern accepts the values of a type, and gives its names these types. -/
inductive Accepts (M : Measures) (A : Reading) : Pattern → Ty → List (String × Ty) → Prop where
  | wild (span : Span) (t : Ty) : Accepts M A (.wild span) t []
  | ident (id : Ident) (t : Ty) : Accepts M A (.ident id) t [(id.name, t)]
  | const {value : Literal} {t : Ty} (span : Span) : LiteralType M value t →
    Accepts M A (.const value span) t []
  | tuple {elements : List Pattern} {a b : Ty} {ts : List Ty} {named : List (String × Ty)} (span : Span) :
    AcceptsAll M A elements (a :: b :: ts) named → Accepts M A (.tuple elements span) (.tuple a b ts) named
  | list {elements : List Pattern} {t : Ty} {named : List (String × Ty)} (span : Span) :
    AcceptsAll M A elements (elements.map fun _ => t) named → Accepts M A (.list elements span) (.list t) named
  | cons {head tail : Pattern} {t : Ty} {heads tails : List (String × Ty)} (span : Span) :
    Accepts M A head t heads → Accepts M A tail (.list t) tails →
    Accepts M A (.cons head tail span) (.list t) (heads ++ tails)
  | some {inner : Pattern} {t : Ty} {named : List (String × Ty)} (span : Span) : Accepts M A inner t named →
    Accepts M A (.some inner span) (.option t) named
  | none (span : Span) (t : Ty) : Accepts M A (.none span) (.option t) []
  | typed {inner : Pattern} {ascribed : TypeExpr} {t : Ty} {named : List (String × Ty)} (span : Span) :
    A ascribed t → Accepts M A inner t named → Accepts M A (.typed inner ascribed span) t named

/-- Patterns accept types one by one, and give their names these types. -/
inductive AcceptsAll (M : Measures) (A : Reading) : List Pattern → List Ty → List (String × Ty) → Prop where
  | nil : AcceptsAll M A [] [] []
  | cons {p : Pattern} {ps : List Pattern} {t : Ty} {ts : List Ty} {named others : List (String × Ty)} :
    Accepts M A p t named → AcceptsAll M A ps ts others → AcceptsAll M A (p :: ps) (t :: ts) (named ++ others)

end

end LetPoly.Typing
