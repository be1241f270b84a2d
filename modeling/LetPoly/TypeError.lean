import LetPoly.Unify
import LetPoly.Source.Excerpt

/-!
Type errors: what is wrong and where, the message, and its rendering below the source text.
-/
namespace LetPoly

/-- What is wrong with a program. -/
inductive TypeError.Cause where
  /-- A name that is not in scope. -/
  | unboundVariable (name : String)
  /-- Two types that have to be equal differ in shape; the note says where such a rule comes from. -/
  | mismatch (expected found : Ty) (note : Option String)
  /-- A variable would stand for a type in which it occurs. -/
  | infinite (v : TyVar) (t : Ty)
  /-- An annotation names a type that does not exist. -/
  | unboundType (name : String)
  /-- A measure that no earlier item declares. -/
  | unboundMeasure (name : String)
  /-- A type constructor with the wrong number of arguments. -/
  | constructorArity (name : String) (expected found : Nat)
  /-- A name bound twice in a pattern or in a group. -/
  | duplicateVariable (name : String)
  /-- A tuple pattern against a tuple type of another length. -/
  | patternArity (expected found : Nat)
  /-- A pattern that no type has. -/
  | impossiblePattern (reason : String)
  /-- A tuple or a tuple annotation of fewer than two components. -/
  | malformedTuple (arity : Nat)
  deriving DecidableEq, Repr

/-- What is wrong with a program, and where. -/
structure TypeError where
  cause : TypeError.Cause
  span : Span := {}
  deriving DecidableEq, Repr

namespace TypeError

/-- The message for the user. -/
def Cause.message : Cause → String
  | unboundVariable name => "unbound variable: " ++ name
  | mismatch expected found note =>
    "type mismatch: expected " ++ expected.text ++ ", found " ++ found.text ++
      match note with
      | some note => "\n  Note: " ++ note
      | none => ""
  | infinite v t => "cannot construct infinite type: " ++ v.text ++ " = " ++ t.text
  | unboundType name => "unbound type: " ++ name
  | unboundMeasure name => "unbound measure: " ++ name
  | constructorArity name expected found =>
    "type " ++ name ++ " expects " ++ toString expected ++ " argument(s), found " ++ toString found
  | duplicateVariable name => "variable " ++ name ++ " is bound more than once in this pattern"
  | patternArity expected found =>
    "tuple pattern has " ++ toString found ++ " components but the matched type has " ++ toString expected
  | impossiblePattern reason => "impossible pattern: " ++ reason
  | malformedTuple arity => "a tuple needs at least two components, found " ++ toString arity

/-- The message for the user. -/
def message (e : TypeError) : String :=
  e.cause.message

/-- Explains a mismatch by a note, which replaces an earlier one. Other errors have no note. -/
def withNote (note : String) (e : TypeError) : TypeError :=
  match e.cause with
  | .mismatch expected found _ => { e with cause := .mismatch expected found (some note) }
  | _ => e

/-- The error of two types that have no common instance, at the place where they meet. -/
def ofUnify (span : Span) : UnifyError → TypeError
  | .mismatch expected found => { cause := .mismatch expected found none, span }
  | .infinite v t => { cause := .infinite v t, span }

/-- The message below an excerpt of the source text, or alone if there is no text. There is no
    rendering of a span that does not fit its text. -/
def render (marking : Source.Marking) (e : TypeError) : Option String :=
  if e.span.hasSource then Source.excerpt marking e.span e.message
  else some ("Type error: " ++ e.message)

end TypeError

end LetPoly
