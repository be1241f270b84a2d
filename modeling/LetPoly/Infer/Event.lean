import LetPoly.Scheme
import LetPoly.Unify

/-!
The journal of a run of inference, and the lines that are reported from it.
-/
namespace LetPoly

/-- How detailed a report is. -/
inductive Level where
  | debug
  | trace
  deriving DecidableEq, Repr

/-- The name of a level in a report. -/
def Level.text : Level → String
  | debug => "DEBUG"
  | trace => "TRACE"

/-- What happens while a program is inferred. -/
inductive Event where
  /-- A program of so many items is begun. -/
  | began (items : Nat)
  /-- An expression item has the type. -/
  | typed (ty : Ty)
  /-- A measure is declared. -/
  | declared (name : String)
  /-- A name of a `let` group gets its scheme. -/
  | generalized (name : String) (scheme : Scheme)
  /-- Two types are to be made equal. -/
  | equated (left right : Ty)
  /-- An occurrence of a named annotation variable is read as the type. -/
  | resolved (name : String) (ty : Ty)
  deriving DecidableEq, Repr

namespace Event

/-- The level at which an event is reported. -/
def level : Event → Level
  | equated _ _ => .trace
  | _ => .debug

/-- The texts under which an event is reported: for two types that are to be made equal one for every
    equation on the way. How annotation variables are read is not reported. -/
def texts : Event → List String
  | began items => ["inferring " ++ toString items ++ " top-level item(s)"]
  | typed ty => ["expression : " ++ ty.text]
  | declared name => ["measure " ++ name]
  | generalized name scheme => ["generalized " ++ name ++ " : " ++ scheme.text]
  | equated left right =>
    (Unify.visited [(left, right)]).map fun (a, b) => "unify " ++ a.text ++ " ~ " ++ b.text
  | resolved _ _ => []

/-- The lines of an event in a report: a debug report leaves out traces. -/
def lines (report : Level) (event : Event) : List String :=
  if report = .debug ∧ event.level = .trace then []
  else event.texts.map fun text => event.level.text ++ " " ++ text

end Event

end LetPoly
