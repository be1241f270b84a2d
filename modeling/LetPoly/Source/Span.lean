/-!
Where a piece of syntax stands in its source text.
-/
namespace LetPoly

/-- A place in a text: a line and a column in bytes, both from 0. -/
structure Place where
  line : Nat := 0
  column : Nat := 0
  deriving DecidableEq, Repr, Inhabited

/-- A stretch of a source text. Syntax that was not read from a text has the default span, whose
    text is empty. -/
structure Span where
  start : Place := {}
  stop : Place := {}
  source : String := ""
  deriving DecidableEq, Repr, Inhabited

/-- Whether the span points into a text. -/
def Span.hasSource (span : Span) : Bool :=
  !span.source.isEmpty

/-- The span itself if it points into a text, else the other one. -/
def Span.orElse (span other : Span) : Span :=
  if span.hasSource then span else other

end LetPoly
