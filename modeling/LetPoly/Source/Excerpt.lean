import LetPoly.Source.Span

/-!
Excerpts: the lines of a source text around a span, with a message below them.

```text
  |
  |let f x =
2 |  x + true
3 |     ^--- type mismatch: expected int, found bool
  |
```
-/
namespace LetPoly.Source

/-- The lines of a text after the characters `line`, last first, of the line they go on with. -/
def linesAfter (line : List Char) : List Char → List (List Char)
  | [] => if line.isEmpty then [] else [line.reverse]
  | '\n' :: rest => line.reverse :: linesAfter [] rest
  | '\r' :: '\n' :: rest => line.reverse :: linesAfter [] rest
  | c :: rest => linesAfter (c :: line) rest

/-- The lines of a text. A line break is a line feed, with the carriage return before it if there is
    one; a break at the end of the text opens no further line. -/
def lines (text : String) : List (List Char) :=
  linesAfter [] text.toList

/-- Splits a text a number of bytes further on, with the characters `left`, last first, before it. -/
def splitAfter (left : List Char) : Nat → List Char → Option (List Char × List Char)
  | 0, rest => some (left.reverse, rest)
  | _ + 1, [] => none
  | bytes, c :: rest =>
    if c.utf8Size ≤ bytes then splitAfter (c :: left) (bytes - c.utf8Size) rest else none

/-- Splits a line at a column in bytes, which has to be the border of a character. -/
def splitAtByte (column : Nat) (line : List Char) : Option (List Char × List Char) :=
  splitAfter [] column line

/-- How the text that a span covers is marked. -/
inductive Marking where
  | plain
  | red
  deriving DecidableEq, Repr

/-- The terminal code that starts red text. -/
def startRed : String :=
  "\x1b[31m"

/-- The terminal code that ends coloured text. -/
def reset : String :=
  "\x1b[0m"

/-- The marked form of a piece of text. Where red text holds a reset itself, red is started again
    after it. -/
def Marking.apply : Marking → List Char → String
  | plain, text => String.ofList text
  | red, text => startRed ++ (String.ofList text).replace reset (reset ++ startRed) ++ reset

/-- The first line of a span with the covered part marked: to the end of the line if the span goes
    on below it, else to the last column. -/
def markedLine (marking : Marking) (span : Span) (line : List Char) : Option String := do
  let (left, right) ← splitAtByte span.start.column line
  if span.start.line ≠ span.stop.line then
    return String.ofList left ++ marking.apply right
  else if span.stop.column < span.start.column then
    none
  else do
    let (inside, after) ← splitAtByte (span.stop.column - span.start.column) right
    return String.ofList left ++ marking.apply inside ++ String.ofList after

/-- The covered lines below the first, each in the margin. -/
def lowerLines (marking : Marking) (margin : String) (covered : List (List Char)) : String :=
  String.join (covered.map fun line => "\n" ++ margin ++ " |" ++ marking.apply line)

/-- So many blanks. -/
def blanks (n : Nat) : String :=
  "".pushn ' ' n

/-- The bound of the number of blanks in a row: each takes four bytes, and all of them together fewer
    than `2 ^ 63`. -/
def blankLimit : Nat :=
  UInt64.size / 8

/-- The line above the span, the lines of the span and the message under the last column. There is
    none if the span leaves its text, cuts a character, ends at column 0, or ends so far right that the
    blanks before the message pass their bound. -/
def excerpt (marking : Marking) (span : Span) (message : String) : Option String := do
  let all := lines span.source
  let first := span.start.line
  let last := span.stop.line
  let above ← if first = 0 then some [] else all[first - 1]?
  let line ← all[first]?
  let marked ← markedLine marking span line
  if last < all.length ∧ 0 < span.stop.column ∧ span.stop.column - 1 < blankLimit then
    let margin := blanks (toString last).length
    let covered := (all.take (last + 1)).drop (first + 1)
    return margin ++ " |\n" ++ margin ++ " |" ++ String.ofList above ++ " \n" ++
      toString (first + 1) ++ " |" ++ marked ++ lowerLines marking margin covered ++ "\n" ++
      toString (last + 2) ++ " |" ++ blanks (span.stop.column - 1) ++ "^--- " ++ message ++ "\n" ++
      margin ++ " |"
  else none

end LetPoly.Source
