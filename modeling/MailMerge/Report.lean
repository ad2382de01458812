/-
  MailMerge.Report — failures as a command line tells them.

  A failure whose place is known is shown with its lines: their numbers in the margin,
  carets under the bytes concerned, and notes below. A place that runs over several lines
  is drawn as a bracket beside them, and of many lines the inner ones are left out.
  Columns count characters from 1. The margin is as wide as the last number.
-/

import MailMerge.Failure
import MailMerge.Text.Blank
import MailMerge.Text.Utf8
import MailMerge.Text.Width

namespace MailMerge

namespace Report

open MailMerge.Text

/-- A line of a text; `start` is the byte it begins at. -/
structure Line where
  number : Nat
  start : Nat
  text : List Char
  deriving DecidableEq, Repr

/-- The lines of a text, the first of which has this number and start. -/
def linesFrom (number start : Nat) : List (List Char) → List Line
  | [] => []
  | text :: rest =>
    ⟨number, start, text⟩ :: linesFrom (number + 1) (start + utf8Length text + 1) rest

def linesOf (text : List Char) : List Line := linesFrom 1 0 (splitAt '\n' text)

/-- The line that holds the byte, or else the last one. A line end belongs to its line. -/
def lineHolding (offset : Nat) : List Line → Line
  | [] => ⟨1, 0, []⟩
  | [line] => line
  | line :: rest =>
    if offset ≤ line.start + utf8Length line.text then line else lineHolding offset rest

/-- How many characters of the text end at or before the byte. -/
def endedBy (offset : Nat) : List Char → Nat
  | [] => 0
  | c :: cs => if c.utf8Size ≤ offset then endedBy (offset - c.utf8Size) cs + 1 else 0

/-- What is not shown at the end of a line. -/
def isLineEnd (c : Char) : Bool := c == '\n' || c == '\r' || c == '\x00'

def shownPart (line : List Char) : List Char := (line.reverse.dropWhile isLineEnd).reverse

/-- The line with its tabs as spaces, from a column on. -/
def expandTabs (column : Nat) : List Char → List Char
  | [] => []
  | c :: cs =>
    let width := columnsFrom column c
    (if c = '\t' then List.replicate width ' ' else [c]) ++ expandTabs (column + width) cs

/-- The mark under a character of so many bytes: a caret if it reaches into the span, a
    space if it comes before the span's end, else nothing. -/
def mark (span : Span) (byte size width : Nat) : List Char :=
  if max span.start byte < min span.stop (byte + size) then List.replicate width '^'
  else if byte < span.stop then List.replicate width ' '
  else []

/-- The marks under a line, from a byte and a column on. One more column follows the last
    character, for spans at the end of the line. -/
def marks (span : Span) (byte column : Nat) : List Char → List Char
  | [] => mark span byte 1 1
  | c :: cs =>
    let width := columnsFrom column c
    mark span byte c.utf8Size width ++ marks span (byte + c.utf8Size) (column + width) cs

/-- A span within a line: it covers at least one byte. -/
def spanInLine (span : Span) (line : Line) : Span :=
  let start := span.start - line.start
  ⟨start, max (span.stop - line.start) (start + 1)⟩

/-- How many columns the characters take that start before the byte of the line. -/
def columnsBefore (offset column : Nat) : List Char → Nat
  | [] => 0
  | c :: cs =>
    if offset = 0 then 0
    else
      let width := columnsFrom column c
      width + columnsBefore (offset - c.utf8Size) (column + width) cs

/-! ## Rows -/

def spaces (n : Nat) : String := String.ofList (List.replicate n ' ')

/-- A row without a number, in a margin of this width. -/
def bareRow (width : Nat) (content : String) : String := spaces width ++ " │" ++ content

/-- A row that shows a line, with what stands before its text. -/
def lineRow (width : Nat) (gutter : String) (line : Line) : String :=
  let number := toString line.number
  spaces (width - number.length) ++ number ++ " │" ++ gutter ++
    String.ofList (expandTabs 0 (shownPart line.text))

/-- The rows for a span within a line. -/
def rowsWithin (width : Nat) (span : Span) (line : Line) : List String :=
  [lineRow width " " line,
    bareRow width (" " ++ String.ofList (marks (spanInLine span line) 0 0 (shownPart line.text)))]

/-- A line to the caret that stands after so many columns. -/
def rule (columns : Nat) : String := String.ofList (List.replicate columns '─' ++ ['^'])

/-- The rows of the line that a bracket starts on. Where only blanks come before the
    start, the bracket starts beside the line. -/
def openingRows (width offset : Nat) (line : Line) : List String :=
  let shown := shownPart line.text
  if offset ≤ utf8Length (shown.takeWhile isBlank) then [lineRow width " ╭ " line]
  else
    [lineRow width "   " line, bareRow width (" ╭" ++ rule (columnsBefore (offset + 1) 0 shown))]

/-- How many lines are shown after the first one of a bracket, however long it is. -/
def linesAfterFirst : Nat := 3

/-- The rows of the lines between the first and the last of a bracket. The last line has
    one more before it; a gap takes the place of two lines or more. -/
def innerRows (width : Nat) (lines : List Line) : List String :=
  let rows := lines.map (lineRow width " │ ")
  if rows.length ≤ linesAfterFirst + 2 then rows
  else
    rows.take linesAfterFirst ++ (spaces width ++ " · │") :: rows.drop (rows.length - 1)

/-- The rows of the line that a bracket ends on. -/
def closingRows (width offset : Nat) (line : Line) : List String :=
  [lineRow width " │ " line,
    bareRow width (" ╰" ++ rule (columnsBefore offset 0 (shownPart line.text)))]

/-- The rows for a span that runs over several lines. -/
def rowsAcross (width : Nat) (span : Span) (first : Line) (inner : List Line) (last : Line) :
    List String :=
  openingRows width (span.start - first.start) first ++ innerRows width inner ++
    closingRows width (span.stop - last.start) last

/-- A message with the place that it is about. -/
def located (file : String) (text : List Char) (span : Span) (message : String)
    (notes : List String) : String :=
  let lines := linesOf text
  let first := lineHolding span.start lines
  let last := lineHolding span.stop lines
  let isWithin := first.number = last.number
  let width := (toString last.number).length
  let column := endedBy (span.start - first.start) first.text + 1
  let position := file ++ ":" ++ toString first.number ++ ":" ++ toString column
  let border := bareRow width (if isWithin then "" else "  ")
  let inner := lines.filter fun line => first.number < line.number && line.number < last.number
  let noteRows := notes.map fun note => spaces width ++ " = " ++ note
  let rows :=
    ["error: " ++ message, spaces width ++ " ┌─ " ++ position, border] ++
    (if isWithin then rowsWithin width span first else rowsAcross width span first inner last) ++
    (if notes.isEmpty then [] else border :: noteRows) ++
    [""]
  String.join (rows.map (· ++ "\n"))

/-- A part that cannot be read. -/
def ofMarkup (file text : String) (e : Markup.MarkupError) : String :=
  located file text.toList e.span e.fault.message e.fault.notes

/-- A failed merge. -/
def ofFailure (file text : String) (f : Failure) : String :=
  match f.span with
  | some span => located file text.toList span f.message [f.cause.className]
  | none => f.cause.className ++ ": " ++ f.message ++ "\n"

end Report

end MailMerge
