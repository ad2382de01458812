/-
  MailMerge.Splice.Text — a text in a field's place.

  Each line goes into a copy of the display's text element, with a line break before all
  but the first. A line with a blank at either end asks for its space to be preserved.
-/

import MailMerge.Splice.Target
import MailMerge.Text.Blank

namespace MailMerge.Splice

open MailMerge.Text

/-- A line that starts or ends with a blank. -/
def hasOuterBlank (line : List Char) : Bool := line.head?.any isBlank || line.getLast?.any isBlank

/-- A copy of the text element `model` that holds `line`. -/
def lineElement (t : Tree) (model : NodeId) (line : List Char) : NodeId × Tree :=
  let (copy, t) := t.deepCopy model
  let t := t.setText copy (String.ofList line)
  (copy, if hasOuterBlank line then t.setAttribute copy Word.space Word.preserve else t)

/-- The lines, each behind a break, put after `anchor`. -/
def addBrokenLines (model : NodeId) : (anchor : NodeId) → Tree → List (List Char) → Tree
  | _, t, [] => t
  | anchor, t, line :: lines =>
    let (break_, t) := t.createElement Word.lineBreak
    let t := t.insertAfter anchor break_
    let (copy, t) := lineElement t model line
    addBrokenLines model copy (t.insertAfter break_ copy) lines

/-- All lines, put after the text element `model`. -/
def addLines (model : NodeId) (t : Tree) : List (List Char) → Tree
  | [] => t
  | line :: lines =>
    let (copy, t) := lineElement t model line
    addBrokenLines model copy (t.insertAfter model copy) lines

def putText (f : Field) (s : String) (t : Tree) : Tree :=
  let (target, t) := Target.locate t f
  let t := (addLines target.text t (splitAt '\n' s.toList)).detach target.text
  target.finish f t

end MailMerge.Splice
