/-
  MailMerge.Splice.Target — where the replacement of a field goes.

  The replacement goes into the run that displays the field's result, and there into the
  first text element. What is missing is made. Afterwards the field's markers go, and
  what took the field's place stays.
-/

import MailMerge.Field.Basic

namespace MailMerge

structure Target where
  run : NodeId
  text : NodeId
  deriving DecidableEq, Repr

namespace Target

/-- A new element as the last child of `parent`. -/
def addElement (t : Tree) (parent : NodeId) (name : String) : NodeId × Tree :=
  let (id, u) := t.createElement name
  (id, u.appendChild parent id)

/-- The run that displays the result: of a simple field the first run in it, of one
    spread over runs the display node, or else a new run before the field's end. -/
def locateRun (t : Tree) (f : Field) : NodeId × Tree :=
  match f.display? t, f.shape with
  | some id, .complex => (id, t)
  | some id, .simple =>
    match t.findDescendant? id Word.run with
    | some run => (run, t)
    | none => addElement t id Word.run
  | none, _ =>
    let (run, u) := t.createElement Word.run
    (run, u.insertBefore f.last run)

def locate (t : Tree) (f : Field) : Target × Tree :=
  let (run, t) := locateRun t f
  match t.findDescendant? run Word.text with
  | some text => (⟨run, text⟩, t)
  | none =>
    let (text, t) := addElement t run Word.text
    (⟨run, text⟩, t)

/-- Takes the field's markers away from around its replacement. -/
def finish (target : Target) (f : Field) (t : Tree) : Tree :=
  match f.shape with
  | .simple => t.unwrap f.first
  | .complex => t.detachAll (f.anchors.filter (· != target.run))

end Target

end MailMerge
