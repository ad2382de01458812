/-
  MailMerge.Field.Scan — finding the merge fields below a node.

  The fields come in document order of their markers. A field spread over runs reaches
  from the parent of its begin marker over the element siblings that follow, up to the
  first that holds an end marker; one that never ends is no field. Its instruction is all
  instruction text of its anchors, put together.
-/

import MailMerge.Field.Basic
import MailMerge.Field.Instruction

namespace MailMerge

open MailMerge.Text

/-- The elements up to the first that satisfies `p`, with it, if there is one. -/
def takeThrough? {α : Type} (p : α → Bool) : List α → Option (List α)
  | [] => none
  | a :: as => if p a then some [a] else (takeThrough? p as).map (a :: ·)

namespace Field

/-- A field with the given instruction; `whole` tells that its parts are all there. -/
def ofInstruction (t : Tree) (marker : NodeId) (instruction : String) (first : NodeId)
    (others : List NodeId) (shape : Shape) (whole : Bool) : Field :=
  let span := (t.span first).extendTo (t.span (others.getLastD first)).stop
  match Instruction.directive? instruction with
  | some directive => ⟨marker, directive, first, others, shape, whole, span⟩
  | none => ⟨marker, trimmed instruction, first, others, shape, false, span⟩

def simple? (t : Tree) (id : NodeId) : Option Field :=
  (t.attribute? id Word.fieldInstruction).map fun instruction =>
    ofInstruction t id instruction id [] .simple true

/-- The instruction text that the nodes contain. -/
def instructionText (t : Tree) (ids : List NodeId) : String :=
  String.join (((ids.flatMap t.subtree).filter (t.isNamed Word.instructionText)).map t.textContent)

def complex? (t : Tree) (marker : NodeId) : Option Field := do
  let first ← t.parent marker
  let anchors ← takeThrough? (t.holdsMarker .closing) (first :: t.laterElements first)
  let whole := anchors.any (t.holdsMarker .separator)
  some (ofInstruction t marker (instructionText t anchors) first (anchors.drop 1) .complex whole)

/-- The field that a node is the marker of, valid or not. -/
def ofMarker? (t : Tree) (id : NodeId) : Option Field :=
  if t.isNamed Word.simpleField id then simple? t id
  else if t.isMarker .opening id then complex? t id
  else none

end Field

namespace Tree

/-- The valid merge fields below `id`, in document order of their markers. -/
def fields (t : Tree) (id : NodeId) : List Field :=
  ((t.descendants id).filterMap (Field.ofMarker? t)).filter (·.valid)

/-- A node that may be the marker of a field. -/
def opensField (t : Tree) (id : NodeId) : Bool :=
  t.isNamed Word.simpleField id || t.isMarker .opening id

/-- The nodes below `id` that may be the marker of a field. -/
def markers (t : Tree) (id : NodeId) : List NodeId := (t.descendants id).filter t.opensField

/-- A new paragraph for every table cell below `id` that has none of its own. -/
def fillEmptyCells (t : Tree) (id : NodeId) : Tree :=
  ((t.descendants id).filter (t.isNamed Word.tableCell)).foldl fillCell t
where
  fillCell (t : Tree) (cell : NodeId) : Tree :=
    if (t.elementChildren cell).any (t.isNamed Word.paragraph) then t
    else
      let (paragraph, u) := t.createElement Word.paragraph
      u.appendChild cell paragraph

end Tree

end MailMerge
