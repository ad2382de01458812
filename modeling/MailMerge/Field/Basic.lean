/-
  MailMerge.Field.Basic — a merge field located in a tree.

  A field is one element, or it is spread over runs between a begin and an end marker.
  Its anchors are the nodes that make it up; there is always a first one. Its marker is
  the element that tells there is a field: the field element itself, or the begin marker.
  Two fields of one scan never have the same marker, so the marker also names the field.
-/

import MailMerge.Tree.Edit
import MailMerge.Tree.Walk
import MailMerge.Word

namespace MailMerge

inductive Shape where
  /-- One element that carries its instruction as an attribute. -/
  | simple
  /-- Runs with begin, separate and end markers; the result is displayed after the separator. -/
  | complex
  deriving DecidableEq, Repr

structure Field where
  marker : NodeId
  /-- The directive, or the whole instruction when it is no merge instruction. -/
  expression : String
  /-- The first anchor. -/
  first : NodeId
  /-- The other anchors, in document order. -/
  others : List NodeId
  shape : Shape
  /-- It has a merge instruction, and a separator if it is spread over runs. -/
  valid : Bool
  span : Span
  deriving DecidableEq, Repr

/-- The types of a field marker. -/
inductive MarkerType where
  | opening
  | separator
  | closing
  deriving DecidableEq, Repr

namespace MarkerType

def value : MarkerType → String
  | opening => "begin"
  | separator => "separate"
  | closing => "end"

end MarkerType

namespace Tree

/-- A field marker of that type. -/
def isMarker (t : Tree) (type : MarkerType) (id : NodeId) : Bool :=
  t.isNamed Word.fieldChar id && t.attribute? id Word.fieldCharType == some type.value

/-- The node is or contains a field marker of that type. -/
def holdsMarker (t : Tree) (type : MarkerType) (id : NodeId) : Bool :=
  (t.subtree id).any (t.isMarker type)

end Tree

namespace Field

def anchors (f : Field) : List NodeId := f.first :: f.others

def last (f : Field) : NodeId := f.others.getLastD f.first

/-- The nearest ancestor of that name, looked up from the first anchor. -/
def ancestor? (f : Field) (t : Tree) (name : String) : Option NodeId :=
  t.findAncestor? f.first name

/-- The anchor behind the one with the separator, unless it is where the field ends. -/
def resultAnchor? (f : Field) (t : Tree) : Option NodeId :=
  let fromSeparator := f.anchors.dropWhile (!t.holdsMarker .separator ·)
  (fromSeparator.drop 1).head?.filter fun id => !(id == f.last && t.holdsMarker .closing id)

/-- The node that holds the displayed result. -/
def display? (f : Field) (t : Tree) : Option NodeId :=
  match f.shape with
  | .simple => some f.first
  | .complex => f.resultAnchor? t

/-- Takes all anchors out of the tree. -/
def remove (f : Field) (t : Tree) : Tree := t.detachAll f.anchors

end Field

end MailMerge
