/-
  MailMerge.Markup.Writer — a tree written as markup.

  An element without children is written closed (`<a/>`). Attribute values escape the
  five characters with names, character data the three that could be taken for markup;
  everything else is written as it is held.
-/

import MailMerge.Markup.Piece
import MailMerge.Tree.Basic

namespace MailMerge

namespace Markup

def writeAttribute (a : String × String) : List Char :=
  ' ' :: a.1.toList ++ '=' :: '"' :: escapeValue a.2.toList ++ ['"']

/-- A node without its children, which are given already written. -/
def writeNode (kind : Kind) (content : List Char) (childless : Bool) : List Char :=
  match kind with
  | .container => content
  | .element name attributes =>
    let head := '<' :: name.toList ++ attributes.flatMap writeAttribute
    if childless then head ++ ['/', '>']
    else head ++ ['>'] ++ content ++ '<' :: '/' :: name.toList ++ ['>']
  | .text data => escapeText data.toList
  | .cdata data => (Piece.cdata data.toList).source
  | .comment body => (Piece.comment body.toList).source
  | .instruction body | .declaration body => (Piece.instruction body.toList).source
  | .doctype body => (Piece.doctype doctypeKeyword (' ' :: body.toList)).source

end Markup

namespace Tree

/-- A node and `depth` levels below it. -/
def write (t : Tree) : (depth : Nat) → NodeId → List Char
  | 0, id => Markup.writeNode (t.kind id) [] true
  | n + 1, id =>
    Markup.writeNode (t.kind id) ((t.children id).flatMap (t.write n)) (t.children id).isEmpty

def subtreeToMarkup (t : Tree) (id : NodeId) : String := String.ofList (t.write t.size id)

/-- The whole part as text. -/
def toMarkup (t : Tree) : String := t.subtreeToMarkup root

end Tree

end MailMerge
