/-
  MailMerge.Splice.Markup — a markup fragment in a field's place.

  Only the fragment's top-level elements count. If they are all inline, they take the
  place of the display run, and runs without formatting of their own get its formatting.
  Otherwise they take the place of the paragraph that holds the run, or of the run itself
  where there is no paragraph.
-/

import MailMerge.Markup.Reader
import MailMerge.Splice.Target

namespace MailMerge.Splice

open MailMerge.Markup

/-- The element that holds a fragment while it is read; it never enters the part. -/
def fragmentName : String := "scratch:fragment"

/-- There are elements, and all may stand where a run stands. -/
def allInline (t : Tree) (ids : List NodeId) : Bool :=
  !ids.isEmpty && ids.all fun id => (t.name? id).any Word.inlineElements.contains

/-- Gives a run a copy of the formatting, unless it has some. -/
def formatRun (formatting : NodeId) (t : Tree) (run : NodeId) : Tree :=
  if (t.elementChildren run).any (t.isNamed Word.runProperties) then t
  else
    let (copy, u) := t.deepCopy formatting
    u.prependChild run copy

/-- Gives the runs in the elements the formatting of `run`, if it has any. -/
def inheritFormatting (t : Tree) (run : NodeId) (ids : List NodeId) : Tree :=
  match (t.elementChildren run).find? (t.isNamed Word.runProperties) with
  | none => t
  | some formatting =>
    ((ids.flatMap t.subtree).filter (t.isNamed Word.run)).foldl (formatRun formatting) t

/-- The elements in the place of the paragraph around the display run. -/
def replaceParagraph (paragraph : NodeId) (ids : List NodeId) (t : Tree) : Tree :=
  (t.insertAllAfter paragraph ids).detach paragraph

/-- The elements in the place of the display run. -/
def replaceRun (f : Field) (target : Target) (ids : List NodeId) (t : Tree) : Tree :=
  target.finish f ((t.insertAllAfter target.run ids).detach target.run)

/-- Puts elements of the tree, which stand nowhere in the part yet, in a field's place. -/
def putElements (f : Field) (ids : List NodeId) (t : Tree) : Tree :=
  let (target, t) := Target.locate t f
  let inline_ := allInline t ids
  match t.findAncestor? target.run Word.paragraph, inline_ with
  | some paragraph, false => replaceParagraph paragraph ids t
  | _, true => replaceRun f target ids (inheritFormatting t target.run ids)
  | none, false => replaceRun f target ids t

/-- Reads a fragment and puts it in a field's place. -/
def putMarkup (f : Field) (source : String) (t : Tree) : Except MarkupError Unit × Tree :=
  let (container, t) := t.createElement fragmentName
  match t.readInto container source 0 with
  | (.error e, t) => (.error e, t)
  | (.ok (), t) => (.ok (), putElements f (t.elementChildren container) t)

end MailMerge.Splice
