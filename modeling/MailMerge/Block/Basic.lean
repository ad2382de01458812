/-
  MailMerge.Block.Basic — what a pair of boundary fields encloses.

  Boundaries in different rows of one table enclose the rows between; boundaries in
  different sibling paragraphs enclose what stands between the paragraphs; boundaries in
  one paragraph enclose what stands between them. A start that begins with `@` is about a
  picture and takes the paragraphs around its boundaries. The body is the element
  siblings strictly between the boundary nodes.
-/

import MailMerge.Block.Ledger
import MailMerge.Failure

namespace MailMerge

inductive BlockKind where
  | image
  | row
  | paragraph
  | inline
  deriving DecidableEq, Repr

structure Block where
  kind : BlockKind
  startField : Field
  endField : Field
  startNode : NodeId
  endNode : NodeId
  body : List NodeId
  deriving DecidableEq, Repr

namespace Block

/-- Two nodes that differ and have one parent. -/
def areSiblings (t : Tree) (a b : NodeId) : Bool := a != b && t.parent a == t.parent b

/-- The boundary nodes around a picture. -/
def imageEnds (t : Tree) (start stop : Field) : NodeId × NodeId :=
  ((start.ancestor? t Word.paragraph).getD start.first,
    (stop.ancestor? t Word.paragraph).getD stop.last)

def rowEnds? (t : Tree) (start stop : Field) : Option (NodeId × NodeId) := do
  let s ← start.ancestor? t Word.tableRow
  let e ← stop.ancestor? t Word.tableRow
  if areSiblings t s e then some (s, e) else none

def paragraphEnds? (t : Tree) (start stop : Field) :
    Option (BlockKind × NodeId × NodeId) := do
  let s ← start.ancestor? t Word.paragraph
  let e ← stop.ancestor? t Word.paragraph
  if areSiblings t s e then some (.paragraph, s, e)
  else if s = e then some (.inline, start.last, stop.first)
  else none

/-- The kind of block and its boundary nodes: the first kind that fits. -/
def ends? (t : Tree) (start stop : Field) : Option (BlockKind × NodeId × NodeId) :=
  if start.expression.startsWith "@" then some (.image, imageEnds t start stop)
  else
    match rowEnds? t start stop with
    | some (s, e) => some (.row, s, e)
    | none => paragraphEnds? t start stop

/-- The element siblings strictly between two nodes; none if the second is not the first
    and does not follow it. -/
def between? (t : Tree) (start stop : NodeId) : Option (List NodeId) :=
  if start = stop then some []
  else
    let later := t.laterElements start
    if later.contains stop then some (later.takeWhile (· != stop)) else none

/-- The block that two fields enclose, if they enclose one. -/
def resolve? (t : Tree) (start stop : Field) : Option Block := do
  let (kind, s, e) ← ends? t start stop
  let body ← match between? t s e with
    | some body => some body
    | none => if kind = .image then some [] else none
  some ⟨kind, start, stop, s, e, body⟩

/-- The start node, the body and the end node, which is not repeated if it is the start. -/
def nodes (b : Block) : List NodeId :=
  b.startNode :: b.body ++ (if b.endNode = b.startNode then [] else [b.endNode])

/-- The boundaries are rows or paragraphs of their own. -/
def hasOwnBoundaries (b : Block) : Bool := b.kind == .row || b.kind == .paragraph

end Block

namespace Ledger

/-- Counts a block's use of its boundary fields. -/
def refer (l : Ledger) (b : Block) : Ledger := (l.addField b.startField).addField b.endField

def pinParagraph (t : Tree) (l : Ledger) (f : Field) : Ledger :=
  match f.ancestor? t Word.paragraph with
  | some paragraph => l.pin paragraph
  | none => l

/-- Counts a block's use of its boundary nodes, or pins the paragraphs it lives in. -/
def hold (l : Ledger) (t : Tree) (b : Block) : Ledger :=
  if b.hasOwnBoundaries then (l.addNode b.startNode).addNode b.endNode
  else pinParagraph t (pinParagraph t l b.startField) b.endField

end Ledger

namespace Block

/-- Resolves a block and enters it in the ledger. A nested block is only built to find
    where it ends: its boundary nodes are not counted. -/
def enclose (t : Tree) (nested : Bool) (l : Ledger) (start stop : Field) :
    Except TemplateFault (Block × Ledger) :=
  match resolve? t start stop with
  | none => .error (.unresolvable start.expression stop.expression)
  | some b =>
    let l := l.refer b
    .ok (b, if nested then l else l.hold t b)

end Block

end MailMerge
