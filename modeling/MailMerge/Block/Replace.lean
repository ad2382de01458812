/-
  MailMerge.Block.Replace — a block gives way to its expansion.

  The content goes after the start node, the body leaves, and so does each boundary that
  no other block needs. The body and the boundary paragraphs of a picture stay; it only
  loses the fields.
-/

import MailMerge.Block.Basic

namespace MailMerge.Block

/-- The element that holds the copies while they are expanded; it never enters the part. -/
def containerName : String := "scratch:block"

/-- Copies of the nodes, in order, as the children of a new container. -/
def copyNodes (t : Tree) (ids : List NodeId) : NodeId × Tree :=
  let (container, t) := t.createElement containerName
  (container, ids.foldl (fun t id =>
    let (copy, t) := t.deepCopy id
    t.appendChild container copy) t)

/-- Takes the children out of a container. -/
def takeChildren (container : NodeId) (t : Tree) : List NodeId × Tree :=
  (t.children container, t.detachAll (t.children container))

/-- Gives up one boundary: the node leaves if no block holds it any more, else the field
    leaves if no block refers to it any more. -/
def releaseBoundary (b : Block) (f : Field) (id : NodeId) (s : Tree × Ledger) : Tree × Ledger :=
  let (t, l) := s
  let (fieldFree, l) := l.releaseField f
  let (nodeFree, l) := if b.hasOwnBoundaries then l.releaseNode id else (false, l)
  if nodeFree then (t.detach id, l)
  else if fieldFree then (f.remove t, l)
  else (t, l)

/-- Puts `content` in the block's place. -/
def replace (b : Block) (content : List NodeId) (t : Tree) (l : Ledger) : Tree × Ledger :=
  let t := t.insertAllAfter b.startNode content
  let t := if b.kind = .image then t else t.detachAll b.body
  b.releaseBoundary b.endField b.endNode (b.releaseBoundary b.startField b.startNode (t, l))

end MailMerge.Block
