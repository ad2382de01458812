/-
  MailMerge.Tree.Walk — going up and down a tree.

  A walk down keeps a stack of nodes still to visit: it takes the first, and puts that
  node's children in front of the others. A walk up follows parent links. Both take at
  most one step per node of the store, which is enough when parent and child links agree
  and never loop; `preorder` states the order of the walk down by recursion.
-/

import MailMerge.Tree.Basic

namespace MailMerge.Tree

/-- The nodes met from the stack `todo`, in at most `steps` steps. -/
def walk (t : Tree) : (steps : Nat) → (todo : List NodeId) → List NodeId
  | 0, _ => []
  | _ + 1, [] => []
  | n + 1, id :: todo => id :: walk t n (t.children id ++ todo)

/-- All nodes below `id` in document order, without `id` itself. -/
def descendants (t : Tree) (id : NodeId) : List NodeId := t.walk t.size (t.children id)

/-- `id` and all nodes below it in document order. -/
def subtree (t : Tree) (id : NodeId) : List NodeId := id :: t.descendants id

/-- A node, then its children's subtrees in order, down to `depth` levels. -/
def preorder (t : Tree) : (depth : Nat) → NodeId → List NodeId
  | 0, id => [id]
  | n + 1, id => id :: (t.children id).flatMap (preorder t n)

/-- The chain of parents that starts at `next`, at most `steps` long. -/
def climb (t : Tree) : (steps : Nat) → (next : Option NodeId) → List NodeId
  | _, none => []
  | 0, some _ => []
  | n + 1, some id => id :: climb t n (t.parent id)

/-- Ancestors from the nearest outwards, without `id` itself. -/
def ancestors (t : Tree) (id : NodeId) : List NodeId := t.climb t.size (t.parent id)

def findAncestor? (t : Tree) (id : NodeId) (name : String) : Option NodeId :=
  (t.ancestors id).find? (t.isNamed name)

def findDescendant? (t : Tree) (id : NodeId) (name : String) : Option NodeId :=
  (t.descendants id).find? (t.isNamed name)

/-- Reachable from the container. -/
def isAttached (t : Tree) (id : NodeId) : Bool := id == root || (t.ancestors id).contains root

/-- The character data a node holds itself. -/
def ownText (t : Tree) (id : NodeId) : String :=
  match t.kind id with
  | .text s | .cdata s => s
  | _ => ""

/-- The character data of a node and everything below it. -/
def textContent (t : Tree) (id : NodeId) : String := String.join ((t.subtree id).map t.ownText)

end MailMerge.Tree
