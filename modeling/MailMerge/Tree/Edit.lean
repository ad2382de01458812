/-
  MailMerge.Tree.Edit — edits of the tree.

  Each edit is an edit of child lists and of the matching parent links. A node that is
  moved first leaves its old place. Inserting beside a node that has no parent, or beside
  itself, changes nothing. Nothing is ever taken out of the store.
-/

import MailMerge.Tree.Basic

namespace MailMerge

namespace Siblings

/-- `node` put right after the first `anchor`. -/
def insertAfter (anchor node : NodeId) : List NodeId → List NodeId
  | [] => []
  | c :: cs => if c = anchor then c :: node :: cs else c :: insertAfter anchor node cs

/-- `node` put right before the first `anchor`. -/
def insertBefore (anchor node : NodeId) : List NodeId → List NodeId
  | [] => []
  | c :: cs => if c = anchor then node :: c :: cs else c :: insertBefore anchor node cs

end Siblings

namespace Tree

def update (t : Tree) (id : NodeId) (f : Node → Node) : Tree := ⟨t.nodes.modify id f⟩

def setKind (t : Tree) (id : NodeId) (kind : Kind) : Tree :=
  t.update id fun n => { n with kind }

def setParent (t : Tree) (id : NodeId) (parent : Option NodeId) : Tree :=
  t.update id fun n => { n with parent }

def setSpan (t : Tree) (id : NodeId) (span : Span) : Tree :=
  t.update id fun n => { n with span }

def mapChildren (t : Tree) (id : NodeId) (f : List NodeId → List NodeId) : Tree :=
  t.update id fun n => { n with children := f n.children }

/-! ## New nodes -/

/-- A new node without links; its number is the size of the store. -/
def create (t : Tree) (kind : Kind) (span : Span) : NodeId × Tree :=
  (t.size, ⟨t.nodes.push (lone kind span)⟩)

def createElement (t : Tree) (name : String) : NodeId × Tree := t.create (.element name []) .none

def createText (t : Tree) (data : String) : NodeId × Tree := t.create (.text data) .none

/-! ## Links -/

/-- The node leaves its parent; what is below it stays below it. -/
def detach (t : Tree) (id : NodeId) : Tree :=
  match t.parent id with
  | none => t
  | some p => (t.setParent id none).mapChildren p (·.filter (· != id))

def detachAll (t : Tree) (ids : List NodeId) : Tree := ids.foldl detach t

def appendChild (t : Tree) (parent child : NodeId) : Tree :=
  ((t.detach child).setParent child (some parent)).mapChildren parent (· ++ [child])

def prependChild (t : Tree) (parent child : NodeId) : Tree :=
  ((t.detach child).setParent child (some parent)).mapChildren parent (child :: ·)

/-- Moves `node` beside `anchor`, to the place that `place` gives it among the siblings. -/
def insertBeside (place : NodeId → NodeId → List NodeId → List NodeId) (t : Tree)
    (anchor node : NodeId) : Tree :=
  if anchor = node then t
  else
    match t.parent anchor with
    | none => t
    | some p =>
      let u := t.detach node
      if (u.children p).contains anchor then
        (u.setParent node (some p)).mapChildren p (place anchor node)
      else u

/-- Moves `node` to be the next sibling of `anchor`. -/
def insertAfter (t : Tree) (anchor node : NodeId) : Tree :=
  insertBeside Siblings.insertAfter t anchor node

/-- Moves `node` to be the previous sibling of `anchor`. -/
def insertBefore (t : Tree) (anchor node : NodeId) : Tree :=
  insertBeside Siblings.insertBefore t anchor node

/-- Moves the nodes, in order, to follow `anchor`. -/
def insertAllAfter (t : Tree) (anchor : NodeId) : List NodeId → Tree
  | [] => t
  | node :: nodes => (t.insertAfter anchor node).insertAllAfter node nodes

/-- Puts a node's children in its place and unlinks the node. -/
def unwrap (t : Tree) (id : NodeId) : Tree := (t.insertAllAfter id (t.children id)).detach id

/-! ## Content -/

/-- Sets an attribute of an element: in place if the key is there, else at the end. -/
def setAttribute (t : Tree) (id : NodeId) (key value : String) : Tree :=
  match t.kind id with
  | .element name attributes => t.setKind id (.element name (put attributes))
  | _ => t
where
  put : List (String × String) → List (String × String)
    | [] => [(key, value)]
    | (k, v) :: rest => if k = key then (k, value) :: rest else (k, v) :: put rest

/-- Replaces the data of a character node, or an element's children by one text node. -/
def setText (t : Tree) (id : NodeId) (data : String) : Tree :=
  match t.kind id with
  | .text _ => t.setKind id (.text data)
  | .cdata _ => t.setKind id (.cdata data)
  | .element _ _ =>
    let (text, u) := (t.detachAll (t.children id)).createText data
    u.appendChild id text
  | _ => t

/-! ## Copies -/

/-- Links a node that has no parent below `parent`, as its last child. -/
def adopt (t : Tree) (parent child : NodeId) : Tree :=
  (t.setParent child (some parent)).mapChildren parent (· ++ [child])

/-- Copies `id` and `depth` levels below it: a node first, then its children in order. -/
def copyTo : (depth : Nat) → Tree → NodeId → NodeId × Tree
  | 0, t, id => t.create (t.kind id) (t.span id)
  | n + 1, t, id =>
    let children := t.children id
    let (copy, u) := t.create (t.kind id) (t.span id)
    (copy, children.foldl (fun u child =>
      let (childCopy, v) := copyTo n u child
      v.adopt copy childCopy) u)

/-- A copy of the whole subtree, unlinked, with the spans of what it copies. -/
def deepCopy (t : Tree) (id : NodeId) : NodeId × Tree := copyTo t.size t id

end Tree

end MailMerge
