/-
  MailMerge.Tree.Basic — a document part as a tree of numbered nodes.

  The store holds every node ever made for the part; a node's number is its place there,
  so a number once handed out stays good. Node 0 is the container of the top-level items.
  Taking a node out of the tree only unlinks it from its parent. Parent and child links
  are the two views that every edit is described by (`parent`, `children`).
-/

namespace MailMerge

/-- A node's place in the store. -/
abbrev NodeId := Nat

/-- A range of bytes of the source text. -/
structure Span where
  start : Nat
  stop : Nat
  deriving DecidableEq, Repr

namespace Span

/-- The span of nodes that were never written in a source. -/
def none : Span := ⟨0, 0⟩

def isEmpty (s : Span) : Bool := s.stop ≤ s.start

/-- The span moved out to end at `stop`, but never before its own start. -/
def extendTo (s : Span) (stop : Nat) : Span := ⟨s.start, max stop s.start⟩

end Span

/-- What a node is. Element names keep their namespace part (`w:p`, `a:blip`). -/
inductive Kind where
  | container
  | element (name : String) (attributes : List (String × String))
  /-- Character data, already unescaped. -/
  | text (data : String)
  | cdata (data : String)
  | comment (body : String)
  | instruction (body : String)
  | declaration (body : String)
  | doctype (body : String)
  deriving DecidableEq, Repr

structure Node where
  kind : Kind
  parent : Option NodeId
  children : List NodeId
  span : Span
  deriving DecidableEq, Repr

structure Tree where
  nodes : Array Node
  deriving DecidableEq, Repr

namespace Tree

/-- A node with no links. -/
def lone (kind : Kind) (span : Span) : Node := ⟨kind, none, [], span⟩

/-- The tree that holds its container alone. -/
def empty : Tree := ⟨#[lone .container .none]⟩

def root : NodeId := 0

def size (t : Tree) : Nat := t.nodes.size

/-- The node of that number; numbers not handed out read as an unlinked container. -/
def node (t : Tree) (id : NodeId) : Node := t.nodes.getD id (lone .container .none)

def kind (t : Tree) (id : NodeId) : Kind := (t.node id).kind

def parent (t : Tree) (id : NodeId) : Option NodeId := (t.node id).parent

def children (t : Tree) (id : NodeId) : List NodeId := (t.node id).children

def span (t : Tree) (id : NodeId) : Span := (t.node id).span

/-! ## Reading single nodes -/

/-- The name of an element; other nodes have none. -/
def name? (t : Tree) (id : NodeId) : Option String :=
  match t.kind id with
  | .element name _ => some name
  | _ => none

def isElement (t : Tree) (id : NodeId) : Bool := (t.name? id).isSome

def isNamed (t : Tree) (name : String) (id : NodeId) : Bool := t.name? id == some name

def attribute? (t : Tree) (id : NodeId) (key : String) : Option String :=
  match t.kind id with
  | .element _ attributes => attributes.lookup key
  | _ => none

def elementChildren (t : Tree) (id : NodeId) : List NodeId :=
  (t.children id).filter t.isElement

/-- The first element directly below the container. -/
def rootElement? (t : Tree) : Option NodeId := (t.elementChildren root).head?

/-- The element siblings that follow a node. -/
def laterElements (t : Tree) (id : NodeId) : List NodeId :=
  match t.parent id with
  | none => []
  | some p => (((t.children p).dropWhile (· != id)).drop 1).filter t.isElement

def nextElement? (t : Tree) (id : NodeId) : Option NodeId := (t.laterElements id).head?

end Tree

end MailMerge
