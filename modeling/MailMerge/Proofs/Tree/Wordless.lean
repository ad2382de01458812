/-
  MailMerge.Proofs.Tree.Wordless — a tree without the words of its texts.

  A text node of a wordless tree holds nothing; all else is as it was: the nodes, their links
  and spans, the names and attributes of elements. Two trees that differ in the words of text
  nodes only are the same wordless tree.

  Proved: what is read of links and elements is read of the wordless tree alike, and an edit of
  links, attributes or new nodes makes the same of both. Taking two trees to one wordless tree
  thus carries over to whatever is put together from such edits.
-/

import MailMerge.Field.Scan
import MailMerge.Proofs.Tree.Links

namespace MailMerge

/-- The kind without the words of a text. -/
def Kind.wordless : Kind → Kind
  | .text _ => .text ""
  | k => k

@[simp] theorem Kind.wordless_element (name : String) (attributes : List (String × String)) :
    (Kind.element name attributes).wordless = .element name attributes := rfl

/-- A kind that is no text is known when its words are not. -/
theorem Kind.eq_of_wordless {k k' : Kind} (h : k'.wordless = k.wordless) : k' = k ∨ ∃ a b, k = .text a ∧ k' = .text b := by
  cases k <;> cases k' <;> simp_all [Kind.wordless]

namespace Tree

/-- The same tree with nothing in its text nodes. -/
def wordless (t : Tree) : Tree := ⟨t.nodes.map fun n => { n with kind := n.kind.wordless }⟩

/-! ## Reading -/

section reading

variable (t : Tree)

@[simp] theorem size_wordless : t.wordless.size = t.size := by simp [wordless, size]

theorem node_wordless (x : NodeId) : t.wordless.node x = { t.node x with kind := (t.node x).kind.wordless } := by
  simp only [wordless, node, Array.getD_eq_getD_getElem?, Array.getElem?_map]
  cases t.nodes[x]? <;> rfl

theorem kind_wordless (x : NodeId) : t.wordless.kind x = (t.kind x).wordless := by rw [kind, node_wordless]; rfl

@[simp] theorem parent_wordless : t.wordless.parent = t.parent := by
  funext x
  rw [parent, node_wordless]
  rfl

@[simp] theorem children_wordless : t.wordless.children = t.children := by
  funext x
  rw [children, node_wordless]
  rfl

@[simp] theorem span_wordless : t.wordless.span = t.span := by
  funext x
  rw [span, node_wordless]
  rfl

@[simp] theorem name?_wordless : t.wordless.name? = t.name? := by
  funext x
  rw [name?, name?, kind_wordless]
  cases t.kind x <;> rfl

@[simp] theorem attribute?_wordless : t.wordless.attribute? = t.attribute? := by
  funext x key
  rw [attribute?, attribute?, kind_wordless]
  cases t.kind x <;> rfl

@[simp] theorem isElement_wordless : t.wordless.isElement = t.isElement := by
  funext x
  rw [isElement, isElement, name?_wordless]

@[simp] theorem isNamed_wordless : t.wordless.isNamed = t.isNamed := by
  funext name x
  rw [isNamed, isNamed, name?_wordless]

@[simp] theorem elementChildren_wordless : t.wordless.elementChildren = t.elementChildren := by
  funext x
  rw [elementChildren, elementChildren, children_wordless, isElement_wordless]

@[simp] theorem laterElements_wordless : t.wordless.laterElements = t.laterElements := by
  funext x
  rw [laterElements, laterElements, parent_wordless, children_wordless, isElement_wordless]

@[simp] theorem walk_wordless (n : Nat) (todo : List NodeId) : t.wordless.walk n todo = t.walk n todo := by
  induction n generalizing todo with
  | zero => rfl
  | succ n ih =>
    cases todo with
    | nil => rfl
    | cons a todo => rw [walk, walk, children_wordless, ih]

@[simp] theorem descendants_wordless : t.wordless.descendants = t.descendants := by
  funext x
  rw [descendants, descendants, walk_wordless, size_wordless, children_wordless]

@[simp] theorem subtree_wordless : t.wordless.subtree = t.subtree := by
  funext x
  rw [subtree, subtree, descendants_wordless]

@[simp] theorem climb_wordless (n : Nat) (next : Option NodeId) : t.wordless.climb n next = t.climb n next := by
  induction n generalizing next with
  | zero => cases next <;> rfl
  | succ n ih =>
    cases next with
    | none => rfl
    | some a => rw [climb, climb, parent_wordless, ih]

@[simp] theorem findAncestor?_wordless : t.wordless.findAncestor? = t.findAncestor? := by
  funext x name
  rw [findAncestor?, findAncestor?, ancestors, ancestors, climb_wordless, size_wordless, parent_wordless, isNamed_wordless]

@[simp] theorem findDescendant?_wordless : t.wordless.findDescendant? = t.findDescendant? := by
  funext x name
  rw [findDescendant?, findDescendant?, descendants_wordless, isNamed_wordless]

@[simp] theorem isMarker_wordless : t.wordless.isMarker = t.isMarker := by
  funext type x
  rw [isMarker, isMarker, isNamed_wordless, attribute?_wordless]

@[simp] theorem holdsMarker_wordless : t.wordless.holdsMarker = t.holdsMarker := by
  funext type x
  rw [holdsMarker, holdsMarker, subtree_wordless, isMarker_wordless]

@[simp] theorem opensField_wordless : t.wordless.opensField = t.opensField := by
  funext x
  rw [opensField, opensField, isNamed_wordless, isMarker_wordless]

@[simp] theorem markers_wordless : t.wordless.markers = t.markers := by
  funext x
  rw [markers, markers, descendants_wordless, opensField_wordless]

end reading

/-- Trees that are the same without their words look the same to what does not read words. -/
theorem read_congr {α : Type} {read : Tree → α} (hread : ∀ t : Tree, read t.wordless = read t) {t u : Tree}
    (h : u.wordless = t.wordless) : read u = read t := by
  rw [← hread u, h, hread]

/-! ## Editing -/

section editing

variable (t : Tree)

theorem wordless_update {f : Node → Node} (hf : ∀ n, { f n with kind := (f n).kind.wordless } = f { n with kind := n.kind.wordless })
    (id : NodeId) : (t.update id f).wordless = t.wordless.update id f := by
  simp only [wordless, update, Tree.mk.injEq]
  refine Array.ext (by simp) fun i hi _ => ?_
  simp only [Array.getElem_map, Array.getElem_modify]
  split
  · exact hf _
  · rfl

theorem wordless_setParent (id : NodeId) (p : Option NodeId) : (t.setParent id p).wordless = t.wordless.setParent id p :=
  wordless_update t (fun _ => rfl) id

theorem wordless_mapChildren (id : NodeId) (f : List NodeId → List NodeId) :
    (t.mapChildren id f).wordless = t.wordless.mapChildren id f := wordless_update t (fun _ => rfl) id

theorem wordless_setSpan (id : NodeId) (s : Span) : (t.setSpan id s).wordless = t.wordless.setSpan id s :=
  wordless_update t (fun _ => rfl) id

theorem wordless_setKind_element (id : NodeId) (name : String) (attributes : List (String × String)) :
    (t.setKind id (.element name attributes)).wordless = t.wordless.setKind id (.element name attributes) :=
  wordless_update t (fun _ => rfl) id

theorem wordless_setAttribute (id : NodeId) (key value : String) :
    (t.setAttribute id key value).wordless = t.wordless.setAttribute id key value := by
  unfold setAttribute
  rw [kind_wordless]
  cases t.kind id with
  | element name attributes => exact wordless_setKind_element t id _ _
  | _ => rfl

theorem wordless_create (k : Kind) (s : Span) : (t.create k s).2.wordless = (t.wordless.create k.wordless s).2 := by
  simp [wordless, create, lone]

theorem wordless_detach (x : NodeId) : (t.detach x).wordless = t.wordless.detach x := by
  unfold detach
  rw [parent_wordless]
  split
  · rfl
  · rw [wordless_mapChildren, wordless_setParent]

theorem wordless_attach (place : List NodeId → List NodeId) (p x : NodeId) :
    (t.attach place p x).wordless = t.wordless.attach place p x := by
  rw [attach, attach, wordless_mapChildren, wordless_setParent]

end editing

end Tree

end MailMerge
