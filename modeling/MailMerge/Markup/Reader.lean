/-
  MailMerge.Markup.Reader — from the pieces of a text to nodes of a tree.

  The nodes are made in document order and appended below a given parent, an element's
  content below the element. `path` holds the elements opened by this text and not yet
  closed, innermost first: only they can be closed by it. Reading stops at the first
  fault; the nodes appended until then stay in the tree.
-/

import MailMerge.Markup.Fault
import MailMerge.Text.Blank
import MailMerge.Tree.Edit

namespace MailMerge

namespace Markup

open MailMerge.Text

/-! ## The contents of single pieces -/

/-- An attribute with its value unescaped. -/
def readPair (element : String) (a : RawAttribute) : Except MarkupFault (String × String) :=
  match unescape a.value with
  | .ok value => .ok (String.ofList a.key, String.ofList value)
  | .error e => .error (.badValue (String.ofList a.key) element e)

/-- Attributes with their values unescaped, or the first thing wrong with them. -/
def readAttributes (element : String) (content : List Char) :
    Except MarkupFault (List (String × String)) := do
  let (raw, fault) := attributesOf true element.toList content
  let pairs ← raw.mapM (readPair element)
  match fault with
  | some e => .error (.badAttribute element e)
  | none => .ok pairs

/-- The element that a tag's content describes. -/
def readElement (content : List Char) : Except MarkupFault Kind :=
  let name := String.ofList (nameOf content)
  (readAttributes name content).map fun attributes => .element name attributes

def declarationTarget : List Char := ['x', 'm', 'l']

/-- An instruction is a declaration when its target is `xml`. -/
def isDeclaration (body : List Char) : Bool :=
  match after? declarationTarget body with
  | some [] => true
  | some (c :: _) => isSpace c
  | none => false

/-- A declaration is kept as its version, then its encoding and its standalone flag if
    they can be read. -/
def readDeclaration (body : List Char) : Except MarkupFault String :=
  let (raw, fault) := attributesOf false declarationTarget body
  let field (key : String) : List Char :=
    match raw.find? (String.ofList ·.key == key) with
    | some a => (" " ++ key ++ "=\"").toList ++ a.value ++ ['"']
    | none => []
  match raw, fault with
  | first :: _, _ =>
    if String.ofList first.key = "version" then
      .ok (String.ofList (declarationTarget ++ field "version" ++ field "encoding" ++ field "standalone"))
    else .error (.badDeclaration (.versionNotFirst (String.ofList first.key)))
  | [], some e => .error (.badDeclaration (.badAttribute e))
  | [], none => .error (.badDeclaration .noVersion)

/-- The name in a closing tag: space behind it does not count, unless there is nothing else. -/
def closingName (content : List Char) : String :=
  match (content.reverse.dropWhile isSpace).reverse with
  | [] => String.ofList content
  | name => String.ofList name

/-- The node that a piece without content of its own makes; tags make none here. -/
def readLeaf : Piece → Except MarkupFault (Option Kind)
  | .data raw =>
    match unescape raw with
    | .ok s => .ok (some (.text (String.ofList s)))
    | .error e => .error (.badText e)
  | .closed content => (readElement content).map some
  | .cdata body => .ok (some (.cdata (String.ofList body)))
  | .comment body => .ok (some (.comment (String.ofList body)))
  | .instruction body =>
    if isDeclaration body then (readDeclaration body).map fun s => some (.declaration s)
    else .ok (some (.instruction (String.ofList body)))
  | .doctype _ body => .ok (some (.doctype (String.ofList (trim body))))
  | .opening _ | .closing _ => .ok none

/-! ## Growing the tree -/

def addNode (t : Tree) (parent : NodeId) (kind : Kind) (span : Span) : NodeId × Tree :=
  let (id, u) := t.create kind span
  (id, u.appendChild parent id)

/-- Where the next node goes. -/
def innermost (parent : NodeId) (path : List NodeId) : NodeId := path.headD parent

/-- How a piece makes the tree grow. -/
inductive Growth where
  /-- A new element; what follows goes into it. -/
  | enter (kind : Kind)
  /-- A new node with nothing below it. -/
  | leaf (kind : Kind)
  /-- The innermost open element ends; those around it stay open. -/
  | leave (id : NodeId) (path : List NodeId)
  | nothing

/-- The end of the innermost open element, if it has the name of the closing tag. -/
def leaving (t : Tree) (path : List NodeId) (found : String) : Except MarkupFault Growth :=
  match path with
  | [] => .error (.unmatchedEnd found)
  | id :: path =>
    let expected := (t.name? id).getD ""
    if expected = found then .ok (.leave id path) else .error (.mismatchedEnd expected found)

def growth (t : Tree) (path : List NodeId) : Piece → Except MarkupFault Growth
  | .opening content => (readElement content).map .enter
  | .closing content => leaving t path (closingName content)
  | piece => (readLeaf piece).map fun kind => kind.elim .nothing .leaf

/-- Lets the tree grow by a piece with this span. An element's span reaches to its end. -/
def grow (parent : NodeId) (path : List NodeId) (span : Span) (t : Tree) :
    Growth → List NodeId × Tree
  | .enter kind =>
    let (id, t) := addNode t (innermost parent path) kind span
    (id :: path, t)
  | .leaf kind => (path, (addNode t (innermost parent path) kind span).2)
  | .leave id path =>
    let whole := (t.span id).extendTo span.stop
    (path, t.setSpan id whole)
  | .nothing => (path, t)

/-- Adds the pieces in order, up to the first fault. -/
def addPieces (parent : NodeId) : (path : List NodeId) → Tree → List Placed →
    Except (MarkupFault × Span) (List NodeId) × Tree
  | path, t, [] => (.ok path, t)
  | path, t, p :: ps =>
    match growth t path p.piece with
    | .error fault => (.error (fault, p.span), t)
    | .ok g =>
      let (path, t) := grow parent path p.span t g
      addPieces parent path t ps

end Markup

namespace Tree

open Markup

/-- Reads `text` and appends its nodes below `parent`; `source` numbers the text in errors. -/
def readInto (t : Tree) (parent : NodeId) (text : String) (source : Nat) :
    Except MarkupError Unit × Tree :=
  let (ps, broken) := pieces text.toList
  match addPieces parent [] t ps with
  | (.error (fault, span), u) => (.error ⟨fault, span, source⟩, u)
  | (.ok path, u) =>
    match broken, path with
    | some (fault, span), _ => (.error ⟨.cut fault, span, source⟩, u)
    | none, [] => (.ok (), u)
    | none, id :: _ =>
      (.error ⟨.unclosedElement ((u.name? id).getD "?"), u.span id, source⟩, u)

/-- The tree of a whole part. -/
def ofText (text : String) (source : Nat) : Except MarkupError Tree :=
  match Tree.empty.readInto Tree.root text source with
  | (.ok (), t) => .ok t
  | (.error e, _) => .error e

end Tree

end MailMerge
