/-
  MailMerge.Proofs.Template.Basic — templates, and what they are to become.

  A template is a list of paragraphs. A block starts and ends in paragraphs of its own: a
  marker is a paragraph with one simple field, and a conditional may have more markers in
  between. All other paragraphs are ordinary: what is in them is either plain, so without
  fields, or an insertion, a simple field around one run with one text element.

  `expand` says by recursion on templates what is to come out of one. It knows of no tree,
  no scan and no ledger: a loop is the expansions of its body one after the other, a
  conditional is the expansion of its first branch that holds, a comment is nothing.
-/

import MailMerge.Directive.Registry
import MailMerge.Evaluation
import MailMerge.Proofs.Splice.Lines

namespace MailMerge

open MailMerge.Tree

/-- The directive of a simple field with these attributes, if it has one. -/
def Instruction.ofAttributes? (attributes : List (String × String)) : Option String :=
  (attributes.lookup Word.fieldInstruction).bind Instruction.directive?

/-! ## Paragraphs -/

/-- A paragraph with a field that starts, parts or ends a block, and no other field. -/
structure Marker where
  paragraph : List (String × String)
  field : List (String × String)
  before : List Twig
  /-- What the field displays. -/
  result : List Twig
  after : List Twig
  expression : String
  reads : Instruction.ofAttributes? field = some expression
  plain : Twig.hasIn Kind.opensField (before ++ result ++ after) = false
  /-- It is not about a picture. -/
  worded : expression.startsWith "@" = false

/-- A simple field around one run with a text element, in the place of which a value is put. -/
structure Insertion where
  field : List (String × String)
  run : List (String × String)
  text : List (String × String)
  before : List Twig
  result : List Twig
  after : List Twig
  expression : String
  operand : Operand
  reads : Instruction.ofAttributes? field = some expression
  means : ∃ text, Registry.stock.directive expression = .insertion text ∧ Operand.parse text = .ok operand
  plain : Twig.hasIn Kind.opensField (before ++ result ++ after) = false
  first : Twig.hasIn (Kind.isNamed Word.text) before = false

inductive Piece where
  | plain (twig : Twig) (h : twig.has Kind.opensField = false)
  | insertion (i : Insertion)

/-- An ordinary paragraph. -/
structure Paragraph where
  attributes : List (String × String)
  pieces : List Piece

def Marker.twig (m : Marker) : Twig :=
  .node (.element Word.paragraph m.paragraph) (m.before ++ .node (.element Word.simpleField m.field) m.result :: m.after)

def Insertion.twig (i : Insertion) : Twig :=
  .node (.element Word.simpleField i.field)
    [.node (.element Word.run i.run) (i.before ++ .node (.element Word.text i.text) i.result :: i.after)]

def Piece.twig : Piece → Twig
  | plain twig _ => twig
  | insertion i => i.twig

def Paragraph.twig (p : Paragraph) : Twig := .node (.element Word.paragraph p.attributes) (p.pieces.map Piece.twig)

/-! ## Templates -/

mutual

inductive Template where
  | nil
  | paragraph (p : Paragraph) (rest : Template)
  | loop (start : Marker) (list : Operand) (iterator : String) (body : Template) (stop : Marker) (rest : Template)
  | conditional (start : Marker) (guard : Guard) (operand : Operand) (body : Template) (more : Branches) (rest : Template)
  | comment (start : Marker) (body : Template) (stop : Marker) (rest : Template)

/-- What follows the first branch of a conditional. -/
inductive Branches where
  | stop (marker : Marker)
  | guarded (marker : Marker) (guard : Guard) (operand : Operand) (body : Template) (more : Branches)
  | otherwise (marker : Marker) (body : Template) (stop : Marker)

end

mutual

/-- The paragraphs of the template, as they are written. -/
def Template.paragraphs : Template → List Twig
  | .nil => []
  | .paragraph p rest => p.twig :: rest.paragraphs
  | .loop start _ _ body stop rest => start.twig :: body.paragraphs ++ stop.twig :: rest.paragraphs
  | .conditional start _ _ body more rest => start.twig :: body.paragraphs ++ more.paragraphs ++ rest.paragraphs
  | .comment start body stop rest => start.twig :: body.paragraphs ++ stop.twig :: rest.paragraphs

def Branches.paragraphs : Branches → List Twig
  | .stop marker => [marker.twig]
  | .guarded marker _ _ body more => marker.twig :: body.paragraphs ++ more.paragraphs
  | .otherwise marker body stop => marker.twig :: body.paragraphs ++ [stop.twig]

end

/-- The expressions that end or part the conditional of that name. -/
def Directive.bounds (name expression : String) : Bool :=
  expression == conditionalEnd name || isBranchMarker name expression

mutual

/-- The markers are read as what they are here for, and blocks are properly nested: what
    stands in a block directly is not read as one of the marks of the block, which `bounds`
    tells. -/
def Template.Nested (bounds : String → Bool) : Template → Prop
  | .nil => True
  | .paragraph p rest => (∀ i, .insertion i ∈ p.pieces → bounds i.expression = false) ∧ rest.Nested bounds
  | .loop start list iterator body stop rest => bounds start.expression = false ∧
      (∃ text, Registry.stock.directive start.expression = .loop text iterator stop.expression ∧
        Operand.parse text = .ok list) ∧
      body.Nested (· == stop.expression) ∧ rest.Nested bounds
  | .conditional start guard operand body more rest => bounds start.expression = false ∧
      Registry.stock.directive start.expression = .conditional guard ∧ Operand.parse guard.name = .ok operand ∧
      body.Nested (Directive.bounds guard.name) ∧ more.Nested guard.name ∧ rest.Nested bounds
  | .comment start body stop rest => bounds start.expression = false ∧
      Registry.stock.directive start.expression = .comment ∧ stop.expression = Directive.commentEnd ∧
      body.Nested (· == stop.expression) ∧ rest.Nested bounds

def Branches.Nested (name : String) : Branches → Prop
  | .stop marker => marker.expression = Directive.conditionalEnd name
  | .guarded marker guard operand body more => marker.expression ≠ Directive.conditionalEnd name ∧
      marker.expression ≠ Directive.elseMarker name ∧ Directive.elsif? marker.expression = some guard ∧
      Operand.parse guard.name = .ok operand ∧ body.Nested (Directive.bounds name) ∧ more.Nested name
  | .otherwise marker body stop => marker.expression = Directive.elseMarker name ∧
      stop.expression = Directive.conditionalEnd name ∧ body.Nested (Directive.bounds name)

end

/-! ## Expansion -/

/-- The text that is inserted for a value; nil and false leave nothing. -/
def Value.inserted? : Value → Option String
  | .nil | .boolean false => none
  | v => some v.display

/-- The run with a text in it. -/
def Insertion.showing (i : Insertion) (s : String) : Twig :=
  .node (.element Word.run i.run) (i.before ++ Splice.textTwigs i.text (Text.splitAt '\n' s.toList) ++ i.after)

/-- Whether a guard with that operand holds. -/
def Guard.holds (guard : Guard) (operand : Operand) (env : Environment) : Except ContextFault Bool :=
  match guard.predicate with
  | some predicate => operand.evaluatePredicate predicate env
  | none => (operand.evaluate env).map Value.isTruthy

def Piece.expand (env : Environment) : Piece → Except ContextFault (List Twig)
  | plain twig _ => .ok [twig]
  | insertion i => do
    let value ← i.operand.evaluate env
    .ok (value.inserted?.map i.showing).toList

def Piece.expandAll (env : Environment) : List Piece → Except ContextFault (List Twig)
  | [] => .ok []
  | p :: ps => do
    let twigs ← p.expand env
    let more ← expandAll env ps
    .ok (twigs ++ more)

def Paragraph.expand (env : Environment) (p : Paragraph) : Except ContextFault Twig := do
  let twigs ← Piece.expandAll env p.pieces
  .ok (.node (.element Word.paragraph p.attributes) twigs)

mutual

/-- The paragraphs that come out of the template. -/
def Template.expand (env : Environment) : Template → Except ContextFault (List Twig)
  | .nil => .ok []
  | .paragraph p rest => do
    let twig ← p.expand env
    let more ← rest.expand env
    .ok (twig :: more)
  | .loop _ list iterator body _ rest => do
    let content ← do
      let items ← list.evaluateItems env
      let contents ← items.mapM fun item => body.expand (env.push (Scope.binding iterator item))
      .ok contents.flatten
    let more ← rest.expand env
    .ok (content ++ more)
  | .conditional _ guard operand body branches rest => do
    let content ← do
      let holds ← guard.holds operand env
      if holds then body.expand env else branches.expand env
    let more ← rest.expand env
    .ok (content ++ more)
  | .comment _ _ _ rest => rest.expand env

/-- The expansion of the first branch that holds. -/
def Branches.expand (env : Environment) : Branches → Except ContextFault (List Twig)
  | .stop _ => .ok []
  | .guarded _ guard operand body more => do
    let holds ← guard.holds operand env
    if holds then body.expand env else more.expand env
  | .otherwise _ body _ => body.expand env

end

mutual

/-- How deep blocks are nested. -/
def Template.depth : Template → Nat
  | .nil => 0
  | .paragraph _ rest => rest.depth
  | .loop _ _ _ body _ rest => max (body.depth + 1) rest.depth
  | .conditional _ _ _ body more rest => max (body.depth + 1) (max more.depth rest.depth)
  | .comment _ body _ rest => max (body.depth + 1) rest.depth

def Branches.depth : Branches → Nat
  | .stop _ => 0
  | .guarded _ _ _ body more => max (body.depth + 1) more.depth
  | .otherwise _ body _ => body.depth + 1

end

end MailMerge
