/-
  MailMerge.Merge.Evaluate — statements at work on a session.

  What is inside a block is expanded by the caller's `expand`, which merges everything
  below the node it is given. A block is expanded on a copy of its body; the part itself
  changes only when the copies are ready to take the block's place, so a statement takes
  effect as a whole or not at all.
-/

import MailMerge.Evaluation
import MailMerge.Merge.Session
import MailMerge.Splice.Markup
import MailMerge.Splice.Text
import MailMerge.Statement

namespace MailMerge

open MailMerge.Merge

namespace Block

/-- The expanded copies of a block's body, unlinked. -/
def expandBody (expand : NodeId → Merge Unit) (b : Block) : Merge (List NodeId) := do
  let container ← withTree fun t => copyNodes t b.body
  expand container
  withTree (takeChildren container)

/-- Puts content in a block's place. -/
def giveWay (b : Block) (content : List NodeId) : Merge Unit :=
  modify fun ⟨tree, env, ledger⟩ =>
    let (tree, ledger) := b.replace content tree ledger
    ⟨tree, env, ledger⟩

end Block

namespace Condition

/-- Whether the guard holds. -/
def holds (c : Condition) (env : Environment) : Except Failure Bool :=
  let answer := match c.predicate with
    | some predicate => c.operand.evaluatePredicate predicate env
    | none => (c.operand.evaluate env).map Value.isTruthy
  answer.mapError fun fault => Failure.context fault c.block.startField.span

/-- The place of the first branch whose guard holds; later guards are not asked. -/
def firstHolding (env : Environment) : List Condition → Except Failure (Option Nat)
  | [] => .ok none
  | c :: cs => do
    if ← c.holds env then .ok (some 0)
    else
      let later ← firstHolding env cs
      .ok (later.map (· + 1))

end Condition

namespace Statement

/-- Puts a value in a field's place. -/
def insert (f : Field) : Value → Merge Unit
  | .nil | .boolean false | .content (.image _) => editTree f.remove
  | .content (.text s) => editTree (Splice.putText f s)
  | .content (.markup source) => do
    match ← withTree (Splice.putMarkup f source) with
    | .ok () => pure ()
    | .error e => throw ((Failure.ofCause (.markup e)).locatedAt f.span)
  | v => editTree (Splice.putText f v.display)

/-- The expansions of a block for each item in turn, one after the other. -/
def iterate (expand : NodeId → Merge Unit) (iterator : String) (b : Block) :
    List Value → Merge (List NodeId)
  | [] => pure []
  | item :: items => do
    let content ← underScope (Scope.binding iterator item) (b.expandBody expand)
    let more ← iterate expand iterator b items
    pure (content ++ more)

/-- Each block gives way: the chosen one to the content, the others to nothing. -/
def giveWayTo (chosen : Nat) (content : List NodeId) : (place : Nat) → List Block → Merge Unit
  | _, [] => pure ()
  | place, b :: bs => do
    b.giveWay (if chosen = place then content else [])
    giveWayTo chosen content (place + 1) bs

/-- Points one element of a picture to an image. -/
def aimAt (image : Image) (rid : String) (t : Tree) (id : NodeId) : Tree :=
  if t.isNamed Word.pictureProperties id then t.setAttribute id Word.pictureName image.name
  else if t.isNamed Word.blip id then t.setAttribute id Word.embed rid
  else t

/-- Points the pictures in a block to an image. -/
def aimPictures (image : Image) (rid : String) (b : Block) (t : Tree) : Tree :=
  (b.nodes.flatMap t.subtree).foldl (aimAt image rid) t

/-- The relationship id of an image: its own, or one from the registry. -/
def relationship (image : Image) : Merge String := do
  match image.rid with
  | some rid => pure rid
  | none =>
    modifyGet fun s =>
      let (rid, media) := s.env.media.register image
      (rid, { s with env := { s.env with media } })

/-- Gives a block's pictures the image that a value is; nil keeps them as they are. -/
def showPicture (operand : Operand) (b : Block) : Value → Merge Unit
  | .content (.image image) => do
    let rid ← relationship image
    editTree (aimPictures image rid b)
  | .nil => pure ()
  | v =>
    throw (Failure.context (.notAnImage operand.toString v.typeName) b.startField.span)

/-- A question about an operand, its failure told at `span`. -/
def askOperand {α : Type} (span : Span) (question : Environment → Except ContextFault α) :
    Merge α :=
  ask fun s => (question s.env).mapError fun fault => Failure.context fault span

/-- Carries a statement out. -/
def evaluate (expand : NodeId → Merge Unit) : Statement → Merge Unit
  | insertion f operand => do
    let value ← askOperand f.span operand.evaluate
    insert f value
  | loop list iterator b => do
    let items ← askOperand b.startField.span list.evaluateItems
    let content ← iterate expand iterator b items
    b.giveWay content
  | condition c => do
    let kept ← ask fun s => c.holds s.env
    let content ← if kept then c.block.expandBody expand else pure []
    c.block.giveWay content
  | choice branches otherwise => do
    let holding ← ask fun s => Condition.firstHolding s.env branches
    let blocks := branches.map (·.block) ++ otherwise.toList
    let chosen := holding.getD branches.length
    let content ← match blocks[chosen]? with
      | some b => b.expandBody expand
      | none => pure []
    giveWayTo chosen content 0 blocks
  | picture operand b => do
    let value ← askOperand b.startField.span operand.evaluate
    showPicture operand b value
    b.giveWay []
  | comment b => b.giveWay []

/-- Carries statements out, up to the first that fails. -/
def evaluateAll (expand : NodeId → Merge Unit) : List Statement → Merge Unit
  | [] => pure ()
  | s :: rest => do
    s.evaluate expand
    evaluateAll expand rest

end Statement

end MailMerge
