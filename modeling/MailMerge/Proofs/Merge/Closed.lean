/-
  MailMerge.Proofs.Merge.Closed — what holds of every step of a merge.

  A merge is put together from a few steps: edits of the tree, questions, images that are given
  out, and blocks that give way. It binds them one behind the other, and runs some under a scope
  or a ledger of their own. What holds of these steps and is kept by these ways to put them
  together holds of all of a merge, on every level (`Merge.Closed`).

  Proved: one lemma for each part of a merge, up to merging below a node on any number of levels
  (`Closed.below`).
-/

import MailMerge.Proofs.Merge.Steps

namespace MailMerge

open Merge

/-- It holds of the steps that a merge is made of, and is kept when they are put together. -/
structure Merge.Closed (P : ∀ {α : Type}, Merge α → Prop) : Prop where
  pure : ∀ {α : Type} (a : α), P (Pure.pure a : Merge α)
  throw : ∀ {α : Type} (e : Failure), P (MonadExcept.throw e : Merge α)
  bind : ∀ {α β : Type} {step : Merge α} {next : α → Merge β}, P step → (∀ a, P (next a)) → P (step >>= next)
  remove : ∀ f : Field, P (editTree f.remove)
  putText : ∀ (f : Field) (text : String), P (editTree (Splice.putText f text))
  putMarkup : ∀ (f : Field) (source : String), P (withTree (Splice.putMarkup f source))
  aimPictures : ∀ (image : Image) (rid : String) (b : Block), P (editTree (Statement.aimPictures image rid b))
  copyNodes : ∀ ids : List NodeId, P (withTree fun t => Block.copyNodes t ids)
  takeChildren : ∀ container : NodeId, P (withTree (Block.takeChildren container))
  askTree : ∀ {α : Type} (question : Tree → Except Failure α), P (ask fun s => question s.tree)
  askValue : ∀ (span : Span) (o : Operand), P (Statement.askOperand span o.evaluate)
  askItems : ∀ (span : Span) (o : Operand), P (Statement.askOperand span o.evaluateItems)
  askGuard : ∀ c : Condition, P (ask fun s => c.holds s.env)
  askGuards : ∀ cs : List Condition, P (ask fun s => Condition.firstHolding s.env cs)
  giveWay : ∀ (b : Block) (content : List NodeId), P (b.giveWay content)
  relationship : ∀ image : Image, P (Statement.relationship image)
  underScope : ∀ {α : Type} {step : Merge α} (scope : Scope), P step → P (Merge.underScope scope step)
  underLedger : ∀ {α : Type} {step : Merge α} (ledger : Ledger), P step → P (Merge.underLedger ledger step)

namespace Merge.Closed

variable {P : ∀ {α : Type}, Merge α → Prop} (hP : Closed P)

include hP

theorem insert (f : Field) (v : Value) : P (Statement.insert f v) := by
  cases v with
  | nil => exact hP.remove f
  | boolean b =>
    cases b with
    | false => exact hP.remove f
    | true => exact hP.putText f _
  | content c =>
    cases c with
    | markup source =>
      refine hP.bind (hP.putMarkup f source) fun result => ?_
      cases result with
      | ok _ => exact hP.pure _
      | error e => exact hP.throw _
    | image image => exact hP.remove f
    | text s => exact hP.putText f s
  | _ => exact hP.putText f _

theorem showPicture (operand : Operand) (b : Block) (v : Value) : P (Statement.showPicture operand b v) := by
  cases v with
  | nil => exact hP.pure _
  | content c =>
    cases c with
    | image image => exact hP.bind (hP.relationship image) fun rid => hP.aimPictures image rid b
    | _ => exact hP.throw _
  | _ => exact hP.throw _

theorem giveWayTo (chosen : Nat) (content : List NodeId) (place : Nat) (bs : List Block) :
    P (Statement.giveWayTo chosen content place bs) := by
  induction bs generalizing place with
  | nil => exact hP.pure _
  | cons b bs ih => exact hP.bind (hP.giveWay b _) fun _ => ih (place + 1)

section expansions

variable {expand : NodeId → Merge Unit} (h : ∀ id, P (expand id))

include h

theorem expandBody (b : Block) : P (b.expandBody expand) :=
  hP.bind (hP.copyNodes b.body) fun container => hP.bind (h container) fun _ => hP.takeChildren container

theorem iterate (iterator : String) (b : Block) (items : List Value) : P (Statement.iterate expand iterator b items) := by
  induction items with
  | nil => exact hP.pure []
  | cons item items ih =>
    exact hP.bind (hP.underScope _ (hP.expandBody h b)) fun content => hP.bind ih fun more => hP.pure (content ++ more)

theorem evaluate (st : Statement) : P (st.evaluate expand) := by
  cases st with
  | insertion f o => exact hP.bind (hP.askValue _ o) fun v => hP.insert f v
  | loop list iterator b =>
    exact hP.bind (hP.askItems _ list) fun items => hP.bind (hP.iterate h iterator b items) fun content => hP.giveWay b content
  | condition c =>
    refine hP.bind (hP.askGuard c) fun kept => ?_
    cases kept with
    | true => exact hP.bind (hP.expandBody h c.block) fun content => hP.giveWay c.block content
    | false => exact hP.bind (hP.pure []) fun content => hP.giveWay c.block content
  | choice branches otherwise =>
    refine hP.bind (hP.askGuards branches) fun holding => ?_
    simp only
    split
    · exact hP.bind (hP.expandBody h _) fun content => hP.giveWayTo _ content 0 _
    · exact hP.bind (hP.pure []) fun content => hP.giveWayTo _ content 0 _
  | picture o b => exact hP.bind (hP.askValue _ o) fun v => hP.bind (hP.showPicture o b v) fun _ => hP.giveWay b []
  | comment b => exact hP.giveWay b []

theorem evaluateAll (sts : List Statement) : P (Statement.evaluateAll expand sts) := by
  induction sts with
  | nil => exact hP.pure ()
  | cons st sts ih => exact hP.bind (hP.evaluate h st) fun _ => ih

end expansions

/-- However many levels it takes, and on whichever of them it fails. -/
theorem below (r : Registry) (n : Nat) (id : NodeId) : P (Merge.below r n id) := by
  induction n generalizing id with
  | zero => exact hP.throw _
  | succ n ih =>
    exact hP.bind (hP.askTree fun t => Outline.ofFields r t (t.fields id)) fun made =>
      hP.underLedger made.2 (hP.evaluateAll ih made.1)

end Merge.Closed

end MailMerge
