/-
  MailMerge.Proofs.Merge.Scopes — what a merge leaves of its environment.

  A loop lays a scope over the names for each item, and the copy of its body is merged under
  it. The merge of the copy may fail at any depth, so a step is judged by the environment
  that it leaves on every path: the names mean what they meant before, and images are only
  added behind those that were given out (`Environment.Later`). Steps that do so are closed
  under everything that steps are put together with (`Merge.Restores`), so the scopes are
  balanced wherever a merge ends.

  Proved: every merge restores its environment, however it ends (`merge_restores`).
-/

import MailMerge.Proofs.Merge.Edits

namespace MailMerge

open Merge

/-! ## Environments -/

/-- The same names mean the same, and images are only added. -/
structure Environment.Later (e e' : Environment) : Prop where
  alike : e'.Alike e
  images : e.media.images <+: e'.media.images

theorem Environment.Later.refl (e : Environment) : e.Later e := ⟨.refl e, List.prefix_rfl⟩

theorem Environment.Later.trans {e e' e'' : Environment} (h : e.Later e') (h' : e'.Later e'') : e.Later e'' :=
  ⟨h'.alike.trans h.alike, h.images.trans h'.images⟩

/-- What happens under a scope is undone with the scope, but for the images. -/
theorem Environment.Later.pop {e e' : Environment} {scope : Scope} (h : (e.push scope).Later e') : e.Later e'.pop where
  alike := {
    context := h.alike.context
    scopes := by
      show e'.scopes.drop 1 = e.scopes
      rw [h.alike.scopes]
      rfl
    policy := h.alike.policy }
  images := h.images

/-- An image that is new goes behind those that are known; all that are known keep their ids. -/
theorem Media.images_register (m : Media) (image : Image) : m.images <+: (m.register image).2.images := by
  cases m with
  | fixed rid => exact List.prefix_rfl
  | collection stem images =>
    rw [Media.register]
    cases images.find? fun known => sameImage known.2 image with
    | some known => exact List.prefix_rfl
    | none => exact List.prefix_append images _

/-! ## Steps -/

/-- A step leaves the environment as it was but for new images, also when it fails. -/
def Merge.Restores {α : Type} (step : Merge α) : Prop := ∀ s : Session, s.env.Later (step s).2.env

namespace Merge.Restores

variable {α β : Type} {step : Merge α}

theorem bind {next : α → Merge β} (h : Restores step) (hnext : ∀ a, Restores (next a)) : Restores (step >>= next) := by
  intro s
  have hs := h s
  rw [run_bind]
  generalize step s = done at hs ⊢
  obtain ⟨result, s'⟩ := done
  cases result with
  | error e => exact hs
  | ok a => exact hs.trans (hnext a s')

theorem pure (a : α) : Restores (Pure.pure a : Merge α) := fun s => .refl s.env

theorem throw (e : Failure) : Restores (MonadExcept.throw e : Merge α) := fun s => .refl s.env

theorem editTree (f : Tree → Tree) : Restores (Merge.editTree f) := fun s => .refl s.env

theorem withTree (f : Tree → α × Tree) : Restores (Merge.withTree f) := fun s => .refl s.env

theorem ask (f : Session → Except Failure α) : Restores (Merge.ask f) := by
  intro s
  rw [run_ask]
  exact .refl s.env

theorem underScope (h : Restores step) (scope : Scope) : Restores (Merge.underScope scope step) := by
  intro s
  rw [run_underScope]
  exact (h { s with env := s.env.push scope }).pop

theorem underLedger (h : Restores step) (ledger : Ledger) : Restores (Merge.underLedger ledger step) := by
  intro s
  rw [run_underLedger]
  exact h { s with ledger }

end Merge.Restores

/-! ## Blocks -/

theorem Block.restores_expandBody {expand : NodeId → Merge Unit} (h : ∀ id, Restores (expand id)) (b : Block) :
    Restores (b.expandBody expand) :=
  .bind (.withTree _) fun container => .bind (h container) fun _ => .withTree _

theorem Block.restores_giveWay (b : Block) (content : List NodeId) : Restores (b.giveWay content) := fun s => .refl s.env

/-! ## Statements -/

namespace Statement

theorem restores_insert (f : Field) (v : Value) : Restores (insert f v) := by
  cases v with
  | boolean b => cases b <;> exact .editTree _
  | content c =>
    cases c with
    | markup source =>
      refine .bind (.withTree _) fun result => ?_
      cases result with
      | ok _ => exact .pure _
      | error e => exact .throw _
    | _ => exact .editTree _
  | _ => exact .editTree _

theorem restores_relationship (image : Image) : Restores (relationship image) := by
  unfold relationship
  cases image.rid with
  | some rid => exact .pure rid
  | none => exact fun s => ⟨⟨rfl, rfl, rfl⟩, s.env.media.images_register image⟩

theorem restores_showPicture (operand : Operand) (b : Block) (v : Value) : Restores (showPicture operand b v) := by
  cases v with
  | nil => exact .pure _
  | content c =>
    cases c with
    | image image => exact .bind (restores_relationship image) fun rid => .editTree _
    | _ => exact .throw _
  | _ => exact .throw _

theorem restores_giveWayTo (chosen : Nat) (content : List NodeId) (place : Nat) (bs : List Block) :
    Restores (giveWayTo chosen content place bs) := by
  induction bs generalizing place with
  | nil => exact .pure _
  | cons b bs ih => exact .bind (b.restores_giveWay _) fun _ => ih (place + 1)

theorem restores_askOperand {α : Type} (span : Span) (question : Environment → Except ContextFault α) :
    Restores (askOperand span question) := .ask _

section expansions

variable {expand : NodeId → Merge Unit} (h : ∀ id, Restores (expand id))

include h

theorem restores_iterate (iterator : String) (b : Block) (items : List Value) : Restores (iterate expand iterator b items) := by
  induction items with
  | nil => exact .pure []
  | cons item items ih =>
    exact .bind ((b.restores_expandBody h).underScope _) fun content => .bind ih fun more => .pure (content ++ more)

theorem restores_evaluate (st : Statement) : Restores (st.evaluate expand) := by
  cases st with
  | insertion f o => exact .bind (restores_askOperand _ _) fun v => restores_insert f v
  | loop list iterator b =>
    exact .bind (restores_askOperand _ _) fun items => .bind (restores_iterate h iterator b items) fun content => b.restores_giveWay content
  | condition c =>
    refine .bind (.ask _) fun kept => ?_
    cases kept with
    | true => exact .bind (c.block.restores_expandBody h) fun content => c.block.restores_giveWay content
    | false => exact .bind (.pure []) fun content => c.block.restores_giveWay content
  | choice branches otherwise =>
    refine .bind (.ask _) fun holding => ?_
    simp only
    split
    · exact .bind (Block.restores_expandBody h _) fun content => restores_giveWayTo _ content 0 _
    · exact .bind (.pure []) fun content => restores_giveWayTo _ content 0 _
  | picture o b =>
    exact .bind (restores_askOperand _ _) fun v => .bind (restores_showPicture o b v) fun _ => b.restores_giveWay []
  | comment b => exact b.restores_giveWay []

theorem restores_evaluateAll (sts : List Statement) : Restores (evaluateAll expand sts) := by
  induction sts with
  | nil => exact .pure ()
  | cons st sts ih => exact .bind (restores_evaluate h st) fun _ => ih

end expansions

end Statement

/-! ## Merges -/

/-- However many levels it takes, and on whichever of them it fails. -/
theorem Merge.restores_below (r : Registry) (n : Nat) (id : NodeId) : Restores (below r n id) := by
  induction n generalizing id with
  | zero => exact .throw _
  | succ n ih => exact .bind (.ask _) fun made => (Statement.restores_evaluateAll ih made.1).underLedger made.2

theorem Merge.restores_part (r : Registry) : Restores (part r) := by
  intro s
  rw [run_part]
  exact Restores.bind (restores_below r _ Tree.root) (fun _ => .editTree _) s

/-- A merge ends with the scopes, the context and the policy that it was given, and with the
    images of its registry in front of those that it added, whether it goes through or fails. -/
theorem merge_restores (t : Tree) (r : Registry) (env : Environment) :
    (t.merge r env).env.scopes = env.scopes ∧ (t.merge r env).env.context = env.context ∧
      (t.merge r env).env.policy = env.policy ∧ env.media.images <+: (t.merge r env).env.media.images := by
  have h := restores_part r ⟨t, env, Ledger.empty⟩
  rw [Tree.env_merge]
  exact ⟨h.alike.scopes, h.alike.context, h.alike.policy, h.images⟩

end MailMerge
