/-
  MailMerge.Proofs.Merge.Renumbered — a merge in the store of another tree.

  Where a tree is held under other numbers, a merge below one of its nodes goes as it does in the
  tree: it asks the environment the same, it fails with the same failure, and what it makes is
  held under the numbers that go on in both stores (`Session.Renumbered`). This is carried through
  every way in which steps are put together (`Merge.Renumbered.bind`). Before each statement the
  tree is well formed, so that walks and copies take the steps they need.

  Proved: each statement does the same (`renumbered_evaluate`), and so does a merge on any number
  of levels (`even_below`).
-/

import MailMerge.Proofs.Merge.Edits
import MailMerge.Proofs.Outline.Renumbered

namespace MailMerge

open MailMerge.Merge MailMerge.Tree

variable {ρ : NodeId → NodeId}

/-- The tree of one session is held in the other, where the same is known. -/
structure Session.Renumbered (ρ : NodeId → NodeId) (s s' : Session) : Prop where
  tree : Tree.Renumbered ρ s.tree s'.tree
  env : s'.env = s.env
  ledger : s'.ledger = s.ledger.renumber ρ

/-- Two runs that do the same: they answer the same but for numbers, or fail with one failure. -/
structure Merge.Renumbered {α : Type} (ρ : NodeId → NodeId) (f : α → α) (done done' : Except Failure α × Session) : Prop where
  result : done'.1 = done.1.map f
  session : done.2.Renumbered ρ done'.2

/-! ## Steps -/

section steps

variable {α β : Type} {s s' : Session} {f : α → α} {g : β → β}

theorem Merge.Renumbered.bind {step step' : Merge α} {next next' : α → Merge β} (h : Renumbered ρ f (step s) (step' s'))
    (hnext : ∀ a s₁ s₁', step s = (.ok a, s₁) → s₁.Renumbered ρ s₁' → Renumbered ρ g (next a s₁) (next' (f a) s₁')) :
    Renumbered ρ g ((step >>= next) s) ((step' >>= next') s') := by
  rw [run_bind, run_bind]
  generalize step s = done at h hnext ⊢
  generalize step' s' = done' at h ⊢
  obtain ⟨result, s₁⟩ := done
  obtain ⟨result', s₁'⟩ := done'
  obtain ⟨hresult, hsession⟩ := h
  simp only at hresult hsession
  subst hresult
  cases result with
  | error e => exact ⟨rfl, hsession⟩
  | ok a => exact hnext a s₁ s₁' rfl hsession

theorem Session.Renumbered.pure (h : s.Renumbered ρ s') (a : α) :
    Merge.Renumbered ρ f ((Pure.pure a : Merge α) s) ((Pure.pure (f a) : Merge α) s') := ⟨rfl, h⟩

theorem Session.Renumbered.throw (h : s.Renumbered ρ s') (e : Failure) :
    Merge.Renumbered ρ f ((MonadExcept.throw e : Merge α) s) ((MonadExcept.throw e : Merge α) s') := ⟨rfl, h⟩

theorem Session.Renumbered.editTree (h : s.Renumbered ρ s') {edit edit' : Tree → Tree}
    (hedit : Tree.Renumbered ρ (edit s.tree) (edit' s'.tree)) : Merge.Renumbered ρ id (Merge.editTree edit s) (Merge.editTree edit' s') :=
  ⟨rfl, hedit, h.env, h.ledger⟩

theorem Session.Renumbered.ask (h : s.Renumbered ρ s') (question question' : Environment → Except Failure α)
    (hq : question' s.env = question s.env) :
    Merge.Renumbered ρ id (Merge.ask (fun s => question s.env) s) (Merge.ask (fun s => question' s.env) s') := by
  rw [run_ask, run_ask, h.env, hq]
  refine ⟨?_, h⟩
  cases question s.env <;> rfl

theorem Session.Renumbered.askOperand (h : s.Renumbered ρ s') (question : Environment → Except ContextFault α) (span : Span) :
    Merge.Renumbered ρ id (Statement.askOperand span question s) (Statement.askOperand span question s') := by
  rw [Statement.run_askOperand, Statement.run_askOperand, h.env]
  refine ⟨?_, h⟩
  cases question s.env <;> rfl

theorem Merge.Renumbered.underScope {step step' : Merge α} {scope : Scope}
    (h : Renumbered ρ f (step { s with env := s.env.push scope }) (step' { s' with env := s'.env.push scope })) :
    Renumbered ρ f (Merge.underScope scope step s) (Merge.underScope scope step' s') := by
  rw [run_underScope, run_underScope]
  exact ⟨h.result, h.session.tree, congrArg Environment.pop h.session.env, h.session.ledger⟩

end steps

/-! ## Insertions and pictures -/

namespace Statement

variable {s s' : Session}

theorem renumbered_insert (h : s.Renumbered ρ s') (hw : s.tree.WellFormed) {f : Field} (hf : f.Owned (fun x => 0 ≤ x) s.tree) (v : Value) :
    Merge.Renumbered ρ id (insert f v s) (insert (f.renumber ρ) v s') := by
  have htext : ∀ text, Merge.Renumbered ρ id (editTree (Splice.putText f text) s) (editTree (Splice.putText (f.renumber ρ) text) s') :=
    fun text => h.editTree (Splice.renumbered_putText h.tree hw hf text)
  have hremove : Merge.Renumbered ρ id (editTree f.remove s) (editTree (f.renumber ρ).remove s') := h.editTree (h.tree.remove f)
  cases v with
  | nil => exact hremove
  | boolean b =>
    cases b with
    | false => exact hremove
    | true => exact htext _
  | content c =>
    cases c with
    | image image => exact hremove
    | text text => exact htext text
    | markup source =>
      obtain ⟨hresult, hput⟩ := Splice.renumbered_putMarkup h.tree hw hf source
      have hstep : Merge.Renumbered ρ id (withTree (Splice.putMarkup f source) s) (withTree (Splice.putMarkup (f.renumber ρ) source) s') :=
        ⟨congrArg Except.ok hresult, hput, h.env, h.ledger⟩
      refine hstep.bind fun result s₁ s₁' _ h₁ => ?_
      cases result with
      | ok _ => exact h₁.pure _
      | error e => exact h₁.throw _
  | _ => exact htext _

theorem renumbered_aimPictures {t u : Tree} (h : Tree.Renumbered ρ t u) (ht : t.WellFormed) (image : Image) (rid : String) (b : Block) :
    Tree.Renumbered ρ (aimPictures image rid b t) (aimPictures image rid (b.renumber ρ) u) := by
  unfold aimPictures
  rw [Block.nodes_renumber h.injective, h.subtrees ht]
  generalize b.nodes.flatMap t.subtree = ids
  clear ht
  induction ids generalizing t u with
  | nil => exact h
  | cons x ids ih =>
    refine ih (t := aimAt image rid t x) (u := aimAt image rid u (ρ x)) ?_
    unfold aimAt
    rw [h.isNamed, h.isNamed]
    split
    · exact h.setAttribute x _ _
    · split
      · exact h.setAttribute x _ _
      · exact h

theorem renumbered_relationship (h : s.Renumbered ρ s') (image : Image) :
    Merge.Renumbered ρ id (relationship image s) (relationship image s') := by
  unfold relationship
  cases image.rid with
  | some rid => exact h.pure rid
  | none =>
    refine ⟨?_, h.tree, ?_, h.ledger⟩
    · show Except.ok (s'.env.media.register image).1 = .ok (s.env.media.register image).1
      rw [h.env]
    · show ({ s'.env with media := (s'.env.media.register image).2 } : Environment) = { s.env with media := (s.env.media.register image).2 }
      rw [h.env]

theorem renumbered_showPicture (h : s.Renumbered ρ s') (hw : s.tree.WellFormed) (operand : Operand) (b : Block) (v : Value) :
    Merge.Renumbered ρ id (showPicture operand b v s) (showPicture operand (b.renumber ρ) v s') := by
  cases v with
  | nil => exact h.pure _
  | content c =>
    cases c with
    | image image =>
      refine (renumbered_relationship h image).bind fun rid s₁ s₁' hrid h₁ => h₁.editTree (renumbered_aimPictures h₁.tree ?_ image rid b)
      have hkeep : (relationship image s).2.tree = s.tree := by
        unfold relationship
        cases image.rid <;> rfl
      rw [hrid] at hkeep
      exact hkeep ▸ hw
    | _ => exact h.throw _
  | _ => exact h.throw _

end Statement

/-! ## Blocks -/

/-- Merging below a node does the same wherever the tree is held. -/
def Merge.Even (ρ : NodeId → NodeId) (expand : NodeId → Merge Unit) : Prop := ∀ (x : NodeId) (s s' : Session), s.tree.WellFormed →
  s.Renumbered ρ s' → Merge.Renumbered ρ id (expand x s) (expand (ρ x) s')

namespace Block

variable {s s' : Session}

theorem renumbered_giveWay (h : s.Renumbered ρ s') (b : Block) (content : List NodeId) :
    Merge.Renumbered ρ id (b.giveWay content s) ((b.renumber ρ).giveWay (content.map ρ) s') := by
  obtain ⟨hledger, htree⟩ := renumbered_replace h.tree b content s.ledger
  rw [run_giveWay, run_giveWay, h.ledger]
  exact ⟨rfl, htree, h.env, hledger⟩

/-- The copies are expanded as those in the tree are. -/
theorem renumbered_expandBody {expand : NodeId → Merge Unit} (hexp : Even ρ expand) (h : s.Renumbered ρ s') (hw : s.tree.WellFormed)
    {b : Block} (hb : ∀ x ∈ b.body, x ≠ root ∧ x < s.tree.size) :
    Merge.Renumbered ρ (List.map ρ) (b.expandBody expand s) ((b.renumber ρ).expandBody expand s') := by
  obtain ⟨hfst, hcopied⟩ := renumbered_copyNodes h.tree hw hb
  obtain ⟨-, hfill⟩ := copyNodes_spec hw (fun x hx => (hb x hx).1) fun x hx => (hb x hx).2
  have hcopy : Merge.Renumbered ρ ρ (withTree (fun t => copyNodes t b.body) s) (withTree (fun t => copyNodes t (b.body.map ρ)) s') :=
    ⟨congrArg Except.ok hfst, hcopied, h.env, h.ledger⟩
  refine hcopy.bind fun container s₁ s₁' hrun h₁ => ?_
  cases hrun
  refine (hexp _ _ _ hfill.beyond.wellFormed h₁).bind fun _ s₂ s₂' _ h₂ => ?_
  obtain ⟨hchildren, htaken⟩ := renumbered_takeChildren h₂.tree (copyNodes s.tree b.body).1
  exact ⟨congrArg Except.ok hchildren, htaken, h₂.env, h₂.ledger⟩

end Block

namespace Statement

variable {expand : NodeId → Merge Unit} (hexp : Expands expand) (heven : Even ρ expand) {s s' : Session}

theorem renumbered_giveWayTo (h : s.Renumbered ρ s') (chosen : Nat) (content : List NodeId) (place : Nat) (bs : List Block) :
    Merge.Renumbered ρ id (giveWayTo chosen content place bs s) (giveWayTo chosen (content.map ρ) place (bs.map (Block.renumber ρ)) s') := by
  induction bs generalizing place s s' with
  | nil => exact h.pure ()
  | cons b bs ih =>
    have hgiven : (if chosen = place then content.map ρ else []) = (if chosen = place then content else []).map ρ := by
      split <;> rfl
    rw [List.map_cons, run_giveWayTo_cons, run_giveWayTo_cons, hgiven]
    exact ih (Block.renumbered_giveWay h b _).session (place + 1)

include hexp heven

theorem renumbered_iterate (iterator : String) (items : List Value) (h : s.Renumbered ρ s') (hw : s.tree.WellFormed) {b : Block}
    (hb : ∀ x ∈ b.body, x ≠ root ∧ x < s.tree.size) :
    Merge.Renumbered ρ (List.map ρ) (iterate expand iterator b items s) (iterate expand iterator (b.renumber ρ) items s') := by
  induction items generalizing s s' with
  | nil => exact h.pure []
  | cons item items ih =>
    have hscoped : Session.Renumbered ρ { s with env := s.env.push (Scope.binding iterator item) }
        { s' with env := s'.env.push (Scope.binding iterator item) } := ⟨h.tree, congrArg (Environment.push · _) h.env, h.ledger⟩
    refine (Block.renumbered_expandBody heven hscoped hw hb).underScope.bind fun first s₁ s₁' hrun h₁ => ?_
    obtain ⟨hed, -⟩ := underScope_spec hexp hw hb (Scope.binding iterator item)
    rw [hrun] at hed
    refine (ih h₁ hed.tree.wellFormed fun x hx => ⟨(hb x hx).1, Nat.lt_of_lt_of_le (hb x hx).2 hed.tree.grows⟩).bind ?_
    intro more s₂ s₂' _ h₂
    refine ⟨congrArg Except.ok ?_, h₂⟩
    exact List.map_append.symm

omit hexp in
/-- A block that is chosen is expanded, and gives way to the content in a later step. -/
theorem renumbered_expandBody_bind (h : s.Renumbered ρ s') (hw : s.tree.WellFormed) {b : Block}
    (hb : ∀ x ∈ b.body, x ≠ root ∧ x < s.tree.size) {place place' : List NodeId → Merge Unit}
    (hplace : ∀ content s₁ s₁', s₁.Renumbered ρ s₁' → Merge.Renumbered ρ id (place content s₁) (place' (content.map ρ) s₁')) :
    Merge.Renumbered ρ id ((b.expandBody expand >>= place) s) (((b.renumber ρ).expandBody expand >>= place') s') :=
  (Block.renumbered_expandBody heven h hw hb).bind fun content s₁ s₁' _ h₁ => hplace content s₁ s₁' h₁

/-- **A statement does the same.** -/
theorem renumbered_evaluate (h : s.Renumbered ρ s') (hw : s.tree.WellFormed) {st : Statement} (hst : st.Owned (fun x => 0 ≤ x) s.tree) :
    Merge.Renumbered ρ id (st.evaluate expand s) ((st.renumber ρ).evaluate expand s') := by
  cases st with
  | insertion f o =>
    refine (h.askOperand o.evaluate f.span).bind fun v s₁ s₁' hask h₁ => ?_
    obtain ⟨-, rfl⟩ := askOperand_eq_ok hask
    exact renumbered_insert h₁ hw (hst.field f o rfl) v
  | loop list iterator b =>
    refine (h.askOperand list.evaluateItems b.startField.span).bind fun items s₁ s₁' hask h₁ => ?_
    obtain ⟨-, rfl⟩ := askOperand_eq_ok hask
    refine (renumbered_iterate hexp heven iterator items h₁ hw (hst.blocks b List.mem_cons_self).inStore).bind ?_
    exact fun content s₂ s₂' _ h₂ => Block.renumbered_giveWay h₂ b content
  | condition c =>
    refine (h.ask c.holds (c.renumber ρ).holds rfl).bind fun kept s₁ s₁' hask h₁ => ?_
    obtain ⟨-, rfl⟩ := Prod.mk.inj ((run_ask _ _).symm.trans hask)
    cases kept with
    | false => exact Block.renumbered_giveWay h₁ c.block []
    | true =>
      refine renumbered_expandBody_bind heven h₁ hw (hst.blocks c.block List.mem_cons_self).inStore ?_
      exact fun content s₂ s₂' h₂ => Block.renumbered_giveWay h₂ c.block content
  | choice branches otherwise =>
    have hholding : Condition.firstHolding s.env (branches.map (Condition.renumber ρ)) = Condition.firstHolding s.env branches := by
      clear hst
      induction branches with
      | nil => rfl
      | cons c cs ih =>
        have hc : (c.renumber ρ).holds s.env = c.holds s.env := rfl
        rw [List.map_cons, Condition.firstHolding, Condition.firstHolding, hc, ih]
    have hblocks : ((branches.map (Condition.renumber ρ)).map (·.block) ++ (otherwise.map (Block.renumber ρ)).toList) =
        (branches.map (·.block) ++ otherwise.toList).map (Block.renumber ρ) := by
      rw [List.map_append, List.map_map, List.map_map]
      cases otherwise <;> rfl
    refine (h.ask (Condition.firstHolding · branches) (Condition.firstHolding · (branches.map (Condition.renumber ρ)))
      hholding).bind fun holding s₁ s₁' hask h₁ => ?_
    obtain ⟨-, rfl⟩ := Prod.mk.inj ((run_ask _ _).symm.trans hask)
    simp only [hblocks, List.length_map, List.getElem?_map, id]
    cases hb : (branches.map (·.block) ++ otherwise.toList)[holding.getD branches.length]? with
    | none => exact renumbered_giveWayTo h₁ _ [] 0 _
    | some b =>
      refine renumbered_expandBody_bind heven h₁ hw (hst.blocks b (List.mem_of_getElem? hb)).inStore ?_
      exact fun content s₂ s₂' h₂ => renumbered_giveWayTo h₂ _ content 0 _
  | picture o b =>
    refine (h.askOperand o.evaluate b.startField.span).bind fun v s₁ s₁' hask h₁ => ?_
    obtain ⟨-, rfl⟩ := askOperand_eq_ok hask
    refine (renumbered_showPicture h₁ hw o b v).bind ?_
    exact fun _ s₂ s₂' _ h₂ => Block.renumbered_giveWay h₂ b []
  | comment b => exact Block.renumbered_giveWay h b []

/-- So do statements one behind the other. -/
theorem renumbered_evaluateAll (h : s.Renumbered ρ s') (hw : s.tree.WellFormed) {sts : List Statement}
    (hsts : ∀ st ∈ sts, st.Owned (fun x => 0 ≤ x) s.tree) :
    Merge.Renumbered ρ id (evaluateAll expand sts s) (evaluateAll expand (sts.map (Statement.renumber ρ)) s') := by
  induction sts generalizing s s' with
  | nil => exact h.pure ()
  | cons st sts ih =>
    have hst := hsts st List.mem_cons_self
    refine (renumbered_evaluate hexp heven h hw hst).bind fun _ s₁ s₁' hrun h₁ => ?_
    have hed := (edits_evaluate hexp (fenced_zero hw) hst fun _ _ hx => hx).tree
    rw [hrun] at hed
    exact ih h₁ hed.wellFormed fun st' hst' => (hsts st' (List.mem_cons_of_mem st hst')).edited hed

end Statement

/-! ## Levels -/

/-- **A merge below a node does the same**, on any number of levels. -/
theorem Merge.even_below (r : Registry) (n : Nat) : Even ρ (below r n) := by
  induction n with
  | zero => exact fun id s s' _ h => h.throw _
  | succ n ih =>
    intro id s s' hw h
    rw [run_below_succ, run_below_succ, h.tree.fields hw, Outline.ofFields_renumber h.tree hw]
    cases hbuild : Outline.ofFields r s.tree (s.tree.fields id) with
    | error e => exact h.throw e
    | ok built =>
      obtain ⟨ss, l⟩ := built
      have hown := Tree.Zone.owned_statements (fenced_zero hw) (fun _ hx => hx) (Nat.zero_le id) (Outline.outlined_of_takeAll hbuild)
      have hentered : Session.Renumbered ρ { s with ledger := l } { s' with ledger := l.renumber ρ } := ⟨h.tree, h.env, rfl⟩
      have hall := Statement.renumbered_evaluateAll (expands_below r n) ih hentered hw hown
      exact ⟨hall.result, hall.session.tree, hall.session.env, h.ledger⟩

end MailMerge
