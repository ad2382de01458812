/-
  MailMerge.Proofs.Merge.Failing — a statement that fails.

  A statement may fail when its operand is asked for, while the copies of a body are merged,
  at whatever depth, or while markup is read. All this happens before the part is touched:
  by then only new nodes have been made, behind the fence at the size of the store, and no
  block has given way. So the older nodes are as they were, and whatever is written of them
  is the same text, since the text depends on the twig only (`write_eq`).

  Proved: a failing statement of a scan, also one that comes behind others, disturbs nothing
  of the session (`undisturbed_of_error`).
-/

import MailMerge.Proofs.Markup.Written
import MailMerge.Proofs.Merge.Nesting
import MailMerge.Proofs.Merge.Scopes

namespace MailMerge

open MailMerge.Tree Merge Outline

/-! ## Statements -/

/-- Markup that cannot be read is left in a scratch node. -/
theorem Splice.beyond_of_putMarkup_error {f : Field} {source : String} {t u : Tree} {e : Markup.MarkupError} (h : t.WellFormed)
    (hput : putMarkup f source t = (.error e, u)) : Beyond t.size t u := by
  obtain ⟨v, hv, ⟨e', he⟩ | he⟩ := putMarkup_cases h f source
  · rw [he] at hput
    cases hput
    exact hv.beyond
  · rw [he] at hput
    cases hput

/-- The operand that a fault quotes. -/
def ContextFault.operand : ContextFault → String
  | notEnumerable operand _ | notAnImage operand _ | unknownMember operand _ _ | unknownPredicate operand _ _ => operand
  | undefined _ operand => operand

namespace Operand

variable {o : Operand} {env : Environment} {fault : ContextFault}

theorem operand_of_evaluate (h : o.evaluate env = .error fault) : fault.operand = o.toString := by
  have hmembers : ∀ (members : List String) (v : Value), members.foldlM (takeMember o) v = .error fault →
      fault.operand = o.toString := by
    intro members
    induction members with
    | nil =>
      intro v h
      cases h
    | cons name members ih =>
      intro v h
      rw [List.foldlM_cons] at h
      cases hm : takeMember o v name with
      | ok w =>
        rw [hm] at h
        exact ih w h
      | error fault' =>
        rw [hm] at h
        cases h
        rw [takeMember] at hm
        split at hm <;> cases hm
        rfl
  rw [evaluate] at h
  cases hl : o.lookup env with
  | ok v =>
    rw [hl] at h
    exact hmembers o.members v h
  | error fault' =>
    rw [hl] at h
    cases h
    rw [lookup] at hl
    split at hl <;> cases hl
    rfl

theorem operand_of_evaluatePredicate {predicate : String} (h : o.evaluatePredicate predicate env = .error fault) :
    fault.operand = o.toString := by
  rw [evaluatePredicate] at h
  cases hv : o.evaluate env with
  | error fault' =>
    rw [hv] at h
    cases h
    exact operand_of_evaluate hv
  | ok v =>
    simp only [hv, bind, Except.bind] at h
    split at h <;> cases h
    rfl

theorem operand_of_evaluateItems (h : o.evaluateItems env = .error fault) : fault.operand = o.toString := by
  rw [evaluateItems] at h
  cases hv : o.evaluate env with
  | error fault' =>
    rw [hv] at h
    cases h
    exact operand_of_evaluate hv
  | ok v =>
    simp only [hv, bind, Except.bind] at h
    split at h <;> cases h
    rfl

end Operand

/-- A guard fails when it is asked for, and is told where its branch begins. -/
theorem Condition.holds_eq_error {c : Condition} {env : Environment} {e : Failure} (h : c.holds env = .error e) :
    ∃ fault, fault.operand = c.operand.toString ∧ e = Failure.context fault c.block.startField.span := by
  unfold holds at h
  split at h
  · next predicate _ =>
    cases ha : c.operand.evaluatePredicate predicate env <;> rw [ha] at h <;> cases h
    exact ⟨_, Operand.operand_of_evaluatePredicate ha, rfl⟩
  · cases ha : c.operand.evaluate env <;> rw [ha] at h <;> cases h
    exact ⟨_, Operand.operand_of_evaluate ha, rfl⟩

theorem Condition.firstHolding_eq_error {env : Environment} {cs : List Condition} {e : Failure}
    (h : firstHolding env cs = .error e) :
    ∃ c ∈ cs, ∃ fault, fault.operand = c.operand.toString ∧ e = Failure.context fault c.block.startField.span := by
  induction cs generalizing e with
  | nil => cases h
  | cons c cs ih =>
    rw [firstHolding] at h
    cases hc : c.holds env with
    | error e' =>
      rw [hc] at h
      cases h
      exact ⟨c, List.mem_cons_self, holds_eq_error hc⟩
    | ok kept =>
      rw [hc] at h
      cases kept with
      | true => cases h
      | false =>
        cases hrest : firstHolding env cs with
        | error e' =>
          rw [hrest] at h
          cases h
          obtain ⟨c', hc', hfault⟩ := ih hrest
          exact ⟨c', List.mem_cons_of_mem c hc', hfault⟩
        | ok later =>
          rw [hrest] at h
          cases h

namespace Statement

/-- Of all values only markup fails to be inserted, if it cannot be read. -/
theorem insert_eq_error {f : Field} {v : Value} {s s' : Session} {e : Failure} (h : insert f v s = (.error e, s')) :
    ∃ source fault u, v = .content (.markup source) ∧ Splice.putMarkup f source s.tree = (.error fault, u) ∧
      s' = { s with tree := u } ∧ e = (Failure.ofCause (.markup fault)).locatedAt f.span := by
  cases v with
  | boolean b => cases b <;> cases h
  | content c =>
    cases c with
    | markup source =>
      rw [insert, run_bind_ok (run_withTree _ s)] at h
      cases hput : Splice.putMarkup f source s.tree with
      | mk result u =>
        rw [hput] at h
        cases result with
        | ok _ => cases h
        | error fault =>
          cases h
          exact ⟨source, fault, u, rfl, hput, rfl, rfl⟩
    | _ => cases h
  | _ => cases h

/-- A value that is no image is refused at once. -/
theorem showPicture_eq_error {o : Operand} {b : Block} {v : Value} {s s' : Session} {e : Failure}
    (h : showPicture o b v s = (.error e, s')) :
    s' = s ∧ ∃ fault, fault.operand = o.toString ∧ e = Failure.context fault b.startField.span := by
  cases v with
  | nil => cases h
  | content c =>
    cases c with
    | image image =>
      obtain ⟨media, hrel⟩ := relationship_eq image s
      rw [showPicture, run_bind_ok hrel] at h
      cases h
    | _ => cases h; exact ⟨rfl, _, rfl, rfl⟩
  | _ => cases h; exact ⟨rfl, _, rfl, rfl⟩

theorem giveWayTo_ne_error (chosen : Nat) (content : List NodeId) (place : Nat) (bs : List Block) (s s' : Session) (e : Failure) :
    giveWayTo chosen content place bs s ≠ (.error e, s') := by
  induction bs generalizing place s with
  | nil => exact nofun
  | cons b bs ih =>
    rw [run_giveWayTo_cons]
    exact ih (place + 1) _

/-- What a statement asks for, each with the field that it asks for. -/
def questions : Statement → List (Field × Operand)
  | insertion f o => [(f, o)]
  | loop list _ b => [(b.startField, list)]
  | condition c => [(c.block.startField, c.operand)]
  | choice branches _ => branches.map fun c => (c.block.startField, c.operand)
  | picture o b => [(b.startField, o)]
  | comment _ => []

/-- The failure is that of a question in vain: it quotes the operand, and has the field's place. -/
def Asked (st : Statement) (e : Failure) : Prop :=
  ∃ q ∈ st.questions, ∃ fault : ContextFault, fault.operand = q.2.toString ∧ e = Failure.context fault q.1.span

/-- A statement that fails has asked for a value in vain, or it fails at the markup it inserts,
    or in the copies of a body. -/
theorem evaluate_error_cases {expand : NodeId → Merge Unit} {st : Statement} {s s' : Session} {e : Failure}
    (h : st.evaluate expand s = (.error e, s')) :
    (s' = s ∧ st.Asked e) ∨
      (∃ f o v, st = .insertion f o ∧ o.evaluate s.env = .ok v ∧ insert f v s = (.error e, s')) ∨
      (∃ list iterator b items, st = .loop list iterator b ∧ list.evaluateItems s.env = .ok items ∧
        iterate expand iterator b items s = (.error e, s')) ∨
      ∃ b, st.Copies expand s b s ∧ b.expandBody expand s = (.error e, s') := by
  cases st with
  | insertion f o =>
    rw [evaluate] at h
    rcases run_bind_eq_error h with hask | ⟨v, _, hask, hins⟩
    · obtain ⟨rfl, fault, hfault, rfl⟩ := askOperand_eq_error hask
      exact Or.inl ⟨rfl, _, List.mem_singleton_self _, fault, Operand.operand_of_evaluate hfault, rfl⟩
    · obtain ⟨hv, rfl⟩ := askOperand_eq_ok hask
      exact Or.inr (Or.inl ⟨f, o, v, rfl, hv, hins⟩)
  | loop list iterator b =>
    rw [evaluate] at h
    rcases run_bind_eq_error h with hask | ⟨items, _, hask, hnext⟩
    · obtain ⟨rfl, fault, hfault, rfl⟩ := askOperand_eq_error hask
      exact Or.inl ⟨rfl, _, List.mem_singleton_self _, fault, Operand.operand_of_evaluateItems hfault, rfl⟩
    · obtain ⟨hitems, rfl⟩ := askOperand_eq_ok hask
      rcases run_bind_eq_error hnext with hmade | ⟨content, made, -, hput⟩
      · exact Or.inr (Or.inr (Or.inl ⟨list, iterator, b, items, rfl, hitems, hmade⟩))
      · cases hput
  | condition c =>
    rw [evaluate] at h
    rcases run_bind_eq_error h with hask | ⟨kept, _, hask, hnext⟩
    · obtain ⟨hholds, rfl⟩ := Prod.mk.inj ((run_ask _ s).symm.trans hask)
      exact Or.inl ⟨rfl, _, List.mem_singleton_self _, Condition.holds_eq_error hholds⟩
    · obtain ⟨hholds, rfl⟩ := Prod.mk.inj ((run_ask _ s).symm.trans hask)
      cases kept with
      | false => cases hnext
      | true =>
        rw [if_pos rfl] at hnext
        rcases run_bind_eq_error hnext with hmade | ⟨content, made, -, hput⟩
        · exact Or.inr (Or.inr (Or.inr ⟨c.block, .condition hholds, hmade⟩))
        · cases hput
  | choice branches otherwise =>
    rw [evaluate] at h
    rcases run_bind_eq_error h with hask | ⟨holding, _, hask, hnext⟩
    · obtain ⟨hholding, rfl⟩ := Prod.mk.inj ((run_ask _ s).symm.trans hask)
      obtain ⟨c, hc, hfault⟩ := Condition.firstHolding_eq_error hholding
      exact Or.inl ⟨rfl, _, List.mem_map_of_mem hc, hfault⟩
    · obtain ⟨hholding, rfl⟩ := Prod.mk.inj ((run_ask _ s).symm.trans hask)
      simp only at hnext
      cases hb : (branches.map (·.block) ++ otherwise.toList)[holding.getD branches.length]? with
      | none =>
        rw [hb] at hnext
        exact absurd hnext (giveWayTo_ne_error _ _ _ _ _ _ _)
      | some b =>
        rw [hb] at hnext
        rcases run_bind_eq_error hnext with hmade | ⟨content, made, -, hput⟩
        · exact Or.inr (Or.inr (Or.inr ⟨b, .choice hholding hb, hmade⟩))
        · exact absurd hput (giveWayTo_ne_error _ _ _ _ _ _ _)
  | picture o b =>
    rw [evaluate] at h
    rcases run_bind_eq_error h with hask | ⟨v, _, hask, hnext⟩
    · obtain ⟨rfl, fault, hfault, rfl⟩ := askOperand_eq_error hask
      exact Or.inl ⟨rfl, _, List.mem_singleton_self _, fault, Operand.operand_of_evaluate hfault, rfl⟩
    · obtain ⟨-, rfl⟩ := askOperand_eq_ok hask
      rcases run_bind_eq_error hnext with hshow | ⟨_, made, -, hdrop⟩
      · obtain ⟨rfl, hfault⟩ := showPicture_eq_error hshow
        exact Or.inl ⟨rfl, _, List.mem_singleton_self _, hfault⟩
      · cases hdrop
  | comment b => cases h

/-- A failing statement gets as far as making copies. -/
theorem expanded_of_error {expand : NodeId → Merge Unit} (hexp : Expands expand) {st : Statement} {s s' : Session} {e : Failure}
    (h : s.tree.WellFormed) (hst : ∀ b ∈ st.blocks, ∀ x ∈ b.body, x ≠ root ∧ x < s.tree.size)
    (hrun : st.evaluate expand s = (.error e, s')) : Expanded s.tree.size s s' := by
  rcases evaluate_error_cases hrun with ⟨rfl, -⟩ | ⟨f, o, v, rfl, -, hins⟩ | ⟨list, iterator, b, items, rfl, -, hmade⟩ |
    ⟨b, hcopies, hmade⟩
  · exact ⟨.refl (fenced_size h), .refl _, rfl⟩
  · obtain ⟨source, fault, u, -, hput, rfl, -⟩ := insert_eq_error hins
    exact ⟨Splice.beyond_of_putMarkup_error h hput, .refl _, rfl⟩
  · obtain ⟨hed, -⟩ := iterate_spec hexp iterator items h (hst b List.mem_cons_self)
    rwa [hmade] at hed
  · obtain ⟨hed, -⟩ := expandBody_spec hexp h (hst b (mem_blocks_of_copied hcopies.mem_copied))
    rwa [hmade] at hed

end Statement

/-! ## Sessions -/

/-- Nothing of the second session is to be seen in the part, its ledger or its names: the nodes
    that were there are the same, and those that were added stand nowhere. -/
structure Session.Undisturbed (s s' : Session) : Prop where
  node : ∀ x < s.tree.size, s'.tree.node x = s.tree.node x
  grows : s.tree.size ≤ s'.tree.size
  detached : ∀ x, s.tree.size ≤ x → s'.tree.isAttached x = false
  part : s'.tree.toMarkup = s.tree.toMarkup
  subtree : ∀ x < s.tree.size, s'.tree.subtreeToMarkup x = s.tree.subtreeToMarkup x
  ledger : s'.ledger = s.ledger
  env : s.env.Later s'.env

theorem Expanded.undisturbed {s s' : Session} (hs : s.tree.WellFormed) (h : Expanded s.tree.size s s') (henv : s.env.Later s'.env) :
    s.Undisturbed s' where
  node _ hx := h.tree.same hx
  grows := h.tree.grows
  detached x hx := by
    rw [Bool.eq_false_iff]
    intro hat
    have hlt : x < s.tree.size := Fenced.lt_of_within h.tree.zone hs.rooted (h.tree.wellFormed.isAttached_iff.mp hat)
    omega
  part := h.tree.subtreeToMarkup_eq hs hs.rooted
  subtree _ hx := h.tree.subtreeToMarkup_eq hs hx
  ledger := h.ledger
  env := henv

/-- A statement of a scan that fails, be it the first or behind others that went through,
    leaves the session as it found it. -/
theorem undisturbed_of_error {r : Registry} {n : Nat} {t : Tree} (h : t.WellFormed) {id : NodeId} {ss : List Statement}
    {l : Ledger} (hbuild : ofFields r t (t.fields id) = .ok (ss, l)) {env : Environment} {done : List Statement}
    {st : Statement} (hsub : ∀ st' ∈ done, st' ∈ ss) (hst : st ∈ ss) {s s' : Session} {e : Failure}
    (hdone : Statement.evaluateAll (below r n) done ⟨t, env, l⟩ = (.ok (), s))
    (hrun : st.evaluate (below r n) s = (.error e, s')) : s.Undisturbed s' := by
  have hexp := expands_below r n
  have hown := Tree.Zone.owned_statements (fenced_zero h) (fun _ hx => hx) (Nat.zero_le id) (outlined_of_takeAll hbuild)
  have hbefore := edits_evaluateAll (s := ⟨t, env, l⟩) hexp (fenced_zero h) (fun st' hst' => hown st' (hsub st' hst'))
    fun _ _ _ _ hx => hx
  rw [hdone] at hbefore
  have hw : s.tree.WellFormed := hbefore.tree.wellFormed
  have hbody : ∀ b ∈ st.blocks, ∀ x ∈ b.body, x ≠ root ∧ x < s.tree.size := fun b hb =>
    (((hown st hst).blocks b hb).edited hbefore.tree).inStore
  have henv := Statement.restores_evaluate (restores_below r n) st s
  rw [hrun] at henv
  exact (Statement.expanded_of_error hexp hw hbody hrun).undisturbed hw henv

/-! ## A loop over a text and broken markup -/

namespace FieldsInParagraph

def repeated : Tree := fieldsInParagraph ["l:each(i)", "=i", "l:endEach"]

/-- The second of the items is no markup. -/
def items : Environment := ⟨[("l", .list [.content (.text "A"), .content (.markup "<")])], [], .lenient, .empty⟩

def loop : Statement := .loop ⟨"l", []⟩ "i" ⟨.inline, fieldAt 2 "l:each(i)", fieldAt 4 "l:endEach", 2, 4, [3]⟩

def atLoop : Session := ⟨repeated, items, ⟨[4, 2], [], [1, 1]⟩⟩

end FieldsInParagraph

open FieldsInParagraph in
/-- The loop fails at its second item, when the first has been expanded; of that only nodes
    that stand nowhere are left. -/
theorem loop_undisturbed : repeated.WellFormed ∧
    ofFields Registry.stock repeated (repeated.fields root) = .ok ([loop], atLoop.ledger) ∧
    ∃ e s', loop.evaluate (below Registry.stock 1) atLoop = (.error e, s') ∧ atLoop.tree.size < s'.tree.size ∧
      atLoop.Undisturbed s' := by
  have hw : repeated.WellFormed := wellFormed_of_earlier (by decide) (by decide) (by decide)
  have hbuild : ofFields Registry.stock repeated (repeated.fields root) = .ok ([loop], atLoop.ledger) := by cbv
  have hfail : (loop.evaluate (below Registry.stock 1) atLoop).1.isOk = false := by cbv
  cases hrun : loop.evaluate (below Registry.stock 1) atLoop with
  | mk result s' =>
    have hsize : (loop.evaluate (below Registry.stock 1) atLoop).2.tree.size = 14 := by cbv
    rw [hrun] at hfail hsize
    cases result with
    | ok _ => cases hfail
    | error e =>
      have hdone : Statement.evaluateAll (below Registry.stock 1) [] ⟨repeated, items, atLoop.ledger⟩ = (.ok (), atLoop) := rfl
      refine ⟨hw, hbuild, e, s', rfl, by rw [hsize]; decide, ?_⟩
      exact undisturbed_of_error hw hbuild (fun _ h => absurd h List.not_mem_nil) (List.mem_singleton_self loop) hdone hrun

end MailMerge
