/-
  MailMerge.Proofs.Merge.Steps — what the steps of a merge come to, one by one.

  A step is applied to a session; the equations here say what it answers and which session
  it leaves. Proofs about merges go by them and do not look at how steps are put together.
-/

import MailMerge.Merge.Run

namespace MailMerge

namespace Merge

/-- What one step leaves to the next. -/
theorem run_bind {α β : Type} (step : Merge α) (next : α → Merge β) (s : Session) :
    (step >>= next) s = match step s with
      | (.ok a, s') => next a s'
      | (.error e, s') => (.error e, s') := by
  show ExceptT.bind step next s = _
  simp only [ExceptT.bind, ExceptT.mk, bind, StateT.bind]
  rcases step s with ⟨result, s'⟩
  cases result <;> rfl

theorem run_bind_ok {α β : Type} {step : Merge α} {s s' : Session} {a : α} (h : step s = (.ok a, s')) (next : α → Merge β) :
    (step >>= next) s = next a s' := by rw [run_bind, h]

theorem run_bind_error {α β : Type} {step : Merge α} {s s' : Session} {e : Failure} (h : step s = (.error e, s'))
    (next : α → Merge β) : (step >>= next) s = (.error e, s') := by rw [run_bind, h]

/-- Two steps go through if the first does and then the second. -/
theorem run_bind_eq_ok {α β : Type} {step : Merge α} {next : α → Merge β} {s s' : Session} {b : β}
    (h : (step >>= next) s = (.ok b, s')) : ∃ a made, step s = (.ok a, made) ∧ next a made = (.ok b, s') := by
  rw [run_bind] at h
  cases hstep : step s with
  | mk result made =>
    rw [hstep] at h
    cases result with
    | error e => cases h
    | ok a => exact ⟨a, made, rfl, h⟩

/-- They fail with the first, or with the second when the first has gone through. -/
theorem run_bind_eq_error {α β : Type} {step : Merge α} {next : α → Merge β} {s s' : Session} {e : Failure}
    (h : (step >>= next) s = (.error e, s')) :
    step s = (.error e, s') ∨ ∃ a made, step s = (.ok a, made) ∧ next a made = (.error e, s') := by
  rw [run_bind] at h
  cases hstep : step s with
  | mk result made =>
    rw [hstep] at h
    cases result with
    | error e' => cases h; exact Or.inl rfl
    | ok a => exact Or.inr ⟨a, made, rfl, h⟩

theorem run_get (s : Session) : (get : Merge Session) s = (.ok s, s) := rfl

theorem run_pure {α : Type} (a : α) (s : Session) : (pure a : Merge α) s = (.ok a, s) := rfl

theorem run_editTree (f : Tree → Tree) (s : Session) : editTree f s = (.ok (), { s with tree := f s.tree }) := rfl

theorem run_withTree {α : Type} (f : Tree → α × Tree) (s : Session) :
    withTree f s = (.ok (f s.tree).1, { s with tree := (f s.tree).2 }) := rfl

theorem run_ask {α : Type} (f : Session → Except Failure α) (s : Session) : ask f s = (f s, s) := by
  unfold ask
  rw [run_bind_ok (run_get s)]
  cases f s <;> rfl

theorem run_underScope {α : Type} (scope : Scope) (step : Merge α) (s : Session) :
    underScope scope step s = ((step { s with env := s.env.push scope }).1,
      { (step { s with env := s.env.push scope }).2 with env := (step { s with env := s.env.push scope }).2.env.pop }) := rfl

theorem underScope_eq_ok {α : Type} {scope : Scope} {step : Merge α} {s s' : Session} {a : α}
    (h : underScope scope step s = (.ok a, s')) :
    ∃ made, step { s with env := s.env.push scope } = (.ok a, made) ∧ s' = { made with env := made.env.pop } := by
  rw [run_underScope] at h
  obtain ⟨hok, rfl⟩ := Prod.mk.inj h
  exact ⟨_, Prod.ext hok rfl, rfl⟩

theorem run_underLedger {α : Type} (ledger : Ledger) (step : Merge α) (s : Session) :
    underLedger ledger step s = ((step { s with ledger }).1, { (step { s with ledger }).2 with ledger := s.ledger }) := rfl

end Merge

open Merge

theorem Block.run_giveWay (b : Block) (content : List NodeId) (s : Session) :
    b.giveWay content s = (.ok (), { s with
      tree := (b.replace content s.tree s.ledger).1, ledger := (b.replace content s.tree s.ledger).2 }) := rfl

/-- The copies are made, expanded, and taken out of their container. -/
theorem Block.run_expandBody (expand : NodeId → Merge Unit) (b : Block) (s : Session) :
    b.expandBody expand s =
      match expand (copyNodes s.tree b.body).1 { s with tree := (copyNodes s.tree b.body).2 } with
      | (.error e, s') => (.error e, s')
      | (.ok (), s') => (.ok (s'.tree.children (copyNodes s.tree b.body).1),
          { s' with tree := s'.tree.detachAll (s'.tree.children (copyNodes s.tree b.body).1) }) := by
  unfold Block.expandBody
  rw [run_bind_ok (run_withTree _ s), run_bind]
  rcases expand (copyNodes s.tree b.body).1 { s with tree := (copyNodes s.tree b.body).2 } with ⟨result, s'⟩
  cases result <;> rfl

namespace Statement

theorem run_askOperand {α : Type} (span : Span) (question : Environment → Except ContextFault α) (s : Session) :
    askOperand span question s = ((question s.env).mapError fun fault => Failure.context fault span, s) := run_ask _ s

theorem run_askOperand_ok {α : Type} {question : Environment → Except ContextFault α} {s : Session} {a : α}
    (h : question s.env = .ok a) (span : Span) : askOperand span question s = (.ok a, s) := by rw [run_askOperand, h]; rfl

theorem run_askOperand_error {α : Type} {question : Environment → Except ContextFault α} {s : Session} {e : ContextFault}
    (h : question s.env = .error e) (span : Span) :
    askOperand span question s = (.error (Failure.context e span), s) := by rw [run_askOperand, h]; rfl

theorem askOperand_eq_ok {α : Type} {span : Span} {question : Environment → Except ContextFault α} {s s' : Session} {a : α}
    (h : askOperand span question s = (.ok a, s')) : question s.env = .ok a ∧ s' = s := by
  cases hq : question s.env with
  | error fault => rw [run_askOperand_error hq] at h; cases h
  | ok a' => rw [run_askOperand_ok hq] at h; cases h; exact ⟨rfl, rfl⟩

theorem askOperand_eq_error {α : Type} {span : Span} {question : Environment → Except ContextFault α} {s s' : Session} {e : Failure}
    (h : askOperand span question s = (.error e, s')) :
    s' = s ∧ ∃ fault, question s.env = .error fault ∧ e = Failure.context fault span := by
  cases hq : question s.env with
  | error fault => rw [run_askOperand_error hq] at h; cases h; exact ⟨rfl, fault, rfl, rfl⟩
  | ok a' => rw [run_askOperand_ok hq] at h; cases h

theorem run_iterate_cons (expand : NodeId → Merge Unit) (iterator : String) (b : Block) (item : Value) (items : List Value)
    (s : Session) : iterate expand iterator b (item :: items) s =
      match underScope (Scope.binding iterator item) (b.expandBody expand) s with
      | (.error e, s') => (.error e, s')
      | (.ok content, s') =>
        match iterate expand iterator b items s' with
        | (.error e, s'') => (.error e, s'')
        | (.ok more, s'') => (.ok (content ++ more), s'') := by
  rw [iterate, run_bind]
  rcases underScope (Scope.binding iterator item) (b.expandBody expand) s with ⟨result, s'⟩
  cases result with
  | error e => rfl
  | ok content =>
    simp only
    rw [run_bind]
    rcases iterate expand iterator b items s' with ⟨result, s''⟩
    cases result <;> rfl

/-- A loop over items goes through if the first is expanded and then the others. -/
theorem iterate_cons_eq_ok {expand : NodeId → Merge Unit} {iterator : String} {b : Block} {item : Value} {items : List Value}
    {s s' : Session} {content : List NodeId} (h : iterate expand iterator b (item :: items) s = (.ok content, s')) :
    ∃ first made more, underScope (Scope.binding iterator item) (b.expandBody expand) s = (.ok first, made) ∧
      iterate expand iterator b items made = (.ok more, s') ∧ content = first ++ more := by
  rw [iterate] at h
  obtain ⟨first, made, hfirst, hnext⟩ := run_bind_eq_ok h
  obtain ⟨more, _, hmore, hdone⟩ := run_bind_eq_ok hnext
  cases hdone
  exact ⟨first, made, more, hfirst, hmore, rfl⟩

theorem run_evaluateAll_cons (expand : NodeId → Merge Unit) (st : Statement) (rest : List Statement) (s : Session) :
    evaluateAll expand (st :: rest) s =
      match st.evaluate expand s with
      | (.error e, s') => (.error e, s')
      | (.ok (), s') => evaluateAll expand rest s' := by
  rw [evaluateAll, run_bind]
  rcases st.evaluate expand s with ⟨result, s'⟩
  cases result <;> rfl

/-- Statements go through if the first does and then the others. -/
theorem evaluateAll_cons_eq_ok {expand : NodeId → Merge Unit} {st : Statement} {sts : List Statement} {s s' : Session}
    (h : evaluateAll expand (st :: sts) s = (.ok (), s')) :
    ∃ made, st.evaluate expand s = (.ok (), made) ∧ evaluateAll expand sts made = (.ok (), s') := by
  rw [evaluateAll] at h
  obtain ⟨_, made, hone, hrest⟩ := run_bind_eq_ok h
  exact ⟨made, hone, hrest⟩

theorem run_evaluateAll_append (expand : NodeId → Merge Unit) (sts rest : List Statement) (s : Session) :
    evaluateAll expand (sts ++ rest) s =
      match evaluateAll expand sts s with
      | (.error e, s') => (.error e, s')
      | (.ok (), s') => evaluateAll expand rest s' := by
  induction sts generalizing s with
  | nil => rfl
  | cons st sts ih =>
    rw [List.cons_append, run_evaluateAll_cons, run_evaluateAll_cons]
    rcases st.evaluate expand s with ⟨result, s'⟩
    cases result with
    | error e => rfl
    | ok _ => exact ih s'

/-- What each statement keeps is kept by all that is carried out. -/
theorem evaluateAll_induction {expand : NodeId → Merge Unit} {P : Session → Prop} {ss : List Statement} {s₀ last : Session}
    (hrun : evaluateAll expand ss s₀ = (.ok (), last)) (start : P s₀)
    (step : ∀ done st rest s s', ss = done ++ st :: rest → evaluateAll expand done s₀ = (.ok (), s) → P s →
      st.evaluate expand s = (.ok (), s') → P s') : P last := by
  have hrest : ∀ (sts done : List Statement) (s : Session), ss = done ++ sts → evaluateAll expand done s₀ = (.ok (), s) → P s →
      evaluateAll expand sts s = (.ok (), last) → P last := by
    intro sts
    induction sts with
    | nil =>
      rintro done s - - hs hrun
      cases hrun
      exact hs
    | cons st sts ih =>
      intro done s hsplit hdone hs hrun
      obtain ⟨s', hone, hrest⟩ := evaluateAll_cons_eq_ok hrun
      refine ih (done ++ [st]) s' (by rw [hsplit, List.append_assoc]; rfl) ?_ (step done st sts s s' hsplit hdone hs hone) hrest
      rw [run_evaluateAll_append, hdone]
      simp only
      rw [run_evaluateAll_cons, hone]
      rfl
  exact hrest ss [] s₀ rfl rfl start hrun

end Statement

/-! ## What a statement makes -/

/-- The blocks give way to nothing. -/
def Block.dropAll (bs : List Block) (s : Session) : Session := bs.foldl (fun s b => (b.giveWay [] s).2) s

namespace Statement

/-- The content that a statement makes for one of its blocks, with the blocks before and
    behind that one, and the session when the content is there. -/
inductive Makes (expand : NodeId → Merge Unit) (s : Session) :
    Statement → List Block → Block → List Block → List NodeId → Session → Prop
  | loop {list : Operand} {iterator : String} {b : Block} {items : List Value} {content : List NodeId} {made : Session} :
      list.evaluateItems s.env = .ok items → iterate expand iterator b items s = (.ok content, made) →
      Makes expand s (.loop list iterator b) [] b [] content made
  | condition {c : Condition} {content : List NodeId} {made : Session} : c.holds s.env = .ok true →
      c.block.expandBody expand s = (.ok content, made) → Makes expand s (.condition c) [] c.block [] content made
  | choice {branches : List Condition} {otherwise : Option Block} {holding : Option Nat} {before after : List Block}
      {b : Block} {content : List NodeId} {made : Session} : Condition.firstHolding s.env branches = .ok holding →
      branches.map (·.block) ++ otherwise.toList = before ++ b :: after → before.length = holding.getD branches.length →
      b.expandBody expand s = (.ok content, made) → Makes expand s (.choice branches otherwise) before b after content made

theorem Makes.blocks {expand : NodeId → Merge Unit} {s made : Session} {st : Statement} {before after : List Block}
    {b : Block} {content : List NodeId} (h : Makes expand s st before b after content made) :
    st.blocks = before ++ b :: after := by
  cases h with
  | loop => rfl
  | condition => rfl
  | choice _ hs => exact hs

theorem run_giveWayTo_cons (chosen : Nat) (content : List NodeId) (place : Nat) (b : Block) (bs : List Block) (s : Session) :
    giveWayTo chosen content place (b :: bs) s =
      giveWayTo chosen content (place + 1) bs (b.giveWay (if chosen = place then content else []) s).2 := by
  rw [giveWayTo, run_bind]
  rfl

/-- Blocks that are not the chosen one are dropped. -/
theorem run_giveWayTo_of_ne {chosen place : Nat} (content : List NodeId) {bs : List Block}
    (h : chosen < place ∨ place + bs.length ≤ chosen) (s : Session) :
    giveWayTo chosen content place bs s = (.ok (), Block.dropAll bs s) := by
  induction bs generalizing place s with
  | nil => rfl
  | cons b bs ih =>
    rw [List.length_cons] at h
    rw [run_giveWayTo_cons, if_neg (by omega), ih (by omega)]
    rfl

/-- The chosen one is given the content, and the others are dropped. -/
theorem run_giveWayTo (content : List NodeId) (before : List Block) (b : Block) (after : List Block) (place : Nat) (s : Session) :
    giveWayTo (place + before.length) content place (before ++ b :: after) s =
      (.ok (), Block.dropAll after (b.giveWay content (Block.dropAll before s)).2) := by
  induction before generalizing place s with
  | nil =>
    rw [List.nil_append, run_giveWayTo_cons, List.length_nil, Nat.add_zero, if_pos rfl,
      run_giveWayTo_of_ne content (Or.inl (Nat.lt_succ_self place))]
    rfl
  | cons c before ih =>
    have hplace : place + (c :: before).length = place + 1 + before.length := by rw [List.length_cons]; omega
    rw [List.cons_append, run_giveWayTo_cons, if_neg (by rw [List.length_cons]; omega), hplace, ih]
    rfl

/-- What a statement makes is put in the place of its block, and the other blocks are dropped. -/
theorem Makes.run_evaluate {expand : NodeId → Merge Unit} {s made : Session} {st : Statement} {before after : List Block}
    {b : Block} {content : List NodeId} (h : Makes expand s st before b after content made) :
    st.evaluate expand s = (.ok (), Block.dropAll after (b.giveWay content (Block.dropAll before made)).2) := by
  cases h with
  | loop hitems hmade =>
    rw [evaluate, run_bind_ok (run_askOperand_ok hitems _), run_bind_ok hmade]
    rfl
  | condition hholds hmade =>
    rw [evaluate, run_bind, run_ask, hholds]
    simp only [if_true]
    rw [run_bind_ok hmade]
    rfl
  | choice hholding hsplit hplace hmade =>
    rw [evaluate, run_bind, run_ask, hholding]
    simp only [hsplit, ← hplace]
    rw [List.getElem?_append_right (Nat.le_refl _), Nat.sub_self, List.getElem?_cons_zero]
    simp only
    rw [run_bind_ok hmade]
    have hrun := run_giveWayTo content before b after 0 made
    rw [Nat.zero_add] at hrun
    exact hrun

theorem evaluate_insertion_eq_ok {expand : NodeId → Merge Unit} {f : Field} {o : Operand} {s s' : Session}
    (h : (insertion f o).evaluate expand s = (.ok (), s')) : ∃ v, o.evaluate s.env = .ok v ∧ insert f v s = (.ok (), s') := by
  rw [evaluate] at h
  obtain ⟨v, _, hask, hins⟩ := run_bind_eq_ok h
  obtain ⟨hv, rfl⟩ := askOperand_eq_ok hask
  exact ⟨v, hv, hins⟩

/-- A statement that goes through makes an insertion, or it makes content for one of its
    blocks, or it drops all of them; for a picture that happens behind its images. -/
theorem evaluate_cases {expand : NodeId → Merge Unit} {st : Statement} {s s' : Session}
    (h : st.evaluate expand s = (.ok (), s')) :
    (∃ f o v, st = .insertion f o ∧ o.evaluate s.env = .ok v ∧ insert f v s = (.ok (), s')) ∨
      (∃ before b after content made, Makes expand s st before b after content made) ∨
      (∃ o b v made, st = .picture o b ∧ showPicture o b v s = (.ok (), made) ∧ s' = Block.dropAll [b] made) ∨
      s' = Block.dropAll st.blocks s := by
  cases st with
  | insertion f o =>
    obtain ⟨v, hv, h⟩ := evaluate_insertion_eq_ok h
    exact Or.inl ⟨f, o, v, rfl, hv, h⟩
  | loop list iterator b =>
    rw [evaluate] at h
    obtain ⟨items, _, hask, hnext⟩ := run_bind_eq_ok h
    obtain ⟨hitems, rfl⟩ := askOperand_eq_ok hask
    obtain ⟨content, made, hmade, -⟩ := run_bind_eq_ok hnext
    exact Or.inr (Or.inl ⟨_, _, _, _, _, .loop hitems hmade⟩)
  | condition c =>
    rw [evaluate] at h
    obtain ⟨kept, _, hask, hnext⟩ := run_bind_eq_ok h
    obtain ⟨hholds, rfl⟩ := Prod.mk.inj ((run_ask _ s).symm.trans hask)
    cases kept with
    | false =>
      cases hnext
      exact Or.inr (Or.inr (Or.inr rfl))
    | true =>
      rw [if_pos rfl] at hnext
      obtain ⟨content, made, hmade, -⟩ := run_bind_eq_ok hnext
      exact Or.inr (Or.inl ⟨_, _, _, _, _, .condition hholds hmade⟩)
  | choice branches otherwise =>
    rw [evaluate] at h
    obtain ⟨holding, _, hask, hnext⟩ := run_bind_eq_ok h
    obtain ⟨hholding, rfl⟩ := Prod.mk.inj ((run_ask _ s).symm.trans hask)
    simp only at hnext
    cases hb : (branches.map (·.block) ++ otherwise.toList)[holding.getD branches.length]? with
    | none =>
      rw [hb] at hnext
      simp only at hnext
      rw [run_bind_ok (run_pure _ s), run_giveWayTo_of_ne _ (Or.inr (by rw [Nat.zero_add]; exact List.getElem?_eq_none_iff.mp hb))] at hnext
      cases hnext
      exact Or.inr (Or.inr (Or.inr rfl))
    | some b =>
      rw [hb] at hnext
      obtain ⟨content, made, hmade, -⟩ := run_bind_eq_ok hnext
      obtain ⟨hlt, hget⟩ := List.getElem?_eq_some_iff.mp hb
      refine Or.inr (Or.inl ⟨_, b, (branches.map (·.block) ++ otherwise.toList).drop (holding.getD branches.length + 1),
        content, made, .choice hholding ?_ (List.length_take_of_le (Nat.le_of_lt hlt)) hmade⟩)
      rw [← hget, List.getElem_cons_drop, List.take_append_drop]
  | picture o b =>
    rw [evaluate] at h
    obtain ⟨v, _, hask, hnext⟩ := run_bind_eq_ok h
    obtain ⟨-, rfl⟩ := askOperand_eq_ok hask
    obtain ⟨_, made, hshow, hdrop⟩ := run_bind_eq_ok hnext
    cases hdrop
    exact Or.inr (Or.inr (Or.inl ⟨o, b, v, made, rfl, hshow, rfl⟩))
  | comment b =>
    cases h
    exact Or.inr (Or.inr (Or.inr rfl))

end Statement

theorem Merge.run_below_succ (r : Registry) (n : Nat) (id : NodeId) (s : Session) :
    below r (n + 1) id s =
      match Outline.ofFields r s.tree (s.tree.fields id) with
      | .error e => (.error e, s)
      | .ok (statements, ledger) => underLedger ledger (Statement.evaluateAll (below r n) statements) s := by
  rw [below, run_bind, run_ask]
  cases Outline.ofFields r s.tree (s.tree.fields id) <;> rfl

/-- What goes through below a node is the statements of its scan, under their own ledger. -/
theorem Merge.run_below_eq_ok {r : Registry} {n : Nat} {id : NodeId} {s last : Session} :
    below r (n + 1) id s = (.ok (), last) ↔ ∃ statements ledger last', Outline.ofFields r s.tree (s.tree.fields id) = .ok (statements, ledger) ∧
      Statement.evaluateAll (below r n) statements { s with ledger } = (.ok (), last') ∧ last = { last' with ledger := s.ledger } := by
  rw [run_below_succ]
  cases ho : Outline.ofFields r s.tree (s.tree.fields id) with
  | error e =>
    constructor
    · intro h
      cases congrArg Prod.fst h
    · rintro ⟨_, _, _, h, -⟩
      cases h
  | ok made =>
    obtain ⟨statements, ledger⟩ := made
    simp only [run_underLedger]
    constructor
    · intro h
      generalize hrun : Statement.evaluateAll (below r n) statements { s with ledger } = merged at h
      obtain ⟨result, last'⟩ := merged
      cases h
      exact ⟨statements, ledger, last', rfl, hrun, rfl⟩
    · rintro ⟨_, _, last', h, hrun, rfl⟩
      cases h
      rw [hrun]

theorem Merge.run_part (r : Registry) (s : Session) : part r s =
    (below r (levelBound (s.tree.markers Tree.root)) Tree.root >>= fun _ => editTree (·.fillEmptyCells Tree.root)) s := by
  unfold part
  exact run_bind_ok (run_get s) _

/-- A part is merged below its root, and then its table cells are repaired. -/
theorem Tree.merge_eq (t : Tree) (r : Registry) (env : Environment) : t.merge r env =
    match Merge.below r (levelBound (t.markers root)) root ⟨t, env, Ledger.empty⟩ with
    | (.ok _, last) => ⟨.ok (), last.tree.fillEmptyCells root, last.env⟩
    | (.error e, last) => ⟨.error e, last.tree, last.env⟩ := by
  have hpart := Merge.run_part r ⟨t, env, Ledger.empty⟩
  rw [Tree.merge]
  generalize part r ⟨t, env, Ledger.empty⟩ = merged at hpart ⊢
  -- how many levels there are does not matter
  generalize Merge.below r (levelBound (t.markers root)) root = step at hpart ⊢
  rw [run_bind] at hpart
  generalize step ⟨t, env, Ledger.empty⟩ = done at hpart ⊢
  obtain ⟨result, last⟩ := done
  cases result <;> (subst hpart; rfl)

/-- A merge leaves what is left in the session of its part. -/
theorem Tree.env_merge (t : Tree) (r : Registry) (env : Environment) :
    (t.merge r env).env = (Merge.part r ⟨t, env, Ledger.empty⟩).2.env := by
  rw [Tree.merge]
  generalize Merge.part r ⟨t, env, Ledger.empty⟩ = done
  obtain ⟨result, last⟩ := done
  rfl

theorem Tree.tree_merge (t : Tree) (r : Registry) (env : Environment) :
    (t.merge r env).tree = (Merge.part r ⟨t, env, Ledger.empty⟩).2.tree := by
  rw [Tree.merge]
  generalize Merge.part r ⟨t, env, Ledger.empty⟩ = done
  obtain ⟨result, last⟩ := done
  rfl

/-- A text that reads comes out as its merge does. -/
theorem Merge.text_eq {r : Registry} {xml : String} {source : Nat} {t : Tree} (hread : Tree.ofText xml source = .ok t)
    (env : Environment) : text r xml source env =
      (((t.merge r env).outcome.map fun _ => (t.merge r env).tree.toMarkup).mapError (·.withSource source), (t.merge r env).env) := by
  -- which merge it is does not matter
  obtain ⟨merge, hmerge⟩ : ∃ merge : Tree → Merged, ∀ t, t.merge r env = merge t := ⟨fun t => t.merge r env, fun _ => rfl⟩
  unfold text
  simp only [hmerge]
  rw [hread]
  simp only
  cases (merge t).outcome <;> rfl

theorem Merge.text_ok {r : Registry} {xml : String} {source : Nat} {t : Tree} (hread : Tree.ofText xml source = .ok t)
    {env : Environment} (hmerge : (t.merge r env).outcome = .ok ()) :
    text r xml source env = (.ok (t.merge r env).tree.toMarkup, (t.merge r env).env) := by
  rw [text_eq hread, hmerge]
  rfl

theorem Merge.text_error {r : Registry} {xml : String} {source : Nat} {t : Tree} (hread : Tree.ofText xml source = .ok t)
    {env : Environment} {e : Failure} (hmerge : (t.merge r env).outcome = .error e) :
    text r xml source env = (.error (e.withSource source), (t.merge r env).env) := by
  rw [text_eq hread, hmerge]
  rfl

theorem Tree.merge_eq_ok {t : Tree} {r : Registry} {env : Environment} (h : (t.merge r env).outcome = .ok ()) :
    ∃ last, Merge.below r (levelBound (t.markers root)) root ⟨t, env, Ledger.empty⟩ = (.ok (), last) ∧
      (t.merge r env).tree = last.tree.fillEmptyCells root ∧ (t.merge r env).env = last.env := by
  rw [merge_eq] at h ⊢
  generalize Merge.below r (levelBound (t.markers root)) root ⟨t, env, Ledger.empty⟩ = done at h ⊢
  obtain ⟨result, last⟩ := done
  cases result with
  | error e => cases h
  | ok _ => exact ⟨last, rfl, rfl, rfl⟩

/-- A part that cannot be merged fails below its root. -/
theorem Tree.merge_eq_error {t : Tree} {r : Registry} {env : Environment} {e : Failure} (h : (t.merge r env).outcome = .error e) :
    ∃ last, Merge.below r (levelBound (t.markers root)) root ⟨t, env, Ledger.empty⟩ = (.error e, last) := by
  rw [merge_eq] at h
  generalize Merge.below r (levelBound (t.markers root)) root ⟨t, env, Ledger.empty⟩ = done at h ⊢
  obtain ⟨result, last⟩ := done
  cases result with
  | error _ =>
    cases h
    exact ⟨last, rfl⟩
  | ok _ => cases h

/-- What the statements of a part leave, when the scan of the part is known. -/
theorem Tree.merge_of_ofFields {t : Tree} {r : Registry} {n : Nat} (hlevels : levelBound (t.markers root) = n + 1)
    {statements : List Statement} {ledger : Ledger} (hbuild : Outline.ofFields r t (t.fields root) = .ok (statements, ledger))
    (env : Environment) : t.merge r env =
      match Statement.evaluateAll (Merge.below r n) statements ⟨t, env, ledger⟩ with
      | (.ok _, last) => ⟨.ok (), last.tree.fillEmptyCells root, last.env⟩
      | (.error e, last) => ⟨.error e, last.tree, last.env⟩ := by
  rw [merge_eq, hlevels, run_below_succ]
  simp only [hbuild, run_underLedger]
  generalize Statement.evaluateAll (Merge.below r n) statements ⟨t, env, ledger⟩ = done
  obtain ⟨result, last⟩ := done
  cases result <;> rfl

end MailMerge
