/-
  MailMerge.Proofs.Template.Bodies — what is made of the bodies of blocks.

  A body is copied into a new node and merged there, one level deeper; what comes out is
  spare until the block gives its place to it. That the merge of a body agrees with the
  reference (`Template.Merges`) is what the levels above rely on.

  Proved: so do the copies of one body (`agrees_expandBody`), those for the items of a loop
  (`agrees_iterate`) and that of the branch that holds (`Picks.agrees`).
-/

import MailMerge.Merge.Run
import MailMerge.Proofs.Template.Pieces

namespace MailMerge

open MailMerge.Tree Merge

/-- Below `id` the template stands among the children of `p`, and no other node opens a field. -/
structure Template.Holds (T : Template) (t : Tree) (id p : NodeId) (before cs after : List NodeId) : Prop where
  wellFormed : t.WellFormed
  lt_size : p < t.size
  within : t.Within id p
  children : t.children p = before ++ cs ++ after
  twigs : cs.map t.twig = T.paragraphs
  only : ∀ d, t.Within id d → d ≠ id → t.opensField d = true → ∃ c ∈ cs, t.Within c d

/-- Wherever the template stands, merging it agrees with the reference. -/
def Template.Merges (T : Template) (n : Nat) : Prop :=
  ∀ (s : Session) (id p : NodeId) (before cs after : List NodeId) (env : Environment), T.Holds s.tree id p before cs after →
    s.env.Alike env → env.holdsContent = false →
    Agrees (fun _ ws s' => s'.tree.Within id p ∧
        s'.tree.twig p = .node (s.tree.kind p) (before.map s.tree.twig ++ ws ++ after.map s.tree.twig))
      (T.expand env) (below Registry.stock n id s)

/-- New nodes without a parent that look like `ws`. -/
structure Brought (m : Nat) (t : Tree) (content : List NodeId) (ws : List Twig) : Prop where
  fresh : Fresh m t content
  nodup : content.Nodup
  twigs : content.map t.twig = ws

theorem brought_nil (m : Nat) (t : Tree) : Brought m t [] [] := ⟨(fun _ hx => nomatch hx), .nil, rfl⟩

theorem Brought.held {m : Nat} {t : Tree} {content : List NodeId} {ws : List Twig} (h : Brought m t content ws)
    (hm : Fenced m t) {p : NodeId} (hp : p < m) : Held t p content ws := by
  refine ⟨⟨h.nodup, fun x hx => ?_⟩, h.twigs⟩
  obtain ⟨hge, hlt, hparent⟩ := h.fresh x hx
  refine ⟨?_, hlt, hparent, fun hw => Nat.not_lt_of_le (hm.within hge hw) hp⟩
  exact Nat.ne_of_gt (Nat.lt_of_lt_of_le (Nat.lt_of_le_of_lt (Nat.zero_le p) hp) hge)

theorem Brought.beyond {m n : Nat} {t u : Tree} {content : List NodeId} {ws : List Twig} (h : Brought m t content ws)
    (ht : t.WellFormed) (hu : Beyond n t u) (hn : t.size ≤ n) : Brought m u content ws := by
  refine ⟨h.fresh.beyond hu hn, h.nodup, ?_⟩
  rw [← h.twigs]
  refine List.map_congr_left fun x hx => twig_congr ht hu.wellFormed fun d hd => ?_
  have hd := Nat.lt_of_lt_of_le (Relists.lt_size_of_within (h.fresh x hx).2.1 hd) hn
  exact ⟨hu.kind_eq hd, hu.children_eq hd⟩

theorem Brought.append {m k : Nat} {t : Tree} {content more : List NodeId} {ws ws' : List Twig} (h : Brought m t content ws)
    (h' : Brought k t more ws') (hmk : m ≤ k) (hlt : ∀ x ∈ content, x < k) : Brought m t (content ++ more) (ws ++ ws') := by
  refine ⟨fun x hx => ?_, ?_, by rw [List.map_append, h.twigs, h'.twigs]⟩
  · rcases List.mem_append.mp hx with hx | hx
    · exact h.fresh x hx
    · obtain ⟨hge, hlt, hp⟩ := h'.fresh x hx
      exact ⟨Nat.le_trans hmk hge, hlt, hp⟩
  · rw [List.nodup_append']
    exact ⟨h.nodup, h'.nodup, fun x hx hx' => Nat.not_lt_of_le (h'.fresh x hx').1 (hlt x hx)⟩

theorem Environment.Alike.push {e env : Environment} (h : e.Alike env) (scope : Scope) : (e.push scope).Alike (env.push scope) :=
  ⟨h.context, congrArg (scope :: ·) h.scopes, h.policy⟩

/-! ## One body -/

section bodies

variable {n : Nat} {body : Template} (hmerges : body.Merges n) {b : Block}

include hmerges

/-- The copies of a body become what the reference says. -/
theorem agrees_expandBody {s : Session} {env : Environment} (h : s.tree.WellFormed)
    (hb : ∀ x ∈ b.body, x ≠ root ∧ x < s.tree.size) (hbody : b.body.map s.tree.twig = body.paragraphs)
    (halike : s.env.Alike env) (henv : env.holdsContent = false) :
    Agrees (fun content ws s' => Brought s.tree.size s'.tree content ws ∧ Expanded s.tree.size s s') (body.expand env)
      (b.expandBody (below Registry.stock n) s) := by
  obtain ⟨hfst, hcopy⟩ := Block.copyNodes_spec h (fun x hx => (hb x hx).1) (fun x hx => (hb x hx).2)
  have hw := hcopy.beyond.wellFormed
  have hholds : body.Holds (Block.copyNodes s.tree b.body).2 s.tree.size s.tree.size []
      ((Block.copyNodes s.tree b.body).2.children s.tree.size) [] :=
    ⟨hw, hcopy.lt_size, within_refl _ _, by simp, hcopy.twigs.trans hbody, fun d hd hne _ => by
      obtain ⟨c, hc, hcd⟩ := exists_child_of_within hd hne
      exact ⟨c, hw.mem_of_parent hc, hcd⟩⟩
  have hrun := hmerges { s with tree := (Block.copyNodes s.tree b.body).2 } _ _ _ _ _ env hholds halike henv
  obtain ⟨hexp, hfresh⟩ := expandBody_spec (expands_below Registry.stock n) h hb
  rw [Block.run_expandBody, hfst] at hexp hfresh ⊢
  have hwell := (expands_below Registry.stock n) s.tree.size { s with tree := (Block.copyNodes s.tree b.body).2 } s.tree.size
    hcopy.beyond.zone (Nat.le_refl _)
  generalize below Registry.stock n s.tree.size { s with tree := (Block.copyNodes s.tree b.body).2 } = run at hrun hexp hfresh hwell ⊢
  generalize body.expand env = ref at hrun ⊢
  cases hrun with
  | error => exact .error
  | @ok a ws s' hmerged =>
    refine .ok ⟨⟨hfresh _ rfl, hwell.tree.wellFormed.distinct _, ?_⟩, hexp⟩
    rw [(hwell.tree.wellFormed.relists_detachAll fun x hx => hx).twigs_children hwell.tree.wellFormed fun x hx => hx]
    simpa using (hwell.tree.wellFormed.twig_node.mp hmerged.2).2

/-- The copies for the items of a loop, one after the other, become what the reference says. -/
theorem agrees_iterate (iterator : String) {items : List Value} {s : Session} {env : Environment} (h : s.tree.WellFormed)
    (hb : ∀ x ∈ b.body, x ≠ root ∧ x < s.tree.size) (hbody : b.body.map s.tree.twig = body.paragraphs)
    (halike : s.env.Alike env) (henv : env.holdsContent = false)
    (hitems : ∀ item ∈ items, item.reaches (fun _ => true) = false) :
    Agrees (fun content contents s' => Brought s.tree.size s'.tree content contents.flatten ∧ Expanded s.tree.size s s')
      (items.mapM fun item => body.expand (env.push (Scope.binding iterator item)))
      (Statement.iterate (below Registry.stock n) iterator b items s) := by
  induction items generalizing s with
  | nil => exact .ok ⟨brought_nil _ _, .refl (fenced_size h), .refl _, rfl⟩
  | cons item items ih =>
    have hone : Agrees (fun content ws s' => Brought s.tree.size s'.tree content ws ∧ Expanded s.tree.size s s')
        (body.expand (env.push (Scope.binding iterator item)))
        (underScope (Scope.binding iterator item) (b.expandBody (below Registry.stock n)) s) := by
      have hmade := agrees_expandBody hmerges (s := { s with env := s.env.push (Scope.binding iterator item) }) h hb hbody
        (halike.push (Scope.binding iterator item)) (Environment.reaches_push henv (hitems item List.mem_cons_self) iterator)
      obtain ⟨hspec, -⟩ := underScope_spec (expands_below Registry.stock n) h hb (Scope.binding iterator item)
      rw [run_underScope] at hspec ⊢
      generalize b.expandBody (below Registry.stock n) _ = run at hmade hspec ⊢
      generalize body.expand (env.push (Scope.binding iterator item)) = ref at hmade ⊢
      cases hmade with
      | error => exact .error
      | ok hq => exact .ok ⟨hq.1, hspec⟩
    rw [List.mapM_cons, Statement.iterate]
    refine hone.bind fun content ws s₁ hfirst => ?_
    obtain ⟨hbrought, hexp⟩ := hfirst
    -- nothing that was there has changed, so the other copies are of the same body
    have hb₁ : ∀ x ∈ b.body, x ≠ root ∧ x < s₁.tree.size := fun x hx =>
      ⟨(hb x hx).1, Nat.lt_of_lt_of_le (hb x hx).2 hexp.tree.grows⟩
    have hbody₁ : b.body.map s₁.tree.twig = body.paragraphs :=
      ((Relists.of_beyond hexp.tree (P := fun _ => False)).twigs h fun x hx => ⟨(hb x hx).2, fun _ _ => id⟩).trans hbody
    have hmore := ih hexp.tree.wellFormed hb₁ hbody₁ (hexp.env.trans halike) fun v hv => hitems v (List.mem_cons_of_mem item hv)
    refine hmore.bind fun more contents s₂ hrest => ?_
    obtain ⟨hbrought', hexp'⟩ := hrest
    refine .ok ⟨?_, hexp.tree.trans (hexp'.tree.of_le hexp.tree.zone hexp.tree.grows), hexp'.env.trans hexp.env,
      hexp'.ledger.trans hexp.ledger⟩
    exact (hbrought.beyond hexp.tree.wellFormed hexp'.tree (Nat.le_refl _)).append hbrought' hexp.tree.grows
      fun x hx => (hbrought.fresh x hx).2.1

end bodies

/-! ## The branch that holds -/

theorem Condition.holds_eq {guard : Guard} {operand : Operand} (b : Block) {e env : Environment} (halike : e.Alike env) :
    (⟨operand, guard.predicate, b⟩ : Condition).holds e =
      (guard.holds operand env).mapError fun fault => Failure.context fault b.startField.span := by
  rw [Condition.holds, Guard.holds]
  cases guard.predicate with
  | none => rw [operand.evaluate_alike halike]
  | some predicate =>
    simp only [Operand.evaluatePredicate]
    rw [operand.evaluate_alike halike]

/-- What a conditional comes to: a failure, the body of one of its blocks, or nothing. -/
inductive Picks (t : Tree) (n : Nat) (env : Environment) (blocks : List Block) (guards : Nat) :
    Except Failure (Option Nat) → Except ContextFault (List Twig) → Prop
  | fault {e : Failure} {fault : ContextFault} : Picks t n env blocks guards (.error e) (.error fault)
  | body {holding : Option Nat} {b : Block} {body : Template} : blocks[holding.getD guards]? = some b →
      b.body.map t.twig = body.paragraphs → body.Merges n → Picks t n env blocks guards (.ok holding) (body.expand env)
  | nothing {holding : Option Nat} : blocks[holding.getD guards]? = none → Picks t n env blocks guards (.ok holding) (.ok [])

/-- The guard of the first branch is asked before those of the others. -/
theorem Picks.cons {t : Tree} {n : Nat} {e env : Environment} (halike : e.Alike env) {guard : Guard} {operand : Operand}
    {b : Block} {body : Template} (hbody : b.body.map t.twig = body.paragraphs) (hmerges : body.Merges n)
    {conditions : List Condition} {blocks : List Block} {more : Except ContextFault (List Twig)}
    (h : Picks t n env blocks conditions.length (Condition.firstHolding e conditions) more) :
    Picks t n env (b :: blocks) (conditions.length + 1)
      (Condition.firstHolding e (⟨operand, guard.predicate, b⟩ :: conditions))
      (do if ← guard.holds operand env then body.expand env else more) := by
  have hnext : ∀ holding : Option Nat, (holding.map (· + 1)).getD (conditions.length + 1) = holding.getD conditions.length + 1 :=
    fun holding => by cases holding <;> rfl
  rw [Condition.firstHolding, Condition.holds_eq b halike]
  cases guard.holds operand env with
  | error fault => exact .fault
  | ok holds =>
    cases holds with
    | true => exact Picks.body rfl hbody hmerges
    | false =>
      show Picks t n env (b :: blocks) (conditions.length + 1)
        (do let later ← Condition.firstHolding e conditions; .ok (later.map (· + 1))) more
      generalize Condition.firstHolding e conditions = picked at h
      cases h with
      | fault => exact .fault
      | body hb hbody' hmerges' => exact .body (by rw [hnext]; exact hb) hbody' hmerges'
      | nothing hb => exact .nothing (by rw [hnext]; exact hb)

/-- What was picked is expanded as the reference says. -/
theorem Picks.agrees {t : Tree} {s : Session} {n : Nat} {env : Environment} {blocks : List Block} {guards : Nat}
    {more : Except ContextFault (List Twig)} {holding : Option Nat} (h : Picks t n env blocks guards (.ok holding) more)
    (hw : s.tree.WellFormed) (hb : ∀ b ∈ blocks, (∀ x ∈ b.body, x ≠ root ∧ x < s.tree.size) ∧
      b.body.map s.tree.twig = b.body.map t.twig) (halike : s.env.Alike env) (henv : env.holdsContent = false) :
    Agrees (fun content ws s' => (blocks.length ≤ holding.getD guards → ws = []) ∧ Brought s.tree.size s'.tree content ws ∧
        Expanded s.tree.size s s') more
      ((match blocks[holding.getD guards]? with
        | some b => b.expandBody (below Registry.stock n)
        | none => pure []) s) := by
  cases h with
  | @body _ b body hpick hbody hmerges =>
    obtain ⟨hstore, hsame⟩ := hb b (List.mem_of_getElem? hpick)
    rw [hpick]
    refine (agrees_expandBody hmerges hw hstore (hsame.trans hbody) halike henv).mono fun content ws s' hq => ⟨fun hle => ?_, hq⟩
    rw [List.getElem?_eq_none hle] at hpick
    cases hpick
  | nothing hpick =>
    rw [hpick]
    exact .ok ⟨fun _ => rfl, brought_nil _ _, .refl (fenced_size hw), .refl _, rfl⟩

end MailMerge
