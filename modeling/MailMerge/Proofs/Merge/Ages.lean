/-
  MailMerge.Proofs.Merge.Ages — a merge keeps the links of any linked tree.

  A merge expands the body of a block in a container made for it. Whatever stands below the
  container is younger than the container, so what comes out of it is younger than all that
  was in the tree when the block was met, the start of the block among it (`Merge.Brings`).
  Nothing else is moved but values into their fields' places, which are older than they are,
  and nodes out of the tree. A statement keeps the nodes of its scan for as long as it is not
  carried out: numbers are never given twice, so they stay smaller than those of new nodes.
  Nothing is asked of the kinds of nodes or of what the names in the environment mean, and a
  step that fails has kept the links until then (`Merge.Ages`).

  Proved: merging below a node keeps a tree aged, however it ends (`ages_part`).
-/

import MailMerge.Proofs.Merge.Scopes
import MailMerge.Proofs.Splice.Ages

namespace MailMerge

open MailMerge.Tree Merge

variable {n m k : Nat} {t u : Tree}

/-! ## Blocks -/

namespace Block

/-- The container is the first of the new nodes. -/
theorem aged_copyNodes (h : Aged n t) (ids : List NodeId) : (copyNodes t ids).1 = t.size ∧ t.size < (copyNodes t ids).2.size ∧
    Added n t (copyNodes t ids).2 := by
  have hfold : ∀ (todo : List NodeId) (u : Tree), t.size < u.size ∧ Added n t u →
      t.size < (todo.foldl (fun u id => (u.deepCopy id).2.appendChild t.size (u.deepCopy id).1) u).size ∧
        Added n t (todo.foldl (fun u id => (u.deepCopy id).2.appendChild t.size (u.deepCopy id).1) u) := by
    intro todo
    induction todo with
    | nil => exact fun u hu => hu
    | cons c todo ih =>
      rintro u ⟨hsize, hu⟩
      have hcopy := hu.aged.deepCopy c
      have hlt : t.size < (u.deepCopy c).1 := by rw [hcopy.fst]; exact hsize
      have hput : Added n t ((u.deepCopy c).2.appendChild t.size (u.deepCopy c).1) :=
        (hu.trans hcopy.toAdded).move h.old (Nat.le_of_lt hlt) (by rw [hcopy.fst]; exact hcopy.lt_size) hlt (adds_append _ _)
      have hlt' : t.size < ((u.deepCopy c).2.appendChild t.size (u.deepCopy c).1).size := by
        rw [appendChild_eq, size_move]
        exact Nat.lt_trans hsize hcopy.lt_size
      exact ih _ ⟨hlt', hput⟩
  have hlt : t.size < (t.create (.element containerName []) .none).2.size := by rw [size_create]; exact Nat.lt_succ_self _
  exact ⟨rfl, hfold ids _ ⟨hlt, h.create _ _⟩⟩

theorem aged_releaseBoundary (h : Aged n t) (b : Block) (f : Field) (id : NodeId) (l : Ledger) :
    Grown n t (b.releaseBoundary f id (t, l)).1 := by
  have hleave : ∀ (nodeFree : Bool) (l' : Ledger), Grown n t (if nodeFree = true then (t.detach id, l')
      else if (l.releaseField f).1 = true then (f.remove t, l') else (t, l')).1 := by
    intro nodeFree l'
    split
    · exact h.detach id
    · split
      · exact h.detachAll f.anchors
      · exact .refl h
  exact hleave _ _

/-- Content that is younger than the start of a block takes the place of the block. -/
theorem aged_replace (h : Aged n t) (hnk : n ≤ k) {b : Block} (hb : b.startNode < k) {content : List NodeId}
    (hc : Fresh k t content) (l : Ledger) : Grown n t (b.replace content t l).1 := by
  have hput : Grown n t (t.insertAllAfter b.startNode content) := by
    refine h.insertAllAfter hnk (fun y hy p hp => ?_) fun x hx => ⟨(hc x hx).1, (hc x hx).2.1⟩
    rcases List.mem_cons.mp hy with rfl | hy
    · exact h.parent_lt hnk hb hp
    · cases (hc y hy).2.2.symm.trans hp
  have hcut : Grown n t (if b.kind = .image then t.insertAllAfter b.startNode content
      else (t.insertAllAfter b.startNode content).detachAll b.body) := by
    split
    · exact hput
    · exact hput.trans (hput.aged.detachAll b.body)
  have hstart := hcut.trans (aged_releaseBoundary hcut.aged b b.startField b.startNode l)
  exact hstart.trans (aged_releaseBoundary hstart.aged b b.endField b.endNode _)

theorem aged_replace_nil (h : Aged n t) (b : Block) (l : Ledger) : Grown n t (b.replace [] t l).1 := by
  have hcut : Grown n t (if b.kind = .image then t else t.detachAll b.body) := by
    split
    · exact .refl h
    · exact h.detachAll b.body
  have hstart := hcut.trans (aged_releaseBoundary hcut.aged b b.startField b.startNode l)
  exact hstart.trans (aged_releaseBoundary hstart.aged b b.endField b.endNode _)

end Block

/-- Nodes that stand nowhere are left alone. -/
theorem Fresh.grown {content : List NodeId} (hc : Fresh k t content) (h : Grown t.size t u) : Fresh k u content := fun c hcm =>
  ⟨(hc c hcm).1, Nat.lt_of_lt_of_le (hc c hcm).2.1 h.grows, h.loose c (hc c hcm).2.1 (hc c hcm).2.2⟩

/-! ## Steps -/

/-- A step keeps a tree of `m` nodes or more aged, also when it fails. -/
def Merge.Ages {α : Type} (m : Nat) (step : Merge α) : Prop :=
  ∀ (n : Nat) (s : Session), Aged n s.tree → m ≤ s.tree.size → Grown n s.tree (step s).2.tree

/-- What such a step answers are new nodes that stand nowhere. -/
structure Merge.Brings (step : Merge (List NodeId)) : Prop where
  ages : Ages 0 step
  fresh : ∀ s content, s.tree.Linked → (step s).1 = .ok content → Fresh s.tree.size (step s).2.tree content

namespace Merge.Ages

variable {α β : Type} {step : Merge α}

theorem bind {next : α → Merge β} (h : Ages m step) (hnext : ∀ a, Ages m (next a)) : Ages m (step >>= next) := by
  intro n s hs hm
  have hone := h n s hs hm
  rw [run_bind]
  generalize step s = done at hone ⊢
  obtain ⟨result, s'⟩ := done
  cases result with
  | error e => exact hone
  | ok a => exact hone.trans (hnext a n s' hone.aged (Nat.le_trans hm hone.grows))

theorem pure (a : α) : Ages m (Pure.pure a : Merge α) := fun _ _ hs _ => .refl hs

theorem throw (e : Failure) : Ages m (MonadExcept.throw e : Merge α) := fun _ _ hs _ => .refl hs

theorem ask (f : Session → Except Failure α) : Ages m (Merge.ask f) := by
  intro n s hs _
  rw [run_ask]
  exact .refl hs

theorem underScope (h : Ages m step) (scope : Scope) : Ages m (Merge.underScope scope step) := by
  intro n s hs hm
  rw [run_underScope]
  exact h n { s with env := s.env.push scope } hs hm

theorem underLedger (h : Ages m step) (ledger : Ledger) : Ages m (Merge.underLedger ledger step) := by
  intro n s hs hm
  rw [run_underLedger]
  exact h n { s with ledger } hs hm

end Merge.Ages

/-! ## Bodies -/

section bodies

variable {expand : NodeId → Merge Unit} (hexp : ∀ id, Ages 0 (expand id))

include hexp

theorem Block.brings_expandBody (b : Block) : Brings (b.expandBody expand) := by
  -- up to the copies being expanded
  have hmade : ∀ (n : Nat) (s : Session), Aged n s.tree → Grown n s.tree
      (expand (copyNodes s.tree b.body).1 { s with tree := (copyNodes s.tree b.body).2 }).2.tree := fun n s hs => by
    obtain ⟨-, -, hcopy⟩ := aged_copyNodes hs b.body
    exact (hcopy.grown hs.old).trans (hexp _ n { s with tree := (copyNodes s.tree b.body).2 } hcopy.aged (Nat.zero_le _))
  constructor
  · intro n s hs _
    have hone := hmade n s hs
    rw [run_expandBody]
    generalize expand (copyNodes s.tree b.body).1 { s with tree := (copyNodes s.tree b.body).2 } = merged at hone ⊢
    obtain ⟨result, s'⟩ := merged
    cases result with
    | error e => exact hone
    | ok _ => exact hone.trans (hone.aged.detachAll _)
  · intro s content hs hok
    have hone := hmade s.tree.size s hs.aged
    obtain ⟨hfst, -, -⟩ := aged_copyNodes hs.aged b.body
    rw [run_expandBody] at hok ⊢
    generalize expand (copyNodes s.tree b.body).1 { s with tree := (copyNodes s.tree b.body).2 } = merged at hone hok ⊢
    obtain ⟨result, s'⟩ := merged
    cases result with
    | error e => cases hok
    | ok _ =>
      cases hok
      intro c hcm
      have hp := hone.aged.linked.parent_of_mem hcm
      rw [hfst] at hp
      have hlt : s.tree.size < c := (hone.aged.up _ c hp).resolve_left (Nat.lt_irrefl _)
      refine ⟨Nat.le_of_lt hlt, Nat.lt_of_lt_of_le (lt_size_of_parent hp) (hone.aged.detachAll _).grows, ?_⟩
      rw [parent_detachAll, if_pos hcm]

namespace Statement

theorem brings_iterate (iterator : String) (b : Block) (items : List Value) : Brings (iterate expand iterator b items) := by
  have hbody := b.brings_expandBody hexp
  induction items with
  | nil =>
    refine ⟨.pure [], fun s content _ hok => ?_⟩
    cases hok
    exact fun c hcm => absurd hcm List.not_mem_nil
  | cons item items ih =>
    refine ⟨.bind (hbody.ages.underScope _) fun content => .bind ih.ages fun more => .pure (content ++ more), ?_⟩
    intro s both hs hok
    have hone := hbody.ages.underScope (Scope.binding iterator item) s.tree.size s hs.aged (Nat.zero_le _)
    have hfresh : ∀ content, (underScope (Scope.binding iterator item) (b.expandBody expand) s).1 = .ok content →
        Fresh s.tree.size (underScope (Scope.binding iterator item) (b.expandBody expand) s).2.tree content :=
      fun content hc => hbody.fresh { s with env := s.env.push (Scope.binding iterator item) } content hs hc
    rw [run_iterate_cons] at hok ⊢
    generalize underScope (Scope.binding iterator item) (b.expandBody expand) s = first at hone hfresh hok ⊢
    obtain ⟨result, s'⟩ := first
    cases result with
    | error e => cases hok
    | ok content =>
      have hmore := ih.ages s'.tree.size s' hone.aged.linked.aged (Nat.zero_le _)
      have hfresh' := ih.fresh s'
      simp only at hok ⊢
      generalize iterate expand iterator b items s' = rest at hmore hfresh' hok ⊢
      obtain ⟨result, s''⟩ := rest
      cases result with
      | error e => cases hok
      | ok more =>
        cases hok
        intro c hcm
        rcases List.mem_append.mp hcm with hcm | hcm
        · exact (hfresh content rfl).grown hmore c hcm
        · obtain ⟨hge, hlt, hp⟩ := hfresh' more hone.aged.linked rfl c hcm
          exact ⟨Nat.le_trans hone.grows hge, hlt, hp⟩

end Statement

end bodies

/-! ## Statements -/

/-- The nodes beside which something is put by a statement are among the first `m`. -/
structure Statement.Before (st : Statement) (m : Nat) : Prop where
  field : ∀ f o, st = .insertion f o → ∀ a ∈ f.anchors, a < m
  blocks : ∀ b ∈ st.blocks, b.startNode < m

namespace Statement

theorem ages_insert {f : Field} (hf : ∀ a ∈ f.anchors, a < m) (v : Value) : Ages m (insert f v) := by
  have htext : ∀ text, Ages m (editTree (Splice.putText f text)) := fun text n s hs hm =>
    Splice.aged_putText hs (fun a ha => Nat.lt_of_lt_of_le (hf a ha) hm) text
  have hnone : Ages m (editTree f.remove) := fun n s hs _ => hs.detachAll f.anchors
  cases v with
  | nil => exact hnone
  | boolean b =>
    cases b with
    | false => exact hnone
    | true => exact htext _
  | content c =>
    cases c with
    | text text => exact htext text
    | image image => exact hnone
    | markup source =>
      refine .bind (fun n s hs hm => ?_) fun result => ?_
      · exact Splice.aged_putMarkup hs (fun a ha => Nat.lt_of_lt_of_le (hf a ha) hm) source
      · cases result with
        | ok _ => exact .pure _
        | error e => exact .throw _
  | _ => exact htext _

theorem aged_aimPictures (h : Aged n t) (image : Image) (rid : String) (b : Block) : Added n t (aimPictures image rid b t) := by
  have hfold : ∀ (ids : List NodeId) (u : Tree), Added n t u → Added n t (ids.foldl (aimAt image rid) u) := by
    intro ids
    induction ids with
    | nil => exact fun u hu => hu
    | cons x ids ih =>
      intro u hu
      refine ih _ (hu.trans ?_)
      unfold aimAt
      split
      · exact hu.aged.setAttribute x _ _
      · split
        · exact hu.aged.setAttribute x _ _
        · exact .refl hu.aged
  exact hfold _ t (.refl h)

theorem ages_relationship (image : Image) : Ages m (relationship image) := by
  unfold relationship
  cases image.rid with
  | some rid => exact .pure rid
  | none => exact fun n s hs _ => .refl hs

theorem ages_showPicture (operand : Operand) (b : Block) (v : Value) : Ages m (showPicture operand b v) := by
  cases v with
  | nil => exact .pure _
  | content c =>
    cases c with
    | image image =>
      exact .bind (ages_relationship image) fun rid n s hs _ => (aged_aimPictures hs image rid b).grown hs.old
    | _ => exact .throw _
  | _ => exact .throw _

theorem ages_askOperand {α : Type} (span : Span) (question : Environment → Except ContextFault α) :
    Ages m (askOperand span question) := .ask _

theorem ages_giveWay_nil (b : Block) : Ages m (b.giveWay []) := fun _ s hs _ => Block.aged_replace_nil hs b s.ledger

theorem ages_dropAll (bs : List Block) (hs : Aged n t) {s : Session} (ht : s.tree = t) : Grown n t (Block.dropAll bs s).tree := by
  subst ht
  induction bs generalizing s with
  | nil => exact .refl hs
  | cons b bs ih =>
    have hone := ages_giveWay_nil (m := 0) b n s hs (Nat.zero_le _)
    exact hone.trans (ih hone.aged)

/-- What a block brings is put in its place, and the blocks beside it are dropped. -/
theorem ages_makes {step : Merge (List NodeId)} (hstep : Brings step) {before after : List Block} {b : Block}
    (hb : b.startNode < m) {s made : Session} {content : List NodeId} (hrun : step s = (.ok content, made)) (hs : Aged n s.tree)
    (hm : m ≤ s.tree.size) :
    Grown n s.tree (Block.dropAll after (b.giveWay content (Block.dropAll before made)).2).tree := by
  have hmade := hstep.ages n s hs (Nat.zero_le _)
  have hfresh := hstep.fresh s content hs.linked (by rw [hrun])
  rw [hrun] at hmade hfresh
  have hbefore := ages_dropAll before hmade.aged rfl
  have hfresh' := hfresh.grown (ages_dropAll before hmade.aged.linked.aged rfl)
  have hplace := hbefore.trans (Block.aged_replace hbefore.aged hs.old (Nat.lt_of_lt_of_le hb hm) hfresh'
    (Block.dropAll before made).ledger)
  exact hmade.trans (hplace.trans (ages_dropAll after hplace.aged rfl))

section expansions

variable {expand : NodeId → Merge Unit} (hexp : ∀ id, Ages 0 (expand id))

include hexp

theorem ages_evaluate {st : Statement} (hst : st.Before m) : Ages m (st.evaluate expand) := by
  -- one block among others gives way to what a step brings
  have hone : ∀ {step : Merge (List NodeId)} {next : List NodeId → Merge Unit} (before : List Block) {b : Block} (after : List Block),
      Brings step → b.startNode < m → (∀ content made, next content made =
        (.ok (), Block.dropAll after (b.giveWay content (Block.dropAll before made)).2)) → Ages m (step >>= next) := by
    intro step next before b after hstep hb hnext n s hs hm
    have hmade := hstep.ages n s hs (Nat.zero_le _)
    rw [run_bind]
    cases hrun : step s with
    | mk result made =>
      rw [hrun] at hmade
      cases result with
      | error e => exact hmade
      | ok content =>
        simp only [hnext]
        exact ages_makes hstep hb hrun hs hm
  cases st with
  | insertion f o => exact .bind (ages_askOperand _ _) fun v => ages_insert (hst.field f o rfl) v
  | loop list iterator b =>
    exact .bind (ages_askOperand _ _) fun items => hone [] [] (brings_iterate hexp iterator b items)
      (hst.blocks b List.mem_cons_self) fun _ _ => rfl
  | condition c =>
    refine .bind (.ask _) fun kept => ?_
    cases kept with
    | true => exact hone [] [] (c.block.brings_expandBody hexp) (hst.blocks c.block List.mem_cons_self) fun _ _ => rfl
    | false => exact ages_giveWay_nil c.block
  | choice branches otherwise =>
    refine .bind (.ask _) fun holding => ?_
    have hblocks : ∀ b ∈ branches.map (·.block) ++ otherwise.toList, b.startNode < m := hst.blocks
    simp only
    generalize branches.map (·.block) ++ otherwise.toList = bs at hblocks ⊢
    generalize holding.getD branches.length = chosen
    cases hb : bs[chosen]? with
    | none =>
      refine .bind (.pure []) fun content n s hs _ => ?_
      rw [run_giveWayTo_of_ne content (Or.inr (by rw [Nat.zero_add]; exact List.getElem?_eq_none_iff.mp hb))]
      exact ages_dropAll bs hs rfl
    | some b =>
      obtain ⟨hlt, hget⟩ := List.getElem?_eq_some_iff.mp hb
      refine hone (bs.take chosen) (bs.drop (chosen + 1)) (b.brings_expandBody hexp)
        (hblocks b (List.mem_of_getElem? hb)) fun content made => ?_
      have hrun := run_giveWayTo content (bs.take chosen) b (bs.drop (chosen + 1)) 0 made
      rwa [← hget, List.getElem_cons_drop, List.take_append_drop, Nat.zero_add, List.length_take_of_le (Nat.le_of_lt hlt),
        hget] at hrun
  | picture o b =>
    exact .bind (ages_askOperand _ _) fun v => .bind (ages_showPicture o b v) fun _ => ages_giveWay_nil b
  | comment b => exact ages_giveWay_nil b

theorem ages_evaluateAll {sts : List Statement} (hsts : ∀ st ∈ sts, st.Before m) : Ages m (evaluateAll expand sts) := by
  induction sts with
  | nil => exact .pure ()
  | cons st sts ih =>
    exact .bind (ages_evaluate hexp (hsts st List.mem_cons_self)) fun _ => ih fun st' hst' => hsts st' (List.mem_cons_of_mem st hst')

end expansions

end Statement

/-! ## Scans -/

theorem Field.Placed.inStore (h : t.Linked) {f : Field} (hf : f.Placed t) (hm : f.marker < t.size) : f.InStore t := by
  have hfirst : f.first < t.size := by
    rcases hf.marked with he | hp
    · exact he ▸ hm
    · exact h.parent_lt_size hp
  intro a ha
  rcases List.mem_cons.mp ha with rfl | ha
  · exact hfirst
  · have hlater := hf.mem_others ha
    unfold Tree.laterElements at hlater
    split at hlater
    · cases hlater
    · exact lt_size_of_isElement (List.mem_filter.mp hlater).2

theorem Tree.Linked.field_inStore (h : t.Linked) {id : NodeId} {f : Field} (hf : f ∈ t.fields id) : f.InStore t :=
  (placed_of_mem_fields hf).inStore h (lt_size_of_isElement (isElement_of_opensField (Field.ofMarker?_eq_some (mem_fields.mp hf).2.1).2.1))

theorem Tree.Linked.block_inStore {start stop : Field} (hs : start.InStore t) {b : Block}
    (hb : Block.resolve? t start stop = some b) : b.startNode < t.size := by
  have hanc : ∀ {name : String} {a : NodeId}, start.ancestor? t name = some a → a < t.size := fun ha =>
    lt_size_of_isNamed (within_of_findAncestor? ha).1
  obtain ⟨hends, -, rfl, rfl⟩ := Block.resolve?_eq_some.mp hb
  have hbound := Block.bounded_of_ends? hends
  generalize b.kind = k, b.startNode = s, b.endNode = e at hbound ⊢
  cases hbound with
  | image =>
    cases ha : b.startField.ancestor? t Word.paragraph with
    | none => exact hs _ b.startField.first_mem_anchors
    | some a => exact hanc ha
  | row hsa _ => exact hanc hsa
  | paragraph hsa _ => exact hanc hsa
  | inline => exact hs _ b.startField.last_mem_anchors

/-- What is scanned is in the store. -/
theorem Tree.Linked.before_statements (h : t.Linked) {id : NodeId} {r : Registry} {sts : List Statement}
    (ho : Outline.Outlined r t (t.fields id) sts) : ∀ st ∈ sts, st.Before t.size := fun _ hst =>
  ⟨fun f o he => h.field_inStore ((ho.mem_fields hst).1 f o he), fun b hb =>
    Tree.Linked.block_inStore (h.field_inStore ((ho.mem_fields hst).2 b hb).1) (ho.resolves hst hb)⟩

/-! ## Merges -/

/-- However many levels it takes, and on whichever of them it fails. -/
theorem Merge.ages_below (r : Registry) (levels : Nat) (id : NodeId) : Ages 0 (below r levels id) := by
  induction levels generalizing id with
  | zero => exact .throw _
  | succ levels ih =>
    intro n s hs _
    rw [run_below_succ]
    cases ho : Outline.ofFields r s.tree (s.tree.fields id) with
    | error e => exact .refl hs
    | ok made =>
      obtain ⟨statements, ledger⟩ := made
      have hbefore := hs.linked.before_statements (Outline.outlined_of_takeAll ho)
      exact (Statement.ages_evaluateAll ih hbefore).underLedger ledger n s hs (Nat.le_refl _)

theorem Merge.ages_part (r : Registry) : Ages 0 (part r) := by
  intro n s hs hm
  rw [run_part]
  exact Ages.bind (ages_below r _ Tree.root) (fun _ _ s' hs' _ => (hs'.fillEmptyCells Tree.root).grown hs'.old) n s hs hm

end MailMerge
