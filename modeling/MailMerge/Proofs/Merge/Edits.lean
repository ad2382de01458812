/-
  MailMerge.Proofs.Merge.Edits — what merging may touch.

  Expanding a block works on copies, so it is an edit behind the fence at the size that the
  store had (`Expanded`); the names and scopes come back as they were. Carrying out a
  statement edits the nodes of the statement and new ones.

  Proved: every statement keeps to its nodes (`edited_evaluate`), and merging below a node
  keeps to what is below it (`expands_below`), however many levels it takes.
-/

import MailMerge.Proofs.Block.Edits
import MailMerge.Proofs.Block.Resolve
import MailMerge.Proofs.Merge.Steps
import MailMerge.Proofs.Outline.Groups

namespace MailMerge

open MailMerge.Tree Merge

/-- Only the images given out may differ. -/
structure Environment.Alike (e e' : Environment) : Prop where
  context : e.context = e'.context
  scopes : e.scopes = e'.scopes
  policy : e.policy = e'.policy

theorem Environment.Alike.refl (e : Environment) : e.Alike e := ⟨rfl, rfl, rfl⟩

theorem Environment.Alike.trans {e e' e'' : Environment} (h : e.Alike e') (h' : e'.Alike e'') : e.Alike e'' :=
  ⟨h.context.trans h'.context, h.scopes.trans h'.scopes, h.policy.trans h'.policy⟩

theorem Operand.evaluate_alike (o : Operand) {e e' : Environment} (h : e.Alike e') : o.evaluate e = o.evaluate e' := by
  have hl : e.lookup? o.root = e'.lookup? o.root := by rw [Environment.lookup?, Environment.lookup?, h.scopes, h.context]
  rw [Operand.evaluate, Operand.evaluate, Operand.lookup, Operand.lookup, hl, h.policy]

/-- No operand means markup. -/
def Environment.Plain (e : Environment) : Prop := ∀ (o : Operand) source, o.evaluate e ≠ .ok (.content (.markup source))

theorem Environment.Plain.alike {e e' : Environment} (h : e.Plain) (ha : e'.Alike e) : e'.Plain := by
  intro o source
  rw [o.evaluate_alike ha]
  exact h o source

/-- What merging below a node from `m` on does to a session. -/
structure Expanded (m : Nat) (s s' : Session) : Prop where
  tree : Beyond m s.tree s'.tree
  env : s'.env.Alike s.env
  ledger : s'.ledger = s.ledger

def Expands (expand : NodeId → Merge Unit) : Prop :=
  ∀ id s m, Fenced m s.tree → m ≤ id → Expanded m s (expand id s).2

/-! ## Bodies -/

/-- Nodes from `m` on that stand nowhere. -/
def Fresh (m : Nat) (t : Tree) (content : List NodeId) : Prop := ∀ c ∈ content, m ≤ c ∧ c < t.size ∧ t.parent c = none

theorem Fresh.beyond {m n : Nat} {t u : Tree} {content : List NodeId} (hc : Fresh m t content) (h : Beyond n t u)
    (hn : t.size ≤ n) : Fresh m u content := fun c hcm =>
  ⟨(hc c hcm).1, Nat.lt_of_lt_of_le (hc c hcm).2.1 h.grows,
    (h.parent_eq (Nat.lt_of_lt_of_le (hc c hcm).2.1 hn)).trans (hc c hcm).2.2⟩

section bodies

variable {expand : NodeId → Merge Unit} (hexp : Expands expand)

include hexp

theorem expandBody_spec {b : Block} {s : Session} (h : s.tree.WellFormed) (hb : ∀ x ∈ b.body, x ≠ root ∧ x < s.tree.size) :
    Expanded s.tree.size s (b.expandBody expand s).2 ∧
      ∀ content, (b.expandBody expand s).1 = .ok content → Fresh s.tree.size (b.expandBody expand s).2.tree content := by
  obtain ⟨hfst, hcopy⟩ := Block.copyNodes_spec h (fun x hx => (hb x hx).1) (fun x hx => (hb x hx).2)
  have hmerge := hexp (Block.copyNodes s.tree b.body).1 { s with tree := (Block.copyNodes s.tree b.body).2 } s.tree.size
    hcopy.beyond.zone (Nat.le_of_eq hfst.symm)
  rw [Block.run_expandBody]
  generalize expand (Block.copyNodes s.tree b.body).1 { s with tree := (Block.copyNodes s.tree b.body).2 } = merged at hmerge ⊢
  obtain ⟨result, s'⟩ := merged
  have htree : Beyond s.tree.size s.tree s'.tree := hcopy.beyond.trans hmerge.tree
  have hchild : ∀ x ∈ s'.tree.children (Block.copyNodes s.tree b.body).1, s.tree.size ≤ x := fun x hx =>
    htree.zone.mem_children (Nat.le_of_eq hfst.symm) hx
  cases result with
  | error e => exact ⟨⟨htree, hmerge.env, hmerge.ledger⟩, fun content hc => by cases hc⟩
  | ok _ =>
    have hcut := htree.zone.detachAll hchild
    refine ⟨⟨htree.trans hcut, hmerge.env, hmerge.ledger⟩, fun content hc => ?_⟩
    cases hc
    intro c hcm
    refine ⟨hchild c hcm, Nat.lt_of_lt_of_le (htree.wellFormed.lt_size_of_mem hcm) hcut.grows, ?_⟩
    rw [parent_detachAll, if_pos hcm]

theorem underScope_spec {b : Block} {s : Session} (h : s.tree.WellFormed) (hb : ∀ x ∈ b.body, x ≠ root ∧ x < s.tree.size)
    (scope : Scope) : Expanded s.tree.size s (underScope scope (b.expandBody expand) s).2 ∧
      ∀ content, (underScope scope (b.expandBody expand) s).1 = .ok content →
        Fresh s.tree.size (underScope scope (b.expandBody expand) s).2.tree content := by
  obtain ⟨hed, hfresh⟩ := expandBody_spec hexp (s := { s with env := s.env.push scope }) h hb
  rw [run_underScope]
  generalize b.expandBody expand { s with env := s.env.push scope } = merged at hed hfresh ⊢
  obtain ⟨result, s'⟩ := merged
  refine ⟨⟨hed.tree, ⟨hed.env.context, ?_, hed.env.policy⟩, hed.ledger⟩, hfresh⟩
  show s'.env.scopes.drop 1 = s.env.scopes
  rw [hed.env.scopes]
  rfl

theorem iterate_spec (iterator : String) {b : Block} (items : List Value) {s : Session} (h : s.tree.WellFormed)
    (hb : ∀ x ∈ b.body, x ≠ root ∧ x < s.tree.size) :
    Expanded s.tree.size s (Statement.iterate expand iterator b items s).2 ∧
      ∀ content, (Statement.iterate expand iterator b items s).1 = .ok content →
        Fresh s.tree.size (Statement.iterate expand iterator b items s).2.tree content := by
  induction items generalizing s with
  | nil =>
    refine ⟨⟨.refl (fenced_size h), .refl _, rfl⟩, fun content hc => ?_⟩
    cases hc
    intro c hcm
    cases hcm
  | cons item items ih =>
    obtain ⟨hone, hfresh⟩ := underScope_spec hexp h hb (Scope.binding iterator item)
    rw [Statement.run_iterate_cons]
    generalize underScope (Scope.binding iterator item) (b.expandBody expand) s = first at hone hfresh ⊢
    obtain ⟨result, s'⟩ := first
    cases result with
    | error e => exact ⟨hone, fun content hc => by cases hc⟩
    | ok content =>
      have hsize : s.tree.size ≤ s'.tree.size := hone.tree.grows
      obtain ⟨hmore, hfresh'⟩ := ih (s := s') hone.tree.wellFormed fun x hx =>
        ⟨(hb x hx).1, Nat.lt_of_lt_of_le (hb x hx).2 hsize⟩
      simp only
      generalize Statement.iterate expand iterator b items s' = rest at hmore hfresh' ⊢
      obtain ⟨result, s''⟩ := rest
      have hall : Expanded s.tree.size s s'' :=
        ⟨hone.tree.trans (hmore.tree.of_le hone.tree.zone hsize), hmore.env.trans hone.env, hmore.ledger.trans hone.ledger⟩
      cases result with
      | error e => exact ⟨hall, fun content hc => by cases hc⟩
      | ok more =>
        refine ⟨hall, fun both hc => ?_⟩
        cases hc
        intro c hcm
        rcases List.mem_append.mp hcm with hcm | hcm
        · exact (hfresh content rfl).beyond hmore.tree (Nat.le_refl _) c hcm
        · obtain ⟨hge, hlt, hp⟩ := hfresh' more rfl c hcm
          exact ⟨Nat.le_trans hsize hge, hlt, hp⟩

end bodies

/-! ## Blocks that give way -/

/-- Nodes that stand nowhere, in a part of the store that no link leads into. -/
structure Unplaced (D : NodeId → Prop) (t : Tree) (content : List NodeId) : Prop where
  aside : Aside D t
  mem : ∀ c ∈ content, D c ∧ c ≠ root ∧ t.parent c = none

theorem Unplaced.nil {D : NodeId → Prop} {t : Tree} (h : Aside D t) : Unplaced D t [] := ⟨h, fun _ hc => nomatch hc⟩

theorem Fresh.unplaced {m : Nat} {t : Tree} {content : List NodeId} (hc : Fresh m t content) (h : Fenced m t) (hm : 0 < m) :
    Unplaced (fun x => m ≤ x ∧ x < t.size) t content where
  aside := {
    old := fun _ hx => hx.2
    lower := fun p c hp hd => ⟨h.lower p c hp hd.1, lt_size_of_parent hp⟩
    upper := fun p c hp hd => ⟨h.upper p c hp hd.1, h.wellFormed.parent_lt_size hp⟩ }
  mem c hcm := by
    obtain ⟨hge, hlt, hp⟩ := hc c hcm
    refine ⟨⟨hge, hlt⟩, ?_, hp⟩
    rintro rfl
    exact Nat.not_lt_of_le hge hm

theorem Unplaced.insertable {D : NodeId → Prop} {t : Tree} {content : List NodeId} (hc : Unplaced D t content)
    {anchor : NodeId} (ha : ¬ D anchor) : Insertable t anchor content where
  ne_root c hcm := (hc.mem c hcm).2.1
  lt_size c hcm := hc.aside.old c (hc.mem c hcm).1
  apart y hy p hp c hcm hw := by
    rcases List.mem_cons.mp hy with rfl | hy
    · exact ha (hc.aside.lower p _ hp (hc.aside.within (hc.mem c hcm).1 hw))
    · rw [(hc.mem y hy).2.2] at hp
      cases hp

theorem Unplaced.edited {D S R : NodeId → Prop} {t u : Tree} {content : List NodeId} (hc : Unplaced D t content)
    (ht : t.WellFormed) (h : Edited (fun x => S x ∧ ¬ D x) (fun x => R x ∧ ¬ D x) t u) : Unplaced D u content where
  aside := h.aside ht hc.aside
  mem c hcm := by
    obtain ⟨hd, hne, hp⟩ := hc.mem c hcm
    exact ⟨hd, hne, (h.parent c fun hS => hS.2 hd).trans hp⟩

/-- A session after a step that edits a zone. -/
structure Merged.Edits (S R : NodeId → Prop) (s s' : Session) : Prop where
  tree : Edited S R s.tree s'.tree
  env : s'.env.Alike s.env

theorem Merged.Edits.refl {S R : NodeId → Prop} {s : Session} (h : Zone S R s.tree) : Merged.Edits S R s s :=
  ⟨.refl h, .refl _⟩

theorem Merged.Edits.trans {S R : NodeId → Prop} {s s' s'' : Session} (h : Merged.Edits S R s s')
    (h' : Merged.Edits S R s' s'') : Merged.Edits S R s s'' := ⟨h.tree.trans h'.tree, h'.env.trans h.env⟩

theorem Expanded.edits {m : Nat} {S R : NodeId → Prop} {s s' : Session} (h : Expanded m s s') (ht : Zone S R s.tree)
    (hm : ∀ x, m ≤ x → S x) : Merged.Edits S R s s' := ⟨h.tree.edited ht hm, h.env⟩

theorem edits_giveWay {S R : NodeId → Prop} {s : Session} (h : Zone S R s.tree) {b : Block} (hb : b.Owned S s.tree)
    {content : List NodeId} (hc : ∀ c ∈ content, S c) (hi : Insertable s.tree b.startNode content) :
    Merged.Edits S R s (b.giveWay content s).2 := ⟨Block.edited_replace h hb hc hi s.ledger, .refl _⟩

theorem insertable_nil (t : Tree) (anchor : NodeId) : Insertable t anchor [] where
  ne_root _ hx := nomatch hx
  lt_size _ hx := nomatch hx
  apart _ _ _ _ _ hx := nomatch hx

theorem edits_giveWay_nil {S R : NodeId → Prop} {s : Session} (h : Zone S R s.tree) {b : Block} (hb : b.Owned S s.tree) :
    Merged.Edits S R s (b.giveWay [] s).2 := by
  refine edits_giveWay h hb (fun c hc => ?_) (insertable_nil _ _)
  cases hc

/-- Blocks behind the chosen one give way to nothing. -/
theorem edits_giveWayTo_behind {S R : NodeId → Prop} {chosen : Nat} {content : List NodeId} (bs : List Block) {place : Nat}
    (hp : chosen < place) {s : Session} (h : Zone S R s.tree) (hbs : ∀ b ∈ bs, b.Owned S s.tree) :
    Merged.Edits S R s (Statement.giveWayTo chosen content place bs s).2 := by
  induction bs generalizing place s with
  | nil => exact .refl h
  | cons b bs ih =>
    rw [Statement.run_giveWayTo_cons, if_neg (Nat.ne_of_lt hp)]
    have hone := edits_giveWay_nil h (hbs b List.mem_cons_self)
    exact hone.trans (ih (Nat.lt_succ_of_lt hp) hone.tree.zone fun b' hb' =>
      (hbs b' (List.mem_cons_of_mem b hb')).edited hone.tree)

theorem edits_giveWayTo {S R D : NodeId → Prop} {chosen : Nat} {content : List NodeId} (bs : List Block) {place : Nat}
    {s : Session} (h : Zone S R s.tree) (hc : Unplaced D s.tree content) (hS : ∀ c ∈ content, S c)
    (hbs : ∀ b ∈ bs, b.Owned (fun x => S x ∧ ¬ D x) s.tree) :
    Merged.Edits S R s (Statement.giveWayTo chosen content place bs s).2 := by
  have hweak : ∀ {b : Block} {t : Tree}, b.Owned (fun x => S x ∧ ¬ D x) t → b.Owned S t := fun hb => hb.mono fun _ _ => And.left
  induction bs generalizing place s with
  | nil => exact .refl h
  | cons b bs ih =>
    have hb := hbs b List.mem_cons_self
    rw [Statement.run_giveWayTo_cons]
    by_cases hp : chosen = place
    · rw [if_pos hp]
      have hone := edits_giveWay h (hweak hb) hS (hc.insertable hb.startNode.1.2)
      refine hone.trans (edits_giveWayTo_behind bs (by omega) hone.tree.zone fun b' hb' => ?_)
      exact (hweak (hbs b' (List.mem_cons_of_mem b hb'))).edited hone.tree
    · rw [if_neg hp]
      have hone := edits_giveWay_nil (h.without hc.aside) hb
      have hone' := hone.tree.mono h (fun _ hx => hx.1) fun _ hx => hx.1
      exact Merged.Edits.trans ⟨hone', hone.env⟩ (ih hone'.zone (hc.edited h.wellFormed hone.tree) fun b' hb' =>
        (hbs b' (List.mem_cons_of_mem b hb')).edited hone.tree)

/-! ## Statements -/

/-- The nodes of a statement may be worked on. -/
structure Statement.Owned (st : Statement) (S : NodeId → Prop) (t : Tree) : Prop where
  field : ∀ f o, st = .insertion f o → f.Owned S t
  blocks : ∀ b ∈ st.blocks, b.Owned S t

theorem Statement.Owned.edited {S R : NodeId → Prop} {t u : Tree} {st : Statement} (h : st.Owned S t) (hu : Edited S R t u) :
    st.Owned S u := ⟨fun f o he => hu.owned (h.field f o he), fun b hb => (h.blocks b hb).edited hu⟩

/-- A statement that puts markup into the part. -/
def Statement.PutsMarkup (st : Statement) (env : Environment) : Prop :=
  ∃ f o source, st = .insertion f o ∧ o.evaluate env = .ok (.content (.markup source))

section statements

variable {S R : NodeId → Prop} {s : Session}

theorem edits_editTree (f : Tree → Tree) (h : Edited S R s.tree (f s.tree)) : Merged.Edits S R s (editTree f s).2 := ⟨h, .refl _⟩

theorem edits_insert (h : Zone S R s.tree) {f : Field} (hf : f.Owned S s.tree) (v : Value)
    (hv : (∃ source, v = .content (.markup source)) → ∀ x, R x → S x) : Merged.Edits S R s (Statement.insert f v s).2 := by
  have htext : ∀ text, Merged.Edits S R s (editTree (Splice.putText f text) s).2 := fun text =>
    edits_editTree _ (Splice.edited_putText h hf text)
  have hnone : Merged.Edits S R s (editTree f.remove s).2 := edits_editTree _ (edited_remove h hf)
  cases v with
  | nil => exact hnone
  | boolean b =>
    cases b with
    | false => exact hnone
    | true => exact htext _
  | content c =>
    cases c with
    | text t => exact htext t
    | image i => exact hnone
    | markup source =>
      have hed := Splice.edited_putMarkup h (hv ⟨source, rfl⟩) hf (fun a ha => (hf a ha).2.lt_size) source
      rw [Statement.insert, run_bind_ok (run_withTree _ s)]
      generalize Splice.putMarkup f source s.tree = put at hed ⊢
      obtain ⟨result, u⟩ := put
      cases result <;> exact ⟨hed, .refl _⟩
  | _ => exact htext _

theorem edited_aimPictures (h : Zone S R s.tree) {b : Block} (hb : b.Owned S s.tree) (image : Image) (rid : String) :
    Edited S R s.tree (Statement.aimPictures image rid b s.tree) := by
  have hnodes : ∀ x ∈ b.nodes.flatMap s.tree.subtree, S x := by
    intro x hx
    obtain ⟨n, hn, hxn⟩ := List.mem_flatMap.mp hx
    refine h.within ?_ (h.wellFormed.mem_subtree.mp hxn)
    simp only [Block.nodes, List.cons_append, List.mem_cons, List.mem_append] at hn
    rcases hn with rfl | hn | hn
    · exact hb.startNode.1
    · exact (hb.body n hn).1
    · split at hn
      · cases hn
      · obtain rfl := List.mem_singleton.mp hn
        exact hb.endNode.1
  unfold Statement.aimPictures
  generalize b.nodes.flatMap s.tree.subtree = ids at hnodes
  have hfold : ∀ {u : Tree}, Edited S R s.tree u → Edited S R s.tree (ids.foldl (Statement.aimAt image rid) u) := by
    induction ids with
    | nil => exact fun hu => hu
    | cons x ids ih =>
      intro u hu
      have hx := hnodes x List.mem_cons_self
      refine ih (fun y hy => hnodes y (List.mem_cons_of_mem x hy)) (hu.trans ?_)
      unfold Statement.aimAt
      split
      · exact hu.zone.setAttribute hx _ _
      · split
        · exact hu.zone.setAttribute hx _ _
        · exact .refl hu.zone
  exact hfold (.refl h)

theorem edits_showPicture (h : Zone S R s.tree) {b : Block} (hb : b.Owned S s.tree) (operand : Operand) (v : Value) :
    Merged.Edits S R s (Statement.showPicture operand b v s).2 := by
  cases v with
  | content c =>
    cases c with
    | image image =>
      rw [Statement.showPicture, run_bind]
      have hrel : ∃ rid media, Statement.relationship image s = (.ok rid, { s with env := { s.env with media } }) := by
        unfold Statement.relationship
        cases image.rid with
        | some rid => exact ⟨rid, s.env.media, rfl⟩
        | none => exact ⟨_, _, rfl⟩
      obtain ⟨rid, media, hrel⟩ := hrel
      rw [hrel]
      exact ⟨edited_aimPictures h hb image rid, ⟨rfl, rfl, rfl⟩⟩
    | _ => exact .refl h
  | _ => exact .refl h

/-- The content of a block, put in its place once it is there. -/
theorem edits_giveWay_fresh {s' : Session} (h : Zone S R s.tree) (hs : Expanded s.tree.size s s') {b : Block}
    (hb : b.Owned S s.tree) {content : List NodeId} (hc : Fresh s.tree.size s'.tree content) :
    Merged.Edits S R s (b.giveWay content s').2 := by
  have hed := hs.edits h h.fresh
  refine hed.trans (edits_giveWay hed.tree.zone (hb.edited hed.tree) (fun c hcm => h.fresh c (hc c hcm).1) ?_)
  exact (hc.unplaced hs.tree.zone h.wellFormed.rooted).insertable fun hd => Nat.not_lt_of_le hd.1 hb.startNode.2

/-- Carrying out a statement edits its own nodes and new ones. -/
theorem edits_evaluate {expand : NodeId → Merge Unit} (hexp : Expands expand) (h : Zone S R s.tree) {st : Statement}
    (hst : st.Owned S s.tree) (hv : st.PutsMarkup s.env → ∀ x, R x → S x) : Merged.Edits S R s (st.evaluate expand s).2 := by
  cases st with
  | insertion f o =>
    rw [Statement.evaluate]
    cases hval : o.evaluate s.env with
    | error e => rw [run_bind_error (Statement.run_askOperand_error hval _)]; exact .refl h
    | ok v =>
      rw [run_bind_ok (Statement.run_askOperand_ok hval _)]
      refine edits_insert h (hst.field f o rfl) v ?_
      rintro ⟨source, he⟩
      exact hv ⟨f, o, source, rfl, he ▸ hval⟩
  | loop list iterator b =>
    have hb := hst.blocks b List.mem_cons_self
    rw [Statement.evaluate]
    cases hitems : list.evaluateItems s.env with
    | error e => rw [run_bind_error (Statement.run_askOperand_error hitems _)]; exact .refl h
    | ok items =>
      obtain ⟨hed, hfresh⟩ := iterate_spec hexp iterator items h.wellFormed hb.inStore
      rw [run_bind_ok (Statement.run_askOperand_ok hitems _), run_bind]
      generalize Statement.iterate expand iterator b items s = made at hed hfresh ⊢
      obtain ⟨result, s'⟩ := made
      cases result with
      | error e => exact hed.edits h h.fresh
      | ok content => exact edits_giveWay_fresh h hed hb (hfresh content rfl)
  | condition c =>
    have hb := hst.blocks c.block List.mem_cons_self
    rw [Statement.evaluate, run_bind, run_ask]
    cases c.holds s.env with
    | error e => exact .refl h
    | ok kept =>
      cases kept with
      | false => exact edits_giveWay_nil h hb
      | true =>
        obtain ⟨hed, hfresh⟩ := expandBody_spec hexp h.wellFormed hb.inStore
        simp only [if_true]
        rw [run_bind]
        generalize c.block.expandBody expand s = made at hed hfresh ⊢
        obtain ⟨result, s'⟩ := made
        cases result with
        | error e => exact hed.edits h h.fresh
        | ok content => exact edits_giveWay_fresh h hed hb (hfresh content rfl)
  | choice branches otherwise =>
    have hblocks : ∀ b ∈ branches.map (·.block) ++ otherwise.toList, b.Owned S s.tree := hst.blocks
    rw [Statement.evaluate, run_bind, run_ask]
    cases Condition.firstHolding s.env branches with
    | error e => exact .refl h
    | ok holding =>
      simp only
      generalize branches.map (·.block) ++ otherwise.toList = bs at hblocks ⊢
      cases hb : bs[holding.getD branches.length]? with
      | none =>
        refine edits_giveWayTo (D := fun _ => False) bs h (.nil ⟨fun _ hx => hx.elim, fun _ _ _ hx => hx, fun _ _ _ hx => hx⟩)
          (fun _ hc => absurd hc List.not_mem_nil) fun b hb => (hblocks b hb).mono fun x _ hS => ⟨hS, id⟩
      | some b =>
        obtain ⟨hed, hfresh⟩ := expandBody_spec hexp h.wellFormed (hblocks b (List.mem_of_getElem? hb)).inStore
        simp only
        rw [run_bind]
        generalize b.expandBody expand s = made at hed hfresh ⊢
        obtain ⟨result, s'⟩ := made
        have hed' : Merged.Edits S R s s' := hed.edits h h.fresh
        cases result with
        | error e => exact hed'
        | ok content =>
          refine hed'.trans (edits_giveWayTo bs hed'.tree.zone ((hfresh content rfl).unplaced hed.tree.zone h.wellFormed.rooted)
            (fun c hc => h.fresh c (hfresh content rfl c hc).1) fun b' hb' => ?_)
          exact ((hblocks b' hb').mono fun x hlt hS => ⟨hS, fun hd => Nat.not_lt_of_le hd.1 hlt⟩).edited hed'.tree
  | picture operand b =>
    have hb := hst.blocks b List.mem_cons_self
    rw [Statement.evaluate]
    cases hval : operand.evaluate s.env with
    | error e => rw [run_bind_error (Statement.run_askOperand_error hval _)]; exact .refl h
    | ok v =>
      have hed := edits_showPicture h hb operand v
      rw [run_bind_ok (Statement.run_askOperand_ok hval _), run_bind]
      generalize Statement.showPicture operand b v s = shown at hed ⊢
      obtain ⟨result, s'⟩ := shown
      cases result with
      | error e => exact hed
      | ok _ => exact hed.trans (edits_giveWay_nil hed.tree.zone (hb.edited hed.tree))
  | comment b => exact edits_giveWay_nil h (hst.blocks b List.mem_cons_self)

/-- What statements put markup into the part depends on the names only. -/
theorem Statement.PutsMarkup.alike {st : Statement} {e e' : Environment} (h : st.PutsMarkup e) (ha : e.Alike e') :
    st.PutsMarkup e' := by
  obtain ⟨f, o, source, he, hval⟩ := h
  exact ⟨f, o, source, he, (o.evaluate_alike ha).symm.trans hval⟩

theorem edits_evaluateAll {expand : NodeId → Merge Unit} (hexp : Expands expand) {sts : List Statement}
    (h : Zone S R s.tree) (hsts : ∀ st ∈ sts, st.Owned S s.tree)
    (hv : ∀ st ∈ sts, st.PutsMarkup s.env → ∀ x, R x → S x) :
    Merged.Edits S R s (Statement.evaluateAll expand sts s).2 := by
  induction sts generalizing s with
  | nil => exact .refl h
  | cons st sts ih =>
    have hone := edits_evaluate hexp h (hsts st List.mem_cons_self) (hv st List.mem_cons_self)
    rw [Statement.run_evaluateAll_cons]
    generalize st.evaluate expand s = done at hone ⊢
    obtain ⟨result, s'⟩ := done
    cases result with
    | error e => exact hone
    | ok _ =>
      refine hone.trans (ih hone.tree.zone (fun st' hst' => (hsts st' (List.mem_cons_of_mem st hst')).edited hone.tree) ?_)
      exact fun st' hst' hput => hv st' (List.mem_cons_of_mem st hst') (hput.alike hone.env)

end statements

/-! ## Scans -/

section scans

variable {S R : NodeId → Prop} {t : Tree} (h : Zone S R t) (hRS : ∀ x, R x → S x)

include h hRS

theorem Tree.Zone.owned_field {id : NodeId} (hid : S id) {f : Field} (hf : f ∈ t.fields id) : f.Owned S t := by
  have hplaced := placed_of_mem_fields hf
  obtain ⟨hmem, hof, -⟩ := mem_fields.mp hf
  have hmarker : S f.marker := h.within hid (h.wellFormed.mem_descendants.mp hmem).1
  have hel := isElement_of_opensField (Field.ofMarker?_eq_some hof).2.1
  have hfirst : S f.first ∧ Hosts t f.first := by
    rcases hplaced.marked with he | hp
    · exact ⟨he ▸ hmarker, hosts_of_isElement (he ▸ hel)⟩
    · exact ⟨hRS _ (h.upper _ _ hp hmarker), h.wellFormed.parent_lt_size hp, h.wellFormed.inner _ _ hp⟩
  intro a ha
  rcases List.mem_cons.mp ha with rfl | ha
  · exact hfirst
  · obtain ⟨hpa, hpf, hela, -⟩ := h.wellFormed.mem_laterElements (hplaced.mem_others ha)
    obtain ⟨p, hp⟩ := Option.ne_none_iff_exists'.mp hpf
    exact ⟨h.lower p a (hpa.trans hp) (hRS p (h.upper p _ hp hfirst.1)), hosts_of_isElement hela⟩

theorem Tree.Zone.owned_block {start stop : Field} (hs : start.Owned S t) (he : stop.Owned S t) {b : Block}
    (hb : Block.resolve? t start stop = some b) : b.Owned S t := by
  have hanc : ∀ {f : Field} {name : String} {a : NodeId}, f.Owned S t → f.ancestor? t name = some a → S a ∧ a < t.size := by
    intro f name a hf ha
    obtain ⟨hn, hw, -, -⟩ := h.wellFormed.findAncestor?_eq_some ha
    exact ⟨h.above hRS hw (hf f.first f.first_mem_anchors).1, lt_size_of_isNamed hn⟩
  have hmem : ∀ {f : Field} {a : NodeId}, f.Owned S t → a ∈ f.anchors → S a ∧ a < t.size := fun hf ha =>
    ⟨(hf _ ha).1, (hf _ ha).2.lt_size⟩
  obtain ⟨hends, hbody, rfl, rfl⟩ := Block.resolve?_eq_some.mp hb
  have hnodes : (S b.startNode ∧ b.startNode < t.size) ∧ S b.endNode ∧ b.endNode < t.size := by
    have hbound := Block.bounded_of_ends? hends
    generalize b.kind = k, b.startNode = s, b.endNode = e at hbound ⊢
    cases hbound with
    | image =>
      constructor
      · cases ha : b.startField.ancestor? t Word.paragraph with
        | none => exact hmem hs (Field.first_mem_anchors _)
        | some a => exact hanc hs ha
      · cases ha : b.endField.ancestor? t Word.paragraph with
        | none => exact hmem he (Field.last_mem_anchors _)
        | some a => exact hanc he ha
    | row hsa hea => exact ⟨hanc hs hsa, hanc he hea⟩
    | paragraph hsa hea => exact ⟨hanc hs hsa, hanc he hea⟩
    | inline => exact ⟨hmem hs (Field.last_mem_anchors _), hmem he (Field.first_mem_anchors _)⟩
  refine ⟨hs, he, hnodes.1, hnodes.2, fun x hx => ?_⟩
  rcases hbody with hbody | ⟨-, -, hnil⟩
  · rcases (Block.between?_eq_some h.wellFormed).mp hbody with ⟨-, hnil⟩ | ⟨post, hl⟩
    · rw [hnil] at hx; cases hx
    · obtain ⟨hpx, hps, -, -⟩ := h.wellFormed.mem_laterElements (x := b.startNode) (y := x)
        (by rw [hl]; exact List.mem_append_left _ hx)
      obtain ⟨p, hp⟩ := Option.ne_none_iff_exists'.mp hps
      have hxp := hpx.trans hp
      refine ⟨h.lower p x hxp (hRS p (h.upper p _ hp hnodes.1.1)), ?_, lt_size_of_parent hxp⟩
      rintro rfl
      rw [h.wellFormed.top] at hxp
      cases hxp
  · rw [hnil] at hx; cases hx

/-- The statements of a scan in a zone may be carried out in it. -/
theorem Tree.Zone.owned_statements {id : NodeId} (hid : S id) {r : Registry} {ss : List Statement}
    (ho : Outline.Outlined r t (t.fields id) ss) : ∀ st ∈ ss, st.Owned S t := fun _ hst =>
  ⟨fun f o he => h.owned_field hRS hid ((ho.mem_fields hst).1 f o he), fun b hb =>
    h.owned_block hRS (h.owned_field hRS hid ((ho.mem_fields hst).2 b hb).1)
      (h.owned_field hRS hid ((ho.mem_fields hst).2 b hb).2) (ho.resolves hst hb)⟩

end scans

/-- Merging below a node keeps to what is below it, on any number of levels. -/
theorem expands_below (r : Registry) (n : Nat) : Expands (below r n) := by
  induction n with
  | zero => exact fun id s m h _ => ⟨.refl h, .refl _, rfl⟩
  | succ n ih =>
    intro id s m h hid
    rw [run_below_succ]
    cases ho : Outline.ofFields r s.tree (s.tree.fields id) with
    | error e => exact ⟨.refl h, .refl _, rfl⟩
    | ok made =>
      obtain ⟨statements, ledger⟩ := made
      have howned := Tree.Zone.owned_statements h (fun _ hx => hx) hid (Outline.outlined_of_takeAll ho)
      have hed := edits_evaluateAll (s := { s with ledger }) ih h howned fun _ _ _ _ hx => hx
      exact ⟨hed.tree, hed.env, rfl⟩

end MailMerge
