/-
  MailMerge.Proofs.Merge.Released — boundaries that blocks share are released exactly.

  The ledger of a scan has a reference of a field for each block that the build resolves and
  the field bounds, and a reference of a row or paragraph for each block at the top level that
  it bounds. A block that gives way gives up one reference of each of its boundary fields, and
  of its boundary nodes if these are its own. When it does, the ledger still covers it and all
  blocks behind it (`Ledger.Covers.held`), on every level of a merge, so no reference is given
  up that is not there. No nested block refers to a boundary field of one at the top level, so
  the references of these fields are used up exactly when all statements have been carried out.

  Proved: all this for the scan of a part (`boundaries_released`).
-/

import MailMerge.Proofs.Merge.Consumed
import MailMerge.Proofs.Outline.Built

namespace MailMerge

open MailMerge.Tree Merge Outline

/-! ## Blocks that give way -/

/-- The blocks that give way while a statement is carried out, each with the session in which it does. -/
inductive Statement.GivesWay (expand : NodeId → Merge Unit) (s : Session) : Statement → Block → Session → Prop
  | loop {list : Operand} {iterator : String} {b : Block} {items : List Value} {content : List NodeId} {made : Session} :
      list.evaluateItems s.env = .ok items → iterate expand iterator b items s = (.ok content, made) →
      GivesWay expand s (.loop list iterator b) b made
  | kept {c : Condition} {content : List NodeId} {made : Session} : c.holds s.env = .ok true →
      c.block.expandBody expand s = (.ok content, made) → GivesWay expand s (.condition c) c.block made
  | dropped {c : Condition} : c.holds s.env = .ok false → GivesWay expand s (.condition c) c.block s
  | choice {branches : List Condition} {otherwise : Option Block} {holding : Option Nat} {before after : List Block}
      {b : Block} {content : List NodeId} {made : Session} : Condition.firstHolding s.env branches = .ok holding →
      branches.map (·.block) ++ otherwise.toList = before ++ b :: after →
      (match (before ++ b :: after)[holding.getD branches.length]? with
        | some chosen => chosen.expandBody expand
        | none => pure []) s = (.ok content, made) →
      GivesWay expand s (.choice branches otherwise) b (giveWayTo (holding.getD branches.length) content 0 before made).2
  | picture {o : Operand} {b : Block} {v : Value} {made : Session} : o.evaluate s.env = .ok v →
      showPicture o b v s = (.ok (), made) → GivesWay expand s (.picture o b) b made
  | comment {b : Block} : GivesWay expand s (.comment b) b s

/-- The blocks that give way while what is below a node is merged: on this level, and while the
    copies that are made on it are merged. -/
def Merge.GivesWay (r : Registry) : (levels : Nat) → NodeId → Session → Block → Session → Prop
  | 0, _, _, _, _ => False
  | n + 1, id, s, b, s₁ => ∃ done st rest l s',
      ofFields r s.tree (s.tree.fields id) = .ok (done ++ st :: rest, l) ∧
      Statement.evaluateAll (below r n) done { s with ledger := l } = (.ok (), s') ∧
      (st.GivesWay (below r n) s' b s₁ ∨ ∃ b' s'', st.Copies (below r n) s' b' s'' ∧
        GivesWay r n (Block.copyNodes s''.tree b'.body).1 (b'.copied s'') b s₁)

/-- None of the references that a block gives up, one after the other, is missing: that of its
    first boundary field and boundary node, and then those of its last ones. -/
structure Block.Held (b : Block) (l : Ledger) : Prop where
  startField : 0 < l.fieldCount b.startField
  startNode : b.hasOwnBoundaries = true → 0 < (l.releaseField b.startField).2.nodeCount b.startNode
  endField : ∀ t, 0 < (b.releaseBoundary b.startField b.startNode (t, l)).2.fieldCount b.endField
  endNode : b.hasOwnBoundaries = true → ∀ t,
    0 < ((b.releaseBoundary b.startField b.startNode (t, l)).2.releaseField b.endField).2.nodeCount b.endNode

/-- What a covered block gives up is there. -/
theorem Ledger.Covers.held {t : Tree} {l : Ledger} {b : Block} {bs : List Block} (h : l.Covers t (b :: bs)) : b.Held l := by
  have hfield : ∀ m, b.marks.count m ≤ l.fields.count m := fun m => by
    have hm := h.fields m
    rw [List.flatMap_cons, List.count_append] at hm
    omega
  have hnode : ∀ x, b.ownNodes.count x ≤ l.nodeCount x := fun x => by
    have hx := h.nodes x
    rw [List.flatMap_cons, List.count_append] at hx
    omega
  have hmarks : ∀ m, b.marks.count m = [b.startField.marker].count m + [b.endField.marker].count m := fun m => by
    show ([b.startField.marker] ++ [b.endField.marker]).count m = _
    exact List.count_append
  have hown : b.hasOwnBoundaries = true → ∀ x, b.ownNodes.count x = [b.startNode].count x + [b.endNode].count x := fun ho x => by
    rw [Block.ownNodes, if_pos ho]
    show ([b.startNode] ++ [b.endNode]).count x = _
    exact List.count_append
  refine ⟨?_, fun ho => ?_, fun u => ?_, fun ho u => ?_⟩
  · have hpos := hfield b.startField.marker
    rw [hmarks, List.count_singleton_self] at hpos
    exact Nat.lt_of_lt_of_le (by omega) hpos
  · have hpos := hnode b.startNode
    rw [hown ho, List.count_singleton_self] at hpos
    exact Nat.lt_of_lt_of_le (by omega) hpos
  · have hpos := hfield b.endField.marker
    rw [hmarks, List.count_singleton_self] at hpos
    rw [Block.releaseBoundary_eq, fieldCount, count_fields_givenUp]
    omega
  · have hpos := hnode b.endNode
    rw [hown ho, List.count_singleton_self] at hpos
    rw [Block.releaseBoundary_eq]
    show 0 < (b.givenUp b.startField b.startNode l).2.nodeCount b.endNode
    rw [count_nodes_givenUp, if_pos ho]
    omega

theorem Ledger.Covers.afterAll {t : Tree} {l : Ledger} {bs rest : List Block} (h : l.Covers t (bs ++ rest)) :
    (Block.afterAll bs l).Covers t rest := by
  induction bs generalizing l with
  | nil => exact h
  | cons b bs ih => exact ih h.after

theorem Block.afterAll_append (bs bs' : List Block) (l : Ledger) : afterAll (bs ++ bs') l = afterAll bs' (afterAll bs l) :=
  List.foldl_append

section statements

variable {expand : NodeId → Merge Unit} (hexp : Expands expand) {s s' : Session} (h : s.tree.WellFormed)

include hexp h

theorem Statement.ledger_evaluateAll {sts : List Statement} (hown : ∀ st ∈ sts, st.Owned (fun x => 0 ≤ x) s.tree)
    (hrun : evaluateAll expand sts s = (.ok (), s')) :
    s'.ledger = Block.afterAll (sts.flatMap Statement.blocks) s.ledger := by
  induction sts generalizing s with
  | nil =>
    cases hrun
    rfl
  | cons st sts ih =>
    have hst := hown st List.mem_cons_self
    have hed := (edits_evaluate hexp (fenced_zero h) hst fun _ _ hx => hx).tree
    obtain ⟨s₁, hone, hrest⟩ := evaluateAll_cons_eq_ok hrun
    rw [hone] at hed
    rw [ih hed.wellFormed (fun st' hst' => (hown st' (List.mem_cons_of_mem st hst')).edited hed) hrest,
      ledger_evaluate hexp h hst hone, List.flatMap_cons, Block.afterAll_append]

/-- A block gives way when those in front of it in its statement have given way, and no others. -/
theorem Statement.GivesWay.ledger {st : Statement} (hown : st.Owned (fun x => 0 ≤ x) s.tree) {b : Block} {s₁ : Session}
    (hg : st.GivesWay expand s b s₁) :
    ∃ before after, st.blocks = before ++ b :: after ∧ s₁.ledger = Block.afterAll before s.ledger := by
  have hto : ∀ (chosen : Nat) (content : List NodeId) (bs : List Block) (place : Nat) (s : Session),
      (giveWayTo chosen content place bs s).2.ledger = Block.afterAll bs s.ledger := by
    intro chosen content bs
    induction bs with
    | nil => exact fun _ _ => rfl
    | cons b bs ih =>
      intro place s
      rw [run_giveWayTo_cons, ih, Block.ledger_giveWay]
      rfl
  cases hg with
  | @loop list iterator _ items content _ _ hmade =>
    obtain ⟨hed, -⟩ := iterate_spec hexp iterator items h (hown.blocks b List.mem_cons_self).inStore
    rw [hmade] at hed
    exact ⟨[], [], rfl, hed.ledger⟩
  | @kept c content _ _ hmade =>
    obtain ⟨hed, -⟩ := expandBody_spec hexp h (hown.blocks c.block List.mem_cons_self).inStore
    rw [hmade] at hed
    exact ⟨[], [], rfl, hed.ledger⟩
  | dropped _ => exact ⟨[], [], rfl, rfl⟩
  | @choice branches otherwise holding before after _ content made _ hsplit hmade =>
    refine ⟨before, after, hsplit, ?_⟩
    rw [hto]
    cases hchosen : (before ++ b :: after)[holding.getD branches.length]? with
    | none =>
      rw [hchosen] at hmade
      cases hmade
      rfl
    | some chosen =>
      have hmem : chosen ∈ (Statement.choice branches otherwise).blocks := by
        show chosen ∈ branches.map (·.block) ++ otherwise.toList
        rw [hsplit]
        exact List.mem_of_getElem? hchosen
      obtain ⟨hed, -⟩ := expandBody_spec hexp h (hown.blocks chosen hmem).inStore
      rw [hchosen] at hmade
      simp only at hmade
      rw [hmade] at hed
      rw [hed.ledger]
  | @picture o _ v _ _ hshow =>
    obtain ⟨hledger, -⟩ := showPicture_spec o b v s
    rw [hshow] at hledger
    exact ⟨[], [], rfl, hledger⟩
  | comment => exact ⟨[], [], rfl, rfl⟩

end statements

/-- No reference that is given up is missing, on whichever level of the merge. -/
theorem Merge.GivesWay.held {r : Registry} {n : Nat} {id : NodeId} {s s₁ : Session} {b : Block} (h : s.tree.WellFormed)
    (hg : GivesWay r n id s b s₁) : b.Held s₁.ledger := by
  induction n generalizing id s with
  | zero => exact hg.elim
  | succ n ih =>
    obtain ⟨done, st, rest, l, s', hbuild, hdone, hg⟩ := hg
    have hexp := expands_below r n
    have hown := Tree.Zone.owned_statements (fenced_zero h) (fun _ hx => hx) (Nat.zero_le id) (outlined_of_takeAll hbuild)
    have hdown : ∀ st' ∈ done, st'.Owned (fun x => 0 ≤ x) s.tree := fun st' hst' => hown st' (List.mem_append_left _ hst')
    have hbefore := (edits_evaluateAll (s := { s with ledger := l }) hexp (fenced_zero h) hdown fun _ _ _ _ hx => hx).tree
    have hledger := Statement.ledger_evaluateAll (s := { s with ledger := l }) hexp h hdown hdone
    rw [hdone] at hbefore
    have hst : st.Owned (fun x => 0 ≤ x) s'.tree := (hown st (by simp)).edited hbefore
    rcases hg with hg | ⟨b', s'', hcopies, hg⟩
    · obtain ⟨before, after, hsplit, hafter⟩ := hg.ledger hexp hbefore.wellFormed hst
      have hcovers := covers_of_ofFields hbuild
      rw [List.flatMap_append, List.flatMap_cons, hsplit, List.append_assoc, ← List.append_assoc] at hcovers
      have hleft := hcovers.afterAll
      rw [Block.afterAll_append, ← hledger, ← hafter] at hleft
      exact hleft.held
    · obtain ⟨hw, hb⟩ := hcopies.inStore hexp hbefore.wellFormed hst
      have hfill := (Block.copyNodes_spec hw (fun x hx => (hb x hx).1) fun x hx => (hb x hx).2).2
      exact ih (s := b'.copied s'') hfill.beyond.wellFormed hg

/-! ## Boundaries that are gone -/

/-- No field is anchored at the root, if markers stand in runs. -/
theorem ne_root_of_mem_anchors {t : Tree} (h : t.WellFormed) (hroot : t.isElement root = false)
    (hchar : ∀ x, t.isNamed Word.fieldChar x = true → ∃ p, t.parent x = some p ∧ t.isNamed Word.run p = true) {f : Field}
    (hf : f ∈ t.fields root) {a : NodeId} (ha : a ∈ f.anchors) : a ≠ root := by
  have hplaced := placed_of_mem_fields hf
  obtain ⟨hmem, hof, -⟩ := mem_fields.mp hf
  rintro rfl
  rcases List.mem_cons.mp ha with hfirst | ha
  · unfold Field.ofMarker? at hof
    split at hof
    · obtain ⟨-, hmark, -⟩ := Field.simple?_eq_some hof
      exact (h.mem_descendants.mp hmem).2 (hmark.symm.trans hfirst.symm)
    · split at hof
      · next hopen =>
        obtain ⟨-, hp, -⟩ := Field.complex?_eq_some hof
        obtain ⟨p, hp', hrun⟩ := hchar f.marker (Bool.and_eq_true_iff.mp hopen).1
        rw [hp, ← hfirst] at hp'
        cases hp'
        rw [isElement_of_isNamed hrun] at hroot
        cases hroot
      · cases hof
  · obtain ⟨hp, hne, -⟩ := h.mem_laterElements (hplaced.mem_others ha)
    exact hne (hp.symm.trans h.top)

section scans

variable {r : Registry} {n : Nat} {t : Tree} (h : t.WellFormed) {ss : List Statement} {l : Ledger} {env : Environment}
  {last : Session} {b : Block} (hb : b ∈ ss.flatMap Statement.blocks) {f : Field} (hf : f = b.startField ∨ f = b.endField)

include h hb hf

/-- The references of a boundary field are used up. -/
theorem fieldCount_eq_zero_of_evaluateAll {id : NodeId} (hbuild : ofFields r t (t.fields id) = .ok (ss, l))
    (hrun : Statement.evaluateAll (below r n) ss ⟨t, env, l⟩ = (.ok (), last)) : last.ledger.fieldCount f = 0 := by
  have ho := outlined_of_takeAll hbuild
  have hown := Tree.Zone.owned_statements (fenced_zero h) (fun _ hx => hx) (Nat.zero_le id) ho
  have htop : f ∈ ss.flatMap topFields := by
    rcases hf with rfl | rfl
    · exact (ho.mem_topFields hb).1
    · exact (ho.mem_topFields hb).2
  rw [Statement.ledger_evaluateAll (s := ⟨t, env, l⟩) (expands_below r n) h hown hrun, Block.fieldCount_afterAll,
    count_of_ofFields h hbuild htop, Nat.sub_self]

/-- The anchors of a boundary field are gone from the part, with all that is above them up to a
    row or paragraph, or by themselves. -/
theorem not_attached_of_evaluateAll (hroot : t.isElement root = false)
    (hchar : ∀ x, t.isNamed Word.fieldChar x = true → ∃ p, t.parent x = some p ∧ t.isNamed Word.run p = true)
    (hbuild : ofFields r t (t.fields root) = .ok (ss, l))
    (hrun : Statement.evaluateAll (below r n) ss ⟨t, env, l⟩ = (.ok (), last)) {a : NodeId} (ha : a ∈ f.anchors) :
    last.tree.isAttached a = false := by
  have hexp := expands_below r n
  have hc : Scan.Made r ⟨t, root, ss, l⟩ := ⟨h, h.top, h.rooted, hbuild⟩
  have hP : ∀ st ∈ ss, ∀ w, st.Unwraps w → Scan.Unwraps ⟨t, root, ss, l⟩ w := fun st hst w hw => ⟨st, hst, hw⟩
  have hfield : f ∈ t.fields root := by
    obtain ⟨hstart, hstop⟩ := (outlined_of_takeAll hbuild).mem_fields_block hb
    rcases hf with rfl | rfl
    · exact hstart
    · exact hstop
  have hlt : ∀ a ∈ f.anchors, a < t.size := fun a ha =>
    (Tree.Zone.owned_field (fenced_zero h) (fun _ hx => hx) (Nat.zero_le root) hfield a ha).2.lt_size
  have hlast := ((hc.inScan env).left hexp h hP (fun _ hst => hst) hrun).1
  rw [Bool.eq_false_iff]
  intro hat
  have hwithin : last.tree.Within root a := hlast.wellFormed.isAttached_iff.mp hat
  rcases parent_none_of_anchor h hbuild hexp hP (hc.inScan env) rfl hrun hb hf hlt with hall | ⟨q, hq, hn, habove⟩
  · exact ne_root_of_mem_anchors h hroot hchar hfield ha (within_of_parent_none (hall a ha) hwithin).symm
  · have hnot : ¬ Scan.Unwraps ⟨t, root, ss, l⟩ q := fun hw => by
      obtain ⟨-, -, -, -, -, -, hsimple⟩ := hc.unwraps hw
      rcases hn with hn | hn
      · rw [not_isNamed_of_isNamed hn (by decide)] at hsimple
        cases hsimple
      · rw [not_isNamed_of_isNamed hn (by decide)] at hsimple
        cases hsimple
    have hqa := hlast.lifted.within_of_root h (hlt a ha) hwithin (habove a ha) hnot
    have hqr : q = root := by
      rcases within_total hwithin hqa with hw | hw
      · exact (within_of_parent_none hq hw).symm
      · exact within_of_parent_none hlast.wellFormed.top hw
    rw [hqr] at hn
    rw [hn.elim isElement_of_isNamed isElement_of_isNamed] at hroot
    cases hroot

end scans

theorem Block.count_ownNodes (bs : List Block) (x : NodeId) : (bs.flatMap ownNodes).count x =
    bs.countP (fun b => b.hasOwnBoundaries && b.startNode == x) + bs.countP fun b => b.hasOwnBoundaries && b.endNode == x := by
  induction bs with
  | nil => rfl
  | cons b bs ih =>
    rw [List.flatMap_cons, List.count_append, ih, List.countP_cons, List.countP_cons, ownNodes]
    cases b.hasOwnBoundaries with
    | false => simp
    | true =>
      simp only [if_true, Bool.true_and, List.count_cons, List.count_nil]
      omega

/-- In a part whose field markers stand in runs: a field has as many references as the build
    resolved blocks that it bounds, and a row or paragraph as many as there are blocks at the top
    level, with boundaries of their own, that it bounds. While the part is merged, however that
    ends, no block on any level gives up a reference that is missing. When all statements have
    been carried out the boundary fields have no reference left, and have left the part. -/
theorem boundaries_released {r : Registry} {n : Nat} {t : Tree} (h : t.WellFormed) (hroot : t.isElement root = false)
    (hchar : ∀ x, t.isNamed Word.fieldChar x = true → ∃ p, t.parent x = some p ∧ t.isNamed Word.run p = true)
    {ss : List Statement} {l : Ledger} (hbuild : ofFields r t (t.fields root) = .ok (ss, l)) (env : Environment) :
    (∃ bs, Built r t (t.fields root) ss bs) ∧
      (∀ bs, Built r t (t.fields root) ss bs → ∀ f ∈ t.fields root,
        l.fieldCount f = bs.countP fun b => b.startField = f ∨ b.endField = f) ∧
      (∀ x, l.nodeCount x = (ss.flatMap Statement.blocks).countP (fun b => b.hasOwnBoundaries && b.startNode == x) +
        (ss.flatMap Statement.blocks).countP fun b => b.hasOwnBoundaries && b.endNode == x) ∧
      (∀ b s, Merge.GivesWay r (n + 1) root ⟨t, env, Ledger.empty⟩ b s → b.Held s.ledger) ∧
      ∀ last, Statement.evaluateAll (below r n) ss ⟨t, env, l⟩ = (.ok (), last) →
        ∀ b ∈ ss.flatMap Statement.blocks, ∀ f, f = b.startField ∨ f = b.endField →
          last.ledger.fieldCount f = 0 ∧ ∀ a ∈ f.anchors, last.tree.isAttached a = false := by
  refine ⟨(outlined_of_takeAll hbuild).exists_built, fun bs hbs f hf => fieldCount_of_built h hbuild hbs hf, fun x => ?_,
    fun b s hg => hg.held h, fun last hrun b hb f hf => ⟨fieldCount_eq_zero_of_evaluateAll h hb hf hbuild hrun, fun a ha => ?_⟩⟩
  · rw [(covers_of_ofFields hbuild).nodes x, Block.count_ownNodes]
  · exact not_attached_of_evaluateAll h hb hf hroot hchar hbuild hrun ha

/-! ## Two branches -/

namespace FieldsInParagraph

/-- Two branches that have the `else` field in common, and a nested block in the first. -/
def twoBranches : Tree := fieldsInParagraph ["a:if", "b:if", "b:endIf", "a:else", "a:endIf"]

def elseField : Field := fieldAt 5 "a:else"

def firstBranch : Condition := ⟨⟨"a", []⟩, none, ⟨.inline, fieldAt 2 "a:if", elseField, 2, 5, [3, 4]⟩⟩

def lastBranch : Block := ⟨.inline, elseField, fieldAt 6 "a:endIf", 5, 6, []⟩

def choosing : Statement := .choice [firstBranch] (some lastBranch)

/-- All references of the two blocks and of the nested one. -/
def entered : Ledger := ⟨[6, 5, 5, 2, 4, 3], [], [1, 1, 1, 1]⟩

def atChoice : Session := ⟨twoBranches, ⟨[("a", .boolean false)], [], .lenient, .empty⟩, entered⟩

theorem built_twoBranches :
    ofFields Registry.stock twoBranches (twoBranches.fields root) = .ok ([choosing], entered) := by cbv

/-- The session when the copy of the last branch has been merged. -/
def branchMade : Session := (lastBranch.expandBody (below Registry.stock 1) atChoice).2

theorem firstBranch_givesWay :
    Merge.GivesWay Registry.stock 2 root { atChoice with ledger := .empty } firstBranch.block branchMade := by
  refine ⟨[], choosing, [], entered, atChoice, built_twoBranches, rfl, Or.inl ?_⟩
  have hfirst : Condition.firstHolding atChoice.env [firstBranch] = .ok none := by cbv
  have hmade : lastBranch.expandBody (below Registry.stock 1) atChoice = (.ok [], branchMade) := Prod.ext (by cbv) rfl
  have hsplit : [firstBranch].map (·.block) ++ (some lastBranch).toList = [] ++ firstBranch.block :: [lastBranch] := rfl
  exact .choice hfirst hsplit hmade

end FieldsInParagraph

open FieldsInParagraph in
/-- The `else` field has two references. The first branch gives up one of them, and when both
    have given way the field is gone. -/
theorem else_released : twoBranches.WellFormed ∧
    (∃ bs, Built Registry.stock twoBranches (twoBranches.fields root) [choosing] bs ∧
      (bs.countP fun b => b.startField = elseField ∨ b.endField = elseField) = 2) ∧
    firstBranch.block.Held branchMade.ledger ∧
    ∃ last, Statement.evaluateAll (below Registry.stock 1) [choosing] atChoice = (.ok (), last) ∧
      last.ledger.fieldCount elseField = 0 ∧ last.tree.isAttached 5 = false := by
  have hw : twoBranches.WellFormed := wellFormed_of_earlier (by decide) (by decide) (by decide)
  have hno : ∀ x < twoBranches.size, twoBranches.isNamed Word.fieldChar x = false := by decide
  have hchar : ∀ x, twoBranches.isNamed Word.fieldChar x = true →
      ∃ p, twoBranches.parent x = some p ∧ twoBranches.isNamed Word.run p = true := fun x hn => by
    rw [hno x (lt_size_of_isNamed hn)] at hn
    cases hn
  obtain ⟨⟨bs, hbs⟩, hcount, -, hheld, hgone⟩ :=
    boundaries_released (n := 1) hw (by decide) hchar built_twoBranches atChoice.env
  have hfields : twoBranches.fields root =
      [fieldAt 2 "a:if", fieldAt 3 "b:if", fieldAt 4 "b:endIf", elseField, fieldAt 6 "a:endIf"] := by cbv
  have hrun : Statement.evaluateAll (below Registry.stock 1) [choosing] atChoice =
      (.ok (), (Statement.evaluateAll (below Registry.stock 1) [choosing] atChoice).2) := Prod.ext (by cbv) rfl
  obtain ⟨hzero, haway⟩ := hgone _ hrun firstBranch.block List.mem_cons_self elseField (Or.inr rfl)
  refine ⟨hw, ⟨bs, hbs, ?_⟩, hheld _ _ firstBranch_givesWay, _, hrun, hzero, haway 5 List.mem_cons_self⟩
  rw [← hcount bs hbs elseField (by simp [hfields])]
  decide

end MailMerge
