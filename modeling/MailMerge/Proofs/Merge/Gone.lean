/-
  MailMerge.Proofs.Merge.Gone — what has left the part when all statements are carried out.

  Each block gives up its boundaries when it gives way, and the last block that refers to a
  boundary takes it along. No nested block refers to a boundary field of a block at the top
  level, so in the end all of these have left: a field by itself, or with the row or
  paragraph around it. Rows and paragraphs that are boundaries leave unless they are pinned.
  What has left does not come back.

  Proved: these are the nodes without a parent in the end (`parent_none_of_anchor`,
  `parent_none_of_ownNode`, `parent_none_of_body`).
-/

import MailMerge.Proofs.Merge.Lifted

namespace MailMerge

open MailMerge.Tree Merge Outline

namespace Block

/-- The ledger when the blocks have given way. -/
def afterAll (bs : List Block) (l : Ledger) : Ledger := bs.foldl (fun l b => b.after l) l

/-- A field leaves with its last reference, by itself or with the boundary that it stands in. -/
theorem mem_leaving_of_released {b : Block} {l : Ledger} (hne : b.startField.marker ≠ b.endField.marker) {f : Field}
    (hf : f = b.startField ∨ f = b.endField) (hcount : (b.after l).fieldCount f = 0) :
    (∀ a ∈ f.anchors, a ∈ b.leaving l) ∨ ∃ q ∈ b.ownNodes, q ∈ b.leaving l ∧
      (f = b.startField ∧ q = b.startNode ∨ f = b.endField ∧ q = b.endNode) := by
  have hgiven : ∀ {f : Field} {id : NodeId} {l : Ledger}, (b.givenUp f id l).2.fields.count f.marker = 0 →
      (∀ a ∈ f.anchors, a ∈ (b.givenUp f id l).1) ∨ b.hasOwnBoundaries = true ∧ id ∈ (b.givenUp f id l).1 := by
    intro f id l hc
    have hfree : (l.releaseField f).1 = true := by
      have hzero : (l.fields.erase f.marker).count f.marker = 0 := by
        unfold givenUp at hc
        split at hc <;> exact hc
      exact beq_iff_eq.mpr hzero
    unfold givenUp
    by_cases ho : b.hasOwnBoundaries = true
    · simp only [ho, if_true, hfree]
      split
      · exact Or.inr ⟨trivial, List.mem_singleton_self id⟩
      · exact Or.inl fun _ ha => ha
    · rw [Bool.not_eq_true] at ho
      simp only [ho, Bool.false_eq_true, if_false, hfree, if_true]
      exact Or.inl fun _ ha => ha
  have hown : b.hasOwnBoundaries = true → b.startNode ∈ b.ownNodes ∧ b.endNode ∈ b.ownNodes := fun ho => by
    simp [ownNodes, ho]
  unfold leaving
  simp only [List.mem_append]
  rcases hf with rfl | rfl
  · have hstart : (b.givenUp b.startField b.startNode l).2.fields.count b.startField.marker = 0 := by
      rw [Ledger.fieldCount, after, Ledger.count_fields_givenUp, List.count_singleton, if_neg (by simpa using Ne.symm hne)] at hcount
      exact hcount
    rcases hgiven hstart with hall | ⟨ho, hid⟩
    · exact Or.inl fun a ha => Or.inr (Or.inl (hall a ha))
    · exact Or.inr ⟨_, (hown ho).1, Or.inr (Or.inl hid), Or.inl ⟨rfl, rfl⟩⟩
  · rcases hgiven hcount with hall | ⟨ho, hid⟩
    · exact Or.inl fun a ha => Or.inr (Or.inr (hall a ha))
    · exact Or.inr ⟨_, (hown ho).2, Or.inr (Or.inr hid), Or.inr ⟨rfl, rfl⟩⟩

/-- All references of a field are given up one after the other, and with the last it leaves. -/
theorem mem_leavingAll_of_released {bs : List Block} (hne : ∀ b ∈ bs, b.startField.marker ≠ b.endField.marker) {f : Field}
    (heq : ∀ b ∈ bs, f.marker ∈ b.marks → f = b.startField ∨ f = b.endField) {l : Ledger} (hpos : 0 < l.fieldCount f)
    (hzero : (afterAll bs l).fieldCount f = 0) :
    (∀ a ∈ f.anchors, a ∈ leavingAll bs l) ∨ ∃ b ∈ bs, ∃ q ∈ b.ownNodes, q ∈ leavingAll bs l ∧
      (f = b.startField ∧ q = b.startNode ∨ f = b.endField ∧ q = b.endNode) := by
  induction bs generalizing l with
  | nil => exact absurd hzero (Nat.ne_of_gt hpos)
  | cons b bs ih =>
    simp only [leavingAll, List.mem_append]
    by_cases hcount : (b.after l).fieldCount f = 0
    · have hmark : f.marker ∈ b.marks := by
        by_contra hno
        rw [Ledger.fieldCount, Ledger.count_fields_after, List.count_eq_zero.mpr hno] at hcount
        exact Nat.ne_of_gt hpos hcount
      rcases mem_leaving_of_released (hne b List.mem_cons_self) (heq b List.mem_cons_self hmark) hcount with hall | ⟨q, hq, hleave, hof⟩
      · exact Or.inl fun a ha => Or.inl (hall a ha)
      · exact Or.inr ⟨b, List.mem_cons_self, q, hq, Or.inl hleave, hof⟩
    · rcases ih (fun b' hb' => hne b' (List.mem_cons_of_mem b hb')) (fun b' hb' => heq b' (List.mem_cons_of_mem b hb'))
        (Nat.pos_of_ne_zero hcount) hzero with hall | ⟨b', hb', q, hq, hleave, hof⟩
      · exact Or.inl fun a ha => Or.inr (hall a ha)
      · exact Or.inr ⟨b', List.mem_cons_of_mem b hb', q, hq, Or.inr hleave, hof⟩

/-- A boundary leaves with its last reference, unless it is pinned. -/
theorem mem_leavingAll_of_free {bs : List Block} {l : Ledger} {q : NodeId} (hpin : q ∉ l.pinned) (hpos : 0 < l.nodeCount q)
    (hzero : (afterAll bs l).nodeCount q = 0) : q ∈ leavingAll bs l := by
  induction bs generalizing l with
  | nil => exact absurd hzero (Nat.ne_of_gt hpos)
  | cons b bs ih =>
    rw [leavingAll, List.mem_append]
    by_cases hcount : (b.after l).nodeCount q = 0
    · refine Or.inl (Ledger.mem_leaving_of_free ?_ hcount hpin)
      by_contra hno
      rw [Ledger.nodeCount_after, List.count_eq_zero.mpr hno] at hcount
      exact Nat.ne_of_gt hpos hcount
    · exact Or.inr (ih (by rwa [Ledger.pinned_after]) (Nat.pos_of_ne_zero hcount) hzero)

theorem fieldCount_afterAll (bs : List Block) (l : Ledger) (f : Field) :
    (afterAll bs l).fieldCount f = l.fieldCount f - (bs.flatMap marks).count f.marker := by
  induction bs generalizing l with
  | nil => rfl
  | cons b bs ih =>
    show (afterAll bs (b.after l)).fieldCount f = _
    rw [ih, Ledger.fieldCount, Ledger.count_fields_after, List.flatMap_cons, List.count_append, Nat.sub_sub]
    rfl

theorem nodeCount_afterAll (bs : List Block) (l : Ledger) (q : NodeId) :
    (afterAll bs l).nodeCount q = l.nodeCount q - (bs.flatMap ownNodes).count q := by
  induction bs generalizing l with
  | nil => rfl
  | cons b bs ih =>
    show (afterAll bs (b.after l)).nodeCount q = _
    rw [ih, Ledger.nodeCount_after, List.flatMap_cons, List.count_append, Nat.sub_sub]

end Block

/-! ## Statements one after the other -/

section steps

variable {expand : NodeId → Merge Unit} (hexp : Expands expand) {s s' : Session}

include hexp

/-- A statement gives up its blocks, and no other references. -/
theorem Statement.ledger_evaluate (h : s.tree.WellFormed) {st : Statement} (hown : st.Owned (fun x => 0 ≤ x) s.tree)
    (hrun : st.evaluate expand s = (.ok (), s')) : s'.ledger = Block.afterAll st.blocks s.ledger := by
  rcases evaluate_cases hrun with ⟨f, o, v, rfl, -, hins⟩ | ⟨before, b, after, content, made, hm⟩ | ⟨o, b, v, made, rfl, hshow, rfl⟩ | rfl
  · have hledger := ledger_insert f v s
    rw [hins] at hledger
    exact hledger
  · obtain ⟨hed, -⟩ := hm.fresh hexp h (hown.blocks b (by rw [hm.blocks]; simp))
    rw [hm.run_evaluate] at hrun
    cases hrun
    rw [Block.ledger_dropAll, Block.ledger_giveWay, Block.ledger_dropAll, hed.ledger, hm.blocks, Block.afterAll,
      List.foldl_append, List.foldl_cons]
  · obtain ⟨hledger, -⟩ := showPicture_spec o b v s
    rw [hshow] at hledger
    rw [Block.ledger_dropAll, hledger]
    rfl
  · exact Block.ledger_dropAll st.blocks s

variable {t : Tree} (ht : t.WellFormed) {P : NodeId → Prop} {ss : List Statement}
  (hP : ∀ st ∈ ss, ∀ w, st.Unwraps w → P w) {env : Environment}

include ht hP

/-- What leaves with a block has no parent in the end, and neither has what had none before. -/
theorem InScan.left {sts : List Statement} (hsts : ∀ st ∈ sts, st ∈ ss) (h : InScan P t ss env s)
    (hrun : Statement.evaluateAll expand sts s = (.ok (), s')) : InScan P t ss env s' ∧
      ∀ y < t.size, y ∈ Block.leavingAll (sts.flatMap Statement.blocks) s.ledger ∨ s.tree.parent y = none →
        s'.tree.parent y = none := by
  induction sts generalizing s with
  | nil =>
    cases hrun
    exact ⟨h, fun y _ hy => hy.resolve_left List.not_mem_nil⟩
  | cons st sts ih =>
    have hst := hsts st List.mem_cons_self
    obtain ⟨s₁, hone, hrest⟩ := Statement.evaluateAll_cons_eq_ok hrun
    have hown := h.owned st hst
    obtain ⟨hlast, hleft⟩ := ih (fun st' hst' => hsts st' (List.mem_cons_of_mem st hst')) (h.next hexp ht hP hst hone) hrest
    refine ⟨hlast, fun y hy hor => hleft y hy ?_⟩
    have hlt : y < s.tree.size := Nat.lt_of_lt_of_le hy h.lifted.grows
    rw [Statement.ledger_evaluate hexp h.wellFormed hown hone]
    rw [List.flatMap_cons, Block.leavingAll_append, List.mem_append] at hor
    rcases hor with (hor | hor) | hor
    · right
      have hne : ∀ f o, st ≠ .insertion f o := by
        rintro f o rfl
        cases hor
      rw [Statement.parent_evaluate hexp h.wellFormed hne hown hone hlt, if_pos hor]
    · exact Or.inl hor
    · right
      by_contra hsome
      obtain ⟨p, hp⟩ := Option.ne_none_iff_exists'.mp hsome
      rcases (Statement.evaluate_bystanders hexp h.wellFormed hown hone hlt).2.2 p hp with hp | ⟨w, -, hw, -⟩
      · rw [hor] at hp; cases hp
      · rw [hor] at hw; cases hw

end steps

/-! ## A whole scan -/

section scans

variable {r : Registry} {t : Tree} (ht : t.WellFormed) {id : NodeId} {ss : List Statement} {l : Ledger}
  (hbuild : ofFields r t (t.fields id) = .ok (ss, l)) {expand : NodeId → Merge Unit} (hexp : Expands expand) {P : NodeId → Prop}
  (hP : ∀ st ∈ ss, ∀ w, st.Unwraps w → P w) {env : Environment} {s last : Session} (h : InScan P t ss env s)
  (hledger : s.ledger = l) (hrun : Statement.evaluateAll expand ss s = (.ok (), last)) {b : Block} (hb : b ∈ ss.flatMap Statement.blocks)

include ht hexp hP h hrun hb

theorem parent_none_of_body (hk : b.kind ≠ .image) {x : NodeId} (hx : x ∈ b.body) (hlt : x < t.size) :
    last.tree.parent x = none :=
  (h.left hexp ht hP (fun _ hst => hst) hrun).2 x hlt (Or.inl (Block.mem_leavingAll_of_body hk hx hb _))

include hbuild hledger

theorem parent_none_of_ownNode {q : NodeId} (hq : q ∈ b.ownNodes) (hpin : q ∉ l.pinned) (hlt : q < t.size) :
    last.tree.parent q = none := by
  subst hledger
  have hcount := (covers_of_ofFields hbuild).nodes q
  refine (h.left hexp ht hP (fun _ hst => hst) hrun).2 q hlt (Or.inl (Block.mem_leavingAll_of_free hpin ?_ ?_))
  · rw [hcount]
    exact List.count_pos_iff.mpr (List.mem_flatMap.mpr ⟨b, hb, hq⟩)
  · rw [Block.nodeCount_afterAll, hcount, Nat.sub_self]

omit hexp hP h hrun hledger in
/-- A row or paragraph that bounds a block is above all anchors of the field in it. -/
theorem above_of_ownNode {f : Field} {q : NodeId} (hq : q ∈ b.ownNodes)
    (hf : f = b.startField ∧ q = b.startNode ∨ f = b.endField ∧ q = b.endNode) :
    (t.isNamed Word.tableRow q = true ∨ t.isNamed Word.paragraph q = true) ∧ ∀ a ∈ f.anchors, t.Within q a := by
  have ho := outlined_of_takeAll hbuild
  obtain ⟨hstart, hstop⟩ := ho.mem_fields_block hb
  have habove : ∀ {f : Field} {name : String}, f ∈ t.fields id → f.ancestor? t name = some q →
      t.isNamed name q = true ∧ ∀ a ∈ f.anchors, t.Within q a := by
    intro f name hmem hanc
    obtain ⟨hn, hw, hne, -⟩ := ht.findAncestor?_eq_some hanc
    refine ⟨hn, fun a ha => ?_⟩
    obtain ⟨p, hp, hqp⟩ := (within_iff.mp hw).resolve_left (Ne.symm hne)
    exact within_parent hqp (((placed_of_mem_fields hmem).parent_anchor ht ha).trans hp)
  have hbound := Block.bounded_of_resolve? (ho.resolves_block hb)
  unfold Block.ownNodes Block.hasOwnBoundaries at hq
  generalize b.kind = k, b.startNode = s, b.endNode = e at hbound hq hf
  cases hbound with
  | image => cases hq
  | inline => cases hq
  | row hs he =>
    rcases hf with ⟨rfl, rfl⟩ | ⟨rfl, rfl⟩
    · exact (habove hstart hs).imp_left Or.inl
    · exact (habove hstop he).imp_left Or.inl
  | paragraph hs he =>
    rcases hf with ⟨rfl, rfl⟩ | ⟨rfl, rfl⟩
    · exact (habove hstart hs).imp_left Or.inr
    · exact (habove hstop he).imp_left Or.inr

/-- The anchors of a boundary field leave, or a row or paragraph that is above them all. -/
theorem parent_none_of_anchor {f : Field} (hf : f = b.startField ∨ f = b.endField) (hlt : ∀ a ∈ f.anchors, a < t.size) :
    (∀ a ∈ f.anchors, last.tree.parent a = none) ∨
      ∃ q, last.tree.parent q = none ∧ (t.isNamed Word.tableRow q = true ∨ t.isNamed Word.paragraph q = true) ∧
        ∀ a ∈ f.anchors, t.Within q a := by
  have hof : ∀ b' ∈ ss.flatMap Statement.blocks, ∀ q ∈ b'.ownNodes,
      (f = b'.startField ∧ q = b'.startNode ∨ f = b'.endField ∧ q = b'.endNode) →
      (t.isNamed Word.tableRow q = true ∨ t.isNamed Word.paragraph q = true) ∧ ∀ a ∈ f.anchors, t.Within q a :=
    fun _ hb' _ hq hwhich => above_of_ownNode ht hbuild hb' hq hwhich
  subst hledger
  have ho := outlined_of_takeAll hbuild
  have htop : f ∈ ss.flatMap topFields := by
    rcases hf with rfl | rfl
    · exact (ho.mem_topFields hb).1
    · exact (ho.mem_topFields hb).2
  have hmem := ho.topFields_sublist.subset htop
  have hcount := count_of_ofFields ht hbuild htop
  have hpos : 0 < s.ledger.fieldCount f := by
    rw [hcount]
    refine List.count_pos_iff.mpr (List.mem_flatMap.mpr ⟨b, hb, ?_⟩)
    rcases hf with rfl | rfl <;> simp [Block.marks]
  have hzero : (Block.afterAll (ss.flatMap Statement.blocks) s.ledger).fieldCount f = 0 := by
    rw [Block.fieldCount_afterAll, hcount, Nat.sub_self]
  have hne : ∀ b ∈ ss.flatMap Statement.blocks, b.startField.marker ≠ b.endField.marker := fun b hb he =>
    ho.startField_ne ht hb (eq_of_marker_eq (ho.mem_fields_block hb).1 (ho.mem_fields_block hb).2 he)
  have heq : ∀ b ∈ ss.flatMap Statement.blocks, f.marker ∈ b.marks → f = b.startField ∨ f = b.endField := by
    intro b hb hmark
    simp only [Block.marks, List.mem_cons, List.not_mem_nil, or_false] at hmark
    exact hmark.imp (eq_of_marker_eq hmem (ho.mem_fields_block hb).1) (eq_of_marker_eq hmem (ho.mem_fields_block hb).2)
  have hleft := (h.left hexp ht hP (fun _ hst => hst) hrun).2
  rcases Block.mem_leavingAll_of_released hne heq hpos hzero with hall | ⟨b', hb', q, hq, hleave, hwhich⟩
  · exact Or.inl fun a ha => hleft a (hlt a ha) (Or.inl (hall a ha))
  · obtain ⟨hn, hw⟩ := hof b' hb' q hq hwhich
    exact Or.inr ⟨q, hleft q (hn.elim lt_size_of_isNamed lt_size_of_isNamed) (Or.inl hleave), hn, hw⟩

end scans

end MailMerge
