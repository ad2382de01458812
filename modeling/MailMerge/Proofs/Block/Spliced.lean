/-
  MailMerge.Proofs.Block.Spliced — the row of a block that has given way.

  A block is told by a scan and gives way later, when there is content for it. The tree may
  have changed in between; of the row that the boundary nodes stand in it is asked that it
  has not. What stays of the boundaries is told by the ledger behind the block (`stays`): a
  row or paragraph stays as long as it is counted or pinned, a boundary inside a paragraph
  as long as its field is counted. A field that is counted no more leaves with its anchors,
  unless the row or paragraph around it leaves as a whole (`shed`).

  Proved: the row is as before up to the start node; then follow the start node if it stays,
  the content, what stood between the boundaries and is no element, the end node if it stays,
  and the rest of the row as before. The anchors that leave stand in the row itself for a
  block inside a paragraph, and inside the boundary for other blocks; no other child list
  changes (`replace_splices`).
-/

import MailMerge.Proofs.Block.Resolve
import MailMerge.Proofs.Block.Uses
import MailMerge.Proofs.Field.Below
import MailMerge.Proofs.Tree.Lists

namespace MailMerge

namespace Tree

/-! ## Nodes that stand nowhere are put into a row -/

/-- What stands in a child list has its parent there. -/
def Parented (t : Tree) : Prop := ∀ p c, c ∈ t.children p → t.parent c = some p

theorem Linked.parented {t : Tree} (h : t.Linked) : t.Parented := fun _ _ hc => h.parent_of_mem hc

namespace Parented

variable {t : Tree} (h : t.Parented)

include h

theorem not_mem_children {x : NodeId} (hx : t.parent x = none) (q : NodeId) : x ∉ t.children q := fun hm => by
  rw [h q x hm] at hx
  cases hx

theorem eq_of_mem_children {p q x : NodeId} (hp : x ∈ t.children p) (hq : x ∈ t.children q) : p = q :=
  Option.some.inj ((h p x hp).symm.trans (h q x hq))

theorem children_detach (x q : NodeId) : (t.detach x).children q = (t.children q).filter (· != x) := by
  unfold Tree.detach
  cases hp : t.parent x with
  | none => exact (filter_ne_self (h.not_mem_children hp q)).symm
  | some p =>
    simp only [children_mapChildren, size_setParent, children_setParent]
    by_cases hq : q = p
    · subst hq
      by_cases hlt : q < t.size
      · rw [if_pos ⟨rfl, hlt⟩]
      · rw [if_neg fun hc => hlt hc.2, children_of_size_le (Nat.le_of_not_lt hlt)]
        rfl
    · rw [if_neg fun hc => hq hc.1, filter_ne_self]
      exact fun hm => hq (Option.some.inj ((h q x hm).symm.trans hp))

theorem detach (x : NodeId) : (t.detach x).Parented := by
  intro p c hc
  rw [h.children_detach, List.mem_filter, bne_iff_ne] at hc
  rw [parent_detach_of_ne t hc.2]
  exact h p c hc.1

theorem children_detachAll (ids : List NodeId) (q : NodeId) :
    (t.detachAll ids).children q = (t.children q).filter (· ∉ ids) := by
  induction ids generalizing t with
  | nil => exact (List.filter_eq_self.mpr fun _ _ => decide_eq_true List.not_mem_nil).symm
  | cons x ids ih =>
    rw [Tree.detachAll, List.foldl_cons, ← Tree.detachAll, ih (h.detach x), h.children_detach, List.filter_filter]
    refine List.filter_congr fun y _ => ?_
    by_cases hx : y = x <;> simp [hx]

/-- A node without a parent is put behind another one in its row. -/
theorem insertAfter {anchor p x : NodeId} {before after : List NodeId} (hs : t.children p = before ++ anchor :: after)
    (hb : anchor ∉ before) (hx : x < t.size) (hnone : t.parent x = none) :
    (t.insertAfter anchor x).Parented ∧ (∀ q, (t.insertAfter anchor x).children q =
      if q = p then before ++ anchor :: x :: after else t.children q) ∧
    ∀ y, (t.insertAfter anchor x).parent y = if y = x then some p else t.parent y := by
  have hmem : anchor ∈ t.children p := by rw [hs]; simp
  have hp := h p anchor hmem
  have hne : anchor ≠ x := fun he => by rw [he, hnone] at hp; cases hp
  have heq : t.insertAfter anchor x = t.attach (Siblings.insertAfter anchor x) p x := by
    unfold Tree.insertAfter insertBeside
    rw [if_neg hne, hp]
    simp only [detach_of_parent_none hnone, List.contains_iff_mem, hmem, if_true]
    rfl
  have hchildren : ∀ q, (t.insertAfter anchor x).children q = if q = p then before ++ anchor :: x :: after else t.children q := by
    intro q
    rw [heq, children_attach _ (lt_size_of_mem_children hmem), hs, insertAfter_mem hb]
  have hparent : ∀ y, (t.insertAfter anchor x).parent y = if y = x then some p else t.parent y := by
    intro y
    rw [heq, parent_attach _ hx]
  refine ⟨fun q c hc => ?_, hchildren, hparent⟩
  rw [hchildren] at hc
  rw [hparent]
  by_cases hcx : c = x
  · rw [if_pos hcx]
    split at hc
    · next hq => rw [hq]
    · exact absurd (hcx ▸ hc) (h.not_mem_children hnone q)
  · rw [if_neg hcx]
    split at hc
    · next hq =>
      subst hq
      refine h q c ?_
      rw [hs]
      simp only [List.mem_append, List.mem_cons, hcx, false_or] at hc ⊢
      exact hc
    · exact h q c hc

/-- And so are several, each behind the one before it. -/
theorem insertAllAfter {anchor p : NodeId} {ids before after : List NodeId} (hs : t.children p = before ++ anchor :: after)
    (hb : anchor ∉ before) (hids : ids.Nodup) (hspare : ∀ x ∈ ids, x < t.size ∧ t.parent x = none) :
    (t.insertAllAfter anchor ids).Parented ∧ ∀ q, (t.insertAllAfter anchor ids).children q =
      if q = p then before ++ anchor :: ids ++ after else t.children q := by
  induction ids generalizing t anchor before with
  | nil =>
    refine ⟨h, fun q => ?_⟩
    show t.children q = _
    split
    · next hq => rw [hq, hs]; simp
    · rfl
  | cons x ids ih =>
    obtain ⟨hlt, hnone⟩ := hspare x List.mem_cons_self
    obtain ⟨hxids, hids⟩ := List.nodup_cons.mp hids
    obtain ⟨hu, hchildren, hparent⟩ := h.insertAfter hs hb hlt hnone
    have hx : x ∉ t.children p := h.not_mem_children hnone p
    have hrow : (t.insertAfter anchor x).children p = (before ++ [anchor]) ++ x :: after := by rw [hchildren, if_pos rfl]; simp
    have hfront : x ∉ before ++ [anchor] := by
      rw [hs] at hx
      simp only [List.mem_append, List.mem_cons, not_or] at hx ⊢
      exact ⟨hx.1, hx.2.1, List.not_mem_nil⟩
    have hsize : (t.insertAfter anchor x).size = t.size := (relinked_insertBeside t _ anchor x).size
    have hrest : ∀ y ∈ ids, y < (t.insertAfter anchor x).size ∧ (t.insertAfter anchor x).parent y = none := by
      intro y hy
      have hyx : y ≠ x := fun he => hxids (he ▸ hy)
      rw [hsize, hparent, if_neg hyx]
      exact hspare y (List.mem_cons_of_mem x hy)
    obtain ⟨hv, hall⟩ := ih hu hrow hfront hids hrest
    refine ⟨hv, fun q => ?_⟩
    rw [Tree.insertAllAfter, hall]
    split
    · simp
    · next hq => rw [hchildren, if_neg hq]

end Parented

end Tree

open MailMerge.Tree

/-! ## What stays of the boundaries -/

namespace Block

/-- Whether a boundary stays, by the ledger behind the block. -/
def stays (b : Block) (l : Ledger) (f : Field) (id : NodeId) : Bool :=
  if b.hasOwnBoundaries then decide (0 < l.nodeCount id) || l.isPinned id else decide (0 < l.fieldCount f)

/-- The anchors that leave with their field. A row or paragraph that leaves takes them along. -/
def shed (b : Block) (l : Ledger) (f : Field) (id : NodeId) : List NodeId :=
  if b.hasOwnBoundaries && !b.stays l f id then [] else if l.fieldCount f = 0 then f.anchors else []

/-- The anchors that leave with the boundary fields of a block. -/
def shedding (b : Block) (l : Ledger) : List NodeId :=
  b.shed l b.startField b.startNode ++ b.shed l b.endField b.endNode

/-- The nodes that leave at a boundary. -/
def going (b : Block) (l : Ledger) (f : Field) (id : NodeId) : List NodeId :=
  if b.hasOwnBoundaries && !b.stays l f id then [id] else b.shed l f id

theorem mem_shed {b : Block} {l : Ledger} {f : Field} {id x : NodeId} (hx : x ∈ b.shed l f id) :
    l.fieldCount f = 0 ∧ x ∈ f.anchors := by
  unfold shed at hx
  split at hx
  · cases hx
  · split at hx
    · next hcount => exact ⟨hcount, hx⟩
    · cases hx

theorem going_of_own {b : Block} (ho : b.hasOwnBoundaries = true) (l : Ledger) (f : Field) (id : NodeId) :
    b.going l f id = if b.stays l f id then b.shed l f id else [id] := by
  unfold going
  cases b.stays l f id <;> simp [ho]

theorem going_of_inline {b : Block} (ho : b.hasOwnBoundaries = false) (l : Ledger) (f : Field) (id : NodeId) :
    b.going l f id = b.shed l f id := by simp [going, ho]

theorem shed_of_inline {b : Block} (ho : b.hasOwnBoundaries = false) (l : Ledger) (f : Field) (id : NodeId) :
    b.shed l f id = if b.stays l f id then [] else f.anchors := by
  by_cases hc : l.fieldCount f = 0
  · simp [shed, stays, ho, hc]
  · simp [shed, stays, ho, hc, Nat.pos_of_ne_zero hc]

/-- What leaves at a boundary is told by the ledger behind the block, if that counts the boundary
    as the ledger right behind the boundary does. -/
theorem givenUp_eq_going {b : Block} {f : Field} {id : NodeId} {l l' : Ledger}
    (hnode : (b.givenUp f id l).2.nodeCount id = l'.nodeCount id) (hfield : (b.givenUp f id l).2.fieldCount f = l'.fieldCount f)
    (hpin : l.pinned = l'.pinned) : (b.givenUp f id l).1 = b.going l' f id := by
  have hfree : (l.releaseField f).1 = decide (l'.fieldCount f = 0) := by
    rw [← hfield, Bool.eq_iff_iff, decide_eq_true_iff]
    unfold givenUp
    split <;> simp [Ledger.releaseField, Ledger.releaseNode, Ledger.fieldCount]
  by_cases ho : b.hasOwnBoundaries = true
  · have hleaves : ((l.releaseField f).2.releaseNode id).1 = !b.stays l' f id := by
      have hcount : ((l.releaseField f).2.releaseNode id).2.nodeCount id = l'.nodeCount id := by
        rw [← hnode]
        simp [givenUp, ho]
      have hpinned : (l.releaseField f).2.isPinned id = l'.isPinned id := by
        show l.pinned.contains id = l'.pinned.contains id
        rw [hpin]
      have hzero : ∀ n : Nat, (n == 0) = !decide (0 < n) := fun n => by cases n <;> rfl
      rw [stays, if_pos ho, ← hcount, ← hpinned, Bool.not_or, ← hzero]
      rfl
    rw [going_of_own ho, givenUp]
    simp only [ho, if_true, hleaves, hfree, decide_eq_true_eq]
    cases hs : b.stays l' f id <;> simp [shed, ho, hs]
  · rw [Bool.not_eq_true] at ho
    rw [going_of_inline ho, givenUp]
    simp [shed, ho, hfree]

/-! ## The row of the boundaries -/

/-- Where a block's boundaries and the anchors of its boundary fields stand. -/
structure Seated (t : Tree) (b : Block) (p : NodeId) (before mid after : List NodeId) : Prop where
  row : t.children p = before ++ b.startNode :: mid ++ b.endNode :: after
  body : b.body = mid.filter t.isElement
  /-- The anchors stand within the boundary nodes. -/
  own : b.hasOwnBoundaries = true → (∀ a ∈ b.startField.anchors, t.Within b.startNode a ∧ a ≠ b.startNode) ∧
    ∀ a ∈ b.endField.anchors, t.Within b.endNode a ∧ a ≠ b.endNode
  /-- The boundary nodes are anchors, and the others stand on the far side of them. -/
  inline : b.hasOwnBoundaries = false → (b.startNode ∈ b.startField.anchors ∧ ∀ a ∈ b.startField.anchors, a ∈ before ++ [b.startNode]) ∧
    b.endNode ∈ b.endField.anchors ∧ ∀ a ∈ b.endField.anchors, a ∈ b.endNode :: after
  marker_ne : b.startField.marker ≠ b.endField.marker

theorem inside_ancestor {t : Tree} (h : t.WellFormed) {f : Field} (hf : f.Placed t) {name : String} {s a : NodeId}
    (hs : f.ancestor? t name = some s) (ha : a ∈ f.anchors) : t.Within s a ∧ a ≠ s := by
  rw [Field.ancestor?, ← h.findAncestor?_of_siblings (hf.parent_anchor h ha)] at hs
  obtain ⟨-, hw, hne, -⟩ := h.findAncestor?_eq_some hs
  exact ⟨hw, hne.symm⟩

/-- No anchor of a field but the last is behind the last. -/
theorem not_mem_later_last {t : Tree} (h : t.WellFormed) {f : Field} (hf : f.Placed t) {a : NodeId} (ha : a ∈ f.anchors) :
    a ∉ t.laterElements f.last := by
  rcases List.mem_cons.mp ha with rfl | ha
  · rcases List.mem_cons.mp f.last_mem_anchors with hl | hl
    · rw [hl]
      exact fun hm => (h.mem_laterElements hm).2.2.2 rfl
    · exact h.not_mem_laterElements (hf.mem_others hl)
  · exact hf.not_mem_later_last h ha

/-- The anchors of a field are elements, if they stand in a row. -/
theorem isElement_of_mem_anchors {t : Tree} (h : t.WellFormed) {f : Field} {r : NodeId} (hf : f ∈ t.fields r)
    (hp : t.parent f.first ≠ none) {a : NodeId} (ha : a ∈ f.anchors) : t.isElement a = true := by
  have hplaced := placed_of_mem_fields hf
  rcases List.mem_cons.mp ha with rfl | ha
  · rcases hplaced.marked with hm | hm
    · exact hm ▸ isElement_marker hf
    · refine (h.inner _ _ hm).resolve_left fun hroot => hp ?_
      rw [hroot, h.top]
  · exact (h.mem_laterElements (hplaced.mem_others ha)).2.2.1

theorem exists_seated {t : Tree} (h : t.WellFormed) {b : Block} {r r' : NodeId} (hstart : b.startField ∈ t.fields r)
    (hend : b.endField ∈ t.fields r') (hb : resolve? t b.startField b.endField = some b) (hk : b.kind ≠ .image)
    (hne : b.startNode ≠ b.endNode) {p : NodeId} (hp : t.parent b.startNode = some p) :
    ∃ before mid after, b.Seated t p before mid after := by
  have hs := placed_of_mem_fields hstart
  have he := placed_of_mem_fields hend
  obtain ⟨-, hbetween, -, -⟩ := resolve?_eq_some.mp hb
  have hbetween := hbetween.resolve_right fun hc => hk hc.2.1
  obtain ⟨post, hlater⟩ := ((between?_eq_some h).mp hbetween).resolve_left fun hc => hne hc.1
  obtain ⟨before, rest, hrow⟩ := List.append_of_mem (h.mem_of_parent hp)
  rw [h.laterElements_eq hrow] at hlater
  obtain ⟨mid, after, rfl, hbody, -⟩ := exists_cut_of_filter hlater
  have hrow' : t.children p = before ++ b.startNode :: mid ++ b.endNode :: after := by rw [hrow]; simp
  have hown : b.hasOwnBoundaries = true → (∀ a ∈ b.startField.anchors, t.Within b.startNode a ∧ a ≠ b.startNode) ∧
      ∀ a ∈ b.endField.anchors, t.Within b.endNode a ∧ a ≠ b.endNode := by
    intro ho
    have hbound := bounded_of_resolve? hb
    generalize hkind : b.kind = k at hbound
    generalize b.startNode = s, b.endNode = e at hbound ⊢
    cases hbound with
    | image => exact absurd hkind hk
    | row hsa hea => exact ⟨fun a ha => inside_ancestor h hs hsa ha, fun a ha => inside_ancestor h he hea ha⟩
    | paragraph hsa hea => exact ⟨fun a ha => inside_ancestor h hs hsa ha, fun a ha => inside_ancestor h he hea ha⟩
    | inline => simp [hasOwnBoundaries, hkind] at ho
  have hinline : b.hasOwnBoundaries = false →
      (b.startNode ∈ b.startField.anchors ∧ ∀ a ∈ b.startField.anchors, a ∈ before ++ [b.startNode]) ∧
      b.endNode ∈ b.endField.anchors ∧ ∀ a ∈ b.endField.anchors, a ∈ b.endNode :: after := by
    intro ho
    have hkind : b.kind = .inline := by
      unfold hasOwnBoundaries at ho
      cases hkind : b.kind <;> simp_all
    obtain ⟨hslast, hefirst⟩ := inline_nodes_of_resolve? hb hkind
    have hpfirst : t.parent b.startField.first = some p := by
      rw [← hs.parent_anchor h b.startField.last_mem_anchors, ← hslast, hp]
    refine ⟨⟨hslast ▸ b.startField.last_mem_anchors, fun a ha => ?_⟩, hefirst ▸ b.endField.first_mem_anchors, fun a ha => ?_⟩
    · have hmem : a ∈ before ++ b.startNode :: (mid ++ b.endNode :: after) := by
        rw [← hrow]
        exact h.mem_of_parent ((hs.parent_anchor h ha).trans hpfirst)
      by_contra hout
      have hbehind : a ∈ mid ++ b.endNode :: after := by
        simp only [List.mem_append, List.mem_cons, List.not_mem_nil, or_false, not_or] at hmem hout ⊢
        exact (hmem.resolve_left hout.1).resolve_left hout.2
      refine not_mem_later_last h hs ha ?_
      rw [← hslast, h.laterElements_eq hrow]
      exact List.mem_filter.mpr ⟨hbehind, isElement_of_mem_anchors h hstart (by simp [hpfirst]) ha⟩
    · rcases List.mem_cons.mp ha with rfl | ha
      · exact hefirst ▸ List.mem_cons_self
      · have hlater := he.mem_others ha
        rw [← hefirst, h.laterElements_eq hrow'] at hlater
        exact List.mem_cons_of_mem _ (List.mem_filter.mp hlater).1
  refine ⟨before, mid, after, hrow', hbody.symm, hown, hinline, fun hm => ?_⟩
  have hfield := eq_of_marker_eq hstart hend hm
  have hpend : t.parent b.endNode = some p := h.parent_of_mem (by rw [hrow']; simp)
  cases ho : b.hasOwnBoundaries with
  | true =>
    refine hne (h.eq_of_within_siblings (hp.trans hpend.symm) ((hown ho).1 _ b.startField.first_mem_anchors).1 ?_ (by simp [hp]))
    rw [hfield]
    exact ((hown ho).2 _ b.endField.first_mem_anchors).1
  | false =>
    have hfront := (hinline ho).1.2 b.endNode (hfield ▸ (hinline ho).2.1)
    refine (h.children_cut hrow').1 ?_
    simp only [List.mem_append, List.mem_cons, List.not_mem_nil, or_false] at hfront ⊢
    exact hfront.imp_right Or.inl

/-- What leaves when a block gives way, by the ledger behind it. -/
def departing (b : Block) (l : Ledger) : List NodeId :=
  b.body ++ (b.going l b.startField b.startNode ++ b.going l b.endField b.endNode)

/-- What leaves, by the ledger behind the block. -/
theorem leaving_eq {b : Block} (hk : b.kind ≠ .image) (hne : b.startNode ≠ b.endNode)
    (hm : b.startField.marker ≠ b.endField.marker) (l : Ledger) : b.leaving l = b.departing (b.after l) := by
  rw [leaving, departing, if_neg hk]
  congr 2
  · refine givenUp_eq_going ?_ ?_ (Ledger.pinned_after b l).symm
    · rw [after, Ledger.count_nodes_givenUp b b.endField]
      split <;> simp [hne.symm]
    · simp only [Ledger.fieldCount]
      rw [after, Ledger.count_fields_givenUp b b.endField]
      simp [hm.symm]
  · refine givenUp_eq_going rfl rfl ?_
    rw [Ledger.pinned_givenUp, Ledger.pinned_after]

theorem mem_going_of_ne {b : Block} {l : Ledger} {f : Field} {id x : NodeId} (hx : x ≠ id) :
    x ∈ b.going l f id ↔ x ∈ b.shed l f id := by
  unfold going shed
  split <;> simp [hx]

/-- Apart from the body and the boundary nodes it is the anchors of the fields that leave. -/
theorem mem_departing {b : Block} {l : Ledger} {x : NodeId} (hs : x ≠ b.startNode) (he : x ≠ b.endNode) (hb : x ∉ b.body) :
    x ∈ b.departing l ↔ x ∈ b.shedding l := by
  rw [departing, shedding, List.mem_append, List.mem_append, mem_going_of_ne hs, mem_going_of_ne he, List.mem_append]
  simp [hb]

theorem filter_departing {b : Block} {l : Ledger} {xs : List NodeId} (hxs : ∀ x ∈ xs, x ≠ b.startNode ∧ x ≠ b.endNode ∧ x ∉ b.body) :
    xs.filter (· ∉ b.departing l) = xs.filter (· ∉ b.shedding l) := by
  refine List.filter_congr fun x hx => decide_eq_decide.mpr (not_congr ?_)
  obtain ⟨hns, hne, hnb⟩ := hxs x hx
  exact mem_departing hns hne hnb

/-- A boundary node that does not stay leaves, whether or not it is an anchor. -/
theorem self_mem_going {b : Block} {l : Ledger} {f : Field} {id : NodeId} (hown : b.hasOwnBoundaries = true → id ∉ f.anchors)
    (hinline : b.hasOwnBoundaries = false → id ∈ f.anchors) : id ∈ b.going l f id ↔ b.stays l f id = false := by
  cases ho : b.hasOwnBoundaries with
  | true =>
    rw [going_of_own ho]
    cases hst : b.stays l f id with
    | false => simp
    | true => simpa using fun hm => hown ho (mem_shed hm).2
  | false =>
    rw [going_of_inline ho, shed_of_inline ho]
    cases hst : b.stays l f id with
    | false => simp [hinline ho]
    | true => simp

namespace Seated

variable {t : Tree} {b : Block} {p : NodeId} {before mid after : List NodeId} {l : Ledger} {x : NodeId}
  (hs : b.Seated t p before mid after) (h : t.WellFormed)

include hs

/-- The body stands between the boundaries. -/
theorem mem_body (hx : x ∈ b.body) : x ∈ mid ∧ x ∈ t.children p := by
  rw [hs.body] at hx
  have hmid := (List.mem_filter.mp hx).1
  refine ⟨hmid, ?_⟩
  rw [hs.row]
  simp [hmid]

include h

theorem nodup : (before ++ b.startNode :: mid ++ b.endNode :: after).Nodup := hs.row ▸ h.distinct p

theorem parent_startNode : t.parent b.startNode = some p := h.parent_of_mem (by rw [hs.row]; simp)

theorem parent_endNode : t.parent b.endNode = some p := h.parent_of_mem (by rw [hs.row]; simp)

/-- What stands strictly within a boundary does not stand beside it. -/
theorem not_mem_row_of_own (ho : b.hasOwnBoundaries = true) (hx : x ∈ b.startField.anchors ∨ x ∈ b.endField.anchors) :
    x ∉ t.children p := by
  have hinside : ∀ {s}, t.parent s = some p → t.Within s x ∧ x ≠ s → x ∉ t.children p := fun hp hw hm =>
    h.not_within_of_parent hp (within_parent_of_ne hw.1 hw.2 (h.parent_of_mem hm))
  rcases hx with hx | hx
  · exact hinside (hs.parent_startNode h) ((hs.own ho).1 x hx)
  · exact hinside (hs.parent_endNode h) ((hs.own ho).2 x hx)

/-- Of the row, anchors of the first field stand up to the start node. -/
theorem mem_front (hx : x ∈ b.startField.anchors) (hrow : x ∈ t.children p) : x ∈ before ++ [b.startNode] := by
  cases ho : b.hasOwnBoundaries with
  | true => exact absurd hrow (hs.not_mem_row_of_own h ho (Or.inl hx))
  | false => exact (hs.inline ho).1.2 x hx

/-- And anchors of the last field from the end node on. -/
theorem mem_rear (hx : x ∈ b.endField.anchors) (hrow : x ∈ t.children p) : x ∈ b.endNode :: after := by
  cases ho : b.hasOwnBoundaries with
  | true => exact absurd hrow (hs.not_mem_row_of_own h ho (Or.inr hx))
  | false => exact (hs.inline ho).2.2 x hx

theorem parent_anchor (hx : x ∈ b.startField.anchors ∨ x ∈ b.endField.anchors) : t.parent x ≠ none := by
  cases ho : b.hasOwnBoundaries with
  | true =>
    have hw : ∃ s, t.Within s x ∧ x ≠ s := hx.elim (fun hx => ⟨_, (hs.own ho).1 x hx⟩) fun hx => ⟨_, (hs.own ho).2 x hx⟩
    obtain ⟨s, hw, hne⟩ := hw
    exact fun hnone => hne (within_of_parent_none hnone hw).symm
  | false =>
    have hmem : x ∈ t.children p := by
      rw [hs.row]
      rcases hx with hx | hx
      · have := (hs.inline ho).1.2 x hx
        simp only [List.mem_append, List.mem_cons, List.not_mem_nil, or_false] at this ⊢
        exact Or.inl (this.imp_right Or.inl)
      · exact List.mem_append_right _ ((hs.inline ho).2.2 x hx)
    rw [h.parent_of_mem hmem]
    exact Option.some_ne_none p

/-- What leaves at the start node is no later than that in the row. -/
theorem going_start (hx : x ∈ b.going l b.startField b.startNode) (hrow : x ∈ t.children p) : x ∈ before ++ [b.startNode] := by
  by_cases he : x = b.startNode
  · simp [he]
  · exact hs.mem_front h (mem_shed ((mem_going_of_ne he).mp hx)).2 hrow

/-- And what leaves at the end node is no earlier. -/
theorem going_end (hx : x ∈ b.going l b.endField b.endNode) (hrow : x ∈ t.children p) : x ∈ b.endNode :: after := by
  by_cases he : x = b.endNode
  · simp [he]
  · exact hs.mem_rear h (mem_shed ((mem_going_of_ne he).mp hx)).2 hrow

theorem start_mem_departing : b.startNode ∈ b.departing l ↔ b.stays l b.startField b.startNode = false := by
  have hrow : b.startNode ∈ t.children p := by rw [hs.row]; simp
  have hnd := hs.nodup h
  have hself := self_mem_going (l := l) (fun ho hm => ((hs.own ho).1 _ hm).2 rfl) fun ho => (hs.inline ho).1.1
  have hbody : b.startNode ∉ b.body := fun hm => by have := (hs.mem_body hm).1; simp_all [List.nodup_append]
  have hend : b.startNode ∉ b.going l b.endField b.endNode := fun hm => by
    have := hs.going_end h hm hrow
    simp only [List.mem_cons] at this
    grind
  rw [departing, List.mem_append, List.mem_append, hself]
  simp [hbody, hend]

theorem end_mem_departing : b.endNode ∈ b.departing l ↔ b.stays l b.endField b.endNode = false := by
  have hrow : b.endNode ∈ t.children p := by rw [hs.row]; simp
  have hnd := hs.nodup h
  have hself := self_mem_going (l := l) (fun ho hm => ((hs.own ho).2 _ hm).2 rfl) fun ho => (hs.inline ho).2.1
  have hbody : b.endNode ∉ b.body := fun hm => by have := (hs.mem_body hm).1; grind
  have hstart : b.endNode ∉ b.going l b.startField b.startNode := fun hm => by
    have := hs.going_start h hm hrow
    grind
  rw [departing, List.mem_append, List.mem_append, hself]
  simp [hbody, hstart]

/-- Of what stands between the boundaries just the elements leave. -/
theorem mid_mem_departing (hx : x ∈ mid) : x ∈ b.departing l ↔ t.isElement x = true := by
  have hrow : x ∈ t.children p := by rw [hs.row]; simp [hx]
  have hnd := hs.nodup h
  have hstart : x ∉ b.going l b.startField b.startNode := fun hm => by
    have := hs.going_start h hm hrow
    grind
  have hend : x ∉ b.going l b.endField b.endNode := fun hm => by
    have := hs.going_end h hm hrow
    grind
  rw [departing, List.mem_append, List.mem_append, hs.body, List.mem_filter]
  simp [hx, hstart, hend]

/-- Boundaries of their own take no anchors from the row. -/
theorem not_mem_shedding_of_own (ho : b.hasOwnBoundaries = true) (hx : x ∈ t.children p) : x ∉ b.shedding l := by
  rw [shedding, List.mem_append]
  rintro (hm | hm)
  · exact hs.not_mem_row_of_own h ho (Or.inl (mem_shed hm).2) hx
  · exact hs.not_mem_row_of_own h ho (Or.inr (mem_shed hm).2) hx

/-- Boundaries in a paragraph take them from there only. -/
theorem mem_row_of_inline (ho : b.hasOwnBoundaries = false) (hx : x ∈ b.shedding l) : x ∈ t.children p := by
  have hnd := hs.nodup h
  rw [hs.row]
  rw [shedding, List.mem_append] at hx
  rcases hx with hm | hm
  · have := (hs.inline ho).1.2 x (mem_shed hm).2
    grind
  · exact List.mem_append_right _ ((hs.inline ho).2.2 x (mem_shed hm).2)

/-- What is left of the row on the far sides of the boundaries. -/
theorem filter_side {xs : List NodeId} (hxs : ∀ x ∈ xs, x ∈ t.children p ∧ x ≠ b.startNode ∧ x ≠ b.endNode ∧ x ∉ mid) :
    xs.filter (· ∉ b.departing l) = if b.hasOwnBoundaries then xs else xs.filter (· ∉ b.shedding l) := by
  rw [filter_departing fun x hx => ⟨(hxs x hx).2.1, (hxs x hx).2.2.1, fun hm => (hxs x hx).2.2.2 (hs.mem_body hm).1⟩]
  cases ho : b.hasOwnBoundaries with
  | true => exact List.filter_eq_self.mpr fun x hx => decide_eq_true (hs.not_mem_shedding_of_own h ho (hxs x hx).1)
  | false => rfl

/-- What is left of the row with content in it. -/
theorem filter_row {content : List NodeId} (hc : ∀ x ∈ content, x ∉ t.children p) :
    (before ++ b.startNode :: content ++ (mid ++ b.endNode :: after)).filter (· ∉ b.departing l) =
      (if b.hasOwnBoundaries then before else before.filter (· ∉ b.shedding l)) ++
      (if b.stays l b.startField b.startNode then [b.startNode] else []) ++
      content.filter (· ∉ b.shedding l) ++
      mid.filter (fun x => !t.isElement x) ++
      (if b.stays l b.endField b.endNode then [b.endNode] else []) ++
      (if b.hasOwnBoundaries then after else after.filter (· ∉ b.shedding l)) := by
  have hnd := hs.nodup h
  have hrow : ∀ x, x ∈ t.children p ↔ x ∈ before ∨ x = b.startNode ∨ x ∈ mid ∨ x = b.endNode ∨ x ∈ after := by
    intro x
    rw [hs.row]
    simp
  have hbefore : before.filter (· ∉ b.departing l) = _ := hs.filter_side h fun x hx => by have := hrow x; grind
  have hafter : after.filter (· ∉ b.departing l) = _ := hs.filter_side h fun x hx => by have := hrow x; grind
  have hcontent : content.filter (· ∉ b.departing l) = _ := filter_departing fun x hx => by
    have hout := hc x hx
    exact ⟨fun he => hout ((hrow x).mpr (by simp [he])), fun he => hout ((hrow x).mpr (by simp [he])),
      fun hm => hout (hs.mem_body hm).2⟩
  have hmid : mid.filter (· ∉ b.departing l) = mid.filter (fun x => !t.isElement x) := by
    refine List.filter_congr fun x hx => ?_
    rw [Bool.eq_iff_iff, decide_eq_true_iff, hs.mid_mem_departing h hx, Bool.not_eq_true, Bool.not_eq_true']
  have hstart : [b.startNode].filter (· ∉ b.departing l) = if b.stays l b.startField b.startNode then [b.startNode] else [] := by
    have := hs.start_mem_departing (l := l) h
    cases hst : b.stays l b.startField b.startNode <;> simp_all
  have hend : [b.endNode].filter (· ∉ b.departing l) = if b.stays l b.endField b.endNode then [b.endNode] else [] := by
    have := hs.end_mem_departing (l := l) h
    cases hst : b.stays l b.endField b.endNode <;> simp_all
  rw [← hbefore, ← hstart, ← hcontent, ← hmid, ← hend, ← hafter]
  simp only [← List.filter_append, List.append_assoc, List.cons_append, List.nil_append]

end Seated

/-! ## The row behind a block -/

/-- What is left of a row, and of the other child lists, when a block has given way. `t₀` is the
    tree it was told of, `t` the one it gave way in, and `l` the ledger behind it. -/
structure Spliced (b : Block) (t₀ t : Tree) (p : NodeId) (before mid after content : List NodeId) (l : Ledger)
    (u : Tree) : Prop where
  row : u.children p =
    (if b.hasOwnBoundaries then before else before.filter (· ∉ b.shedding l)) ++
    (if b.stays l b.startField b.startNode then [b.startNode] else []) ++
    content.filter (· ∉ b.shedding l) ++
    mid.filter (fun x => !t₀.isElement x) ++
    (if b.stays l b.endField b.endNode then [b.endNode] else []) ++
    (if b.hasOwnBoundaries then after else after.filter (· ∉ b.shedding l))
  /-- Content that stood nowhere when the block was told is all there. An anchor that has been
      cut out of the tree since then leaves again with its field. -/
  whole : b.hasOwnBoundaries = false ∨ (∀ x ∈ content, t₀.parent x = none) → content.filter (· ∉ b.shedding l) = content
  others : ∀ q, q ≠ p → u.children q =
    if b.hasOwnBoundaries then (t.children q).filter (· ∉ b.shedding l) else t.children q

namespace SharedParagraph

/-- Two boundary paragraphs, and a comment and a paragraph between them. -/
def tree : Tree := ⟨#[⟨.container, none, [1], .none⟩,
  ⟨.element "w:body" [], some 0, [2, 4, 5, 6], .none⟩,
  ⟨.element "w:p" [], some 1, [3], .none⟩,
  ⟨.element "w:fldSimple" [("w:instr", "MERGEFIELD c:if")], some 2, [], .none⟩,
  ⟨.comment "", some 1, [], .none⟩,
  ⟨.element "w:p" [], some 1, [], .none⟩,
  ⟨.element "w:p" [], some 1, [7], .none⟩,
  ⟨.element "w:fldSimple" [("w:instr", "MERGEFIELD c:endIf")], some 6, [], .none⟩]⟩

/-- With a new paragraph that stands nowhere yet. -/
def later : Tree := (tree.createElement "w:p").2

def opening : Field := ⟨3, "c:if", 3, [], .simple, true, .none⟩

def closing : Field := ⟨7, "c:endIf", 7, [], .simple, true, .none⟩

def block : Block := ⟨.paragraph, opening, closing, 2, 6, [5]⟩

/-- Some other block has the first paragraph for a boundary too. -/
def ledger : Ledger := ⟨[3, 7], [2, 2, 6], []⟩

theorem fields_tree : tree.fields root = [opening, closing] := by decide +kernel

end SharedParagraph

end Block

end MailMerge
