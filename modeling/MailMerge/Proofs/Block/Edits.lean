/-
  MailMerge.Proofs.Block.Edits — copies of a body, and a block giving way.

  The copies are made in a new scratch node, so they are behind a fence at the size the
  store had. A block that gives way edits its boundaries, its body and what it is given.
-/

import MailMerge.Block.Replace
import MailMerge.Proofs.Splice.Edits

namespace MailMerge.Block

open MailMerge.Tree

/-- A body is copied into an element without attributes. -/
theorem copyNodes_eq (t : Tree) (ids : List NodeId) : copyNodes t ids = t.copiesIn containerName [] ids := rfl

/-- The copies stand in a new node, look like their originals, and nothing else is touched. -/
theorem copyNodes_spec {t : Tree} (h : t.WellFormed) {ids : List NodeId} (hne : ∀ x ∈ ids, x ≠ root)
    (hlt : ∀ x ∈ ids, x < t.size) : (copyNodes t ids).1 = t.size ∧
      Filling t (.element containerName []) (ids.map t.twig) (copyNodes t ids).2 := by
  rw [copyNodes_eq]
  exact copiesIn_spec h containerName [] fun x hx => ⟨hne x hx, hlt x hx⟩

/-! ## Giving way -/

/-- The nodes of a block may be worked on. -/
structure Owned (b : Block) (S : NodeId → Prop) (t : Tree) : Prop where
  startField : b.startField.Owned S t
  endField : b.endField.Owned S t
  startNode : S b.startNode ∧ b.startNode < t.size
  endNode : S b.endNode ∧ b.endNode < t.size
  body : ∀ x ∈ b.body, S x ∧ x ≠ root ∧ x < t.size

variable {S R : NodeId → Prop} {t u : Tree}

theorem Owned.inStore {b : Block} (hb : b.Owned S t) : ∀ x ∈ b.body, x ≠ root ∧ x < t.size := fun x hx => (hb.body x hx).2

theorem Owned.edited {S' R' : NodeId → Prop} {b : Block} (hb : b.Owned S t) (h : Edited S' R' t u) : b.Owned S u where
  startField a ha := ⟨(hb.startField a ha).1, h.hosts (hb.startField a ha).2⟩
  endField a ha := ⟨(hb.endField a ha).1, h.hosts (hb.endField a ha).2⟩
  startNode := ⟨hb.startNode.1, Nat.lt_of_lt_of_le hb.startNode.2 h.grows⟩
  endNode := ⟨hb.endNode.1, Nat.lt_of_lt_of_le hb.endNode.2 h.grows⟩
  body x hx := ⟨(hb.body x hx).1, (hb.body x hx).2.1, Nat.lt_of_lt_of_le (hb.body x hx).2.2 h.grows⟩

theorem Owned.mono {S' : NodeId → Prop} {b : Block} (hb : b.Owned S t) (hS : ∀ x, x < t.size → S x → S' x) : b.Owned S' t where
  startField a ha := ⟨hS a (hb.startField a ha).2.lt_size (hb.startField a ha).1, (hb.startField a ha).2⟩
  endField a ha := ⟨hS a (hb.endField a ha).2.lt_size (hb.endField a ha).1, (hb.endField a ha).2⟩
  startNode := ⟨hS _ hb.startNode.2 hb.startNode.1, hb.startNode.2⟩
  endNode := ⟨hS _ hb.endNode.2 hb.endNode.1, hb.endNode.2⟩
  body x hx := ⟨hS x (hb.body x hx).2.2 (hb.body x hx).1, (hb.body x hx).2⟩

/-- A boundary that is given up leaves with its node, or its field leaves, or nothing does. -/
theorem edited_releaseBoundary (h : Zone S R t) (b : Block) (f : Field) (id : NodeId) (l : Ledger)
    (hid : b.hasOwnBoundaries = true → (l.releaseNode id).1 = true → S id)
    (hf : (l.releaseField f).1 = true → ∀ a ∈ f.anchors, S a) : Edited S R t (b.releaseBoundary f id (t, l)).1 := by
  unfold releaseBoundary
  by_cases ho : b.hasOwnBoundaries = true
  · simp only [ho, if_true]
    split
    · next hfree => exact h.detach (hid ho hfree)
    · split
      · next hfree => exact h.detachAll (hf hfree)
      · exact .refl h
  · rw [Bool.not_eq_true] at ho
    simp only [ho, Bool.false_eq_true, if_false]
    split
    · next hfree => exact h.detachAll (hf hfree)
    · exact .refl h

/-- The content is put behind the start node, then all but the content may leave. -/
theorem edited_replace (h : Zone S R t) {b : Block} (hb : b.Owned S t) {content : List NodeId} (hc : ∀ c ∈ content, S c)
    (hi : Insertable t b.startNode content) (l : Ledger) : Edited S R t (b.replace content t l).1 := by
  have hins := h.insertAllAfter (fun p hp => h.upper p _ hp hb.startNode.1) hc hi
  unfold replace
  have hbody : Edited S R t (if b.kind = .image then t.insertAllAfter b.startNode content
      else (t.insertAllAfter b.startNode content).detachAll b.body) := by
    split
    · exact hins
    · exact hins.trans (hins.zone.detachAll fun x hx => (hb.body x hx).1)
  have hstart := edited_releaseBoundary hbody.zone b b.startField b.startNode l (fun _ _ => hb.startNode.1)
    fun _ a ha => (hb.startField a ha).1
  have hstop := edited_releaseBoundary hstart.zone b b.endField b.endNode
    (b.releaseBoundary b.startField b.startNode ((if b.kind = .image then t.insertAllAfter b.startNode content
      else (t.insertAllAfter b.startNode content).detachAll b.body), l)).2 (fun _ _ => hb.endNode.1)
    fun _ a ha => (hb.endField a ha).1
  exact (hbody.trans hstart).trans hstop

end MailMerge.Block
