/-
  MailMerge.Proofs.Block.Renumbered — the blocks of a tree in the store of another.

  What two fields enclose is found by going up to rows and paragraphs and along siblings, and a
  ledger counts nodes. Both go by the same numbers, so where the tree is held under other numbers
  a block is made, copied, counted and given up as it is in the tree.

  Proved: that, one lemma for each step that a block takes.
-/

import MailMerge.Proofs.Block.Edits
import MailMerge.Proofs.Splice.Renumbered

namespace MailMerge

open MailMerge.Tree

variable {ρ : NodeId → NodeId} {t u : Tree}

/-- The block where its nodes have other numbers. -/
def Block.renumber (ρ : NodeId → NodeId) (b : Block) : Block :=
  ⟨b.kind, b.startField.renumber ρ, b.endField.renumber ρ, ρ b.startNode, ρ b.endNode, b.body.map ρ⟩

/-! ## References -/

namespace Ledger

/-- The references where the nodes have other numbers. -/
def renumber (ρ : NodeId → NodeId) (l : Ledger) : Ledger := ⟨l.fields.map ρ, l.nodes.map ρ, l.pinned.map ρ⟩

theorem renumber_refer (l : Ledger) (b : Block) : (l.renumber ρ).refer (b.renumber ρ) = (l.refer b).renumber ρ := rfl

theorem renumber_pinParagraph (h : Renumbered ρ t u) (ht : t.WellFormed) (l : Ledger) (f : Field) :
    pinParagraph u (l.renumber ρ) (f.renumber ρ) = (pinParagraph t l f).renumber ρ := by
  unfold pinParagraph
  rw [h.ancestor? ht]
  cases f.ancestor? t Word.paragraph <;> rfl

theorem renumber_hold (h : Renumbered ρ t u) (ht : t.WellFormed) (l : Ledger) (b : Block) :
    (l.renumber ρ).hold u (b.renumber ρ) = (l.hold t b).renumber ρ := by
  have hown : (b.renumber ρ).hasOwnBoundaries = b.hasOwnBoundaries := rfl
  unfold hold
  rw [hown]
  split
  · rfl
  · exact (congrArg (pinParagraph u · (b.endField.renumber ρ)) (renumber_pinParagraph h ht l b.startField)).trans
      (renumber_pinParagraph h ht _ b.endField)

theorem renumber_releaseField (hρ : Function.Injective ρ) (l : Ledger) (f : Field) :
    (l.renumber ρ).releaseField (f.renumber ρ) = ((l.releaseField f).1, (l.releaseField f).2.renumber ρ) := by
  have herase : (l.fields.map ρ).erase (ρ f.marker) = (l.fields.erase f.marker).map ρ := (List.map_erase hρ l.fields).symm
  unfold releaseField
  show (((l.fields.map ρ).erase (ρ f.marker)).count (ρ f.marker) == 0,
    (⟨(l.fields.map ρ).erase (ρ f.marker), l.nodes.map ρ, l.pinned.map ρ⟩ : Ledger)) = _
  rw [herase, List.count_map_of_injective _ ρ hρ]
  rfl

theorem renumber_releaseNode (hρ : Function.Injective ρ) (l : Ledger) (id : NodeId) :
    (l.renumber ρ).releaseNode (ρ id) = ((l.releaseNode id).1, (l.releaseNode id).2.renumber ρ) := by
  have herase : (l.nodes.map ρ).erase (ρ id) = (l.nodes.erase id).map ρ := (List.map_erase hρ l.nodes).symm
  have hpinned : (l.pinned.map ρ).contains (ρ id) = l.pinned.contains id := by
    rw [Bool.eq_iff_iff, List.contains_iff_mem, List.contains_iff_mem, List.mem_map_of_injective hρ]
  unfold releaseNode
  show (((l.nodes.map ρ).erase (ρ id)).count (ρ id) == 0 && !(l.pinned.map ρ).contains (ρ id),
    (⟨l.fields.map ρ, (l.nodes.map ρ).erase (ρ id), l.pinned.map ρ⟩ : Ledger)) = _
  rw [herase, List.count_map_of_injective _ ρ hρ, hpinned]
  rfl

end Ledger

namespace Block

theorem nodes_renumber (hρ : Function.Injective ρ) (b : Block) : (b.renumber ρ).nodes = b.nodes.map ρ := by
  have hends : (ρ b.endNode = ρ b.startNode) ↔ b.endNode = b.startNode := ⟨fun he => hρ he, congrArg ρ⟩
  show ρ b.startNode :: b.body.map ρ ++ (if ρ b.endNode = ρ b.startNode then [] else [ρ b.endNode]) = _
  unfold nodes
  rw [List.map_append, List.map_cons]
  simp only [hends]
  split <;> rfl

/-! ## What two fields enclose -/

section ends

variable (h : Renumbered ρ t u)

include h

theorem areSiblings_renumber (a b : NodeId) : areSiblings u (ρ a) (ρ b) = areSiblings t a b := by
  have hparents : (u.parent (ρ a) == u.parent (ρ b)) = (t.parent a == t.parent b) := by
    rw [Bool.eq_iff_iff, beq_iff_eq, beq_iff_eq, h.parent, h.parent, (Option.map_injective h.injective).eq_iff]
  rw [areSiblings, areSiblings, h.ne_iff, hparents]

theorem between?_renumber (a b : NodeId) : between? u (ρ a) (ρ b) = (between? t a b).map (List.map ρ) := by
  unfold between?
  rw [h.laterElements]
  simp only [h.contains_map, List.takeWhile_map, h.ne_comp, h.eq_iff]
  split
  · rfl
  · split <;> rfl

variable (ht : t.WellFormed) (start stop : Field)

include ht

theorem imageEnds_renumber :
    imageEnds u (start.renumber ρ) (stop.renumber ρ) = Prod.map ρ ρ (imageEnds t start stop) := by
  have hgetD : ∀ (o : Option NodeId) (a : NodeId), (o.map ρ).getD (ρ a) = ρ (o.getD a) := fun o a => by cases o <;> rfl
  unfold imageEnds
  rw [h.ancestor? ht, h.ancestor? ht, Field.last_renumber]
  exact congrArg₂ Prod.mk (hgetD _ _) (hgetD _ _)

theorem rowEnds?_renumber : rowEnds? u (start.renumber ρ) (stop.renumber ρ) = (rowEnds? t start stop).map (Prod.map ρ ρ) := by
  unfold rowEnds?
  rw [h.ancestor? ht, h.ancestor? ht]
  cases start.ancestor? t Word.tableRow with
  | none => rfl
  | some s =>
    cases stop.ancestor? t Word.tableRow with
    | none => rfl
    | some e =>
      simp only [Option.map_some, Option.bind_eq_bind, Option.bind_some, areSiblings_renumber h]
      split <;> rfl

theorem paragraphEnds?_renumber : paragraphEnds? u (start.renumber ρ) (stop.renumber ρ) =
    (paragraphEnds? t start stop).map (Prod.map id (Prod.map ρ ρ)) := by
  unfold paragraphEnds?
  rw [h.ancestor? ht, h.ancestor? ht, Field.last_renumber]
  cases start.ancestor? t Word.paragraph with
  | none => rfl
  | some s =>
    cases stop.ancestor? t Word.paragraph with
    | none => rfl
    | some e =>
      simp only [Option.map_some, Option.bind_eq_bind, Option.bind_some, areSiblings_renumber h, h.eq_iff]
      split
      · rfl
      · split <;> rfl

theorem ends?_renumber :
    ends? u (start.renumber ρ) (stop.renumber ρ) = (ends? t start stop).map (Prod.map id (Prod.map ρ ρ)) := by
  have hexpression : (start.renumber ρ).expression = start.expression := rfl
  unfold ends?
  rw [hexpression, imageEnds_renumber h ht, rowEnds?_renumber h ht, paragraphEnds?_renumber h ht]
  split
  · rfl
  · cases rowEnds? t start stop <;> rfl

/-- The fields enclose the same block. -/
theorem resolve?_renumber :
    resolve? u (start.renumber ρ) (stop.renumber ρ) = (resolve? t start stop).map (Block.renumber ρ) := by
  unfold resolve?
  rw [ends?_renumber h ht]
  cases ends? t start stop with
  | none => rfl
  | some ends =>
    obtain ⟨kind, s, e⟩ := ends
    simp only [Option.map_some, Prod.map, Option.bind_eq_bind, Option.bind_some, between?_renumber h, id]
    cases between? t s e with
    | some body => rfl
    | none =>
      simp only [Option.map_none]
      split <;> rfl

theorem enclose_renumber (nested : Bool) (l : Ledger) :
    enclose u nested (l.renumber ρ) (start.renumber ρ) (stop.renumber ρ) =
      (enclose t nested l start stop).map (Prod.map (Block.renumber ρ) (Ledger.renumber ρ)) := by
  unfold enclose
  rw [resolve?_renumber h ht]
  cases resolve? t start stop with
  | none => rfl
  | some b =>
    simp only [Option.map_some, Ledger.renumber_refer]
    cases nested with
    | true => rfl
    | false => exact congrArg (fun l => Except.ok (b.renumber ρ, l)) (Ledger.renumber_hold h ht _ b)

end ends

/-! ## Copies -/

/-- Copies of nodes of the tree are put in a new node. -/
theorem renumbered_copyNodes (h : Renumbered ρ t u) (ht : t.WellFormed) {ids : List NodeId} (hids : ∀ x ∈ ids, x ≠ root ∧ x < t.size) :
    (copyNodes u (ids.map ρ)).1 = ρ (copyNodes t ids).1 ∧ Renumbered ρ (copyNodes t ids).2 (copyNodes u (ids.map ρ)).2 := by
  have hnew := (fenced_zero ht).create (.element containerName []) .none
  have hhost : Hosts (t.create (.element containerName []) .none).2 t.size := hosts_of_isElement (isElement_create t _ _ _)
  -- the copies come one by one, each in a well-formed tree that hosts the new node
  have hfold : ∀ {v w : Tree}, Renumbered ρ v w → Edited (fun x => 0 ≤ x) (fun x => 0 ≤ x) t v → Hosts v t.size →
      Renumbered ρ (ids.foldl (fun v id => (v.deepCopy id).2.appendChild t.size (v.deepCopy id).1) v)
        ((ids.map ρ).foldl (fun w id => (w.deepCopy id).2.appendChild u.size (w.deepCopy id).1) w) := by
    induction ids with
    | nil => exact fun hvw _ _ => hvw
    | cons x ids ih =>
      intro v w hvw hv hc
      obtain ⟨hne, hlt⟩ := hids x List.mem_cons_self
      have hcopy := deepCopy_spec hv.wellFormed hne
      have hed := hcopy.beyond.edited hv.zone hv.zone.fresh
      have hput := hed.zone.appendChild (Nat.zero_le _) (Nat.zero_le _) (hcopy.movable hv.wellFormed hc)
      obtain ⟨hfst, hmade⟩ := hvw.deepCopy hv.wellFormed (Nat.lt_of_lt_of_le hlt hv.grows)
      have hone := hmade.appendChild t.size (v.deepCopy x).1
      rw [← hfst, h.size_eq] at hone
      exact ih (fun y hy => hids y (List.mem_cons_of_mem x hy)) hone ((hv.trans hed).trans hput) (hput.hosts (hed.hosts hc))
  exact ⟨h.size_eq.symm, hfold (h.create _ _) hnew hhost⟩

theorem renumbered_takeChildren (h : Renumbered ρ t u) (container : NodeId) :
    (takeChildren (ρ container) u).1 = (takeChildren container t).1.map ρ ∧
      Renumbered ρ (takeChildren container t).2 (takeChildren (ρ container) u).2 := by
  have hchildren := h.children container
  refine ⟨hchildren, ?_⟩
  show Renumbered ρ (t.detachAll (t.children container)) (u.detachAll (u.children (ρ container)))
  rw [hchildren]
  exact h.detachAll _

/-! ## Giving way -/

theorem renumbered_releaseBoundary (h : Renumbered ρ t u) (b : Block) (f : Field) (id : NodeId) (l : Ledger) :
    ((b.renumber ρ).releaseBoundary (f.renumber ρ) (ρ id) (u, l.renumber ρ)).2 = (b.releaseBoundary f id (t, l)).2.renumber ρ ∧
      Renumbered ρ (b.releaseBoundary f id (t, l)).1 ((b.renumber ρ).releaseBoundary (f.renumber ρ) (ρ id) (u, l.renumber ρ)).1 := by
  have hown : (b.renumber ρ).hasOwnBoundaries = b.hasOwnBoundaries := rfl
  unfold releaseBoundary
  simp only [hown, Ledger.renumber_releaseField h.injective, Ledger.renumber_releaseNode h.injective]
  cases b.hasOwnBoundaries with
  | true =>
    simp only [if_true]
    split
    · exact ⟨rfl, h.detach id⟩
    · split
      · exact ⟨rfl, h.remove f⟩
      · exact ⟨rfl, h⟩
  | false =>
    simp only [Bool.false_eq_true, if_false]
    split
    · exact ⟨rfl, h.remove f⟩
    · exact ⟨rfl, h⟩

theorem renumbered_replace (h : Renumbered ρ t u) (b : Block) (content : List NodeId) (l : Ledger) :
    ((b.renumber ρ).replace (content.map ρ) u (l.renumber ρ)).2 = (b.replace content t l).2.renumber ρ ∧
      Renumbered ρ (b.replace content t l).1 ((b.renumber ρ).replace (content.map ρ) u (l.renumber ρ)).1 := by
  have hkind : (b.renumber ρ).kind = b.kind := rfl
  have hput := h.insertAllAfter b.startNode content
  have hbody : Renumbered ρ (if b.kind = .image then t.insertAllAfter b.startNode content
      else (t.insertAllAfter b.startNode content).detachAll b.body)
      (if b.kind = .image then u.insertAllAfter (ρ b.startNode) (content.map ρ)
        else (u.insertAllAfter (ρ b.startNode) (content.map ρ)).detachAll (b.body.map ρ)) := by
    split
    · exact hput
    · exact hput.detachAll b.body
  obtain ⟨hstartLedger, hstart⟩ := renumbered_releaseBoundary hbody b b.startField b.startNode l
  have hend := renumbered_releaseBoundary hstart b b.endField b.endNode
    (b.releaseBoundary b.startField b.startNode (if b.kind = .image then t.insertAllAfter b.startNode content
      else (t.insertAllAfter b.startNode content).detachAll b.body, l)).2
  rw [← hstartLedger] at hend
  unfold replace
  rw [hkind]
  exact hend

end Block

end MailMerge
