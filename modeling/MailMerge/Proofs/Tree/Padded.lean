/-
  MailMerge.Proofs.Tree.Padded — table cells that are given a paragraph.

  The cells below a node are listed before the first of them is looked at, and each is given
  a paragraph if it has none by then. Giving one cell a paragraph changes that cell alone and
  adds one node at the end of the store, so whether a cell has a paragraph is what it was at
  the start, and the new nodes are numbered as the cells stand in the document.

  Proved: what each node of the store is afterwards (`padded_fillEmptyCells`), that no cell is
  then without a paragraph (`hasParagraph_of_repaired`), and so that nothing is left to a second
  repair (`repaired_again`). All that is asked of the tree is that its links fit together.
-/

import MailMerge.Proofs.Tree.Ages

namespace MailMerge.Tree

/-- There is a paragraph directly below the node. -/
def HasParagraph (t : Tree) (cell : NodeId) : Prop := ∃ x ∈ t.children cell, t.isNamed Word.paragraph x = true

theorem hasParagraph_iff {t : Tree} {cell : NodeId} :
    t.HasParagraph cell ↔ (t.elementChildren cell).any (t.isNamed Word.paragraph) = true := by
  simp only [HasParagraph, elementChildren, List.any_eq_true, List.mem_filter]
  constructor
  · rintro ⟨x, hx, hn⟩
    exact ⟨x, ⟨hx, isElement_of_isNamed hn⟩, hn⟩
  · rintro ⟨x, ⟨hx, -⟩, hn⟩
    exact ⟨x, hx, hn⟩

/-- The table cells below a node that have no paragraph of their own, in document order. -/
def bareCells (t : Tree) (id : NodeId) : List NodeId :=
  ((t.descendants id).filter (t.isNamed Word.tableCell)).filter fun x =>
    !(t.elementChildren x).any (t.isNamed Word.paragraph)

theorem mem_bareCells {t : Tree} {id cell : NodeId} : cell ∈ t.bareCells id ↔
    (cell ∈ t.descendants id ∧ t.isNamed Word.tableCell cell = true) ∧ ¬ t.HasParagraph cell := by
  rw [bareCells, List.mem_filter, List.mem_filter, hasParagraph_iff, Bool.not_eq_true, Bool.not_eq_true']

/-- `u` is `t` with a new empty paragraph at the end of each of the cells, and nothing else. -/
structure Padded (t : Tree) (cells : List NodeId) (u : Tree) : Prop where
  size : u.size = t.size + cells.length
  others : ∀ x < t.size, x ∉ cells → u.node x = t.node x
  filled : ∀ i (h : i < cells.length), u.node cells[i] = { t.node cells[i] with children := t.children cells[i] ++ [t.size + i] }
  made : ∀ i (h : i < cells.length), u.node (t.size + i) = ⟨.element Word.paragraph [], some cells[i], [], .none⟩

variable {t u : Tree} {cell : NodeId}

/-! ## One cell -/

theorem fillCell_of_paragraph (h : (t.elementChildren cell).any (t.isNamed Word.paragraph) = true) :
    fillEmptyCells.fillCell t cell = t := by
  rw [fillEmptyCells.fillCell, if_pos h]

theorem fillCell_of_bare (h : (t.elementChildren cell).any (t.isNamed Word.paragraph) = false) :
    fillEmptyCells.fillCell t cell = ((t.createElement Word.paragraph).2.setParent t.size (some cell)).mapChildren cell (· ++ [t.size]) := by
  have hloose : (t.createElement Word.paragraph).2.parent t.size = none := by
    rw [createElement, parent_create, parent_of_size_le (Nat.le_refl _)]
  rw [fillEmptyCells.fillCell, if_neg (by simp [h])]
  show ((t.createElement Word.paragraph).2.appendChild cell t.size) = _
  rw [appendChild, detach_of_parent_none hloose]

theorem size_fillCell_of_bare (h : (t.elementChildren cell).any (t.isNamed Word.paragraph) = false) :
    (fillEmptyCells.fillCell t cell).size = t.size + 1 := by
  rw [fillCell_of_bare h, size_mapChildren, size_setParent, createElement, size_create]

theorem node_fillCell_of_bare (h : (t.elementChildren cell).any (t.isNamed Word.paragraph) = false) (hcell : cell < t.size)
    (x : NodeId) : (fillEmptyCells.fillCell t cell).node x =
      if x = t.size then ⟨.element Word.paragraph [], some cell, [], .none⟩
      else if x = cell then { t.node cell with children := t.children cell ++ [t.size] } else t.node x := by
  rw [fillCell_of_bare h, mapChildren, node_update, setParent, node_update, createElement, node_create, size_update, size_create]
  by_cases hnew : x = t.size
  · subst hnew
    simp [Nat.ne_of_gt hcell, lone]
  · by_cases hx : x = cell
    · subst hx
      simp [hnew, Nat.lt_succ_of_lt hcell, children]
    · simp [hnew, hx]

/-! ## All of them -/

namespace Padded

variable {cells : List NodeId}

theorem refl (t : Tree) : Padded t [] t :=
  ⟨rfl, fun _ _ _ => rfl, fun _ h => absurd h (Nat.not_lt_zero _), fun _ h => absurd h (Nat.not_lt_zero _)⟩

/-- Outside their children the old nodes are as they were. -/
theorem kind (h : Padded t cells u) {x : NodeId} (hx : x < t.size) : u.kind x = t.kind x := by
  by_cases hmem : x ∈ cells
  · obtain ⟨i, hi, rfl⟩ := List.getElem_of_mem hmem
    rw [Tree.kind, h.filled i hi]
    rfl
  · rw [Tree.kind, h.others x hx hmem, Tree.kind]

theorem parent (h : Padded t cells u) {x : NodeId} (hx : x < t.size) : u.parent x = t.parent x := by
  by_cases hmem : x ∈ cells
  · obtain ⟨i, hi, rfl⟩ := List.getElem_of_mem hmem
    rw [Tree.parent, h.filled i hi]
    rfl
  · rw [Tree.parent, h.others x hx hmem, Tree.parent]

theorem children_of_not_mem (h : Padded t cells u) {x : NodeId} (hx : x < t.size) (hmem : x ∉ cells) :
    u.children x = t.children x := by
  rw [Tree.children, h.others x hx hmem, Tree.children]

theorem exists_made (h : Padded t cells u) (hmem : cell ∈ cells) : ∃ x, u.children cell = t.children cell ++ [x] ∧
    u.kind x = .element Word.paragraph [] ∧ u.children x = [] := by
  obtain ⟨i, hi, rfl⟩ := List.getElem_of_mem hmem
  refine ⟨t.size + i, ?_, ?_, ?_⟩
  · rw [Tree.children, h.filled i hi]
  · rw [Tree.kind, h.made i hi]
  · rw [Tree.children, h.made i hi]

/-- What is new is a paragraph. -/
theorem isNamed_made (h : Padded t cells u) {x : NodeId} (hle : t.size ≤ x) (hlt : x < u.size) :
    u.isNamed Word.paragraph x = true := by
  obtain ⟨i, rfl⟩ := Nat.exists_eq_add_of_le hle
  have hi : i < cells.length := Nat.lt_of_add_lt_add_left (h.size ▸ hlt)
  rw [isNamed, name?, Tree.kind, h.made i hi]
  rfl

/-- A cell that has not been given a paragraph has one if it had one. -/
theorem paragraph_iff (h : Padded t cells u) (ht : t.Linked) (hcell : cell < t.size) (hmem : cell ∉ cells) :
    (u.elementChildren cell).any (u.isNamed Word.paragraph) = (t.elementChildren cell).any (t.isNamed Word.paragraph) := by
  have hkind : ∀ x ∈ t.children cell, u.kind x = t.kind x := fun x hx =>
    h.kind (ht.inStore cell x (ht.parent_of_mem hx)).2
  rw [elementChildren, elementChildren, h.children_of_not_mem hcell hmem, List.any_filter, List.any_filter]
  rw [Bool.eq_iff_iff, List.any_eq_true, List.any_eq_true]
  refine exists_congr fun x => and_congr_right fun hx => ?_
  rw [isElement_congr (hkind x hx), isNamed_congr (hkind x hx)]

theorem hasParagraph_of_mem (h : Padded t cells u) (hmem : cell ∈ cells) : u.HasParagraph cell := by
  obtain ⟨x, hx, hk, -⟩ := h.exists_made hmem
  refine ⟨x, hx ▸ List.mem_append_right _ (List.mem_singleton_self x), ?_⟩
  rw [isNamed, name?, hk]
  rfl

/-- What stands within a node stood there before, if it is not new. -/
theorem within (h : Padded t cells u) (ht : t.Linked) {a d : NodeId} (hd : d < t.size) (hw : u.Within a d) : t.Within a d := by
  induction hw with
  | refl => exact within_refl t a
  | tail _ hp ih =>
    rw [h.parent hd] at hp
    exact within_parent (ih (ht.parent_lt_size hp)) hp

/-- One more cell is given a paragraph. -/
theorem fillCell (h : Padded t cells u) (hin : ∀ x ∈ cells, x < t.size) (hcell : cell < t.size) (hmem : cell ∉ cells)
    (hbare : (u.elementChildren cell).any (u.isNamed Word.paragraph) = false) :
    Padded t (cells ++ [cell]) (fillEmptyCells.fillCell u cell) := by
  have hgrown : t.size ≤ u.size := h.size ▸ Nat.le_add_right _ _
  have hnode := node_fillCell_of_bare hbare (Nat.lt_of_lt_of_le hcell hgrown)
  have hold : ∀ x < t.size, x ≠ u.size := fun x hx => Nat.ne_of_lt (Nat.lt_of_lt_of_le hx hgrown)
  have hsame : u.node cell = t.node cell := h.others cell hcell hmem
  refine ⟨?_, fun x hx hout => ?_, fun i hi => ?_, fun i hi => ?_⟩
  · rw [size_fillCell_of_bare hbare, h.size, List.length_append]
    rfl
  · rw [List.mem_append, List.mem_singleton, not_or] at hout
    rw [hnode, if_neg (hold x hx), if_neg hout.2, h.others x hx hout.1]
  · rcases Nat.lt_or_eq_of_le (Nat.le_of_lt_succ (by simpa using hi)) with hlt | rfl
    · have hne : cells[i] ≠ cell := fun he => hmem (he ▸ List.getElem_mem hlt)
      rw [List.getElem_append_left hlt, hnode, if_neg (hold _ (hin _ (List.getElem_mem hlt))), if_neg hne, h.filled i hlt]
    · rw [List.getElem_concat_length rfl, hnode, if_neg (hold cell hcell), if_pos rfl, hsame, h.size, Tree.children, hsame]
      rfl
  · rcases Nat.lt_or_eq_of_le (Nat.le_of_lt_succ (by simpa using hi)) with hlt | rfl
    · have hne : t.size + i ≠ cell := Nat.ne_of_gt (Nat.lt_of_lt_of_le hcell (Nat.le_add_right _ _))
      have hlast : t.size + i ≠ u.size := by
        rw [h.size]
        exact fun he => absurd (Nat.add_left_cancel he) (Nat.ne_of_lt hlt)
      rw [List.getElem_append_left hlt, hnode, if_neg hlast, if_neg hne, h.made i hlt]
    · rw [List.getElem_concat_length rfl, hnode, if_pos h.size.symm]

end Padded

/-- The cells that are bare at the start are those that are given a paragraph. -/
theorem padded_fillEmptyCells (h : t.Linked) (id : NodeId) : Padded t (t.bareCells id) (t.fillEmptyCells id) := by
  have hfold : ∀ (rest done : List NodeId) (u : Tree), (∀ x ∈ done ++ rest, x < t.size) → (done ++ rest).Nodup →
      Padded t done u → Padded t (done ++ rest.filter fun x => !(t.elementChildren x).any (t.isNamed Word.paragraph))
        (rest.foldl fillEmptyCells.fillCell u) := by
    intro rest
    induction rest with
    | nil => exact fun done u _ _ hu => by rwa [List.filter_nil, List.append_nil]
    | cons cell rest ih =>
      intro done u hin hnodup hu
      have hcell : cell < t.size := hin cell (by simp)
      obtain ⟨hdone, hrest, hapart⟩ := List.nodup_append.mp hnodup
      have hmem : cell ∉ done := fun hm => hapart cell hm cell List.mem_cons_self rfl
      have hpar := hu.paragraph_iff h hcell hmem
      rw [List.foldl_cons]
      cases hbare : (t.elementChildren cell).any (t.isNamed Word.paragraph) with
      | true =>
        rw [fillCell_of_paragraph (hpar.trans hbare), List.filter_cons_of_neg (by simp [hbare])]
        refine ih done u (fun x hx => hin x ?_) (hnodup.sublist ?_) hu
        · rcases List.mem_append.mp hx with hx | hx
          · exact List.mem_append_left _ hx
          · exact List.mem_append_right _ (List.mem_cons_of_mem cell hx)
        · exact (List.sublist_cons_self cell rest).append_left done
      | false =>
        have hone := hu.fillCell (fun x hx => hin x (List.mem_append_left _ hx)) hcell hmem (hpar.trans hbare)
        rw [List.filter_cons_of_pos (by simp [hbare])]
        simpa using ih (done ++ [cell]) _ (by simpa using hin) (by simpa using hnodup) hone
  refine hfold _ [] t (fun x hx => ?_) ?_ (.refl t)
  · exact lt_size_of_isNamed (List.mem_filter.mp hx).2
  · exact (List.nodup_cons.mp (h.nodup_subtree id)).2.filter (t.isNamed Word.tableCell)

/-- A cell that is found when all are repaired was there before and has a paragraph. -/
theorem hasParagraph_of_repaired (h : t.Linked) {id : NodeId} (hcell : cell ∈ (t.fillEmptyCells id).descendants id)
    (hn : (t.fillEmptyCells id).isNamed Word.tableCell cell = true) : (t.fillEmptyCells id).HasParagraph cell := by
  have hp := padded_fillEmptyCells h id
  have hu : (t.fillEmptyCells id).Linked := (h.aged.fillEmptyCells id).aged.linked
  -- what is new is a paragraph
  have hlt : cell < t.size := by
    by_contra hle
    have hnew := hp.isNamed_made (Nat.le_of_not_lt hle) (lt_size_of_isNamed hn)
    rw [not_isNamed_of_isNamed hnew (by decide)] at hn
    cases hn
  by_cases hbare : cell ∈ t.bareCells id
  · exact hp.hasParagraph_of_mem hbare
  · have hne : cell ≠ id := fun he => (List.nodup_cons.mp (hu.nodup_subtree id)).1 (he ▸ hcell)
    have hw := hp.within h hlt (hu.within_of_mem_descendants hcell)
    have hmem : cell ∈ t.descendants id := (List.mem_cons.mp (h.mem_subtree.mpr hw)).resolve_left hne
    rw [isNamed_congr (hp.kind hlt)] at hn
    rw [hasParagraph_iff, hp.paragraph_iff h hlt hbare, ← hasParagraph_iff]
    by_contra hnone
    exact hbare (mem_bareCells.mpr ⟨⟨hmem, hn⟩, hnone⟩)

theorem repaired_again (h : t.Linked) (id : NodeId) : (t.fillEmptyCells id).fillEmptyCells id = t.fillEmptyCells id := by
  have hcells : ∀ cell ∈ ((t.fillEmptyCells id).descendants id).filter ((t.fillEmptyCells id).isNamed Word.tableCell),
      (t.fillEmptyCells id).HasParagraph cell := fun cell hcell =>
    hasParagraph_of_repaired h (List.mem_filter.mp hcell).1 (List.mem_filter.mp hcell).2
  generalize t.fillEmptyCells id = u at hcells
  rw [fillEmptyCells]
  generalize (u.descendants id).filter (u.isNamed Word.tableCell) = cells at hcells
  induction cells with
  | nil => rfl
  | cons cell cells ih =>
    rw [List.foldl_cons, fillCell_of_paragraph (hasParagraph_iff.mp (hcells cell List.mem_cons_self))]
    exact ih fun x hx => hcells x (List.mem_cons_of_mem cell hx)

end MailMerge.Tree
