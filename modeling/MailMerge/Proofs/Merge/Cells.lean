/-
  MailMerge.Proofs.Merge.Cells — table cells that are repaired.

  A cell without a paragraph of its own gets a new one. The paragraph is empty, so nothing
  in it is live, and no cell needs a second one.

  Proved: repairing leaves nothing live that was not live before (`idle_fillEmptyCells`),
  repairing again changes nothing (`fillEmptyCells_again`), and what is below a repaired node
  is what was there, with the paragraphs in its cells (`twig_fillEmptyCells`).
-/

import MailMerge.Proofs.Merge.Lifted
import MailMerge.Proofs.Splice.Inert
import MailMerge.Proofs.Tree.Padded

namespace MailMerge

open MailMerge.Tree

namespace Tree

/-- `u` comes from `t` by paragraphs put into cells. -/
structure Repaired (t u : Tree) : Prop where
  wellFormed : u.WellFormed
  stays : Stays t.size t u
  added : ∀ x, t.size ≤ x → x < u.size → u.isNamed Word.paragraph x = true
  kept : ∀ cell, t.HasParagraph cell → u.HasParagraph cell

variable {t : Tree}

/-- Afterwards there is no cell without a paragraph. -/
theorem repaired_fillEmptyCells (h : t.WellFormed) (id : NodeId) : Repaired t (t.fillEmptyCells id) ∧
    ∀ cell ∈ (t.descendants id).filter (t.isNamed Word.tableCell), (t.fillEmptyCells id).HasParagraph cell := by
  have hp := padded_fillEmptyCells h.isLinked id
  have hkept : ∀ cell, t.HasParagraph cell → (t.fillEmptyCells id).HasParagraph cell := by
    intro cell hpar
    have hlt : cell < t.size := let ⟨_, hx, _⟩ := hpar; lt_size_of_mem_children hx
    have hbare : cell ∉ t.bareCells id := fun hmem => (mem_bareCells.mp hmem).2 hpar
    rwa [hasParagraph_iff, hp.paragraph_iff h.isLinked hlt hbare, ← hasParagraph_iff]
  refine ⟨⟨(edited_fillEmptyCells h id).wellFormed, stays_fillEmptyCells t id, fun x hx hlt => hp.isNamed_made hx hlt, hkept⟩,
    fun cell hcell => ?_⟩
  by_cases hpar : t.HasParagraph cell
  · exact hkept cell hpar
  · exact hp.hasParagraph_of_mem (mem_bareCells.mpr ⟨List.mem_filter.mp hcell, hpar⟩)

/-- Repairing a second time changes nothing. -/
theorem fillEmptyCells_again (h : t.WellFormed) (id : NodeId) :
    (t.fillEmptyCells id).fillEmptyCells id = t.fillEmptyCells id := repaired_again h.isLinked id

/-- Empty paragraphs are not live. -/
theorem idle_fillEmptyCells {r : Registry} (h : t.WellFormed) {id : NodeId} (hidle : t.Idle r id) :
    (t.fillEmptyCells id).Idle r id := by
  obtain ⟨hrep, -⟩ := repaired_fillEmptyCells h id
  intro x hw hne hl
  by_cases hx : x < t.size
  · exact hidle x (hrep.stays.within h hx hw) hne (hrep.stays.live h hx hl)
  · have hp := hrep.added x (Nat.le_of_not_lt hx) (lt_size_of_within hw hne)
    cases hl with
    | element hn =>
      rw [not_isNamed_of_isNamed hp (by decide)] at hn
      cases hn
    | text _ _ hq =>
      rw [ownText_of_isElement (isElement_of_isNamed hp)] at hq
      exact hq r.quiet_empty

end Tree

/-! ## What the cells look like -/

namespace Twig

/-- Whether there is a paragraph among the twigs. -/
def hasParagraph (ws : List Twig) : Bool := ws.any fun w => w.kind.isNamed Word.paragraph

mutual

/-- The twig with an empty paragraph at the end of each cell that has no paragraph. -/
def repaired : Twig → Twig
  | node k ws => node k (if k.isNamed Word.tableCell && !hasParagraph ws then
      repairedAll ws ++ [node (.element Word.paragraph []) []] else repairedAll ws)

def repairedAll : List Twig → List Twig
  | [] => []
  | w :: ws => repaired w :: repairedAll ws

end

theorem repairedAll_eq (ws : List Twig) : repairedAll ws = ws.map repaired := by
  induction ws with
  | nil => rfl
  | cons w ws ih => rw [repairedAll, ih, List.map_cons]

end Twig

namespace Tree

theorem WellFormed.hasParagraph_iff {t : Tree} (h : t.WellFormed) {q : NodeId} :
    t.HasParagraph q ↔ Twig.hasParagraph ((t.children q).map t.twig) = true := by
  simp only [HasParagraph, Twig.hasParagraph, List.any_map, List.any_eq_true, Function.comp, h.twig_eq, Twig.kind, ← isNamed_eq]

variable {t : Tree}

/-- Below a repaired node everything is as before, but for the cells. -/
theorem twig_fillEmptyCells (h : t.WellFormed) {id x : NodeId} (hx : t.Within id x) (hne : x ≠ id) (hlt : x < t.size) :
    (t.fillEmptyCells id).twig x = (t.twig x).repaired := by
  have hs := padded_fillEmptyCells h.isLinked id
  have hw := (repaired_fillEmptyCells h id).1.wellFormed
  induction x using h.below_induction with
  | step x ih =>
    have hbelow : (t.children x).map (t.fillEmptyCells id).twig = Twig.repairedAll ((t.children x).map t.twig) := by
      rw [Twig.repairedAll_eq, List.map_map]
      refine List.map_congr_left fun c hc => ih c hc (within_trans hx (within_of_parent (h.parent_of_mem hc))) ?_
        (h.lt_size_of_mem hc)
      rintro rfl
      exact h.not_within_of_parent (h.parent_of_mem hc) hx
    rw [hw.twig_eq, h.twig_eq, Twig.repaired, hs.kind hlt, ← hbelow]
    congr 1
    split
    · next hcell =>
      obtain ⟨hnamed, hnone⟩ := Bool.and_eq_true_iff.mp hcell
      rw [← isNamed_eq] at hnamed
      have hmem : x ∈ t.bareCells id := mem_bareCells.mpr ⟨⟨h.mem_descendants.mpr ⟨hx, hne⟩, hnamed⟩, fun hpar => by
        rw [h.hasParagraph_iff.mp hpar] at hnone
        cases hnone⟩
      obtain ⟨p, hp, hk, hc⟩ := hs.exists_made hmem
      rw [hp, List.map_append, List.map_singleton, hw.twig_eq p, hk, hc]
      rfl
    · next hcell =>
      refine congrArg _ (hs.children_of_not_mem hlt fun hmem => hcell ?_)
      obtain ⟨⟨-, hnamed⟩, hnone⟩ := mem_bareCells.mp hmem
      rw [isNamed_eq] at hnamed
      rw [h.hasParagraph_iff, Bool.not_eq_true] at hnone
      rw [hnamed, hnone]
      rfl

end Tree

end MailMerge
