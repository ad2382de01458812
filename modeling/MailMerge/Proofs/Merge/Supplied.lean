/-
  MailMerge.Proofs.Merge.Supplied — no merged part has a cell without a paragraph.

  Any statement may empty a cell, at any depth of tables, and a row that is copied brings cells
  of its own. None of this matters: a merge that goes through ends with the repair of the whole
  part, and whatever the statements did, they left its links fit together.

  Proved: every table cell of a merged part has a paragraph, and the repair gives one to each
  cell that lacks it and does nothing else and nothing twice (`cells_supplied`).
-/

import Mathlib
import MailMerge.Proofs.Merge.Ages
import MailMerge.Proofs.Tree.Padded

namespace MailMerge

namespace Tree

variable {t : Tree}

theorem hasParagraph_of_merged (h : t.Linked) {r : Registry} {env : Environment} (hmerge : (t.merge r env).outcome = .ok ())
    {cell : NodeId} (hcell : cell ∈ (t.merge r env).tree.descendants root)
    (hn : (t.merge r env).tree.isNamed Word.tableCell cell = true) : (t.merge r env).tree.HasParagraph cell := by
  obtain ⟨last, hrun, htree, -⟩ := merge_eq_ok hmerge
  have hlast := Merge.ages_below r (Merge.levelBound (t.markers root)) root t.size ⟨t, env, Ledger.empty⟩ h.aged (Nat.zero_le _)
  rw [hrun] at hlast
  have hlinked : last.tree.Linked := hlast.aged.linked
  rw [htree] at hcell hn ⊢
  exact hasParagraph_of_repaired hlinked hcell hn

/-- A part that is merged has a paragraph in each of its table cells; the repair gives one to
    those that lack it, and does nothing else and nothing twice. -/
theorem cells_supplied (h : t.Linked) :
    (∀ (r : Registry) (env : Environment), (t.merge r env).outcome = .ok () → ∀ cell ∈ (t.merge r env).tree.descendants root,
      (t.merge r env).tree.isNamed Word.tableCell cell = true → (t.merge r env).tree.HasParagraph cell) ∧
    ∀ id, Padded t (t.bareCells id) (t.fillEmptyCells id) ∧
      (t.fillEmptyCells id).fillEmptyCells id = t.fillEmptyCells id :=
  ⟨fun _ _ hmerge _ hcell hn => hasParagraph_of_merged h hmerge hcell hn,
    fun id => ⟨padded_fillEmptyCells h id, repaired_again h id⟩⟩

namespace NestedTable

/-- A row for each item, with a table in its cell that has an empty cell. -/
def part : Tree :=
  ⟨#[⟨.container, none, [1], .none⟩, ⟨.element "w:tbl" [], some 0, [2, 6, 11], .none⟩,
    ⟨.element Word.tableRow [], some 1, [3], .none⟩, ⟨.element Word.tableCell [], some 2, [4], .none⟩,
    ⟨.element Word.paragraph [], some 3, [5], .none⟩,
    ⟨.element Word.simpleField [(Word.fieldInstruction, "MERGEFIELD xs:each(x)")], some 4, [], .none⟩,
    ⟨.element Word.tableRow [], some 1, [7], .none⟩, ⟨.element Word.tableCell [], some 6, [8], .none⟩,
    ⟨.element "w:tbl" [], some 7, [9], .none⟩, ⟨.element Word.tableRow [], some 8, [10], .none⟩,
    ⟨.element Word.tableCell [], some 9, [], .none⟩,
    ⟨.element Word.tableRow [], some 1, [12], .none⟩, ⟨.element Word.tableCell [], some 11, [13], .none⟩,
    ⟨.element Word.paragraph [], some 12, [14], .none⟩,
    ⟨.element Word.simpleField [(Word.fieldInstruction, "MERGEFIELD xs:endEach")], some 13, [], .none⟩]⟩

def env : Environment := ⟨[("xs", .list [.integer 1, .integer 2])], [], .lenient, .empty⟩

theorem linked_part : part.Linked := linked_of_earlier (by decide) (by decide) (by decide)

end NestedTable

open NestedTable in
/-- In both copies of the row the inner cell and the outer one are given a paragraph. -/
theorem nested_cells_supplied : part.Linked ∧ (part.merge Registry.stock env).outcome = .ok () ∧
    (part.merge Registry.stock env).tree.toMarkup = "<w:tbl>" ++
      "<w:tr><w:tc><w:tbl><w:tr><w:tc><w:p/></w:tc></w:tr></w:tbl><w:p/></w:tc></w:tr>" ++
      "<w:tr><w:tc><w:tbl><w:tr><w:tc><w:p/></w:tc></w:tr></w:tbl><w:p/></w:tc></w:tr>" ++ "</w:tbl>" ∧
    ∀ cell ∈ (part.merge Registry.stock env).tree.descendants root,
      (part.merge Registry.stock env).tree.isNamed Word.tableCell cell = true →
        (part.merge Registry.stock env).tree.HasParagraph cell := by
  have hmerge : (part.merge Registry.stock env).outcome = .ok () := by cbv
  exact ⟨linked_part, hmerge, by cbv, (cells_supplied linked_part).1 _ _ hmerge⟩

end Tree

end MailMerge
