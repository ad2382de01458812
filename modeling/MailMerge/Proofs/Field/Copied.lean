/-
  MailMerge.Proofs.Field.Copied — the fields among the copies of a row.

  A body is merged on a copy, and the copy is scanned again. Where the row of copies ends there
  are no later siblings: a field that goes on behind the row in the document is cut there, and
  what begins before the row has no marker in it. Nothing else is lost and nothing is found
  that is not in the document, since a field reaches from the node around its begin marker to
  the first end marker behind it, and never further than that node's siblings.

  Proved: the fields among the copies are those of the document that stand in the row with
  their marker and all their anchors, in the same order and with the same spans
  (`fields_copiesIn`).
-/

import MailMerge.Proofs.Field.Renamed
import MailMerge.Proofs.Field.Spread
import MailMerge.Proofs.Tree.Spans

namespace MailMerge

open MailMerge.Tree

namespace Field

/-- The same field with other names for its nodes. -/
def relabelled (φ : NodeId → NodeId) (f : Field) : Field :=
  { f with marker := φ f.marker, first := φ f.first, others := f.others.map φ }

/-- Where the anchors have the same spans under the other names, the field has the same span. -/
theorem renamed_eq_relabelled {φ : NodeId → NodeId} {t u : Tree} {x : NodeId} {f : Field} (hf : ofMarker? t x = some f)
    (hspans : ∀ a ∈ f.anchors, u.span (φ a) = t.span a) : f.renamed φ u = f.relabelled φ := by
  have hlast : (f.others.map φ).getLastD (φ f.first) = φ f.last := last_renamed φ u f
  unfold renamed relabelled
  rw [hlast, hspans _ f.first_mem_anchors, hspans _ f.last_mem_anchors, ← span_of_ofMarker? hf]

end Field

namespace Tree

/-- Elements in a row are copied into a new element. Of the fields of the document those are
    found there of which the row holds the marker and all anchors, in their order, and they
    differ in the names of their nodes only. -/
theorem fields_copiesIn {t : Tree} (ht : t.WellFormed) {p : NodeId} {before ids after : List NodeId}
    (hrow : t.elementChildren p = before ++ (ids ++ after)) (hin : ∀ n ∈ ids, t.isAttached n = true)
    (hopen : ∀ n ∈ ids, t.isNamed Word.fieldChar n = false) (name : String) (attributes : List (String × String)) :
    ∃ φ, Duplicates t ids φ (t.copiesIn name attributes ids).2 ∧
      (t.copiesIn name attributes ids).2.children (t.copiesIn name attributes ids).1 = ids.map φ ∧
      (t.copiesIn name attributes ids).2.fields (t.copiesIn name attributes ids).1 =
        ((t.fields root).filter (Field.standsIn (ids.flatMap t.subtree))).map (Field.relabelled φ) := by
  have hchild : ∀ n ∈ ids, t.parent n = some p := fun n hn =>
    ht.parent_of_mem (List.mem_filter.mp (by rw [← elementChildren, hrow]; simp [hn] : n ∈ (t.children p).filter t.isElement)).1
  have hbelow : ∀ n ∈ ids, n ≠ root ∧ n < t.size := by
    intro n hn
    refine ⟨?_, lt_size_of_parent (hchild n hn)⟩
    rintro rfl
    cases ht.top.symm.trans (hchild root hn)
  have hids : ids.Pairwise fun a b => ∀ x, ¬ (t.Within a x ∧ t.Within b x) := by
    have hsub : ids.Sublist (t.children p) :=
      (hrow ▸ (List.sublist_append_left ids after).trans (List.sublist_append_right before _)).trans List.filter_sublist
    exact (pairwise_children ht p).sublist hsub
  obtain ⟨hfst, hfill⟩ := copiesIn_spec ht name attributes hbelow
  obtain ⟨φ, hφ, hchildren⟩ := exists_duplicates_copiesIn ht name attributes hbelow hids
  have hu := hfill.beyond.wellFormed
  have hhost : Hosted t ids φ (t.copiesIn name attributes ids).2 t.size := ⟨hφ.renames, hchildren, p, before, after, hrow⟩
  have hclosed : ∀ n ∈ ids, t.isMarker .opening n = false := fun n hn => by rw [isMarker, hopen n hn, Bool.false_and]
  refine ⟨φ, hφ, hfst ▸ hchildren, ?_⟩
  rw [hfst, hhost.fields ht hu (fun n hn => ⟨ht.isAttached_iff.mp (hin n hn), (hbelow n hn).1⟩) hclosed]
  refine List.map_congr_left fun f hf => ?_
  obtain ⟨hf, hstands⟩ := List.mem_filter.mp hf
  refine Field.renamed_eq_relabelled (mem_fields.mp hf).2.1 fun a ha => hφ.span a (ht.mem_subtrees.mp ?_)
  exact (Field.standsIn_iff.mp hstands).2 a ha

open FieldsInRuns in
/-- Of two fields in a paragraph the first is cut, before or behind its second run. The copies
    have the second field only, or none. -/
theorem fields_of_cut_rows : separate.WellFormed ∧
    separate.elementChildren 1 = [2] ++ ([7, 9] ++ []) ∧ separate.elementChildren 1 = [] ++ ([2] ++ [7, 9]) ∧
    ((separate.copiesIn Word.paragraph [] [7, 9]).2.fields (separate.copiesIn Word.paragraph [] [7, 9]).1).map
      (fun f => (f.expression, f.anchors.length)) = [("=b", 1)] ∧
    (separate.copiesIn Word.paragraph [] [2]).2.fields (separate.copiesIn Word.paragraph [] [2]).1 = [] := by
  have h : separate.WellFormed := wellFormed_of_earlier (by decide) (by decide) (by decide)
  have hbehind : separate.elementChildren 1 = [2] ++ ([7, 9] ++ []) := by decide
  have hfront : separate.elementChildren 1 = [] ++ ([2] ++ [7, 9]) := by decide
  have hfields : separate.fields root =
      [⟨3, "=a", 2, [7], .complex, true, .none⟩, ⟨10, "=b", 9, [], .complex, true, .none⟩] := by decide +kernel
  obtain ⟨φ, -, -, hsecond⟩ := fields_copiesIn h hbehind (by decide) (by decide) Word.paragraph []
  obtain ⟨ψ, -, -, hnone⟩ := fields_copiesIn h hfront (by decide) (by decide) Word.paragraph []
  refine ⟨h, hbehind, hfront, ?_, ?_⟩
  · have hkept : (separate.fields root).filter (Field.standsIn ([7, 9].flatMap separate.subtree)) =
        [⟨10, "=b", 9, [], .complex, true, .none⟩] := by
      rw [hfields]
      decide
    rw [hsecond, hkept]
    rfl
  · have hcut : (separate.fields root).filter (Field.standsIn ([2].flatMap separate.subtree)) = [] := by
      rw [hfields]
      decide
    rw [hnone, hcut]
    rfl

end Tree

end MailMerge
