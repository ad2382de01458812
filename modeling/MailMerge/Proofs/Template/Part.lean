/-
  MailMerge.Proofs.Template.Part — a part that holds a template.

  The paragraphs of a template stand somewhere in a part that has no other fields. What is
  merged below the root is what the reference expands the template to, in the same place; then
  the table cells of the part are repaired, also those that stand in a run of a paragraph.

  Proved: merging the part goes through just when the reference has an expansion, and the node
  that held the template holds the repaired expansion (`merge_template`).
-/

import Mathlib
import MailMerge.Proofs.Merge.Cells
import MailMerge.Proofs.Template.Merged

namespace MailMerge

open MailMerge.Tree Merge

/-- A field has a marker. -/
theorem Tree.length_fields_le (t : Tree) (id : NodeId) : (t.fields id).length ≤ (t.markers id).length := by
  have hsub := (t.markers_sublist id).filter t.opensField
  have hall : ((t.fields id).map Field.marker).filter t.opensField = (t.fields id).map Field.marker :=
    List.filter_eq_self.mpr fun x hx => by
      obtain ⟨f, hf, rfl⟩ := List.mem_map.mp hx
      exact (Field.ofMarker?_eq_some (mem_fields.mp hf).2.1).2.1
  rw [hall] at hsub
  have hle := hsub.length_le
  rwa [List.length_map] at hle

theorem Tree.outcome_merge (t : Tree) (r : Registry) (env : Environment) :
    (t.merge r env).outcome = (Merge.below r (levelBound (t.markers root)) root ⟨t, env, Ledger.empty⟩).1 := by
  rw [merge_eq]
  generalize Merge.below r (levelBound (t.markers root)) root ⟨t, env, Ledger.empty⟩ = done
  obtain ⟨result, last⟩ := done
  cases result <;> rfl

/-- A template in a part: merging goes through just when the template has an expansion, which
    then stands where the template stood, with a paragraph in each cell that had none. -/
theorem merge_template {T : Template} (hn : T.Nested fun _ => false) {t : Tree} {p : NodeId} {before cs after : List NodeId}
    (h : T.Holds t root p before cs after) (hp : p ≠ root) {env : Environment} (henv : env.holdsContent = false) :
    ((t.merge Registry.stock env).outcome = .ok () ↔ ∃ ws, T.expand env = .ok ws) ∧
      ∀ ws, T.expand env = .ok ws → (t.merge Registry.stock env).tree.twig p =
        (Twig.node (t.kind p) (before.map t.twig ++ ws ++ after.map t.twig)).repaired := by
  have hw := h.wellFormed
  -- there are more levels than blocks in one another
  have hdeep : T.depth < levelBound (t.markers root) := by
    obtain ⟨ss, hread⟩ := T.exists_plan hw hn ⟨before, after, h.children.symm⟩ h.twigs
    have hfields := hread.deep
    rw [← h.fields_eq] at hfields
    have hmarkers := t.length_fields_le root
    rw [levelBound]
    omega
  have hrun := mergesBelow _ T _ hn hdeep ⟨t, env, .empty⟩ root p before cs after env h (.refl env) henv
  refine ⟨?_, fun ws hws => ?_⟩
  · rw [Tree.outcome_merge, ← hrun.iff_ok]
    exact ⟨fun he => ⟨(), he⟩, fun ⟨(), he⟩ => he⟩
  · have hok : (t.merge Registry.stock env).outcome = .ok () := by
      obtain ⟨u, hu⟩ := hrun.iff_ok.mpr ⟨ws, hws⟩
      rw [Tree.outcome_merge]
      exact hu
    obtain ⟨last, hlast, htree, -⟩ := Tree.merge_eq_ok hok
    have hwell := expands_below Registry.stock (levelBound (t.markers root)) root ⟨t, env, .empty⟩ 0 (fenced_zero hw) (Nat.zero_le _)
    rw [hlast, hws] at hrun
    rw [hlast] at hwell
    cases hrun with
    | ok hmerged =>
      obtain ⟨hwithin, htwig⟩ := hmerged
      rw [htree, twig_fillEmptyCells hwell.tree.wellFormed hwithin hp, htwig]
      exact Nat.lt_of_lt_of_le h.lt_size hwell.tree.grows

/-! ## A list of guests -/

namespace Guests

def start : Marker :=
  ⟨[], [(Word.fieldInstruction, "MERGEFIELD l:each(i)")], [], [], [], "l:each(i)", by cbv, by cbv, by cbv⟩

def stop : Marker :=
  ⟨[], [(Word.fieldInstruction, "MERGEFIELD l:endEach")], [], [], [], "l:endEach", by cbv, by cbv, by cbv⟩

def guest : Insertion :=
  ⟨[(Word.fieldInstruction, "MERGEFIELD =i")], [], [], [], [], [], "=i", ⟨"i", []⟩, by cbv, ⟨"i", by cbv, by cbv⟩, by cbv, by cbv⟩

/-- A paragraph for each guest. -/
def template : Template := .loop start ⟨"l", []⟩ "i" (.paragraph ⟨[], [.insertion guest]⟩ .nil) stop .nil

/-- The template in the body of a part, before the properties of the section. -/
def part : Tree :=
  ⟨#[⟨.container, none, [1], .none⟩, ⟨.element "w:body" [], some 0, [2, 4, 8, 10], .none⟩,
    ⟨.element Word.paragraph [], some 1, [3], .none⟩,
    ⟨.element Word.simpleField [(Word.fieldInstruction, "MERGEFIELD l:each(i)")], some 2, [], .none⟩,
    ⟨.element Word.paragraph [], some 1, [5], .none⟩,
    ⟨.element Word.simpleField [(Word.fieldInstruction, "MERGEFIELD =i")], some 4, [6], .none⟩,
    ⟨.element Word.run [], some 5, [7], .none⟩, ⟨.element Word.text [], some 6, [], .none⟩,
    ⟨.element Word.paragraph [], some 1, [9], .none⟩,
    ⟨.element Word.simpleField [(Word.fieldInstruction, "MERGEFIELD l:endEach")], some 8, [], .none⟩,
    ⟨.element "w:sectPr" [], some 1, [], .none⟩]⟩

/-- One guest has a name and one has none. -/
def env : Environment := ⟨[("l", .list [.string "Ann", .nil])], [], .lenient, .empty⟩

/-- What comes out of the template: a paragraph with the name, and an empty one. -/
def listed : List Twig :=
  [.node (.element Word.paragraph [])
    [.node (.element Word.run []) [.node (.element Word.text []) [.node (.text "Ann") []]]],
   .node (.element Word.paragraph []) []]

theorem nested : template.Nested fun _ => false := by
  refine ⟨rfl, ⟨"l", by cbv, by cbv⟩, ⟨fun i hi => ?_, trivial⟩, trivial⟩
  obtain ⟨rfl⟩ : i = guest := by simpa using hi
  cbv

theorem holds : template.Holds part root 1 [] [2, 4, 8] [10] := by
  have hfields : ∀ d < part.size, part.opensField d = true → ∃ c ∈ [2, 4, 8], part.parent d = some c := by decide
  refine ⟨wellFormed_of_earlier (by decide) (by decide) (by decide), by decide, within_of_parent (by decide), by decide, by cbv,
    fun d hw hne hd => ?_⟩
  obtain ⟨c, hc, hp⟩ := hfields d (lt_size_of_within hw hne) hd
  exact ⟨c, hc, within_of_parent hp⟩

end Guests

open Guests in
theorem guests_listed : template.Nested (fun _ => false) ∧ template.Holds part root 1 [] [2, 4, 8] [10] ∧ env.holdsContent = false ∧
    (part.merge Registry.stock env).outcome = .ok () ∧
    (part.merge Registry.stock env).tree.twig 1 = .node (.element "w:body" []) (listed ++ [.node (.element "w:sectPr" []) []]) := by
  have hnone : env.holdsContent = false := by cbv
  have hlisted : template.expand env = .ok listed := by cbv
  obtain ⟨hiff, htwig⟩ := merge_template nested holds (by decide) hnone
  exact ⟨nested, holds, hnone, hiff.mpr ⟨listed, hlisted⟩, htwig listed hlisted⟩

/-! ## A table in a text box -/

namespace TextBox

/-- A run with a text box, in which a table has an empty cell. -/
def run : Twig :=
  .node (.element Word.run []) [.node (.element "w:txbxContent" []) [.node (.element "w:tbl" [])
    [.node (.element Word.tableRow []) [.node (.element Word.tableCell []) []]]]]

def template : Template := .paragraph ⟨[], [.plain run (by cbv)]⟩ .nil

def part : Tree :=
  ⟨#[⟨.container, none, [1], .none⟩, ⟨.element "w:body" [], some 0, [2], .none⟩, ⟨.element Word.paragraph [], some 1, [3], .none⟩,
    ⟨.element Word.run [], some 2, [4], .none⟩, ⟨.element "w:txbxContent" [], some 3, [5], .none⟩,
    ⟨.element "w:tbl" [], some 4, [6], .none⟩, ⟨.element Word.tableRow [], some 5, [7], .none⟩,
    ⟨.element Word.tableCell [], some 6, [], .none⟩]⟩

def env : Environment := ⟨[], [], .lenient, .empty⟩

theorem holds : template.Holds part root 1 [] [2] [] := by
  have hfields : ∀ d < part.size, part.opensField d = false := by decide
  refine ⟨wellFormed_of_earlier (by decide) (by decide) (by decide), by decide, within_of_parent (by decide), by decide, by cbv,
    fun d hw hne hd => ?_⟩
  rw [hfields d (lt_size_of_within hw hne)] at hd
  cases hd

end TextBox

open TextBox in
/-- What is merged need not be the expansion itself: an ordinary paragraph may hold an empty cell. -/
theorem text_box_cell_filled : template.Nested (fun _ => false) ∧ template.Holds part root 1 [] [2] [] ∧ env.holdsContent = false ∧
    template.expand env = .ok (([2] : List NodeId).map part.twig) ∧ (part.merge Registry.stock env).outcome = .ok () ∧
    (part.merge Registry.stock env).tree.twig 1 ≠ .node (part.kind 1) (([2] : List NodeId).map part.twig) := by
  refine ⟨⟨fun i hi => ?_, trivial⟩, holds, by cbv, by cbv, by cbv, fun he => ?_⟩
  · simp at hi
  · have hfilled : (part.merge Registry.stock env).tree.twig 1 = .node (.element "w:body" []) [.node (.element Word.paragraph [])
        [.node (.element Word.run []) [.node (.element "w:txbxContent" []) [.node (.element "w:tbl" [])
          [.node (.element Word.tableRow []) [.node (.element Word.tableCell []) [.node (.element Word.paragraph []) []]]]]]]] := by cbv
    rw [hfilled] at he
    cbv at he
    cases he

end MailMerge
