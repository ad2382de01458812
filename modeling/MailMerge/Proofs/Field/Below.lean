/-
  MailMerge.Proofs.Field.Below — what a scan of a part of the tree finds.

  A scan walks down from a node and asks each node it meets what field it is the marker of;
  that answer does not depend on where the scan began. A field spread over runs reaches on
  over siblings, so a scan may answer anchors that stand outside the node it began at.

  Proved: a scan below a node of the part is the scan of the whole part, cut down to the
  fields whose marker stands below the node; in every scan the markers stand in document
  order, each once, all fields are valid, and the anchors of a field over runs are one
  stretch of element siblings that begins at the parent of the begin marker and ends at the
  first that holds an end marker (`scans_agree`). One case is apart: a begin marker at the
  top level has the container for its parent, which is no element and has no siblings
  (`container_anchor`).
-/

import MailMerge.Proofs.Field.Renamed
import MailMerge.Proofs.Tree.Spans

namespace MailMerge

open MailMerge.Tree

theorem takeThrough?_eq_concat {α : Type} {p : α → Bool} {l front : List α} (h : takeThrough? p l = some front) :
    ∃ init last, front = init ++ [last] ∧ p last = true ∧ ∀ a ∈ init, p a = false := by
  induction l generalizing front with
  | nil => cases h
  | cons a l ih =>
    rw [takeThrough?] at h
    split at h
    · next hp =>
      cases h
      exact ⟨[], a, rfl, hp, fun _ ha => absurd ha List.not_mem_nil⟩
    · next hp =>
      obtain ⟨front', hf, rfl⟩ := Option.map_eq_some_iff.mp h
      obtain ⟨init, last, rfl, hlast, hinit⟩ := ih hf
      refine ⟨a :: init, last, rfl, hlast, fun x hx => ?_⟩
      rcases List.mem_cons.mp hx with rfl | hx
      · exact Bool.not_eq_true _ ▸ hp
      · exact hinit x hx

/-- The part of a list up to a place that a filter keeps. -/
theorem exists_cut_of_filter {α : Type} {p : α → Bool} {l kept rest : List α} {a : α}
    (h : l.filter p = kept ++ a :: rest) :
    ∃ front behind, l = front ++ a :: behind ∧ front.filter p = kept ∧ p a = true := by
  obtain ⟨l₁, l₂, rfl, h₁, h₂⟩ := List.filter_eq_append_iff.mp h
  obtain ⟨l₃, l₄, rfl, h₃, ha, -⟩ := List.filter_eq_cons_iff.mp h₂
  refine ⟨l₁ ++ l₃, l₄, by simp, ?_, ha⟩
  rw [List.filter_append, h₁, List.filter_eq_nil_iff.mpr h₃, List.append_nil]

namespace Tree

/-- A node among its siblings; what has no parent stands alone. -/
def row (t : Tree) (a : NodeId) : List NodeId :=
  match t.parent a with
  | none => [a]
  | some p => t.children p

theorem row_of_parent {t : Tree} {p a : NodeId} (hp : t.parent a = some p) : t.row a = t.children p := by
  rw [row, hp]

/-- The fields of a scan whose marker stands below a node. -/
def fieldsWithin (t : Tree) (a : NodeId) (fields : List Field) : List Field :=
  fields.filter fun f => (t.ancestors f.marker).contains a

end Tree

namespace Field

/-- A field over runs, told by its begin marker and the rows of the tree. -/
structure OverRuns (f : Field) (t : Tree) : Prop where
  opening : t.isMarker .opening f.marker = true
  begins : t.parent f.marker = some f.first
  /-- The anchors are the elements of one stretch of siblings; the container has none. -/
  stretch : f.first = root ∧ f.others = [] ∨
    ∃ before run after, t.row f.first = before ++ run ++ after ∧ run.head? = some f.first ∧
      run.getLast? = some f.last ∧ run.filter t.isElement = f.anchors
  ends : ∀ a ∈ f.anchors, t.holdsMarker .closing a = true ↔ a = f.last

end Field

namespace Tree

/-- What holds of the fields of a scan of `t` in document order of their markers. -/
structure InOrder (t : Tree) (id : NodeId) (fields : List Field) : Prop where
  sorted : (fields.map Field.marker).Sublist (t.preorder t.size id)
  distinct : (fields.map Field.marker).Nodup
  valid : ∀ f ∈ fields, f.valid = true
  simple : ∀ f ∈ fields, f.shape = .simple → t.isNamed Word.simpleField f.marker = true ∧ f.anchors = [f.marker]
  complex : ∀ f ∈ fields, f.shape = .complex → f.OverRuns t

namespace WellFormed

variable {t : Tree} (h : t.WellFormed)

include h

/-- Below a node stand the nodes of the part that have it among their ancestors. -/
theorem descendants_of_within {a r : NodeId} (hw : t.Within a r) :
    t.descendants r = (t.descendants a).filter fun d => (t.ancestors d).contains r := by
  have hsub : (t.descendants r).Sublist (t.descendants a) := by
    obtain ⟨l, l', hl⟩ := h.exists_subtree_eq hw
    have hs : (r :: t.descendants r).Sublist (a :: t.descendants a) := by
      change (t.subtree r).Sublist (t.subtree a)
      rw [hl, List.append_assoc]
      exact (List.sublist_append_left _ l').trans (List.sublist_append_right l _)
    exact hs.tail
  rw [← filter_mem_of_sublist hsub (h.nodup_descendants a)]
  refine List.filter_congr fun d _ => ?_
  rw [Bool.eq_iff_iff, decide_eq_true_iff, List.contains_iff_mem, h.mem_descendants, h.mem_ancestors, ne_comm]

theorem fields_of_within {a r : NodeId} (hw : t.Within a r) : t.fields r = t.fieldsWithin r (t.fields a) := by
  rw [fieldsWithin, fields, fields, h.descendants_of_within hw, List.filterMap_filter, List.filter_filter,
    List.filter_filterMap, List.filter_filterMap]
  refine List.filterMap_congr fun d _ => ?_
  cases hd : Field.ofMarker? t d with
  | none => simp
  | some f =>
    obtain rfl := (Field.ofMarker?_eq_some hd).1
    by_cases hr : r ∈ t.ancestors f.marker <;> by_cases hv : f.valid = true <;> simp [Option.filter, hr, hv]

/-- The elements of a row from one of them on, cut behind one of the later ones. -/
theorem exists_stretch {x last : NodeId} {others rest : List NodeId} (hx : t.isElement x = true)
    (hl : t.laterElements x = others ++ rest) (hlast : last = others.getLastD x) :
    ∃ before run after, t.row x = before ++ run ++ after ∧ run.head? = some x ∧ run.getLast? = some last ∧
      run.filter t.isElement = x :: others := by
  cases hp : t.parent x with
  | none =>
    rw [laterElements, hp] at hl
    obtain ⟨rfl, -⟩ := List.append_eq_nil_iff.mp hl.symm
    exact ⟨[], [x], [], by rw [row, hp]; rfl, rfl, hlast ▸ rfl, by simp [hx]⟩
  | some p =>
    obtain ⟨before, after, hs⟩ := List.append_of_mem (h.mem_of_parent hp)
    rw [h.laterElements_eq hs] at hl
    rw [row_of_parent hp, hs]
    rcases List.eq_nil_or_concat others with rfl | ⟨os, a, rfl⟩
    · exact ⟨before, [x], after, by simp, rfl, hlast ▸ rfl, by simp [hx]⟩
    · rw [List.concat_eq_append] at hl hlast ⊢
      obtain ⟨front, behind, rfl, hfront, ha⟩ := exists_cut_of_filter (hl.trans (List.append_assoc os [a] rest))
      refine ⟨before, x :: (front ++ [a]), behind, by simp, rfl, ?_, ?_⟩
      · rw [hlast, List.getLastD_concat, ← List.cons_append, List.getLast?_concat]
      · rw [List.filter_cons_of_pos hx, List.filter_append, hfront, List.filter_cons_of_pos ha]
        rfl

theorem overRuns {r : NodeId} {f : Field} (hf : f ∈ t.fields r) (hs : f.shape = .complex) : f.OverRuns t := by
  obtain ⟨-, hof, -⟩ := mem_fields.mp hf
  unfold Field.ofMarker? at hof
  split at hof
  · rw [Field.simple?_shape hof] at hs
    cases hs
  · split at hof
    · next hopen =>
      obtain ⟨-, hp, htake⟩ := Field.complex?_eq_some hof
      obtain ⟨rest, hrest⟩ := takeThrough?_eq_some htake
      rw [Field.anchors, List.cons_append, List.cons.injEq] at hrest
      obtain ⟨init, last, hcut, hlast, hinit⟩ := takeThrough?_eq_concat htake
      have hflast : f.last = last := by
        have := congrArg List.getLast? hcut
        rw [Field.anchors, List.getLast?_cons, List.getLast?_concat, Option.some.injEq] at this
        rw [Field.last, List.getLastD_eq_getLast?, this]
      refine ⟨hopen, hp, ?_, fun a ha => ?_⟩
      · rcases h.inner _ _ hp with hroot | hel
        · refine Or.inl ⟨hroot, ?_⟩
          have hnone := hrest.2
          rw [hroot, laterElements, h.top] at hnone
          exact (List.append_eq_nil_iff.mp hnone.symm).1
        · exact Or.inr (h.exists_stretch hel hrest.2 rfl)
      · rw [hcut, List.mem_append, List.mem_singleton] at ha
        constructor
        · intro hc
          rcases ha with ha | rfl
          · rw [hinit a ha] at hc
            cases hc
          · exact hflast.symm
        · rintro rfl
          rw [hflast]
          exact hlast
    · cases hof

theorem inOrder (r : NodeId) : t.InOrder r (t.fields r) where
  sorted := by
    rw [h.preorder_enough t.size (by have := t.card_below_le r; omega)]
    exact (t.markers_sublist r).cons r
  distinct := h.nodup_markers r
  valid _ hf := (mem_fields.mp hf).2.2
  simple f hf hs := by
    obtain ⟨hfirst, hanchors, hn⟩ := simple_of_mem_fields hf hs
    rw [hfirst] at hanchors hn
    exact ⟨hn, hanchors⟩
  complex _ hf hs := h.overRuns hf hs

end WellFormed

/-- A scan from a node of the part finds the fields of the whole scan that have their marker
    below the node; and every scan finds valid fields, one a marker, in document order. -/
theorem scans_agree {t : Tree} (h : t.WellFormed) :
    (∀ r, t.Within root r → t.fields r = t.fieldsWithin r (t.fields root)) ∧ ∀ r, t.InOrder r (t.fields r) :=
  ⟨fun _ hw => h.fields_of_within hw, h.inOrder⟩

namespace TwoParagraphs

/-- A paragraph with a field in one element, and one with a field over two runs that have a
    bookmark between them. -/
def tree : Tree := ⟨#[⟨.container, none, [1], .none⟩,
  ⟨.element "w:body" [], some 0, [2, 4], .none⟩,
  ⟨.element "w:p" [], some 1, [3], .none⟩,
  ⟨.element "w:fldSimple" [("w:instr", "MERGEFIELD =a")], some 2, [], .none⟩,
  ⟨.element "w:p" [], some 1, [5, 9, 10], .none⟩,
  ⟨.element "w:r" [], some 4, [6, 7], .none⟩,
  ⟨.element "w:fldChar" [("w:fldCharType", "begin")], some 5, [], .none⟩,
  ⟨.element "w:instrText" [], some 5, [8], .none⟩,
  ⟨.text "MERGEFIELD =b", some 7, [], .none⟩,
  ⟨.comment "", some 4, [], .none⟩,
  ⟨.element "w:r" [], some 4, [11, 12], .none⟩,
  ⟨.element "w:fldChar" [("w:fldCharType", "separate")], some 10, [], .none⟩,
  ⟨.element "w:fldChar" [("w:fldCharType", "end")], some 10, [], .none⟩]⟩

theorem second_paragraph : tree.WellFormed ∧ tree.Within root 4 ∧
    tree.fields root = [⟨3, "=a", 3, [], .simple, true, .none⟩, ⟨6, "=b", 5, [10], .complex, true, .none⟩] ∧
    tree.fields 4 = [⟨6, "=b", 5, [10], .complex, true, .none⟩] := by
  have h : tree.WellFormed := wellFormed_of_earlier (by decide) (by decide) (by decide)
  have hw : tree.Within root 4 := within_parent (within_of_parent (by decide : tree.parent 1 = some root)) (by decide)
  have hroot : tree.fields root = [⟨3, "=a", 3, [], .simple, true, .none⟩, ⟨6, "=b", 5, [10], .complex, true, .none⟩] := by
    decide +kernel
  refine ⟨h, hw, hroot, ?_⟩
  rw [(scans_agree h).1 4 hw, hroot]
  decide

end TwoParagraphs

namespace TopLevel

/-- A begin marker as the root element, with the rest of its field in it. -/
def tree : Tree := ⟨#[⟨.container, none, [1], .none⟩,
  ⟨.element "w:fldChar" [("w:fldCharType", "begin")], some 0, [2, 4, 5], .none⟩,
  ⟨.element "w:instrText" [], some 1, [3], .none⟩,
  ⟨.text "MERGEFIELD =a", some 2, [], .none⟩,
  ⟨.element "w:fldChar" [("w:fldCharType", "separate")], some 1, [], .none⟩,
  ⟨.element "w:fldChar" [("w:fldCharType", "end")], some 1, [], .none⟩]⟩

/-- Anchors need not be elements. -/
theorem container_anchor : ¬ ∀ t : Tree, t.WellFormed → ∀ f ∈ t.fields root, f.shape = .complex →
    ∀ a ∈ f.anchors, t.isElement a = true := by
  intro hall
  have hfields : tree.fields root = [⟨1, "=a", 0, [], .complex, true, .none⟩] := by decide +kernel
  have hel := hall tree (wellFormed_of_earlier (by decide) (by decide) (by decide)) ⟨1, "=a", 0, [], .complex, true, .none⟩
    (by rw [hfields]; exact List.mem_singleton.mpr rfl) rfl 0 (by decide)
  revert hel
  decide

end TopLevel

end Tree

end MailMerge
