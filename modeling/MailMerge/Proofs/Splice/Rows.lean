/-
  MailMerge.Proofs.Splice.Rows — which siblings a text in a field's place changes.

  A text that is put in a field's place is put into one run, where it takes the place of a
  text element, and it takes the field's element or anchors away. So a row of siblings that has
  none of the anchors loses at most a text element, and what it gets is new: the others stay,
  in their order.

  Proved: of the nodes there were, those that are no text elements stay as they were in
  every other row (`row_putText`).
-/

import MailMerge.Proofs.Splice.Inert
import MailMerge.Proofs.Tree.Spared

namespace MailMerge

open MailMerge.Tree

/-- What is put behind a child is new, and nothing else changes. -/
theorem Splice.Follows.row {u v : Tree} {r anchor : NodeId} {before ids after : List NodeId} (hv : Follows u r anchor before ids after v)
    (hu : u.WellFormed) (hc : u.children r = before ++ anchor :: after) (hstay : Stays u.size u v) {H : NodeId → Bool}
    (hH : ∀ x, H x = true → x < u.size) {p : NodeId} (hp : p < u.size) :
    (v.children p).filter H = (u.children p).filter H := by
  by_cases hpr : p = r
  · subst hpr
    have hnd := hv.relists.wellFormed.distinct p
    rw [hv.children] at hnd
    have hnew : ids.filter H = [] := by
      rw [List.filter_eq_nil_iff]
      intro x hx hxH
      have hmem : x ∈ v.children p := by rw [hv.children]; simp [hx]
      have hbefore := hu.mem_of_parent (hstay.parent x (hH x hxH) p (hv.relists.wellFormed.parent_of_mem hmem))
      rw [hc] at hbefore
      simp only [List.nodup_append, List.nodup_cons, List.mem_append, List.mem_cons] at hnd hbefore
      rcases hbefore with hb | rfl | hb
      · exact hnd.1.2.2 x hb x (Or.inr hx) rfl
      · exact hnd.1.2.1.1 hx
      · exact hnd.2.2 x (Or.inr (Or.inr hx)) x hb rfl
    rw [hv.children, hc, List.filter_append, List.filter_append, List.filter_cons, List.filter_append, List.filter_cons, hnew]
    split <;> simp
  · rw [hv.relists.children p hp hpr]

section rows

variable {t : Tree} (h : t.WellFormed) {f : Field} (hf : f.Owned (fun x => 0 ≤ x) t) {p : NodeId} (hfirst : f.first ≠ p)
  (hout : ∀ a ∈ f.anchors, t.parent a ≠ some p)

include h hf hfirst hout

namespace Target

theorem children_locateRun : (locateRun t f).2.children p = t.children p := by
  have hnew : t.size ∉ t.children p := fun hm => Nat.lt_irrefl _ (h.lt_size_of_mem hm)
  unfold locateRun
  split
  · rfl
  · split
    · rfl
    · next id hd hshape _ _ =>
      rw [Field.display?, hshape] at hd
      obtain rfl : f.first = id := Option.some.inj hd
      have hchildren := h.children_createBelow (hf _ f.first_mem_anchors).2 (.element Word.run []) .none p
      rw [if_neg (Ne.symm hfirst)] at hchildren
      exact hchildren
  · simp only [createElement, create_fst]
    have hlast : (t.create (.element Word.run []) .none).2.parent f.last ≠ some p := by
      rw [parent_create]
      exact hout _ f.last_mem_anchors
    have hrow := children_insertBeside_of_ne Siblings.insertBefore hlast (x := t.size) (by rw [children_create]; exact hnew)
    rw [children_create] at hrow
    exact hrow

variable {H : NodeId → Bool} (hH : ∀ x, H x = true → x < t.size)

include hH

theorem row_locate : ((locate t f).2.children p).filter H = (t.children p).filter H := by
  have hrun := children_locateRun h hf hfirst hout
  obtain ⟨hedit, hready⟩ := locateRun_spec (fenced_zero h) hf
  unfold locate
  generalize locateRun t f = found at hrun hedit hready ⊢
  obtain ⟨run, u⟩ := found
  simp only at hrun hedit hready ⊢
  have hu := hedit.wellFormed
  split
  · exact congrArg _ hrun
  · have hchildren := hu.children_createBelow hready.hosts (.element Word.text []) .none p
    show ((((u.create _ _).2.appendChild run u.size)).children p).filter H = _
    rw [hchildren]
    split
    · next he =>
      have hnew : H u.size = false := by
        rw [Bool.eq_false_iff]
        exact fun hx => Nat.not_lt_of_le hedit.grows (hH _ hx)
      rw [List.filter_append, ← he, hrun]
      simp [hnew]
    · exact congrArg _ hrun

end Target

namespace Splice

/-- Of the nodes there were, those that are no text elements stay in their order. -/
theorem row_putText (hp : p < t.size) {H : NodeId → Bool} (hH : ∀ x, H x = true → x < t.size ∧ t.isNamed Word.text x = false)
    (s : String) : ((putText f s t).children p).filter H = (t.children p).filter H := by
  have hrow := Target.row_locate h hf hfirst hout fun x hx => (hH x hx).1
  obtain ⟨-, r, before, after, hc, -⟩ := Target.inert_locate (Q := fun _ => True) h hp hf
    ⟨fun _ _ => trivial, fun _ _ _ _ _ => trivial, fun _ _ _ _ _ _ _ => trivial⟩
  obtain ⟨hloc, -, -, -⟩ := Target.locate_spec (fenced_zero h) hf
  have hname := isNamed_text t f
  have hstay := Target.stays_locate (Nat.le_refl t.size) f
  unfold putText
  generalize Target.locate t f = found at hrow hc hloc hname hstay ⊢
  obtain ⟨target, u⟩ := found
  simp only at hrow hc hloc hname hstay ⊢
  have hu := hloc.wellFormed
  have hold : ∀ x, H x = true → x < u.size := fun x hx => Nat.lt_of_lt_of_le (hH x hx).1 hstay.grows
  have htext : H target.text = false := by
    rw [Bool.eq_false_iff]
    intro hx
    obtain ⟨hlt, hno⟩ := hH _ hx
    rw [isNamed_congr (hstay.kind _ hlt), hno] at hname
    cases hname
  -- the lines go in, and the text element goes
  obtain ⟨name, as, hkind⟩ := kind_of_isElement (isElement_of_isNamed hname)
  obtain rfl : name = Word.text := by
    rw [isNamed_of_kind hkind] at hname
    exact beq_iff_eq.mp hname
  obtain ⟨ids, hfollows, -⟩ := follows_addLines hu hc (hu.twig_node.mpr ⟨hkind, rfl⟩) (Text.splitAt '\n' s.toList)
  have hlines := hfollows.row hu hc (stays_addLines (Nat.le_refl u.size) target.text _) hold (Nat.lt_of_lt_of_le hp hstay.grows)
  have hadded := hfollows.relists.wellFormed
  have hcut : (((addLines target.text u (Text.splitAt '\n' s.toList)).detach target.text).children p).filter H =
      (t.children p).filter H := by
    rw [hadded.children_detach, List.filter_filter, ← hrow, ← hlines]
    apply List.filter_congr
    intro x _
    by_cases hx : x = target.text
    · rw [hx, htext]
      rfl
    · simp [hx]
  have hstayed := (hstay.trans (stays_addLines hstay.grows target.text (Text.splitAt '\n' s.toList))).trans
    (stays_detach t.size _ target.text)
  have hwell := hadded.detach target.text
  rw [← hcut]
  congr 1
  -- the anchors go, which are in other rows
  have hgone : ∀ a ∈ f.anchors, ((addLines target.text u (Text.splitAt '\n' s.toList)).detach target.text).parent a ≠ some p :=
    fun a ha hpa => hout a ha (hstayed.parent a (hf a ha).2.lt_size p hpa)
  unfold Target.finish
  cases f.shape with
  | simple =>
    have hspared := spares_unwrap (D := (· = p)) hwell (x := f.first) fun q hq => by
      subst hq
      exact ⟨hfirst, hgone _ f.first_mem_anchors⟩
    exact hspared.children p rfl
  | complex =>
    have hout : ∀ a ∈ f.anchors.filter (· != target.run), ∀ q, q = p →
        a ∉ ((addLines target.text u (Text.splitAt '\n' s.toList)).detach target.text).children q := by
      rintro a ha q rfl hmem
      exact hgone a (List.mem_filter.mp ha).1 (hwell.parent_of_mem hmem)
    have hspared := spares_detachAll (D := (· = p)) hout
    exact hspared.children p rfl

end Splice

end rows

end MailMerge
