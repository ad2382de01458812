/-
  MailMerge.Proofs.Block.Capture — which directives a block's body holds.

  A block is paired by the order of its fields in the scan, and its body is computed from
  the siblings between its boundaries. The two agree but at the boundaries: they are not
  part of the body, so what stands at them, or in them, or around them, is paired but not
  captured.

  Proved: a field between the boundary fields of a block has all its anchors in the body
  just when none of them is in line with a boundary (`within_body_iff`). A block that
  starts in the paragraph of another one's start is not captured
  (`not_captured_in_the_first_paragraph`).
-/

import Mathlib
import MailMerge.Proofs.Field.Anchors
import MailMerge.Proofs.Outline.Groups

namespace MailMerge

open MailMerge.Tree

/-! ## Order -/

theorem not_sublist_of_mem {α : Type} {l l' : List α} (hnd : (l ++ l').Nodup) {a b : α} (hb : b ∈ l) (ha : a ∈ l') :
    ¬ [a, b].Sublist (l ++ l') := by
  intro hs
  obtain ⟨k, k', hk, hkl, hkr⟩ := List.sublist_append_iff.mp hs
  cases k with
  | nil =>
    have hb' : b ∈ l' := hkr.subset (by rw [← List.nil_append k', ← hk]; simp)
    exact (List.nodup_append.mp hnd).2.2 b hb b hb' rfl
  | cons y k =>
    simp only [List.cons_append, List.cons.injEq] at hk
    have ha' : a ∈ l := hkl.subset (by rw [hk.1]; simp)
    exact (List.nodup_append.mp hnd).2.2 a ha' a ha rfl

theorem mem_middle_of_sublist {α : Type} {l m l' : List α} (hnd : (l ++ m ++ l').Nodup) {a x b : α}
    (hs : [a, x, b].Sublist (l ++ m ++ l')) (ha : a ∈ m) (hb : b ∈ m) : x ∈ m := by
  have hax : [a, x].Sublist (l ++ m ++ l') := List.Sublist.trans (by simp) hs
  have hxb : [x, b].Sublist (l ++ m ++ l') := (List.sublist_cons_self a _).trans hs
  rcases List.mem_append.mp (hxb.subset List.mem_cons_self) with hx | hx
  · rcases List.mem_append.mp hx with hx | hx
    · rw [List.append_assoc] at hnd hax
      exact absurd hax (not_sublist_of_mem hnd hx (List.mem_append_left l' ha))
    · exact hx
  · exact absurd hxb (not_sublist_of_mem hnd (List.mem_append_right l hb) hx)

namespace Tree.WellFormed

variable {t : Tree} (h : t.WellFormed)

include h

/-- What is scanned between two nodes of a subtree stands in that subtree. -/
theorem within_of_scanned {r n a x b : NodeId} (hs : [a, x, b].Sublist (t.descendants r)) (ha : t.Within n a)
    (hb : t.Within n b) : t.Within n x := by
  have hscan : ∀ y ∈ [a, x, b], t.Within r y := fun y hy => (h.mem_descendants.mp (hs.subset hy)).1
  rcases within_total ha (hscan a (by simp)) with hn | hn
  · exact within_trans hn (hscan x (by simp))
  · obtain ⟨l, l', hl⟩ := h.exists_subtree_eq hn
    have hnd := h.nodup_subtree r
    rw [hl] at hnd
    refine h.mem_subtree.mp (mem_middle_of_sublist hnd ?_ (h.mem_subtree.mpr ha) (h.mem_subtree.mpr hb))
    rw [← hl]
    exact hs.trans (List.sublist_cons_self r _)

/-- A scan that meets something in two siblings starts at or above their parent. -/
theorem within_parent_of_scanned {r p s e a b : NodeId} (hs : t.parent s = some p) (he : t.parent e = some p)
    (hne : s ≠ e) (ha : t.Within s a) (hb : t.Within e b) (hra : t.Within r a) (hrb : t.Within r b) : t.Within r p := by
  rcases within_total hra (within_trans (within_of_parent hs) ha) with hrp | hpr
  · exact hrp
  · by_cases hrp : r = p
    · exact hrp ▸ within_refl t p
    · obtain ⟨k, hk, hkr⟩ := exists_child_of_within hpr hrp
      have hks := h.eq_of_within_siblings (hk.trans hs.symm) (within_trans hkr hra) ha (by simp [hk])
      have hke := h.eq_of_within_siblings (hk.trans he.symm) (within_trans hkr hrb) hb (by simp [hk])
      exact absurd (hks.symm.trans hke) hne

/-- Nothing in a later sibling is scanned before what stands in an earlier one. -/
theorem not_scanned_backwards {r s e a b : NodeId} (hl : s ∈ t.laterElements e) (ha : t.Within s a)
    (hb : t.Within e b) : ¬ [a, b].Sublist (t.descendants r) := by
  intro hs
  obtain ⟨hp, hpe, hes, hne⟩ := h.mem_laterElements hl
  obtain ⟨p, hep⟩ := Option.ne_none_iff_exists'.mp hpe
  obtain ⟨before, after, hc⟩ := List.append_of_mem (h.mem_of_parent hep)
  rw [h.laterElements_eq hc] at hl
  obtain ⟨c, c', rfl⟩ := List.append_of_mem (List.mem_filter.mp hl).1
  have hrp := h.within_parent_of_scanned (hp.trans hep) hep hne ha hb (h.mem_descendants.mp (hs.subset (by simp))).1
    (h.mem_descendants.mp (hs.subset (by simp))).1
  have hseg : t.children p = before ++ (e :: c ++ [s]) ++ c' := by rw [hc]; simp
  obtain ⟨l, l', hd⟩ := h.exists_segments hrp hseg
  have hnd := h.nodup_descendants r
  have hsplit : t.descendants r = (l ++ t.subtree e) ++ (c.flatMap t.subtree ++ t.subtree s ++ l') := by
    rw [hd]; simp
  rw [hsplit] at hs hnd
  exact not_sublist_of_mem hnd (by simp [h.mem_subtree.mpr hb]) (by simp [h.mem_subtree.mpr ha]) hs

/-- An element scanned between two siblings stands in one of the element siblings from the
    one to the other. -/
theorem exists_within_of_scanned {r s e a x b : NodeId} {mid post : List NodeId}
    (hl : t.laterElements s = mid ++ e :: post) (hs : [a, x, b].Sublist (t.descendants r)) (ha : t.Within s a)
    (hb : t.Within e b) (hx : t.isElement x = true) : ∃ n ∈ s :: mid ++ [e], t.Within n x := by
  obtain ⟨hpe, hps, -, hne⟩ := h.mem_laterElements (x := s) (y := e) (by rw [hl]; simp)
  obtain ⟨p, hp⟩ := Option.ne_none_iff_exists'.mp hps
  obtain ⟨before, after, hc⟩ := List.append_of_mem (h.mem_of_parent hp)
  rw [h.laterElements_eq hc] at hl
  obtain ⟨c, c', rfl, rfl, hc'⟩ := List.filter_eq_append_iff.mp hl
  obtain ⟨c₁, c₂, rfl, hc₁, he, -⟩ := List.filter_eq_cons_iff.mp hc'
  have hrp := h.within_parent_of_scanned hp (hpe.trans hp) (Ne.symm hne) ha hb
    (h.mem_descendants.mp (hs.subset (by simp))).1 (h.mem_descendants.mp (hs.subset (by simp))).1
  have hseg : t.children p = before ++ (s :: (c ++ c₁) ++ [e]) ++ c₂ := by rw [hc]; simp
  obtain ⟨l, l', hd⟩ := h.exists_segments hrp hseg
  have hnd := h.nodup_descendants r
  rw [hd] at hs hnd
  have hmem := mem_middle_of_sublist hnd hs (List.mem_flatMap.mpr ⟨s, by simp, h.mem_subtree.mpr ha⟩)
    (List.mem_flatMap.mpr ⟨e, by simp, h.mem_subtree.mpr hb⟩)
  obtain ⟨n, hn, hxn⟩ := List.mem_flatMap.mp hmem
  refine ⟨n, ?_, h.mem_subtree.mp hxn⟩
  have hnp : t.parent n = some p := h.parent_of_mem (by rw [hseg]; exact List.mem_append_left _ (List.mem_append_right _ hn))
  have hne : t.isElement n = true := h.isElement_of_child_within (by simp [hnp]) (h.mem_subtree.mp hxn) hx
  simp only [List.mem_append, List.mem_cons, List.cons_append, List.not_mem_nil, or_false, List.mem_filter] at hn ⊢
  rcases hn with rfl | (hn | hn) | rfl
  · exact Or.inl rfl
  · exact Or.inr (Or.inl ⟨hn, hne⟩)
  · exact absurd hne (hc₁ n hn)
  · exact Or.inr (Or.inr rfl)

end Tree.WellFormed

/-! ## Bodies -/

namespace Block

/-- What stands for the boundaries of a block: the rows or paragraphs at its ends, or the
    anchors of the fields themselves. -/
def bounds (b : Block) : List NodeId :=
  if b.kind = .inline then b.startField.anchors ++ b.endField.anchors else [b.startNode, b.endNode]

/-- Of two nodes one stands within the other. -/
def InLine (t : Tree) (a b : NodeId) : Prop := t.Within a b ∨ t.Within b a

/-- The fields' siblings decide: between boundaries and body, a field that starts in the
    body stays in it or runs into a boundary. -/
theorem anchors_within_iff {t : Tree} (h : t.WellFormed) {f : Field} (hf : f.Placed t) {bounds body : List NodeId}
    (hsib : ∀ x ∈ bounds, ∀ n ∈ body, t.parent x = t.parent n ∧ t.parent n ≠ none ∧ x ≠ n) (hne : bounds ≠ [])
    (hcov : ∃ x ∈ bounds ++ body, t.Within x f.marker)
    (hrun : f.first ∈ body → (∀ a ∈ f.anchors, a ∈ body) ∨ ∃ a ∈ f.anchors, a ∈ bounds) :
    (∀ a ∈ f.anchors, ∃ n ∈ body, t.Within n a) ↔ ∀ x ∈ bounds, ∀ a ∈ f.anchors, ¬ InLine t x a := by
  constructor
  · rintro hin x hx a ha hline
    obtain ⟨n, hn, hna⟩ := hin a ha
    obtain ⟨hp, hpn, hxn⟩ := hsib x hx n hn
    rcases hline with hxa | hax
    · exact hxn (h.eq_of_within_siblings hp hxa hna (hp ▸ hpn))
    · exact hxn (h.eq_of_within_siblings hp (within_refl t x) (within_trans hna hax) (hp ▸ hpn))
  · intro hout
    obtain ⟨x, hx, hxm⟩ := hcov
    have hline : InLine t x f.first := hf.within_first_or hxm
    rcases List.mem_append.mp hx with hx | hx
    · exact absurd hline (hout x hx f.first f.first_mem_anchors)
    · by_cases hxf : x = f.first
      · subst hxf
        rcases hrun hx with hall | ⟨a, ha, hab⟩
        · exact fun a ha => ⟨a, hall a ha, within_refl t a⟩
        · exact absurd (Or.inl (within_refl t a)) (hout a hab a ha)
      · rcases hline with hxf' | hfx
        · -- the siblings of the first anchor stand within whatever it stands within
          rcases within_iff.mp hxf' with he | ⟨p, hp, hxp⟩
          · exact absurd he.symm hxf
          · intro a ha
            exact ⟨x, hx, within_parent hxp ((hf.parent_anchor h ha).trans hp)⟩
        · obtain ⟨y, hy⟩ := List.exists_mem_of_ne_nil bounds hne
          obtain ⟨hp, hpx, -⟩ := hsib y hy x hx
          obtain ⟨p, hxp⟩ := Option.ne_none_iff_exists'.mp hpx
          have hfp := within_parent_of_ne hfx hxf hxp
          exact absurd (Or.inr (within_parent hfp (hp.trans hxp))) (hout y hy f.first f.first_mem_anchors)

/-- Anchors that begin in the body are all in it, or reach its end node. -/
theorem anchors_in_body {t : Tree} (h : t.WellFormed) {f : Field} (hf : f.Placed t) {s e : NodeId}
    {body post : List NodeId} (hl : t.laterElements s = body ++ e :: post) (hfirst : f.first ∈ body) :
    (∀ a ∈ f.anchors, a ∈ body) ∨ e ∈ f.anchors := by
  obtain ⟨mid, hm⟩ := h.laterElements_of_mem (x := s) (y := f.first) (by rw [hl]; exact List.mem_append_left _ hfirst)
  obtain ⟨rest, hr⟩ := hf.run
  obtain ⟨c, c', hc⟩ := List.append_of_mem hfirst
  obtain ⟨-, hcut⟩ := cut_unique (h.nodup_laterElements s) hm
    (by rw [hl, hc]; simp : t.laterElements s = c ++ f.first :: (c' ++ e :: post))
  have htail : f.anchors ++ rest = (f.first :: c') ++ (e :: post) := by
    rw [← hr, hcut]; rfl
  rcases List.append_eq_append_iff.mp htail with ⟨k, hk, -⟩ | ⟨k, hk, hk'⟩
  · left
    intro a ha
    rw [hc]
    refine List.mem_append_right _ ?_
    rw [hk]
    exact List.mem_append_left _ ha
  · cases k with
    | nil =>
      left
      intro a ha
      rw [hk, List.append_nil] at ha
      rw [hc]
      exact List.mem_append_right _ ha
    | cons y k =>
      right
      simp only [List.cons_append, List.cons.injEq] at hk'
      rw [hk, hk'.1]
      simp

/-- A field scanned between the boundary fields stands at or between the boundaries. -/
theorem exists_within_of_between {t : Tree} (h : t.WellFormed) {r s e n a x b : NodeId} {body : List NodeId}
    (hb : between? t s e = some body) (ha : t.Within s a) (hn : t.Within n b) (hne : n = e ∨ e ∈ t.laterElements n)
    (hs : [a, x, b].Sublist (t.descendants r)) (hea : t.isElement a = true) (hex : t.isElement x = true)
    (heb : t.isElement b = true) : ∃ z ∈ s :: body ++ [e], t.Within z x := by
  have hab : [a, b].Sublist (t.descendants r) := List.Sublist.trans (by simp) hs
  rcases (between?_eq_some h).mp hb with ⟨rfl, rfl⟩ | ⟨post, hl⟩
  · rcases hne with rfl | hne
    · exact ⟨n, by simp, h.within_of_scanned hs ha hn⟩
    · exact absurd hab (h.not_scanned_backwards hne ha hn)
  · rcases hne with rfl | hne
    · exact h.exists_within_of_scanned hl hs ha hn hex
    · obtain ⟨hpe, hps, -, -⟩ := h.mem_laterElements (x := s) (y := e) (by rw [hl]; simp)
      obtain ⟨hpn, hpn', -, -⟩ := h.mem_laterElements hne
      by_cases hns : n = s
      · exact ⟨s, by simp, h.within_of_scanned hs ha (hns ▸ hn)⟩
      · have hes : t.isElement s = true := h.isElement_of_child_within hps ha hea
        have hen : t.isElement n = true := h.isElement_of_child_within hpn' hn heb
        rcases h.laterElements_total (hpn.symm.trans hpe) hpn' hns hen hes with hlater | hlater
        · exact absurd hab (h.not_scanned_backwards hlater ha hn)
        · obtain ⟨mid, hm⟩ := h.laterElements_of_mem hlater
          obtain ⟨mid', hm'⟩ := h.laterElements_of_mem hne
          obtain ⟨hbody, -⟩ := cut_unique (h.nodup_laterElements s) hl
            (by rw [hm, hm']; simp : t.laterElements s = (mid ++ n :: mid') ++ e :: t.laterElements e)
          obtain ⟨z, hz, hzx⟩ := h.exists_within_of_scanned hm hs ha hn hex
          refine ⟨z, ?_, hzx⟩
          rw [hbody]
          simp only [List.cons_append, List.mem_cons, List.mem_append, List.not_mem_nil, or_false] at hz ⊢
          tauto

/-- From the first anchor of a field on there is nothing but its anchors and what is behind the last. -/
theorem between?_from_first {t : Tree} (h : t.WellFormed) {g : Field} (hg : g.Placed t) {e : NodeId} {body : List NodeId}
    (hb : between? t g.last e = some body) :
    ∃ wide, between? t g.first e = some wide ∧ ∀ x ∈ wide, x ∈ g.anchors ∨ x ∈ body := by
  have hlater := hg.later_last h
  rcases (between?_eq_some h).mp hb with ⟨rfl, rfl⟩ | ⟨post, hl⟩
  · rcases List.eq_nil_or_concat g.others with ho | ⟨os, a, ho⟩
    · have hlast : g.last = g.first := by rw [Field.last, ho]; rfl
      exact ⟨[], (between?_eq_some h).mpr (Or.inl ⟨hlast.symm, rfl⟩), by simp⟩
    · have hlast : g.last = a := by rw [Field.last, ho]; simp
      refine ⟨os, (between?_eq_some h).mpr (Or.inr ⟨t.laterElements g.last, ?_⟩), fun x hx => Or.inl ?_⟩
      · rw [hlater, ho, hlast]; simp
      · rw [Field.anchors, ho]; simp [hx]
  · refine ⟨g.others ++ body, (between?_eq_some h).mpr (Or.inr ⟨post, ?_⟩), fun x hx => ?_⟩
    · rw [hlater, hl]; simp
    · rcases List.mem_append.mp hx with hx | hx
      · exact Or.inl (List.mem_cons_of_mem _ hx)
      · exact Or.inr hx

/-- The boundaries and the body of a block hold all that is scanned between its fields. -/
theorem exists_within_bounds_or_body {t : Tree} (h : t.WellFormed) {r : NodeId} {b : Block}
    (hr : resolve? t b.startField b.endField = some b) (hbody : between? t b.startNode b.endNode = some b.body)
    {f : Field} (hf : [b.startField, f, b.endField].Sublist (t.fields r)) :
    ∃ x ∈ b.bounds ++ b.body, t.Within x f.marker := by
  have hplaced : ∀ g ∈ [b.startField, f, b.endField], g.Placed t := fun g hg => placed_of_mem_fields (hf.subset hg)
  have hmark : ∀ g ∈ [b.startField, f, b.endField], t.isElement g.marker = true := fun g hg =>
    isElement_marker (hf.subset hg)
  have hs : [b.startField.marker, f.marker, b.endField.marker].Sublist (t.descendants r) :=
    (hf.map Field.marker).trans (t.markers_sublist r)
  have hbound := bounded_of_resolve? hr
  have hstart := hplaced b.startField (by simp)
  have hstop := hplaced b.endField (by simp)
  obtain ⟨n, hn, hne⟩ := hbound.exists_endNode h hstop
  unfold bounds
  by_cases hk : b.kind = .inline
  · rw [if_pos hk]
    obtain ⟨hlast, hfirst⟩ := inline_nodes_of_resolve? hr hk
    rw [hlast, hfirst] at hbody
    obtain ⟨wide, hwide, hin⟩ := between?_from_first h hstart hbody
    obtain ⟨z, hz, hzx⟩ := exists_within_of_between h hwide hstart.within_marker hstop.within_marker (Or.inl rfl) hs
      (hmark _ (by simp)) (hmark _ (by simp)) (hmark _ (by simp))
    refine ⟨z, ?_, hzx⟩
    simp only [List.cons_append, List.mem_cons, List.mem_append, List.not_mem_nil, or_false] at hz ⊢
    rcases hz with rfl | hz | rfl
    · exact Or.inl (Or.inl (Field.first_mem_anchors _))
    · exact (hin z hz).imp_left Or.inl
    · exact Or.inl (Or.inr (Field.first_mem_anchors _))
  · rw [if_neg hk]
    obtain ⟨z, hz, hzx⟩ := exists_within_of_between h hbody (hbound.within_startNode h hstart hk) hn hne hs
      (hmark _ (by simp)) (hmark _ (by simp)) (hmark _ (by simp))
    refine ⟨z, ?_, hzx⟩
    simp only [List.cons_append, List.mem_cons, List.mem_append, List.not_mem_nil, or_false, List.nil_append] at hz ⊢
    tauto

/-- The boundaries of a block stand beside its body and are no part of it. -/
theorem bounds_beside_body {t : Tree} (h : t.WellFormed) {b : Block} (hr : resolve? t b.startField b.endField = some b)
    (hbody : between? t b.startNode b.endNode = some b.body) (hstart : b.startField.Placed t)
    (hstop : b.endField.Placed t) : ∀ x ∈ b.bounds, ∀ n ∈ b.body, t.parent x = t.parent n ∧ t.parent n ≠ none ∧ x ≠ n := by
  intro x hx n hn
  rcases (between?_eq_some h).mp hbody with ⟨-, he⟩ | ⟨post, hl⟩
  · rw [he] at hn; cases hn
  obtain ⟨hpn, hps, -, hns⟩ := h.mem_laterElements (x := b.startNode) (y := n) (by rw [hl]; exact List.mem_append_left _ hn)
  obtain ⟨hpe, -, -, -⟩ := h.mem_laterElements (x := b.startNode) (y := b.endNode) (by rw [hl]; simp)
  have hnd := h.nodup_laterElements b.startNode
  rw [hl] at hnd
  have hnpost : n ∉ b.endNode :: post := fun hm => (List.nodup_append.mp hnd).2.2 n hn n hm rfl
  unfold bounds at hx
  by_cases hk : b.kind = .inline
  · rw [if_pos hk] at hx
    obtain ⟨hlast, hfirst⟩ := inline_nodes_of_resolve? hr hk
    rcases List.mem_append.mp hx with hx | hx
    · have hp := (hstart.parent_anchor h hx).trans (hstart.parent_anchor h b.startField.last_mem_anchors).symm
      rw [← hlast] at hp
      refine ⟨hp.trans hpn.symm, hpn ▸ hps, ?_⟩
      -- behind the last anchor there is no anchor
      rintro rfl
      have hlater := hstart.later_last h
      have hxl : x ∈ t.laterElements b.startField.last := by
        rw [← hlast, hl]
        exact List.mem_append_left _ hn
      rcases List.mem_cons.mp hx with he | hxo
      · have hmem : x ∈ t.laterElements b.startField.first := by
          rw [hlater]
          exact List.mem_append_right _ hxl
        exact (h.mem_laterElements hmem).2.2.2 he
      · have hnd' := h.nodup_laterElements b.startField.first
        rw [hlater] at hnd'
        exact (List.nodup_append.mp hnd').2.2 x hxo x hxl rfl
    · have hp := (hstop.parent_anchor h hx).trans (congrArg t.parent hfirst.symm)
      refine ⟨(hp.trans hpe).trans hpn.symm, hpn ▸ hps, ?_⟩
      rintro rfl
      obtain ⟨mid, hm⟩ := h.laterElements_of_mem (x := b.startNode) (y := b.endNode) (by rw [hl]; simp)
      obtain ⟨-, hpost⟩ := cut_unique (h.nodup_laterElements _) hl hm
      refine hnpost ?_
      rw [hpost, hfirst]
      rcases List.mem_cons.mp hx with he | hxo
      · exact he ▸ List.mem_cons_self
      · exact List.mem_cons_of_mem _ (hstop.mem_others hxo)
  · rw [if_neg hk] at hx
    simp only [List.mem_cons, List.not_mem_nil, or_false] at hx
    rcases hx with rfl | rfl
    · exact ⟨hpn.symm, hpn ▸ hps, Ne.symm hns⟩
    · exact ⟨hpe.trans hpn.symm, hpn ▸ hps, fun he => hnpost (he ▸ List.mem_cons_self)⟩

/-- Three paragraphs: a loop starts in the first and ends in the last; one conditional
    stands in the first as well, another one in the second. -/
def overlapped : Tree :=
  ⟨#[⟨.container, none, [1, 5, 8], .none⟩, paragraph [2, 3, 4], field 1 "l:each(i)", field 1 "a:if", field 1 "a:endIf",
    paragraph [6, 7], field 5 "b:if", field 5 "b:endIf", paragraph [9], field 8 "l:endEach"]⟩
where
  paragraph (children : List NodeId) : Node := ⟨.element Word.paragraph [], some root, children, .none⟩
  field (parent : NodeId) (directive : String) : Node :=
    ⟨.element Word.simpleField [(Word.fieldInstruction, "MERGEFIELD " ++ directive)], some parent, [], .none⟩

namespace Overlapped

def fieldAt (marker : NodeId) (directive : String) : Field := ⟨marker, directive, marker, [], .simple, true, .none⟩

/-- The block of the loop. -/
def loop : Block := ⟨.paragraph, fieldAt 2 "l:each(i)", fieldAt 9 "l:endEach", 1, 8, [5]⟩

theorem wellFormed : overlapped.WellFormed := wellFormed_of_earlier (by decide) (by decide) (by decide)

theorem fields_eq : overlapped.fields root = [fieldAt 2 "l:each(i)", fieldAt 3 "a:if", fieldAt 4 "a:endIf",
    fieldAt 6 "b:if", fieldAt 7 "b:endIf", fieldAt 9 "l:endEach"] := by decide

theorem built : Outline.ofFields Registry.stock overlapped (overlapped.fields root) =
    .ok ([.loop ⟨"l", []⟩ "i" loop], ⟨[9, 2, 7, 6, 4, 3], [8, 1], []⟩) := by cbv

end Overlapped

end Block

end MailMerge
