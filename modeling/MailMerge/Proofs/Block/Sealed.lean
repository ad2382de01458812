/-
  MailMerge.Proofs.Block.Sealed — bodies that can be copied on their own.

  A body is copied without its boundaries, and the copy is built anew. So what the build of the
  part found in the body is found again only if the body is closed in itself (`Sealed`): it cuts
  no group of fields, it contains the paragraph around each inline block in it, and the operands
  of its insertions, which nobody has read so far, can be read.

  Proved: of the fields of a scan a body holds those that begin between the boundary fields and
  not at the boundaries, and they stand in a row (`held_of_between`, `filter_held`). Where no
  field stands in another one, the body holds such a field with all its anchors (`under_of_held`).
-/

import MailMerge.Proofs.Block.Apart
import MailMerge.Proofs.Outline.Started
import MailMerge.Proofs.Tree.Renamed

namespace MailMerge

open MailMerge.Tree

/-- It asks for no insertion, or for one whose operand can be read. -/
def Directive.isReadable : Directive → Bool
  | .insertion text => (Operand.parse text).isOk
  | _ => true

namespace Block

/-- The field begins in the body. -/
def Holds (b : Block) (t : Tree) (f : Field) : Prop := f.marker ∈ b.body.flatMap t.subtree

instance (b : Block) (t : Tree) (f : Field) : Decidable (b.Holds t f) := inferInstanceAs (Decidable (_ ∈ _))

/-- The body can be copied without its surroundings: `fs` are the fields of the scan. -/
structure Sealed (r : Registry) (t : Tree) (fs : List Field) (b : Block) : Prop where
  /-- It is no block around a picture, whose body need not stand between its fields. -/
  kind : b.kind ≠ .image
  /-- No field begins in the row of the body itself, where its first anchor would be around it. -/
  opening : ∀ n ∈ b.body, t.isMarker .opening n = false
  /-- No group of fields is cut. -/
  group : ∀ s ∈ Outline.started r t fs,
    (∀ f ∈ Outline.topFields s, b.Holds t f) ∨ ∀ f ∈ Outline.topFields s, ¬ b.Holds t f
  /-- The paragraph around an inline block comes along. -/
  inline : ∀ s ∈ Outline.started r t fs, ∀ b' ∈ s.blocks, b.Holds t b'.startField → b'.kind = .inline →
    ∃ q ∈ b.body.flatMap t.subtree, b'.startField.ancestor? t Word.paragraph = some q
  /-- Insertions can be read. -/
  readable : ∀ f ∈ fs, b.Holds t f → (r.directive f.expression).isReadable = true

/-! ## What a body holds -/

/-- The body is the row of siblings behind the first boundary. -/
theorem row_of_resolve? {t : Tree} (h : t.WellFormed) {b : Block} (hr : resolve? t b.startField b.endField = some b)
    (hk : b.kind ≠ .image) : ∃ s rest, t.laterElements s = b.body ++ rest := by
  have hbody := (resolve?_eq_some.mp hr).2.1.resolve_right fun hno => hk hno.2.1
  rcases (between?_eq_some h).mp hbody with ⟨-, hnil⟩ | ⟨post, hl⟩
  · exact ⟨b.startNode, t.laterElements b.startNode, by rw [hnil]; rfl⟩
  · exact ⟨b.startNode, b.endNode :: post, hl⟩

section scan

variable {t : Tree} (h : t.WellFormed) {id : NodeId} {b : Block} (hr : resolve? t b.startField b.endField = some b)
  (hk : b.kind ≠ .image) (hs : b.startField ∈ t.fields id) (he : b.endField ∈ t.fields id)

include h hr hk hs he

/-- A body stands below the node that is scanned. -/
theorem body_within {x : NodeId} (hx : x ∈ b.body) : t.Within id x ∧ x ≠ id := by
  obtain ⟨hxs, hex⟩ := mem_laterElements_of_body h hr hx
  have hbound := bounded_of_resolve? hr
  obtain ⟨n, hn, hns⟩ := hbound.exists_startNode h (placed_of_mem_fields hs)
  have hstop := hbound.within_endNode h (placed_of_mem_fields he) hk
  have hxn : x ∈ t.laterElements n := by
    rcases hns with rfl | hns
    · exact hxs
    · exact h.laterElements_trans hns hxs
  obtain ⟨hpx, hpn, -, -⟩ := h.mem_laterElements hxn
  obtain ⟨hpe, -, -, hne⟩ := h.mem_laterElements (h.laterElements_trans hxn hex)
  obtain ⟨p, hp⟩ := Option.ne_none_iff_exists'.mp hpn
  have hup := h.within_parent_of_scanned hp (hpe.trans hp) (Ne.symm hne) hn hstop
    (h.mem_descendants.mp (mem_fields.mp hs).1).1 (h.mem_descendants.mp (mem_fields.mp he).1).1
  refine ⟨within_parent hup (hpx.trans hp), ?_⟩
  rintro rfl
  exact h.not_within_of_parent (hpx.trans hp) hup

theorem not_holds_startField : ¬ b.Holds t b.startField := fun hm => by
  obtain ⟨x, hx, hw⟩ := List.mem_flatMap.mp hm
  exact (between_of_within h hr hk hs he hx (h.mem_subtree.mp hw)).1 rfl

theorem not_holds_endField : ¬ b.Holds t b.endField := fun hm => by
  obtain ⟨x, hx, hw⟩ := List.mem_flatMap.mp hm
  exact (between_of_within h hr hk hs he hx (h.mem_subtree.mp hw)).2.1 rfl

/-- The fields that a body holds are among those between its boundary fields. -/
theorem filter_held {before seg after : List Field}
    (hfs : t.fields id = before ++ (b.startField :: seg ++ b.endField :: after)) :
    (t.fields id).filter (b.Holds t ·) = seg.filter (b.Holds t ·) := by
  have hnone : ∀ {l : List Field}, (∀ g ∈ l, ¬ b.Holds t g) → l.filter (b.Holds t ·) = [] := fun hl =>
    List.filter_eq_nil_iff.mpr fun g hg => by simpa using hl g hg
  have hpre : ∀ g ∈ before, ¬ b.Holds t g := by
    intro g hg hm
    obtain ⟨x, hx, hw⟩ := List.mem_flatMap.mp hm
    refine (between_of_within h hr hk hs he hx (h.mem_subtree.mp hw)).2.2.1 ?_
    rw [hfs]
    exact (List.singleton_sublist.mpr hg).append ((List.nil_sublist _).cons_cons b.startField)
  have hpost : ∀ g ∈ after, ¬ b.Holds t g := by
    intro g hg hm
    obtain ⟨x, hx, hw⟩ := List.mem_flatMap.mp hm
    refine (between_of_within h hr hk hs he hx (h.mem_subtree.mp hw)).2.2.2 ?_
    rw [hfs]
    refine List.Sublist.trans ?_ (List.sublist_append_right before _)
    exact ((List.singleton_sublist.mpr hg).cons_cons b.endField).trans (List.sublist_append_right _ _)
  rw [hfs, List.filter_append, hnone hpre, List.nil_append, List.filter_append,
    List.filter_cons_of_neg (by simpa using not_holds_startField h hr hk hs he),
    List.filter_cons_of_neg (by simpa using not_holds_endField h hr hk hs he), hnone hpost, List.append_nil]

/-- If no field stands in another one, a body cuts no field in two. -/
theorem under_of_held (hap : Apart t (t.fields id)) {f : Field} (hf : f ∈ t.fields id) (hheld : b.Holds t f) :
    ∀ a ∈ f.anchors, t.Under b.body a := by
  intro a ha
  obtain ⟨n, hn, hw⟩ := List.mem_flatMap.mp hheld
  have hw := h.mem_subtree.mp hw
  obtain ⟨hne, hne', -, -⟩ := between_of_within h hr hk hs he hn hw
  have hplaced := placed_of_mem_fields hf
  have hbound := bounded_of_resolve? hr
  obtain ⟨hns, hen⟩ := mem_laterElements_of_body h hr hn
  have hpn := (h.mem_laterElements hns).1
  -- it contains neither boundary, as these are in line with fields of their own
  have hstart : ∀ c ∈ f.anchors, ¬ t.Within c b.startNode := by
    intro c hc hcs
    rcases hbound.startNode_or h with hup | hlast
    · exact hap f hf _ hs hne c hc _ (Field.first_mem_anchors _) (Or.inl (within_trans hcs hup))
    · exact hap f hf _ hs hne c hc _ (Field.last_mem_anchors _) (Or.inl (hlast ▸ hcs))
  have hend : b.endNode ∉ f.anchors := fun hc =>
    hap f hf _ he hne' _ hc _ (Field.first_mem_anchors _) (Or.inl (hbound.within_stop h hk))
  have hfirst : t.Within n f.first := by
    rcases hplaced.marked with heq | hp
    · exact heq ▸ hw
    · rcases within_iff.mp hw with rfl | ⟨q, hq, hnq⟩
      · exact absurd (within_of_parent (hpn ▸ hp)) (hstart _ (Field.first_mem_anchors _))
      · rw [hp] at hq
        cases hq
        exact hnq
  rcases List.mem_cons.mp ha with rfl | hao
  · exact ⟨n, hn, hfirst⟩
  rcases within_iff.mp hfirst with heq | ⟨q, hq, hnq⟩
  · -- the field is in the row of the body, in front of the second boundary
    rw [← heq] at hns hen
    have hlater := h.laterElements_trans hns (hplaced.mem_others hao)
    rw [laterElements_startNode h hr hn] at hlater
    rcases List.mem_append.mp hlater with hbody | hbehind
    · exact under_of_mem hbody
    exfalso
    rw [hplaced.later_last h] at hen
    rcases List.mem_append.mp hen with hen | hen
    · exact hend (List.mem_cons_of_mem _ hen)
    rcases List.mem_cons.mp hbehind with rfl | hbehind
    · exact hend ha
    · exact hplaced.not_mem_later_last h hao (h.laterElements_trans hen hbehind)
  · exact ⟨n, hn, within_parent hnq ((hplaced.parent_anchor h ha).trans hq)⟩

omit hs he in
/-- What is scanned between fields that a body holds it holds as well. -/
theorem held_of_between {f g e : Field} (hsub : [f, g, e].Sublist (t.fields id)) (hf : b.Holds t f) (heh : b.Holds t e) :
    b.Holds t g := by
  obtain ⟨n, hn, hnf⟩ := List.mem_flatMap.mp hf
  obtain ⟨m, hm, hme⟩ := List.mem_flatMap.mp heh
  have hnf := h.mem_subtree.mp hnf
  have hme := h.mem_subtree.mp hme
  have hscan : [f.marker, g.marker, e.marker].Sublist (t.descendants id) := (hsub.map Field.marker).trans (t.markers_sublist id)
  obtain ⟨s, rest, hrow⟩ := row_of_resolve? h hr hk
  have hrown : ∀ {x}, x ∈ b.body → x ∈ t.laterElements s := fun hx => by rw [hrow]; exact List.mem_append_left rest hx
  have hin : ∀ {x}, x ∈ b.body → t.Within x g.marker → b.Holds t g := fun hx hw =>
    List.mem_flatMap.mpr ⟨_, hx, h.mem_subtree.mpr hw⟩
  by_cases hnm : n = m
  · exact hin hn (h.within_of_scanned hscan hnf (hnm ▸ hme))
  obtain ⟨hpn, hps, heln, -⟩ := h.mem_laterElements (hrown hn)
  obtain ⟨hpm, -, helm, -⟩ := h.mem_laterElements (hrown hm)
  rcases h.laterElements_total (hpn.trans hpm.symm) (hpn ▸ hps) hnm heln helm with hlater | hlater
  · obtain ⟨c, c', hc⟩ := List.append_of_mem hn
    obtain ⟨mid, hmid⟩ := h.laterElements_of_mem (hrown hn)
    obtain ⟨-, htail⟩ := cut_unique (h.nodup_laterElements s) hmid (by rw [hrow, hc]; simp : _ = c ++ n :: (c' ++ rest))
    -- up to the later one there is nothing but nodes of the body
    have hmc : m ∈ c' := by
      have hmem : m ∈ c ++ n :: c' := hc ▸ hm
      rcases List.mem_append.mp hmem with hmc | hmc
      · exfalso
        obtain ⟨d, d', hd⟩ := List.append_of_mem hmc
        obtain ⟨mid', hmid'⟩ := h.laterElements_of_mem (hrown hm)
        obtain ⟨-, htail'⟩ := cut_unique (h.nodup_laterElements s) hmid'
          (by rw [hrow, hc, hd]; simp : _ = d ++ m :: (d' ++ n :: (c' ++ rest)))
        exact h.not_mem_laterElements hlater (by rw [htail']; simp)
      · exact (List.mem_cons.mp hmc).resolve_left (Ne.symm hnm)
    obtain ⟨k, k', hkk⟩ := List.append_of_mem hmc
    obtain ⟨z, hz, hzg⟩ := h.exists_within_of_scanned (by rw [htail, hkk]; simp : t.laterElements n = k ++ m :: (k' ++ rest))
      hscan hnf hme (isElement_marker (hsub.subset (by simp)))
    refine hin ?_ hzg
    rw [hc, hkk]
    simp only [List.cons_append, List.mem_cons, List.mem_append, List.not_mem_nil, or_false] at hz ⊢
    tauto
  · exact absurd (List.Sublist.trans (by simp) hscan : [f.marker, e.marker].Sublist (t.descendants id))
      (h.not_scanned_backwards hlater hnf hme)

end scan

end Block

end MailMerge
