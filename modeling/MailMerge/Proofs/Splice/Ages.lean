/-
  MailMerge.Proofs.Splice.Ages — what takes a field's place is younger than its place.

  The run and the text of a replacement are looked for below the field and made where they are
  missing. Lines are copies made after the place that they are put into; the elements of a
  fragment are read before the run of the replacement may have to be made, but the node that
  the run stands in is older than they are. So nothing comes to stand below a node that was
  made later, whatever tree the field is in.

  Proved: a value put in a field's place keeps the links of any linked tree aged, also when its
  markup cannot be read (`aged_putText`, `aged_putMarkup`).
-/

import MailMerge.Proofs.Tree.Ages

namespace MailMerge

open MailMerge.Tree

variable {n m : Nat} {t u : Tree}

/-- The anchors of a field are in the store. -/
def Field.InStore (f : Field) (t : Tree) : Prop := ∀ a ∈ f.anchors, a < t.size

namespace Target

/-- A place for a replacement, of which the run stands in one of the first `m` nodes. -/
structure Located (n m : Nat) (t : Tree) (target : Target) (u : Tree) : Prop extends Added n t u where
  run : target.run < u.size
  text : target.text < u.size
  up : ∀ p, u.parent target.run = some p → p < m

theorem aged_locateRun (h : Aged n t) (hnm : n ≤ m) (hm : m ≤ t.size) (hparted : Parted m t) {f : Field}
    (hf : ∀ a ∈ f.anchors, a < m) : Added n t (locateRun t f).2 ∧ (locateRun t f).1 < (locateRun t f).2.size ∧
      ∀ p, (locateRun t f).2.parent (locateRun t f).1 = some p → p < m := by
  have hfirst := hf f.first f.first_mem_anchors
  have hlast := hf f.last f.last_mem_anchors
  have hold : ∀ run < m, run < t.size ∧ ∀ p, t.parent run = some p → p < m := fun run hrun =>
    ⟨Nat.lt_of_lt_of_le hrun hm, fun p hp => h.parent_lt hnm hrun hp⟩
  unfold locateRun
  cases hd : f.display? t with
  | none =>
    have hnew := h.create (.element Word.run []) .none
    have hsize : t.size < (t.create (.element Word.run []) .none).2.size := by rw [size_create]; exact Nat.lt_succ_self _
    have hup : ∀ p, (t.create (.element Word.run []) .none).2.parent f.last = some p → p < m := fun p hp => by
      rw [parent_create] at hp
      exact (hold f.last hlast).2 p hp
    have hins := hnew.insertBeside adds_insertBefore h.old (Nat.le_refl t.size) hsize fun p hp => Nat.lt_of_lt_of_le (hup p hp) hm
    refine ⟨hins, Nat.lt_of_lt_of_le hsize (relinked_insertBeside _ _ _ _).size.ge, fun p hp => ?_⟩
    rcases hnew.aged.linked.parent_insertBeside Siblings.insertBefore f.last hsize with hsame | hsame
    · have hnone := hsame.symm.trans hp
      rw [parent_create, parent_of_size_le (Nat.le_refl _)] at hnone
      cases hnone
    · exact hup p (hsame.symm.trans hp)
  | some id =>
    cases hs : f.shape with
    | complex =>
      rw [Field.display?, hs] at hd
      obtain ⟨hsize, hup⟩ := hold id (hf id (resultAnchor?_mem hd))
      exact ⟨.refl h, hsize, hup⟩
    | simple =>
      rw [Field.display?, hs] at hd
      cases hd
      simp only
      cases hr : t.findDescendant? f.first Word.run with
      | some run =>
        have hw := h.linked.within_of_mem_descendants (List.mem_of_find?_eq_some hr)
        obtain ⟨hsize, hup⟩ := hold run (hparted.lt_of_within hfirst hw)
        exact ⟨.refl h, hsize, hup⟩
      | none =>
        have hlt := (hold f.first hfirst).1
        have hnew := h.createBelow hlt (.element Word.run []) .none
        have hsize : t.size < ((t.create (.element Word.run []) .none).2.appendChild f.first t.size).size := by
          rw [appendChild_eq, size_move, size_create]
          exact Nat.lt_succ_self _
        refine ⟨hnew, hsize, fun p hp => ?_⟩
        have hparent := h.parent_createBelow hlt (.element Word.run []) .none t.size
        rw [if_pos rfl] at hparent
        cases hparent.symm.trans hp
        exact hfirst

theorem located_locate (h : Aged n t) (hnm : n ≤ m) (hm : m ≤ t.size) (hparted : Parted m t) {f : Field}
    (hf : ∀ a ∈ f.anchors, a < m) : Located n m t (locate t f).1 (locate t f).2 := by
  obtain ⟨hrun, hsize, hup⟩ := aged_locateRun h hnm hm hparted hf
  unfold locate
  generalize locateRun t f = found at hrun hsize hup ⊢
  obtain ⟨run, u⟩ := found
  simp only at hrun hsize hup ⊢
  cases ht : u.findDescendant? run Word.text with
  | some text => exact ⟨hrun, hsize, lt_size_of_isNamed (List.find?_some ht), hup⟩
  | none =>
    have hnew := hrun.aged.createBelow hsize (.element Word.text []) .none
    have hlt : u.size < ((u.create (.element Word.text []) .none).2.appendChild run u.size).size := by
      rw [appendChild_eq, size_move, size_create]
      exact Nat.lt_succ_self _
    refine ⟨hrun.trans hnew, Nat.lt_of_lt_of_le hsize hnew.grows, hlt, fun p hp => hup p ?_⟩
    exact (hnew.parent run hsize).symm.trans hp

theorem aged_finish (h : Aged n t) (target : Target) (f : Field) : Grown n t (target.finish f t) := by
  unfold finish
  cases f.shape with
  | simple => exact h.unwrap f.first
  | complex => exact h.detachAll _

end Target

namespace Splice

/-! ## Texts -/

theorem aged_lineElement (h : Aged n t) (model : NodeId) (line : List Char) : (lineElement t model line).1 = t.size ∧
    t.size < (lineElement t model line).2.size ∧ Grown n t (lineElement t model line).2 := by
  have hcopy := h.deepCopy model
  unfold lineElement
  generalize t.deepCopy model = made at hcopy ⊢
  obtain ⟨copy, u⟩ := made
  simp only at hcopy ⊢
  have htext := hcopy.aged.setText copy (String.ofList line)
  have hgrown := (hcopy.toAdded.grown h.old).trans htext
  split
  · have hspace := htext.aged.setAttribute copy Word.space Word.preserve
    exact ⟨hcopy.fst, Nat.lt_of_lt_of_le hcopy.lt_size (Nat.le_trans htext.grows hspace.grows),
      hgrown.trans (hspace.grown htext.aged.old)⟩
  · exact ⟨hcopy.fst, Nat.lt_of_lt_of_le hcopy.lt_size htext.grows, hgrown⟩

/-- A line's element is put behind an older node. -/
theorem aged_addLine (h : Aged n t) {anchor : NodeId} (hlt : anchor < t.size) (model : NodeId) (line : List Char) :
    Grown n t ((lineElement t model line).2.insertAfter anchor (lineElement t model line).1) ∧
      (lineElement t model line).1 < ((lineElement t model line).2.insertAfter anchor (lineElement t model line).1).size := by
  obtain ⟨hfst, hsize, hline⟩ := aged_lineElement h model line
  rw [← hfst] at hsize
  have hup : ∀ p, (lineElement t model line).2.parent anchor = some p → p < (lineElement t model line).1 := fun p hp =>
    hfst ▸ hline.aged.parent_lt h.old hlt hp
  have hins := hline.aged.insertBeside adds_insertAfter (hfst ▸ h.old) hsize hup
  exact ⟨hline.trans hins, Nat.lt_of_lt_of_le hsize hins.grows⟩

theorem aged_addBrokenLines (h : Aged n t) (model : NodeId) {anchor : NodeId} (hlt : anchor < t.size) (lines : List (List Char)) :
    Grown n t (addBrokenLines model anchor t lines) := by
  induction lines generalizing t anchor with
  | nil => exact .refl h
  | cons line lines ih =>
    have hsize : t.size < (t.create (.element Word.lineBreak []) .none).2.size := by rw [size_create]; exact Nat.lt_succ_self _
    have hup : ∀ p, (t.create (.element Word.lineBreak []) .none).2.parent anchor = some p → p < t.size := fun p hp => by
      rw [parent_create] at hp
      exact (h.linked.inStore p anchor hp).1
    have hbreak := (h.create (.element Word.lineBreak []) .none).insertBeside adds_insertAfter h.old (Nat.le_refl _) hsize hup
    obtain ⟨hline, hcopy⟩ := aged_addLine hbreak.aged (Nat.lt_of_lt_of_le hsize (relinked_insertBeside _ _ _ _).size.ge) model line
    exact (hbreak.grown h.old).trans (hline.trans (ih hline.aged hcopy))

theorem aged_addLines (h : Aged n t) {model : NodeId} (hlt : model < t.size) (lines : List (List Char)) :
    Grown n t (addLines model t lines) := by
  cases lines with
  | nil => exact .refl h
  | cons line lines =>
    obtain ⟨hline, hcopy⟩ := aged_addLine h hlt model line
    exact hline.trans (aged_addBrokenLines hline.aged model hcopy lines)

theorem aged_putText (h : Aged n t) {f : Field} (hf : f.InStore t) (s : String) : Grown n t (putText f s t) := by
  have hloc := Target.located_locate h h.old (Nat.le_refl _) h.linked.parted hf
  unfold putText
  generalize Target.locate t f = found at hloc ⊢
  obtain ⟨target, u⟩ := found
  simp only at hloc ⊢
  have hlines := aged_addLines hloc.aged hloc.text (Text.splitAt '\n' s.toList)
  have hcut := hlines.trans (hlines.aged.detach target.text)
  exact (hloc.toAdded.grown h.old).trans (hcut.trans (Target.aged_finish hcut.aged target f))

/-! ## Markup -/

theorem aged_formatRun (h : Aged n t) (formatting : NodeId) {run : NodeId} (hlt : run < t.size) :
    Added n t (formatRun formatting t run) := by
  unfold formatRun
  split
  · exact .refl h
  · have hcopy := h.deepCopy formatting
    generalize t.deepCopy formatting = made at hcopy ⊢
    obtain ⟨copy, u⟩ := made
    have hfst := hcopy.fst
    simp only at hcopy hfst ⊢
    exact hcopy.toAdded.move h.old hfst.ge (hfst ▸ hcopy.lt_size) (hfst ▸ hlt) (adds_cons _ _)

theorem aged_inheritFormatting (h : Aged n t) (run : NodeId) (ids : List NodeId) : Added n t (inheritFormatting t run ids) := by
  unfold inheritFormatting
  split
  · exact .refl h
  · next formatting _ =>
    have hfold : ∀ (runs : List NodeId) (u : Tree), (∀ r ∈ runs, r < u.size) → Added n t u →
        Added n t (runs.foldl (formatRun formatting) u) := by
      intro runs
      induction runs with
      | nil => exact fun u _ hu => hu
      | cons r runs ih =>
        intro u hlt hu
        have hone := aged_formatRun hu.aged formatting (hlt r List.mem_cons_self)
        exact ih _ (fun r' hr' => Nat.lt_of_lt_of_le (hlt r' (List.mem_cons_of_mem r hr')) hone.grows) (hu.trans hone)
    exact hfold _ t (fun r hr => lt_size_of_isNamed (List.mem_filter.mp hr).2) (.refl h)

/-- The elements of a fragment behind a node that stands below an earlier one than their container. -/
theorem aged_putBehind (h : Aged n t) (hnm : n ≤ m) {anchor : NodeId} (hup : ∀ p, t.parent anchor = some p → p < m)
    {ids : List NodeId} (hids : ∀ x ∈ ids, t.parent x = some m) : Grown n t ((t.insertAllAfter anchor ids).detach anchor) := by
  have hins : Grown n t (t.insertAllAfter anchor ids) := by
    refine h.insertAllAfter (Nat.le_succ_of_le hnm) (fun y hy p hp => ?_) fun x hx => ⟨?_, lt_size_of_parent (hids x hx)⟩
    · rcases List.mem_cons.mp hy with rfl | hy
      · exact Nat.lt_succ_of_lt (hup p hp)
      · cases (hids y hy).symm.trans hp
        exact Nat.lt_succ_self _
    · exact (h.up m x (hids x hx)).elim (fun hlt => absurd hlt (Nat.not_lt_of_le hnm)) id
  exact hins.trans (hins.aged.detach anchor)

theorem aged_putElements (h : Aged n t) (hnm : n ≤ m) (hm : m ≤ t.size) (hparted : Parted m t) {f : Field}
    (hf : ∀ a ∈ f.anchors, a < m) {ids : List NodeId} (hids : ∀ x ∈ ids, t.parent x = some m) : Grown n t (putElements f ids t) := by
  have hloc := Target.located_locate h hnm hm hparted hf
  unfold putElements
  generalize Target.locate t f = found at hloc ⊢
  obtain ⟨target, u⟩ := found
  simp only at hloc ⊢
  have hidsu : ∀ x ∈ ids, u.parent x = some m := fun x hx =>
    (hloc.parent x (lt_size_of_parent (hids x hx))).trans (hids x hx)
  -- what takes the place of the run, when older nodes stand where they did
  have hreplaceRun : ∀ {v}, Added n u v → Grown n t (replaceRun f target ids v) := by
    intro v hv
    have hput := aged_putBehind hv.aged hnm (fun p hp => hloc.up p ((hv.parent _ hloc.run).symm.trans hp)) fun x hx =>
      (hv.parent x (lt_size_of_parent (hidsu x hx))).trans (hidsu x hx)
    exact ((hloc.toAdded.trans hv).grown h.old).trans (hput.trans (Target.aged_finish hput.aged target f))
  have hinline := hreplaceRun (aged_inheritFormatting hloc.aged target.run ids)
  cases ha : u.findAncestor? target.run Word.paragraph with
  | none =>
    cases allInline u ids with
    | true => exact hinline
    | false => exact hreplaceRun (.refl hloc.aged)
  | some paragraph =>
    cases allInline u ids with
    | true => exact hinline
    | false =>
      -- the paragraph is above the node that the run stands in
      obtain ⟨-, p, hp, hw⟩ := within_of_findAncestor? ha
      have hlt := hloc.aged.lt_of_within hnm (hloc.up p hp) hw
      exact (hloc.toAdded.grown h.old).trans
        (aged_putBehind hloc.aged hnm (fun q hq => hloc.aged.parent_lt hnm hlt hq) hidsu)

theorem aged_putMarkup (h : Aged n t) {f : Field} (hf : f.InStore t) (source : String) : Grown n t (putMarkup f source t).2 := by
  have hnew := h.create (.element fragmentName []) .none
  have hparted : Parted t.size (t.create (.element fragmentName []) .none).2 := fun p c hc =>
    h.linked.parted p c (by rwa [parent_create] at hc)
  have hin : t.size ≤ t.size ∧ t.size < (t.create (.element fragmentName []) .none).2.size :=
    ⟨Nat.le_refl _, by rw [size_create]; exact Nat.lt_succ_self _⟩
  have hread := hnew.aged.readInto hin source 0
  have hparted := hread.parted hparted
  have hadded := hnew.trans hread.toAdded
  unfold putMarkup
  simp only [createElement, create_fst]
  generalize (t.create (.element fragmentName []) .none).2.readInto t.size source 0 = read at hadded hparted ⊢
  obtain ⟨result, u⟩ := read
  cases result with
  | error e => exact hadded.grown h.old
  | ok _ =>
    refine (hadded.grown h.old).trans (aged_putElements hadded.aged h.old hadded.grows hparted hf fun x hx => ?_)
    exact hadded.aged.linked.parent_of_mem (List.mem_filter.mp hx).1

end Splice

end MailMerge
