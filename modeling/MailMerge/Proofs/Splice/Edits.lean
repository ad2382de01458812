/-
  MailMerge.Proofs.Splice.Edits — putting a value in a field's place edits the field.

  A field may be worked on in a zone if its anchors are in it (`Field.Owned`). What is
  looked up from there, what is made there and what is copied there is in the zone too.

  Proved: removing a field, putting a text in its place and putting markup in its place
  are edits of such a zone (`edited_remove`, `edited_putText`, `edited_putMarkup`).
-/

import MailMerge.Proofs.Field.Anchors
import MailMerge.Proofs.Markup.Growth
import MailMerge.Proofs.Tree.Copy
import MailMerge.Proofs.Tree.Order
import MailMerge.Splice.Markup
import MailMerge.Splice.Text

namespace MailMerge

open MailMerge.Tree

/-! ## Texts and copies -/

namespace Tree

variable {S R : NodeId → Prop} {t : Tree}

theorem WellFormed.findDescendant?_eq_some (h : t.WellFormed) {id d : NodeId} {name : String}
    (hd : t.findDescendant? id name = some d) : t.Within id d ∧ d ≠ id ∧ t.isElement d = true ∧ t.isNamed name d = true := by
  have hmem := List.mem_of_find?_eq_some hd
  have hnamed := List.find?_some hd
  exact ⟨(h.mem_descendants.mp hmem).1, (h.mem_descendants.mp hmem).2, isElement_of_isNamed hnamed, hnamed⟩

theorem Zone.setText (h : Zone S R t) {id : NodeId} (hid : S id) (data : String) : Edited S R t (t.setText id data) := by
  unfold Tree.setText
  split
  · next hk => exact h.setKind hid fun he => by rw [isElement, name?, hk] at he; cases he
  · next hk => exact h.setKind hid fun he => by rw [isElement, name?, hk] at he; cases he
  · next hk =>
    have hel : t.isElement id = true := by rw [isElement, name?, hk]; rfl
    have hed := h.detachAll fun x hx => h.mem_children hid hx
    exact hed.trans (hed.zone.createBelow (h.sub id hid) (hed.hosts (hosts_of_isElement hel)) _ _)
  · exact .refl h

/-- The parents of the nodes that are not detached stay. -/
theorem parent_detachAll (t : Tree) (ids : List NodeId) (x : NodeId) :
    (t.detachAll ids).parent x = if x ∈ ids then none else t.parent x := by
  induction ids generalizing t with
  | nil => simp [detachAll]
  | cons y ids ih =>
    show ((t.detach y).detachAll ids).parent x = _
    rw [ih, parent_detach]
    by_cases hx : x ∈ ids <;> by_cases hxy : x = y <;> simp [hx, hxy]

theorem parent_setText (h : t.WellFormed) (id : NodeId) {x : NodeId} (hx : t.parent x = none) (hlt : x < t.size) (data : String) :
    (t.setText id data).parent x = none := by
  unfold Tree.setText
  split
  · rw [parent_setKind]; exact hx
  · rw [parent_setKind]; exact hx
  · next hk =>
    have hel : t.isElement id = true := by rw [isElement, name?, hk]; rfl
    have hed := (fenced_zero h).detachAll (fun _ _ => Nat.zero_le _ : ∀ x ∈ t.children id, _)
    have hne : x ≠ (t.detachAll (t.children id)).size := Nat.ne_of_lt (Nat.lt_of_lt_of_le hlt hed.grows)
    refine (hed.wellFormed.parent_createBelow (hed.hosts (hosts_of_isElement hel)) _ _ x).trans ?_
    rw [if_neg hne, parent_detachAll]
    split
    · rfl
    · exact hx
  · exact hx

end Tree

namespace Splice

variable {S R : NodeId → Prop} {t : Tree}

/-- A line's element is new and stands nowhere yet. -/
structure NewLine (t : Tree) (copy : NodeId) (u : Tree) : Prop where
  fst : copy = t.size
  lt_size : t.size < u.size
  beyond : Beyond t.size t u
  parent : u.parent copy = none

theorem lineElement_spec (h : t.WellFormed) {model : NodeId} (hne : model ≠ root) (line : List Char) :
    NewLine t (lineElement t model line).1 (lineElement t model line).2 := by
  have hcopy := deepCopy_spec h hne
  unfold lineElement
  generalize t.deepCopy model = made at hcopy ⊢
  obtain ⟨copy, u⟩ := made
  simp only at hcopy ⊢
  have hfst := hcopy.fst
  have htext := hcopy.beyond.zone.setText (Nat.le_of_eq hfst.symm) (String.ofList line)
  have hparent := parent_setText hcopy.beyond.wellFormed copy hcopy.parent (hfst ▸ hcopy.lt_size) (String.ofList line)
  split
  · have hspace := htext.zone.setAttribute (Nat.le_of_eq hfst.symm : t.size ≤ copy) Word.space Word.preserve
    refine ⟨hfst, Nat.lt_of_lt_of_le hcopy.lt_size (Nat.le_trans htext.grows hspace.grows),
      (hcopy.beyond.trans htext).trans hspace, ?_⟩
    rw [parent_setAttribute]
    exact hparent
  · exact ⟨hfst, Nat.lt_of_lt_of_le hcopy.lt_size htext.grows, hcopy.beyond.trans htext, hparent⟩

/-- A new line may stand beside any older node. -/
theorem NewLine.joinable {copy : NodeId} {u : Tree} (hc : NewLine t copy u) (h : t.WellFormed) {anchor : NodeId}
    (ha : anchor < t.size) : Joinable u anchor copy where
  ne_root := by rw [hc.fst]; exact Nat.ne_of_gt h.rooted
  lt_size := by rw [hc.fst]; exact hc.lt_size
  apart p hp hw := by
    rw [hc.beyond.parent_eq ha] at hp
    exact Nat.not_lt_of_le (hc.beyond.zone.within (Nat.le_of_eq hc.fst.symm) hw) (h.parent_lt_size hp)

/-- A new line put beside an older node is an edit. -/
theorem NewLine.edited (h : Zone S R t) {copy : NodeId} {u : Tree} (hc : NewLine t copy u) {anchor : NodeId}
    (ha : ∀ p, t.parent anchor = some p → R p) (hlt : anchor < t.size) :
    Edited S R t (u.insertAfter anchor copy) ∧ S copy ∧ copy < (u.insertAfter anchor copy).size := by
  have hS : S copy := h.fresh copy (Nat.le_of_eq hc.fst.symm)
  have hed := hc.beyond.edited h h.fresh
  have hins := hed.zone.insertAfter (fun p hp => ha p (by rwa [hc.beyond.parent_eq hlt] at hp)) hS (hc.joinable h.wellFormed hlt)
  exact ⟨hed.trans hins, hS, Nat.lt_of_lt_of_le (hc.fst ▸ hc.lt_size) hins.grows⟩

theorem edited_addBrokenLines (h : Zone S R t) {model : NodeId} (hne : model ≠ root) {anchor : NodeId}
    (ha : ∀ p, t.parent anchor = some p → R p) (hlt : anchor < t.size) (lines : List (List Char)) :
    Edited S R t (addBrokenLines model anchor t lines) := by
  induction lines generalizing t anchor with
  | nil => exact .refl h
  | cons line lines ih =>
    -- first the break, then the line behind it
    have hnew := h.create (.element Word.lineBreak []) .none
    have hSb : S t.size := h.fresh _ (Nat.le_refl _)
    have hbreak := hnew.zone.insertAfter (fun p hp => ha p (by rwa [parent_create] at hp)) hSb
      (h.wellFormed.joinable_created (.element Word.lineBreak []) .none anchor)
    have hlt' : t.size < ((t.create (.element Word.lineBreak []) .none).2.insertAfter anchor t.size).size :=
      Nat.lt_of_lt_of_le (by rw [size_create]; exact Nat.lt_succ_self _) hbreak.grows
    obtain ⟨hline, hSc, hltc⟩ := (lineElement_spec hbreak.wellFormed hne line).edited hbreak.zone
      (fun p hp => hbreak.zone.upper p _ hp hSb) hlt'
    have hrest := ih hline.zone (fun p hp => hline.zone.upper p _ hp hSc) hltc
    exact ((hnew.trans hbreak).trans hline).trans hrest

theorem edited_addLines (h : Zone S R t) {model : NodeId} (hne : model ≠ root) (hS : S model) (hlt : model < t.size)
    (lines : List (List Char)) : Edited S R t (addLines model t lines) := by
  cases lines with
  | nil => exact .refl h
  | cons line lines =>
    obtain ⟨hline, hSc, hltc⟩ := (lineElement_spec h.wellFormed hne line).edited h (fun p hp => h.upper p _ hp hS) hlt
    exact hline.trans (edited_addBrokenLines hline.zone hne (fun p hp => hline.zone.upper p _ hp hSc) hltc lines)

end Splice

/-! ## Places for a replacement -/

/-- The anchors of a field may be worked on. -/
def Field.Owned (f : Field) (S : NodeId → Prop) (t : Tree) : Prop := ∀ a ∈ f.anchors, S a ∧ Hosts t a

theorem Tree.Edited.owned {S R : NodeId → Prop} {t u : Tree} (h : Edited S R t u) {f : Field} (hf : f.Owned S t) :
    f.Owned S u := fun a ha => ⟨(hf a ha).1, h.hosts (hf a ha).2⟩

namespace Target

variable {S R : NodeId → Prop} {t : Tree}

/-- What is found or made for the replacement: a node of the zone below another one. -/
structure Ready (S : NodeId → Prop) (id : NodeId) (t : Tree) : Prop where
  owned : S id
  hosts : Hosts t id

theorem addElement_spec (h : Zone S R t) {p : NodeId} (hS : S p) (hp : Hosts t p) (name : String) :
    Edited S R t (addElement t p name).2 ∧ Ready S (addElement t p name).1 (addElement t p name).2 ∧
      (addElement t p name).1 ≠ root := by
  have hed := h.createBelow (h.sub p hS) hp (.element name []) .none
  refine ⟨hed, ⟨h.fresh _ (Nat.le_refl _), hosts_of_isElement ?_⟩, Nat.ne_of_gt h.wellFormed.rooted⟩
  show Tree.isElement ((t.create _ _).2.appendChild _ _) t.size = true
  rw [Tree.isElement, Tree.name?, kind_createBelow, if_pos rfl]
  rfl

theorem resultAnchor?_mem {f : Field} {id : NodeId} (h : f.resultAnchor? t = some id) : id ∈ f.anchors := by
  rw [Field.resultAnchor?, Option.filter_eq_some_iff] at h
  have hmem := List.mem_of_mem_head? h.1
  exact (List.dropWhile_sublist _).subset (List.mem_of_mem_drop hmem)

theorem locateRun_spec (h : Zone S R t) {f : Field} (hf : f.Owned S t) :
    Edited S R t (locateRun t f).2 ∧ Ready S (locateRun t f).1 (locateRun t f).2 := by
  have hlast := hf f.last f.last_mem_anchors
  have hfirst := hf f.first f.first_mem_anchors
  unfold locateRun
  cases hd : f.display? t with
  | none =>
    have hnew := h.create (.element Word.run []) .none
    have hins := hnew.zone.insertBefore (fun p hp => h.upper p _ (by rwa [parent_create] at hp) hlast.1)
      (h.fresh _ (Nat.le_refl _)) (h.wellFormed.joinable_created (.element Word.run []) .none f.last)
    exact ⟨hnew.trans hins, h.fresh _ (Nat.le_refl _), hins.hosts (hosts_of_isElement (isElement_create t _ _ _))⟩
  | some id =>
    cases hs : f.shape with
    | complex =>
      rw [Field.display?, hs] at hd
      have hid := hf id (resultAnchor?_mem hd)
      exact ⟨.refl h, hid.1, hid.2⟩
    | simple =>
      rw [Field.display?, hs] at hd
      cases hd
      simp only
      cases hr : t.findDescendant? f.first Word.run with
      | some run =>
        obtain ⟨hw, -, hel, -⟩ := h.wellFormed.findDescendant?_eq_some hr
        exact ⟨.refl h, h.within hfirst.1 hw, hosts_of_isElement hel⟩
      | none =>
        obtain ⟨hed, hready, -⟩ := addElement_spec h hfirst.1 hfirst.2 Word.run
        exact ⟨hed, hready⟩

theorem locate_spec (h : Zone S R t) {f : Field} (hf : f.Owned S t) :
    Edited S R t (locate t f).2 ∧ Ready S (locate t f).1.run (locate t f).2 ∧ Ready S (locate t f).1.text (locate t f).2 ∧
      (locate t f).1.text ≠ root := by
  obtain ⟨hrun, hready⟩ := locateRun_spec h hf
  unfold locate
  generalize locateRun t f = found at hrun hready ⊢
  obtain ⟨run, u⟩ := found
  simp only at hrun hready ⊢
  cases ht : u.findDescendant? run Word.text with
  | some text =>
    obtain ⟨hw, hne, hel, -⟩ := hrun.wellFormed.findDescendant?_eq_some ht
    refine ⟨hrun, hready, ⟨hrun.zone.within hready.owned hw, hosts_of_isElement hel⟩, ?_⟩
    rintro rfl
    exact hne (within_of_parent_none hrun.wellFormed.top hw).symm
  | none =>
    obtain ⟨hed, htext, hne⟩ := addElement_spec hrun.zone hready.owned hready.hosts Word.text
    exact ⟨hrun.trans hed, ⟨hready.owned, hed.hosts hready.hosts⟩, htext, hne⟩

theorem edited_finish (h : Zone S R t) (target : Target) {f : Field} (hf : f.Owned S t) : Edited S R t (target.finish f t) := by
  unfold finish
  cases f.shape with
  | simple => exact h.unwrap (hf f.first f.first_mem_anchors).1
  | complex => exact h.detachAll fun x hx => (hf x (List.mem_filter.mp hx).1).1

end Target

/-! ## Texts -/

theorem edited_remove {S R : NodeId → Prop} {t : Tree} (h : Zone S R t) {f : Field} (hf : f.Owned S t) :
    Edited S R t (f.remove t) := h.detachAll fun x hx => (hf x hx).1

namespace Splice

variable {S R : NodeId → Prop} {t : Tree}

theorem edited_putText (h : Zone S R t) {f : Field} (hf : f.Owned S t) (s : String) : Edited S R t (putText f s t) := by
  obtain ⟨hloc, -, htext, hne⟩ := Target.locate_spec h hf
  unfold putText
  generalize Target.locate t f = found at hloc htext hne ⊢
  obtain ⟨target, u⟩ := found
  simp only at hloc htext hne ⊢
  have hlines := edited_addLines hloc.zone hne htext.owned htext.hosts.lt_size (Text.splitAt '\n' s.toList)
  have hcut := hlines.zone.detach htext.owned
  have hedit := (hloc.trans hlines).trans hcut
  exact hedit.trans (Target.edited_finish hcut.zone target (hedit.owned hf))

/-! ## Markup -/

/-- The elements of a fragment, which stand apart from `run` in a scratch node. -/
structure Loose (t : Tree) (container run : NodeId) (ids : List NodeId) : Prop where
  parent : ∀ x ∈ ids, t.parent x = some container
  apart : ∀ x ∈ ids, ¬ t.Within x run

theorem Loose.insertable {container run anchor : NodeId} {ids : List NodeId} (hl : Loose t container run ids)
    (h : t.WellFormed) (ha : t.Within anchor run) : Insertable t anchor ids where
  ne_root x hx he := by
    have hp := hl.parent x hx
    rw [he, h.top] at hp
    cases hp
  lt_size x hx := lt_size_of_parent (hl.parent x hx)
  apart y hy p hp x hx hw := by
    rcases List.mem_cons.mp hy with rfl | hy
    · exact hl.apart x hx (within_trans (within_parent hw hp) ha)
    · rw [hl.parent y hy] at hp
      cases hp
      exact h.not_within_of_parent (hl.parent x hx) hw

theorem edited_formatRun (h : Zone S R t) {formatting run : NodeId} (hf : formatting ≠ root) (hR : R run)
    (hrun : Hosts t run) : Edited S R t (formatRun formatting t run) := by
  unfold formatRun
  split
  · exact .refl h
  · have hcopy := deepCopy_spec h.wellFormed hf
    generalize t.deepCopy formatting = made at hcopy ⊢
    obtain ⟨copy, u⟩ := made
    simp only at hcopy ⊢
    have hed := hcopy.beyond.edited h h.fresh
    exact hed.trans (hed.zone.prependChild hR (h.fresh copy (Nat.le_of_eq hcopy.fst.symm)) (hcopy.movable h.wellFormed hrun))

theorem edited_inheritFormatting (h : Zone S R t) (run : NodeId) {ids : List NodeId}
    (hids : ∀ x ∈ ids.flatMap t.subtree, R x) :
    Edited S R t (inheritFormatting t run ids) := by
  unfold inheritFormatting
  cases hf : (t.elementChildren run).find? (t.isNamed Word.runProperties) with
  | none => exact .refl h
  | some formatting =>
    have hchild := (List.mem_filter.mp (List.mem_of_find?_eq_some hf)).1
    have hne : formatting ≠ root := by
      rintro rfl
      have hp := h.wellFormed.parent_of_mem hchild
      rw [h.wellFormed.top] at hp
      cases hp
    have hruns : ∀ x ∈ (ids.flatMap t.subtree).filter (t.isNamed Word.run), R x ∧ Hosts t x := by
      intro x hx
      obtain ⟨hmem, hnamed⟩ := List.mem_filter.mp hx
      exact ⟨hids x hmem, hosts_of_isElement (isElement_of_isNamed hnamed)⟩
    generalize (ids.flatMap t.subtree).filter (t.isNamed Word.run) = runs at hruns
    have hfold : ∀ {u : Tree}, Edited S R t u → Edited S R t (runs.foldl (formatRun formatting) u) := by
      induction runs with
      | nil => exact fun hu => hu
      | cons x runs ih =>
        intro u hu
        obtain ⟨hR, hx⟩ := hruns x List.mem_cons_self
        exact ih (fun y hy => hruns y (List.mem_cons_of_mem x hy))
          (hu.trans (edited_formatRun hu.zone hne hR (hu.hosts hx)))
    exact hfold (.refl h)

/-- Formatting the runs of a loose fragment leaves it loose. -/
theorem Loose.inheritFormatting {container run : NodeId} {ids : List NodeId} (hl : Loose t container run ids)
    (h : t.WellFormed) (hrun : run < t.size) : Loose (inheritFormatting t run ids) container run ids := by
  have hzone : Zone (fun x => t.size ≤ x) (fun _ => True) t :=
    ⟨h, fun _ => id, fun p c hc hp => absurd (h.parent_lt_size hc) (Nat.not_lt_of_le hp), fun _ _ _ _ => trivial,
      fun _ _ => trivial⟩
  have hed := edited_inheritFormatting hzone run fun _ (_ : _ ∈ ids.flatMap t.subtree) => trivial
  refine ⟨fun x hx => ?_, fun x hx hw => hl.apart x hx ?_⟩
  · rw [hed.parent x (Nat.not_le_of_lt (lt_size_of_parent (hl.parent x hx)))]
    exact hl.parent x hx
  · exact (hed.within_iff_of_not_mem hzone (Nat.not_le_of_lt hrun)).mp hw

/-- What is in the field, and all that is new, is a zone that does not reach into a node apart from it. -/
theorem zone_apart (h : t.WellFormed) {container : NodeId} (hlt : container < t.size) {f : Field}
    (hapart : ∀ a ∈ f.anchors, ∀ x, t.Within container x → ¬ t.Within a x) :
    Zone (fun x => (∃ a ∈ f.anchors, t.Within a x) ∨ t.size ≤ x) (fun x => ¬ t.Within container x) t ∧
      ∀ x, t.Within container x → ¬ ((∃ a ∈ f.anchors, t.Within a x) ∨ t.size ≤ x) := by
  have hin : ∀ x, t.Within container x → ¬ ((∃ a ∈ f.anchors, t.Within a x) ∨ t.size ≤ x) := by
    rintro x hw (⟨a, ha, hax⟩ | hx)
    · exact hapart a ha x hw hax
    · by_cases he : x = container
      · exact Nat.not_lt_of_le hx (he ▸ hlt)
      · exact Nat.not_lt_of_le hx (lt_size_of_within hw he)
  exact ⟨h.zone_within (fun x hS hw => hin x hw hS) fun a ha p hp hw =>
    hin a (within_parent hw hp) (Or.inl ⟨a, ha, within_refl t a⟩), hin⟩

section apart

variable (h : t.WellFormed) {container : NodeId} (hlt : container < t.size) {f : Field}
  (hf : ∀ a ∈ f.anchors, Hosts t a ∧ ∀ x, t.Within container x → ¬ t.Within a x)

include h hlt hf

/-- What stands in a node apart from the field stands apart from the run that is found or made for it. -/
theorem apart_locate {d : NodeId} (hd : (Target.locate t f).2.Within container d) :
    ¬ (Target.locate t f).2.Within (Target.locate t f).1.run d := by
  obtain ⟨hzone, hin⟩ := zone_apart h hlt fun a ha => (hf a ha).2
  obtain ⟨hed, hrun, -, -⟩ := Target.locate_spec hzone (f := f) fun a ha => ⟨Or.inl ⟨a, ha, within_refl t a⟩, (hf a ha).1⟩
  -- down from the container nothing is in the zone
  have hout : ∀ x, (Target.locate t f).2.Within container x → ¬ ((∃ a ∈ f.anchors, t.Within a x) ∨ t.size ≤ x) := by
    intro x hx
    induction hx with
    | refl => exact hin container (within_refl t container)
    | tail hq hp ih => exact fun hS => hed.zone.upper _ _ hp hS ((hed.within_iff_of_not_mem hzone ih).mp hq)
  exact fun hw => hout d hd (hed.zone.within hrun.owned hw)

/-- Looking for a field's place leaves a fragment that stands apart from it loose. -/
theorem loose_locate {ids : List NodeId} (hids : ∀ x ∈ ids, t.parent x = some container) :
    Loose (Target.locate t f).2 container (Target.locate t f).1.run ids := by
  obtain ⟨hzone, hin⟩ := zone_apart h hlt fun a ha => (hf a ha).2
  obtain ⟨hed, -, -, -⟩ := Target.locate_spec hzone (f := f) fun a ha => ⟨Or.inl ⟨a, ha, within_refl t a⟩, (hf a ha).1⟩
  have hparent : ∀ x ∈ ids, (Target.locate t f).2.parent x = some container := fun x hx => by
    rw [hed.parent x (hin x (within_of_parent (hids x hx)))]
    exact hids x hx
  exact ⟨hparent, fun x hx hw => apart_locate h hlt hf (within_trans (within_of_parent (hparent x hx)) hw) (within_refl _ _)⟩

end apart

/-- Elements are put in the place of the run, which edits the field only, or in the place of the
    paragraph around it. -/
theorem putElements_cases (h : Zone S R t) {container : NodeId} (hc : S container) (hlt : container < t.size) {ids : List NodeId}
    (hids : ∀ x ∈ ids, t.parent x = some container) {f : Field} (hf : f.Owned S t)
    (hapart : ∀ a ∈ f.anchors, ∀ x, t.Within container x → ¬ t.Within a x) :
    Edited S R t (putElements f ids t) ∨ ∃ u run paragraph, Edited S R t u ∧ Target.Ready S run u ∧ Loose u container run ids ∧
      u.findAncestor? run Word.paragraph = some paragraph ∧ putElements f ids t = replaceParagraph paragraph ids u := by
  have hloose := loose_locate h.wellFormed hlt (fun a ha => ⟨(hf a ha).2, hapart a ha⟩) hids
  obtain ⟨hloc, hrun, -, -⟩ := Target.locate_spec h hf
  have hS : ∀ x ∈ ids, S x := fun x hx => h.lower _ _ (hids x hx) hc
  unfold putElements
  generalize Target.locate t f = found at hloose hloc hrun ⊢
  obtain ⟨target, u⟩ := found
  simp only at hloose hloc hrun ⊢
  -- what takes the place of the run, in a tree where the fragment is loose
  have hreplaceRun : ∀ {v}, Edited S R t v → Loose v container target.run ids → Edited S R t (replaceRun f target ids v) := by
    intro v hv hl
    have hins := hv.zone.insertAllAfter (fun p hp => hv.zone.upper p _ hp hrun.owned) hS
      (hl.insertable hv.wellFormed (within_refl v target.run))
    have hcut := hins.zone.detach hrun.owned
    have hall := (hv.trans hins).trans hcut
    exact hall.trans (Target.edited_finish hcut.zone target (hall.owned hf))
  have hinline : Edited S R t (replaceRun f target ids (inheritFormatting u target.run ids)) := by
    refine hreplaceRun (hloc.trans (edited_inheritFormatting hloc.zone _ fun x hx => ?_))
      (hloose.inheritFormatting hloc.wellFormed hrun.hosts.lt_size)
    obtain ⟨y, hy, hxy⟩ := List.mem_flatMap.mp hx
    exact hloc.zone.sub x (hloc.zone.within (hS y hy) (hloc.wellFormed.mem_subtree.mp hxy))
  cases ha : u.findAncestor? target.run Word.paragraph with
  | none =>
    cases allInline u ids with
    | true => exact Or.inl hinline
    | false => exact Or.inl (hreplaceRun hloc hloose)
  | some paragraph =>
    cases allInline u ids with
    | true => exact Or.inl hinline
    | false => exact Or.inr ⟨u, target.run, paragraph, hloc, hrun, hloose, ha, rfl⟩

theorem edited_putElements (h : Zone S R t) (hRS : ∀ x, R x → S x) {container : NodeId} (hc : S container)
    (hlt : container < t.size) {ids : List NodeId} (hids : ∀ x ∈ ids, t.parent x = some container) {f : Field}
    (hf : f.Owned S t) (hapart : ∀ a ∈ f.anchors, ∀ x, t.Within container x → ¬ t.Within a x) :
    Edited S R t (putElements f ids t) := by
  rcases putElements_cases h hc hlt hids hf hapart with hed | ⟨u, run, paragraph, hloc, hrun, hloose, ha, he⟩
  · exact hed
  rw [he]
  obtain ⟨-, hw, -, -⟩ := hloc.wellFormed.findAncestor?_eq_some ha
  have hpar : S paragraph := hloc.zone.above hRS hw hrun.owned
  have hins := hloc.zone.insertAllAfter (fun p hp => hloc.zone.upper p _ hp hpar)
    (fun x hx => h.lower _ _ (hids x hx) hc) (hloose.insertable hloc.wellFormed hw)
  exact (hloc.trans hins).trans (hins.zone.detach hpar)

/-- Markup was read: its elements are new and stand below a node of their own. -/
structure Fetched (t u : Tree) : Prop where
  beyond : Beyond t.size t u
  hosts : Hosts u t.size

theorem Fetched.parent {u : Tree} (hu : Fetched t u) : ∀ x ∈ u.elementChildren t.size, u.parent x = some t.size := fun _ hx =>
  hu.beyond.wellFormed.parent_of_mem (List.mem_filter.mp hx).1

/-- No older node is above them. -/
theorem Fetched.apart {u : Tree} (hu : Fetched t u) {a : NodeId} (ha : a < t.size) : ∀ x, u.Within t.size x → ¬ u.Within a x :=
  fun _ hx hax => Nat.not_lt_of_le (hu.beyond.zone.within (Nat.le_refl t.size) hx) (Fenced.lt_of_within hu.beyond.zone ha hax)

theorem fetched_readInto (h : t.WellFormed) (source : String) :
    Fetched t ((t.create (.element fragmentName []) .none).2.readInto t.size source 0).2 := by
  have hfence := (fenced_size h).create (.element fragmentName []) .none
  have hcont : Hosts (t.create (.element fragmentName []) .none).2 t.size := hosts_of_isElement (isElement_create t _ _ _)
  have hread := edited_readInto hfence.zone (Nat.le_refl t.size) hcont source 0
  exact ⟨hfence.trans hread, hread.hosts hcont⟩

/-- Markup that cannot be read is left where it was read to; otherwise its elements are put in place. -/
theorem putMarkup_cases (h : t.WellFormed) (f : Field) (source : String) : ∃ u, Fetched t u ∧
    ((∃ e, putMarkup f source t = (.error e, u)) ∨ putMarkup f source t = (.ok (), putElements f (u.elementChildren t.size) u)) := by
  have hfetched := fetched_readInto h source
  unfold putMarkup
  simp only [createElement, create_fst]
  generalize (t.create (.element fragmentName []) .none).2.readInto t.size source 0 = read at hfetched ⊢
  obtain ⟨result, u⟩ := read
  refine ⟨u, hfetched, ?_⟩
  cases result with
  | error e => exact Or.inl ⟨e, rfl⟩
  | ok _ => exact Or.inr rfl

/-- Whether or not the markup can be read, nothing but the field's surroundings is edited. -/
theorem edited_putMarkup (h : Zone S R t) (hRS : ∀ x, R x → S x) {f : Field} (hf : f.Owned S t)
    (hlt : ∀ a ∈ f.anchors, a < t.size) (source : String) : Edited S R t (putMarkup f source t).2 := by
  obtain ⟨u, hu, hput⟩ := putMarkup_cases h.wellFormed f source
  have hed : Edited S R t u := hu.beyond.edited h h.fresh
  rcases hput with ⟨e, he⟩ | he
  · rw [he]
    exact hed
  · rw [he]
    exact hed.trans (edited_putElements hed.zone hRS (h.fresh _ (Nat.le_refl _)) hu.hosts.lt_size hu.parent (hed.owned hf)
      fun a ha => hu.apart (hlt a ha))

end Splice

end MailMerge
