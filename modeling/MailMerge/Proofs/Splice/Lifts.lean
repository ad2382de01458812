/-
  MailMerge.Proofs.Splice.Lifts — where the nodes stay that a splice did not make.

  Of the nodes that were there before, few edits move any: an edit links the new nodes it
  makes, and takes others out (`Stays`). Only the unwrapping of a field that is one element
  moves nodes from one place of the tree to another, one level up (`Lifts`).

  Proved: whatever value is put in a field's place, the older nodes keep their kinds, and
  each of them has left its parent, or has kept it, or stood below the field's own element
  and now stands beside it (`lifts_insert`).
-/

import MailMerge.Proofs.Merge.Edits
import MailMerge.Proofs.Tree.Twigs

namespace MailMerge

namespace Tree

/-- Of the nodes before `m` each keeps its kind, and its parent unless it leaves. -/
structure Stays (m : Nat) (t u : Tree) : Prop where
  grows : t.size ≤ u.size
  kind : ∀ x < m, u.kind x = t.kind x
  parent : ∀ x < m, ∀ p, u.parent x = some p → t.parent x = some p

variable {m : Nat} {t u v : Tree}

theorem Stays.refl (m : Nat) (t : Tree) : Stays m t t := ⟨Nat.le_refl _, fun _ _ => rfl, fun _ _ _ => id⟩

theorem Stays.trans (h : Stays m t u) (h' : Stays m u v) : Stays m t v where
  grows := Nat.le_trans h.grows h'.grows
  kind x hx := (h'.kind x hx).trans (h.kind x hx)
  parent x hx p hp := h.parent x hx p (h'.parent x hx p hp)

theorem Beyond.stays {n : Nat} (h : Beyond n t u) (hm : m ≤ n) : Stays m t u where
  grows := h.grows
  kind x hx := h.kind_eq (Nat.lt_of_lt_of_le hx hm)
  parent x hx p hp := by rwa [h.parent_eq (Nat.lt_of_lt_of_le hx hm)] at hp

/-! ## Single edits -/

theorem stays_create (hm : m ≤ t.size) (k : Kind) (s : Span) : Stays m t (t.create k s).2 where
  grows := by rw [size_create]; exact Nat.le_succ _
  kind x hx := by rw [kind_create, if_neg (Nat.ne_of_lt (Nat.lt_of_lt_of_le hx hm))]
  parent x _ p hp := by rwa [parent_create] at hp

theorem stays_detach (m : Nat) (t : Tree) (x : NodeId) : Stays m t (t.detach x) where
  grows := Nat.le_of_eq (size_detach t x).symm
  kind y _ := kind_detach t x y
  parent y _ p hp := by
    rw [parent_detach] at hp
    split at hp
    · cases hp
    · exact hp

theorem stays_detachAll (m : Nat) (t : Tree) (ids : List NodeId) : Stays m t (t.detachAll ids) := by
  induction ids generalizing t with
  | nil => exact .refl m t
  | cons x ids ih => exact (stays_detach m t x).trans (ih _)

theorem stays_setSpan (m : Nat) (t : Tree) (id : NodeId) (s : Span) : Stays m t (t.setSpan id s) where
  grows := Nat.le_of_eq (size_setSpan t id s).symm
  kind x _ := kind_setSpan t id x s
  parent x _ p hp := by rwa [parent_setSpan] at hp

section moved

variable {x : NodeId} (hx : m ≤ x)

include hx

theorem stays_setKind (t : Tree) (k : Kind) : Stays m t (t.setKind x k) where
  grows := Nat.le_of_eq (size_setKind t x k).symm
  kind y hy := by rw [kind_setKind, if_neg fun (hc : y = x ∧ _) => Nat.not_lt_of_le hx (hc.1 ▸ hy)]
  parent y _ p hp := by rwa [parent_setKind] at hp

theorem stays_setAttribute (t : Tree) (key value : String) : Stays m t (t.setAttribute x key value) := by
  unfold setAttribute
  split
  · exact stays_setKind hx t _
  · exact .refl m t

theorem stays_link (t : Tree) (p : NodeId) (place : List NodeId → List NodeId) :
    Stays m t ((t.setParent x (some p)).mapChildren p place) where
  grows := by rw [size_mapChildren, size_setParent]
  kind y _ := by rw [kind_mapChildren, kind_setParent]
  parent y hy q hq := by
    rw [parent_mapChildren, parent_setParent, if_neg fun (hc : y = x ∧ _) => Nat.not_lt_of_le hx (hc.1 ▸ hy)] at hq
    exact hq

theorem stays_appendChild (t : Tree) (p : NodeId) : Stays m t (t.appendChild p x) :=
  (stays_detach m t x).trans (stays_link hx _ p _)

theorem stays_prependChild (t : Tree) (p : NodeId) : Stays m t (t.prependChild p x) :=
  (stays_detach m t x).trans (stays_link hx _ p _)

theorem stays_insertBeside (place : NodeId → NodeId → List NodeId → List NodeId) (t : Tree) (anchor : NodeId) :
    Stays m t (insertBeside place t anchor x) := by
  unfold insertBeside
  split
  · exact .refl m t
  · split
    · exact .refl m t
    · next p _ =>
      simp only
      split
      · exact (stays_detach m t x).trans (stays_link hx _ p _)
      · exact stays_detach m t x

theorem stays_insertAfter (t : Tree) (anchor : NodeId) : Stays m t (t.insertAfter anchor x) :=
  stays_insertBeside hx _ t anchor

theorem stays_insertBefore (t : Tree) (anchor : NodeId) : Stays m t (t.insertBefore anchor x) :=
  stays_insertBeside hx _ t anchor

theorem stays_setText (hm : m ≤ t.size) (data : String) : Stays m t (t.setText x data) := by
  unfold setText
  split
  · exact stays_setKind hx t _
  · exact stays_setKind hx t _
  · have hcut := stays_detachAll m t (t.children x)
    have hsize : m ≤ (t.detachAll (t.children x)).size := Nat.le_trans hm hcut.grows
    exact (hcut.trans (stays_create hsize _ _)).trans (stays_appendChild hsize _ x)
  · exact .refl m t

end moved

theorem stays_insertAllAfter {ids : List NodeId} (hids : ∀ x ∈ ids, m ≤ x) (t : Tree) (anchor : NodeId) :
    Stays m t (t.insertAllAfter anchor ids) := by
  induction ids generalizing t anchor with
  | nil => exact .refl m t
  | cons x ids ih =>
    exact (stays_insertAfter (hids x List.mem_cons_self) t anchor).trans (ih (fun y hy => hids y (List.mem_cons_of_mem x hy)) _ x)

theorem stays_createBelow (hm : m ≤ t.size) (k : Kind) (s : Span) (p : NodeId) :
    Stays m t ((t.create k s).2.appendChild p t.size) :=
  (stays_create hm k s).trans (stays_appendChild hm _ p)

/-! ## Unwrapping -/

/-- Of the nodes before `m` each keeps its kind, and its parent unless it leaves or goes to the
    place of its parent, which is in `P`. -/
structure Lifts (m : Nat) (P : NodeId → Prop) (t u : Tree) : Prop where
  grows : t.size ≤ u.size
  kind : ∀ x < m, u.kind x = t.kind x
  parent : ∀ x < m, ∀ p, u.parent x = some p →
    t.parent x = some p ∨ ∃ w, P w ∧ t.parent x = some w ∧ t.parent w = some p

theorem Stays.lifts (h : Stays m t u) (P : NodeId → Prop) : Lifts m P t u :=
  ⟨h.grows, h.kind, fun x hx p hp => Or.inl (h.parent x hx p hp)⟩

/-- A node is unwrapped after edits that moved no older one. -/
theorem Stays.unwrap (h : Stays m t u) (hu : u.WellFormed) {P : NodeId → Prop} {id : NodeId} (hid : id < m) (hP : P id) :
    Lifts m P t (u.unwrap id) where
  grows := by
    have hins := stays_insertAllAfter (fun x _ => Nat.zero_le x : ∀ x ∈ u.children id, 0 ≤ x) u id
    rw [Tree.unwrap, size_detach]
    exact Nat.le_trans h.grows hins.grows
  kind x hx := by rw [Tree.unwrap, kind_detach, kind_insertAllAfter, h.kind x hx]
  parent x hx p hp := by
    rw [hu.parent_unwrap] at hp
    split at hp
    · cases hp
    · split at hp
      · next hc =>
        have hx := h.parent x hx id hc
        cases hp
        cases hq : u.parent id with
        | none => exact Or.inl hx
        | some q => exact Or.inr ⟨id, hP, hx, h.parent id hid q hq⟩
      · exact Or.inl (h.parent x hx p hp)

/-! ## Copies and markup -/

theorem fst_copyTo (n : Nat) (t : Tree) (id : NodeId) : (copyTo n t id).1 = t.size := by
  cases n <;> rfl

/-- A copy is a new node of the kind of its original, and what is made below it moves neither it
    nor what was there before. -/
theorem stays_filling (n : Nat) {t : Tree} (hm : m ≤ t.size + 1) (id : NodeId) :
    Stays m (t.create (t.kind id) (t.span id)).2 (copyTo n t id).2 := by
  induction n generalizing t id with
  | zero => exact .refl m _
  | succ n ih =>
    have hfold : ∀ (cs : List NodeId) (u : Tree), Stays m (t.create (t.kind id) (t.span id)).2 u →
        Stays m (t.create (t.kind id) (t.span id)).2 (cs.foldl (fun u child =>
          (copyTo n u child).2.adopt t.size (copyTo n u child).1) u) := by
      intro cs
      induction cs with
      | nil => exact fun _ hu => hu
      | cons c cs ihc =>
        intro u hu
        have hsize : m ≤ u.size := Nat.le_trans hm (by simpa using hu.grows)
        have hcopy := (stays_create hsize (u.kind c) (u.span c)).trans (ih (Nat.le_succ_of_le hsize) c)
        refine ihc _ ((hu.trans hcopy).trans (stays_link ?_ _ t.size _))
        rw [fst_copyTo]
        exact hsize
    exact hfold (t.children id) _ (.refl m _)

theorem stays_copyTo (n : Nat) {t : Tree} (hm : m ≤ t.size) (id : NodeId) :
    (copyTo n t id).1 = t.size ∧ Stays m t (copyTo n t id).2 :=
  ⟨fst_copyTo n t id, (stays_create hm _ _).trans (stays_filling n (Nat.le_succ_of_le hm) id)⟩

theorem stays_deepCopy {t : Tree} (hm : m ≤ t.size) (id : NodeId) :
    (t.deepCopy id).1 = t.size ∧ Stays m t (t.deepCopy id).2 := stays_copyTo t.size hm id

theorem stays_addPieces {t : Tree} (hm : m ≤ t.size) (parent : NodeId) (path : List NodeId) (ps : List Markup.Placed) :
    Stays m t (Markup.addPieces parent path t ps).2 := by
  induction ps generalizing t path with
  | nil => exact .refl m t
  | cons p ps ih =>
    rw [Markup.addPieces]
    cases hg : Markup.growth t path p.piece with
    | error e => exact .refl m t
    | ok g =>
      have hone : Stays m t (Markup.grow parent path p.span t g).2 := by
        cases g with
        | enter k => exact stays_createBelow hm k _ _
        | leaf k => exact stays_createBelow hm k _ _
        | leave id rest => exact stays_setSpan m t id _
        | nothing => exact .refl m t
      exact hone.trans (ih (Nat.le_trans hm hone.grows) _)

theorem stays_readInto {t : Tree} (hm : m ≤ t.size) (parent : NodeId) (text : String) (source : Nat) :
    Stays m t (t.readInto parent text source).2 := by
  have hed := stays_addPieces hm parent [] (Markup.pieces text.toList).1
  unfold readInto
  generalize Markup.pieces text.toList = found at hed ⊢
  obtain ⟨ps, broken⟩ := found
  simp only at hed ⊢
  generalize Markup.addPieces parent [] t ps = grown at hed ⊢
  obtain ⟨result, u⟩ := grown
  simp only at hed ⊢
  cases result with
  | error e => exact hed
  | ok path =>
    cases broken with
    | some b => exact hed
    | none => cases path <;> exact hed

end Tree

open MailMerge.Tree

/-! ## Places for a replacement -/

variable {m : Nat} {t : Tree}

theorem Target.stays_locateRun (hm : m ≤ t.size) (f : Field) : Stays m t (locateRun t f).2 := by
  unfold locateRun
  split
  · exact .refl m t
  · split
    · exact .refl m t
    · exact stays_createBelow hm _ _ _
  · exact (stays_create hm _ _).trans (stays_insertBefore hm _ f.last)

theorem Target.stays_locate (hm : m ≤ t.size) (f : Field) : Stays m t (locate t f).2 := by
  have hrun := stays_locateRun hm f
  unfold locate
  generalize locateRun t f = found at hrun ⊢
  obtain ⟨run, u⟩ := found
  simp only at hrun ⊢
  split
  · exact hrun
  · exact hrun.trans (stays_createBelow (Nat.le_trans hm hrun.grows) _ _ run)

/-- The element that a simple field is. -/
def Field.Wraps (f : Field) (w : NodeId) : Prop := f.shape = .simple ∧ w = f.first

/-- The markers of a field go; one that is an element is unwrapped. -/
theorem Target.lifts_finish {u : Tree} (h : Stays m t u) (hu : u.WellFormed) (target : Target) {f : Field}
    (hf : f.first < m) : Lifts m f.Wraps t (target.finish f u) := by
  unfold finish
  cases hs : f.shape with
  | simple => exact h.unwrap hu hf ⟨hs, rfl⟩
  | complex => exact (h.trans (stays_detachAll m u _)).lifts _

/-! ## Values -/

namespace Splice

/-- What is found or made for the text is a text element. -/
theorem isNamed_text (t : Tree) (f : Field) : (Target.locate t f).2.isNamed Word.text (Target.locate t f).1.text = true := by
  unfold Target.locate
  generalize Target.locateRun t f = found
  obtain ⟨run, u⟩ := found
  simp only
  cases hd : u.findDescendant? run Word.text with
  | some text => exact List.find?_some hd
  | none =>
    have hkind := kind_createBelow u run (.element Word.text []) .none u.size
    rw [if_pos rfl] at hkind
    exact (isNamed_of_kind hkind Word.text).trans (by decide)

theorem stays_lineElement (hm : m ≤ t.size) (model : NodeId) (line : List Char) :
    m ≤ (lineElement t model line).1 ∧ Stays m t (lineElement t model line).2 := by
  obtain ⟨hfst, hcopy⟩ := stays_deepCopy hm model
  unfold lineElement
  generalize t.deepCopy model = made at hfst hcopy ⊢
  obtain ⟨copy, u⟩ := made
  simp only at hfst hcopy ⊢
  have hle : m ≤ copy := Nat.le_trans hm (Nat.le_of_eq hfst.symm)
  have htext := stays_setText hle (Nat.le_trans hm hcopy.grows) (String.ofList line)
  refine ⟨hle, ?_⟩
  split
  · exact (hcopy.trans htext).trans (stays_setAttribute hle _ _ _)
  · exact hcopy.trans htext

theorem stays_addBrokenLines (hm : m ≤ t.size) (model anchor : NodeId) (lines : List (List Char)) :
    Stays m t (addBrokenLines model anchor t lines) := by
  induction lines generalizing t anchor with
  | nil => exact .refl m t
  | cons line lines ih =>
    have hbreak := (stays_create hm (.element Word.lineBreak []) .none).trans (stays_insertAfter hm _ anchor)
    have hsize := Nat.le_trans hm hbreak.grows
    obtain ⟨hle, hline⟩ := stays_lineElement hsize model line
    have hins := (hbreak.trans hline).trans (stays_insertAfter hle _ t.size)
    exact hins.trans (ih (Nat.le_trans hm hins.grows) _)

theorem stays_addLines (hm : m ≤ t.size) (model : NodeId) (lines : List (List Char)) : Stays m t (addLines model t lines) := by
  cases lines with
  | nil => exact .refl m t
  | cons line lines =>
    obtain ⟨hle, hline⟩ := stays_lineElement hm model line
    have hins := hline.trans (stays_insertAfter hle _ model)
    exact hins.trans (stays_addBrokenLines (Nat.le_trans hm hins.grows) model _ lines)

theorem lifts_putText (h : t.WellFormed) (hm : m ≤ t.size) {f : Field} (hf : f.Owned (fun x => 0 ≤ x) t) (hfirst : f.first < m)
    (s : String) : Lifts m f.Wraps t (putText f s t) := by
  obtain ⟨hloc, -, htext, hne⟩ := Target.locate_spec (fenced_zero h) hf
  have hstay := Target.stays_locate hm f
  unfold putText
  generalize Target.locate t f = found at hloc htext hne hstay ⊢
  obtain ⟨target, u⟩ := found
  simp only at hloc htext hne hstay ⊢
  have hlines := edited_addLines hloc.zone hne htext.owned htext.hosts.lt_size (Text.splitAt '\n' s.toList)
  have hstays := hstay.trans (stays_addLines (Nat.le_trans hm hstay.grows) target.text (Text.splitAt '\n' s.toList))
  exact Target.lifts_finish (hstays.trans (stays_detach m _ target.text)) (hlines.wellFormed.detach target.text) target hfirst

theorem stays_formatRun (hm : m ≤ t.size) (formatting run : NodeId) : Stays m t (formatRun formatting t run) := by
  unfold formatRun
  split
  · exact .refl m t
  · obtain ⟨hfst, hcopy⟩ := stays_deepCopy hm formatting
    exact hcopy.trans (stays_prependChild (Nat.le_trans hm (Nat.le_of_eq hfst.symm)) _ run)

theorem stays_inheritFormatting (hm : m ≤ t.size) (run : NodeId) (ids : List NodeId) :
    Stays m t (inheritFormatting t run ids) := by
  unfold inheritFormatting
  split
  · exact .refl m t
  · next formatting hfound =>
    clear hfound
    generalize (ids.flatMap t.subtree).filter (t.isNamed Word.run) = runs
    induction runs generalizing t with
    | nil => exact .refl m t
    | cons x runs ih =>
      have hone := stays_formatRun hm formatting x
      exact hone.trans (ih (Nat.le_trans hm hone.grows))

theorem lifts_putElements (h : t.WellFormed) (hm : m ≤ t.size) {container : NodeId} (hlt : container < t.size) {ids : List NodeId}
    (hids : ∀ x ∈ ids, t.parent x = some container ∧ m ≤ x) {f : Field} (hf : f.Owned (fun x => 0 ≤ x) t) (hfirst : f.first < m)
    (hapart : ∀ a ∈ f.anchors, ∀ x, t.Within container x → ¬ t.Within a x) : Lifts m f.Wraps t (putElements f ids t) := by
  have hloose := loose_locate h hlt (fun a ha => ⟨(hf a ha).2, hapart a ha⟩) fun x hx => (hids x hx).1
  obtain ⟨hloc, hrun, -, -⟩ := Target.locate_spec (fenced_zero h) hf
  have hnew : ∀ x ∈ ids, m ≤ x := fun x hx => (hids x hx).2
  have hstay := Target.stays_locate hm f
  unfold putElements
  generalize Target.locate t f = found at hloose hloc hrun hstay ⊢
  obtain ⟨target, u⟩ := found
  simp only at hloose hloc hrun hstay ⊢
  have hreplaceRun : ∀ {v}, Stays m t v → v.WellFormed → Loose v container target.run ids →
      Lifts m f.Wraps t (replaceRun f target ids v) := by
    intro v hv hwf hl
    have hins := (fenced_zero hwf).insertAllAfter (fun _ _ => Nat.zero_le _) (fun _ _ => Nat.zero_le _)
      (hl.insertable hwf (within_refl v target.run))
    refine Target.lifts_finish ?_ (hins.wellFormed.detach target.run) target hfirst
    exact (hv.trans (stays_insertAllAfter hnew v target.run)).trans (stays_detach m _ target.run)
  have hinline : Lifts m f.Wraps t (replaceRun f target ids (inheritFormatting u target.run ids)) := by
    refine hreplaceRun (hstay.trans (stays_inheritFormatting (Nat.le_trans hm hstay.grows) _ _)) ?_
      (hloose.inheritFormatting hloc.wellFormed hrun.hosts.lt_size)
    exact (edited_inheritFormatting (fenced_zero hloc.wellFormed) target.run fun _ _ => Nat.zero_le _).wellFormed
  cases u.findAncestor? target.run Word.paragraph with
  | none =>
    cases allInline u ids with
    | true => exact hinline
    | false => exact hreplaceRun hstay hloc.wellFormed hloose
  | some paragraph =>
    cases allInline u ids with
    | true => exact hinline
    | false =>
      exact ((hstay.trans (stays_insertAllAfter hnew u paragraph)).trans (stays_detach m _ paragraph)).lifts _

theorem lifts_putMarkup (h : t.WellFormed) (hm : m ≤ t.size) {f : Field} (hf : f.Owned (fun x => 0 ≤ x) t) (hfirst : f.first < m)
    (source : String) : Lifts m f.Wraps t (putMarkup f source t).2 := by
  obtain ⟨u, hu, ⟨e, he⟩ | he⟩ := putMarkup_cases h f source
  · rw [he]
    exact (hu.beyond.stays hm).lifts _
  · rw [he]
    have howned : f.Owned (fun x => 0 ≤ x) u := fun a ha =>
      ⟨Nat.zero_le a, (hu.beyond.edited (fenced_zero h) fun _ _ => Nat.zero_le _).hosts (hf a ha).2⟩
    have hids : ∀ x ∈ u.elementChildren t.size, u.parent x = some t.size ∧ m ≤ x := fun x hx =>
      ⟨hu.parent x hx, Nat.le_trans hm (hu.beyond.zone.lower _ _ (hu.parent x hx) (Nat.le_refl _))⟩
    have hput := lifts_putElements hu.beyond.wellFormed (Nat.le_trans hm hu.beyond.grows) hu.hosts.lt_size hids howned hfirst
      fun a ha => hu.apart (hf a ha).2.lt_size
    have hold : ∀ {y q}, y < m → u.parent y = some q → t.parent y = some q := fun hy hq => (hu.beyond.stays hm).parent _ hy _ hq
    refine ⟨Nat.le_trans hu.beyond.grows hput.grows, fun x hx => ?_, fun x hx p hp => ?_⟩
    · rw [hput.kind x hx, (hu.beyond.stays hm).kind x hx]
    · rcases hput.parent x hx p hp with hp | ⟨w, hw, hxw, hwp⟩
      · exact Or.inl (hold hx hp)
      · exact Or.inr ⟨w, hw, hold hx hxw, hold (hw.2 ▸ hfirst) hwp⟩

end Splice

/-- Putting a value in a field's place moves older nodes only out of the field's own element. -/
theorem lifts_insert {s : Session} (h : s.tree.WellFormed) (hm : m ≤ s.tree.size) {f : Field} (hf : f.Owned (fun x => 0 ≤ x) s.tree)
    (hfirst : f.first < m) (v : Value) : Lifts m f.Wraps s.tree (Statement.insert f v s).2.tree := by
  have hremove : Lifts m f.Wraps s.tree (f.remove s.tree) := (stays_detachAll m s.tree f.anchors).lifts _
  have htext : ∀ text, Lifts m f.Wraps s.tree (Splice.putText f text s.tree) := fun text =>
    Splice.lifts_putText h hm hf hfirst text
  cases v with
  | nil => exact hremove
  | boolean b => cases b with
    | false => exact hremove
    | true => exact htext _
  | content c =>
    cases c with
    | image image => exact hremove
    | text text => exact htext text
    | markup source =>
      have hput := Splice.lifts_putMarkup h hm hf hfirst source
      rw [Statement.insert, Merge.run_bind_ok (Merge.run_withTree _ s)]
      generalize Splice.putMarkup f source s.tree = put at hput
      obtain ⟨result, u⟩ := put
      cases result <;> exact hput
  | _ => exact htext _

end MailMerge
