/-
  MailMerge.Proofs.Splice.Renumbered — a value in a field's place, in the store of another tree.

  What is put in a field's place is made of new nodes, of copies, and of nodes that are looked up
  from the field. Where the tree is held under other numbers all of this is done to the nodes
  with these numbers. Copies and look-ups take as many steps as a well-formed tree needs, so the
  tree is known to be one before each of them.

  Proved: places for a replacement, texts, fragments of markup and formatting, one lemma for each.
-/

import MailMerge.Proofs.Field.Renumbered
import MailMerge.Proofs.Markup.Shift
import MailMerge.Proofs.Splice.Edits

namespace MailMerge

open MailMerge.Tree

variable {ρ : NodeId → NodeId} {t u : Tree}

/-! ## Places for a replacement -/

namespace Target

/-- The place where its nodes have other numbers. -/
def renumber (ρ : NodeId → NodeId) (target : Target) : Target := ⟨ρ target.run, ρ target.text⟩

theorem renumbered_addElement (h : Renumbered ρ t u) (p : NodeId) (name : String) :
    (addElement u (ρ p) name).1 = ρ (addElement t p name).1 ∧ Renumbered ρ (addElement t p name).2 (addElement u (ρ p) name).2 :=
  ⟨h.size_eq.symm, h.createBelow p _ _⟩

theorem renumbered_locateRun (h : Renumbered ρ t u) (ht : t.WellFormed) (f : Field) :
    (locateRun u (f.renumber ρ)).1 = ρ (locateRun t f).1 ∧ Renumbered ρ (locateRun t f).2 (locateRun u (f.renumber ρ)).2 := by
  have hshape : (f.renumber ρ).shape = f.shape := rfl
  unfold locateRun
  rw [h.display? ht, hshape, Field.last_renumber]
  cases f.display? t with
  | none =>
    have hput := (h.create (.element Word.run []) .none).insertBefore f.last t.size
    rw [h.size_eq] at hput
    exact ⟨h.size_eq.symm, hput⟩
  | some id =>
    cases f.shape with
    | complex => exact ⟨rfl, h⟩
    | simple =>
      simp only [Option.map_some, h.findDescendant? ht]
      cases t.findDescendant? id Word.run with
      | some run => exact ⟨rfl, h⟩
      | none => exact renumbered_addElement h id Word.run

theorem renumbered_locate (h : Renumbered ρ t u) (ht : t.WellFormed) {f : Field} (hf : f.Owned (fun x => 0 ≤ x) t) :
    (locate u (f.renumber ρ)).1 = (locate t f).1.renumber ρ ∧ Renumbered ρ (locate t f).2 (locate u (f.renumber ρ)).2 := by
  obtain ⟨hfst, hrun⟩ := renumbered_locateRun h ht f
  have hw := (locateRun_spec (fenced_zero ht) hf).1.wellFormed
  unfold locate
  generalize locateRun t f = found at hfst hrun hw ⊢
  generalize locateRun u (f.renumber ρ) = found' at hfst hrun ⊢
  obtain ⟨run, t'⟩ := found
  obtain ⟨run', u'⟩ := found'
  simp only at hfst hrun hw ⊢
  subst hfst
  rw [hrun.findDescendant? hw]
  cases t'.findDescendant? run Word.text with
  | some text => exact ⟨rfl, hrun⟩
  | none =>
    obtain ⟨hfst, hadd⟩ := renumbered_addElement hrun run Word.text
    exact ⟨congrArg (Target.mk (ρ run)) hfst, hadd⟩

theorem renumbered_finish (h : Renumbered ρ t u) (f : Field) (target : Target) :
    Renumbered ρ (target.finish f t) ((target.renumber ρ).finish (f.renumber ρ) u) := by
  have hshape : (f.renumber ρ).shape = f.shape := rfl
  unfold finish
  rw [hshape]
  cases f.shape with
  | simple => exact h.unwrap f.first
  | complex =>
    have hothers : (f.renumber ρ).anchors.filter (· != (target.renumber ρ).run) = (f.anchors.filter (· != target.run)).map ρ := by
      rw [Field.anchors_renumber, List.filter_map]
      exact congrArg (fun p => (f.anchors.filter p).map ρ) (h.ne_comp target.run)
    simp only [hothers]
    exact h.detachAll _

end Target

/-! ## Texts -/

namespace Splice

open MailMerge.Text

theorem renumbered_lineElement (h : Renumbered ρ t u) (ht : t.WellFormed) {model : NodeId} (hm : model < t.size) (line : List Char) :
    (lineElement u (ρ model) line).1 = ρ (lineElement t model line).1 ∧
      Renumbered ρ (lineElement t model line).2 (lineElement u (ρ model) line).2 := by
  obtain ⟨hfst, hcopy⟩ := h.deepCopy ht hm
  unfold lineElement
  simp only [hfst]
  refine ⟨trivial, ?_⟩
  split
  · exact (hcopy.setText _ _).setAttribute _ _ _
  · exact hcopy.setText _ _

/-- A line is made from the model, and put behind a node of the tree. -/
theorem renumbered_lineAfter (h : Renumbered ρ t u) (ht : t.WellFormed) {model : NodeId} (hm : model < t.size) (line : List Char)
    (anchor : NodeId) :
    Renumbered ρ ((lineElement t model line).2.insertAfter anchor (lineElement t model line).1)
      ((lineElement u (ρ model) line).2.insertAfter (ρ anchor) (lineElement u (ρ model) line).1) := by
  obtain ⟨hfst, hline⟩ := renumbered_lineElement h ht hm line
  rw [hfst]
  exact hline.insertAfter anchor _

theorem renumbered_addBrokenLines (h : Renumbered ρ t u) (ht : t.WellFormed) {model : NodeId} (hne : model ≠ root) (hm : model < t.size)
    {anchor : NodeId} (ha : anchor < t.size) (lines : List (List Char)) :
    Renumbered ρ (addBrokenLines model anchor t lines) (addBrokenLines (ρ model) (ρ anchor) u lines) := by
  induction lines generalizing t u anchor with
  | nil => exact h
  | cons line lines ih =>
    -- the tree is well formed behind the break, and again behind the line
    have hnew := (fenced_zero ht).create (.element Word.lineBreak []) .none
    have hbreak := hnew.zone.insertAfter (fun _ _ => Nat.zero_le _) (Nat.zero_le _)
      (ht.joinable_created (.element Word.lineBreak []) .none anchor)
    have hput := (h.create (.element Word.lineBreak []) .none).insertAfter anchor t.size
    have hm' := Nat.lt_of_lt_of_le hm (Nat.le_trans hnew.grows hbreak.grows)
    have hlt : t.size < ((t.create (.element Word.lineBreak []) .none).2.insertAfter anchor t.size).size :=
      Nat.lt_of_lt_of_le (by rw [size_create]; exact Nat.lt_succ_self _) hbreak.grows
    obtain ⟨hline, -, hltc⟩ := (lineElement_spec hbreak.wellFormed hne line).edited hbreak.zone (fun _ _ => Nat.zero_le _) hlt
    have hafter := renumbered_lineAfter hput hbreak.wellFormed hm' line t.size
    have hfst := (renumbered_lineElement hput hbreak.wellFormed hm' line).1
    have hrest := ih hafter hline.wellFormed (Nat.lt_of_lt_of_le hm' hline.grows) hltc
    rw [← hfst] at hrest
    simp only [addBrokenLines, createElement, create_fst, ← h.size_eq]
    exact hrest

theorem renumbered_addLines (h : Renumbered ρ t u) (ht : t.WellFormed) {model : NodeId} (hne : model ≠ root) (hm : model < t.size)
    (lines : List (List Char)) : Renumbered ρ (addLines model t lines) (addLines (ρ model) u lines) := by
  cases lines with
  | nil => exact h
  | cons line lines =>
    obtain ⟨hline, -, hltc⟩ := (lineElement_spec ht hne line).edited (fenced_zero ht) (fun _ _ => Nat.zero_le _) hm
    have hafter := renumbered_lineAfter h ht hm line model
    have hrest := renumbered_addBrokenLines hafter hline.wellFormed hne (Nat.lt_of_lt_of_le hm hline.grows) hltc lines
    rw [← (renumbered_lineElement h ht hm line).1] at hrest
    exact hrest

theorem renumbered_putText (h : Renumbered ρ t u) (ht : t.WellFormed) {f : Field} (hf : f.Owned (fun x => 0 ≤ x) t) (s : String) :
    Renumbered ρ (putText f s t) (putText (f.renumber ρ) s u) := by
  obtain ⟨hfst, hloc⟩ := Target.renumbered_locate h ht hf
  obtain ⟨hed, -, htext, hne⟩ := Target.locate_spec (fenced_zero ht) hf
  unfold putText
  generalize Target.locate t f = found at hfst hloc hed htext hne ⊢
  generalize Target.locate u (f.renumber ρ) = found' at hfst hloc ⊢
  obtain ⟨target, t'⟩ := found
  obtain ⟨target', u'⟩ := found'
  simp only at hfst hloc hed htext hne ⊢
  subst hfst
  have hlines := renumbered_addLines hloc hed.wellFormed hne htext.hosts.lt_size (splitAt '\n' s.toList)
  exact Target.renumbered_finish (hlines.detach target.text) f target

/-! ## Markup -/

theorem innermost_renumber (parent : NodeId) (path : List NodeId) :
    Markup.innermost (ρ parent) (path.map ρ) = ρ (Markup.innermost parent path) := by
  cases path <;> rfl

theorem renumbered_grow (h : Renumbered ρ t u) (parent : NodeId) (path : List NodeId) (span : Span) (g : Markup.Growth) :
    (Markup.grow (ρ parent) (path.map ρ) span u (g.renumber ρ)).1 = (Markup.grow parent path span t g).1.map ρ ∧
      Renumbered ρ (Markup.grow parent path span t g).2 (Markup.grow (ρ parent) (path.map ρ) span u (g.renumber ρ)).2 := by
  cases g with
  | enter k =>
    simp only [Markup.Growth.renumber, Markup.grow, Markup.addNode, create_fst, innermost_renumber]
    exact ⟨by rw [List.map_cons, h.size_eq], h.createBelow _ k span⟩
  | leaf k =>
    simp only [Markup.Growth.renumber, Markup.grow, Markup.addNode, create_fst, innermost_renumber]
    exact ⟨trivial, h.createBelow _ k span⟩
  | leave id rest =>
    simp only [Markup.Growth.renumber, Markup.grow, h.span]
    exact ⟨trivial, h.setSpan id _⟩
  | nothing => exact ⟨rfl, h⟩

theorem renumbered_addPieces (h : Renumbered ρ t u) (parent : NodeId) (path : List NodeId) (ps : List Markup.Placed) :
    (Markup.addPieces (ρ parent) (path.map ρ) u ps).1 = (Markup.addPieces parent path t ps).1.map (List.map ρ) ∧
      Renumbered ρ (Markup.addPieces parent path t ps).2 (Markup.addPieces (ρ parent) (path.map ρ) u ps).2 := by
  induction ps generalizing t u path with
  | nil => exact ⟨rfl, h⟩
  | cons p ps ih =>
    rw [Markup.addPieces, Markup.addPieces, Markup.growth_map fun x _ => h.name? x]
    cases Markup.growth t path p.piece with
    | error e => exact ⟨rfl, h⟩
    | ok g =>
      obtain ⟨hpath, hgrown⟩ := renumbered_grow h parent path p.span g
      have hrest := ih hgrown (Markup.grow parent path p.span t g).1
      rw [← hpath] at hrest
      exact hrest

theorem renumbered_readInto (h : Renumbered ρ t u) (parent : NodeId) (source : String) (number : Nat) :
    (u.readInto (ρ parent) source number).1 = (t.readInto parent source number).1 ∧
      Renumbered ρ (t.readInto parent source number).2 (u.readInto (ρ parent) source number).2 := by
  unfold readInto
  generalize Markup.pieces source.toList = found
  obtain ⟨ps, broken⟩ := found
  obtain ⟨hresult, hgrown⟩ := renumbered_addPieces h parent [] ps
  rw [List.map_nil] at hresult hgrown
  simp only
  generalize Markup.addPieces parent [] t ps = grown at hresult hgrown ⊢
  generalize Markup.addPieces (ρ parent) [] u ps = grown' at hresult hgrown ⊢
  obtain ⟨result, t'⟩ := grown
  obtain ⟨result', u'⟩ := grown'
  simp only at hresult hgrown ⊢
  subst hresult
  cases result with
  | error e => exact ⟨rfl, hgrown⟩
  | ok path =>
    cases broken with
    | some b => cases path <;> exact ⟨rfl, hgrown⟩
    | none =>
      cases path with
      | nil => exact ⟨rfl, hgrown⟩
      | cons id path =>
        refine ⟨?_, hgrown⟩
        simp only [Except.map, List.map_cons, hgrown.name?, hgrown.span]

/-! ## Formatting -/

theorem allInline_renumber (h : Renumbered ρ t u) (ids : List NodeId) : allInline u (ids.map ρ) = allInline t ids := by
  have hname : (fun id => (u.name? id).any Word.inlineElements.contains) ∘ ρ = fun id => (t.name? id).any Word.inlineElements.contains :=
    funext fun x => by rw [Function.comp_apply, h.name?]
  rw [allInline, allInline, List.isEmpty_map, List.all_map, hname]

theorem renumbered_formatRun (h : Renumbered ρ t u) (ht : t.WellFormed) {formatting : NodeId} (hf : formatting < t.size) (run : NodeId) :
    Renumbered ρ (formatRun formatting t run) (formatRun (ρ formatting) u (ρ run)) := by
  unfold formatRun
  rw [h.elementChildren, List.any_map, h.isNamed_comp]
  split
  · exact h
  · obtain ⟨hfst, hcopy⟩ := h.deepCopy ht hf
    simp only [hfst]
    exact hcopy.prependChild run _

theorem renumbered_inheritFormatting (h : Renumbered ρ t u) (ht : t.WellFormed) (run : NodeId) (ids : List NodeId) :
    Renumbered ρ (inheritFormatting t run ids) (inheritFormatting u (ρ run) (ids.map ρ)) := by
  unfold inheritFormatting
  rw [h.elementChildren, List.find?_map, h.isNamed_comp, h.subtrees ht, List.filter_map, h.isNamed_comp]
  cases hfound : (t.elementChildren run).find? (t.isNamed Word.runProperties) with
  | none => exact h
  | some formatting =>
    have hchild := (List.mem_filter.mp (List.mem_of_find?_eq_some hfound)).1
    have hlt := ht.lt_size_of_mem hchild
    have hne : formatting ≠ root := by
      rintro rfl
      have hp := ht.parent_of_mem hchild
      rw [ht.top] at hp
      cases hp
    have hruns : ∀ x ∈ (ids.flatMap t.subtree).filter (t.isNamed Word.run), Hosts t x := fun x hx =>
      hosts_of_isElement (isElement_of_isNamed (List.mem_filter.mp hx).2)
    generalize (ids.flatMap t.subtree).filter (t.isNamed Word.run) = runs at hruns
    -- the runs are formatted one by one, each in a well-formed tree
    have hfold : ∀ {v w : Tree}, Renumbered ρ v w → Edited (fun x => 0 ≤ x) (fun x => 0 ≤ x) t v →
        Renumbered ρ (runs.foldl (formatRun formatting) v) ((runs.map ρ).foldl (formatRun (ρ formatting)) w) := by
      induction runs with
      | nil => exact fun hvw _ => hvw
      | cons x runs ih =>
        intro v w hvw hv
        have hone := edited_formatRun hv.zone hne (Nat.zero_le x) (hv.hosts (hruns x List.mem_cons_self))
        exact ih (fun y hy => hruns y (List.mem_cons_of_mem x hy))
          (renumbered_formatRun hvw hv.wellFormed (Nat.lt_of_lt_of_le hlt hv.grows) x) (hv.trans hone)
    exact hfold h (.refl (fenced_zero ht))

/-! ## Fragments -/

theorem renumbered_replaceRun (h : Renumbered ρ t u) (f : Field) (target : Target) (ids : List NodeId) :
    Renumbered ρ (replaceRun f target ids t) (replaceRun (f.renumber ρ) (target.renumber ρ) (ids.map ρ) u) :=
  Target.renumbered_finish ((h.insertAllAfter target.run ids).detach target.run) f target

theorem renumbered_putElements (h : Renumbered ρ t u) (ht : t.WellFormed) {f : Field} (hf : f.Owned (fun x => 0 ≤ x) t) (ids : List NodeId) :
    Renumbered ρ (putElements f ids t) (putElements (f.renumber ρ) (ids.map ρ) u) := by
  obtain ⟨hfst, hloc⟩ := Target.renumbered_locate h ht hf
  have hw := (Target.locate_spec (fenced_zero ht) hf).1.wellFormed
  unfold putElements
  generalize Target.locate t f = found at hfst hloc hw ⊢
  generalize Target.locate u (f.renumber ρ) = found' at hfst hloc ⊢
  obtain ⟨target, t'⟩ := found
  obtain ⟨target', u'⟩ := found'
  simp only at hfst hloc hw ⊢
  subst hfst
  have hformatted := renumbered_replaceRun (renumbered_inheritFormatting hloc hw target.run ids) f target ids
  have hplain := renumbered_replaceRun hloc f target ids
  have hancestor : u'.findAncestor? (target.renumber ρ).run Word.paragraph = (t'.findAncestor? target.run Word.paragraph).map ρ :=
    hloc.findAncestor? hw target.run Word.paragraph
  rw [hancestor, allInline_renumber hloc]
  cases t'.findAncestor? target.run Word.paragraph with
  | none =>
    cases allInline t' ids with
    | true => exact hformatted
    | false => exact hplain
  | some paragraph =>
    cases allInline t' ids with
    | true => exact hformatted
    | false => exact (hloc.insertAllAfter paragraph ids).detach paragraph

theorem renumbered_putMarkup (h : Renumbered ρ t u) (ht : t.WellFormed) {f : Field} (hf : f.Owned (fun x => 0 ≤ x) t) (source : String) :
    (putMarkup (f.renumber ρ) source u).1 = (putMarkup f source t).1 ∧
      Renumbered ρ (putMarkup f source t).2 (putMarkup (f.renumber ρ) source u).2 := by
  obtain ⟨hfst, hread⟩ := renumbered_readInto (h.create (.element fragmentName []) .none) t.size source 0
  have hnew := (fenced_zero ht).create (.element fragmentName []) .none
  have hed := hnew.trans (edited_readInto hnew.zone (Nat.zero_le t.size) (hosts_of_isElement (isElement_create t _ _ _)) source 0)
  simp only [putMarkup, createElement, create_fst, ← h.size_eq]
  generalize (t.create (.element fragmentName []) .none).2.readInto t.size source 0 = read at hfst hread hed ⊢
  generalize (u.create (.element fragmentName []) .none).2.readInto (ρ t.size) source 0 = read' at hfst hread ⊢
  obtain ⟨result, t'⟩ := read
  obtain ⟨result', u'⟩ := read'
  simp only at hfst hread hed ⊢
  subst hfst
  cases result' with
  | error e => exact ⟨rfl, hread⟩
  | ok _ =>
    refine ⟨rfl, ?_⟩
    show Renumbered ρ (putElements f (t'.elementChildren t.size) t') (putElements (f.renumber ρ) (u'.elementChildren (ρ t.size)) u')
    rw [hread.elementChildren]
    exact renumbered_putElements hread hed.wellFormed (hed.owned hf) _

end Splice

end MailMerge
