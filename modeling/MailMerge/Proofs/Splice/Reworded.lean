/-
  MailMerge.Proofs.Splice.Reworded — the same value in two trees, or texts with lines alike.

  When a text is put in a field's place, what is made depends on the text in two ways: on how
  many lines it has, and for each line on whether there is a blank at either end. All else goes
  into text elements as words. So two texts that are alike in this (`Splice.LinesAlike`) make of
  two trees that differ in words two trees that differ in words, and so does one value.

  Proved: copies, places for a replacement, texts, fragments of markup and whole values, one
  lemma for each (`Reworded.insert`).
-/

import MailMerge.Proofs.Splice.Lifts
import MailMerge.Proofs.Tree.Reworded

namespace MailMerge

open MailMerge.Tree

variable {varies guarded : Prop} {t u : Tree}

namespace Tree

/-! ## Copies -/

theorem Stays.lasting (h : Stays t.size t u) : Lasting t u := lasting_of_kind h.grows h.kind

theorem kind_copyTo (n : Nat) (t : Tree) (id : NodeId) : (copyTo n t id).2.kind t.size = t.kind id := by
  have h := (stays_filling n (Nat.le_refl (t.size + 1)) id).kind t.size (Nat.lt_succ_self _)
  rw [h, kind_create, if_pos rfl]

theorem parent_copyTo (n : Nat) (t : Tree) (id : NodeId) : (copyTo n t id).2.parent t.size = none := by
  cases hp : (copyTo n t id).2.parent t.size with
  | none => rfl
  | some p =>
    have h := (stays_filling n (Nat.le_refl (t.size + 1)) id).parent t.size (Nat.lt_succ_self _) p hp
    rw [parent_create, parent_of_size_le (Nat.le_refl _)] at h
    cases h

theorem lt_size_copyTo (n : Nat) (t : Tree) (id : NodeId) : t.size < (copyTo n t id).2.size := by
  have h := (stays_filling n (Nat.le_refl (t.size + 1)) id).grows
  rwa [size_create] at h

theorem Reworded.span (h : Reworded varies guarded t u) : u.span = t.span := read_congr span_wordless h.wordless

theorem Reworded.copyTo (h : Reworded varies guarded t u) (n : Nat) (id : NodeId) :
    Reworded varies guarded (copyTo n t id).2 (copyTo n u id).2 := by
  have hnew : ∀ {t u : Tree}, Reworded varies guarded t u → ∀ id,
      Reworded varies guarded (t.create (t.kind id) (t.span id)).2 (u.create (u.kind id) (u.span id)).2 := by
    intro t u h id
    rw [h.span]
    refine h.createWorded ?_ (fun hv => by rw [h.same hv]) _
    rw [← kind_wordless, h.wordless, kind_wordless]
  induction n generalizing t u id with
  | zero => exact hnew h id
  | succ n ih =>
    -- the new node keeps its kind while its children are copied, and so do their originals
    have hfold : ∀ (cs : List NodeId) (v w : Tree), (∀ c ∈ cs, c ∈ t.children id) → Reworded varies guarded v w →
        Stays (t.size + 1) (t.create (t.kind id) (t.span id)).2 v → Stays (t.size + 1) (u.create (u.kind id) (u.span id)).2 w →
        Reworded varies guarded
          (cs.foldl (fun v c => (Tree.copyTo n v c).2.adopt t.size (Tree.copyTo n v c).1) v)
          (cs.foldl (fun w c => (Tree.copyTo n w c).2.adopt t.size (Tree.copyTo n w c).1) w) := by
      intro cs
      induction cs with
      | nil => exact fun _ _ _ hvw _ _ => hvw
      | cons c cs ihc =>
        intro v w hcs hvw hv hw
        obtain ⟨hup, hfits⟩ := h.links id c (hcs c List.mem_cons_self)
        have hv1 : t.size + 1 ≤ v.size := by simpa using hv.grows
        have hw1 : t.size + 1 ≤ w.size := by rw [hvw.size]; exact hv1
        have hcopy := (stays_copyTo n hv1 c).2
        have hcopy' := (stays_copyTo n hw1 c).2
        have hkind : (Tree.copyTo n v c).2.kind t.size = t.kind id := by
          rw [hcopy.kind _ (Nat.lt_succ_self _), hv.kind _ (Nat.lt_succ_self _), kind_create, if_pos rfl]
        have hchild : (Tree.copyTo n v c).2.kind v.size = t.kind c := by
          rw [kind_copyTo, hv.kind _ (Nat.lt_succ_of_lt hfits.stored), kind_create, if_neg (Nat.ne_of_lt hfits.stored)]
        have hchild' : (Tree.copyTo n w c).2.kind v.size = u.kind c := by
          have hstored : c < u.size := by rw [h.size]; exact hfits.stored
          rw [← hvw.size, kind_copyTo, hw.kind _ (Nat.lt_succ_of_lt hfits.stored), kind_create, if_neg (Nat.ne_of_lt hstored)]
        have hone : Reworded varies guarded ((Tree.copyTo n v c).2.adopt t.size (Tree.copyTo n v c).1)
            ((Tree.copyTo n w c).2.adopt t.size (Tree.copyTo n w c).1) := by
          rw [fst_copyTo, fst_copyTo, hvw.size]
          refine (ih hvw c).attach (adds_append _ _) (parent_copyTo n v c) ⟨lt_size_copyTo n v c, ?_, fun hg hn => ?_⟩
          · rw [hchild, hchild', isNamed_congr hkind]
            exact hfits.worded
          · rw [isElement_congr hchild]
            exact hfits.guard hg (by rwa [isNamed_congr hkind] at hn)
        have hlink : ∀ {x : Tree} {p c : NodeId}, t.size + 1 ≤ c → Stays (t.size + 1) x (x.adopt p c) := fun hc => stays_link hc _ _ _
        refine ihc _ _ (fun c' hc' => hcs c' (List.mem_cons_of_mem c hc')) hone ((hv.trans hcopy).trans (hlink ?_))
          ((hw.trans hcopy').trans (hlink ?_))
        · rw [fst_copyTo]; exact hv1
        · rw [fst_copyTo]; exact hw1
    have hcopied := hfold (t.children id) _ _ (fun _ hc => hc) (hnew h id) (.refl _ _) (.refl _ _)
    simp only [Tree.copyTo, h.children, create_fst, h.size]
    exact hcopied

theorem Reworded.deepCopy (h : Reworded varies guarded t u) (id : NodeId) :
    (u.deepCopy id).1 = (t.deepCopy id).1 ∧ Reworded varies guarded (t.deepCopy id).2 (u.deepCopy id).2 := by
  rw [Tree.deepCopy, Tree.deepCopy, h.size, fst_copyTo, fst_copyTo, h.size]
  exact ⟨rfl, h.copyTo t.size id⟩

theorem lasting_deepCopy (t : Tree) (id : NodeId) : Lasting t (t.deepCopy id).2 := (stays_deepCopy (Nat.le_refl _) id).2.lasting

theorem fst_deepCopy (t : Tree) (id : NodeId) : (t.deepCopy id).1 = t.size := fst_copyTo t.size t id

theorem kind_deepCopy (t : Tree) (id : NodeId) : (t.deepCopy id).2.kind t.size = t.kind id := kind_copyTo t.size t id

theorem Reworded.elementChildren (h : Reworded varies guarded t u) : u.elementChildren = t.elementChildren :=
  read_congr elementChildren_wordless h.wordless

theorem Reworded.findDescendant? (h : Reworded varies guarded t u) : u.findDescendant? = t.findDescendant? :=
  read_congr findDescendant?_wordless h.wordless

theorem Reworded.findAncestor? (h : Reworded varies guarded t u) : u.findAncestor? = t.findAncestor? :=
  read_congr findAncestor?_wordless h.wordless

theorem Reworded.name? (h : Reworded varies guarded t u) : u.name? = t.name? := read_congr name?_wordless h.wordless

/-- A new node below `p`. -/
theorem Reworded.createBelow (h : Reworded varies guarded t u) (k : Kind) (s : Span) {p : NodeId}
    (hp : guarded → p < t.size ∧ t.isNamed Word.instructionText p = false) :
    Reworded varies guarded ((t.create k s).2.appendChild p t.size) ((u.create k s).2.appendChild p u.size) := by
  rw [h.size]
  refine (h.create k s).appendChild ⟨by rw [size_create]; exact Nat.lt_succ_self _, Or.inl ?_, fun hg hn => ?_⟩
  · rw [kind_create, kind_create, if_pos rfl, if_pos h.size.symm]
  · obtain ⟨hlt, hnot⟩ := hp hg
    rw [(lasting_create t k s).isNamed hlt, hnot] at hn
    cases hn

end Tree

/-! ## Places for a replacement -/

/-- What a field is in a tree: its own element, if it is one, and its anchors stand in no instruction. -/
structure Field.Stands (guarded : Prop) (f : Field) (t : Tree) : Prop where
  simple : f.shape = .simple → t.isNamed Word.simpleField f.first = true
  guard : guarded → ∀ a ∈ f.anchors, t.isElement a = true ∧ t.isNamed Word.instructionText a = false

theorem Field.Stands.lasting {f : Field} (h : f.Stands guarded t) (hl : Lasting t u) : f.Stands guarded u where
  simple hs := hl.named (h.simple hs)
  guard hg a ha := by
    obtain ⟨hel, hn⟩ := h.guard hg a ha
    exact ⟨hl.element hel, (hl.isNamed (lt_size_of_isElement hel) _).trans hn⟩

theorem Field.display?_wordless (f : Field) (t : Tree) : f.display? t.wordless = f.display? t := by
  rw [display?, display?, resultAnchor?, resultAnchor?, holdsMarker_wordless]

theorem Field.mem_anchors_of_display? {f : Field} {a : NodeId} (h : f.display? t = some a) : a ∈ f.anchors := by
  unfold display? at h
  split at h
  · cases h
    exact f.first_mem_anchors
  · unfold resultAnchor? at h
    obtain ⟨ha, -⟩ := Option.filter_eq_some_iff.mp h
    exact (List.dropWhile_sublist _).subset (List.mem_of_mem_drop (List.mem_of_mem_head? ha))

namespace Target

variable {f : Field}

theorem reworded_addElement (h : Reworded varies guarded t u) {p : NodeId} (hp : guarded → p < t.size ∧ t.isNamed Word.instructionText p = false)
    (name : String) : (addElement u p name).1 = (addElement t p name).1 ∧
      Reworded varies guarded (addElement t p name).2 (addElement u p name).2 := ⟨h.size, h.createBelow _ _ hp⟩

/-- The run is the same in both trees, and it is no instruction. -/
theorem reworded_locateRun (h : Reworded varies guarded t u) (hf : f.Stands guarded t) :
    (locateRun u f).1 = (locateRun t f).1 ∧ Reworded varies guarded (locateRun t f).2 (locateRun u f).2 ∧
      (guarded → (locateRun t f).1 < (locateRun t f).2.size ∧
        (locateRun t f).2.isNamed Word.instructionText (locateRun t f).1 = false) := by
  have hread : f.display? u = f.display? t := read_congr f.display?_wordless h.wordless
  unfold locateRun
  rw [hread]
  split
  · next a hd hs =>
    refine ⟨rfl, h, fun hg => ?_⟩
    obtain ⟨hel, hn⟩ := hf.guard hg _ (Field.mem_anchors_of_display? hd)
    exact ⟨lt_size_of_isElement hel, hn⟩
  · next a hd hs =>
    rw [h.findDescendant?]
    have hfirst : a = f.first := by
      rw [Field.display?, hs] at hd
      exact (Option.some.inj hd).symm
    have hsimple := hf.simple hs
    rw [← hfirst] at hsimple
    cases hrun : t.findDescendant? a Word.run with
    | some run =>
      have hn : t.isNamed Word.run run = true := List.find?_some hrun
      exact ⟨rfl, h, fun _ => ⟨lt_size_of_isNamed hn, not_isNamed_of_isNamed hn (by decide)⟩⟩
    | none =>
      obtain ⟨hfst, hrew⟩ := reworded_addElement h (fun _ => ⟨lt_size_of_isNamed hsimple, not_isNamed_of_isNamed hsimple (by decide)⟩) Word.run
      refine ⟨hfst, hrew, fun _ => ?_⟩
      have hkind := kind_createBelow t a (.element Word.run []) .none t.size
      rw [if_pos rfl] at hkind
      exact ⟨lt_size_of_isElement ((isElement_of_isNamed ((isNamed_of_kind hkind Word.run).trans (by decide)))),
        (isNamed_of_kind hkind _).trans (by decide)⟩
  · have hnew := h.create (.element Word.run []) .none
    have hold := hf.lasting (lasting_create t (.element Word.run []) .none)
    have hrun : (t.create (.element Word.run []) .none).2.kind t.size = .element Word.run [] := by rw [kind_create, if_pos rfl]
    have hrun' : (u.create (.element Word.run []) .none).2.kind t.size = .element Word.run [] := by rw [kind_create, if_pos h.size.symm]
    have hstored : t.size < (t.create (.element Word.run []) .none).2.size := by rw [size_create]; exact Nat.lt_succ_self _
    have hput := hnew.insertBefore hstored (hrun'.trans hrun.symm) (hnew.clearBeside fun hg => (hold.guard hg _ f.last_mem_anchors).1)
    simp only [createElement, create_fst, h.size]
    refine ⟨trivial, hput, fun _ => ⟨?_, ?_⟩⟩
    · rw [insertBefore, size_insertBeside]
      exact hstored
    · rw [insertBefore, isNamed_congr (kind_insertBeside _ _ _ _ _), isNamed_of_kind hrun]
      decide

theorem lasting_locate (t : Tree) (f : Field) : Lasting t (locate t f).2 := (stays_locate (Nat.le_refl _) f).lasting

theorem reworded_locate (h : Reworded varies guarded t u) (hf : f.Stands guarded t) :
    (locate u f).1 = (locate t f).1 ∧ Reworded varies guarded (locate t f).2 (locate u f).2 := by
  obtain ⟨hfst, hrew, hrun⟩ := reworded_locateRun h hf
  unfold locate
  generalize locateRun t f = found at hfst hrew hrun ⊢
  generalize locateRun u f = found' at hfst hrew ⊢
  obtain ⟨run, t'⟩ := found
  obtain ⟨run', u'⟩ := found'
  simp only at hfst hrew hrun ⊢
  subst hfst
  rw [hrew.findDescendant?]
  cases t'.findDescendant? run' Word.text with
  | some text => exact ⟨rfl, hrew⟩
  | none =>
    obtain ⟨hfst, hadd⟩ := reworded_addElement hrew hrun Word.text
    exact ⟨by simp only [hfst], hadd⟩

theorem reworded_finish (h : Reworded varies guarded t u) (hf : f.Stands guarded t) (target : Target) :
    Reworded varies guarded (target.finish f t) (target.finish f u) := by
  unfold finish
  split
  · next hs => exact h.unwrap (hf.simple hs)
  · exact h.detachAll _

theorem lasting_finish (t : Tree) (f : Field) (target : Target) : Lasting t (target.finish f t) := by
  unfold finish
  split
  · exact (lasting_insertAllAfter t _ _).trans (lasting_detach _ _)
  · exact lasting_detachAll t _

end Target

/-! ## Texts -/

namespace Splice

open MailMerge.Text

/-- Two lines that are put in the same way. -/
structure LineAlike (varies : Prop) (a b : List Char) : Prop where
  blank : hasOuterBlank b = hasOuterBlank a
  same : ¬ varies → b = a

theorem lasting_lineElement (t : Tree) (model : NodeId) (line : List Char) : Lasting t (lineElement t model line).2 :=
  (stays_lineElement (Nat.le_refl _) model line).2.lasting

theorem isNamed_lineElement {model : NodeId} (hm : t.isNamed Word.text model = true) (line : List Char) :
    (lineElement t model line).2.isNamed Word.text (lineElement t model line).1 = true := by
  have hcopy : (t.deepCopy model).2.isNamed Word.text (t.deepCopy model).1 = true := by
    rw [fst_deepCopy, isNamed_congr (kind_deepCopy t model)]
    exact hm
  have htext := lasting_setText (isElement_of_isNamed hcopy) (String.ofList line)
  unfold lineElement
  simp only
  split
  · exact (htext.trans (lasting_setAttribute _ _ _ _)).named hcopy
  · exact htext.named hcopy

theorem reworded_lineElement (h : Reworded varies guarded t u) {model : NodeId} (hm : t.isNamed Word.text model = true)
    {a b : List Char} (hab : LineAlike varies a b) : (lineElement u model b).1 = (lineElement t model a).1 ∧
      Reworded varies guarded (lineElement t model a).2 (lineElement u model b).2 := by
  obtain ⟨hfst, hcopy⟩ := h.deepCopy model
  have hnamed : (t.deepCopy model).2.isNamed Word.text (t.deepCopy model).1 = true := by
    rw [fst_deepCopy, isNamed_congr (kind_deepCopy t model)]
    exact hm
  have htext := hcopy.setText hnamed (a := String.ofList a) (b := String.ofList b) fun hv => by rw [hab.same hv]
  unfold lineElement
  simp only [hfst, hab.blank]
  refine ⟨trivial, ?_⟩
  split
  · exact htext.setAttribute _ _ _
  · exact htext

/-- An element that is new stands in one tree as in the other. -/
theorem reworded_insertNew (h : Reworded varies guarded t u) {anchor x : NodeId} (hanchor : t.isElement anchor = true)
    (hx : t.isElement x = true) : Reworded varies guarded (t.insertAfter anchor x) (u.insertAfter anchor x) :=
  h.insertAfter (lt_size_of_isElement hx) (kind_eq_of_element h.wordless hx) (h.clearBeside fun _ => hanchor)

/-- A line put after an element. -/
theorem reworded_lineAfter (h : Reworded varies guarded t u) {model anchor : NodeId} (hm : t.isNamed Word.text model = true)
    (hanchor : t.isElement anchor = true) {a b : List Char} (hab : LineAlike varies a b) :
    Reworded varies guarded ((lineElement t model a).2.insertAfter anchor (lineElement t model a).1)
      ((lineElement u model b).2.insertAfter anchor (lineElement u model b).1) ∧
    Lasting t ((lineElement t model a).2.insertAfter anchor (lineElement t model a).1) ∧
    ((lineElement t model a).2.insertAfter anchor (lineElement t model a).1).isElement (lineElement t model a).1 = true := by
  obtain ⟨hfst, hline⟩ := reworded_lineElement h hm hab
  have hcopy := isElement_of_isNamed (isNamed_lineElement hm a)
  have hlast := lasting_lineElement t model a
  rw [hfst]
  exact ⟨reworded_insertNew hline (hlast.element hanchor) hcopy, hlast.trans (lasting_insertAfter _ _ _), (lasting_insertAfter _ _ _).element hcopy⟩

theorem reworded_addBrokenLines (h : Reworded varies guarded t u) {model anchor : NodeId} (hm : t.isNamed Word.text model = true)
    (hanchor : t.isElement anchor = true) {as bs : List (List Char)} (hab : List.Forall₂ (LineAlike varies) as bs) :
    Reworded varies guarded (addBrokenLines model anchor t as) (addBrokenLines model anchor u bs) := by
  induction hab generalizing t u anchor with
  | nil => exact h
  | @cons a b as bs hone _ ih =>
    have hmade := h.create (.element Word.lineBreak []) .none
    have hnew := lasting_create t (.element Word.lineBreak []) .none
    have hbreak := isElement_create t Word.lineBreak [] .none
    have hput := reworded_insertNew hmade (hnew.element hanchor) hbreak
    have hkeep := lasting_insertAfter (t.create (.element Word.lineBreak []) .none).2 anchor t.size
    have hmodel := (hnew.trans hkeep).named hm
    obtain ⟨hline, hlast, hcopy⟩ := reworded_lineAfter hput hmodel (hkeep.element hbreak) hone
    have hrest := ih hline (hlast.named hmodel) hcopy
    have hfst := (reworded_lineElement hput hmodel hone).1
    simp only [addBrokenLines, createElement, create_fst, h.size, hfst] at hrest ⊢
    exact hrest

theorem reworded_addLines (h : Reworded varies guarded t u) {model : NodeId} (hm : t.isNamed Word.text model = true)
    {as bs : List (List Char)} (hab : List.Forall₂ (LineAlike varies) as bs) :
    Reworded varies guarded (addLines model t as) (addLines model u bs) := by
  cases hab with
  | nil => exact h
  | @cons a b as bs hone hrest =>
    obtain ⟨hline, hlast, hcopy⟩ := reworded_lineAfter h hm (isElement_of_isNamed hm) hone
    have hbroken := reworded_addBrokenLines hline (hlast.named hm) hcopy hrest
    have hfst := (reworded_lineElement h hm hone).1
    simp only [addLines, hfst] at hbroken ⊢
    exact hbroken

theorem lasting_addLines (t : Tree) (model : NodeId) (lines : List (List Char)) : Lasting t (addLines model t lines) :=
  (stays_addLines (Nat.le_refl _) model lines).lasting

/-- The lines of the texts are put in the same ways, one by one. -/
def LinesAlike (varies : Prop) (a b : String) : Prop :=
  List.Forall₂ (LineAlike varies) (splitAt '\n' a.toList) (splitAt '\n' b.toList)

theorem LinesAlike.refl (varies : Prop) (a : String) : LinesAlike varies a a :=
  List.forall₂_same.mpr fun _ _ => ⟨rfl, fun _ => rfl⟩

theorem reworded_putText (h : Reworded varies guarded t u) {f : Field} (hf : f.Stands guarded t) {a b : String}
    (hab : LinesAlike varies a b) : Reworded varies guarded (putText f a t) (putText f b u) := by
  obtain ⟨hfst, hloc⟩ := Target.reworded_locate h hf
  have hlast := Target.lasting_locate t f
  have htext := isNamed_text t f
  unfold putText
  generalize Target.locate t f = found at hfst hloc hlast htext ⊢
  generalize Target.locate u f = found' at hfst hloc ⊢
  obtain ⟨target, t'⟩ := found
  obtain ⟨target', u'⟩ := found'
  simp only at hfst hloc hlast htext ⊢
  subst hfst
  have hlines := (reworded_addLines hloc htext hab).detach target'.text
  exact Target.reworded_finish hlines (hf.lasting ((hlast.trans (lasting_addLines t' _ _)).trans (lasting_detach _ _))) target'

theorem lasting_putText (t : Tree) (f : Field) (s : String) : Lasting t (putText f s t) :=
  (((Target.lasting_locate t f).trans (lasting_addLines _ _ _)).trans (lasting_detach _ _)).trans (Target.lasting_finish _ f _)

/-! ## Markup -/

/-- A fragment is read in both trees alike; nothing is known of what it puts into instructions. -/
theorem reworded_addPieces (h : Reworded varies guarded t u) (hg : ¬ guarded) (parent : NodeId) (path : List NodeId)
    (ps : List Markup.Placed) : (Markup.addPieces parent path u ps).1 = (Markup.addPieces parent path t ps).1 ∧
      Reworded varies guarded (Markup.addPieces parent path t ps).2 (Markup.addPieces parent path u ps).2 := by
  induction ps generalizing t u path with
  | nil => exact ⟨rfl, h⟩
  | cons p ps ih =>
    have hread : Markup.growth u path p.piece = Markup.growth t path p.piece := by
      unfold Markup.growth Markup.leaving
      rw [h.name?]
    rw [Markup.addPieces, Markup.addPieces, hread]
    cases Markup.growth t path p.piece with
    | error e => exact ⟨rfl, h⟩
    | ok g =>
      have hone : (Markup.grow parent path p.span u g).1 = (Markup.grow parent path p.span t g).1 ∧
          Reworded varies guarded (Markup.grow parent path p.span t g).2 (Markup.grow parent path p.span u g).2 := by
        cases g with
        | enter k => exact ⟨by simp only [Markup.grow, Markup.addNode, create_fst, h.size], h.createBelow k _ fun hc => absurd hc hg⟩
        | leaf k => exact ⟨rfl, h.createBelow k _ fun hc => absurd hc hg⟩
        | leave id rest =>
          simp only [Markup.grow, h.span]
          exact ⟨trivial, h.setSpan id _⟩
        | nothing => exact ⟨rfl, h⟩
      simp only [hone.1]
      exact ih hone.2 _

theorem reworded_readInto (h : Reworded varies guarded t u) (hg : ¬ guarded) (parent : NodeId) (source : String) (number : Nat) :
    (u.readInto parent source number).1 = (t.readInto parent source number).1 ∧
      Reworded varies guarded (t.readInto parent source number).2 (u.readInto parent source number).2 := by
  unfold readInto
  generalize Markup.pieces source.toList = found
  obtain ⟨ps, broken⟩ := found
  obtain ⟨hresult, hgrown⟩ := reworded_addPieces h hg parent [] ps
  simp only
  generalize Markup.addPieces parent [] t ps = grown at hresult hgrown ⊢
  generalize Markup.addPieces parent [] u ps = grown' at hresult hgrown ⊢
  obtain ⟨result, t'⟩ := grown
  obtain ⟨result', u'⟩ := grown'
  simp only at hresult hgrown ⊢
  subst hresult
  cases result' with
  | error e => exact ⟨rfl, hgrown⟩
  | ok path =>
    cases broken with
    | some b => exact ⟨rfl, hgrown⟩
    | none =>
      cases path with
      | nil => exact ⟨rfl, hgrown⟩
      | cons id path => exact ⟨by simp only [hgrown.name?, hgrown.span], hgrown⟩

theorem lasting_formatRun (t : Tree) (formatting run : NodeId) : Lasting t (formatRun formatting t run) :=
  (stays_formatRun (Nat.le_refl _) formatting run).lasting

theorem reworded_formatRun (h : Reworded varies guarded t u) (hg : ¬ guarded) {formatting : NodeId}
    (hf : t.isElement formatting = true) (run : NodeId) :
    Reworded varies guarded (formatRun formatting t run) (formatRun formatting u run) := by
  unfold formatRun
  rw [h.elementChildren, h.isNamed]
  split
  · exact h
  · obtain ⟨hfst, hcopy⟩ := h.deepCopy formatting
    simp only [hfst, fst_deepCopy]
    refine hcopy.prependChild ⟨lt_size_copyTo _ t formatting, Or.inl ?_, fun hc => absurd hc hg⟩
    refine kind_eq_of_element hcopy.wordless ?_
    rw [isElement_congr (kind_deepCopy t formatting)]
    exact hf

theorem reworded_inheritFormatting (h : Reworded varies guarded t u) (hg : ¬ guarded) (run : NodeId) (ids : List NodeId) :
    Reworded varies guarded (inheritFormatting t run ids) (inheritFormatting u run ids) := by
  unfold inheritFormatting
  rw [h.elementChildren, h.isNamed, h.subtree]
  split
  · exact h
  · next formatting hfound =>
    have hel : t.isElement formatting = true := isElement_of_isNamed (List.find?_some hfound)
    have hfold := List.foldl_rel (r := fun v w => Reworded varies guarded v w ∧ v.isElement formatting = true) ⟨h, hel⟩
      fun x (_ : x ∈ (ids.flatMap t.subtree).filter (t.isNamed Word.run)) v w hvw =>
        ⟨reworded_formatRun hvw.1 hg hvw.2 x, (lasting_formatRun v formatting x).element hvw.2⟩
    exact hfold.1

theorem lasting_inheritFormatting (t : Tree) (run : NodeId) (ids : List NodeId) : Lasting t (inheritFormatting t run ids) :=
  (stays_inheritFormatting (Nat.le_refl _) run ids).lasting

theorem reworded_putElements (h : Reworded varies guarded t u) (hg : ¬ guarded) {f : Field} (hf : f.Stands guarded t) {ids : List NodeId}
    (hids : ∀ x ∈ ids, t.isElement x = true) : Reworded varies guarded (putElements f ids t) (putElements f ids u) := by
  obtain ⟨hfst, hloc⟩ := Target.reworded_locate h hf
  have hlast := Target.lasting_locate t f
  unfold putElements
  generalize Target.locate t f = found at hfst hloc hlast ⊢
  generalize Target.locate u f = found' at hfst hloc ⊢
  obtain ⟨target, t'⟩ := found
  obtain ⟨target', u'⟩ := found'
  simp only at hfst hloc hlast ⊢
  subst hfst
  have hclear : ∀ (v : Tree) y, ClearBeside guarded v y := fun _ _ hc => absurd hc hg
  have hput : ∀ {v w : Tree}, Reworded varies guarded v w → Lasting t v → ∀ anchor,
      Reworded varies guarded ((v.insertAllAfter anchor ids).detach anchor) ((w.insertAllAfter anchor ids).detach anchor) := by
    intro v w hvw hv anchor
    refine (hvw.insertAllAfter (fun x hx => ?_) fun y _ => hclear v y).detach anchor
    have hel := hv.element (hids x hx)
    exact ⟨lt_size_of_isElement hel, kind_eq_of_element hvw.wordless hel⟩
  have hrun : ∀ {v w : Tree}, Reworded varies guarded v w → Lasting t v →
      Reworded varies guarded (replaceRun f target' ids v) (replaceRun f target' ids w) := fun hvw hv =>
    Target.reworded_finish (hput hvw hv target'.run) (hf.lasting ((hv.trans (lasting_insertAllAfter _ _ _)).trans (lasting_detach _ _))) target'
  have hinline : Splice.allInline u' ids = Splice.allInline t' ids := by unfold allInline; rw [hloc.name?]
  have hformatted := hrun (reworded_inheritFormatting hloc hg target'.run ids) (hlast.trans (lasting_inheritFormatting _ _ _))
  rw [hloc.findAncestor?, hinline]
  cases t'.findAncestor? target'.run Word.paragraph with
  | none =>
    cases Splice.allInline t' ids with
    | true => exact hformatted
    | false => exact hrun hloc hlast
  | some paragraph =>
    cases Splice.allInline t' ids with
    | true => exact hformatted
    | false => exact hput hloc hlast paragraph

theorem lasting_putElements (t : Tree) (f : Field) (ids : List NodeId) : Lasting t (putElements f ids t) := by
  have hloc := Target.lasting_locate t f
  unfold putElements
  generalize Target.locate t f = found at hloc ⊢
  obtain ⟨target, t'⟩ := found
  simp only at hloc ⊢
  have hput : ∀ (v : Tree) anchor, Lasting v ((v.insertAllAfter anchor ids).detach anchor) := fun v anchor =>
    (lasting_insertAllAfter v anchor ids).trans (lasting_detach _ _)
  have hrun : ∀ v : Tree, Lasting v (replaceRun f target ids v) := fun v =>
    (hput v target.run).trans (Target.lasting_finish _ f target)
  split
  · exact hloc.trans (hput t' _)
  · exact hloc.trans ((lasting_inheritFormatting _ _ _).trans (hrun _))
  · exact hloc.trans (hrun t')

theorem reworded_putMarkup (h : Reworded varies guarded t u) (hg : ¬ guarded) {f : Field} (hf : f.Stands guarded t) (source : String) :
    (putMarkup f source u).1 = (putMarkup f source t).1 ∧ Reworded varies guarded (putMarkup f source t).2 (putMarkup f source u).2 := by
  have hmade := h.create (.element fragmentName []) .none
  obtain ⟨hfst, hread⟩ := reworded_readInto hmade hg t.size source 0
  have hlast := (lasting_create t (.element fragmentName []) .none).trans (stays_readInto (Nat.le_refl _) t.size source 0).lasting
  simp only [putMarkup, createElement, create_fst, h.size]
  generalize (t.create (.element fragmentName []) .none).2.readInto t.size source 0 = read at hfst hread hlast ⊢
  generalize (u.create (.element fragmentName []) .none).2.readInto t.size source 0 = read' at hfst hread ⊢
  obtain ⟨result, t'⟩ := read
  obtain ⟨result', u'⟩ := read'
  simp only at hfst hread hlast ⊢
  subst hfst
  cases result' with
  | error e => exact ⟨rfl, hread⟩
  | ok _ =>
    refine ⟨rfl, ?_⟩
    show Reworded varies guarded (putElements f (t'.elementChildren t.size) t') (putElements f (u'.elementChildren t.size) u')
    rw [hread.elementChildren]
    exact reworded_putElements hread hg (hf.lasting hlast) fun x hx => (List.mem_filter.mp hx).2

theorem lasting_putMarkup (t : Tree) (f : Field) (source : String) : Lasting t (putMarkup f source t).2 := by
  have hlast := (lasting_create t (.element fragmentName []) .none).trans (stays_readInto (Nat.le_refl _) t.size source 0).lasting
  simp only [putMarkup, createElement, create_fst]
  generalize (t.create (.element fragmentName []) .none).2.readInto t.size source 0 = read at hlast ⊢
  obtain ⟨result, t'⟩ := read
  cases result with
  | error e => exact hlast
  | ok _ => exact hlast.trans (lasting_putElements t' f _)

end Splice

end MailMerge
