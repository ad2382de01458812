/-
  MailMerge.Proofs.Block.Reworded — scans and blocks of trees that differ in words.

  Which fields there are depends on the words of instructions. Where no text element stands in
  an instruction, two trees that differ in the words of text elements have the same fields
  (`Reworded.fields`), hence the same blocks and statements (`Reworded.ofFields`). A body that
  is copied, expanded and put in the place of its block is so in both trees alike: what it
  consists of stood below no text element, and so has the same words.

  Proved: that, one lemma for each step that a block takes, and for the repair of table cells.
-/

import MailMerge.Merge.Run
import MailMerge.Proofs.Block.Uses
import MailMerge.Proofs.Field.Anchors
import MailMerge.Proofs.Splice.Reworded

namespace MailMerge

open MailMerge.Tree

variable {varies guarded : Prop} {t u : Tree}

/-! ## Statements -/

namespace Tree

theorem Reworded.laterElements (h : Reworded varies guarded t u) : u.laterElements = t.laterElements :=
  read_congr laterElements_wordless h.wordless

theorem Reworded.holdsMarker (h : Reworded varies guarded t u) : u.holdsMarker = t.holdsMarker :=
  read_congr holdsMarker_wordless h.wordless

end Tree

/-- Which fields a block encloses is read off links and names. -/
theorem Block.resolve?_reworded (h : Reworded varies guarded t u) : Block.resolve? u = Block.resolve? t := by
  have hancestor : ∀ (f : Field) name, f.ancestor? u name = f.ancestor? t name := fun f name => by
    rw [Field.ancestor?, Field.ancestor?, h.findAncestor?]
  have hsiblings : areSiblings u = areSiblings t := by
    funext a b
    rw [areSiblings, areSiblings, h.parent]
  have hrow : rowEnds? u = rowEnds? t := by
    funext start stop
    rw [rowEnds?, rowEnds?, hancestor, hancestor, hsiblings]
  have hparagraph : paragraphEnds? u = paragraphEnds? t := by
    funext start stop
    rw [paragraphEnds?, paragraphEnds?, hancestor, hancestor, hsiblings]
  have hbetween : between? u = between? t := by
    funext a b
    rw [between?, between?, h.laterElements]
  funext start stop
  rw [resolve?, resolve?, ends?, ends?, imageEnds, imageEnds, hancestor, hancestor, hrow, hparagraph, hbetween]

namespace Outline

theorem enclose_reworded (h : Reworded varies guarded t u) : enclose u = enclose t := by
  funext nested l start stop
  have hpin : Ledger.pinParagraph u = Ledger.pinParagraph t := by
    funext l f
    simp only [Ledger.pinParagraph, Field.ancestor?, h.findAncestor?]
  simp only [enclose, Block.enclose, Block.resolve?_reworded h, Ledger.hold, hpin]

theorem branches_reworded (h : Reworded varies guarded t u) (nested : Bool) (opening : Field) (name : String) (l : Ledger)
    (otherwise : Option Block) (start : Field) (marks : List Field) :
    branches u nested opening name l otherwise start marks = branches t nested opening name l otherwise start marks := by
  induction marks generalizing l otherwise start with
  | nil => rfl
  | cons stop marks ih => simp only [branches, branch, enclose_reworded h, ih]

theorem conditional_reworded (h : Reworded varies guarded t u) : conditional u = conditional t := by
  funext nested l f guard markers stop
  simp only [conditional, branch, enclose_reworded h, branches_reworded h]

theorem takeField_reworded (h : Reworded varies guarded t u) {r : Registry} {nested insertions : Bool} {l : Ledger} {f : Field}
    {fields : List Field} (huntil : ∀ stop isMarker, takeUntil r u f stop isMarker l fields = takeUntil r t f stop isMarker l fields) :
    takeField r u nested insertions l f fields = takeField r t nested insertions l f fields := by
  rw [takeField, takeField]
  cases r.directive f.expression <;> simp only [huntil, enclose_reworded h, conditional_reworded h]

theorem takeUntil_reworded (h : Reworded varies guarded t u) (r : Registry) (start : Field) (stop : String) (isMarker : String → Bool)
    (l : Ledger) (fields : List Field) :
    takeUntil r u start stop isMarker l fields = takeUntil r t start stop isMarker l fields := by
  obtain ⟨n, hn⟩ : ∃ n, fields.length = n := ⟨_, rfl⟩
  induction n using Nat.strongRecOn generalizing start stop isMarker l fields with
  | ind n ih =>
    cases fields with
    | nil => rw [takeUntil, takeUntil]
    | cons f fields =>
      rw [List.length_cons] at hn
      rw [takeUntil, takeUntil, takeField_reworded h fun stop isMarker => ih fields.length (by omega) f stop isMarker l fields rfl,
        ih fields.length (by omega) start stop isMarker l fields rfl]
      split
      · rfl
      · split
        · rfl
        · cases takeField r t true false l f fields with
          | error e => rfl
          | ok taken =>
            obtain ⟨s?, l₁, left⟩ := taken
            have hle := left.2
            have hrest := ih left.1.length (by omega) start stop isMarker l₁ left.1 rfl
            simp only [bind, Except.bind, hrest]

/-- The same fields make the same statements. -/
theorem ofFields_reworded (h : Reworded varies guarded t u) (r : Registry) (fields : List Field) :
    ofFields r u fields = ofFields r t fields := by
  rw [ofFields, ofFields]
  generalize Ledger.empty = l
  obtain ⟨n, hn⟩ : ∃ n, fields.length = n := ⟨_, rfl⟩
  induction n using Nat.strongRecOn generalizing l fields with
  | ind n ih =>
    cases fields with
    | nil => rw [takeAll, takeAll]
    | cons f fields =>
      rw [List.length_cons] at hn
      rw [takeAll, takeAll, takeField_reworded h fun stop isMarker => takeUntil_reworded h r f stop isMarker l fields]
      cases takeField r t false true l f fields with
      | error e => rfl
      | ok taken =>
        obtain ⟨s?, l₁, left⟩ := taken
        have hle := left.2
        have hrest := ih left.1.length (by omega) left.1 l₁ rfl
        simp only [bind, Except.bind, hrest]

end Outline

/-! ## Fields -/

namespace Tree

/-- No text element stands in an instruction. -/
def InstructionsClear (t : Tree) (id : NodeId) : Prop :=
  ∀ p ∈ t.subtree id, t.isNamed Word.instructionText p = true → ∀ x ∈ t.subtree p, t.isNamed Word.text x = false

instance (t : Tree) (id : NodeId) : Decidable (t.InstructionsClear id) :=
  inferInstanceAs (Decidable (∀ p ∈ t.subtree id, t.isNamed Word.instructionText p = true → ∀ x ∈ t.subtree p, t.isNamed Word.text x = false))

/-- What a walk meets was on the stack, or is a child of what it met. -/
theorem mem_walk (t : Tree) {n : Nat} {todo : List NodeId} {x : NodeId} (hx : x ∈ t.walk n todo) :
    x ∈ todo ∨ ∃ q ∈ t.walk n todo, x ∈ t.children q := by
  induction n generalizing todo with
  | zero => cases hx
  | succ n ih =>
    cases todo with
    | nil => cases hx
    | cons a todo =>
      rw [walk] at hx ⊢
      rcases List.mem_cons.mp hx with rfl | hx
      · exact Or.inl List.mem_cons_self
      · rcases ih hx with hx | ⟨q, hq, hx⟩
        · rcases List.mem_append.mp hx with hx | hx
          · exact Or.inr ⟨a, List.mem_cons_self, hx⟩
          · exact Or.inl (List.mem_cons_of_mem a hx)
        · exact Or.inr ⟨q, List.mem_cons_of_mem a hq, hx⟩

theorem Reworded.textContent (h : Reworded varies guarded t u) {p : NodeId} (hp : t.isElement p = true)
    (hclear : ∀ x ∈ t.subtree p, t.isNamed Word.text x = false) : u.textContent p = t.textContent p := by
  have hwords : ∀ x ∈ t.subtree p, u.ownText x = t.ownText x := by
    intro x hx
    have hkind : u.kind x = t.kind x := by
      rcases List.mem_cons.mp hx with rfl | hx
      · exact kind_eq_of_element h.wordless hp
      · rcases t.mem_walk hx with hx | ⟨q, hq, hx⟩
        · exact h.kind_of_mem hx (hclear p List.mem_cons_self)
        · exact h.kind_of_mem hx (hclear q (List.mem_cons_of_mem p hq))
    rw [ownText, ownText, hkind]
  rw [Tree.textContent, Tree.textContent, h.subtree, List.map_congr_left hwords]

/-- The anchors of a field that begins below a top stand below that, too. -/
theorem WellFormed.within_anchor (ht : t.WellFormed) {id m first a : NodeId} (hid : t.parent id = none) (hm : m ∈ t.descendants id)
    (hfirst : m = first ∨ t.parent m = some first) (ha : a ∈ first :: t.laterElements first) : t.Within id a := by
  obtain ⟨hw, hne⟩ := ht.mem_descendants.mp hm
  have hwf : t.Within id first := by
    rcases hfirst with rfl | hfirst
    · exact hw
    · exact within_parent_of_ne hw hne hfirst
  rcases List.mem_cons.mp ha with rfl | ha
  · exact hwf
  · obtain ⟨hpa, hnone, -, -⟩ := ht.mem_laterElements ha
    obtain ⟨q, hq⟩ := Option.ne_none_iff_exists'.mp hnone
    have hid' : first ≠ id := by
      rintro rfl
      rw [hid] at hq
      cases hq
    exact within_parent (within_parent_of_ne hwf hid' hq) (hpa.trans hq)

/-- Where no text element stands in an instruction, the fields are the same. -/
theorem Reworded.fields (h : Reworded varies guarded t u) (ht : t.WellFormed) {id : NodeId} (hid : t.parent id = none)
    (hclear : t.InstructionsClear id) : u.fields id = t.fields id := by
  have hspan : ∀ m instruction first others shape whole,
      Field.ofInstruction u m instruction first others shape whole = Field.ofInstruction t m instruction first others shape whole := by
    intro m instruction first others shape whole
    rw [Field.ofInstruction, Field.ofInstruction, h.span]
  have hmarker : ∀ m ∈ t.descendants id, Field.ofMarker? u m = Field.ofMarker? t m := by
    intro m hm
    have hsimple : Field.simple? u m = Field.simple? t m := by
      simp only [Field.simple?, read_congr attribute?_wordless h.wordless, hspan]
    have hcomplex : Field.complex? u m = Field.complex? t m := by
      rw [Field.complex?, Field.complex?, h.parent]
      cases hfirst : t.parent m with
      | none => rfl
      | some first =>
        show (takeThrough? (u.holdsMarker .closing) (first :: u.laterElements first) >>= _) =
          (takeThrough? (t.holdsMarker .closing) (first :: t.laterElements first) >>= _)
        rw [h.holdsMarker, h.laterElements]
        cases htaken : takeThrough? (t.holdsMarker .closing) (first :: t.laterElements first) with
        | none => rfl
        | some anchors =>
          have htext : Field.instructionText u anchors = Field.instructionText t anchors := by
            rw [Field.instructionText, Field.instructionText, h.subtree, h.isNamed]
            refine congrArg String.join (List.map_congr_left fun p hp => ?_)
            obtain ⟨hp, hn⟩ := List.mem_filter.mp hp
            obtain ⟨a, ha, hp⟩ := List.mem_flatMap.mp hp
            obtain ⟨rest, hrow⟩ := takeThrough?_eq_some htaken
            have hin := ht.within_anchor hid hm (Or.inr hfirst) (hrow ▸ List.mem_append_left rest ha)
            exact h.textContent (isElement_of_isNamed hn) (hclear p (ht.mem_subtree.mpr (within_trans hin (ht.mem_subtree.mp hp))) hn)
          simp only [bind, Option.bind, htext, hspan]
    rw [Field.ofMarker?, Field.ofMarker?, hsimple, hcomplex, h.isNamed, read_congr isMarker_wordless h.wordless]
  rw [Tree.fields, Tree.fields, read_congr descendants_wordless h.wordless, List.filterMap_congr hmarker]

/-- Guarded instructions hold no text elements. -/
theorem Reworded.instructionsClear (h : Reworded varies guarded t u) (hg : guarded) (ht : t.WellFormed) (id : NodeId) :
    t.InstructionsClear id := by
  intro p _ hn x hx
  rw [Bool.eq_false_iff]
  intro hx'
  by_cases hxp : x = p
  · rw [hxp, not_isNamed_of_isNamed hn (by decide)] at hx'
    cases hx'
  · obtain ⟨c, hc, hcx⟩ := exists_child_of_within (ht.mem_subtree.mp hx) hxp
    have hplain := (h.links p c (ht.mem_of_parent hc)).2.guard hg hn
    have hel := ht.isElement_of_child_within (hc ▸ Option.some_ne_none p) hcx (isElement_of_isNamed hx')
    rw [hplain] at hel
    cases hel

end Tree

/-! ## Bodies -/

namespace Block

/-- What stands between two nodes is elements. -/
theorem isElement_of_body {start stop : Field} {b : Block} (hb : resolve? t start stop = some b) {x : NodeId} (hx : x ∈ b.body) :
    t.isElement x = true := by
  have hlater : ∀ {y}, x ∈ t.laterElements y → t.isElement x = true := by
    intro y hy
    unfold Tree.laterElements at hy
    split at hy
    · cases hy
    · exact (List.mem_filter.mp hy).2
  rcases (resolve?_eq_some.mp hb).2.1 with hbody | ⟨-, -, hnil⟩
  · unfold between? at hbody
    split at hbody
    · rw [← Option.some.inj hbody] at hx
      cases hx
    · simp only at hbody
      split at hbody
      · rw [← Option.some.inj hbody] at hx
        exact hlater ((List.takeWhile_sublist _).subset hx)
      · cases hbody
  · rw [hnil] at hx
    cases hx

/-- So is the first of them, if the anchors are. -/
theorem isElement_startNode {start stop : Field} {b : Block} (hb : resolve? t start stop = some b)
    (hanchors : ∀ a ∈ start.anchors, t.isElement a = true) : t.isElement b.startNode = true := by
  have hancestor : ∀ {name a}, start.ancestor? t name = some a → t.isElement a = true := fun ha =>
    isElement_of_isNamed (List.find?_some ha)
  have hbound := bounded_of_resolve? hb
  generalize b.kind = k, b.startNode = s, b.endNode = e at hbound ⊢
  cases hbound with
  | image =>
    cases ha : start.ancestor? t Word.paragraph with
    | none => exact hanchors _ start.first_mem_anchors
    | some a => exact hancestor ha
  | row hs _ _ _ => exact hancestor hs
  | paragraph hs _ _ _ => exact hancestor hs
  | inline _ _ => exact hanchors _ start.last_mem_anchors

theorem lasting_copyNodes (t : Tree) (ids : List NodeId) : Lasting t (copyNodes t ids).2 := by
  have hfold : Lasting t (ids.foldl (fun v id => (v.deepCopy id).2.appendChild t.size (v.deepCopy id).1)
      (t.create (.element containerName []) .none).2) := by
    refine List.foldlRecOn ids _ (motive := fun v => Lasting t v) (lasting_create t _ _) fun v hv id _ => ?_
    exact (hv.trans (lasting_deepCopy v id)).trans ((lasting_detach _ _).trans (lasting_attach _ _ _ _))
  exact hfold

/-- The copies are put below a new node. -/
theorem isNamed_copyNodes (t : Tree) (ids : List NodeId) : (copyNodes t ids).2.isNamed containerName (copyNodes t ids).1 = true := by
  have hfold : (ids.foldl (fun v id => (v.deepCopy id).2.appendChild t.size (v.deepCopy id).1)
      (t.create (.element containerName []) .none).2).isNamed containerName t.size = true := by
    refine List.foldlRecOn ids _ (motive := fun v : Tree => v.isNamed containerName t.size = true) ?_ fun v hv id _ => ?_
    · rw [isNamed_of_kind (k := .element containerName []) (by rw [kind_create, if_pos rfl])]
      decide
    · exact ((lasting_deepCopy v id).trans ((lasting_detach _ _).trans (lasting_attach _ _ _ _))).named hv
  exact hfold

theorem reworded_copyNodes (h : Reworded varies guarded t u) {ids : List NodeId} (hids : ∀ x ∈ ids, t.isElement x = true) :
    (copyNodes u ids).1 = (copyNodes t ids).1 ∧ Reworded varies guarded (copyNodes t ids).2 (copyNodes u ids).2 := by
  have hfold := List.foldl_rel (l := ids)
    (f := fun v id => (v.deepCopy id).2.appendChild t.size (v.deepCopy id).1)
    (g := fun w id => (w.deepCopy id).2.appendChild t.size (w.deepCopy id).1)
    (r := fun v w => Reworded varies guarded v w ∧ Lasting t v ∧ v.isNamed containerName t.size = true)
    (a := (t.create (.element containerName []) .none).2) (b := (u.create (.element containerName []) .none).2) ?_ ?_
  · simp only [copyNodes, createElement, create_fst, h.size]
    exact ⟨trivial, hfold.1⟩
  · refine ⟨h.create _ _, lasting_create t _ _, ?_⟩
    rw [isNamed_of_kind (k := .element containerName []) (by rw [kind_create, if_pos rfl])]
    decide
  · rintro x hx v w ⟨hvw, hv, hn⟩
    obtain ⟨hfst, hcopy⟩ := hvw.deepCopy x
    have hkeep := lasting_deepCopy v x
    rw [hfst, fst_deepCopy]
    refine ⟨hcopy.appendChild ⟨lt_size_copyTo _ v x, Or.inl ?_, fun _ hi => ?_⟩,
      (hv.trans hkeep).trans ((lasting_detach _ _).trans (lasting_attach _ _ _ _)),
      (hkeep.trans ((lasting_detach _ _).trans (lasting_attach _ _ _ _))).named hn⟩
    · refine kind_eq_of_element hcopy.wordless ?_
      rw [isElement_congr (kind_deepCopy v x)]
      exact hv.element (hids x hx)
    · rw [not_isNamed_of_isNamed (hkeep.named hn) (by decide)] at hi
      cases hi

theorem lasting_replace (b : Block) (content : List NodeId) (t : Tree) (l : Ledger) : Lasting t (b.replace content t l).1 := by
  rw [replace_eq]
  exact (lasting_insertAllAfter t _ _).trans (lasting_detachAll _ _)

/-- The nodes have the same words in both trees and, where instructions are guarded, stand nowhere. -/
structure Loose (guarded : Prop) (t u : Tree) (content : List NodeId) : Prop where
  worded : ∀ x ∈ content, x < t.size ∧ u.kind x = t.kind x
  aside : guarded → ∀ x ∈ content, t.parent x = none

theorem reworded_replace (h : Reworded varies guarded t u) {b : Block} (hstart : guarded → t.isElement b.startNode = true)
    {content : List NodeId} (hcontent : Loose guarded t u content) (l : Ledger) :
    (b.replace content u l).2 = (b.replace content t l).2 ∧
      Reworded varies guarded (b.replace content t l).1 (b.replace content u l).1 := by
  have hput : Reworded varies guarded (t.insertAllAfter b.startNode content) (u.insertAllAfter b.startNode content) := by
    refine h.insertAllAfter hcontent.worded fun y hy => ?_
    rcases List.mem_cons.mp hy with rfl | hy
    · exact h.clearBeside hstart
    · intro hg p hp _
      rw [hcontent.aside hg y hy] at hp
      cases hp
  rw [replace_eq, replace_eq]
  exact ⟨rfl, hput.detachAll _⟩

end Block

/-! ## Pictures and cells -/

namespace Statement

theorem lasting_aimPictures (image : Image) (rid : String) (b : Block) (t : Tree) : Lasting t (aimPictures image rid b t) := by
  refine List.foldlRecOn (b.nodes.flatMap t.subtree) _ (motive := fun v => Lasting t v) (.refl t) fun v hv x _ => hv.trans ?_
  unfold aimAt
  split
  · exact lasting_setAttribute v _ _ _
  · split
    · exact lasting_setAttribute v _ _ _
    · exact .refl v

theorem reworded_aimPictures (h : Reworded varies guarded t u) (image : Image) (rid : String) (b : Block) :
    Reworded varies guarded (aimPictures image rid b t) (aimPictures image rid b u) := by
  unfold aimPictures
  rw [h.subtree]
  refine List.foldl_rel h fun x _ v w hvw => ?_
  unfold aimAt
  rw [hvw.isNamed]
  split
  · exact hvw.setAttribute _ _ _
  · split
    · exact hvw.setAttribute _ _ _
    · exact hvw

end Statement

namespace Tree

theorem lasting_fillCell (t : Tree) (cell : NodeId) : Lasting t (fillEmptyCells.fillCell t cell) := by
  unfold fillEmptyCells.fillCell
  split
  · exact .refl t
  · exact (lasting_create t _ _).trans ((lasting_detach _ _).trans (lasting_attach _ _ _ _))

theorem lasting_fillEmptyCells (t : Tree) (id : NodeId) : Lasting t (t.fillEmptyCells id) := by
  unfold fillEmptyCells
  exact List.foldlRecOn _ _ (motive := fun v => Lasting t v) (.refl t) fun v hv cell _ => hv.trans (lasting_fillCell v cell)

theorem Reworded.fillEmptyCells (h : Reworded varies guarded t u) (id : NodeId) :
    Reworded varies guarded (t.fillEmptyCells id) (u.fillEmptyCells id) := by
  unfold Tree.fillEmptyCells
  rw [read_congr descendants_wordless h.wordless, h.isNamed]
  have hfold := List.foldl_rel (l := (t.descendants id).filter (t.isNamed Word.tableCell)) (f := fillEmptyCells.fillCell)
    (g := fillEmptyCells.fillCell) (r := fun v w => Reworded varies guarded v w ∧ Lasting t v) ⟨h, .refl t⟩ ?_
  · exact hfold.1
  · rintro cell hcell v w ⟨hvw, hv⟩
    refine ⟨?_, hv.trans (lasting_fillCell v cell)⟩
    have hn := hv.named (List.mem_filter.mp hcell).2
    unfold fillEmptyCells.fillCell
    rw [hvw.elementChildren, hvw.isNamed]
    split
    · exact hvw
    · exact hvw.createBelow _ _ fun _ => ⟨lt_size_of_isNamed hn, not_isNamed_of_isNamed hn (by decide)⟩

end Tree

end MailMerge
