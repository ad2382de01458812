/-
  MailMerge.Proofs.Merge.Spans — spans while a merge goes on.

  A failure that is told at a node of a copy has the place where its original was written,
  however many copies are between them: statements leave the nodes their spans, and the
  copies of a block's body have the spans of the originals.

  Proved: a statement that inserts no markup leaves every older node its span
  (`Statement.keepsSpans_evaluate`), and each node of a copied body has the span of its
  original (`Tree.exists_renames_copyNodes`).
-/

import MailMerge.Proofs.Merge.Consumed
import MailMerge.Proofs.Merge.Spared
import MailMerge.Proofs.Tree.Spans

namespace MailMerge

open MailMerge.Merge

open MailMerge.Tree

/-! ## A text in a field's place -/

section fields

variable (t : Tree) (f : Field)

theorem Target.keepsSpans_addElement (p : NodeId) (name : String) : KeepsSpans t (addElement t p name).2 :=
  (keepsSpans_create t _ _).trans (keepsSpans_appendChild _ p _)

theorem Target.keepsSpans_locateRun : KeepsSpans t (locateRun t f).2 := by
  unfold locateRun
  split
  · exact .refl t
  · split
    · exact .refl t
    · exact keepsSpans_addElement t _ _
  · exact (keepsSpans_create t _ _).trans (keepsSpans_insertBeside _ _ _ _)

theorem Target.keepsSpans_locate : KeepsSpans t (locate t f).2 := by
  have hrun := keepsSpans_locateRun t f
  unfold locate
  generalize locateRun t f = found at hrun ⊢
  obtain ⟨run, u⟩ := found
  simp only
  split
  · exact hrun
  · exact hrun.trans (keepsSpans_addElement u run _)

theorem Target.keepsSpans_finish (target : Target) : KeepsSpans t (target.finish f t) := by
  unfold finish
  split
  · exact keepsSpans_unwrap t _
  · exact keepsSpans_detachAll t _

end fields

namespace Splice

theorem keepsSpans_lineElement (t : Tree) (model : NodeId) (line : List Char) : KeepsSpans t (lineElement t model line).2 := by
  have htext := (keepsSpans_copyTo t.size t model).trans (keepsSpans_setText (t.deepCopy model).2 (t.deepCopy model).1 (String.ofList line))
  unfold lineElement
  simp only
  split
  · exact htext.trans (keepsSpans_setAttribute _ _ _ _)
  · exact htext

theorem keepsSpans_addBrokenLines (t : Tree) (model anchor : NodeId) (lines : List (List Char)) :
    KeepsSpans t (addBrokenLines model anchor t lines) := by
  induction lines generalizing t anchor with
  | nil => exact .refl t
  | cons line lines ih =>
    have hbreak := (keepsSpans_create t (.element Word.lineBreak []) .none).trans (keepsSpans_insertBeside Siblings.insertAfter _ anchor t.size)
    have hline := hbreak.trans (keepsSpans_lineElement _ model line)
    exact (hline.trans (keepsSpans_insertBeside _ _ _ _)).trans (ih _ _)

theorem keepsSpans_addLines (t : Tree) (model : NodeId) (lines : List (List Char)) : KeepsSpans t (addLines model t lines) := by
  cases lines with
  | nil => exact .refl t
  | cons line lines =>
    have hline := (keepsSpans_lineElement t model line).trans (keepsSpans_insertBeside Siblings.insertAfter _ model (lineElement t model line).1)
    exact hline.trans (keepsSpans_addBrokenLines _ model _ lines)

theorem keepsSpans_putText (f : Field) (s : String) (t : Tree) : KeepsSpans t (putText f s t) := by
  have hlocate := Target.keepsSpans_locate t f
  unfold putText
  generalize Target.locate t f = found at hlocate ⊢
  obtain ⟨target, u⟩ := found
  simp only at hlocate ⊢
  have hlines := hlocate.trans (keepsSpans_addLines u target.text (Text.splitAt '\n' s.toList))
  exact (hlines.trans (keepsSpans_detach _ _)).trans (Target.keepsSpans_finish _ f target)

end Splice

/-! ## Statements -/

theorem Block.keepsSpans_giveWay (b : Block) (content : List NodeId) (s : Session) :
    KeepsSpans s.tree (b.giveWay content s).2.tree := by
  rw [run_giveWay, replace_eq]
  exact (keepsSpans_insertAllAfter content s.tree b.startNode).trans (keepsSpans_detachAll _ _)

theorem Block.keepsSpans_dropAll (bs : List Block) (s : Session) : KeepsSpans s.tree (dropAll bs s).tree := by
  rw [tree_dropAll]
  exact keepsSpans_detachAll _ _

namespace Statement

theorem keepsSpans_foldl_aimAt (image : Image) (rid : String) (ids : List NodeId) (t : Tree) :
    KeepsSpans t (ids.foldl (aimAt image rid) t) := by
  have hone : ∀ (t : Tree) (id : NodeId), KeepsSpans t (aimAt image rid t id) := by
    intro t id
    unfold aimAt
    split
    · exact keepsSpans_setAttribute _ _ _ _
    · split
      · exact keepsSpans_setAttribute _ _ _ _
      · exact .refl t
  induction ids generalizing t with
  | nil => exact .refl t
  | cons id ids ih => exact (hone t id).trans (ih _)

theorem keepsSpans_showPicture (o : Operand) (b : Block) (v : Value) (s : Session) :
    KeepsSpans s.tree (showPicture o b v s).2.tree := by
  cases v with
  | content c =>
    cases c with
    | image image =>
      rw [tree_showPicture_image]
      exact keepsSpans_foldl_aimAt image _ _ _
    | _ => exact .refl _
  | _ => exact .refl _

/-- Where no markup is inserted, older nodes keep their spans. -/
theorem keepsSpans_evaluate {expand : NodeId → Merge Unit} (hexp : Expands expand) {s s' : Session} (h : s.tree.WellFormed)
    (henv : s.env.reaches Content.isMarkup = false) {st : Statement} (hown : st.Owned (fun x => 0 ≤ x) s.tree)
    (hrun : st.evaluate expand s = (.ok (), s')) : KeepsSpans s.tree s'.tree := by
  rcases evaluate_cases hrun with ⟨f, o, v, rfl, hval, hins⟩ | ⟨before, b, after, content, made, hm⟩ | ⟨o, b, v, made, rfl, hshow, rfl⟩ | rfl
  · have hv : ∀ source, v ≠ .content (.markup source) := by
      rintro source rfl
      exact Environment.evaluate_ne_markup henv o source hval
    rcases run_insert hv f s with hrem | ⟨text, htext⟩
    · rw [hrem] at hins
      cases hins
      exact keepsSpans_detachAll _ _
    · rw [htext] at hins
      cases hins
      exact Splice.keepsSpans_putText f text s.tree
  · obtain ⟨hed, -⟩ := hm.fresh hexp h (hown.blocks b (by rw [hm.blocks]; simp))
    have hmade : KeepsSpans s.tree made.tree := hed.tree.keepsSpans (Nat.le_refl _)
    rw [hm.run_evaluate] at hrun
    cases hrun
    have hgive := (Block.keepsSpans_dropAll before made).trans (Block.keepsSpans_giveWay b content (Block.dropAll before made))
    exact (hmade.trans hgive).trans (Block.keepsSpans_dropAll after _)
  · have hshown := keepsSpans_showPicture o b v s
    rw [hshow] at hshown
    exact hshown.trans (Block.keepsSpans_dropAll [b] made)
  · exact Block.keepsSpans_dropAll _ s

end Statement

/-! ## Copies -/

/-- Copying nodes renames what is below them, and each copy has the span of its original. -/
theorem Tree.exists_renames_copyNodes {t : Tree} (h : t.WellFormed) {ids : List NodeId} (hin : ∀ x ∈ ids, x ≠ root ∧ x < t.size)
    (hids : ids.Pairwise fun a b => ∀ x, ¬ (t.Within a x ∧ t.Within b x)) :
    ∃ φ, Renames t ids φ (Block.copyNodes t ids).2 ∧ (Block.copyNodes t ids).2.children t.size = ids.map φ ∧
      ∀ x, t.Under ids x → (Block.copyNodes t ids).2.span (φ x) = t.span x := by
  obtain ⟨φ, hφ, hmap⟩ := exists_duplicates_copiesIn h Block.containerName [] hin hids
  rw [Block.copyNodes_eq]
  exact ⟨φ, hφ.renames, hmap, hφ.span⟩

end MailMerge
