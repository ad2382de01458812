/-
  MailMerge.Proofs.Merge.Upheld — the fields of the bodies that are still to come.

  The fields in a body are scanned again when the body is copied, which is after all earlier
  statements of its level have been carried out. In a tidy tree these leave the fields of the
  body alone: a block takes nothing out of a later body and puts nothing into it, and a text
  that is put into one replaces a text element there.

  Proved: whatever statements have been carried out, the bodies of the blocks still to come
  keep what their fields are made of (`Scan.Upheld.run`).
-/

import MailMerge.Proofs.Field.Echoed
import MailMerge.Proofs.Merge.Depth
import MailMerge.Proofs.Merge.Spans
import MailMerge.Proofs.Splice.Rows

namespace MailMerge

open MailMerge.Merge MailMerge.Outline MailMerge.Tree

/-! ## Earlier blocks -/

namespace Outline

variable {r : Registry} {t : Tree} (h : t.WellFormed) {id : NodeId} {before after : List Statement}
  (ho : Outlined r t (t.fields id) (before ++ after))

include h ho

/-- No earlier block stands in a later body or takes something out of it. -/
theorem Outlined.clearOf_later {b₀ : Block} (hb₀ : b₀ ∈ before.flatMap Statement.blocks) {b : Block}
    (hb : b ∈ after.flatMap Statement.blocks) : b₀.ClearOf (t.Under b.body) t := by
  obtain ⟨st, hst, hbst⟩ := List.mem_flatMap.mp hb₀
  have hmem : st ∈ before ++ after := List.mem_append_left after hst
  have hr := ho.resolves hmem hbst
  have hplace : ∀ p, t.Under b.body p → t.parent b₀.startNode ≠ some p := by
    rintro p ⟨x, hx, hxp⟩ hp
    have he := ho.eq_startNode_of_within h hb₀ hb hx (within_parent hxp hp)
    exact h.not_within_of_parent hp (he ▸ hxp)
  have hbound : ∀ f, f = b₀.startField ∨ f = b₀.endField → f ∈ before.flatMap topFields := by
    intro f hf
    obtain ⟨pre, post, htop⟩ := ho.beside hmem hbst
    refine List.mem_flatMap.mpr ⟨st, hst, ?_⟩
    rw [htop]
    rcases hf with rfl | rfl <;> simp
  refine ⟨hplace, fun l y hy p ⟨x, hx, hxp⟩ hyp => ?_⟩
  have hp := h.parent_of_mem hyp
  rcases Ledger.mem_leaving hy with ⟨-, hbody⟩ | ⟨hown, -, -⟩ | ⟨f, hf, ha, -⟩
  · have hps := (h.mem_laterElements (Block.mem_laterElements_of_body h hr hbody).1).1
    exact hplace p ⟨x, hx, hxp⟩ (hps.symm.trans hp)
  · obtain ⟨f, hf, hyf, -⟩ := Block.above_first_of_mem_ownNodes h hr hown
    exact ho.not_within_later_first h (hbound f hf) hb hx (within_trans (within_parent hxp hp) hyf)
  · have hplaced : f.Placed t := by
      apply placed_of_mem_fields (r := id)
      apply ho.topFields_sublist.subset
      rw [List.flatMap_append]
      exact List.mem_append_left _ (hbound f hf)
    have hpf := (hplaced.parent_anchor h ha).symm.trans hp
    exact ho.not_within_later_first h (hbound f hf) hb hx (within_parent hxp hpf)

end Outline

theorem Scan.mem_blocks_of_rest {c : Scan} {done rest : List Statement} {st : Statement} (hsplit : c.statements = done ++ st :: rest)
    {b : Block} (hb : b ∈ rest.flatMap Statement.blocks) : b ∈ c.statements.flatMap Statement.blocks := by
  rw [hsplit, List.flatMap_append, List.flatMap_cons]
  exact List.mem_append_right _ (List.mem_append_right _ hb)

namespace Scan

/-- While statements of a scan are carried out, the bodies of those still to come keep what
    their fields are made of. -/
structure Upheld (c : Scan) (env : Environment) (rest : List Statement) (s : Session) : Prop where
  pending : c.Pending env rest s
  retains : ∀ b ∈ rest.flatMap Statement.blocks, Retains c.tree b.body s.tree

section steps

variable {r : Registry} {c : Scan} (hc : c.Made r)

include hc

theorem Made.upheld (env : Environment) : c.Upheld env c.statements ⟨c.tree, env, c.ledger⟩ where
  pending := hc.pending env
  retains b hb :=
    { reads := fun _ _ => reads_of_kind rfl
      spans := .refl _
      up := fun _ _ _ => within_of_parent
      parent := fun _ _ _ _ => id
      bare := fun y hy ⟨x, hx, hxy⟩ => (hc.pending env).bare b hb x hx y hy hxy
      rows := fun _ _ => rfl
      instructions := fun _ _ _ => rfl }

theorem Made.under_body {b : Block} (hb : b ∈ c.statements.flatMap Statement.blocks) {x : NodeId}
    (hx : c.tree.Under b.body x) : c.tree.Within c.top x ∧ x < c.tree.size ∧ c.tree.parent x ≠ none := by
  obtain ⟨st, hst, hbst⟩ := List.mem_flatMap.mp hb
  obtain ⟨n, hn, hnx⟩ := hx
  have hlt := (hc.inStore_of_body hst hbst hn).2
  obtain ⟨hbelow, hne⟩ := hc.body_below hst hbst hn
  have hw := within_trans hbelow hnx
  refine ⟨hw, (fenced_size hc.wellFormed).lt_of_within hlt hnx, fun hnone => ?_⟩
  obtain rfl := within_of_parent_none hnone hw
  exact hne (within_of_parent_none hc.top hnx)

variable (htidy : c.tree.Tidy c.top) {env : Environment} {expand : NodeId → Merge Unit} (hexp : Expands expand)

section step

variable {done rest : List Statement} {st : Statement} (hsplit : c.statements = done ++ st :: rest) {s s' : Session}
  (hs : c.Upheld env (st :: rest) s) (hrun : st.evaluate expand s = (.ok (), s')) {b : Block}
  (hb : b ∈ rest.flatMap Statement.blocks)

include hsplit hs hrun hb hexp

/-- Nothing is moved into a later body. -/
theorem Upheld.parent {y p : NodeId} (hy : y < s.tree.size) (hp : c.tree.Under b.body p) (hyp : s'.tree.parent y = some p) :
    s.tree.parent y = some p := by
  have hst : st ∈ c.statements := by rw [hsplit]; simp
  have hretains := hs.retains b (by rw [List.flatMap_cons]; exact List.mem_append_right _ hb)
  rcases (Statement.evaluate_bystanders hexp hs.pending.scan.wellFormed (hs.pending.scan.owned st hst) hrun hy).2.2 p hyp with
    hsame | ⟨w, ⟨f, o, rfl, hwraps⟩, -, hwp⟩
  · exact hsame
  · -- only an earlier field would be unwrapped into it
    exfalso
    obtain ⟨x, hx, hxp⟩ := hp
    have hf : f.first < c.tree.size := ((hc.owned _ hst).field f o rfl f.first f.first_mem_anchors).2.lt_size
    obtain rfl : w = f.first := hwraps.2
    have hpw := hretains.parent f.first hf p ⟨x, hx, hxp⟩ hwp
    have ho : Outlined r c.tree (c.tree.fields c.top) ((done ++ [.insertion f o]) ++ rest) := by
      have ho := hc.outlined
      rwa [hsplit, List.append_cons] at ho
    exact ho.not_within_later_first hc.wellFormed (f := f) (by simp [topFields]) hb hx (within_parent hxp hpw)

omit hexp hrun in
/-- The anchors of an insertion stand in no later body, and neither does what begins it. -/
theorem Upheld.anchors {f : Field} {o : Operand} (hst : st = .insertion f o) {p : NodeId} (hp : c.tree.Under b.body p) :
    f.first ≠ p ∧ ∀ a ∈ f.anchors, s.tree.parent a ≠ some p := by
  subst hst
  obtain ⟨x, hx, hxp⟩ := hp
  have hmem : .insertion f o ∈ c.statements := by rw [hsplit]; simp
  have ho : Outlined r c.tree (c.tree.fields c.top) ((done ++ [.insertion f o]) ++ rest) := by
    have ho := hc.outlined
    rwa [hsplit, List.append_cons] at ho
  have hnot := ho.not_within_later_first hc.wellFormed (f := f) (by simp [topFields]) hb hx
  refine ⟨fun he => hnot (he ▸ hxp), fun a ha hap => ?_⟩
  have hlt : a < c.tree.size := ((hc.owned _ hmem).field f o rfl a ha).2.lt_size
  have hretains := hs.retains b (by rw [List.flatMap_cons]; exact List.mem_append_right _ hb)
  have hpa := hretains.parent a hlt p ⟨x, hx, hxp⟩ hap
  have hplaced : f.Placed c.tree := placed_of_mem_fields ((hc.outlined.mem_fields hmem).1 f o rfl)
  exact hnot (within_parent hxp ((hplaced.parent_anchor hc.wellFormed ha).symm.trans hpa))

/-- A later body is left alone, unless a text is put in. -/
theorem Upheld.spares_or (henv : env.reaches Content.isMarkup = false) : Spares (c.tree.Under b.body) s.tree s'.tree ∨
    ∃ f o text, st = .insertion f o ∧ s'.tree = Splice.putText f text s.tree := by
  have hst : st ∈ c.statements := by rw [hsplit]; simp
  have hwell := hs.pending.scan.wellFormed
  have hretains := hs.retains b (by rw [List.flatMap_cons]; exact List.mem_append_right _ hb)
  by_cases hins : ∃ f o, st = .insertion f o
  · obtain ⟨f, o, rfl⟩ := hins
    obtain ⟨v, hval, hput⟩ := Statement.evaluate_insertion_eq_ok hrun
    have hv : ∀ source, v ≠ .content (.markup source) := by
      rintro source rfl
      exact Environment.evaluate_ne_markup ((hs.pending.scan.env.reaches _).trans henv) o source hval
    rcases Statement.run_insert hv f s with hrem | ⟨text, htext⟩
    · rw [hrem] at hput
      cases hput
      refine Or.inl (spares_detachAll fun a ha p hp hmem => ?_)
      exact (hs.anchors hc hsplit hb rfl hp).2 a ha (hwell.parent_of_mem hmem)
    · rw [htext] at hput
      cases hput
      exact Or.inr ⟨f, o, text, rfl, rfl⟩
  · left
    have ho : Outlined r c.tree (c.tree.fields c.top) ((done ++ [st]) ++ rest) := by
      have ho := hc.outlined
      rwa [hsplit, List.append_cons] at ho
    have hlt : ∀ x, c.tree.Under b.body x → x < s.tree.size := fun x hx =>
      Nat.lt_of_lt_of_le (hc.under_body (mem_blocks_of_rest hsplit hb) hx).2.1 hs.pending.scan.lifted.grows
    refine Statement.spares_blocks hexp hwell hlt (hs.pending.scan.owned st hst) (fun b₀ hb₀ => ?_)
      (fun f o he => hins ⟨f, o, he⟩) hrun
    have hclear := ho.clearOf_later hc.wellFormed (List.mem_flatMap.mpr ⟨st, by simp, hb₀⟩) hb
    have hown := (hc.owned st hst).blocks b₀ hb₀
    refine ⟨fun p hp hps => hclear.place p hp (hretains.parent _ hown.startNode.2 p hp hps), fun l y hy p hp hmem => ?_⟩
    have hpy := hretains.parent y (hown.lt_size_of_leaving hy) p hp (hwell.parent_of_mem hmem)
    exact hclear.leaving l y hy p hp (hc.wellFormed.mem_of_parent hpy)

/-- The rows of a later body lose no more than text elements. -/
theorem Upheld.rows (henv : env.reaches Content.isMarkup = false) {p : NodeId} (hp : c.tree.Under b.body p) :
    (s'.tree.children p).filter c.tree.lasts = (s.tree.children p).filter c.tree.lasts := by
  rcases hs.spares_or hc hexp hsplit hrun hb henv with hspared | ⟨f, o, text, rfl, htree⟩
  · rw [hspared.children p hp]
  · have hmem : .insertion f o ∈ c.statements := by rw [hsplit]; simp
    obtain ⟨hfirst, hout⟩ := hs.anchors hc hsplit hb rfl hp
    have hgrows := hs.pending.scan.lifted.grows
    have hplt := Nat.lt_of_lt_of_le (hc.under_body (mem_blocks_of_rest hsplit hb) hp).2.1 hgrows
    rw [htree]
    refine Splice.row_putText hs.pending.scan.wellFormed ((hs.pending.scan.owned _ hmem).field f o rfl) hfirst hout hplt
      (fun x hx => ?_) text
    have hlt := lt_size_of_lasts hx
    refine ⟨Nat.lt_of_lt_of_le hlt hgrows, ?_⟩
    rw [(hs.pending.reads x hlt).isNamed]
    rw [lasts, Bool.and_eq_true, Bool.not_eq_true'] at hx
    exact hx.2

include htidy

/-- Nothing is put into the instructions of a later body. -/
theorem Upheld.place (henv : env.reaches Content.isMarkup = false) {p y : NodeId} (hp : c.tree.Under b.body p)
    (hn : c.tree.isNamed Word.instructionText p = true) (hyp : s'.tree.parent y = some p) : y < s.tree.size := by
  have hwell := hs.pending.scan.wellFormed
  have hretains := hs.retains b (by rw [List.flatMap_cons]; exact List.mem_append_right _ hb)
  obtain ⟨hin, hlt, hparent⟩ := hc.under_body (mem_blocks_of_rest hsplit hb) hp
  have hplt := Nat.lt_of_lt_of_le hlt hs.pending.scan.lifted.grows
  rcases hs.spares_or hc hexp hsplit hrun hb henv with hspared | ⟨f, o, text, rfl, htree⟩
  · have hwell' := (hs.pending.next hc henv hexp hsplit hrun).scan.wellFormed
    have hmem := hwell'.mem_of_parent hyp
    rw [hspared.children p hp] at hmem
    exact hwell.lt_size_of_mem hmem
  · have hmem : .insertion f o ∈ c.statements := by rw [hsplit]; simp
    have hf := (hc.outlined.mem_fields hmem).1 f o rfl
    -- texts go into runs, anchors and what holds elements
    have hplaces : f.Places s.tree fun q => q ≠ p := by
      refine ⟨fun a ha he => ?_, fun a _ x _ hx he => ?_, fun a _ x q _ hx hxq he => ?_⟩
      · subst he
        rw [htidy.anchor_not_instruction hc.wellFormed hf ha hin hparent] at hn
        cases hn
      · subst he
        rw [(hs.pending.reads x hlt).isNamed] at hx
        rw [not_isNamed_of_isNamed hx (by decide)] at hn
        cases hn
      · subst he
        have hxc := hwell.mem_of_parent hxq
        rw [hretains.instructions q hp hn] at hxc
        have hplain := htidy.plain q (hc.wellFormed.mem_subtree.mpr hin) hn x hxc
        rw [(hs.pending.reads x (hc.wellFormed.lt_size_of_mem hxc)).isElement, hplain] at hx
        cases hx
    have hinert := Splice.inert_putText hwell hplt ((hs.pending.scan.owned _ hmem).field f o rfl) hplaces text
    by_contra hy
    exact hinert.place y p (Nat.le_of_not_lt hy) hplt (htree ▸ hyp) rfl

/-- The instructions of a later body stay. -/
theorem Upheld.instructions (henv : env.reaches Content.isMarkup = false) {p : NodeId} (hp : c.tree.Under b.body p)
    (hn : c.tree.isNamed Word.instructionText p = true) : s'.tree.children p = c.tree.children p := by
  have hretains := hs.retains b (by rw [List.flatMap_cons]; exact List.mem_append_right _ hb)
  have hwell' := (hs.pending.next hc henv hexp hsplit hrun).scan.wellFormed
  have hin := (hc.under_body (mem_blocks_of_rest hsplit hb) hp).1
  have hbefore := hretains.instructions p hp hn
  have hlasts : ∀ y ∈ c.tree.children p, c.tree.lasts y = true := by
    intro y hy
    have hplain := htidy.plain p (hc.wellFormed.mem_subtree.mpr hin) hn y hy
    have hnot : c.tree.isNamed Word.text y = false := by
      rw [Bool.eq_false_iff]
      intro htext
      rw [isElement_of_isNamed htext] at hplain
      cases hplain
    rw [lasts, decide_eq_true (hc.wellFormed.lt_size_of_mem hy), hnot]
    rfl
  have hafter : ∀ y ∈ s'.tree.children p, y ∈ c.tree.children p := by
    intro y hy
    have hyp := hwell'.parent_of_mem hy
    have hlt := hs.place hc htidy hexp hsplit hrun hb henv hp hn hyp
    have hsame := hs.parent hc hexp hsplit hrun hb hlt hp hyp
    exact hbefore ▸ hs.pending.scan.wellFormed.mem_of_parent hsame
  have hrows := hs.rows hc hexp hsplit hrun hb henv hp
  rw [hbefore, List.filter_eq_self.mpr hlasts, List.filter_eq_self.mpr fun y hy => hlasts y (hafter y hy)] at hrows
  exact hrows

end step

include htidy hexp

/-- One statement. -/
theorem Upheld.next (henv : env.reaches Content.isMarkup = false) {done rest : List Statement} {st : Statement}
    (hsplit : c.statements = done ++ st :: rest) {s s' : Session} (hs : c.Upheld env (st :: rest) s)
    (hrun : st.evaluate expand s = (.ok (), s')) : c.Upheld env rest s' := by
  have hst : st ∈ c.statements := by rw [hsplit]; simp
  have hnext := hs.pending.next hc henv hexp hsplit hrun
  refine ⟨hnext, fun b hb => ?_⟩
  have hretains := hs.retains b (by rw [List.flatMap_cons]; exact List.mem_append_right _ hb)
  have hspans := Statement.keepsSpans_evaluate hexp hs.pending.scan.wellFormed ((hs.pending.scan.env.reaches _).trans henv)
    (hs.pending.scan.owned st hst) hrun
  exact
    { reads := hnext.reads
      spans := hretains.spans.trans hspans
      up := fun y hy p hyp => (hnext.scan.lifted.up y hy p hyp).within
      parent := fun y hy p hp hyp => hretains.parent y hy p hp
        (hs.parent hc hexp hsplit hrun hb (Nat.lt_of_lt_of_le hy hs.pending.scan.lifted.grows) hp hyp)
      bare := fun y hy ⟨x, hx, hxy⟩ => hnext.bare b hb x hx y hy hxy
      rows := fun p hp => (hs.rows hc hexp hsplit hrun hb henv hp).trans (hretains.rows p hp)
      instructions := fun p hp hn => hs.instructions hc htidy hexp hsplit hrun hb henv hp hn }

/-- All statements before the rest. -/
theorem Upheld.run (henv : env.reaches Content.isMarkup = false) (done : List Statement) {sts : List Statement}
    (rest : List Statement) (hsplit : c.statements = done ++ (sts ++ rest)) {s s' : Session} (hs : c.Upheld env (sts ++ rest) s)
    (hrun : Statement.evaluateAll expand sts s = (.ok (), s')) : c.Upheld env rest s' := by
  induction sts generalizing done s with
  | nil =>
    cases hrun
    exact hs
  | cons st sts ih =>
    obtain ⟨s₁, hone, hrest⟩ := Statement.evaluateAll_cons_eq_ok hrun
    have hnext := hs.next hc htidy hexp henv hsplit hone
    exact ih (done ++ [st]) (by rw [hsplit]; simp) hnext hrest

/-- A body that is copied is as the scan left it, but for texts that have been put into it. -/
theorem Upheld.echoed {st : Statement} {rest : List Statement}
    (hst : st ∈ c.statements) {s s' : Session} (hs : c.Upheld env (st :: rest) s) {b : Block} (hcopies : st.Copies expand s b s') :
    ∃ φ, Echoed c.tree c.top b.body s'.tree φ (Block.copyNodes s'.tree b.body).2 (Block.copyNodes s'.tree b.body).1 := by
  have hb : b ∈ st.blocks := Statement.mem_blocks_of_copied hcopies.mem_copied
  have hr := hc.outlined.resolves hst hb
  have hstart := ((hc.outlined.mem_fields hst).2 b hb).1
  have hws := hs.pending.scan.wellFormed
  have hown := hs.pending.scan.owned st hst
  obtain ⟨hw, hin⟩ := hcopies.inStore hexp hws hown
  obtain ⟨hfst, hfill⟩ := Block.copyNodes_spec hw (fun x hx => (hin x hx).1) fun x hx => (hin x hx).2
  obtain ⟨φ, hφ, hchildren, hspans⟩ := exists_renames_copyNodes hw hin (hs.pending.pairwise_at_copy hc hst hb hexp hcopies)
  have hretains := hs.retains b (List.mem_flatMap.mpr ⟨st, List.mem_cons_self, hb⟩)
  have hold : ∀ x ∈ b.body, x < c.tree.size := fun x hx => (hc.inStore_of_body hst hb hx).2
  rw [hfst]
  exact ⟨φ,
    { before := hc.wellFormed
      between := hw
      after := hfill.beyond.wellFormed
      tidy := htidy
      retains := hretains.beyond hc.wellFormed hws hold (hcopies.beyond hexp hws hown)
      renames := hφ
      spans := hspans
      children := hchildren
      kind := hfill.kind
      below := fun x hx => hc.body_below hst hb hx
      row := fun x hx => by
        obtain ⟨-, -, hel, -⟩ := hc.wellFormed.mem_laterElements (Block.mem_laterElements_of_body hc.wellFormed hr hx).1
        exact ⟨hel, htidy.body hc.wellFormed hr hstart hx (hc.body_below hst hb hx).1⟩
      later := fun front x rest hbody => ⟨_, Block.laterElements_of_body hc.wellFormed hr hbody⟩ }⟩

end steps

end Scan

end MailMerge
