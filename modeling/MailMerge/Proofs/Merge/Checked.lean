/-
  MailMerge.Proofs.Merge.Checked — a template that was checked is not blamed later.

  Checking a template is building the outline of the part. A merge builds again, for each copy
  of a body, and may be the first to see what is wrong: of the blocks in a block the check has
  seen where they end, and of its insertions nothing. So a template that was checked may still
  be blamed while it is merged.

  Where the bodies are closed in themselves, all that is built later was built before. A copy
  has the fields of the body under other names and thus an outline, whose blocks are copies of
  blocks of the part (`Rebuilt`). The copies of those have outlines in turn, since nothing that
  is carried out before they are made changes their bodies.

  Proved: the merge of a template that was checked, and whose bodies are closed in themselves,
  never blames the template, in no environment (`checked_never_blamed`).
-/

import MailMerge.Proofs.Merge.Blame
import MailMerge.Proofs.Merge.Spared
import MailMerge.Proofs.Outline.Rebuilt

namespace MailMerge

open MailMerge.Tree Merge Outline

/-! ## Levels -/

/-- What stands below `c` in `u` has an outline, and the blocks in it that are copied have the
    bodies of blocks of `t`. -/
structure Rebuilt (r : Registry) (t : Tree) (id : NodeId) (u : Tree) (c : NodeId) (ss : List Statement) : Prop where
  wellFormed : u.WellFormed
  outlined : Outlined r u (u.fields c) ss
  apart : Apart u (u.fields c)
  copies : ∀ st ∈ ss, ∀ b ∈ st.copied, CopyOf r t (t.fields id) u b

section levels

variable {r : Registry} {t : Tree} (h : t.WellFormed) {id : NodeId} (hap : Apart t (t.fields id))
  (hseal : ∀ s ∈ started r t (t.fields id), ∀ b ∈ s.copied, b.Sealed r t (t.fields id))

omit h in
/-- The part itself is what the copies are made of. -/
theorem rebuilt_self (h : t.WellFormed) (hap : Apart t (t.fields id)) {ss : List Statement} (ho : Outlined r t (t.fields id) ss) :
    Rebuilt r t id t id ss := by
  refine ⟨h, ho, hap, fun st hst b hb => ?_⟩
  rcases ho.group hst with ⟨f, o, rfl⟩ | hgroup
  · cases hb
  · exact ⟨st, b, fun x => x, hgroup, hb, rfl, (List.map_id _).symm, renames_id_iff.mpr (.refl _ t)⟩

include h hap hseal

/-- The copy of a body that has not been changed is built as the body was. -/
theorem Rebuilt.copy {u v : Tree} {c : NodeId} {ss : List Statement} (hu : Rebuilt r t id u c ss) {st : Statement} (hst : st ∈ ss)
    {b : Block} (hb : b ∈ st.copied) (hv : v.WellFormed) (hsp : Spares (u.Under b.body) u v)
    (hbody : ∀ x ∈ b.body, x ≠ root ∧ x < v.size) :
    ∃ ss', Rebuilt r t id (Block.copyNodes v b.body).2 (Block.copyNodes v b.body).1 ss' := by
  obtain ⟨s₀, b₀, φ, hgroup, hb₀, -, hmap, hren⟩ := (hu.copies st hst b hb).source
  have hmem := Statement.mem_blocks_of_copied hb₀
  have hr := hgroup.resolves hmem
  have hs₀ := hseal s₀ (mem_started.mpr hgroup) b₀ hb₀
  obtain ⟨hfst, hfill⟩ := Block.copyNodes_spec hv (fun x hx => (hbody x hx).1) fun x hx => (hbody x hx).2
  generalize Block.copyNodes v b.body = made at hfst hfill ⊢
  obtain ⟨c', w⟩ := made
  simp only at hfst hfill ⊢
  subst hfst
  have hw := hfill.beyond.wellFormed
  -- from the part to the copy, by way of what the body has become
  have hsame : Renames t b₀.body φ v := by
    have hid : Renames u (b₀.body.map φ) (fun x => x) v := hmap ▸ renames_id_iff.mpr hsp
    exact hren.trans h hu.wellFormed hid
  obtain ⟨s, rest, hrow⟩ := Block.row_of_resolve? h hr hs₀.kind
  have hpair := hsame.pairwise h hv (pairwise_row h hrow)
  obtain ⟨χ, hχ, hchildren⟩ := exists_renames hv hw hpair (pairwise_children hw v.size) (by rw [hfill.twigs, hmap])
  have hhouse : Rehoused t b₀.body (χ ∘ φ) w v.size :=
    ⟨hsame.trans h hv hχ, by rw [← hchildren, List.map_map], hfill.parent, hfill.kind, s, rest, hrow⟩
  obtain ⟨ss', hout, hcopied⟩ := exists_outlined_copy h hw hgroup hmem hhouse hs₀ hap fun s hs b' hb' =>
    (hseal s (mem_started.mpr hs) b' hb').kind
  exact ⟨ss', hw, hout, apart_copy h hw hgroup hmem hhouse hs₀ hap, hcopied⟩

/-- Merging what is built again blames no template, on any number of levels. -/
theorem not_blamesTemplate_of_below (n : Nat) {c : NodeId} {ss : List Statement} {s s' : Session} (hre : Rebuilt r t id s.tree c ss)
    {e : Failure} (hrun : below r n c s = (.error e, s')) : ¬ e.BlamesTemplate := by
  induction n generalizing c ss s s' with
  | zero =>
    cases hrun
    exact nofun
  | succ n ih =>
    have hexp := expands_below r n
    have hu := hre.wellFormed
    obtain ⟨l, hbuild⟩ := ofFields_iff.mpr hre.outlined
    rw [run_below_succ, hbuild] at hrun
    simp only [run_underLedger] at hrun
    have hall : Statement.evaluateAll (below r n) ss { s with ledger := l } =
        (.error e, (Statement.evaluateAll (below r n) ss { s with ledger := l }).2) := Prod.ext (Prod.ext_iff.mp hrun).1 rfl
    obtain ⟨done, st, rest, s₁, hsplit, hdone, hfail⟩ := Statement.evaluateAll_eq_error hall
    rcases Statement.evaluate_eq_error hfail with hno | ⟨b, s₂, s₃, hcopies, hmerge⟩
    · exact hno
    have hst : st ∈ ss := by rw [hsplit]; simp
    have hb := hcopies.mem_copied
    have hblock : b ∈ ss.flatMap Statement.blocks := List.mem_flatMap.mpr ⟨st, hst, Statement.mem_blocks_of_copied hb⟩
    have hkind : b.kind ≠ .image := by
      obtain ⟨s₀, b₀, φ, hgroup, hb₀, hk, -⟩ := (hre.copies st hst b hb).source
      rw [hk]
      exact (hseal s₀ (mem_started.mpr hgroup) b₀ hb₀).kind
    -- what was carried out before has not changed the body
    have htop : Apart s.tree (ss.flatMap topFields) := fun f hf g hg =>
      hre.apart f (hre.outlined.topFields_sublist.subset hf) g (hre.outlined.topFields_sublist.subset hg)
    have hstart : InScan (fun w => ∃ st ∈ ss, st.Unwraps w) s.tree ss s.env { s with ledger := l } :=
      ⟨hu, .refl _ _, Tree.Zone.owned_statements (fenced_zero hu) (fun _ hx => hx) (Nat.zero_le _) hre.outlined, .refl _⟩
    obtain ⟨hscan, hsp⟩ := spares_evaluateAll hu hre.outlined htop hblock hkind hexp (fun st hst w hw => ⟨st, hst, hw⟩)
      (fun st' hst' => by rw [hsplit]; exact List.mem_append_left _ hst') hstart (.refl _ _) hdone
    have hown := hscan.owned st hst
    obtain ⟨hv, hbody⟩ := hcopies.inStore hexp hscan.wellFormed hown
    have hsp₂ : Spares (s.tree.Under b.body) s₁.tree s₂.tree := (hcopies.beyond hexp hscan.wellFormed hown).spares fun x hx =>
      Nat.lt_of_lt_of_le (hre.outlined.lt_size_of_under hu hblock hx) hscan.lifted.grows
    obtain ⟨ss', hre'⟩ := hre.copy h hap hseal hst hb hv (hsp.trans hsp₂) hbody
    exact ih (s := b.copied s₂) hre' hmerge

end levels

/-! ## Parts -/

/-- A part that was checked is merged without blaming the template, in every environment: no field
    stands in another one, and the bodies of the blocks are closed in themselves. -/
theorem checked_never_blamed {r : Registry} {t : Tree} (h : t.WellFormed) {ss : List Statement} {l : Ledger}
    (hcheck : ofFields r t (t.fields root) = .ok (ss, l)) (hap : Apart t (t.fields root))
    (hseal : ∀ s ∈ started r t (t.fields root), ∀ b ∈ s.copied, b.Sealed r t (t.fields root)) (env : Environment) {e : Failure}
    (hfail : (t.merge r env).outcome = .error e) : ¬ e.BlamesTemplate := by
  cases hrun : below r (levelBound (t.markers root)) root ⟨t, env, Ledger.empty⟩ with
  | mk result s =>
    have hpart := run_part r ⟨t, env, Ledger.empty⟩
    cases result with
    | error e' =>
      rw [run_bind_error hrun] at hpart
      rw [Tree.merge, hpart] at hfail
      cases hfail
      exact not_blamesTemplate_of_below h hap hseal _ (s := ⟨t, env, Ledger.empty⟩) (rebuilt_self h hap (ofFields_iff.mp ⟨l, hcheck⟩)) hrun
    | ok _ =>
      rw [run_bind_ok hrun] at hpart
      rw [Tree.merge, hpart] at hfail
      cases hfail

/-! ## A conditional in a loop -/

/-- Three paragraphs: a loop starts in the first and ends in the last. In the second a
    conditional shows a member of the item. -/
def looped : Tree :=
  ⟨#[⟨.container, none, [1], .none⟩, element 0 "w:body" [2, 4, 8], element 1 Word.paragraph [3], field 2 "l:each(i)",
    element 1 Word.paragraph [5, 6, 7], field 4 "a:if", field 4 "=i.x", field 4 "a:endIf", element 1 Word.paragraph [9],
    field 8 "l:endEach"]⟩
where
  element (parent : NodeId) (name : String) (children : List NodeId) : Node := ⟨.element name [], some parent, children, .none⟩
  field (parent : NodeId) (directive : String) : Node :=
    ⟨.element Word.simpleField [(Word.fieldInstruction, "MERGEFIELD " ++ directive)], some parent, [], .none⟩

namespace Looped

/-- A list of a text, which has no members, and a name for a guard that holds. -/
def env : Environment := ⟨[("l", .list [.content (.text "A")]), ("a", .boolean true)], [], .lenient, .empty⟩

def fieldAt (marker : NodeId) (directive : String) : Field := ⟨marker, directive, marker, [], .simple, true, .none⟩

/-- The block of the loop, and that of the conditional. -/
def outer : Block := ⟨.paragraph, fieldAt 3 "l:each(i)", fieldAt 9 "l:endEach", 2, 8, [4]⟩

def inner : Block := ⟨.inline, fieldAt 5 "a:if", fieldAt 7 "a:endIf", 5, 7, [6]⟩

theorem wellFormed : looped.WellFormed := wellFormed_of_earlier (by decide) (by decide) (by decide)

theorem fields_eq : looped.fields root =
    [fieldAt 3 "l:each(i)", fieldAt 5 "a:if", fieldAt 6 "=i.x", fieldAt 7 "a:endIf", fieldAt 9 "l:endEach"] := by cbv

theorem started_eq : started Registry.stock looped (looped.fields root) =
    [.loop ⟨"l", []⟩ "i" outer, .condition ⟨⟨"a", []⟩, none, inner⟩] := by cbv

theorem built : ofFields Registry.stock looped (looped.fields root) =
    .ok ([.loop ⟨"l", []⟩ "i" outer], ⟨[9, 3, 7, 5], [8, 2], []⟩) := by cbv

theorem sealed_outer : outer.Sealed Registry.stock looped (looped.fields root) := by
  refine ⟨by decide, by decide, ?_, ?_, ?_⟩
  · rw [started_eq]; decide
  · rw [started_eq]; decide
  · rw [fields_eq]; decide

theorem sealed_inner : inner.Sealed Registry.stock looped (looped.fields root) := by
  refine ⟨by decide, by decide, ?_, ?_, ?_⟩
  · rw [started_eq]; decide
  · rw [started_eq]; decide
  · rw [fields_eq]; decide

theorem sealed_started : ∀ s ∈ started Registry.stock looped (looped.fields root), ∀ b ∈ s.copied,
    b.Sealed Registry.stock looped (looped.fields root) := by
  have hcopied : (started Registry.stock looped (looped.fields root)).flatMap Statement.copied = [outer, inner] := by
    rw [started_eq]; rfl
  intro s hs b hb
  have hmem : b ∈ [outer, inner] := hcopied ▸ List.mem_flatMap.mpr ⟨s, hs, hb⟩
  rcases List.mem_pair.mp hmem with rfl | rfl
  · exact sealed_outer
  · exact sealed_inner

end Looped

open Looped in
/-- The merge fails in the copy of a copy, as the text has no such member. The template is not
    to blame. -/
theorem looped_never_blamed : looped.WellFormed ∧ Apart looped (looped.fields root) ∧
    ∃ e, (looped.merge Registry.stock env).outcome = .error e ∧ ¬ e.BlamesTemplate := by
  have hap : Apart looped (looped.fields root) := (apart_iff wellFormed).mpr (by decide)
  have hfail : (looped.merge Registry.stock env).outcome.isOk = false := by cbv
  cases hout : (looped.merge Registry.stock env).outcome with
  | ok _ => rw [hout] at hfail; cases hfail
  | error e => exact ⟨wellFormed, hap, e, rfl, checked_never_blamed wellFormed built hap sealed_started env hout⟩

/-! ## An insertion that nobody has read -/

namespace FieldsInParagraph

/-- An insertion in a conditional, whose operand has an empty segment. -/
def unread : Tree := fieldsInParagraph ["a:if", "=f..g", "a:endIf"]

def guardUnread : Condition := ⟨⟨"a", []⟩, none, ⟨.inline, fieldAt 2 "a:if", fieldAt 4 "a:endIf", 2, 4, [3]⟩⟩

theorem built_unread :
    ofFields Registry.stock unread (unread.fields root) = .ok ([.condition guardUnread], ⟨[4, 2], [], [1, 1]⟩) := by cbv

theorem merge_unread : (unread.merge Registry.stock env).outcome =
    .error (.ofCause (.template (.invalidOperand ⟨"f..g", .emptySegment⟩))) := by cbv

end FieldsInParagraph

open FieldsInParagraph in
/-- The conditional is built without reading the insertion in it. Its operand is found to be none
    when the body is copied. -/
theorem checked_but_blamed : ∃ (t : Tree) (env : Environment), t.WellFormed ∧
    (∃ ss l, ofFields Registry.stock t (t.fields root) = .ok (ss, l)) ∧
    ∃ e, (t.merge Registry.stock env).outcome = .error e ∧ e.BlamesTemplate :=
  ⟨unread, env, wellFormed_of_earlier (by decide) (by decide) (by decide), ⟨_, _, built_unread⟩, _, merge_unread, _, rfl⟩

end MailMerge
