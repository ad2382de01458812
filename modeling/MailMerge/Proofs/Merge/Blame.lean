/-
  MailMerge.Proofs.Merge.Blame — what statements fail for.

  What can be wrong with a template is found when an outline is built, not when statements are
  carried out. Carrying one out asks for values, and reads markup; and it merges the copy of a
  body, for which an outline is built in turn.

  Proved: if the failure of a statement blames the template, it is the failure of merging the
  copy of a body (`evaluate_eq_error`).
-/

import MailMerge.Proofs.Merge.Failing
import MailMerge.Proofs.Outline.Faults

namespace MailMerge

open MailMerge.Tree Merge Outline

/-! ## Failures -/

namespace Failure

/-- The template has to be mended. -/
def BlamesTemplate (e : Failure) : Prop := ∃ fault, e.cause = .template fault

theorem not_blamesTemplate_context (fault : ContextFault) (span : Span) : ¬ (context fault span).BlamesTemplate := by
  rintro ⟨_, he⟩
  rw [context, cause_locatedAt] at he
  cases he

theorem not_blamesTemplate_markup (fault : Markup.MarkupError) (span : Span) :
    ¬ ((ofCause (.markup fault)).locatedAt span).BlamesTemplate := by
  rintro ⟨_, he⟩
  rw [cause_locatedAt] at he
  cases he

end Failure

namespace Statement

/-- A loop fails at one of its items, when those before have been expanded. -/
theorem iterate_eq_error {expand : NodeId → Merge Unit} {iterator : String} {b : Block} {items : List Value} {s s' : Session}
    {e : Failure} (h : iterate expand iterator b items s = (.error e, s')) : ∃ before item after content s₁ s₂,
      items = before ++ item :: after ∧ iterate expand iterator b before s = (.ok content, s₁) ∧
      b.expandBody expand { s₁ with env := s₁.env.push (Scope.binding iterator item) } = (.error e, s₂) := by
  induction items generalizing s with
  | nil => cases h
  | cons item items ih =>
    rw [iterate] at h
    rcases run_bind_eq_error h with hone | ⟨content, s₁, hone, hnext⟩
    · rw [run_underScope] at hone
      exact ⟨[], item, items, [], s, (b.expandBody expand { s with env := s.env.push (Scope.binding iterator item) }).2, rfl, rfl,
        Prod.ext (Prod.ext_iff.mp hone).1 rfl⟩
    · rcases run_bind_eq_error hnext with hrest | ⟨more, _, -, hput⟩
      · obtain ⟨before, item', after, content', s₂, s₃, rfl, hbefore, hfail⟩ := ih hrest
        refine ⟨item :: before, item', after, content ++ content', s₂, s₃, rfl, ?_, hfail⟩
        rw [iterate, run_bind_ok hone, run_bind_ok hbefore]
        rfl
      · cases hput

/-- A failing statement has asked in vain, or it fails at markup, or the failure comes from the
    copy of a body. -/
theorem evaluate_failure {expand : NodeId → Merge Unit} {st : Statement} {s s' : Session} {e : Failure}
    (h : st.evaluate expand s = (.error e, s')) : st.Asked e ∨
      (∃ f o source fault, st = .insertion f o ∧ o.evaluate s.env = .ok (.content (.markup source)) ∧
        e = (Failure.ofCause (.markup fault)).locatedAt f.span) ∨
      ∃ b s₁ s₂, st.Copies expand s b s₁ ∧ expand (Block.copyNodes s₁.tree b.body).1 (b.copied s₁) = (.error e, s₂) := by
  rcases evaluate_error_cases h with ⟨-, hasked⟩ | ⟨f, o, v, rfl, hv, hins⟩ | ⟨list, iterator, b, items, rfl, hitems, hmade⟩ |
    ⟨b, hcopies, hmade⟩
  · exact Or.inl hasked
  · obtain ⟨source, fault, u, rfl, -, -, rfl⟩ := insert_eq_error hins
    exact Or.inr (Or.inl ⟨f, o, source, fault, rfl, hv, rfl⟩)
  · obtain ⟨before, item, after, content, s₁, s₂, rfl, hbefore, hfail⟩ := iterate_eq_error hmade
    exact Or.inr (Or.inr ⟨b, _, s₂, .loop hitems hbefore, Block.expandBody_eq_error hfail⟩)
  · exact Or.inr (Or.inr ⟨b, s, s', hcopies, Block.expandBody_eq_error hmade⟩)

/-- If a failing statement blames the template, the failure comes from the copy of a body. -/
theorem evaluate_eq_error {expand : NodeId → Merge Unit} {st : Statement} {s s' : Session} {e : Failure}
    (h : st.evaluate expand s = (.error e, s')) : ¬ e.BlamesTemplate ∨
      ∃ b s₁ s₂, st.Copies expand s b s₁ ∧ expand (Block.copyNodes s₁.tree b.body).1 (b.copied s₁) = (.error e, s₂) := by
  rcases evaluate_failure h with ⟨q, -, fault, -, rfl⟩ | ⟨f, o, source, fault, -, -, rfl⟩ | hnested
  · exact Or.inl (Failure.not_blamesTemplate_context fault q.1.span)
  · exact Or.inl (Failure.not_blamesTemplate_markup fault f.span)
  · exact Or.inr hnested

/-- A run fails at one of its statements, when those before have gone through. -/
theorem evaluateAll_eq_error {expand : NodeId → Merge Unit} {ss : List Statement} {s s' : Session} {e : Failure}
    (h : evaluateAll expand ss s = (.error e, s')) : ∃ done st rest s₁, ss = done ++ st :: rest ∧
      evaluateAll expand done s = (.ok (), s₁) ∧ st.evaluate expand s₁ = (.error e, s') := by
  induction ss generalizing s with
  | nil => cases h
  | cons st ss ih =>
    rw [evaluateAll] at h
    rcases run_bind_eq_error h with hone | ⟨_, s₁, hone, hrest⟩
    · exact ⟨[], st, ss, s, rfl, rfl, hone⟩
    · obtain ⟨done, st', rest, s₂, rfl, hdone, hfail⟩ := ih hrest
      refine ⟨st :: done, st', rest, s₂, rfl, ?_, hfail⟩
      rw [evaluateAll, run_bind_ok hone]
      exact hdone

end Statement

end MailMerge
