/-
  MailMerge.Proofs.Traversal — lists that are gone through with a function that may fail.

  The segments of an operand are checked one after the other, and the items of a loop are
  expanded so. The results are those of the entries, each for itself, and the first entry that
  fails is the failure of all.
-/

import Mathlib

namespace MailMerge

variable {α β ε : Type} {f : α → Except ε β}

theorem forall₂_of_mapM_eq_ok {items : List α} {parts : List β} (h : items.mapM f = .ok parts) :
    List.Forall₂ (fun item part => f item = .ok part) items parts := by
  induction items generalizing parts with
  | nil =>
    cases h
    exact .nil
  | cons item items ih =>
    rw [List.mapM_cons] at h
    cases hone : f item with
    | error e => rw [hone] at h; cases h
    | ok part =>
      rw [hone] at h
      cases hrest : items.mapM f with
      | error e => simp only [hrest, bind, Except.bind, reduceCtorEq] at h
      | ok rest =>
        simp only [hrest, bind, Except.bind, pure, Except.pure, Except.ok.injEq] at h
        subst h
        exact .cons hone (ih hrest)

theorem mapM_eq_ok_of_forall₂ {items : List α} {parts : List β}
    (h : List.Forall₂ (fun item part => f item = .ok part) items parts) : items.mapM f = .ok parts := by
  induction h with
  | nil => rfl
  | cons hone _ ih =>
    rw [List.mapM_cons, hone, ih]
    rfl

/-- The first item that fails tells how all of them fail. -/
theorem mapM_eq_error {before : List α} {item : α} {e : ε} (hbefore : ∀ x ∈ before, ∃ part, f x = .ok part) (h : f item = .error e)
    (after : List α) : (before ++ item :: after).mapM f = .error e := by
  induction before with
  | nil =>
    rw [List.nil_append, List.mapM_cons, h]
    rfl
  | cons x before ih =>
    obtain ⟨part, hpart⟩ := hbefore x List.mem_cons_self
    rw [List.cons_append, List.mapM_cons, hpart, ih fun y hy => hbefore y (List.mem_cons_of_mem x hy)]
    rfl

theorem flatten_mapM_append (g : α → Except ε (List β)) (xs ys : List α) :
    ((xs ++ ys).mapM g).map List.flatten = (do
      let first ← (xs.mapM g).map List.flatten
      let more ← (ys.mapM g).map List.flatten
      pure (first ++ more)) := by
  rw [List.mapM_append]
  cases xs.mapM g with
  | error e => rfl
  | ok first =>
    cases ys.mapM g with
    | error e => rfl
    | ok more => exact congrArg Except.ok List.flatten_append

end MailMerge
