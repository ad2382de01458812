/-
  MailMerge.Proofs.Value.Emptiness — what tells whether a value has items.

  Whether there are items is asked in five ways: by the loop that goes over them, by a plain
  guard, by the predicates `empty?` and `any?`, and by `blank?`. An object may answer a
  predicate itself, whatever it enumerates; where it leaves the predicate to what holds of all
  values (`Leaves`), its items decide. A text has no items and yet a length, so the predicates
  go by lengths (`length?_of_enumerate?`), and only what has no length and no items is blank
  for a reason of its own.

  Proved: all the ways agree (`items_agree`), so a guard on an operand holds exactly if a
  loop over it goes round (`holds_of_items`).
-/

import Mathlib
import MailMerge.Merge.Evaluate

namespace MailMerge

namespace Value

variable {v : Value} {name : String} {items : List Value}

/-- The value is no object that answers the predicate itself. -/
def Leaves (name : String) : Value → Prop
  | object _ _ _ predicates _ => predicates.lookup name = none
  | _ => True

/-- A member of this name is not one of the value's own. -/
def Counts (name : String) : Value → Prop
  | list _ => True
  | map entries => entries.lookup name = none
  | _ => False

theorem predicate?_of_leaves (h : v.Leaves name) : v.predicate? name = v.commonPredicate? name := by
  cases v with
  | object _ _ _ predicates _ =>
    have hnone : predicates.lookup name = none := h
    rw [predicate?, hnone]
    rfl
  | _ => rfl

/-! ## What has items -/

theorem length?_of_enumerate? (h : v.enumerate? = some items) : v.length? = some items.length := by
  cases v with
  | list _ =>
    cases h
    rfl
  | map entries =>
    cases h
    rw [length?, List.length_map]
  | object _ _ own _ _ =>
    cases own with
    | none => cases h
    | some _ =>
      cases h
      rfl
  | _ => cases h

/-- What is not truthy is nil, false, or enumerates no items. -/
theorem isTruthy_eq_false_iff : v.isTruthy = false ↔ v = nil ∨ v = boolean false ∨ v.enumerate? = some [] := by
  cases v with
  | object _ _ own _ _ => cases own <;> simp [isTruthy, enumerate?]
  | _ => simp [isTruthy, enumerate?]

theorem isTruthy_of_enumerate? (h : v.enumerate? = some items) : v.isTruthy = !items.isEmpty := by
  cases items with
  | nil => exact isTruthy_eq_false_iff.mpr (.inr (.inr h))
  | cons x rest =>
    refine Bool.of_not_eq_false fun hfalse => ?_
    rcases isTruthy_eq_false_iff.mp hfalse with rfl | rfl | hnone
    · cases h
    · cases h
    · rw [h] at hnone
      cases hnone

theorem member?_of_counts (h : v.enumerate? = some items) (hv : v.Counts name) (hname : name ∈ ["size", "length", "count"]) :
    v.member? name = some (integer items.length) := by
  simp only [List.mem_cons, List.not_mem_nil, or_false] at hname
  cases v with
  | list _ =>
    cases h
    rcases hname with rfl | rfl | rfl <;> rfl
  | map entries =>
    cases h
    have hnone : entries.lookup name = none := hv
    rw [member?, hnone, List.length_map]
    rcases hname with rfl | rfl | rfl <;> rfl
  | _ => cases hv

/-! ## What is blank -/

theorem isBlank_of_length?_eq_zero (h : v.length? = some 0) : v.isBlank = true := by
  cases v with
  | string s =>
    have hs : s = "" := String.length_eq_zero_iff.mp (Option.some.inj h)
    subst hs
    rfl
  | list _ | map _ | object _ _ _ _ _ => exact beq_iff_eq.mpr h
  | _ => cases h

theorem isBlank_of_not_isTruthy (h : v.isTruthy = false) : v.isBlank = true := by
  rcases isTruthy_eq_false_iff.mp h with rfl | rfl | h
  · rfl
  · rfl
  · exact isBlank_of_length?_eq_zero (length?_of_enumerate? h)

/-! ## All ways -/

/-- All that can be asked about the items of a value tells the same. -/
structure ItemsAgree (v : Value) : Prop where
  guards : ∀ items, v.enumerate? = some items → v.isTruthy = !items.isEmpty ∧
    v.predicate? "any?" = some (!items.isEmpty) ∧ v.predicate? "empty?" = some items.isEmpty
  sizes : ∀ items, v.enumerate? = some items → ∀ name ∈ ["size", "length", "count"], v.Counts name →
    v.member? name = some (integer items.length)
  opposite : v.predicate? "empty?" = (v.predicate? "any?").map (!·)
  present : ∃ blank, v.predicate? "blank?" = some blank ∧ v.predicate? "present?" = some (!blank)
  blankIfUntrue : v.isTruthy = false → v.predicate? "blank?" = some true
  blankIfEmpty : v.predicate? "empty?" = some true → v.predicate? "blank?" = some true
  /-- The ends of a list are those of what it enumerates. -/
  ends : ∀ own, v = list own → ∃ items, v.enumerate? = some items ∧
    (items = [] → v.member? "first" = some nil ∧ v.member? "last" = some nil) ∧
    (∀ x rest, items = x :: rest → v.member? "first" = some x) ∧ ∀ front x, items = front ++ [x] → v.member? "last" = some x

theorem items_agree (h : ∀ name ∈ ["empty?", "any?", "blank?", "present?"], v.Leaves name) : ItemsAgree v := by
  have hempty : v.predicate? "empty?" = v.length?.map (· == 0) := predicate?_of_leaves (h _ (by simp))
  have hany : v.predicate? "any?" = v.length?.map (fun n => decide (n > 0)) := predicate?_of_leaves (h _ (by simp))
  have hblank : v.predicate? "blank?" = some v.isBlank := predicate?_of_leaves (h _ (by simp))
  have hpresent : v.predicate? "present?" = some (!v.isBlank) := predicate?_of_leaves (h _ (by simp))
  refine ⟨fun items hitems => ⟨isTruthy_of_enumerate? hitems, ?_, ?_⟩, fun items hitems name hname hv =>
    member?_of_counts hitems hv hname, ?_, ⟨_, hblank, hpresent⟩, fun hfalse => ?_, fun hnone => ?_, ?_⟩
  · rw [hany, length?_of_enumerate? hitems]
    cases items <;> rfl
  · rw [hempty, length?_of_enumerate? hitems]
    cases items <;> rfl
  · rw [hempty, hany, Option.map_map]
    refine congrArg (Option.map · v.length?) (funext fun n => ?_)
    cases n <;> rfl
  · rw [hblank, isBlank_of_not_isTruthy hfalse]
  · rw [hempty, Option.map_eq_some_iff] at hnone
    obtain ⟨n, hn, hzero⟩ := hnone
    obtain rfl := beq_iff_eq.mp hzero
    rw [hblank, isBlank_of_length?_eq_zero hn]
  · rintro own rfl
    refine ⟨own, rfl, ?_, ?_, ?_⟩
    · rintro rfl
      exact ⟨rfl, rfl⟩
    · rintro x rest rfl
      rfl
    · rintro front x rfl
      rw [member?, listMember?, List.getLast?_concat]
      rfl

namespace Basket

/-- An object without items that answers only what no other value is asked. -/
def basket : Value := .object "Basket" [] (some []) [("full?", true)] "a basket"

end Basket

open Basket in
theorem basket_agrees : (∀ name ∈ ["empty?", "any?", "blank?", "present?"], basket.Leaves name) ∧ ItemsAgree basket := by
  have h : ∀ name ∈ ["empty?", "any?", "blank?", "present?"], basket.Leaves name := by simp [basket, Leaves]
  exact ⟨h, items_agree h⟩

/-- An object that answers itself need not go by its items. -/
example : (object "Basket" [] (some []) [("empty?", false)] "").predicate? "empty?" = some false := rfl

end Value

/-- A plain guard on what a loop can go over holds exactly if the loop goes round. -/
theorem Condition.holds_of_items {c : Condition} {env : Environment} {items : List Value} (hplain : c.predicate = none)
    (h : c.operand.evaluateItems env = .ok items) : c.holds env = .ok (!items.isEmpty) := by
  unfold Operand.evaluateItems at h
  cases hv : c.operand.evaluate env with
  | error fault =>
    rw [hv] at h
    cases h
  | ok v =>
    cases hitems : v.enumerate? with
    | none =>
      simp only [hv, hitems, bind, Except.bind, reduceCtorEq] at h
    | some own =>
      simp only [hv, hitems, bind, Except.bind, Except.ok.injEq] at h
      subst h
      simp only [Condition.holds, hplain, hv, Except.map, Value.isTruthy_of_enumerate? hitems, Except.mapError]

end MailMerge
