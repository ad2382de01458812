/-
  MailMerge.Proofs.Outline.Renumbered — the statements of a tree in the store of another.

  The fields of a scan are taken by their expressions, which do not depend on how nodes are
  numbered, and blocks are made as in the tree. So the statements are the same, and so is what is
  told of fields that make up no statements.

  Proved: that (`ofFields_renumber`), by induction on the fields that are left to take.
-/

import MailMerge.Outline
import MailMerge.Proofs.Block.Renumbered

namespace MailMerge

open MailMerge.Tree

variable {ρ : NodeId → NodeId} {t u : Tree}

/-- The branch where its nodes have other numbers. -/
def Condition.renumber (ρ : NodeId → NodeId) (c : Condition) : Condition := ⟨c.operand, c.predicate, c.block.renumber ρ⟩

/-- The statement where its nodes have other numbers. -/
def Statement.renumber (ρ : NodeId → NodeId) : Statement → Statement
  | insertion f o => .insertion (f.renumber ρ) o
  | loop list iterator b => .loop list iterator (b.renumber ρ)
  | condition c => .condition (c.renumber ρ)
  | choice branches otherwise => .choice (branches.map (Condition.renumber ρ)) (otherwise.map (Block.renumber ρ))
  | picture o b => .picture o (b.renumber ρ)
  | comment b => .comment (b.renumber ρ)

namespace Outline

/-- The fields that are left where nodes have other numbers. -/
def Rest.renumber (ρ : NodeId → NodeId) {fields : List Field} (rest : Rest fields) : Rest (fields.map (Field.renumber ρ)) :=
  ⟨rest.1.map (Field.renumber ρ), by rw [List.length_map, List.length_map]; exact rest.2⟩

/-- What is taken with a field where nodes have other numbers. -/
def renumberTaken (ρ : NodeId → NodeId) {fields : List Field} (taken : Option Statement × Ledger × Rest fields) :
    Option Statement × Ledger × Rest (fields.map (Field.renumber ρ)) :=
  (taken.1.map (Statement.renumber ρ), taken.2.1.renumber ρ, Rest.renumber ρ taken.2.2)

/-- What is taken up to an end where nodes have other numbers. -/
def renumberUntil (ρ : NodeId → NodeId) {fields : List Field} (taken : List Field × Field × Ledger × Rest fields) :
    List Field × Field × Ledger × Rest (fields.map (Field.renumber ρ)) :=
  (taken.1.map (Field.renumber ρ), taken.2.1.renumber ρ, taken.2.2.1.renumber ρ, Rest.renumber ρ taken.2.2.2)

/-- The branches behind the first one where nodes have other numbers. -/
def renumberBranches (ρ : NodeId → NodeId) (made : List Condition × Option Block × Ledger) : List Condition × Option Block × Ledger :=
  (made.1.map (Condition.renumber ρ), made.2.1.map (Block.renumber ρ), made.2.2.renumber ρ)

variable (h : Renumbered ρ t u) (ht : t.WellFormed)

include h ht

theorem enclose_renumber (nested : Bool) (l : Ledger) (start stop : Field) :
    enclose u nested (l.renumber ρ) (start.renumber ρ) (stop.renumber ρ) =
      (enclose t nested l start stop).map (Prod.map (Block.renumber ρ) (Ledger.renumber ρ)) := by
  unfold enclose
  rw [Block.enclose_renumber h ht]
  cases Block.enclose t nested l start stop <;> rfl

theorem branch_renumber (nested : Bool) (l : Ledger) (guard : Guard) (start stop : Field) :
    branch u nested (l.renumber ρ) guard (start.renumber ρ) (stop.renumber ρ) =
      (branch t nested l guard start stop).map (Prod.map (Condition.renumber ρ) (Ledger.renumber ρ)) := by
  have hoperand : operand (start.renumber ρ) guard.name = operand start guard.name := rfl
  unfold branch
  rw [hoperand, enclose_renumber h ht]
  cases operand start guard.name with
  | error e => rfl
  | ok o => cases enclose t nested l start stop <;> rfl

theorem branches_renumber (nested : Bool) (opening : Field) (name : String) (l : Ledger) (otherwise : Option Block) (start : Field)
    (marks : List Field) :
    branches u nested (opening.renumber ρ) name (l.renumber ρ) (otherwise.map (Block.renumber ρ)) (start.renumber ρ)
        (marks.map (Field.renumber ρ)) =
      (branches t nested opening name l otherwise start marks).map (renumberBranches ρ) := by
  induction marks generalizing l otherwise start with
  | nil => rfl
  | cons stop marks ih =>
    have hexpression : (start.renumber ρ).expression = start.expression := rfl
    rw [List.map_cons, branches, branches, Option.isSome_map, hexpression]
    by_cases hdone : otherwise.isSome = true
    · rw [if_pos hdone, if_pos hdone]
      rfl
    · rw [if_neg hdone, if_neg hdone]
      by_cases helse : start.expression = Directive.elseMarker name
      · rw [if_pos helse, if_pos helse, enclose_renumber h ht]
        cases enclose t nested l start stop with
        | error e => rfl
        | ok made => exact ih made.2 (some made.1) stop
      · rw [if_neg helse, if_neg helse]
        simp only [branch_renumber h ht]
        cases branch t nested l ((Directive.elsif? start.expression).getD ⟨start.expression, none⟩) start stop with
        | error e => rfl
        | ok made =>
          have hrest := ih made.2 otherwise stop
          simp only [Except.map, Prod.map, bind, Except.bind, hrest]
          cases branches t nested opening name made.2 otherwise stop marks <;> rfl

theorem conditional_renumber (nested : Bool) (l : Ledger) (f : Field) (guard : Guard) (markers : List Field) (stop : Field) :
    conditional u nested (l.renumber ρ) (f.renumber ρ) guard (markers.map (Field.renumber ρ)) (stop.renumber ρ) =
      (conditional t nested l f guard markers stop).map (Prod.map (Statement.renumber ρ) (Ledger.renumber ρ)) := by
  have hfirst : (markers.map (Field.renumber ρ)).headD (stop.renumber ρ) = (markers.headD stop).renumber ρ := by
    cases markers <;> rfl
  unfold conditional
  rw [hfirst, branch_renumber h ht]
  cases branch t nested l guard f (markers.headD stop) with
  | error e => rfl
  | ok made =>
    cases markers with
    | nil => rfl
    | cons marker markers =>
      have hrest : branches u nested (f.renumber ρ) guard.name (made.2.renumber ρ) none (marker.renumber ρ)
          (markers.map (Field.renumber ρ) ++ [stop.renumber ρ]) =
          (branches t nested f guard.name made.2 none marker (markers ++ [stop])).map (renumberBranches ρ) := by
        have hrest := branches_renumber h ht nested f guard.name made.2 none marker (markers ++ [stop])
        rwa [List.map_append] at hrest
      simp only [Except.map, Prod.map, bind, Except.bind, List.map_cons, hrest]
      cases branches t nested f guard.name made.2 none marker (markers ++ [stop]) <;> rfl

/-- A field takes the same with it, if the search for its end does. -/
theorem takeField_renumber (r : Registry) (nested insertions : Bool) (l : Ledger) (f : Field) (fields : List Field)
    (huntil : ∀ stop isMarker, takeUntil r u (f.renumber ρ) stop isMarker (l.renumber ρ) (fields.map (Field.renumber ρ)) =
      (takeUntil r t f stop isMarker l fields).map (renumberUntil ρ)) :
    takeField r u nested insertions (l.renumber ρ) (f.renumber ρ) (fields.map (Field.renumber ρ)) =
      (takeField r t nested insertions l f fields).map (renumberTaken ρ) := by
  have hexpression : (f.renumber ρ).expression = f.expression := rfl
  have hoperand : ∀ text, operand (f.renumber ρ) text = operand f text := fun _ => rfl
  rw [takeField, takeField, hexpression]
  cases r.directive f.expression with
  | nothing => rfl
  | insertion text =>
    simp only [hoperand]
    cases insertions with
    | true => cases operand f text <;> rfl
    | false => rfl
  | value o => cases insertions <;> rfl
  | loop list iterator stop =>
    simp only [huntil, hoperand]
    cases takeUntil r t f stop (fun _ => false) l fields with
    | error e => rfl
    | ok taken =>
      cases ho : operand f list with
      | error e => simp only [Except.map, bind, Except.bind]
      | ok o =>
        simp only [Except.map, bind, Except.bind, renumberUntil, enclose_renumber h ht]
        cases enclose t nested taken.2.2.1 f taken.2.1 <;> rfl
  | conditional guard =>
    simp only [huntil]
    cases takeUntil r t f (Directive.conditionalEnd guard.name) (Directive.isBranchMarker guard.name) l fields with
    | error e => rfl
    | ok taken =>
      simp only [Except.map, bind, Except.bind, renumberUntil, conditional_renumber h ht]
      cases conditional t nested taken.2.2.1 f guard taken.1 taken.2.1 <;> rfl
  | picture name =>
    simp only [huntil, hoperand]
    cases takeUntil r t f (Directive.pictureEnd name) (fun _ => false) l fields with
    | error e => rfl
    | ok taken =>
      cases ho : operand f name with
      | error e => simp only [Except.map, bind, Except.bind]
      | ok o =>
        simp only [Except.map, bind, Except.bind, renumberUntil, enclose_renumber h ht]
        cases enclose t nested taken.2.2.1 f taken.2.1 <;> rfl
  | comment =>
    simp only [huntil]
    cases takeUntil r t f Directive.commentEnd (fun _ => false) l fields with
    | error e => rfl
    | ok taken =>
      simp only [Except.map, bind, Except.bind, renumberUntil, enclose_renumber h ht]
      cases enclose t nested taken.2.2.1 f taken.2.1 <;> rfl

/-- The same end is found. -/
theorem takeUntil_renumber (r : Registry) (start : Field) (stop : String) (isMarker : String → Bool) (l : Ledger) (fields : List Field) :
    takeUntil r u (start.renumber ρ) stop isMarker (l.renumber ρ) (fields.map (Field.renumber ρ)) =
      (takeUntil r t start stop isMarker l fields).map (renumberUntil ρ) := by
  obtain ⟨n, hn⟩ : ∃ n, fields.length = n := ⟨_, rfl⟩
  induction n using Nat.strongRecOn generalizing start stop isMarker l fields with
  | ind n ih =>
    cases fields with
    | nil =>
      show takeUntil r u (start.renumber ρ) stop isMarker (l.renumber ρ) [] = _
      rw [takeUntil, takeUntil]
      rfl
    | cons f fields =>
      have hexpression : (f.renumber ρ).expression = f.expression := rfl
      rw [List.length_cons] at hn
      have hfield := takeField_renumber h ht r true false l f fields
        fun stop isMarker => ih fields.length (by omega) f stop isMarker l fields rfl
      have hmark := ih fields.length (by omega) start stop isMarker l fields rfl
      show takeUntil r u (start.renumber ρ) stop isMarker (l.renumber ρ) (f.renumber ρ :: fields.map (Field.renumber ρ)) = _
      rw [takeUntil, takeUntil, hexpression, hfield, hmark]
      by_cases hstop : f.expression = stop
      · rw [if_pos hstop, if_pos hstop]
        rfl
      · rw [if_neg hstop, if_neg hstop]
        by_cases hmarker : isMarker f.expression = true
        · rw [if_pos hmarker, if_pos hmarker]
          cases takeUntil r t start stop isMarker l fields <;> rfl
        · rw [if_neg hmarker, if_neg hmarker]
          cases takeField r t true false l f fields with
          | error e => rfl
          | ok taken =>
            obtain ⟨s?, l₁, left⟩ := taken
            have hle := left.2
            have hrest := ih left.1.length (by omega) start stop isMarker l₁ left.1 rfl
            simp only [Except.map, bind, Except.bind, renumberTaken, Rest.renumber, hrest]
            cases takeUntil r t start stop isMarker l₁ left.1 <;> rfl

theorem takeAll_renumber (r : Registry) (l : Ledger) (fields : List Field) :
    takeAll r u (l.renumber ρ) (fields.map (Field.renumber ρ)) =
      (takeAll r t l fields).map (Prod.map (List.map (Statement.renumber ρ)) (Ledger.renumber ρ)) := by
  obtain ⟨n, hn⟩ : ∃ n, fields.length = n := ⟨_, rfl⟩
  induction n using Nat.strongRecOn generalizing l fields with
  | ind n ih =>
    cases fields with
    | nil =>
      rw [List.map_nil, takeAll, takeAll]
      rfl
    | cons f fields =>
      rw [List.length_cons] at hn
      have hfield := takeField_renumber h ht r false true l f fields
        fun stop isMarker => takeUntil_renumber h ht r f stop isMarker l fields
      rw [List.map_cons, takeAll, takeAll, hfield]
      cases takeField r t false true l f fields with
      | error e => rfl
      | ok taken =>
        obtain ⟨s?, l₁, left⟩ := taken
        have hle := left.2
        have hrest := ih left.1.length (by omega) l₁ left.1 rfl
        simp only [Except.map, bind, Except.bind, renumberTaken, Rest.renumber, hrest]
        cases takeAll r t l₁ left.1 with
        | error e => rfl
        | ok made => cases s? <;> rfl

/-- **The fields make up the same statements.** -/
theorem ofFields_renumber (r : Registry) (fields : List Field) :
    ofFields r u (fields.map (Field.renumber ρ)) =
      (ofFields r t fields).map (Prod.map (List.map (Statement.renumber ρ)) (Ledger.renumber ρ)) :=
  takeAll_renumber h ht r Ledger.empty fields

end Outline

end MailMerge
