/-
  MailMerge.Outline — the statements that the fields of a scan make up.

  The fields are taken from first to last. A block's start takes the fields up to its
  own end with it; in between, nested blocks take theirs, and nested insertions are left
  alone. What is nested is built only to find where it ends: it is built again, for real,
  when the copy of the block that holds it is expanded. A failure is told at the field
  that it is about.
-/

import MailMerge.Directive.Registry
import MailMerge.Statement

namespace MailMerge

namespace Outline

/-- Fields left to take, never more than there were. -/
abbrev Rest (fields : List Field) := { rest : List Field // rest.length ≤ fields.length }

/-- An operand of a field's directive. -/
def operand (f : Field) (text : String) : Except Failure Operand :=
  (Operand.parse text).mapError fun e => Failure.template (.invalidOperand e) f.span

/-- The block from one field to another. -/
def enclose (t : Tree) (nested : Bool) (l : Ledger) (start stop : Field) :
    Except Failure (Block × Ledger) :=
  (Block.enclose t nested l start stop).mapError fun fault => Failure.template fault start.span

/-- A branch that reaches from one marker to the next. -/
def branch (t : Tree) (nested : Bool) (l : Ledger) (guard : Guard) (start stop : Field) :
    Except Failure (Condition × Ledger) := do
  let operand ← operand start guard.name
  let (block, l) ← enclose t nested l start stop
  .ok (⟨operand, guard.predicate, block⟩, l)

/-- The branches of a conditional behind its first one. `start` is where the next branch
    begins, `marks` are the fields at which the branches end. Nothing can follow an else
    branch. -/
def branches (t : Tree) (nested : Bool) (opening : Field) (name : String) (l : Ledger)
    (otherwise : Option Block) (start : Field) :
    (marks : List Field) → Except Failure (List Condition × Option Block × Ledger)
  | [] => .ok ([], otherwise, l)
  | stop :: marks =>
    if otherwise.isSome then
      .error (Failure.template (.misplacedBranch opening.expression start.expression) start.span)
    else if start.expression = Directive.elseMarker name then do
      let (block, l) ← enclose t nested l start stop
      branches t nested opening name l (some block) stop marks
    else do
      let guard := (Directive.elsif? start.expression).getD ⟨start.expression, none⟩
      let (condition, l) ← branch t nested l guard start stop
      let (more, otherwise, l) ← branches t nested opening name l otherwise stop marks
      .ok (condition :: more, otherwise, l)

/-- A conditional from its first field, over its inner markers, to its end. -/
def conditional (t : Tree) (nested : Bool) (l : Ledger) (f : Field) (guard : Guard)
    (markers : List Field) (stop : Field) : Except Failure (Statement × Ledger) := do
  let (first, l) ← branch t nested l guard f (markers.headD stop)
  match markers with
  | [] => .ok (.condition first, l)
  | marker :: markers =>
    let (more, otherwise, l) ← branches t nested f guard.name l none marker (markers ++ [stop])
    .ok (.choice (first :: more) otherwise, l)

mutual

/-- Takes a field and, if it starts a block, the fields up to the block's end. -/
def takeField (r : Registry) (t : Tree) (nested insertions : Bool) (l : Ledger) (f : Field)
    (fields : List Field) : Except Failure (Option Statement × Ledger × Rest fields) :=
  match r.directive f.expression with
  | .nothing => .ok (none, l, ⟨fields, Nat.le_refl _⟩)
  | .insertion text =>
    if insertions then do
      let o ← operand f text
      .ok (some (.insertion f o), l, ⟨fields, Nat.le_refl _⟩)
    else .ok (none, l, ⟨fields, Nat.le_refl _⟩)
  | .value o =>
    .ok (if insertions then some (.insertion f o) else none, l, ⟨fields, Nat.le_refl _⟩)
  | .loop list iterator stop => do
    let (_, e, l, rest) ← takeUntil r t f stop (fun _ => false) l fields
    let o ← operand f list
    let (block, l) ← enclose t nested l f e
    .ok (some (.loop o iterator block), l, rest)
  | .conditional guard => do
    let (markers, e, l, rest) ← takeUntil r t f (Directive.conditionalEnd guard.name)
      (Directive.isBranchMarker guard.name) l fields
    let (statement, l) ← conditional t nested l f guard markers e
    .ok (some statement, l, rest)
  | .picture name => do
    let (_, e, l, rest) ← takeUntil r t f (Directive.pictureEnd name) (fun _ => false) l fields
    let o ← operand f name
    let (block, l) ← enclose t nested l f e
    .ok (some (.picture o block), l, rest)
  | .comment => do
    let (_, e, l, rest) ← takeUntil r t f Directive.commentEnd (fun _ => false) l fields
    let (block, l) ← enclose t nested l f e
    .ok (some (.comment block), l, rest)
termination_by (fields.length, 1)

/-- Takes fields up to the one whose expression is `stop`. Answers the markers met on the
    way and that last field. -/
def takeUntil (r : Registry) (t : Tree) (start : Field) (stop : String) (isMarker : String → Bool)
    (l : Ledger) (fields : List Field) :
    Except Failure (List Field × Field × Ledger × Rest fields) :=
  match fields with
  | [] => .error (Failure.template (.missingEnd start.expression stop) start.span)
  | f :: fields =>
    if f.expression = stop then .ok ([], f, l, ⟨fields, Nat.le_succ _⟩)
    else if isMarker f.expression then do
      let (markers, e, l, rest) ← takeUntil r t start stop isMarker l fields
      .ok (f :: markers, e, l, ⟨rest.1, Nat.le_succ_of_le rest.2⟩)
    else do
      let (_, l, rest) ← takeField r t true false l f fields
      let (markers, e, l, more) ← takeUntil r t start stop isMarker l rest.1
      .ok (markers, e, l, ⟨more.1, Nat.le_succ_of_le (Nat.le_trans more.2 rest.2)⟩)
termination_by (fields.length, 0)
decreasing_by
  all_goals simp_wf
  all_goals (apply Prod.Lex.left; omega)

end

/-- Takes all fields, and answers the statements at the top level. -/
def takeAll (r : Registry) (t : Tree) (l : Ledger) (fields : List Field) :
    Except Failure (List Statement × Ledger) :=
  match fields with
  | [] => .ok ([], l)
  | f :: fields => do
    let (statement, l, rest) ← takeField r t false true l f fields
    let (statements, l) ← takeAll r t l rest.1
    .ok (statement.toList ++ statements, l)
termination_by fields.length
decreasing_by have := rest.2; simp; omega

/-- The statements of a scan's fields, and who refers to their boundaries. -/
def ofFields (r : Registry) (t : Tree) (fields : List Field) :
    Except Failure (List Statement × Ledger) :=
  takeAll r t Ledger.empty fields

end Outline

end MailMerge
