/-
  MailMerge.Merge.Run — merging a part.

  The fields below a node are scanned, grouped into statements and carried out in order;
  the copy of a block's body is merged in the same way, one level deeper. Each level
  leaves the marker of its block behind, so n markers need at most n + 1 levels unless an
  insertion brings markup with markers of its own. Such markup may bring itself again
  without end: a number of levels is left to it, and a merge that uses them up fails.
  Afterwards every table cell has a paragraph again.
-/

import MailMerge.Field.Scan
import MailMerge.Markup.Writer
import MailMerge.Merge.Evaluate
import MailMerge.Outline

namespace MailMerge

namespace Merge

/-- Merges everything below a node, in at most `levels` levels of blocks. -/
def below (r : Registry) : (levels : Nat) → NodeId → Merge Unit
  | 0, _ => throw (Failure.ofCause .tooDeep)
  | n + 1, id => do
    let (statements, ledger) ← ask fun s => Outline.ofFields r s.tree (s.tree.fields id)
    underLedger ledger (Statement.evaluateAll (below r n) statements)

/-- How many levels of blocks are left to the markers that insertions bring. -/
def levelsForMarkup : Nat := 100000

/-- How many levels of blocks there can be over so many markers. -/
def levelBound (markers : List NodeId) : Nat := markers.length + 1 + levelsForMarkup

/-- The expanded copies of a block's body, however deep the blocks in it are nested. -/
def block (r : Registry) (b : Block) : Merge (List NodeId) := do
  let t := (← get).tree
  b.expandBody (below r (levelBound ((b.body.flatMap t.subtree).filter t.opensField)))

/-- Merges a whole part and repairs its table cells. -/
def part (r : Registry) : Merge Unit := do
  let t := (← get).tree
  below r (levelBound (t.markers Tree.root)) Tree.root
  editTree (·.fillEmptyCells Tree.root)

end Merge

/-- What is left of a merge: its outcome, the tree and the environment. -/
structure Merged where
  outcome : Except Failure Unit
  tree : Tree
  env : Environment

namespace Tree

/-- Merges the part that a tree holds. -/
def merge (t : Tree) (r : Registry) (env : Environment) : Merged :=
  let (outcome, s) := Merge.part r ⟨t, env, Ledger.empty⟩
  ⟨outcome, s.tree, s.env⟩

end Tree

namespace Merge

/-- Reads a part, merges it and writes it; `source` numbers its text in failures. -/
def text (r : Registry) (xml : String) (source : Nat) (env : Environment) :
    Except Failure String × Environment :=
  match Tree.ofText xml source with
  | .error e => (.error (Failure.ofMarkup e), env)
  | .ok t =>
    let merged := t.merge r env
    match merged.outcome with
    | .ok () => (.ok merged.tree.toMarkup, merged.env)
    | .error e => (.error (e.withSource source), merged.env)

/-- Merges parts one after the other in one environment; each has its place as number. -/
def texts (r : Registry) : (source : Nat) → Environment → List String →
    List (Except Failure String) × Environment
  | _, env, [] => ([], env)
  | source, env, xml :: rest =>
    let (result, env) := text r xml source env
    let (results, env) := texts r (source + 1) env rest
    (result :: results, env)

end Merge

end MailMerge
