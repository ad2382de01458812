/-
  MailMerge.Merge.Session — what a merge works on, and how its steps are put together.

  A session is the tree, the environment and the ledger of the scan being merged. A step
  may fail; the session is kept all the same, with what had been done until then.
-/

import MailMerge.Block.Replace
import MailMerge.Environment

namespace MailMerge

structure Session where
  tree : Tree
  env : Environment
  ledger : Ledger

/-- A step of a merge: its result or its failure, and the session after it. -/
abbrev Merge := ExceptT Failure (StateM Session)

namespace Merge

def editTree (f : Tree → Tree) : Merge Unit := modify fun ⟨tree, env, ledger⟩ => ⟨f tree, env, ledger⟩

/-- An edit of the tree that answers something. -/
def withTree {α : Type} (f : Tree → α × Tree) : Merge α :=
  modifyGet fun ⟨tree, env, ledger⟩ =>
    let (a, tree) := f tree
    (a, ⟨tree, env, ledger⟩)

/-- Lifts a question to the session; a failure changes nothing. -/
def ask {α : Type} (f : Session → Except Failure α) : Merge α := do
  match f (← get) with
  | .ok a => pure a
  | .error e => throw e

/-- Runs a step under a scope, which is taken off again also when the step fails. -/
def underScope {α : Type} (scope : Scope) (step : Merge α) : Merge α := fun s =>
  let (result, after) := step { s with env := s.env.push scope }
  (result, { after with env := after.env.pop })

/-- Runs a step with a ledger of its own; the ledger before it comes back. -/
def underLedger {α : Type} (ledger : Ledger) (step : Merge α) : Merge α :=
  fun ⟨tree, env, outer⟩ =>
    let (result, after) := step ⟨tree, env, ledger⟩
    (result, { after with ledger := outer })

end Merge

end MailMerge
