/-
  MailMerge.Merge.PartFile — merging a part from one file into another.
-/

import MailMerge.Host
import MailMerge.Merge.Run

namespace MailMerge.Merge

/-- Reads a part, merges it and writes the result. If anything fails, nothing is written. -/
def partFile {m : Type → Type} [Monad m] (host : Host m) (r : Registry) (input output : String)
    (env : Environment) : m (Except Failure Unit × Environment) := do
  match ← host.read input with
  | none => pure (.error (Failure.ofCause .missingFile), env)
  | some xml =>
    match text r xml 0 env with
    | (.error e, env) => pure (.error e, env)
    | (.ok merged, env) =>
      if ← host.write output merged then pure (.ok (), env)
      else pure (.error (Failure.ofCause .missingFile), env)

end MailMerge.Merge
