/-
  MailMerge.Command.Parts — what the commands on one part tell.

  Each takes the text of a file that is there. A part that cannot be read, and a failed
  merge, are reported with the line they are about.
-/

import MailMerge.Command.Outcome
import MailMerge.Merge.Run
import MailMerge.Report

namespace MailMerge.Command

open MailMerge.Text

/-- Merges the text of a part file. -/
def mergeText (file text : String) (context : Entries) (strict : Bool) : Except Outcome String :=
  let env := Environment.new context (if strict then .strict else .lenient) Media.empty
  match Tree.ofText text 0 with
  | .error e => .error (Outcome.failed (Report.ofMarkup file text e))
  | .ok t =>
    let merged := t.merge Registry.stock env
    match merged.outcome with
    | .error e => .error (Outcome.failed (Report.ofFailure file text e))
    | .ok () => .ok merged.tree.toMarkup

/-- Tells how many fields and statements a part has. -/
def checkText (file text : String) : Outcome :=
  match Tree.ofText text 0 with
  | .error e => Outcome.failed (Report.ofMarkup file text e)
  | .ok t =>
    let fields := t.fields Tree.root
    match Outline.ofFields Registry.stock t fields with
    | .error e => Outcome.failed (Report.ofFailure file text e)
    | .ok (statements, _) =>
      Outcome.told ["ok: " ++ file ++ " (" ++ toString fields.length ++ " fields, " ++
        toString statements.length ++ " top-level statements)"]

def shapeName : Shape → String
  | .simple => "Simple"
  | .complex => "Complex"

/-- A field with the number of its line, if it begins between two characters. -/
def fieldRow? (file text : String) (f : Field) : Option String :=
  (lineAt? f.span.start text.toList).map fun line =>
    file ++ ":" ++ toString line ++ "\t" ++ shapeName f.shape ++ "\t" ++ f.expression

/-- Lists each field of a part with the number of its line. The program breaks off at the
    first field that has none. -/
def listFields (file text : String) : Outcome :=
  match Tree.ofText text 0 with
  | .error e => Outcome.failed (Report.ofMarkup file text e)
  | .ok t =>
    let fields := t.fields Tree.root
    match fields.mapM (fieldRow? file text) with
    | some rows => Outcome.done rows
    | none => Outcome.brokenOff (((fields.map (fieldRow? file text)).takeWhile Option.isSome).filterMap id)

end MailMerge.Command
