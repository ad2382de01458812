/-
  MailMerge.Command.Run — carrying out commands.

  Only rendering writes a file, and only when everything before it succeeded. Files are
  read in a fixed order: the part first, then the context.
-/

import MailMerge.Command.Arguments
import MailMerge.Command.Fixtures
import MailMerge.Command.Parts
import MailMerge.ContextFile

namespace MailMerge.Command

variable {m : Type → Type} [Monad m]

/-- Answers about the text of a file, which may be missing. -/
def withFile (host : Host m) (file : String) (answer : String → Outcome) : m Outcome := do
  match ← host.read file with
  | none => pure (.unreadable file)
  | some text => pure (answer text)

/-- The context in a file, if one is named. -/
def loadContext (host : Host m) : Option String → m (Except Outcome Entries)
  | none => pure (.ok [])
  | some path => do
    match ← ContextFile.load host path with
    | .ok entries => pure (.ok entries)
    | .error fault => pure (.error (.failed (Outcome.lines ["error: " ++ fault.message path])))

/-- Delivers a merged part. -/
def deliver (host : Host m) (merged : String) : Option String → m Outcome
  | none => pure (.done [merged])
  | some path => do
    if ← host.write path merged then pure (.done []) else pure (.unwritable path)

/-- Merges the part in a file and delivers it. -/
def renderFile (host : Host m) (file : String) (context output : Option String) (strict : Bool) :
    m Outcome := do
  match ← host.read file with
  | none => pure (.unreadable file)
  | some text =>
    match ← loadContext host context with
    | .error outcome => pure outcome
    | .ok entries =>
      match mergeText file text entries strict with
      | .error outcome => pure outcome
      | .ok merged => deliver host merged output

/-- Carries out a command. -/
def run (host : Host m) (colored : Bool) : Command → m Outcome
  | .render file context output strict => renderFile host file context output strict
  | .check file => withFile host file (checkText file)
  | .fields file => withFile host file (listFields file)
  | .test path categories listOnly => runFixtures host colored path categories listOnly

/-- Reads a command line and does what it asks for. -/
def runLine (host : Host m) (arguments : List String) : m Outcome :=
  match Request.ofArguments arguments with
  | .error fault => pure ⟨2, "", Outcome.lines ["error: " ++ fault.message]⟩
  | .ok request => request.command.run host request.colored

end MailMerge.Command
