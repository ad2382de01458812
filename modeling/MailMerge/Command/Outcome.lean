/-
  MailMerge.Command.Outcome — how a command ends.

  A command answers a code, 0 for success, and what it writes to its two outputs.
  Failures go to the second output.
-/

import MailMerge.Failure

namespace MailMerge

structure Outcome where
  code : Nat
  output : String
  errors : String
  deriving DecidableEq, Repr

namespace Outcome

/-- The texts as lines. -/
def lines (texts : List String) : String := String.join (texts.map (· ++ "\n"))

def done (output : List String) : Outcome := ⟨0, lines output, ""⟩

/-- Success, of which the second output tells. -/
def told (errors : List String) : Outcome := ⟨0, "", lines errors⟩

/-- The code of a program that panics. What it says of the panic is not told here. -/
def brokenOff (output : List String) : Outcome := ⟨101, lines output, ""⟩

def failed (errors : String) : Outcome := ⟨1, "", errors⟩

def unreadable (file : String) : Outcome :=
  failed (lines ["error: cannot read '" ++ file ++ "': " ++ Cause.missingFileText])

def unwritable (file : String) : Outcome :=
  failed (lines ["error: cannot write '" ++ file ++ "': " ++ Cause.missingFileText])

end Outcome

end MailMerge
