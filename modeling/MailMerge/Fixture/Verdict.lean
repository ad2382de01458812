/-
  MailMerge.Fixture.Verdict — whether a template does what its fixture expects.

  A fixture that expects a failure is met by a failure whose message holds the expected
  text; any other is met by an output that holds what it wants and nothing it does not.
  The first expectation that is not met is the reason told.
-/

import MailMerge.Fixture.Basic
import MailMerge.Merge.Run

namespace MailMerge

namespace Fixture

open MailMerge.Text

/-- Why a fixture is not met. -/
inductive Miss where
  | noFile
  | noFixture (fault : Fault)
  | otherFailure (expected actual : String)
  | noFailure (expected : String)
  | failure (actual : String)
  | otherOutput (expected actual : String)
  | lacks (text output : String)
  | holds (text output : String)
  deriving DecidableEq, Repr

def Miss.reason : Miss → String
  | noFile => "cannot read file: " ++ Cause.missingFileText
  | noFixture fault => "frontmatter error: " ++ fault.message
  | otherFailure expected actual =>
    "expected error containing \"" ++ expected ++ "\", got: " ++ actual
  | noFailure expected =>
    "expected error containing \"" ++ expected ++ "\", but processing succeeded"
  | failure actual => "unexpected error: " ++ actual
  | otherOutput expected actual =>
    "output mismatch\n  expected: " ++ expected ++ "\n  actual:   " ++ actual
  | lacks text output => "output does not contain \"" ++ text ++ "\"\n  actual: " ++ output
  | holds text output =>
    "output unexpectedly contains \"" ++ text ++ "\"\n  actual: " ++ output

def isIn (text output : String) : Bool := contains text.toList output.toList

/-- What is missing from an output. -/
def Wanted.miss? (output : String) : Wanted → Option Miss
  | .exactly expected =>
    if trimmed expected = trimmed output then none
    else some (.otherOutput (trimmed expected) (trimmed output))
  | .containing texts =>
    (texts.find? (!isIn · output)).map fun text => .lacks text (trimmed output)

/-- What is wrong with an output. -/
def outputMiss? (f : Fixture) (output : String) : Option Miss :=
  (f.wanted.bind (Wanted.miss? output)) <|>
    (f.unwanted.find? (isIn · output)).map fun text => .holds text (trimmed output)

/-- The outcome of merging the template. -/
def outcome (f : Fixture) : Except Failure String :=
  (Merge.text Registry.stock f.template 0
    (Environment.new f.context (if f.strict then .strict else .lenient) Media.empty)).1

/-- The first expectation that is not met; none if all are. -/
def miss? (f : Fixture) : Option Miss :=
  match f.failure, f.outcome with
  | some expected, .error e =>
    if isIn expected e.message then none else some (.otherFailure expected e.message)
  | some expected, .ok _ => some (.noFailure expected)
  | none, .error e => some (.failure e.message)
  | none, .ok output => f.outputMiss? output

end Fixture

/-- What came of one fixture file. -/
structure Verdict where
  path : String
  description : Option String
  miss : Option Fixture.Miss

namespace Verdict

/-- Runs the fixture in a file with this text, if the file is there. -/
def ofFile (path : String) (text : Option String) : Verdict :=
  match text with
  | none => ⟨path, none, some .noFile⟩
  | some text =>
    match Fixture.ofText text with
    | .error fault => ⟨path, none, some (.noFixture fault)⟩
    | .ok f => ⟨path, f.description, f.miss?⟩

end Verdict

end MailMerge
