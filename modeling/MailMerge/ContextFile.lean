/-
  MailMerge.ContextFile — contexts kept in files.

  The extension of the file's name tells whether it is JSON or TOML. The file is read
  before its extension is looked at, so a missing file is reported as missing whatever
  it is called.
-/

import MailMerge.Failure
import MailMerge.Host
import MailMerge.Json.Reader
import MailMerge.Toml.Reader

namespace MailMerge

namespace ContextFile

/-- Why a file holds no context. -/
inductive Fault where
  | missing
  | notJson
  | notToml
  | unknownExtension
  | notATable (typeName : String)
  deriving DecidableEq, Repr

def Fault.message (path : String) : Fault → String
  | missing => "cannot read '" ++ path ++ "': " ++ Cause.missingFileText
  | notJson => "JSON parse error in '" ++ path ++ "'"
  | notToml => "TOML parse error in '" ++ path ++ "'"
  | unknownExtension => "unsupported context file '" ++ path ++ "' (expected .toml or .json)"
  | notATable typeName => "context in '" ++ path ++ "' must be a table, found " ++ typeName

/-- The value that a file's text writes. -/
def value (path text : String) : Except Fault Value :=
  match Text.Path.extension? path with
  | some "json" =>
    match Json.read? text with
    | some v => .ok v
    | none => .error .notJson
  | some "toml" =>
    match (Toml.read? text.toList).bind Toml.Item.entries? with
    | some entries => .ok (.map entries)
    | none => .error .notToml
  | _ => .error .unknownExtension

/-- The context in a file with this text, if the file is there. -/
def entries (path : String) (text : Option String) : Except Fault Entries :=
  match text with
  | none => .error .missing
  | some text =>
    match value path text with
    | .error fault => .error fault
    | .ok (.map entries) => .ok entries
    | .ok v => .error (.notATable v.typeName)

def load {m : Type → Type} [Monad m] (host : Host m) (path : String) : m (Except Fault Entries) := do
  pure (entries path (← host.read path))

end ContextFile

end MailMerge
