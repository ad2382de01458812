/-
  MailMerge.Main — the program.

  The host is the file system; a file that cannot be read or written counts as missing.
  All else is `Command.runLine`.
-/

import MailMerge.Command.Run

namespace MailMerge.FileSystem

/-- The result of an action, if it succeeds. -/
def attempt {α : Type} (action : IO α) : IO (Option α) := do
  try
    let a ← action
    pure (some a)
  catch _ => pure none

/-- The files below a folder; `way` leads to it from where the walk began. -/
partial def walk (folder : String) (way : List String) : IO (List (List String)) := do
  match ← attempt (System.mkFilePath [folder]).readDir with
  | none => pure []
  | some found =>
    let found := found.toList
    let each ← found.mapM fun entry => do
      let path := System.mkFilePath [folder, entry.fileName]
      if ← path.isDir then walk path.toString (way ++ [entry.fileName])
      else pure [way ++ [entry.fileName]]
    pure each.flatten

/-- The host whose files are those of the system. -/
def host : Host IO where
  read path := attempt (IO.FS.readFile (System.mkFilePath [path]))
  write path text := do
    let written ← attempt (IO.FS.writeFile (System.mkFilePath [path]) text)
    pure written.isSome
  below path := walk path []

end MailMerge.FileSystem

def main (arguments : List String) : IO UInt32 := do
  let outcome ← MailMerge.Command.runLine MailMerge.FileSystem.host arguments
  (← IO.getStdout).putStr outcome.output
  (← IO.getStderr).putStr outcome.errors
  pure outcome.code.toUInt32
