/-
  MailMerge.Host — the files that a command works on.

  A command asks a host for files and folders. One host keeps a list of files in memory:
  its folders are those that some file lies in, and the working folder. A command means
  the same on every host that answers its questions in the same way.
-/

import MailMerge.Text.Path

namespace MailMerge

/-- What a command may ask for. -/
structure Host (m : Type → Type) where
  /-- The text of a file, if there is one. -/
  read : (path : String) → m (Option String)
  /-- Writes a file, and answers false if there is no folder for it. -/
  write : (path text : String) → m Bool
  /-- The files in a folder and in the folders below it, each as the names that lead
      from the folder to it; none if there is no such folder. -/
  below : (path : String) → m (List (List String))

/-- Files in memory, each with its path. -/
abbrev Files := List (String × String)

namespace Files

open MailMerge.Text

/-- The way from one place to another below it. -/
def wayBelow? : (place target : List String) → Option (List String)
  | [], target => some target
  | _ :: _, [] => none
  | a :: as, b :: bs => if a = b then wayBelow? as bs else none

/-- A file lies below the place, or the place is the working folder or lies above it. -/
def isFolder (files : Files) (place : List String) : Bool :=
  place.all (· == "..") || place == [""] ||
    files.any fun (p, _) => ((wayBelow? place (Path.resolve p)).getD []) != []

/-- Follows the pieces of a path: what is not the last one leads from a folder. -/
def follow (files : Files) (place : List String) : List String → Option (List String)
  | [] => some place
  | piece :: pieces =>
    if isFolder files place then follow files (Path.step place piece) pieces else none

/-- The place that a path leads to, where a file or folder may be or not. -/
def place? (files : Files) (path : String) : Option (List String) :=
  if path = "" then none else follow files (Path.origin path) (Path.pieces path)

def read? (files : Files) (path : String) : Option String := do
  let place ← place? files path
  (files.find? fun (p, _) => Path.resolve p == place).map (·.2)

/-- The files below a folder. -/
def below (files : Files) (path : String) : List (List String) :=
  match place? files path with
  | some place =>
    if isFolder files place then files.filterMap fun (p, _) => wayBelow? place (Path.resolve p)
    else []
  | none => []

/-- The text takes that of the file in a place, or makes a new file there. -/
def put (place : List String) (text : String) : Files → Files
  | [] => [(String.intercalate "/" place, text)]
  | (p, t) :: rest =>
    if Path.resolve p = place then (p, text) :: rest else (p, t) :: put place text rest

/-- The files after a text is written, if there can be a file where the path leads. -/
def write? (files : Files) (path text : String) : Option Files := do
  let place ← place? files path
  if isFolder files place then none else some (put place text files)

/-- The host of files in memory. -/
def host : Host (StateM Files) where
  read path := do pure (read? (← get) path)
  write path text := do
    match write? (← get) path text with
    | some files =>
      set files
      pure true
    | none => pure false
  below path := do pure (below (← get) path)

end Files

end MailMerge
