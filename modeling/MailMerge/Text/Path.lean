/-
  MailMerge.Text.Path — names of files and folders.

  A path is a text with slashes between names. Empty names and the name `.` lead nowhere
  else and are left out; `..` leads back up. The name of a file ends with its extension,
  which the last dot sets off unless the name starts with that dot.
-/

import MailMerge.Text.Blank

namespace MailMerge.Text.Path

/-- Where a path starts: at the root, which has the empty name, or at the working folder. -/
def origin (path : String) : List String := if path.toList.head? = some '/' then [""] else []

/-- From a place, given by names from the origin on, a name leads down, and `..` leads up.
    Above the working folder there is another one; above the root there is none. -/
def step (place : List String) (name : String) : List String :=
  if name = "" ∨ name = "." then place
  else if name ≠ ".." then place ++ [name]
  else if place = [""] then place
  else if place.getLast?.all (· == "..") then place ++ [".."]
  else place.dropLast

/-- What stands between the slashes. -/
def pieces (path : String) : List String := (splitAt '/' path.toList).map String.ofList

/-- Where the path leads, if every name in it is found. -/
def resolve (path : String) : List String := (pieces path).foldl step (origin path)

/-- The names between the slashes. -/
def names (path : String) : List String :=
  (pieces path).filter fun n => n != "" && n != "."

/-- The name that the path ends with; one that ends with `..` names no file. -/
def fileName? (path : String) : Option String :=
  match (names path).getLast? with
  | some name => if name = ".." then none else some name
  | none => none

/-- The path of something in a folder. -/
def join (folder : String) (names : List String) : String :=
  let rest := String.intercalate "/" names
  if folder = "" ∨ folder.toList.getLast? = some '/' then folder ++ rest
  else folder ++ "/" ++ rest

/-- What stands behind the last dot of a file's name, if anything stands before it. -/
def extension? (path : String) : Option String := do
  let name ← fileName? path
  match (splitAt '.' name.toList).reverse with
  | last :: before => if before = [] ∨ before = [[]] then none else some (String.ofList last)
  | [] => none

/-- The text without this ending, if it has it. -/
def withoutEnding? (ending text : List Char) : Option (List Char) :=
  if ending.isSuffixOf text then some (text.take (text.length - ending.length)) else none

end MailMerge.Text.Path
