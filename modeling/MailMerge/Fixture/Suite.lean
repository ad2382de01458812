/-
  MailMerge.Fixture.Suite — the fixtures below a folder, by category.

  The category of a fixture file is the folder that it lies in, seen from the folder the
  suite is made of. Categories are run in the order of their names, and the fixtures of
  one in the order of theirs.
-/

import MailMerge.Fixture.Verdict
import MailMerge.Host

namespace MailMerge

open MailMerge.Text

/-- The fixture files of one category. -/
structure Category where
  name : String
  /-- Each as the names that lead from the suite's folder to it. -/
  files : List (List String)
  deriving DecidableEq, Repr

abbrev Suite := List Category

namespace Category

/-- The folder of the suite itself has no name. -/
def label (name : String) : String := if name.isEmpty then "(root)" else name

end Category

namespace Suite

/-- How the name of a fixture file ends. -/
def ending : List Char := ['.', 't', 'e', 's', 't', '.', 'x', 'm', 'l']

def isFixture (names : List String) : Bool :=
  match names.getLast? with
  | some name => ending.isSuffixOf name.toList
  | none => false

/-- Backslashes separate names of categories as slashes do. -/
def categoryOf (names : List String) : String :=
  String.ofList ((String.intercalate "/" names.dropLast).toList.map fun c =>
    if c = '\\' then '/' else c)

/-- The order of paths, name by name. -/
def precedes : List String → List String → Bool
  | [], _ => true
  | _ :: _, [] => false
  | a :: as, b :: bs => if a = b then precedes as bs else decide (a < b)

/-- Puts a file into its category, which keeps its place in the order of names. -/
def add (suite : Suite) (names : List String) : Suite :=
  let name := categoryOf names
  match suite with
  | [] => [⟨name, [names]⟩]
  | c :: rest =>
    if name < c.name then ⟨name, [names]⟩ :: c :: rest
    else if name = c.name then { c with files := c.files ++ [names] } :: rest
    else c :: add rest names

/-- The suite of the fixture files among these. -/
def ofFiles (files : List (List String)) : Suite :=
  ((files.filter isFixture).mergeSort precedes).foldl add []

def names (suite : Suite) : List String := suite.map (·.name)

/-! ## Choosing categories -/

/-- The name of a category as asked for, without slashes around it. -/
def asked (request : String) : String :=
  let slash (c : Char) : Bool := c == '/'
  String.ofList (((request.toList.dropWhile slash).reverse.dropWhile slash).reverse)

/-- A request names a category and those below it. -/
def meets (request category : String) : Bool :=
  category == asked request || startsWith ((asked request).toList ++ ['/']) category.toList

/-- The categories that some request names; all, if there are no requests. -/
def choose (suite : Suite) (requests : List String) : Suite :=
  if requests.isEmpty then suite
  else suite.filter fun c => requests.any (meets · c.name)

/-- The requests that name no category. -/
def unmet (suite : Suite) (requests : List String) : List String :=
  requests.filter fun r => !suite.any fun c => meets r c.name

end Suite

namespace Verdict

/-- What a fixture is called: its description or the name of its file. -/
def label (v : Verdict) : String :=
  match v.description with
  | some description => description
  | none =>
    match (Path.fileName? v.path).bind fun name => Path.withoutEnding? Suite.ending name.toList with
    | some name => String.ofList name
    | none => "?"

end Verdict

end MailMerge
