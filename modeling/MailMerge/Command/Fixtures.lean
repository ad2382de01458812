/-
  MailMerge.Command.Fixtures — running fixtures and telling what came of them.

  Verdicts are told one to a line, under the names of their categories; the reasons of
  those not met follow, and then the numbers. All of it goes to the second output.
-/

import MailMerge.Command.Outcome
import MailMerge.Fixture.Suite

namespace MailMerge.Command

open MailMerge.Text

/-- A text in a colour or style of a terminal. -/
def styled (colored : Bool) (style : Nat) (text : String) : String :=
  if colored then
    "\x1b[" ++ toString style ++ "m" ++ text ++ "\x1b[0m"
  else text

def bold : Nat := 1
def red : Nat := 31
def green : Nat := 32

def verdictLine (colored : Bool) (v : Verdict) : String :=
  let word := if v.miss.isNone then styled colored green "PASS" else styled colored red "FAIL"
  "  " ++ word ++ "  " ++ v.label

/-- The lines made of the pieces between line feeds: a carriage return before a line feed
    belongs to the line end, and nothing follows the last line end. -/
def linesOf : List (List Char) → List (List Char)
  | [] => []
  | [last] => if last = [] then [] else [last]
  | piece :: rest =>
    (if piece.getLast? = some '\r' then piece.dropLast else piece) :: linesOf rest

def reasonLines (reason : String) : List String :=
  (linesOf (splitAt '\n' reason.toList)).map String.ofList

def missLines (v : Verdict) : List String :=
  match v.miss with
  | none => []
  | some miss => ["", "  --- " ++ v.path ++ " ---"] ++ (reasonLines miss.reason).map ("  " ++ ·)

/-- What is told after the last fixture. -/
def summary (colored : Bool) (verdicts : List Verdict) : List String :=
  let misses := verdicts.filter (·.miss.isSome)
  let passed := toString (verdicts.length - misses.length)
  if misses.isEmpty then
    ["", "test result: " ++ styled colored green "ok" ++ ". " ++ passed ++ " passed, 0 failed"]
  else
    ["", "failures:"] ++ misses.flatMap missLines ++
    ["", "test result: " ++ styled colored red "FAILED" ++ ". " ++ passed ++ " passed, " ++
      toString misses.length ++ " failed (of " ++ toString verdicts.length ++ ")"]

/-- The verdicts on fixtures, each group with the lines above it. -/
def tell (colored : Bool) (groups : List (List String × List Verdict)) : Outcome :=
  let verdicts := groups.flatMap (·.2)
  let told := groups.flatMap fun (above, verdicts) => above ++ verdicts.map (verdictLine colored)
  ⟨if verdicts.all (·.miss.isNone) then 0 else 1, "",
    Outcome.lines (told ++ summary colored verdicts)⟩

def noFixtures (path : String) : String := "no .test.xml files found in " ++ path

def unmetWarning (suite : Suite) (request : String) : String :=
  "warning: category '" ++ Suite.asked request ++ "' not found (available: " ++
    String.intercalate ", " (suite.names.map Category.label) ++ ")"

def listSuite (path : String) (suite : Suite) : Outcome :=
  if suite.isEmpty then Outcome.told [noFixtures path]
  else
    let row (c : Category) : String :=
      "  " ++ Category.label c.name ++ " (" ++ toString c.files.length ++ " tests)"
    Outcome.told ("available categories:" :: suite.map row)

variable {m : Type → Type} [Monad m]

/-- The verdict on the fixture in a file. -/
def judge (host : Host m) (path : String) : m Verdict := do
  pure (Verdict.ofFile path (← host.read path))

def judgeCategory (host : Host m) (colored : Bool) (path : String) (c : Category) :
    m (List String × List Verdict) := do
  let verdicts ← c.files.mapM fun names => judge host (Path.join path names)
  pure (["", styled colored bold (Category.label c.name)], verdicts)

/-- Runs the fixtures below a folder, or those of some categories. -/
def runSuite (host : Host m) (colored : Bool) (path : String) (requests : List String)
    (suite : Suite) : m Outcome := do
  if suite.isEmpty then pure (Outcome.failed (Outcome.lines [noFixtures path]))
  else
    let warnings := (suite.unmet requests).map (unmetWarning suite)
    match suite.choose requests with
    | [] => pure (Outcome.failed (Outcome.lines (warnings ++ ["no matching categories found"])))
    | chosen => do
      let groups ← chosen.mapM (judgeCategory host colored path)
      pure (tell colored ((warnings, []) :: groups))

/-- Runs the fixtures that a path leads to, or lists their categories. -/
def runFixtures (host : Host m) (colored : Bool) (path : String) (categories : List String)
    (listOnly : Bool) : m Outcome := do
  match ← host.read path with
  | some text =>
    if listOnly then pure (Outcome.told ["(single file, no categories)"])
    else pure (tell colored [([], [Verdict.ofFile path (some text)])])
  | none => do
    let suite := Suite.ofFiles (← host.below path)
    if listOnly then pure (listSuite path suite)
    else runSuite host colored path categories suite

end MailMerge.Command
