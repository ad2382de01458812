/-
  MailMerge.Command.Arguments — what a command line asks for.

  The first argument that is no option names the command; what follows are its options
  and its one operand, in any order. Options have a long name behind two dashes and may
  have a letter behind one; letters can be written together. The value of an option
  follows it, as the next argument or, behind an equals sign, in the same one; behind a
  letter the sign may be missing. Two dashes alone end the options. An option is given
  at most once, unless it adds to a list.
-/

import MailMerge.Text.Cut

namespace MailMerge

inductive Command where
  /-- Merges a part and writes the result to a file or to the output. -/
  | render (file : String) (context output : Option String) (strict : Bool)
  /-- Groups the fields of a part into statements. -/
  | check (file : String)
  /-- Lists the fields of a part. -/
  | fields (file : String)
  /-- Runs fixtures, or lists their categories. -/
  | test (path : String) (categories : List String) (listOnly : Bool)
  deriving DecidableEq, Repr

/-- What a command line asks for. -/
structure Request where
  colored : Bool
  command : Command
  deriving DecidableEq, Repr

namespace Request

open MailMerge.Text

/-- Why a command line asks for nothing. -/
inductive Fault where
  | noCommand
  | unknownCommand (name : String)
  | unknownOption (text : String)
  | noValue (option : String)
  | needlessValue (option : String)
  | repeated (option : String)
  | noOperand
  | needlessOperand (text : String)
  deriving DecidableEq, Repr

def Fault.message : Fault → String
  | noCommand => "no command is given"
  | unknownCommand name => "unrecognized subcommand '" ++ name ++ "'"
  | unknownOption text => "unexpected argument '" ++ text ++ "' found"
  | noValue option => "a value is required for '--" ++ option ++ "' but none was supplied"
  | needlessValue option => "unexpected value for '--" ++ option ++ "' found"
  | repeated option => "the argument '--" ++ option ++ "' cannot be used multiple times"
  | noOperand => "a required argument was not provided"
  | needlessOperand text => "unexpected argument '" ++ text ++ "' found"

/-! ## Options -/

/-- An option that a command knows. -/
structure Setting where
  name : String
  letter : Option Char
  takesValue : Bool
  deriving DecidableEq, Repr

/-- Arguments sorted out: the options with their values, empty for those without, and the
    operands. -/
structure Sorted where
  given : List (String × String)
  operands : List String
  deriving DecidableEq, Repr

def Sorted.add (name value : String) (s : Sorted) : Sorted :=
  { s with given := (name, value) :: s.given }

def Sorted.has (s : Sorted) (name : String) : Bool := (s.given.lookup name).isSome

/-- More than a dash that starts with a dash. -/
def isOption (argument : String) : Bool :=
  match argument.toList with
  | '-' :: _ :: _ => true
  | _ => false

def longName? (settings : List Setting) (name : List Char) : Option Setting :=
  settings.find? (·.name == String.ofList name)

def letter? (settings : List Setting) (c : Char) : Option Setting :=
  settings.find? (·.letter == some c)

/-- What letters written together say: the options given, and at the end one that takes a
    value, with the rest of the letters unless there is no rest. -/
def readLetters (settings : List Setting) :
    List Char → Except Fault (List Setting × Option (Setting × Option String))
  | [] => .ok ([], none)
  | c :: cs =>
    match letter? settings c with
    | none => .error (.unknownOption (String.ofList ['-', c]))
    | some s =>
      if s.takesValue then
        match cs with
        | [] => .ok ([], some (s, none))
        | '=' :: value => .ok ([], some (s, some (String.ofList value)))
        | value => .ok ([], some (s, some (String.ofList value)))
      else do
        let (flags, last) ← readLetters settings cs
        .ok (s :: flags, last)

/-- What one option argument says: the options without a value, and the one with. -/
def readOption (settings : List Setting) (argument : List Char) :
    Except Fault (List Setting × Option (Setting × Option String)) :=
  match argument with
  | '-' :: '-' :: long =>
    let name := long.takeWhile (· != '=')
    let value := (long.dropWhile (· != '=')).tail?.map String.ofList
    match longName? settings name, value with
    | none, _ => .error (.unknownOption (String.ofList argument))
    | some s, value =>
      if s.takesValue then .ok ([], some (s, value))
      else if value.isSome then .error (.needlessValue s.name)
      else .ok ([s], none)
  | _ :: letters => readLetters settings letters
  | [] => .ok ([], none)

/-- Sorts arguments out. -/
def sort (settings : List Setting) : List String → Except Fault Sorted
  | [] => .ok ⟨[], []⟩
  | argument :: rest =>
    if argument = "--" then .ok ⟨[], rest⟩
    else if isOption argument then
      match readOption settings argument.toList with
      | .error fault => .error fault
      | .ok (flags, last) =>
        let addFlags (s : Sorted) : Sorted := flags.foldr (fun f s => s.add f.name "") s
        match last, rest with
        | none, rest => (sort settings rest).map addFlags
        | some (s, some value), rest => (sort settings rest).map fun r => addFlags (r.add s.name value)
        | some (s, none), value :: rest =>
          if isOption value then .error (.noValue s.name)
          else (sort settings rest).map fun r => addFlags (r.add s.name value)
        | some (s, none), [] => .error (.noValue s.name)
    else (sort settings rest).map fun r => { r with operands := argument :: r.operands }

/-- Every option but this one is given at most once. -/
def checkOnce (list : String) : List (String × String) → Except Fault Unit
  | [] => .ok ()
  | (name, _) :: rest =>
    if name ≠ list ∧ (rest.lookup name).isSome then .error (.repeated name)
    else checkOnce list rest

/-! ## Commands -/

def noColor : Setting := ⟨"no-color", none, false⟩
def verbose : Setting := ⟨"verbose", some 'v', false⟩
def context : Setting := ⟨"context", some 'c', true⟩
def output : Setting := ⟨"output", some 'o', true⟩
def strict : Setting := ⟨"strict", none, false⟩
def category : Setting := ⟨"category", some 'c', true⟩
def listCategories : Setting := ⟨"list-categories", none, false⟩

/-- The options that may also stand before the command. -/
def common : List Setting := [noColor, verbose]

/-- The options that a command knows beside the common ones. -/
def settings? : String → Option (List Setting)
  | "render" => some [context, output, strict]
  | "check" => some []
  | "fields" => some []
  | "test" => some [category, listCategories]
  | _ => none

/-- The values of an option that adds to a list. -/
def valuesOf (s : Sorted) (setting : Setting) : List String :=
  s.given.filterMap fun (name, value) => if name = setting.name then some value else none

def asked (name operand : String) (s : Sorted) : Command :=
  match name with
  | "render" =>
    .render operand (s.given.lookup context.name) (s.given.lookup output.name) (s.has strict.name)
  | "check" => .check operand
  | "fields" => .fields operand
  | _ => .test operand (valuesOf s category) (s.has listCategories.name)

/-- Reads a command line. -/
def ofArguments (arguments : List String) : Except Fault Request := do
  let before ← sort common (arguments.takeWhile isOption)
  checkOnce category.name before.given
  match arguments.dropWhile isOption with
  | [] => .error .noCommand
  | name :: rest =>
    match settings? name with
    | none => .error (.unknownCommand name)
    | some settings => do
      let sorted ← sort (common ++ settings) rest
      checkOnce category.name sorted.given
      match sorted.operands with
      | [] => .error .noOperand
      | [operand] =>
        let colored := !(before.has noColor.name || sorted.has noColor.name)
        .ok ⟨colored, asked name operand sorted⟩
      | _ :: more :: _ => .error (.needlessOperand more)

end Request

end MailMerge
