/-
  MailMerge.Fixture.Basic — templates with their expected outcome in one file.

  A fixture starts with three dashes. Up to the next line that starts with them stands a
  TOML document that tells the context and what is expected; the rest is the template.
  Byte order marks before it all are dropped, and so is a line end right behind either
  dashes. A line end must come before the closing ones, so an empty document is written
  as an empty line.
-/

import MailMerge.Text.Utf8
import MailMerge.Toml.Reader

namespace MailMerge

/-- What the output must be like. -/
inductive Wanted where
  /-- This text, blanks around it aside. -/
  | exactly (text : String)
  /-- A text that holds all of these. -/
  | containing (texts : List String)
  deriving DecidableEq, Repr

structure Fixture where
  description : Option String
  context : Entries
  strict : Bool
  wanted : Option Wanted
  /-- Texts that the output must not hold. -/
  unwanted : List String
  /-- A text that the message of the expected failure holds. -/
  failure : Option String
  template : String

namespace Fixture

open MailMerge.Text

/-- Why a file is no fixture. -/
inductive Fault where
  | noOpening
  | noClosing
  | notToml
  /-- A key has a value of the wrong kind. -/
  | wrongKind (key : String)
  deriving DecidableEq, Repr

def Fault.message : Fault → String
  | noOpening => "missing opening --- frontmatter delimiter"
  | noClosing => "missing closing --- frontmatter delimiter"
  | notToml => "TOML parse error"
  | wrongKind key => "TOML parse error: invalid type for key `" ++ key ++ "`"

/-! ## The two parts of the file -/

def dashes : List Char := ['-', '-', '-']

/-- The text behind a line end, if it starts with one. -/
def afterLineEnd (cs : List Char) : List Char :=
  match cs with
  | '\n' :: rest => rest
  | '\r' :: '\n' :: rest => rest
  | cs => cs

/-- The text without carriage returns at its end. -/
def withoutReturns (cs : List Char) : List Char := (cs.reverse.dropWhile (· == '\r')).reverse

/-- The document in front of a template, and the template. -/
def split (text : List Char) : Except Fault (List Char × List Char) :=
  match after? dashes (text.dropWhile (· == byteOrderMark)) with
  | none => .error .noOpening
  | some rest =>
    match cutAt ('\n' :: dashes) (afterLineEnd rest) with
    | none => .error .noClosing
    | some (front, template) => .ok (withoutReturns front, afterLineEnd template)

/-! ## The expectations -/

/-- The text under a key, which may be missing. -/
def text? (pairs : Toml.Pairs) (key : String) : Except Fault (Option String) :=
  match pairs.lookup key with
  | none => .ok none
  | some (.text s) => .ok (some s)
  | some _ => .error (.wrongKind key)

/-- The texts of an array that holds texts only. -/
def allTexts? : List Toml.Item → Option (List String)
  | [] => some []
  | .text s :: items => (allTexts? items).map (s :: ·)
  | _ :: _ => none

def texts? (pairs : Toml.Pairs) (key : String) : Except Fault (Option (List String)) :=
  match pairs.lookup key with
  | none => .ok none
  | some (.array items) =>
    match allTexts? items with
    | some texts => .ok (some texts)
    | none => .error (.wrongKind key)
  | some _ => .error (.wrongKind key)

def flag (pairs : Toml.Pairs) (key : String) : Except Fault Bool :=
  match pairs.lookup key with
  | none => .ok false
  | some (.boolean b) => .ok b
  | some _ => .error (.wrongKind key)

/-- The entries under a key, which may be missing. A moment is a table with one key. -/
def table (pairs : Toml.Pairs) (key : String) : Except Fault Entries :=
  match pairs.lookup key with
  | none => .ok []
  | some (.moment s) => .ok [(Toml.momentKey, .string s)]
  | some (.table _ sub) =>
    match Toml.Item.entries? sub with
    | some entries => .ok entries
    | none => .error (.wrongKind key)
  | some _ => .error (.wrongKind key)

/-- One text is expected as it stands, several are expected somewhere. -/
def wanted? (pairs : Toml.Pairs) (key : String) : Except Fault (Option Wanted) :=
  match text? pairs key with
  | .ok s => .ok (s.map .exactly)
  | .error _ =>
    match texts? pairs key with
    | .ok texts => .ok (texts.map .containing)
    | .error fault => .error fault

/-- The fixture that a document and a template make up. Keys that mean nothing are let be. -/
def ofParts (pairs : Toml.Pairs) (template : List Char) : Except Fault Fixture := do
  let description ← text? pairs "description"
  let context ← table pairs "context"
  let strict ← flag pairs "strict"
  let wanted ← wanted? pairs "expect_output"
  let unwanted ← texts? pairs "expect_absent"
  let failure ← text? pairs "expect_error"
  .ok ⟨description, context, strict, wanted, unwanted.getD [], failure, String.ofList template⟩

/-- The fixture that a file's text holds. -/
def ofText (text : String) : Except Fault Fixture := do
  let (front, template) ← split text.toList
  match Toml.read? front with
  | some pairs => ofParts pairs template
  | none => .error .notToml

end Fixture

end MailMerge
