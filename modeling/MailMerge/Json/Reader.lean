/-
  MailMerge.Json.Reader — values written in JSON.

  The grammar is the strict one: no comments, no trailing commas, no byte order mark.
  Arrays and objects may be nested in at most 127 levels. Of two pairs with one key in an
  object the last counts. A number without fraction and exponent that fits in 64 signed
  bits is an integer, but minus zero is not; every other number is a float.
-/

import MailMerge.Decimal.Numeral
import MailMerge.Text.Read
import MailMerge.Value.Basic

namespace MailMerge.Json

open MailMerge.Text MailMerge.Decimal

def isSpace (c : Char) : Bool := c == ' ' || c == '\t' || c == '\n' || c == '\r'

def space : Read Unit := do let _ ← Read.run isSpace

/-- A reading with space around it. -/
def spaced {α : Type} (r : Read α) : Read α := do
  space
  let a ← r
  space
  pure a

/-! ## Strings -/

/-- The characters that stand for one other behind a backslash. -/
def escapes : List (Char × Char) :=
  [('"', '"'), ('\\', '\\'), ('/', '/'), ('b', '\x08'), ('f', '\x0c'), ('n', '\n'), ('r', '\r'),
    ('t', '\t')]

/-- The four digits behind `\u`. -/
def codeUnit : Read Nat := do
  Read.char 'u'
  let digits ← Read.times (isDigit 16) 4
  pure (numeral 16 digits)

def isLeading (unit : Nat) : Bool := 0xD800 ≤ unit && unit < 0xDC00

def isTrailing (unit : Nat) : Bool := 0xDC00 ≤ unit && unit < 0xE000

/-- A character written as one code unit or as a leading and a trailing one. -/
def unicode : Read Char := do
  let unit ← codeUnit
  if isLeading unit then
    Read.char '\\'
    let second ← codeUnit
    if isTrailing second then
      pure (Char.ofNat (0x10000 + (unit - 0xD800) * 0x400 + (second - 0xDC00)))
    else failure
  else if isTrailing unit then failure
  else pure (Char.ofNat unit)

def named : Read Char := do
  let name ← Read.one fun _ => true
  match escapes.lookup name with
  | some c => pure c
  | none => failure

def escape : Read Char := do
  Read.char '\\'
  unicode <|> named

def isPlain (c : Char) : Bool := 0x20 ≤ c.toNat && c != '"' && c != '\\'

def string : Read String := do
  Read.char '"'
  let cs ← Read.many (Read.one isPlain <|> escape)
  Read.char '"'
  pure (String.ofList cs)

/-! ## Numbers -/

def digits : Read (List Char) := Read.run1 (isDigit 10)

/-- Whole digits, with no zero before another digit. -/
def wholeDigits : Read (List Char) := do
  let ds ← digits
  if ds.head? = some '0' ∧ ds.length ≠ 1 then failure else pure ds

def fraction : Read (List Char) := do
  Read.char '.'
  digits

def exponent : Read (Bool × List Char) := do
  let _ ← Read.one fun c => c == 'e' || c == 'E'
  let sign ← Read.optional (Read.one fun c => c == '+' || c == '-')
  let ds ← digits
  pure (sign == some '-', ds)

def signedNumeral : Read (Bool × Numeral) := do
  let sign ← Read.optional (Read.char '-')
  let whole ← wholeDigits
  let fraction ← Read.optional fraction
  let exponent ← Read.optional exponent
  pure (sign.isSome, ⟨whole, fraction, exponent⟩)

/-- The integer that a numeral writes, if it is to be one. -/
def integer? (negative : Bool) (n : Numeral) : Option Int :=
  let value := numeral 10 n.whole
  if !n.isWhole then none
  else if negative then if 0 < value ∧ value ≤ integerBound then some (-(value : Int)) else none
  else if value < integerBound then some (value : Int)
  else none

def number : Read Value := do
  let (negative, n) ← signedNumeral
  match integer? negative n, n.scaled? with
  | some i, _ => pure (.integer i)
  | none, some x => pure (.float (if negative then -x else x))
  | none, none => failure

/-! ## Values -/

def keyword (name : List Char) (v : Value) : Read Value := do
  Read.exactly name
  pure v

def scalar : Read Value :=
  keyword ['n', 'u', 'l', 'l'] .nil <|> keyword ['t', 'r', 'u', 'e'] (.boolean true) <|>
    keyword ['f', 'a', 'l', 's', 'e'] (.boolean false) <|> (.string <$> string) <|> number

def array (item : Read Value) : Read Value := do
  Read.char '['
  let items ← Read.separated (spaced item) (Read.char ',')
  space
  Read.char ']'
  pure (.list items)

def pair (item : Read Value) : Read (String × Value) := do
  let key ← spaced string
  Read.char ':'
  let v ← spaced item
  pure (key, v)

def object (item : Read Value) : Read Value := do
  Read.char '\x7b'
  let pairs ← Read.separated (pair item) (Read.char ',')
  space
  Read.char '\x7d'
  pure (.map (Entries.ofPairs pairs))

/-- A value with at most `levels` levels of arrays and objects. -/
def value : (levels : Nat) → Read Value
  | 0 => scalar
  | levels + 1 => scalar <|> array (value levels) <|> object (value levels)

/-- How many levels of arrays and objects there can be. -/
def maxLevels : Nat := 127

/-- The value that a whole text writes. -/
def read? (text : String) : Option Value := Read.whole (spaced (value maxLevels)) text.toList

end MailMerge.Json
