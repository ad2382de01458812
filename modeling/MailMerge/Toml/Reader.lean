/-
  MailMerge.Toml.Reader — values and documents written in TOML.

  A document is a sequence of lines: pairs, headers, comments and empty lines. The lines
  are read first; then each pair and header changes the tables made so far. Arrays and
  tables in braces may be nested in at most 79 levels.
-/

import MailMerge.Decimal.Numeral
import MailMerge.Text.Utf8
import MailMerge.Toml.Item
import MailMerge.Toml.Moment
import MailMerge.Toml.Quoted

namespace MailMerge.Toml

open MailMerge.Text MailMerge.Decimal

/-! ## Numbers -/

/-- Digits, between which single underscores may stand. -/
def grouped (base : Nat) : Read (List Char) := do
  let first ← Read.one (isDigit base)
  let more ← Read.many (Read.one (isDigit base) <|> do
    Read.char '_'
    Read.one (isDigit base))
  pure (first :: more)

/-- The whole digits of a decimal number: a zero alone, or no zero first. -/
def wholeDigits : Read (List Char) := (do Read.char '0'; pure ['0']) <|> grouped 10

/-- A sign, true for minus. -/
def sign : Read Bool := do
  let c ← Read.optional (Read.one fun c => c == '+' || c == '-')
  pure (c == some '-')

def fraction : Read (List Char) := do
  Read.char '.'
  grouped 10

def exponent : Read (Bool × List Char) := do
  let _ ← Read.one fun c => c == 'e' || c == 'E'
  let negative ← sign
  let digits ← grouped 10
  pure (negative, digits)

def signed (negative : Bool) (x : Float) : Float := if negative then -x else x

/-- The positive infinity. -/
def infinity : Float := 1 / 0

/-- A number with a fraction or an exponent. Only below zero may it be beyond the largest
    float. -/
def decimalFloat : Read Float := do
  let negative ← sign
  let whole ← wholeDigits
  let fraction ← Read.optional fraction
  let exponent ← Read.optional exponent
  let n : Numeral := ⟨whole, fraction, exponent⟩
  if n.isWhole then failure
  match n.nearest? with
  | some x => pure (signed negative x)
  | none => if negative then pure (-infinity) else failure

def specialFloat : Read Float := do
  let negative ← sign
  (do
    Read.exactly ['i', 'n', 'f']
    pure (signed negative infinity)) <|>
  (do
    Read.exactly ['n', 'a', 'n']
    pure (signed negative (0 / 0)))

def decimalInteger : Read Int := do
  let negative ← sign
  let digits ← wholeDigits
  let n := numeral 10 digits
  if negative then if n ≤ integerBound then pure (-(n : Int)) else failure
  else if n < integerBound then pure (n : Int)
  else failure

/-- Digits in a base of their own, which a zero and a letter announce. -/
def basedInteger (mark : Char) (base : Nat) : Read Int := do
  Read.exactly ['0', mark]
  let digits ← grouped base
  let n := numeral base digits
  if n < integerBound then pure (n : Int) else failure

def integer : Read Int :=
  basedInteger 'x' 16 <|> basedInteger 'o' 8 <|> basedInteger 'b' 2 <|> decimalInteger

def boolean : Read Bool :=
  (do
    Read.exactly ['t', 'r', 'u', 'e']
    pure true) <|>
  (do
    Read.exactly ['f', 'a', 'l', 's', 'e']
    pure false)

def scalar : Read Item :=
  (.text <$> quoted) <|> (.moment <$> moment) <|> (.float <$> decimalFloat) <|>
    (.float <$> specialFloat) <|> (.integer <$> integer) <|> (.boolean <$> boolean)

/-! ## Arrays and tables in braces -/

def comment : Read Unit := do
  Read.char '#'
  let _ ← Read.run isPrinted

/-- Space, line ends and comments. -/
def gap : Read Unit := do
  let _ ← Read.many ((do let _ ← Read.run1 isSpace) <|> lineEnd <|> comment)

def array (item : Read Item) : Read Item := do
  Read.char '['
  let gapped : Read Item := do
    gap
    let i ← item
    gap
    pure i
  let items ← Read.separated gapped (Read.char ',')
  if !items.isEmpty then
    let _ ← Read.optional (Read.char ',')
  gap
  Read.char ']'
  pure (.array items)

/-- A key, an equals sign and an item. -/
def pair (item : Read Item) : Read (List String × String × Item) := do
  let (path, key) ← dottedKey
  Read.char '='
  space
  let i ← item
  space
  pure (path, key, i)

def braces (item : Read Item) : Read Item := do
  Read.char '\x7b'
  let given ← Read.separated (pair item) (Read.char ',')
  space
  Read.char '\x7d'
  let add (pairs : Pairs) : List String × String × Item → Option Pairs
    | (path, key, i) => Pairs.define path key i .braces pairs
  match given.foldlM add [] with
  | some pairs => pure (.table .braces pairs)
  | none => failure

/-- An item with at most `levels` levels of arrays and braces. -/
def item : (levels : Nat) → Read Item
  | 0 => scalar
  | levels + 1 => scalar <|> array (item levels) <|> braces (item levels)

/-- How many levels of arrays and braces there can be. -/
def maxLevels : Nat := 79

/-! ## Documents -/

inductive Line where
  | blank
  | pair (path : List String) (key : String) (item : Item)
  | header (path : List String) (key : String)
  | repeatedHeader (path : List String) (key : String)
  deriving Repr

/-- The end of a line, with a comment before it or without one. -/
def trailing : Read Unit := do
  space
  let _ ← Read.optional comment
  lineEnd <|> Read.atEnd

def blankLine : Read Line := do
  comment
  lineEnd <|> Read.atEnd
  pure .blank

def emptyLine : Read Line := do
  lineEnd
  pure .blank

def repeatedHeader : Read Line := do
  Read.exactly ['[', '[']
  let (path, key) ← dottedKey
  Read.exactly [']', ']']
  trailing
  pure (.repeatedHeader path key)

def header : Read Line := do
  Read.char '['
  let (path, key) ← dottedKey
  Read.char ']'
  trailing
  pure (.header path key)

def pairLine : Read Line := do
  let (path, key, i) ← pair (item maxLevels)
  trailing
  pure (.pair path key i)

def line : Read Line := do
  let l ← blankLine <|> emptyLine <|> repeatedHeader <|> header <|> pairLine
  space
  pure l

def lines : Read (List Line) := do
  let _ ← Read.optional (Read.char byteOrderMark)
  space
  Read.many line

/-- The tables made so far, and the path of the one that pairs go to. -/
structure Draft where
  root : Pairs
  current : List String

namespace Draft

def add (d : Draft) : Line → Option Draft
  | .blank => some d
  | .pair path key i =>
    (Pairs.change false (Pairs.define path key i) d.current .header d.root).map fun root =>
      { d with root }
  | .header path key =>
    (Pairs.openTable path key d.root).map fun root => ⟨root, path ++ [key]⟩
  | .repeatedHeader path key =>
    (Pairs.openNext path key d.root).map fun root => ⟨root, path ++ [key]⟩

end Draft

/-- The pairs of a whole document. -/
def read? (text : List Char) : Option Pairs := do
  let ls ← Read.whole lines text
  let draft ← ls.foldlM Draft.add ⟨[], []⟩
  pure draft.root

end MailMerge.Toml
