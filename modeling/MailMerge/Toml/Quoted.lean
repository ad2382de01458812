/-
  MailMerge.Toml.Quoted — texts in quotes.

  Double quotes allow escapes, single quotes take everything as it stands. Three quotes
  hold several lines: a line end right behind the opening ones is dropped, every line end
  is a line feed, and up to two quotes may stand before the closing three. A backslash at
  the end of a line drops the line end and the blank space behind it.
-/

import MailMerge.Text.Read

namespace MailMerge.Toml

open MailMerge.Text

def isSpace (c : Char) : Bool := c == ' ' || c == '\t'

def space : Read Unit := do let _ ← Read.run isSpace

/-- A line feed, before which a carriage return may stand. -/
def lineEnd : Read Unit := Read.char '\n' <|> Read.exactly ['\r', '\n']

/-- Everything but control characters; the tab counts as space. -/
def isPrinted (c : Char) : Bool := c == '\t' || (0x20 ≤ c.toNat && c.toNat != 0x7F)

/-! ## Escapes -/

def escapes : List (Char × Char) :=
  [('b', '\x08'), ('t', '\t'), ('n', '\n'), ('f', '\x0c'), ('r', '\r'), ('"', '"'), ('\\', '\\')]

/-- A character by its code, in so many digits. -/
def coded (mark : Char) (count : Nat) : Read Char := do
  Read.char mark
  let digits ← Read.times (isDigit 16) count
  let code := numeral 16 digits
  if code.isValidChar then pure (Char.ofNat code) else failure

def named : Read Char := do
  let name ← Read.one fun _ => true
  match escapes.lookup name with
  | some c => pure c
  | none => failure

def escape : Read Char := do
  Read.char '\\'
  coded 'u' 4 <|> coded 'U' 8 <|> named

/-! ## One line -/

def isBasic (c : Char) : Bool := isPrinted c && c != '"' && c != '\\'

def isLiteral (c : Char) : Bool := isPrinted c && c != '\''

def basic : Read String := do
  Read.char '"'
  let cs ← Read.many (Read.one isBasic <|> escape)
  Read.char '"'
  pure (String.ofList cs)

def literal : Read String := do
  Read.char '\''
  let cs ← Read.run isLiteral
  Read.char '\''
  pure (String.ofList cs)

/-! ## Several lines -/

/-- A backslash at the end of a line, with the blank lines and the space that follow. -/
def joinedLines : Read (List Char) := do
  Read.char '\\'
  space
  lineEnd
  let _ ← Read.many (lineEnd <|> (do let _ ← Read.run1 isSpace))
  pure []

/-- A line end inside a text. -/
def innerLineEnd : Read (List Char) := do
  lineEnd
  pure ['\n']

/-- Succeeds where something else is next, and takes nothing. -/
def unlessNext (c : Char) : Read Unit
  | [] => none
  | d :: cs => if d = c then none else some ((), d :: cs)

/-- One or two quotes with something else behind them. -/
def innerQuotes (quote : Char) : Read (List Char) :=
  (do
    Read.exactly [quote, quote]
    unlessNext quote
    pure [quote, quote]) <|>
  (do
    Read.char quote
    unlessNext quote
    pure [quote])

/-- The three closing quotes, and up to two before them that belong to the text. -/
def closingQuotes (quote : Char) : Read (List Char) :=
  let three := [quote, quote, quote]
  (do Read.exactly ([quote, quote] ++ three); pure [quote, quote]) <|>
  (do Read.exactly (quote :: three); pure [quote]) <|>
  (do Read.exactly three; pure [])

/-- A text between three quotes on either side, made of such pieces. -/
def multiline (quote : Char) (piece : Read (List Char)) : Read String := do
  Read.exactly [quote, quote, quote]
  let _ ← Read.optional lineEnd
  let pieces ← Read.many (piece <|> innerLineEnd <|> innerQuotes quote)
  let last ← closingQuotes quote
  pure (String.ofList (pieces.flatten ++ last))

def multilineBasic : Read String :=
  multiline '"' (Read.run1 isBasic <|> joinedLines <|> (do let c ← escape; pure [c]))

def multilineLiteral : Read String := multiline '\'' (Read.run1 isLiteral)

def quoted : Read String := multilineBasic <|> basic <|> multilineLiteral <|> literal

/-! ## Keys -/

def isBareKey (c : Char) : Bool := c.isAlphanum || c == '-' || c == '_'

def simpleKey : Read String :=
  basic <|> literal <|> (String.ofList <$> Read.run1 isBareKey)

/-- How many keys a dotted key may have at most. -/
def maxKeys : Nat := 79

/-- Keys with dots between them: those on the way and the last one. -/
def dottedKey : Read (List String × String) := do
  let spacedKey : Read String := do
    space
    let key ← simpleKey
    space
    pure key
  let keys ← Read.separated spacedKey (Read.char '.')
  match keys.reverse with
  | [] => failure
  | last :: path => if keys.length ≤ maxKeys then pure (path.reverse, last) else failure

end MailMerge.Toml
