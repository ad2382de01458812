/-
  MailMerge.Markup.Attribute — the attributes written in a tag.

  After the tag's name come pairs `key="value"` or `key='value'`. Space may surround the
  equals sign and is not needed between pairs. A key runs to the next equals sign or
  space after its first character. Positions count bytes from the first byte of the
  tag's name. Reading stops at the first fault, and keeps the pairs read before it.
-/

import MailMerge.Markup.Escape

namespace MailMerge.Markup

open MailMerge.Text

/-- White space as markup knows it. -/
def isSpace (c : Char) : Bool := c == ' ' || c == '\t' || c == '\r' || c == '\n'

structure RawAttribute where
  key : List Char
  /-- The text between the quotes, not yet unescaped. -/
  value : List Char
  deriving DecidableEq, Repr

inductive AttributeFault where
  | noEquals (position : Nat)
  | noValue (position : Nat)
  | unquoted (position : Nat)
  | noClosingQuote (position : Nat) (quote : Char)
  | duplicate (position earlier : Nat)
  deriving DecidableEq, Repr

namespace AttributeFault

def message : AttributeFault → String
  | noEquals p =>
    "position " ++ toString p ++ ": attribute key must be directly followed by `=` or space"
  | noValue p => "position " ++ toString p ++ ": `=` must be followed by an attribute value"
  | unquoted p =>
    "position " ++ toString p ++ ": attribute value must be enclosed in `\"` or `'`"
  | noClosingQuote p quote =>
    "position " ++ toString p ++ ": missing closing quote `" ++ quote.toString ++
      "` in attribute value"
  | duplicate p earlier =>
    "position " ++ toString p ++ ": duplicated attribute, previous declaration at position " ++
      toString earlier

end AttributeFault

/-- How many bytes of space the text starts with. -/
def spaceWidth (cs : List Char) : Nat := utf8Length (cs.takeWhile isSpace)

def skipSpace (cs : List Char) : List Char := cs.dropWhile isSpace

def isKeyChar (c : Char) : Bool := c != '=' && !isSpace c

/-- A key whose first character `c` stands at `pos`, up to and with its equals sign: the
    key, and the place and the text behind the sign. -/
def readKey (pos : Nat) (c : Char) (cs : List Char) :
    Except AttributeFault (List Char × Nat × List Char) :=
  let key := c :: cs.takeWhile isKeyChar
  let gap := cs.dropWhile isKeyChar
  let at_ := pos + utf8Length key + spaceWidth gap
  match skipSpace gap with
  | '=' :: rest => .ok (key, at_ + 1, rest)
  | _ => .error (.noEquals at_)

/-- A value in quotes: its text, and the place and the text behind the closing quote. -/
def readQuoted (pos : Nat) : List Char → Except AttributeFault (List Char × Nat × List Char)
  | [] => .error (.noValue pos)
  | quote :: cs =>
    if quote == '"' || quote == '\'' then
      let value := cs.takeWhile (· != quote)
      match cs.dropWhile (· != quote) with
      | [] => .error (.noClosingQuote (pos + 1 + utf8Length value) quote)
      | _ :: rest => .ok (value, pos + utf8Length value + 2, rest)
    else .error (.unquoted pos)

theorem readKey_shrinks {pos next : Nat} {c : Char} {cs key rest : List Char}
    (h : readKey pos c cs = .ok (key, next, rest)) : rest.length < cs.length := by
  simp only [readKey] at h
  split at h
  · next r hr =>
    cases h
    have h1 := length_dropWhile_le isKeyChar cs
    have h2 := length_dropWhile_le isSpace (cs.dropWhile isKeyChar)
    rw [skipSpace] at hr
    rw [hr] at h2
    simp only [List.length_cons] at h2
    omega
  · cases h

theorem readQuoted_shrinks {pos next : Nat} {cs value rest : List Char}
    (h : readQuoted pos cs = .ok (value, next, rest)) : rest.length < cs.length := by
  cases cs with
  | nil => cases h
  | cons quote cs =>
    simp only [readQuoted] at h
    split at h
    · split at h
      · cases h
      · next q r hr =>
        cases h
        have := length_dropWhile_le (· != quote) cs
        rw [hr] at this
        simp only [List.length_cons] at this ⊢
        omega
    · cases h

/-- The attributes of a tag from byte `pos` on. With `distinct`, a key may not be written
    twice; `seen` holds the keys so far with their places. -/
def attributesFrom (distinct : Bool) (seen : List (List Char × Nat)) (pos : Nat)
    (cs : List Char) : List RawAttribute × Option AttributeFault :=
  match _hs : skipSpace cs with
  | [] => ([], none)
  | c :: rest =>
    let start := pos + spaceWidth cs
    match _hk : readKey start c rest with
    | .error fault => ([], some fault)
    | .ok (key, next, text) =>
      match if distinct then seen.lookup key else none with
      | some earlier => ([], some (.duplicate start earlier))
      | none =>
        match _hv : readQuoted (next + spaceWidth text) (skipSpace text) with
        | .error fault => ([], some fault)
        | .ok (value, after, tail) =>
          let (more, fault) := attributesFrom distinct ((key, start) :: seen) after tail
          (⟨key, value⟩ :: more, fault)
termination_by cs.length
decreasing_by
  have h1 := length_dropWhile_le isSpace cs
  have h2 := readKey_shrinks _hk
  have h3 := length_dropWhile_le isSpace text
  have h4 := readQuoted_shrinks _hv
  rw [skipSpace] at _hs h4
  rw [_hs] at h1
  simp only [List.length_cons] at h1
  omega

/-- A tag's content: the name, and the attributes behind it. -/
def nameOf (content : List Char) : List Char := content.takeWhile (!isSpace ·)

def attributesOf (distinct : Bool) (name content : List Char) :
    List RawAttribute × Option AttributeFault :=
  attributesFrom distinct [] (utf8Length name) (content.drop name.length)

end MailMerge.Markup
