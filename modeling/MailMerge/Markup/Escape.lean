/-
  MailMerge.Markup.Escape — character data and attribute values as markup writes them.

  Writing replaces the characters that markup would take for its own; reading puts them
  back and also knows characters written by number. A reference that cannot be read is a
  fault with the bytes of the text it concerns.
-/

import MailMerge.Text.Cut
import MailMerge.Text.Digit
import MailMerge.Text.Utf8

namespace MailMerge.Markup

open MailMerge.Text

/-! ## Writing -/

def escapeTextChar : Char → List Char
  | '<' => ['&', 'l', 't', ';']
  | '>' => ['&', 'g', 't', ';']
  | '&' => ['&', 'a', 'm', 'p', ';']
  | c => [c]

def escapeValueChar : Char → List Char
  | '\'' => ['&', 'a', 'p', 'o', 's', ';']
  | '"' => ['&', 'q', 'u', 'o', 't', ';']
  | c => escapeTextChar c

def escapeText (cs : List Char) : List Char := cs.flatMap escapeTextChar

def escapeValue (cs : List Char) : List Char := cs.flatMap escapeValueChar

/-! ## Reading -/

/-- Why the number of a character reference names no character. -/
inductive ReferenceFault where
  | signed
  | empty
  | notADigit
  | tooLarge
  | noSuchChar (code : Nat)
  | zero
  deriving DecidableEq, Repr

namespace ReferenceFault

def message : ReferenceFault → String
  | signed => "unexpected number sign"
  | empty => "cannot parse integer from empty string"
  | notADigit => "invalid digit found in string"
  | tooLarge => "number too large to fit in target type"
  | noSuchChar code => "`" ++ toString code ++ "` is not a valid codepoint"
  | zero => "0x0 character is not permitted in XML"

end ReferenceFault

/-- Why text cannot be unescaped; numbers are byte positions in it. -/
inductive EntityFault where
  | unknown (start stop : Nat) (name : String)
  | unterminated (start stop : Nat)
  | reference (fault : ReferenceFault)
  deriving DecidableEq, Repr

namespace EntityFault

def message : EntityFault → String
  | unknown start stop name =>
    "at " ++ toString start ++ ".." ++ toString stop ++ ": unrecognized entity `" ++ name ++ "`"
  | unterminated start stop =>
    "Error while escaping character at range " ++ toString start ++ ".." ++ toString stop ++
      ": Cannot find ';' after '&'"
  | reference fault => "invalid character reference: " ++ fault.message

end EntityFault

/-- Reads digits from the left; a value of 32 bits or more is refused where it arises. -/
def readDigits (base : Nat) : (value : Nat) → List Char → Except ReferenceFault Nat
  | value, [] => .ok value
  | value, c :: cs =>
    match digitValue? base c with
    | none => .error .notADigit
    | some d =>
      let next := value * base + d
      if next < 0x100000000 then readDigits base next cs else .error .tooLarge

def readNumber (base : Nat) (digits : List Char) : Except ReferenceFault Nat :=
  match digits with
  | [] => .error .empty
  | '+' :: _ | '-' :: _ => .error .signed
  | _ => readDigits base 0 digits

/-- The character that the text between `&#` and `;` names. -/
def readReference (number : List Char) : Except ReferenceFault Char := do
  let code ← match number with
    | 'x' :: digits => readNumber 16 digits
    | digits => readNumber 10 digits
  if code = 0 then .error .zero
  else if code.isValidChar then .ok (Char.ofNat code)
  else .error (.noSuchChar code)

/-- The five characters that have a name. -/
def named? (name : List Char) : Option Char :=
  match String.ofList name with
  | "lt" => some '<'
  | "gt" => some '>'
  | "amp" => some '&'
  | "apos" => some '\''
  | "quot" => some '"'
  | _ => none

/-- The character that the text between `&` and `;` stands for; `start` is where that
    text begins. -/
def readEntity (start : Nat) (entity : List Char) : Except EntityFault Char :=
  match entity with
  | '#' :: number => (readReference number).mapError .reference
  | _ =>
    match named? entity with
    | some c => .ok c
    | none => .error (.unknown start (start + utf8Length entity) (String.ofList entity))

theorem length_dropWhile_le {α : Type} (p : α → Bool) (l : List α) :
    (l.dropWhile p).length ≤ l.length := (List.dropWhile_sublist p).length_le

/-- Inside an entity: neither its end nor the start of another. -/
def isEntityChar (c : Char) : Bool := c != ';' && c != '&'

/-- Unescapes the text that begins at byte `pos` of a text of `total` bytes. -/
def unescapeFrom (total pos : Nat) : List Char → Except EntityFault (List Char)
  | [] => .ok []
  | '&' :: cs =>
    match h : cs.dropWhile isEntityChar with
    | ';' :: rest => do
      let entity := cs.takeWhile isEntityChar
      let c ← readEntity (pos + 1) entity
      let tail ← unescapeFrom total (pos + utf8Length entity + 2) rest
      .ok (c :: tail)
    | _ => .error (.unterminated pos total)
  | c :: cs => do
    let tail ← unescapeFrom total (pos + c.utf8Size) cs
    .ok (c :: tail)
termination_by cs => cs.length
decreasing_by
  · have := length_dropWhile_le isEntityChar cs
    simp_all; omega
  · simp

def unescape (cs : List Char) : Except EntityFault (List Char) :=
  unescapeFrom (utf8Length cs) 0 cs

end MailMerge.Markup
