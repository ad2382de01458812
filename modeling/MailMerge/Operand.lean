/-
  MailMerge.Operand — what a directive speaks about: a name and members of it.

  `person.city.upcase` looks `person` up, then takes `city` of that and `upcase` of that.
  The segments are joined by single dots; none is empty, and none holds a blank, a dot or
  a parenthesis. Blanks around the whole do not count.
-/

import MailMerge.Text.Blank

namespace MailMerge

structure Operand where
  /-- The name looked up in the environment. -/
  root : String
  /-- The members taken from it, left to right. -/
  members : List String
  deriving DecidableEq, Repr

inductive OperandFault where
  | empty
  | emptySegment
  | forbiddenChar
  deriving DecidableEq, Repr

namespace OperandFault

def reason : OperandFault → String
  | empty => "empty operand"
  | emptySegment => "empty path segment"
  | forbiddenChar => "path segments cannot contain whitespace or parentheses"

end OperandFault

/-- A text that is no operand, trimmed, and why. -/
structure OperandError where
  text : String
  fault : OperandFault
  deriving DecidableEq, Repr

namespace OperandError

def message (e : OperandError) : String :=
  "invalid expression \"" ++ e.text ++ "\": " ++ e.fault.reason

end OperandError

namespace Operand

open MailMerge.Text

/-- A single name, used as it stands. -/
def ofName (name : String) : Operand := ⟨name, []⟩

def isForbidden (c : Char) : Bool := isBlank c || c == '(' || c == ')'

def checkSegment (segment : List Char) : Except OperandFault String :=
  if segment.isEmpty then .error .emptySegment
  else if segment.any isForbidden then .error .forbiddenChar
  else .ok (String.ofList segment)

/-- The segments of a text without blanks around it; the first bad one is the fault. -/
def ofSegments (text : List Char) : Except OperandFault Operand := do
  if text.isEmpty then .error .empty
  else
    match ← (splitAt '.' text).mapM checkSegment with
    | [] => .error .empty
    | root :: members => .ok ⟨root, members⟩

def parse (s : String) : Except OperandError Operand :=
  (ofSegments (trim s.toList)).mapError fun fault => ⟨trimmed s, fault⟩

def segments (o : Operand) : List String := o.root :: o.members

/-- The operand as it is written. -/
def toString (o : Operand) : String := String.intercalate "." o.segments

end Operand

end MailMerge
