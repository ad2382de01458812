/-
  MailMerge.Directive.Basic — what the expression of a field asks for.

  `=operand` inserts; `list:each(item)` repeats up to `list:endEach`; `cond:if` and
  `cond:if(predicate)` keep what stands before `cond:endIf`, with `other:elsif` and
  `cond:else` branches in between; `@name:start` is about the picture before `@name:end`;
  `comment` drops what stands before `endComment`. A name that could end at several
  places ends at the last one.
-/

import MailMerge.Operand
import MailMerge.Text.Cut

namespace MailMerge

open MailMerge.Text

/-- A name and, if there is one, a predicate asked of it. -/
structure Guard where
  name : String
  predicate : Option String
  deriving DecidableEq, Repr

inductive Directive where
  /-- Inserts what the text stands for, read as an operand. -/
  | insertion (operand : String)
  /-- Inserts what an operand stands for. -/
  | value (operand : Operand)
  /-- Repeats up to the field `stop`. -/
  | loop (list iterator stop : String)
  | conditional (guard : Guard)
  | picture (name : String)
  | comment
  /-- Takes the field and does nothing. -/
  | nothing
  deriving DecidableEq, Repr

namespace Directive

/-! ## Reading expressions -/

/-- All ways to cut a text in two at an occurrence of `mark`, the first one first. -/
def cuts (mark : List Char) : List Char → List (List Char × List Char)
  | [] => []
  | c :: cs =>
    let later := (cuts mark cs).map fun (b, a) => (c :: b, a)
    match after? mark (c :: cs) with
    | some rest => ([], rest) :: later
    | none => later

/-- The text without its last character, if that is `last`. -/
def before? (last : Char) (cs : List Char) : Option (List Char) :=
  if cs.getLast? = some last then some cs.dropLast else none

/-- Not empty and without a space. -/
def isName (cs : List Char) : Bool := !cs.isEmpty && !cs.contains ' '

def isIterator (cs : List Char) : Bool := isName cs && !cs.contains ')'

def isPredicate (cs : List Char) : Bool := !cs.isEmpty && !cs.contains ')'

/-- `name mark argument )`, cut at the last possible place. -/
def call? (mark : List Char) (isArgument : List Char → Bool) (cs : List Char) :
    Option (String × String) := do
  let inner ← before? ')' cs
  let (name, argument) ←
    ((cuts mark inner).filter fun (b, a) => isName b && isArgument a).getLast?
  some (String.ofList name, String.ofList argument)

/-- A name in front of a word that ends the expression. -/
def suffixed? (word : List Char) (cs : List Char) : Option String := do
  let rest ← after? word.reverse cs.reverse
  if isName rest.reverse then some (String.ofList rest.reverse) else none

def insertion? (e : String) : Option String :=
  match e.toList with
  | '=' :: operand =>
    if !operand.isEmpty && !operand.contains '\n' then some (String.ofList operand) else none
  | _ => none

/-- The list and the iterator of a loop. -/
def each? (e : String) : Option (String × String) :=
  call? [':', 'e', 'a', 'c', 'h', '('] isIterator e.toList

/-- A name followed by `word`, or by `word` and a predicate in parentheses. -/
def guard? (word : List Char) (e : String) : Option Guard :=
  match call? (word ++ ['(']) isPredicate e.toList with
  | some (name, predicate) => some ⟨name, some predicate⟩
  | none => (suffixed? word e.toList).map fun name => ⟨name, none⟩

def if? (e : String) : Option Guard := guard? [':', 'i', 'f'] e

def elsif? (e : String) : Option Guard := guard? [':', 'e', 'l', 's', 'i', 'f'] e

def picture? (e : String) : Option String :=
  match e.toList with
  | '@' :: rest =>
    (suffixed? [':', 's', 't', 'a', 'r', 't'] rest).filter fun name => !name.toList.contains ':'
  | _ => none

def commentStart : String := "comment"

/-! ## Where blocks end -/

def loopEnd (list : String) : String := list ++ ":endEach"

def conditionalEnd (name : String) : String := name ++ ":endIf"

def elseMarker (name : String) : String := name ++ ":else"

def pictureEnd (name : String) : String := "@" ++ name ++ ":end"

def commentEnd : String := "endComment"

/-- A field that begins another branch of the conditional of that name. -/
def isBranchMarker (name expression : String) : Bool :=
  expression == elseMarker name || (elsif? expression).isSome

end Directive

end MailMerge
