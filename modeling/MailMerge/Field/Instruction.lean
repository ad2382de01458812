/-
  MailMerge.Field.Instruction — the instruction text of a field.

  A merge instruction is the word MERGEFIELD and one more word, the directive, which the
  words `\*` and `MERGEFORMAT` may follow. Blanks separate the words and may surround
  them. Every other instruction belongs to some other kind of field.
-/

import MailMerge.Text.Blank

namespace MailMerge.Instruction

open MailMerge.Text

def keyword : List Char := ['M', 'E', 'R', 'G', 'E', 'F', 'I', 'E', 'L', 'D']

/-- The words that ask for the formatting of the displayed result to be kept. -/
def formatSwitch : List (List Char) :=
  [['\\', '*'], ['M', 'E', 'R', 'G', 'E', 'F', 'O', 'R', 'M', 'A', 'T']]

/-- The directive of a merge instruction; other instructions have none. -/
def directive? (instruction : String) : Option String :=
  match words instruction.toList with
  | first :: directive :: rest =>
    if first = keyword ∧ (rest = [] ∨ rest = formatSwitch) then some (String.ofList directive)
    else none
  | _ => none

end MailMerge.Instruction
