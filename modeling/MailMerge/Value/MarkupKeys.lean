/-
  MailMerge.Value.MarkupKeys — keys that mark a string as markup.

  A string under a key with the mark becomes markup content under the key without it.
  This holds at every depth of maps and lists; objects are left as they are. Where two
  keys of a map become one, the entry that came later in key order stays.
-/

import MailMerge.Text.Cut
import MailMerge.Value.Basic

namespace MailMerge.Value

def markupMark : List Char := ['w', 'o', 'r', 'd', '_', 'm', 'l', ':']

/-- A key without its mark; keys that have none are left out. -/
def unmarked? (key : String) : Option String :=
  (Text.after? markupMark key.toList).map String.ofList

/-- An entry after its value has been read on its own: under a marked key a string is
markup, whatever the reading made of it. -/
def readMarkedEntry (key : String) (old new : Value) : String × Value :=
  match unmarked? key with
  | none => (key, new)
  | some name =>
    match old with
    | string source => (name, content (.markup source))
    | _ => (name, new)

mutual

def readMarkupKeys : Value → Value
  | map entries => map (Entries.ofPairs (readMarkedEntries entries))
  | list items => list (readMarkedItems items)
  | v => v

def readMarkedItems : List Value → List Value
  | [] => []
  | item :: items => readMarkupKeys item :: readMarkedItems items

def readMarkedEntries : List (String × Value) → List (String × Value)
  | [] => []
  | (key, value) :: entries =>
    readMarkedEntry key value (readMarkupKeys value) :: readMarkedEntries entries

end

/-- The entries of a whole context, marked keys read. -/
def readMarkedContext (context : Entries) : Entries := Entries.ofPairs (readMarkedEntries context)

end MailMerge.Value
