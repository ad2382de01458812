/-
  MailMerge.Text.Read — readings of formal texts, put together from small ones.

  A reading takes something from the front of a text and answers it with the text behind
  it, or it fails. Of two ways the second is tried, on the same text, if the first fails.
  A repetition stops before the first failure; what is repeated takes at least one
  character, so the text itself bounds how often.
-/

import MailMerge.Text.Cut
import MailMerge.Text.Digit

namespace MailMerge.Text

/-- A reading of something at the front of a text. -/
abbrev Read := StateT (List Char) Option

namespace Read

/-- One character of a class. -/
def one (p : Char → Bool) : Read Char
  | [] => none
  | c :: cs => if p c then some (c, cs) else none

/-- This character. -/
def char (c : Char) : Read Unit := do let _ ← one (· == c)

/-- This text. -/
def exactly (lead : List Char) : Read Unit := fun cs => (after? lead cs).map fun rest => ((), rest)

/-- The characters of a class up to the first one that is not in it. -/
def run (p : Char → Bool) : Read (List Char) := fun cs => some (cs.takeWhile p, cs.dropWhile p)

/-- At least one character of a class. -/
def run1 (p : Char → Bool) : Read (List Char) := do
  let first ← one p
  let more ← run p
  pure (first :: more)

/-- So many characters of a class. -/
def times (p : Char → Bool) : Nat → Read (List Char)
  | 0 => pure []
  | n + 1 => do
    let first ← one p
    let more ← times p n
    pure (first :: more)

/-- Something that may be missing. -/
def optional {α : Type} (r : Read α) : Read (Option α) := (some <$> r) <|> pure none

/-- The end of the text. -/
def atEnd : Read Unit
  | [] => some ((), [])
  | _ :: _ => none

/-- Repeats a reading at most as often as the bound has characters. -/
def manyWithin {α : Type} (r : Read α) : (bound : List Char) → Read (List α)
  | [], cs => some ([], cs)
  | _ :: bound, cs =>
    match r cs with
    | none => some ([], cs)
    | some (a, rest) => (manyWithin r bound rest).map fun (as, rest) => (a :: as, rest)

/-- Repeats a reading until it fails. -/
def many {α : Type} (r : Read α) : Read (List α) := fun cs => manyWithin r cs cs

/-- Things with a separator between each two. -/
def separated {α : Type} (r : Read α) (separator : Read Unit) : Read (List α) :=
  (do
    let first ← r
    let more ← many (do separator; r)
    pure (first :: more)) <|> pure []

/-- What the whole text holds, to its last character. -/
def whole {α : Type} (r : Read α) (cs : List Char) : Option α :=
  match r cs with
  | some (a, []) => some a
  | _ => none

end Read

end MailMerge.Text
