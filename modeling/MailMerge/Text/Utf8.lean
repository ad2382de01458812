/-
  MailMerge.Text.Utf8 — positions in a text, counted in the bytes of its UTF-8 form.

  Spans of nodes and fields are byte offsets. Reports show lines, so an offset is turned
  into the number of the line that holds it and the column of its character.
-/

namespace MailMerge.Text

/-- How many bytes the text takes in UTF-8. -/
def utf8Length : List Char → Nat
  | [] => 0
  | c :: cs => c.utf8Size + utf8Length cs

@[simp] theorem utf8Length_nil : utf8Length [] = 0 := rfl

@[simp] theorem utf8Length_cons (c : Char) (cs : List Char) :
    utf8Length (c :: cs) = c.utf8Size + utf8Length cs := rfl

@[simp] theorem utf8Length_append (a b : List Char) :
    utf8Length (a ++ b) = utf8Length a + utf8Length b := by
  induction a with
  | nil => simp
  | cons c a ih => simp [ih, Nat.add_assoc]

/-- The text before the byte offset, all of it if it ends sooner. Inside a character there
    is nothing to cut at. -/
def cutBefore? : Nat → List Char → Option (List Char)
  | 0, _ => some []
  | _ + 1, [] => some []
  | n + 1, c :: cs =>
    if n + 1 < c.utf8Size then none else (cutBefore? (n + 1 - c.utf8Size) cs).map (c :: ·)

/-- The number, counted from 1, of the line that holds the byte offset. -/
def lineAt? (offset : Nat) (cs : List Char) : Option Nat :=
  (cutBefore? offset cs).map fun before => before.count '\n' + 1

/-- The byte order mark, which a text may start with and which is no part of it. -/
def byteOrderMark : Char := Char.ofNat 0xFEFF

end MailMerge.Text
