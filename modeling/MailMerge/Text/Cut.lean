/-
  MailMerge.Text.Cut — cutting a text at the first place where a given text stands.
-/

namespace MailMerge.Text

/-- What follows `lead` at the front of the text, if it starts with `lead`. -/
def after? : (lead : List Char) → List Char → Option (List Char)
  | [], cs => some cs
  | _ :: _, [] => none
  | l :: ls, c :: cs => if l = c then after? ls cs else none

/-- The text before and the text after the first occurrence of `mark`. -/
def cutAt (mark : List Char) : List Char → Option (List Char × List Char)
  | [] => (after? mark []).map fun rest => ([], rest)
  | c :: cs =>
    match after? mark (c :: cs) with
    | some rest => some ([], rest)
    | none => (cutAt mark cs).map fun (b, a) => (c :: b, a)

def startsWith (lead cs : List Char) : Bool := (after? lead cs).isSome

/-- Whether `mark` stands anywhere in the text. -/
def contains (mark cs : List Char) : Bool := (cutAt mark cs).isSome

theorem after?_eq_some_iff {lead cs rest : List Char} :
    after? lead cs = some rest ↔ cs = lead ++ rest := by
  induction lead generalizing cs with
  | nil => simp [after?]
  | cons l ls ih =>
    cases cs with
    | nil => simp [after?]
    | cons c cs =>
      simp only [after?, List.cons_append, List.cons.injEq]
      split
      · next h => simp [h, ih]
      · next h => simp [Ne.symm h]

theorem eq_of_cutAt {mark cs b a : List Char} (h : cutAt mark cs = some (b, a)) :
    cs = b ++ mark ++ a := by
  induction cs generalizing b a with
  | nil =>
    obtain ⟨rest, hr, he⟩ := Option.map_eq_some_iff.1 h
    cases he
    simpa using after?_eq_some_iff.1 hr
  | cons c cs ih =>
    simp only [cutAt] at h
    split at h
    · next rest hr => cases h; simpa using after?_eq_some_iff.1 hr
    · obtain ⟨⟨b', a'⟩, hc, he⟩ := Option.map_eq_some_iff.1 h
      cases he
      simp [ih hc]

end MailMerge.Text
