/-
  MailMerge.Markup.Piece — the pieces a markup text is made of.

  A text is cut into pieces from left to right: character data up to the next `<`, and
  what a `<` begins, by the character behind it. A tag ends at the first `>` outside
  quotes, a comment at `-->`, a CDATA section at `]]>`, an instruction at `?>`, and a
  document type at the first `>` whose angle brackets before it are balanced. Every piece
  keeps what it was written with (`source`), so the pieces laid end to end are the text
  again, and each has its span.
-/

import MailMerge.Markup.Attribute
import MailMerge.Tree.Basic

namespace MailMerge.Markup

open MailMerge.Text

inductive Piece where
  /-- Character data, as written. -/
  | data (raw : List Char)
  /-- `<content>` -/
  | opening (content : List Char)
  /-- `<content/>` -/
  | closed (content : List Char)
  /-- `</content>` -/
  | closing (content : List Char)
  /-- `<![CDATA[body]]>` -/
  | cdata (body : List Char)
  /-- `<!--body-->` -/
  | comment (body : List Char)
  /-- `<?body?>` -/
  | instruction (body : List Char)
  /-- `<!` keyword body `>`; the keyword is DOCTYPE in any case. -/
  | doctype (keyword body : List Char)
  deriving DecidableEq, Repr

/-! ## Fixed parts of markup -/

def cdataKeyword : List Char := ['C', 'D', 'A', 'T', 'A', '[']

def cdataEnd : List Char := [']', ']', '>']

def commentEnd : List Char := ['-', '-', '>']

def instructionEnd : List Char := ['?', '>']

def doctypeKeyword : List Char := ['D', 'O', 'C', 'T', 'Y', 'P', 'E']

namespace Piece

/-- The piece as it stands in its text. -/
def source : Piece → List Char
  | data raw => raw
  | opening content => '<' :: content ++ ['>']
  | closed content => '<' :: content ++ ['/', '>']
  | closing content => '<' :: '/' :: content ++ ['>']
  | cdata body => '<' :: '!' :: '[' :: cdataKeyword ++ body ++ cdataEnd
  | comment body => '<' :: '!' :: '-' :: '-' :: body ++ commentEnd
  | instruction body => '<' :: '?' :: body ++ instructionEnd
  | doctype keyword body => '<' :: '!' :: keyword ++ body ++ ['>']

end Piece

/-- Why no piece can be cut from the front of a text. -/
inductive CutFault where
  | unknownMarkup
  | openCdata
  | openComment
  | openDoctype
  | openInstruction
  | openTag
  | namelessDoctype
  deriving DecidableEq, Repr

namespace CutFault

def message : CutFault → String
  | unknownMarkup => "syntax error: unknown or missed symbol in markup"
  | openCdata => "syntax error: CDATA not closed: `]]>` not found before end of input"
  | openComment => "syntax error: comment not closed: `-->` not found before end of input"
  | openDoctype => "syntax error: DOCTYPE not closed: `>` not found before end of input"
  | openInstruction =>
    "syntax error: processing instruction or xml declaration not closed: `?>` not found before end of input"
  | openTag => "syntax error: tag not closed: `>` not found before end of input"
  | namelessDoctype =>
    "ill-formed document: `<!DOCTYPE>` declaration does not contain a name of a document type"

end CutFault

/-- A fault, and how many bytes had been read when it showed. -/
abbrev CutFailure := CutFault × Nat

/-! ## Where markup ends -/

/-- Splits at the first `>` outside quotes; `quote` is the quote that is open. -/
def tagEnd : (quote : Option Char) → List Char → Option (List Char × List Char)
  | _, [] => none
  | none, c :: cs =>
    if c = '>' then some ([], cs)
    else
      (tagEnd (if c = '"' ∨ c = '\'' then some c else none) cs).map fun (b, a) => (c :: b, a)
  | some q, c :: cs =>
    (tagEnd (if c = q then none else some q) cs).map fun (b, a) => (c :: b, a)

/-- Splits at the first `>` that closes no earlier `<`; `depth` of them are open. -/
def doctypeEnd : (depth : Nat) → List Char → Option (List Char × List Char)
  | _, [] => none
  | 0, '>' :: cs => some ([], cs)
  | depth, c :: cs =>
    (doctypeEnd (if c = '<' then depth + 1 else if c = '>' then depth - 1 else depth) cs).map
      fun (b, a) => (c :: b, a)

/-! ## One piece -/

/-- What `<!` begins; `whole` is the text from its `<` on. -/
def cutBang (whole : List Char) : List Char → Except CutFailure (Piece × List Char)
  | '[' :: cs =>
    match cutAt cdataEnd cs with
    | none => .error (.openCdata, utf8Length whole)
    | some (b, rest) =>
      match after? cdataKeyword b with
      | some body => .ok (.cdata body, rest)
      | none => .error (.openCdata, utf8Length whole - utf8Length rest)
  | '-' :: cs =>
    match cs with
    | [] => .error (.openComment, utf8Length whole)
    | c :: cs =>
      match cutAt commentEnd cs with
      | none => .error (.openComment, utf8Length whole)
      | some (body, rest) =>
        if c = '-' then .ok (.comment body, rest)
        else .error (.openComment, utf8Length whole - utf8Length rest)
  | c :: cs =>
    if c = 'D' ∨ c = 'd' then
      match doctypeEnd 0 (c :: cs) with
      | none => .error (.openDoctype, utf8Length whole)
      | some (content, rest) =>
        let keyword := content.take 7
        let body := content.drop 7
        if keyword.map Char.toUpper = doctypeKeyword then
          if body.all isSpace then .error (.namelessDoctype, utf8Length whole - utf8Length rest)
          else .ok (.doctype keyword body, rest)
        else .error (.openDoctype, utf8Length whole - utf8Length rest)
    else .error (.unknownMarkup, 1)
  | [] => .error (.unknownMarkup, 1)

/-- What `<?` begins. -/
def cutInstruction (whole : List Char) : List Char → Except CutFailure (Piece × List Char)
  | '>' :: _ => .error (.openInstruction, 3)
  | cs =>
    match cutAt instructionEnd cs with
    | some (body, rest) => .ok (.instruction body, rest)
    | none => .error (.openInstruction, utf8Length whole)

/-- A tag without its `<`. -/
def cutTag (whole : List Char) (cs : List Char) : Except CutFailure (Piece × List Char) :=
  match tagEnd none cs with
  | none => .error (.openTag, utf8Length whole)
  | some ('/' :: name, rest) => .ok (.closing name, rest)
  | some (content, rest) =>
    if content.getLast? = some '/' then .ok (.closed content.dropLast, rest)
    else .ok (.opening content, rest)

/-- The first piece of a text, and the text behind it. -/
def cutPiece (cs : List Char) : Except CutFailure (Piece × List Char) :=
  match cs with
  | '<' :: '!' :: rest => cutBang cs rest
  | '<' :: '?' :: rest => cutInstruction cs rest
  | '<' :: rest => cutTag cs rest
  | _ => .ok (.data (cs.takeWhile (· != '<')), cs.dropWhile (· != '<'))

/-! ## Nothing is lost -/

theorem eq_of_tagEnd {quote : Option Char} {cs b a : List Char}
    (h : tagEnd quote cs = some (b, a)) : cs = b ++ '>' :: a := by
  induction cs generalizing quote b a with
  | nil => cases quote <;> simp [tagEnd] at h
  | cons c cs ih =>
    cases quote with
    | none =>
      simp only [tagEnd] at h
      split at h
      · next hc => cases h; simp [hc]
      · obtain ⟨⟨b', a'⟩, hb, he⟩ := Option.map_eq_some_iff.1 h
        cases he
        simp [ih hb]
    | some q =>
      simp only [tagEnd] at h
      obtain ⟨⟨b', a'⟩, hb, he⟩ := Option.map_eq_some_iff.1 h
      cases he
      simp [ih hb]

theorem eq_of_doctypeEnd {depth : Nat} {cs b a : List Char}
    (h : doctypeEnd depth cs = some (b, a)) : cs = b ++ '>' :: a := by
  fun_induction doctypeEnd depth cs generalizing b a with
  | case1 => cases h
  | case2 => cases h; rfl
  | case3 depth c cs _ ih =>
    obtain ⟨⟨b', a'⟩, hb, he⟩ := Option.map_eq_some_iff.1 h
    cases he
    simp [ih hb]

theorem eq_of_cutBang {whole cs rest : List Char} {p : Piece}
    (h : cutBang whole cs = .ok (p, rest)) : '<' :: '!' :: cs = p.source ++ rest := by
  unfold cutBang at h
  split at h
  · split at h
    · simp at h
    · next b a hc =>
      split at h
      · next body hb =>
        simp only [Except.ok.injEq, Prod.mk.injEq] at h
        obtain ⟨rfl, rfl⟩ := h
        rw [eq_of_cutAt hc, after?_eq_some_iff.1 hb]
        simp [Piece.source]
      · simp at h
  · split at h
    · simp at h
    · split at h
      · simp at h
      · next body a hc =>
        split at h
        · next hd =>
          simp only [Except.ok.injEq, Prod.mk.injEq] at h
          obtain ⟨rfl, rfl⟩ := h
          rw [eq_of_cutAt hc, hd]
          simp [Piece.source]
        · simp at h
  · split at h
    · split at h
      · simp at h
      · next content a hc =>
        dsimp only at h
        split at h
        · split at h
          · simp at h
          · simp only [Except.ok.injEq, Prod.mk.injEq] at h
            obtain ⟨rfl, rfl⟩ := h
            rw [eq_of_doctypeEnd hc]
            simp only [Piece.source, List.cons_append, List.append_assoc]
            rw [← List.append_assoc (content.take 7), List.take_append_drop]
            rfl
        · simp at h
    · simp at h
  · simp at h

theorem eq_of_cutInstruction {whole cs rest : List Char} {p : Piece}
    (h : cutInstruction whole cs = .ok (p, rest)) : '<' :: '?' :: cs = p.source ++ rest := by
  unfold cutInstruction at h
  split at h
  · simp at h
  · split at h
    · next body a hc =>
      simp only [Except.ok.injEq, Prod.mk.injEq] at h
      obtain ⟨rfl, rfl⟩ := h
      rw [eq_of_cutAt hc]
      simp [Piece.source]
    · simp at h

theorem eq_of_cutTag {whole cs rest : List Char} {p : Piece}
    (h : cutTag whole cs = .ok (p, rest)) : '<' :: cs = p.source ++ rest := by
  unfold cutTag at h
  split at h
  · simp at h
  · next name a hc =>
    simp only [Except.ok.injEq, Prod.mk.injEq] at h
    obtain ⟨rfl, rfl⟩ := h
    rw [eq_of_tagEnd hc]
    simp [Piece.source]
  · next content a _ hc =>
    rw [eq_of_tagEnd hc]
    split at h
    · next hl =>
      simp only [Except.ok.injEq, Prod.mk.injEq] at h
      obtain ⟨rfl, rfl⟩ := h
      have hs : content.dropLast ++ ['/'] = content := by
        have hne : content ≠ [] := by intro hn; simp [hn] at hl
        have := List.dropLast_concat_getLast hne
        rw [List.getLast?_eq_some_getLast hne] at hl
        simp only [Option.some.injEq] at hl
        rwa [hl] at this
      conv => lhs; rw [← hs]
      simp [Piece.source]
    · simp only [Except.ok.injEq, Prod.mk.injEq] at h
      obtain ⟨rfl, rfl⟩ := h
      simp [Piece.source]

/-- A piece and what follows it are the text. -/
theorem eq_of_cutPiece {cs rest : List Char} {p : Piece} (h : cutPiece cs = .ok (p, rest)) :
    cs = p.source ++ rest := by
  unfold cutPiece at h
  split at h
  · exact eq_of_cutBang h
  · exact eq_of_cutInstruction h
  · exact eq_of_cutTag h
  · simp only [Except.ok.injEq, Prod.mk.injEq] at h
    obtain ⟨rfl, rfl⟩ := h
    simp [Piece.source, List.takeWhile_append_dropWhile]

theorem cutBang_ne_data (whole cs rest raw : List Char) :
    cutBang whole cs ≠ .ok (.data raw, rest) := by
  unfold cutBang
  dsimp only
  repeat' split
  all_goals simp only [ne_eq, reduceCtorEq, not_false_eq_true, Except.ok.injEq, Prod.mk.injEq,
    false_and]

theorem cutInstruction_ne_data (whole cs rest raw : List Char) :
    cutInstruction whole cs ≠ .ok (.data raw, rest) := by
  unfold cutInstruction
  repeat' split
  all_goals simp only [ne_eq, reduceCtorEq, not_false_eq_true, Except.ok.injEq, Prod.mk.injEq,
    false_and]

theorem cutTag_ne_data (whole cs rest raw : List Char) :
    cutTag whole cs ≠ .ok (.data raw, rest) := by
  unfold cutTag
  repeat' split
  all_goals simp only [ne_eq, reduceCtorEq, not_false_eq_true, Except.ok.injEq, Prod.mk.injEq,
    false_and]

theorem source_ne_nil_of_cutPiece {cs rest : List Char} {p : Piece} (hne : cs ≠ [])
    (h : cutPiece cs = .ok (p, rest)) : p.source ≠ [] := by
  cases p with
  | data raw =>
    unfold cutPiece at h
    split at h
    · exact (cutBang_ne_data _ _ _ _ h).elim
    · exact (cutInstruction_ne_data _ _ _ _ h).elim
    · exact (cutTag_ne_data _ _ _ _ h).elim
    · next h1 h2 h3 =>
      simp only [Except.ok.injEq, Prod.mk.injEq, Piece.data.injEq] at h
      cases cs with
      | nil => exact absurd rfl hne
      | cons c cs =>
        have hc : c ≠ '<' := fun he => h3 cs (by rw [he])
        simp [Piece.source, ← h.1, hc]
  | _ => simp [Piece.source]

theorem cutPiece_shrinks {cs rest : List Char} {p : Piece} (hne : cs ≠ [])
    (h : cutPiece cs = .ok (p, rest)) : rest.length < cs.length := by
  have h1 := eq_of_cutPiece h
  have h2 := source_ne_nil_of_cutPiece hne h
  have h3 := List.length_pos_iff.2 h2
  rw [h1, List.length_append]
  omega

/-! ## All pieces -/

structure Placed where
  piece : Piece
  span : Span
  deriving DecidableEq, Repr

/-- The pieces of a text that begins at byte `pos`, and the fault that ended the cutting,
    if one did, with the span it concerns. -/
def piecesFrom (pos : Nat) (cs : List Char) : List Placed × Option (CutFault × Span) :=
  if _hne : cs = [] then ([], none)
  else
    match _h : cutPiece cs with
    | .error (fault, read) => ([], some (fault, ⟨pos, pos + read⟩))
    | .ok (piece, rest) =>
      let stop := pos + utf8Length piece.source
      let (more, fault) := piecesFrom stop rest
      (⟨piece, ⟨pos, stop⟩⟩ :: more, fault)
termination_by cs.length
decreasing_by exact cutPiece_shrinks _hne _h

/-- The pieces of a whole text. A byte order mark in front of it is no part of it. -/
def pieces (cs : List Char) : List Placed × Option (CutFault × Span) :=
  match cs with
  | c :: rest => if c = byteOrderMark then piecesFrom 0 rest else piecesFrom 0 cs
  | [] => ([], none)

end MailMerge.Markup
