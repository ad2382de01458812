/-
  MailMerge.Proofs.Fixture.Split — fixtures split where they are delimited.

  A fixture is written as lines: one with three dashes, those of its document, one more with
  dashes, and then the template, which is any text at all (`written`). All line ends but the
  template's are of one form, and byte order marks may stand before it all. No line of the
  document starts with dashes.

  A program cuts the file at byte offsets: the offset behind the opening dashes, that of the
  closing ones and the one behind them. Cutting beyond the end of a text or inside a character
  is not possible, and would end the program (`cutBytes?`, `splitAtOffsets`).

  Proved: all offsets can be cut at, whatever the file, and the cuts are those of
  `Fixture.split` (`splitAtOffsets_eq`); a fixture whose document has a line at least is read
  as that document and its template, to the last character, and one whose document has none is
  not read (`splits_where_delimited`). For the line end behind the opening dashes is passed over
  before the closing ones are looked for, and these are looked for with the line end before
  them.
-/

import Mathlib.Data.List.Basic
import MailMerge.Fixture.Basic
import MailMerge.Proofs.Toml.LineEnd

namespace MailMerge

/-! ## Cuts at byte offsets -/

namespace Text

/-- The text before a byte offset and the text behind it. Beyond the end of the text and inside
    a character there is nothing to cut at. -/
def cutBytes? : Nat → List Char → Option (List Char × List Char)
  | 0, cs => some ([], cs)
  | _ + 1, [] => none
  | n + 1, c :: cs =>
    if n + 1 < c.utf8Size then none else (cutBytes? (n + 1 - c.utf8Size) cs).map fun (before, after) => (c :: before, after)

/-- The byte offset of the first place where `mark` stands. -/
def offsetOf? (mark : List Char) : List Char → Option Nat
  | [] => if startsWith mark [] then some 0 else none
  | c :: cs => if startsWith mark (c :: cs) then some 0 else (offsetOf? mark cs).map (c.utf8Size + ·)

theorem cutBytes?_append (before after : List Char) :
    cutBytes? (utf8Length before) (before ++ after) = some (before, after) := by
  induction before with
  | nil => cases after <;> rfl
  | cons c before ih =>
    have hpos := c.utf8Size_pos
    obtain ⟨n, hn⟩ : ∃ n, c.utf8Size + utf8Length before = n + 1 := ⟨c.utf8Size + utf8Length before - 1, by omega⟩
    have hrest : n + 1 - c.utf8Size = utf8Length before := by omega
    rw [utf8Length_cons, hn, List.cons_append, cutBytes?, if_neg (by omega), hrest, ih]
    rfl

theorem offsetOf?_eq (mark cs : List Char) : offsetOf? mark cs = (cutAt mark cs).map fun (before, _) => utf8Length before := by
  induction cs with
  | nil => cases h : after? mark [] <;> simp [offsetOf?, cutAt, startsWith, h]
  | cons c cs ih =>
    rw [offsetOf?, cutAt, startsWith]
    cases h : after? mark (c :: cs) with
    | some rest => rfl
    | none =>
      rw [ih]
      cases cutAt mark cs <;> rfl

/-- Where the first character of a mark does not stand, the mark does not begin. -/
theorem cutAt_append {m : Char} {mark before : List Char} (h : m ∉ before) (rest : List Char) :
    cutAt (m :: mark) (before ++ rest) = (cutAt (m :: mark) rest).map fun (b, a) => (before ++ b, a) := by
  induction before with
  | nil =>
    rw [List.nil_append]
    cases cutAt (m :: mark) rest <;> rfl
  | cons c before ih =>
    rw [List.mem_cons, not_or] at h
    have hnone : after? (m :: mark) (c :: (before ++ rest)) = none := if_neg h.1
    rw [List.cons_append, cutAt, hnone, ih h.2]
    cases cutAt (m :: mark) rest <;> rfl

end Text

namespace Fixture

open MailMerge.Text

/-- The two parts of a file, cut at byte offsets; nothing if an offset cannot be cut at. -/
def splitAtOffsets (text : List Char) : Option (Except Fault (List Char × List Char)) :=
  let content := text.dropWhile (· == byteOrderMark)
  if !startsWith dashes content then some (.error .noOpening)
  else do
    let (_, opened) ← cutBytes? 3 content
    let inner := afterLineEnd opened
    match offsetOf? ('\n' :: dashes) inner with
    | none => some (.error .noClosing)
    | some closing => do
      let (front, _) ← cutBytes? closing inner
      let (_, rest) ← cutBytes? (closing + 4) inner
      some (.ok (withoutReturns front, afterLineEnd rest))

/-- Every offset that the file is cut at is one to cut at. -/
theorem splitAtOffsets_eq (text : List Char) : splitAtOffsets text = some (split text) := by
  unfold splitAtOffsets split
  cases hopen : after? dashes (text.dropWhile (· == byteOrderMark)) with
  | none => simp [startsWith, hopen]
  | some opened =>
    have hcontent := after?_eq_some_iff.mp hopen
    have hcut : cutBytes? 3 (text.dropWhile (· == byteOrderMark)) = some (dashes, opened) := by
      rw [hcontent]
      exact cutBytes?_append dashes opened
    simp only [startsWith, hopen, hcut, offsetOf?_eq, Option.isSome_some, Bool.not_true, Bool.false_eq_true, if_false,
      Option.bind_eq_bind, Option.bind_some]
    cases hclose : cutAt ('\n' :: dashes) (afterLineEnd opened) with
    | none => rfl
    | some p =>
      obtain ⟨front, rest⟩ := p
      have hinner := eq_of_cutAt hclose
      have hfront : cutBytes? (utf8Length front) (afterLineEnd opened) = some (front, '\n' :: dashes ++ rest) := by
        rw [hinner, List.append_assoc]
        exact cutBytes?_append front _
      have hrest : cutBytes? (utf8Length front + 4) (afterLineEnd opened) = some (front ++ '\n' :: dashes, rest) := by
        have hlength : utf8Length front + 4 = utf8Length (front ++ '\n' :: dashes) := by
          rw [utf8Length_append]
          rfl
        rw [hinner, hlength]
        exact cutBytes?_append _ rest
      simp only [Option.map_some, hfront, hrest, Option.bind_some]

theorem ofText_of_split {text front template : List Char} (h : split text = .ok (front, template)) :
    ofText (String.ofList text) = (Toml.read? front).elim (.error .notToml) fun pairs => ofParts pairs template := by
  simp only [ofText, String.toList_ofList, h, bind, Except.bind]
  cases Toml.read? front <;> rfl

/-! ## Files as they are written -/

/-- A line of the document, without its line end. -/
structure IsLine (line : List Char) : Prop where
  oneLine : '\n' ∉ line
  /-- A carriage return there would belong to the line end. -/
  clean : Clean line
  plain : ¬ dashes <+: line

/-- Lines with their line ends. -/
def document (lineEnd : List Char) (lines : List (List Char)) : List Char := lines.flatMap (· ++ lineEnd)

/-- A whole file, with so many byte order marks before it. -/
def written (marks : Nat) (lineEnd : List Char) (lines : List (List Char)) (template : List Char) : List Char :=
  List.replicate marks byteOrderMark ++ (dashes ++ (lineEnd ++ (document lineEnd lines ++ (dashes ++ (lineEnd ++ template)))))

section

variable {e : List Char} (he : IsLineEnd e)

include he

theorem afterLineEnd_append (cs : List Char) : afterLineEnd (e ++ cs) = cs := by
  cases he <;> rfl

/-- A line end closes with its line feed. -/
theorem lineEnd_append (rest : List Char) : e ++ rest = e.dropLast ++ '\n' :: rest := by
  cases he <;> rfl

/-- The closing dashes do not begin within a line, but may behind it. -/
theorem cutAt_line {line : List Char} (hline : '\n' ∉ line) (rest : List Char) : cutAt ('\n' :: dashes) (line ++ (e ++ rest)) =
    (cutAt ('\n' :: dashes) ('\n' :: rest)).map fun (b, a) => (line ++ e.dropLast ++ b, a) := by
  have hno : '\n' ∉ line ++ e.dropLast := by
    refine fun hmem => (List.mem_append.mp hmem).elim hline ?_
    cases he <;> decide
  rw [lineEnd_append he, ← List.append_assoc, cutAt_append hno]

theorem after?_dashes_eq_none {line : List Char} (hline : ¬ dashes <+: line) (rest : List Char) :
    after? dashes (line ++ (e ++ rest)) = none := by
  rw [Option.eq_none_iff_forall_ne_some]
  intro after hafter
  have hp : dashes <+: line ++ (e ++ rest) := ⟨after, (after?_eq_some_iff.mp hafter).symm⟩
  rcases List.prefix_or_prefix_of_prefix hp (List.prefix_append line _) with hp' | ⟨more, hmore⟩
  · exact hline hp'
  · -- the line ends within the dashes, so the line end would have to begin with one
    rw [← hmore, List.prefix_append_right_inj] at hp
    cases more with
    | nil =>
      rw [List.append_nil] at hmore
      exact hline (hmore ▸ List.prefix_rfl)
    | cons c more =>
      have hc : c ∈ dashes := hmore ▸ List.mem_append_right line List.mem_cons_self
      have hdash : c = '-' := by simpa [dashes] using hc
      obtain ⟨after, hafter⟩ := hp
      rw [hdash] at hafter
      cases he <;> simp at hafter

theorem withoutReturns_append {front : List Char} (hfront : Clean front) : withoutReturns (front ++ e.dropLast) = front := by
  have hno : withoutReturns front = front := by
    rcases List.eq_nil_or_concat' front with rfl | ⟨init, c, rfl⟩
    · rfl
    · have hc : c ≠ '\r' := fun hc => hfront (by rw [List.getLast?_concat, hc])
      simp [withoutReturns, hc]
  cases he with
  | feed => rw [List.dropLast_singleton, List.append_nil, hno]
  | returned =>
    have hdrop : withoutReturns (front ++ ['\r']) = withoutReturns front := by simp [withoutReturns]
    exact hdrop.trans hno

theorem clean_append_lineEnd (front : List Char) : Clean (front ++ e) := by
  cases he <;> simp [Clean]

/-- Without its last line end a document is clean. -/
theorem document_eq {lines : List (List Char)} (hne : lines ≠ []) (hlines : ∀ line ∈ lines, IsLine line) :
    ∃ front, Clean front ∧ document e lines = front ++ e := by
  obtain ⟨init, last, rfl⟩ := (List.eq_nil_or_concat' lines).resolve_left hne
  refine ⟨document e init ++ last, ?_, by simp [document]⟩
  have hlast := (hlines last (by simp)).clean
  cases last with
  | cons c last => rwa [Clean, List.getLast?_append_of_ne_nil _ (List.cons_ne_nil c last)]
  | nil =>
    rw [List.append_nil]
    rcases List.eq_nil_or_concat' init with rfl | ⟨init, line, rfl⟩
    · exact hlast
    · have hend : document e (init ++ [line]) = document e init ++ line ++ e := by simp [document]
      rw [hend]
      exact clean_append_lineEnd he _

omit he in
theorem document_cons (line : List Char) (lines : List (List Char)) (rest : List Char) :
    document e (line :: lines) ++ rest = line ++ (e ++ (document e lines ++ rest)) := by
  rw [document, List.flatMap_cons, List.append_assoc, List.append_assoc]
  rfl

/-- The dashes are found at the last line end of the document, and not before. -/
theorem cutAt_document {lines : List (List Char)} (hne : lines ≠ []) (hlines : ∀ line ∈ lines, IsLine line) :
    ∃ front, document e lines = front ++ ['\n'] ∧ ∀ rest,
      cutAt ('\n' :: dashes) (document e lines ++ (dashes ++ rest)) = some (front, rest) := by
  induction lines with
  | nil => exact absurd rfl hne
  | cons line lines ih =>
    have hline := (hlines line List.mem_cons_self).oneLine
    cases lines with
    | nil =>
      refine ⟨line ++ e.dropLast, ?_, fun rest => ?_⟩
      · rw [← List.append_nil (document e [line]), document_cons, List.append_assoc, ← lineEnd_append he]
        rfl
      · have hhere : cutAt ('\n' :: dashes) ('\n' :: (dashes ++ rest)) = some ([], rest) := rfl
        rw [document_cons, cutAt_line he hline]
        exact (congrArg _ hhere).trans (congrArg (fun b => some (b, rest)) (List.append_nil _))
    | cons line' lines =>
      obtain ⟨front, hfront, hcut⟩ := ih (List.cons_ne_nil line' lines) fun l hl => hlines l (List.mem_cons_of_mem line hl)
      refine ⟨line ++ e.dropLast ++ '\n' :: front, ?_, fun rest => ?_⟩
      · rw [← List.append_nil (document e (line :: line' :: lines)), document_cons, lineEnd_append he, List.append_nil, hfront]
        simp
      · have hnot : after? dashes (document e (line' :: lines) ++ (dashes ++ rest)) = none := by
          rw [document_cons]
          exact after?_dashes_eq_none he (hlines line' (by simp)).plain _
        have hafter : after? ('\n' :: dashes) ('\n' :: (document e (line' :: lines) ++ (dashes ++ rest))) = none := hnot
        rw [document_cons, cutAt_line he hline, cutAt, hafter, hcut]
        rfl

/-- The closing dashes are looked for from the line behind the opening ones on. -/
theorem split_written (marks : Nat) (lines : List (List Char)) (template : List Char) {cut : Option (List Char × List Char)}
    (hcut : cutAt ('\n' :: dashes) (document e lines ++ (dashes ++ (e ++ template))) = cut) :
    split (written marks e lines template) =
      cut.elim (.error .noClosing) fun (front, rest) => .ok (withoutReturns front, afterLineEnd rest) := by
  have hmarks : (written marks e lines template).dropWhile (· == byteOrderMark) =
      dashes ++ (e ++ (document e lines ++ (dashes ++ (e ++ template)))) := by
    rw [written]
    induction marks with
    | zero => rfl
    | succ marks ih => rw [List.replicate_succ, List.cons_append, List.dropWhile_cons_of_pos (by simp), ih]
  rw [split, hmarks, after?_eq_some_iff.mpr rfl]
  simp only [afterLineEnd_append he, hcut]
  cases cut <;> rfl

theorem ofText_written (marks : Nat) {lines : List (List Char)} (hne : lines ≠ []) (hlines : ∀ line ∈ lines, IsLine line)
    (template : List Char) : ofText (String.ofList (written marks e lines template)) =
      (Toml.read? (document e lines)).elim (.error .notToml) fun pairs => ofParts pairs template := by
  obtain ⟨front, hfront, hcut⟩ := cutAt_document he hne hlines
  obtain ⟨text, htext, hdocument⟩ := document_eq he hne hlines
  have hreturns : withoutReturns front = text := by
    have hend : e = e.dropLast ++ ['\n'] := by rw [← lineEnd_append he, List.append_nil]
    have heq : front ++ ['\n'] = text ++ e.dropLast ++ ['\n'] := by rw [← hfront, hdocument, List.append_assoc, ← hend]
    rw [List.append_cancel_right heq, withoutReturns_append he htext]
  have hsplit : split (written marks e lines template) = .ok (text, template) := by
    rw [split_written he marks lines template (hcut _)]
    change Except.ok (withoutReturns front, afterLineEnd (e ++ template)) = _
    rw [hreturns, afterLineEnd_append he]
  rw [ofText_of_split hsplit, hdocument, Toml.read?_append he htext]

end

theorem exists_of_bind {α β : Type} {first : Except Fault α} {next : α → Except Fault β} {b : β} (h : first >>= next = .ok b) :
    ∃ a, next a = .ok b := by
  cases first with
  | error fault => cases h
  | ok a => exact ⟨a, h⟩

/-- Whatever the document tells, the template is kept as it is. -/
theorem template_of_ofParts {pairs : Toml.Pairs} {template : List Char} {f : Fixture} (h : ofParts pairs template = .ok f) :
    f.template.toList = template := by
  obtain ⟨description, h⟩ := exists_of_bind h
  obtain ⟨context, h⟩ := exists_of_bind h
  obtain ⟨strict, h⟩ := exists_of_bind h
  obtain ⟨wanted, h⟩ := exists_of_bind h
  obtain ⟨unwanted, h⟩ := exists_of_bind h
  obtain ⟨failure, h⟩ := exists_of_bind h
  cases h
  exact String.toList_ofList

/-! ## Files without a line of document -/

/-- Dashes are no document, whatever stands in the lines below them. -/
theorem read?_dashes {rest : List Char} (h : ∀ c ∈ rest.head?, c = '\n' ∨ c = '\r') : Toml.read? (dashes ++ rest) = none := by
  have hline : Toml.line (dashes ++ rest) = none := by
    cases rest with
    | nil => rfl
    | cons c rest => rcases h c rfl with rfl | rfl <;> rfl
  have hlines : Toml.lines (dashes ++ rest) = some ([], dashes ++ rest) := Read.many_of_none hline
  rw [Toml.read?, Read.whole, hlines]
  rfl

theorem withoutReturns_dashes (rest : List Char) : ∃ kept, kept <+: rest ∧ withoutReturns (dashes ++ rest) = dashes ++ kept := by
  refine ⟨withoutReturns rest, ?_, ?_⟩
  · have hsuffix : rest.reverse.dropWhile (· == '\r') <:+ rest.reverse := List.dropWhile_suffix _
    simpa [withoutReturns] using List.reverse_prefix.mpr hsuffix
  · rw [withoutReturns, withoutReturns, List.reverse_append, List.dropWhile_append]
    split
    · next hempty =>
      rw [List.isEmpty_iff.mp hempty]
      rfl
    · rw [List.reverse_append, List.reverse_reverse]

/-- Without a line of document the closing dashes are passed over. -/
theorem ofText_written_nil {e : List Char} (he : IsLineEnd e) (marks : Nat) (template : List Char) :
    ofText (String.ofList (written marks e [] template)) = .error .noClosing ∨
      ofText (String.ofList (written marks e [] template)) = .error .notToml := by
  have hpass : cutAt ('\n' :: dashes) (document e [] ++ (dashes ++ (e ++ template))) =
      (cutAt ('\n' :: dashes) ('\n' :: template)).map fun (b, a) => (dashes ++ e.dropLast ++ b, a) :=
    cutAt_line he (by decide) template
  have hsplit := split_written he marks [] template hpass
  cases hcut : cutAt ('\n' :: dashes) ('\n' :: template) with
  | none =>
    rw [hcut] at hsplit
    refine Or.inl ?_
    rw [ofText, String.toList_ofList, hsplit]
    rfl
  | some p =>
    obtain ⟨before, after⟩ := p
    rw [hcut] at hsplit
    obtain ⟨kept, hkept, hfront⟩ := withoutReturns_dashes (e.dropLast ++ before)
    have hbefore : ∀ c ∈ before.head?, c = '\n' := by
      intro c hc
      obtain ⟨rest, rfl⟩ := List.head?_eq_some_iff.mp hc
      exact (List.cons.inj (eq_of_cutAt hcut)).1.symm
    have hhead : ∀ c ∈ kept.head?, c = '\n' ∨ c = '\r' := by
      intro c hc
      have hfirst : c ∈ (e.dropLast ++ before).head? := by
        obtain ⟨more, hmore⟩ := hkept
        rw [← hmore, List.head?_append, Option.mem_def.mp hc]
        rfl
      cases he with
      | feed => exact Or.inl (hbefore c hfirst)
      | returned => exact Or.inr (Option.some.inj hfirst).symm
    have hread : Toml.read? (withoutReturns (dashes ++ e.dropLast ++ before)) = none := by
      rw [List.append_assoc, hfront]
      exact read?_dashes hhead
    refine Or.inr ?_
    rw [ofText_of_split hsplit, hread]
    rfl

/-! ## Files are split where they are delimited -/

/-- How files are split, and what comes of the one that is written so, where `f` is what its
    document tells and its template. -/
structure SplitWhereDelimited (marks : Nat) (e : List Char) (lines : List (List Char)) (template : List Char) (f : Fixture) :
    Prop where
  /-- No file is cut beyond its end or inside a character. -/
  inside (text : List Char) : splitAtOffsets text = some (split text)
  /-- The end of a document without lines is not seen. -/
  read : ofText (String.ofList (written marks e lines template)) = .ok f ↔ lines ≠ []
  only (g : Fixture) : ofText (String.ofList (written marks e lines template)) = .ok g → g = f
  template : f.template.toList = template

theorem splits_where_delimited {e : List Char} (he : IsLineEnd e) (marks : Nat) {lines : List (List Char)}
    (hlines : ∀ line ∈ lines, IsLine line) (template : List Char) {pairs : Toml.Pairs} {f : Fixture}
    (hread : Toml.read? (document e lines) = some pairs) (hf : ofParts pairs template = .ok f) :
    SplitWhereDelimited marks e lines template f := by
  have hempty : ∀ g, ofText (String.ofList (written marks e [] template)) ≠ .ok g := by
    intro g hg
    rcases ofText_written_nil he marks template with h | h <;> cases h.symm.trans hg
  have hsome : lines ≠ [] → ofText (String.ofList (written marks e lines template)) = .ok f := by
    intro hne
    rw [ofText_written he marks hne hlines template, hread]
    exact hf
  have hne : ∀ g, ofText (String.ofList (written marks e lines template)) = .ok g → lines ≠ [] := by
    rintro g hg rfl
    exact hempty g hg
  exact
    { inside := splitAtOffsets_eq
      read := ⟨hne f, hsome⟩
      only := fun g hg => Except.ok.inj (hg.symm.trans (hsome (hne g hg)))
      template := template_of_ofParts hf }

/-- A fixture with carriage returns and a mark, whose template begins like one more end. -/
theorem context_header_split :
    ofText (String.ofList (written 1 ['\r', '\n'] ["[context]".toList, "# --- ".toList] "\n---\n<w:p/>".toList)) =
      .ok ⟨none, [], false, none, [], none, "\n---\n<w:p/>"⟩ := by
  have hlines : ∀ line ∈ ["[context]".toList, "# --- ".toList], IsLine line := by
    intro line hline
    rcases List.mem_pair.mp hline with rfl | rfl <;> exact ⟨by decide, by decide, by decide⟩
  have hread : Toml.read? (document ['\r', '\n'] ["[context]".toList, "# --- ".toList]) = some [("context", .table .header [])] := rfl
  have hcontext : table [("context", .table .header [])] "context" = .ok [] := by
    simp only [table, List.lookup_cons_self, Toml.Item.entries?]
  have hf : ofParts [("context", .table .header [])] "\n---\n<w:p/>".toList = .ok ⟨none, [], false, none, [], none, "\n---\n<w:p/>"⟩ := by
    rw [ofParts, hcontext]
    rfl
  exact (splits_where_delimited .returned 1 hlines _ hread hf).read.mpr (List.cons_ne_nil _ _)

/-- A document without lines is one that tells nothing, but a file with it has no closing dashes. -/
theorem empty_document_unread : Toml.read? [] = some [] ∧
    ofParts [] "<w:p/>".toList = .ok ⟨none, [], false, none, [], none, "<w:p/>"⟩ ∧
    written 0 ['\n'] [] "<w:p/>".toList = "---\n---\n<w:p/>".toList ∧ ofText "---\n---\n<w:p/>" = .error .noClosing :=
  ⟨rfl, rfl, by decide, rfl⟩

end Fixture

end MailMerge
