/-
  MailMerge.Proofs.Toml.LineEnd — a TOML document does not need its last line end.

  Nothing in a line reaches into the line end that closes the document: what stands in one
  line never takes it, and what goes on over several lines fails without its closing mark,
  which then does not come any more. So the readings of all values are even, with the texts in
  three quotes as the one case that needs its mark (`multiline_even`), and a document with the
  line end has one empty line more at most.

  Proved: a document with a line end behind it reads as the document (`read?_append`).
-/

import Mathlib.Data.List.TakeWhile
import MailMerge.Proofs.Text.LineEnd
import MailMerge.Toml.Reader

namespace MailMerge.Toml

open MailMerge.Text MailMerge.Text.Read

variable {e : List Char}

/-! ## Line ends, space and comments -/

theorem inline_isSpace : Inline isSpace := ⟨rfl, rfl⟩

theorem inline_isPrinted : Inline isPrinted := ⟨rfl, rfl⟩

theorem inline_isBasic : Inline isBasic := ⟨rfl, rfl⟩

theorem inline_isLiteral : Inline isLiteral := ⟨rfl, rfl⟩

theorem inline_isDigit (base : Nat) : Inline (isDigit base) := ⟨rfl, rfl⟩

theorem takes_lineEnd : Takes 1 lineEnd := (Takes.char _).orElse ((Takes.exactly _).mono (by decide))

theorem takes_space : Takes 0 space := (Takes.run _).bind fun _ => .pure ()

theorem takes_spaces : Takes 1 (do let _ ← Read.run1 isSpace) := (Takes.run1 _).bind fun _ => .pure ()

theorem takes_unlessNext (c : Char) : Takes 0 (unlessNext c) := by
  intro cs a rest h
  cases cs with
  | nil => cases h
  | cons d cs =>
    rw [unlessNext] at h
    split at h
    · cases h
    · cases h
      exact ⟨List.suffix_refl _, Nat.le_refl _⟩

theorem takes_innerLineEnd : Takes 1 innerLineEnd := takes_lineEnd.bind fun _ => .pure _

theorem takes_innerQuotes (quote : Char) : Takes 1 (innerQuotes quote) := by
  have htwo : Takes 2 (do exactly [quote, quote]; unlessNext quote; pure [quote, quote]) :=
    (Takes.exactly _).bind fun _ => (takes_unlessNext quote).bind fun _ => .pure _
  exact (htwo.mono (by decide)).orElse ((Takes.char _).bind fun _ => (takes_unlessNext quote).bind fun _ => .pure _)

theorem takes_comment : Takes 1 comment := (Takes.char _).bind fun _ => (Takes.run _).bind fun _ => .pure ()

theorem lineEnd_self (he : IsLineEnd e) : lineEnd e = some ((), []) := by
  cases he <;> rfl

theorem lineEnd_evenOn : EvenOn (· ≠ []) e lineEnd := by
  refine ((EvenOn.one_of_ne_nil _).bind fun _ => .pure ()).orElse ⟨(Takes.exactly _).mono (Nat.zero_le _), ?_⟩
  intro cs hcs hne
  cases cs with
  | nil => exact absurd rfl hne
  | cons c cs =>
    by_cases hc : '\r' = c
    · subst hc
      cases cs with
      | nil => exact absurd rfl hcs
      | cons d cs =>
        by_cases hd : '\n' = d
        · subst hd
          exact .leaves rfl rfl
        · exact .fails (by simp [exactly, after?, hd]) (by simp [exactly, after?, hd])
    · exact .fails (by simp [exactly, after?, hc]) (by simp [exactly, after?, hc])

theorem unlessNext_evenOn (c : Char) : EvenOn (· ≠ []) e (unlessNext c) where
  takes := takes_unlessNext c
  even {cs} _ hne := by
    cases cs with
    | nil => exact absurd rfl hne
    | cons d cs =>
      by_cases hd : d = c
      · exact .fails (if_pos hd) (if_pos hd)
      · exact .leaves (if_neg hd) (if_neg hd)

theorem innerLineEnd_evenOn : EvenOn (· ≠ []) e innerLineEnd := lineEnd_evenOn.bind fun _ => .pure _

/-- A line end that may be missing, where nobody asks. -/
theorem optional_lineEnd_even {α : Type} (he : IsLineEnd e) {r : Read α} (hr : Even e r) :
    Even e (do let _ ← Read.optional lineEnd; r) := by
  have hself : Read.optional lineEnd e = some (some (), []) := by
    cases he <;> rfl
  exact (lineEnd_evenOn.optional.bind fun _ => hr).of_ne_nil (.of_nil hr.takes (bind_of_some rfl) (bind_of_some hself))

/-- The end of a line is the end of the text as well. -/
theorem lineEnd_or_atEnd_even (he : IsLineEnd e) : Even e (lineEnd <|> atEnd) :=
  (lineEnd_evenOn.orElse .atEnd).of_ne_nil (.ends rfl (orElse_of_some (lineEnd_self he)))

section

variable (he : IsLineEnd e)

include he

theorem space_even : Even e space := (Even.run he inline_isSpace).bind fun _ => .pure ()

theorem comment_even : Even e comment :=
  (Even.char he (by decide)).bind fun _ => (Even.run he inline_isPrinted).bind fun _ => .pure ()

theorem spaces_even : Even e (do let _ ← Read.run1 isSpace) := (Even.run1 he inline_isSpace).bind fun _ => .pure ()

theorem gap_even : Even e gap :=
  EvenOn.skip ((spaces_even he).on.orElse (lineEnd_evenOn.orElse (comment_even he).on))
    (takes_spaces.orElse (takes_lineEnd.orElse takes_comment)) (by cases he <;> rfl : _ = some ((), [])) (.pure ())

/-! ## Escapes -/

theorem coded_even {mark : Char} (hmark : mark ≠ '\n' ∧ mark ≠ '\r') (count : Nat) : Even e (coded mark count) :=
  (Even.char he hmark).bind fun _ => (Even.times he (inline_isDigit 16) count).bind fun _ => .ite (.pure _) .failure

/-- No line end is the name of a character. -/
theorem named_even : Even e named := by
  refine EvenOn.of_ne_nil ((EvenOn.one_of_ne_nil _).bind fun name => ?_) (.fails rfl (by cases he <;> rfl))
  cases escapes.lookup name with
  | none => exact .failure
  | some c => exact .pure c

theorem escape_even : Even e escape :=
  (Even.char he (by decide)).bind fun _ => (coded_even he (by decide) 4).orElse ((coded_even he (by decide) 8).orElse (named_even he))

theorem takes_escape : Takes 1 escape :=
  (Takes.char _).bind fun _ => ((coded_even he (by decide) 4).orElse ((coded_even he (by decide) 8).orElse (named_even he))).takes

/-! ## Texts in one line -/

theorem basic_even : Even e basic :=
  (Even.char he (by decide)).bind fun _ =>
    Even.many_bind ((Even.one he inline_isBasic).orElse (escape_even he)) ((Takes.one _).orElse (takes_escape he)) fun _ =>
      (Even.char he (by decide)).bind fun _ => .pure _

theorem literal_even : Even e literal :=
  (Even.char he (by decide)).bind fun _ => (Even.run he inline_isLiteral).bind fun _ =>
    (Even.char he (by decide)).bind fun _ => .pure _

/-! ## Texts in several lines -/

/-- Lines are joined only where the text goes on behind them. -/
theorem joinedLines_evenOn : EvenOn ('"' ∈ ·) e joinedLines := by
  have hlines : EvenOn (· ≠ []) e (lineEnd <|> (do let _ ← Read.run1 isSpace)) := lineEnd_evenOn.orElse (spaces_even he).on
  have hself : (lineEnd <|> (do let _ ← Read.run1 isSpace)) e = some ((), []) := orElse_of_some (lineEnd_self he)
  refine (Even.char he (by decide)).on.bindOn (Q := ('"' ∈ ·)) ?_ fun _ => ?_
  · intro cs _ rest hmem h
    obtain rfl := char_eq_some h
    exact (List.mem_cons.mp hmem).resolve_left (by decide)
  refine (space_even he).on.bindOn (Q := (· ≠ [])) ?_ fun _ => ?_
  · intro cs _ rest hmem h
    cases h
    intro hnil
    have hspace := List.dropWhile_eq_nil_iff.mp hnil '"' hmem
    exact absurd hspace (by decide)
  exact lineEnd_evenOn.bind fun _ => hlines.skip (takes_lineEnd.orElse takes_spaces) hself (.pure _)

omit he in
theorem takes_joinedLines : Takes 1 joinedLines :=
  (Takes.char _).bind fun _ => takes_space.bind fun _ => (takes_lineEnd.mono (Nat.zero_le 1)).bind fun _ =>
    (Takes.many ((takes_lineEnd.orElse takes_spaces).mono (Nat.zero_le 1))).bind fun _ => .pure _

section

variable {quote : Char} (hquote : quote ≠ '\n' ∧ quote ≠ '\r')

include hquote

theorem quotes_even (n : Nat) : Even e (exactly (List.replicate n quote)) :=
  Even.exactly he ⟨fun h => hquote.1 (List.eq_of_mem_replicate h).symm, fun h => hquote.2 (List.eq_of_mem_replicate h).symm⟩

theorem innerQuotes_evenOn : EvenOn (3 ≤ List.count quote ·) e (innerQuotes quote) := by
  -- behind so few quotes there are more to come
  have hstep : ∀ n < 3, ∀ {rest : List Char}, 3 ≤ (List.replicate n quote ++ rest).count quote → rest ≠ [] := by
    rintro n hn rest h rfl
    rw [List.append_nil, List.count_replicate_self] at h
    omega
  refine EvenOn.orElse ((quotes_even he hquote 2).on.bindOn (Q := (· ≠ [])) ?_ fun _ => (unlessNext_evenOn quote).bind fun _ => .pure _)
    ((Even.char he hquote).on.bindOn (Q := (· ≠ [])) ?_ fun _ => (unlessNext_evenOn quote).bind fun _ => .pure _)
  · intro cs _ rest hcount h
    obtain rfl := exactly_eq_some h
    exact hstep 2 (by decide) hcount
  · intro cs _ rest hcount h
    obtain rfl := char_eq_some h
    exact hstep 1 (by decide) hcount

theorem closingQuotes_even : Even e (closingQuotes quote) :=
  ((quotes_even he hquote 5).bind fun _ => .pure _).orElse
    (((quotes_even he hquote 4).bind fun _ => .pure _).orElse ((quotes_even he hquote 3).bind fun _ => .pure _))

omit he hquote in
theorem closingQuotes_eq_none {cs : List Char} (h : ¬ 3 ≤ cs.count quote) : closingQuotes quote cs = none := by
  have hfails : ∀ n ≥ 3, exactly (List.replicate n quote) cs = none := by
    intro n hn
    cases hr : exactly (List.replicate n quote) cs with
    | none => rfl
    | some p =>
      obtain rfl := exactly_eq_some hr
      rw [List.count_append, List.count_replicate_self] at h
      omega
  exact (orElse_of_none (bind_of_none (hfails 5 (by decide)))).trans
    ((orElse_of_none (bind_of_none (hfails 4 (by decide)))).trans (bind_of_none (hfails 3 (by decide))))

/-- Without three more quotes the text has no end; with them, its pieces stand before it. -/
theorem multiline_even {piece : Read (List Char)} (hp : EvenOn (3 ≤ List.count quote ·) e piece) (ht : Takes 1 piece) :
    Even e (multiline quote piece) := by
  have hsome : ∀ cs : List Char, 3 ≤ cs.count quote → cs ≠ [] := by
    rintro cs h rfl
    exact absurd h (Nat.not_succ_le_zero 2)
  have hpieces : EvenOn (3 ≤ List.count quote ·) e (piece <|> innerLineEnd <|> innerQuotes quote) :=
    hp.orElse ((innerLineEnd_evenOn.mono hsome).orElse (innerQuotes_evenOn he hquote))
  have htakes : Takes 1 (piece <|> innerLineEnd <|> innerQuotes quote) :=
    ht.orElse (takes_innerLineEnd.orElse (takes_innerQuotes quote))
  have hnone : e.count quote = 0 := List.count_eq_zero.mpr fun hmem => by
    cases he <;> simp_all
  refine (quotes_even he hquote 3).bind fun _ => optional_lineEnd_even he ?_
  refine hpieces.many_bind htakes (fun _ => (closingQuotes_even he hquote).bind fun _ => .pure _) ?_ ?_ ?_
  · exact fun _ _ h => bind_of_none (closingQuotes_eq_none h)
  · exact fun hs h => Nat.le_trans h (hs.sublist.count_le quote)
  · intro cs h
    rwa [List.count_append, hnone] at h

end

/-! ## Texts in quotes, and keys -/

theorem multilineBasic_even : Even e multilineBasic := by
  have hmem : ∀ cs : List Char, 3 ≤ cs.count '"' → '"' ∈ cs := fun cs h => List.count_pos_iff.mp (Nat.lt_of_lt_of_le (by decide) h)
  exact multiline_even he (by decide)
    ((Even.run1 he inline_isBasic).on.orElse (((joinedLines_evenOn he).mono hmem).orElse ((escape_even he).bind fun _ => .pure _).on))
    ((Takes.run1 _).orElse (takes_joinedLines.orElse ((takes_escape he).bind fun _ => .pure _)))

theorem multilineLiteral_even : Even e multilineLiteral :=
  multiline_even he (by decide) (Even.run1 he inline_isLiteral).on (Takes.run1 _)

theorem quoted_even : Even e quoted :=
  (multilineBasic_even he).orElse ((basic_even he).orElse ((multilineLiteral_even he).orElse (literal_even he)))

theorem simpleKey_even : Even e simpleKey :=
  (basic_even he).orElse ((literal_even he).orElse (Even.run1 he ⟨rfl, rfl⟩).map)

theorem dottedKey_even : Even e dottedKey := by
  have hkey : Even e (do space; let key ← simpleKey; space; pure key) :=
    (space_even he).bind fun _ => (simpleKey_even he).bind fun _ => (space_even he).bind fun _ => .pure _
  refine (hkey.separated (Even.char he (by decide)) (Takes.char _)).bind fun keys => ?_
  split
  · exact .failure
  · exact .ite (.pure _) .failure

/-! ## Numbers -/

theorem grouped_even (base : Nat) : Even e (grouped base) := by
  have hdigit := Even.one he (inline_isDigit base)
  exact hdigit.bind fun _ =>
    Even.many_bind (hdigit.orElse ((Even.char he (by decide)).bind fun _ => hdigit))
      ((Takes.one _).orElse ((Takes.char _).bind fun _ => (Takes.one _).mono (Nat.zero_le 1))) fun _ => .pure _

theorem wholeDigits_even : Even e wholeDigits := ((Even.char he (by decide)).bind fun _ => .pure _).orElse (grouped_even he 10)

theorem sign_even : Even e sign := (Even.one he ⟨rfl, rfl⟩).optional.bind fun _ => .pure _

theorem fraction_even : Even e fraction := (Even.char he (by decide)).bind fun _ => grouped_even he 10

theorem exponent_even : Even e exponent :=
  (Even.one he ⟨rfl, rfl⟩).bind fun _ => (sign_even he).bind fun _ => (grouped_even he 10).bind fun _ => .pure _

theorem decimalFloat_even : Even e decimalFloat := by
  refine (sign_even he).bind fun negative => (wholeDigits_even he).bind fun whole => (fraction_even he).optional.bind fun fraction =>
    (exponent_even he).optional.bind fun exponent => ?_
  refine .ite (EvenOn.failure.bind fun _ => ?_) ?_
  all_goals
    split
    · exact .pure _
    · exact .ite (.pure _) .failure

theorem specialFloat_even : Even e specialFloat :=
  (sign_even he).bind fun _ =>
    ((Even.exactly he (by decide)).bind fun _ => .pure _).orElse ((Even.exactly he (by decide)).bind fun _ => .pure _)

theorem decimalInteger_even : Even e decimalInteger :=
  (sign_even he).bind fun _ => (wholeDigits_even he).bind fun _ =>
    .ite (.ite (.pure _) .failure) (.ite (.pure _) .failure)

theorem basedInteger_even {mark : Char} (hmark : mark ≠ '\n' ∧ mark ≠ '\r') (base : Nat) : Even e (basedInteger mark base) :=
  (Even.exactly he (by simp [hmark.1.symm, hmark.2.symm])).bind fun _ => (grouped_even he base).bind fun _ => .ite (.pure _) .failure

theorem integer_even : Even e integer :=
  (basedInteger_even he (by decide) 16).orElse ((basedInteger_even he (by decide) 8).orElse
    ((basedInteger_even he (by decide) 2).orElse (decimalInteger_even he)))

theorem boolean_even : Even e boolean :=
  ((Even.exactly he (by decide)).bind fun _ => .pure _).orElse ((Even.exactly he (by decide)).bind fun _ => .pure _)

/-! ## Moments -/

theorem twoDigits_even (low high : Nat) : Even e (twoDigits low high) :=
  (Even.times he (inline_isDigit 10) 2).bind fun _ => .ite (.pure _) .failure

theorem date_even : Even e date :=
  (Even.times he (inline_isDigit 10) 4).bind fun _ => (Even.char he (by decide)).bind fun _ =>
    (twoDigits_even he _ _).bind fun _ => (Even.char he (by decide)).bind fun _ => (twoDigits_even he _ _).bind fun _ => .pure _

theorem secondFraction_even : Even e secondFraction :=
  (Even.char he (by decide)).bind fun _ => (Even.run1 he (inline_isDigit 10)).bind fun _ => .pure _

theorem time_even : Even e time :=
  (twoDigits_even he _ _).bind fun _ => (Even.char he (by decide)).bind fun _ => (twoDigits_even he _ _).bind fun _ =>
    (Even.char he (by decide)).bind fun _ => (twoDigits_even he _ _).bind fun _ => (secondFraction_even he).optional.bind fun _ => .pure _

theorem offset_even (lastHour lastMinute : Nat) : Even e (offset lastHour lastMinute) :=
  ((Even.one he ⟨rfl, rfl⟩).bind fun _ => .pure _).orElse <|
    (Even.one he ⟨rfl, rfl⟩).bind fun _ => (twoDigits_even he _ _).bind fun _ => (Even.char he (by decide)).bind fun _ =>
      (twoDigits_even he _ _).bind fun _ => .ite (.pure _) .failure

theorem moment_even : Even e moment := by
  have htime : Even e (timeOfDate (offset 23 59)) :=
    (Even.one he ⟨rfl, rfl⟩).bind fun _ => (time_even he).bind fun _ => (offset_even he 23 59).optional.bind fun _ => .pure _
  exact ((date_even he).bind fun _ => htime.optional.bind fun _ => .pure _).orElse (time_even he).map

/-! ## Items -/

theorem scalar_even : Even e scalar :=
  (quoted_even he).map.orElse ((moment_even he).map.orElse ((decimalFloat_even he).map.orElse ((specialFloat_even he).map.orElse
    ((integer_even he).map.orElse (boolean_even he).map))))

section

variable {item : Read Item} (hi : Even e item)

include hi

theorem array_even : Even e (array item) := by
  have hgapped : Even e (do gap; let i ← item; gap; pure i) :=
    (gap_even he).bind fun _ => hi.bind fun _ => (gap_even he).bind fun _ => .pure _
  have hclosing : ∀ items : List Item, Even e (do gap; Read.char ']'; pure (Item.array items)) := fun items =>
    (gap_even he).bind fun _ => (Even.char he (by decide)).bind fun _ => .pure _
  refine (Even.char he (by decide)).bind fun _ => (hgapped.separated (Even.char he (by decide)) (Takes.char _)).bind fun items => ?_
  exact .ite ((Even.char he (by decide)).optional.bind fun _ => hclosing items) (hclosing items)

theorem pair_even : Even e (pair item) :=
  (dottedKey_even he).bind fun _ => (Even.char he (by decide)).bind fun _ => (space_even he).bind fun _ => hi.bind fun _ =>
    (space_even he).bind fun _ => .pure _

theorem braces_even : Even e (braces item) := by
  refine (Even.char he (by decide)).bind fun _ => ((pair_even he hi).separated (Even.char he (by decide)) (Takes.char _)).bind fun given =>
    (space_even he).bind fun _ => (Even.char he (by decide)).bind fun _ => ?_
  dsimp only
  split
  · exact .pure _
  · exact .failure

end

theorem item_even : ∀ levels, Even e (item levels)
  | 0 => scalar_even he
  | levels + 1 => (scalar_even he).orElse ((array_even he (item_even levels)).orElse (braces_even he (item_even levels)))

/-! ## Documents -/

theorem trailing_even : Even e trailing :=
  (space_even he).bind fun _ => (comment_even he).optional.bind fun _ => lineEnd_or_atEnd_even he

theorem blankLine_even : Even e blankLine :=
  (comment_even he).bind fun _ => (lineEnd_or_atEnd_even he).bind fun _ => .pure _

theorem repeatedHeader_even : Even e repeatedHeader :=
  (Even.exactly he (by decide)).bind fun _ => (dottedKey_even he).bind fun _ => (Even.exactly he (by decide)).bind fun _ =>
    (trailing_even he).bind fun _ => .pure _

theorem header_even : Even e header :=
  (Even.char he (by decide)).bind fun _ => (dottedKey_even he).bind fun _ => (Even.char he (by decide)).bind fun _ =>
    (trailing_even he).bind fun _ => .pure _

theorem pairLine_even : Even e pairLine :=
  (pair_even he (item_even he maxLevels)).bind fun _ => (trailing_even he).bind fun _ => .pure _

omit he in
theorem emptyLine_evenOn : EvenOn (· ≠ []) e emptyLine := lineEnd_evenOn.bind fun _ => .pure _

/-- A line may end where the text does, but there has to be one. -/
theorem line_evenOn : EvenOn (· ≠ []) e line :=
  ((blankLine_even he).on.orElse (emptyLine_evenOn.orElse ((repeatedHeader_even he).on.orElse
    ((header_even he).on.orElse (pairLine_even he).on)))).bind fun _ => (space_even he).bind fun _ => .pure _

theorem takes_line : Takes 1 line := by
  have htrailing : Takes 0 trailing := (trailing_even he).takes
  have hkey : Takes 0 dottedKey := (dottedKey_even he).takes
  have hitem : Takes 0 (item maxLevels) := (item_even he maxLevels).takes
  have hblank : Takes 1 blankLine := takes_comment.bind fun _ => (lineEnd_or_atEnd_even he).takes.bind fun _ => .pure _
  have hempty : Takes 1 emptyLine := takes_lineEnd.bind fun _ => .pure _
  have hrepeated : Takes 2 repeatedHeader := (Takes.exactly _).bind fun _ => hkey.bind fun _ =>
    ((Takes.exactly _).mono (Nat.zero_le _)).bind fun _ => htrailing.bind fun _ => .pure _
  have hheader : Takes 1 header := (Takes.char _).bind fun _ => hkey.bind fun _ =>
    ((Takes.char _).mono (Nat.zero_le _)).bind fun _ => htrailing.bind fun _ => .pure _
  have hpair : Takes 1 (pair (item maxLevels)) := hkey.bind fun _ => (Takes.char _).bind fun _ => takes_space.bind fun _ =>
    hitem.bind fun _ => takes_space.bind fun _ => .pure _
  have hpairLine : Takes 1 pairLine := hpair.bind fun _ => htrailing.bind fun _ => .pure _
  exact (hblank.orElse (hempty.orElse ((hrepeated.mono (by decide)).orElse (hheader.orElse hpairLine)))).bind fun _ =>
    takes_space.bind fun _ => .pure _

theorem line_self : line e = some (.blank, []) := by
  cases he <;> rfl

/-- The line end is one empty line more, or none. -/
theorem whole_lines {text : List Char} (htext : Clean text) : whole lines (text ++ e) = whole lines text ∨
    ∃ ls, whole lines text = some ls ∧ whole lines (text ++ e) = some (ls ++ [.blank]) := by
  have hfront : Even e (do let _ ← Read.optional (Read.char byteOrderMark); space) :=
    (Even.char he (by decide)).optional.bind fun _ => space_even he
  have hlines : lines = (do let _ ← Read.optional (Read.char byteOrderMark); space) >>= fun _ => Read.many line :=
    (bind_assoc _ _ _).symm
  rw [whole, whole, hlines]
  cases hfront.even htext trivial with
  | fails h h' => exact Or.inl (by rw [bind_of_none h, bind_of_none h'])
  | ends h h' => exact Or.inl (by rw [bind_of_some h, bind_of_some h'])
  | leaves h h' =>
    rw [bind_of_some h, bind_of_some h']
    obtain ⟨ls, rest, hm, ⟨hne, hm'⟩ | ⟨rfl, hm' | hm'⟩⟩ :=
      (line_evenOn he).many_append (takes_line he) (line_self he) (htext.of_suffix (hfront.takes h).1)
    · refine Or.inl ?_
      cases rest with
      | nil => exact absurd rfl hne
      | cons c rest => rw [hm, hm']; rfl
    · exact Or.inl (by rw [hm, hm'])
    · exact Or.inr ⟨ls, by rw [hm], by rw [hm']⟩

/-- A document with a line end behind it reads as the document. -/
theorem read?_append {text : List Char} (htext : Clean text) : read? (text ++ e) = read? text := by
  unfold read?
  rcases whole_lines he htext with h | ⟨ls, h, h'⟩
  · rw [h]
  · have hblank : ∀ d : Draft, [Line.blank].foldlM Draft.add d = some d := fun _ => rfl
    rw [h, h', Option.bind_eq_bind, Option.bind_some, Option.bind_eq_bind, Option.bind_some, List.foldlM_append]
    simp only [hblank, Option.bind_eq_bind, Option.bind_fun_some]

end

end MailMerge.Toml
