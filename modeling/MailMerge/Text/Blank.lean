/-
  MailMerge.Text.Blank — blank characters and the splits made at them.

  A character is blank when it has the Unicode White_Space property: 25 code points,
  among them the no-break and the ideographic space. Trimming, the words of a field
  instruction and the tests for blank text all use this one class. Markup has a smaller
  class of its own (`MailMerge.Markup.isSpace`).
-/

namespace MailMerge.Text

/-- The White_Space property. -/
def isBlank (c : Char) : Bool :=
  let n := c.toNat
  (9 ≤ n && n ≤ 13) || n == 0x20 || n == 0x85 || n == 0xA0 || n == 0x1680 ||
  (0x2000 ≤ n && n ≤ 0x200A) || n == 0x2028 || n == 0x2029 || n == 0x202F ||
  n == 0x205F || n == 0x3000

def trimStart (cs : List Char) : List Char := cs.dropWhile isBlank

def trimEnd (cs : List Char) : List Char := (cs.reverse.dropWhile isBlank).reverse

/-- The text without its leading and trailing blanks. -/
def trim (cs : List Char) : List Char := trimEnd (trimStart cs)

def trimmed (s : String) : String := String.ofList (trim s.toList)

/-- Nothing but blanks. -/
def allBlank (s : String) : Bool := s.toList.all isBlank

/-- Puts a character in front of the first piece; it is a piece if there is none. -/
def extend (c : Char) : List (List Char) → List (List Char)
  | [] => [[c]]
  | piece :: pieces => (c :: piece) :: pieces

/-- The pieces between the separators: one more than there are separators. -/
def splitAt (sep : Char) : List Char → List (List Char)
  | [] => [[]]
  | c :: cs => if c = sep then [] :: splitAt sep cs else extend c (splitAt sep cs)

/-- A blank is next, or nothing. -/
def atBlank : List Char → Bool
  | [] => true
  | c :: _ => isBlank c

/-- The maximal runs of characters that are not blank. -/
def words : List Char → List (List Char)
  | [] => []
  | c :: cs =>
    if isBlank c then words cs
    else if atBlank cs then [c] :: words cs
    else extend c (words cs)

/-! ## Small laws -/

theorem isBlank_of_isWhitespace (c : Char) (h : c.isWhitespace = true) : isBlank c = true := by
  simp only [Char.isWhitespace, Bool.or_eq_true, decide_eq_true_eq] at h
  rcases h with ((rfl | rfl) | rfl) | rfl <;> rfl

theorem extend_ne_nil (c : Char) (pieces : List (List Char)) : extend c pieces ≠ [] := by
  cases pieces <;> simp [extend]

theorem splitAt_ne_nil (sep : Char) (cs : List Char) : splitAt sep cs ≠ [] := by
  cases cs with
  | nil => simp [splitAt]
  | cons c cs =>
    rw [splitAt]
    split
    · simp
    · exact extend_ne_nil c _

theorem flatten_extend (c : Char) (pieces : List (List Char)) : (extend c pieces).flatten = c :: pieces.flatten := by
  cases pieces <;> simp [extend]

theorem flatten_splitAt (sep : Char) (cs : List Char) : (splitAt sep cs).flatten = cs.filter (· ≠ sep) := by
  induction cs with
  | nil => rfl
  | cons c cs ih =>
    rw [splitAt]
    split
    · next hc => rw [List.flatten_cons, List.nil_append, ih, List.filter_cons_of_neg (by simpa using hc)]
    · next hc => rw [flatten_extend, ih, List.filter_cons_of_pos (by simpa using hc)]

theorem length_splitAt (sep : Char) (cs : List Char) : (splitAt sep cs).length = cs.count sep + 1 := by
  induction cs with
  | nil => rfl
  | cons c cs ih =>
    rw [splitAt]
    split
    · next hc => rw [List.length_cons, ih, hc, List.count_cons_self]
    · next hc =>
      rw [List.count_cons_of_ne hc, ← ih]
      cases hs : splitAt sep cs with
      | nil => exact absurd hs (splitAt_ne_nil sep cs)
      | cons piece pieces => rfl

theorem not_blank_of_mem_words {cs w : List Char} (h : w ∈ words cs) :
    ∀ c ∈ w, isBlank c = false := by
  induction cs generalizing w with
  | nil => simp [words] at h
  | cons c cs ih =>
    rw [words] at h
    split at h
    · exact ih h
    · next hc =>
      have hb : isBlank c = false := Bool.eq_false_iff.2 hc
      split at h
      · rcases List.mem_cons.1 h with rfl | h
        · simpa using hb
        · exact ih h
      · cases hw : words cs with
        | nil =>
          rw [hw] at h
          rw [List.mem_singleton.1 h]
          simpa using hb
        | cons v vs =>
          rw [hw] at h ih
          rcases List.mem_cons.1 h with rfl | h
          · intro x hx
            rcases List.mem_cons.1 hx with rfl | hx
            · exact hb
            · exact ih List.mem_cons_self x hx
          · exact ih (List.mem_cons_of_mem _ h)

theorem words_append_of_blank {before : List Char} (h : ∀ c ∈ before, isBlank c = true) (cs : List Char) :
    words (before ++ cs) = words cs := by
  induction before with
  | nil => rfl
  | cons c before ih =>
    rw [List.cons_append, words, if_pos (h c List.mem_cons_self)]
    exact ih fun c' hc' => h c' (List.mem_cons_of_mem c hc')

/-- A word behind which a blank stands, or nothing, is the first one. -/
theorem words_append {word : List Char} (hne : word ≠ []) (hword : ∀ c ∈ word, isBlank c = false) {rest : List Char}
    (hrest : atBlank rest = true) : words (word ++ rest) = word :: words rest := by
  induction word with
  | nil => exact absurd rfl hne
  | cons c word ih =>
    have hc := hword c List.mem_cons_self
    rw [List.cons_append, words, hc, if_neg Bool.false_ne_true]
    cases word with
    | nil => rw [List.nil_append, if_pos hrest]
    | cons c' word =>
      have hat : atBlank (c' :: word ++ rest) = false := hword c' (by simp)
      rw [hat, if_neg Bool.false_ne_true, ih (List.cons_ne_nil c' word) fun x hx => hword x (List.mem_cons_of_mem c hx)]
      rfl

theorem words_append_word {word : List Char} (hne : word ≠ []) (hword : ∀ c ∈ word, isBlank c = false) {b : Char}
    (hb : isBlank b = true) (cs : List Char) : words (word ++ b :: cs) = word :: words cs := by
  have hat : atBlank (b :: cs) = true := hb
  rw [words_append hne hword hat, words, if_pos hb]

end MailMerge.Text
