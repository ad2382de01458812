/-
  MailMerge.Proofs.Markup.Tags — tags as they are written, read again.

  The text of a tag is the element's name and its attributes (`tag`). Reading takes the name up
  to the first space and each key up to its equals sign, so any name without spaces and any
  keys that are keys (`IsKey`), each once, read back, whatever the values: these are escaped,
  and the quotes around them cannot stand in them. Quotes in names and keys do no harm to
  this, but they open and close as those of values do, and the tag ends at a `>` outside them.

  Proved: the text of a tag is read as its element (`readElement_tag`), and every element that
  is read has a name and keys of this kind (`named_of_readElement`). Where no name and no key
  holds a quote, none holds a `>` either (`quoteAfter_key`) and the tag is written so that it
  ends at its own (`quoteAfter_tag`).
-/

import Mathlib.Data.List.Nodup
import MailMerge.Markup.Reader
import MailMerge.Markup.Writer
import MailMerge.Proofs.Markup.Cuts
import MailMerge.Proofs.Markup.Escapes

namespace MailMerge.Markup

open MailMerge.Text

/-! ## Attributes -/

/-- Keys as they are read: anything but a space, then up to an equals sign or a space. -/
def IsKey : List Char → Prop
  | [] => False
  | c :: cs => isSpace c = false ∧ ∀ x ∈ cs, isKeyChar x = true

theorem attributesFrom_cons {distinct : Bool} {seen : List (List Char × Nat)} {pos next after : Nat} {c : Char}
    {cs rest key text value tail : List Char} (hs : skipSpace cs = c :: rest)
    (hk : readKey (pos + spaceWidth cs) c rest = .ok (key, next, text))
    (hd : (if distinct = true then seen.lookup key else none) = none)
    (hv : readQuoted (next + spaceWidth text) (skipSpace text) = .ok (value, after, tail)) :
    attributesFrom distinct seen pos cs =
      (⟨key, value⟩ :: (attributesFrom distinct ((key, pos + spaceWidth cs) :: seen) after tail).1,
        (attributesFrom distinct ((key, pos + spaceWidth cs) :: seen) after tail).2) := by
  rw [attributesFrom]
  split
  · next hs' => rw [hs] at hs'; cases hs'
  · next hs' =>
    rw [hs] at hs'
    cases hs'
    simp only
    split
    · next hk' => rw [hk] at hk'; cases hk'
    · next hk' =>
      rw [hk] at hk'
      cases hk'
      split
      · next hd' => rw [hd] at hd'; cases hd'
      · split
        · next hv' => rw [hv] at hv'; cases hv'
        · next hv' =>
          rw [hv] at hv'
          cases hv'
          rfl

/-- One attribute as it is written, whatever is behind it. -/
theorem attributesFrom_written {key value : List Char} (hkey : IsKey key) (hvalue : '"' ∉ value) {distinct : Bool}
    {seen : List (List Char × Nat)} (hd : (if distinct = true then seen.lookup key else none) = none) (pos : Nat) (tail : List Char) :
    ∃ start after, attributesFrom distinct seen pos (' ' :: (key ++ '=' :: '"' :: (value ++ '"' :: tail))) =
      (⟨key, value⟩ :: (attributesFrom distinct ((key, start) :: seen) after tail).1,
        (attributesFrom distinct ((key, start) :: seen) after tail).2) := by
  cases key with
  | nil => cases hkey
  | cons c cs =>
    obtain ⟨hc, hcs⟩ := hkey
    have hskip : skipSpace (' ' :: (c :: cs ++ '=' :: '"' :: (value ++ '"' :: tail))) = c :: (cs ++ '=' :: '"' :: (value ++ '"' :: tail)) := by
      rw [skipSpace, List.dropWhile_cons_of_pos (by decide), List.cons_append, List.dropWhile_cons_of_neg (by simp [hc])]
    have hread : ∀ pos, ∃ next, readKey pos c (cs ++ '=' :: '"' :: (value ++ '"' :: tail)) =
        .ok (c :: cs, next, '"' :: (value ++ '"' :: tail)) := by
      intro pos
      have htake : (cs ++ '=' :: '"' :: (value ++ '"' :: tail)).takeWhile isKeyChar = cs := by
        rw [List.takeWhile_append_of_pos hcs]
        simp [isKeyChar]
      have hdrop : (cs ++ '=' :: '"' :: (value ++ '"' :: tail)).dropWhile isKeyChar = '=' :: '"' :: (value ++ '"' :: tail) := by
        rw [List.dropWhile_append_of_pos hcs]
        simp [isKeyChar]
      have hgap : skipSpace ('=' :: '"' :: (value ++ '"' :: tail)) = '=' :: '"' :: (value ++ '"' :: tail) := rfl
      refine ⟨pos + utf8Length (c :: cs) + spaceWidth ('=' :: '"' :: (value ++ '"' :: tail)) + 1, ?_⟩
      simp only [readKey, htake, hdrop, hgap]
    have hquoted : ∀ pos, ∃ after, readQuoted pos ('"' :: (value ++ '"' :: tail)) = .ok (value, after, tail) := by
      intro pos
      have hall : ∀ x ∈ value, (x != '"') = true := by
        intro x hx
        rw [bne_iff_ne]
        rintro rfl
        exact hvalue hx
      have htake : (value ++ '"' :: tail).takeWhile (· != '"') = value := by
        rw [List.takeWhile_append_of_pos hall]
        simp
      have hdrop : (value ++ '"' :: tail).dropWhile (· != '"') = '"' :: tail := by
        rw [List.dropWhile_append_of_pos hall]
        simp
      exact ⟨_, by simp only [readQuoted, htake, hdrop]; rfl⟩
    obtain ⟨next, hnext⟩ := hread (pos + spaceWidth (' ' :: (c :: cs ++ '=' :: '"' :: (value ++ '"' :: tail))))
    obtain ⟨after, hafter⟩ := hquoted (next + spaceWidth ('"' :: (value ++ '"' :: tail)))
    exact ⟨_, after, attributesFrom_cons hskip hnext hd hafter⟩

/-- An attribute as it is written, between double quotes. -/
def RawAttribute.source (a : RawAttribute) : List Char := ' ' :: (a.key ++ '=' :: '"' :: (a.value ++ ['"']))

/-- Attributes as they are written, none of whose keys has been seen. -/
theorem attributesFrom_source {distinct : Bool} {as : List RawAttribute} (hkeys : ∀ a ∈ as, IsKey a.key)
    (hvalues : ∀ a ∈ as, '"' ∉ a.value) (hnd : distinct = true → (as.map (·.key)).Nodup) {seen : List (List Char × Nat)}
    (hseen : distinct = true → ∀ a ∈ as, seen.lookup a.key = none) (pos : Nat) :
    attributesFrom distinct seen pos (as.flatMap RawAttribute.source) = (as, none) := by
  induction as generalizing seen pos with
  | nil =>
    rw [List.flatMap_nil, attributesFrom]
    rfl
  | cons a as ih =>
    have hnew : (if distinct = true then seen.lookup a.key else none) = none := by
      split
      · next hd => exact hseen hd a List.mem_cons_self
      · rfl
    have hsplit : (a :: as).flatMap RawAttribute.source =
        ' ' :: (a.key ++ '=' :: '"' :: (a.value ++ '"' :: as.flatMap RawAttribute.source)) := by
      simp [RawAttribute.source]
    obtain ⟨start, after, hone⟩ := attributesFrom_written (hkeys a List.mem_cons_self) (hvalues a List.mem_cons_self) hnew pos
      (as.flatMap RawAttribute.source)
    rw [hsplit, hone, ih]
    · exact fun b hb => hkeys b (List.mem_cons_of_mem a hb)
    · exact fun b hb => hvalues b (List.mem_cons_of_mem a hb)
    · exact fun hd => (List.nodup_cons.mp (hnd hd)).2
    · intro hd b hb
      have hne : b.key ≠ a.key := by
        intro he
        exact (List.nodup_cons.mp (hnd hd)).1 (List.mem_map.mpr ⟨b, hb, he⟩)
      rw [List.lookup_cons, beq_false_of_ne hne]
      exact hseen hd b (List.mem_cons_of_mem a hb)

theorem not_space_of_skipSpace {cs rest : List Char} {c : Char} (h : skipSpace cs = c :: rest) : isSpace c = false := by
  have hhead := List.head?_dropWhile_not isSpace cs
  rw [skipSpace] at h
  rw [h] at hhead
  exact hhead

theorem takeWhile_space_append (cs : List Char) : ∃ gap : List Char, (∀ c ∈ gap, isSpace c = true) ∧ cs = gap ++ skipSpace cs :=
  ⟨cs.takeWhile isSpace, fun c hc => List.all_eq_true.mp List.all_takeWhile c hc, List.takeWhile_append_dropWhile.symm⟩

/-- A key is read with the equals sign behind it, and space between the two. -/
theorem readKey_spec {pos next : Nat} {c : Char} {cs key text : List Char} (hc : isSpace c = false)
    (h : readKey pos c cs = .ok (key, next, text)) :
    IsKey key ∧ ∃ gap, (∀ x ∈ gap, isSpace x = true) ∧ c :: cs = key ++ (gap ++ '=' :: text) := by
  simp only [readKey] at h
  split at h
  · next rest hrest =>
    cases h
    refine ⟨⟨hc, fun x hx => List.all_eq_true.mp List.all_takeWhile x hx⟩, ?_⟩
    obtain ⟨gap, hgap, hsplit⟩ := takeWhile_space_append (cs.dropWhile isKeyChar)
    refine ⟨gap, hgap, ?_⟩
    rw [List.cons_append, ← hrest, ← hsplit, List.takeWhile_append_dropWhile]
  · cases h

/-- A value is read with its quotes, the first of which does not stand in it. -/
theorem readQuoted_spec {pos after : Nat} {cs value tail : List Char} (h : readQuoted pos cs = .ok (value, after, tail)) :
    ∃ q, (q = '"' ∨ q = '\'') ∧ q ∉ value ∧ cs = q :: (value ++ q :: tail) := by
  cases cs with
  | nil => cases h
  | cons q cs =>
    simp only [readQuoted] at h
    split at h
    · next hq =>
      split at h
      · cases h
      · next x rest hdrop =>
        cases h
        have hx : x = q := by
          have hhead := List.head?_dropWhile_not (· != q) cs
          rw [hdrop] at hhead
          simpa using hhead
        refine ⟨q, by simpa using hq, fun hmem => ?_, ?_⟩
        · simpa using List.all_eq_true.mp List.all_takeWhile q hmem
        · conv_lhs => rw [← List.takeWhile_append_dropWhile (p := (· != q)) (l := cs), hdrop, hx]
    · cases h

/-- What is read of a tag's attributes: keys, each value a part of the tag. -/
theorem attribute_of_mem {distinct : Bool} {seen : List (List Char × Nat)} {pos : Nat} {cs : List Char} {a : RawAttribute}
    (ha : a ∈ (attributesFrom distinct seen pos cs).1) : IsKey a.key ∧ a.value <:+: cs := by
  fun_induction attributesFrom distinct seen pos cs with
  | case1 => cases ha
  | case2 => cases ha
  | case3 => cases ha
  | case4 => cases ha
  | case5 seen pos cs c rest hs start key next text hk hd value after tail hv more fault hmore ih =>
    obtain ⟨hkey, gap, -, hsplit⟩ := readKey_spec (not_space_of_skipSpace hs) hk
    obtain ⟨q, -, -, hquoted⟩ := readQuoted_spec hv
    have hcs : skipSpace text <:+ cs := by
      have hrest : c :: rest <:+ cs := hs ▸ List.dropWhile_suffix _
      have htext : text <:+ c :: rest := ⟨key ++ (gap ++ ['=']), by rw [hsplit]; simp⟩
      exact ((List.dropWhile_suffix _).trans htext).trans hrest
    rw [hquoted] at hcs
    rcases List.mem_cons.mp ha with rfl | ha
    · have hvalue : value <:+: q :: (value ++ q :: tail) := ⟨[q], q :: tail, by simp⟩
      exact ⟨hkey, hvalue.trans hcs.isInfix⟩
    · rw [hmore] at ih
      obtain ⟨hkey', hvalue'⟩ := ih ha
      have htail : tail <:+ q :: (value ++ q :: tail) := ⟨q :: (value ++ [q]), by simp⟩
      exact ⟨hkey', hvalue'.trans (htail.trans hcs).isInfix⟩

/-- Each key of a start tag is read once. -/
theorem nodup_keys (seen : List (List Char × Nat)) (pos : Nat) (cs : List Char) :
    ((attributesFrom true seen pos cs).1.map (·.key)).Nodup ∧ ∀ a ∈ (attributesFrom true seen pos cs).1, seen.lookup a.key = none := by
  generalize hd : true = distinct
  fun_induction attributesFrom distinct seen pos cs with
  | case1 => simp
  | case2 => simp
  | case3 => simp
  | case4 => simp
  | case5 seen pos cs c rest hs start key next text hk hno value after tail hv more fault hmore ih =>
    subst hd
    obtain ⟨hnd, hseen⟩ := ih
    rw [hmore] at hnd hseen
    have hother : ∀ a ∈ more, a.key ≠ key ∧ seen.lookup a.key = none := by
      intro a ha
      have hlookup := hseen a ha
      rw [List.lookup_cons] at hlookup
      split at hlookup
      · cases hlookup
      · next hne => exact ⟨by simpa using hne, hlookup⟩
    refine ⟨?_, ?_⟩
    · rw [List.map_cons, List.nodup_cons]
      refine ⟨fun hmem => ?_, hnd⟩
      obtain ⟨a, ha, he⟩ := List.mem_map.mp hmem
      exact (hother a ha).1 he
    · intro a ha
      rcases List.mem_cons.mp ha with rfl | ha
      · exact hno
      · exact (hother a ha).2

/-! ## Elements -/

/-- An attribute with its value escaped, as it is written. -/
def rawOf (a : String × String) : RawAttribute := ⟨a.1.toList, escapeValue a.2.toList⟩

theorem writeAttribute_eq (a : String × String) : writeAttribute a = (rawOf a).source := by
  simp [writeAttribute, rawOf, RawAttribute.source]

/-- The text of a tag. -/
def tag (name : String) (as : List (String × String)) : List Char := name.toList ++ as.flatMap writeAttribute

/-- A name without spaces, and keys that are keys, each once. -/
structure Named (name : String) (as : List (String × String)) : Prop where
  name : ∀ c ∈ name.toList, isSpace c = false
  keys : ∀ a ∈ as, IsKey a.1.toList
  distinct : (as.map Prod.fst).Nodup

theorem tag_ne_nil {name : String} {as : List (String × String)} (h : name = "" → as ≠ []) : tag name as ≠ [] := by
  intro hnil
  obtain ⟨hname, has⟩ := List.append_eq_nil_iff.mp hnil
  cases as with
  | nil => exact h (String.toList_eq_nil_iff.mp hname) rfl
  | cons a as =>
    rw [List.flatMap_cons, writeAttribute_eq] at has
    cases has

theorem nameOf_tag {name : String} {as : List (String × String)} (h : Named name as) : nameOf (tag name as) = name.toList := by
  have hall : ∀ c ∈ name.toList, (!isSpace c) = true := by
    intro c hc
    rw [h.name c hc]
    rfl
  rw [nameOf, tag, List.takeWhile_append_of_pos hall]
  cases as with
  | nil => simp
  | cons a as =>
    rw [List.flatMap_cons, writeAttribute_eq, RawAttribute.source, List.cons_append, List.takeWhile_cons_of_neg (by decide),
      List.append_nil]

theorem mapM_readPair {as : List (String × String)} (element : String) :
    (as.map rawOf).mapM (readPair element) = .ok as := by
  induction as with
  | nil => rfl
  | cons a as ih =>
    have hone : readPair element (rawOf a) = .ok a := by
      simp only [readPair, rawOf, unescape_escapeValue, String.ofList_toList]
    rw [List.map_cons, List.mapM_cons, hone, ih]
    rfl

/-- What is written for an element is read as that element. -/
theorem readElement_tag {name : String} {as : List (String × String)} (h : Named name as) :
    readElement (tag name as) = .ok (.element name as) := by
  have hname := nameOf_tag h
  have hdrop : (tag name as).drop name.toList.length = as.flatMap writeAttribute := List.drop_left ..
  have hwritten : as.flatMap writeAttribute = (as.map rawOf).flatMap RawAttribute.source := by
    rw [List.flatMap_map, funext writeAttribute_eq]
  have hkeys : (as.map rawOf).map (·.key) = (as.map Prod.fst).map String.toList := by simp [rawOf]
  have hread : attributesOf true name.toList (tag name as) = (as.map rawOf, none) := by
    rw [attributesOf, hdrop, hwritten]
    refine attributesFrom_source (fun a ha => ?_) (fun a ha => ?_) (fun _ => ?_) (fun _ _ _ => rfl) _
    · obtain ⟨b, hb, rfl⟩ := List.mem_map.mp ha
      exact h.keys b hb
    · obtain ⟨b, -, rfl⟩ := List.mem_map.mp ha
      exact fun hq => (not_quote_of_mem_escapeValue hq).1 rfl
    · rw [hkeys]
      exact List.Nodup.map (fun _ _ he => String.toList_injective he) h.distinct
  simp only [readElement, readAttributes, hname, String.ofList_toList, hread, mapM_readPair]
  rfl

theorem keys_of_mapM {element : String} {raw : List RawAttribute} {as : List (String × String)}
    (h : raw.mapM (readPair element) = .ok as) : as.map Prod.fst = raw.map fun a => String.ofList a.key := by
  induction raw generalizing as with
  | nil => cases h; rfl
  | cons a raw ih =>
    rw [List.mapM_cons] at h
    cases hone : readPair element a with
    | error e => rw [hone] at h; cases h
    | ok pair =>
      cases hmore : raw.mapM (readPair element) with
      | error e => rw [hone, hmore] at h; cases h
      | ok pairs =>
        rw [hone, hmore] at h
        cases h
        rw [List.map_cons, List.map_cons, ih hmore]
        unfold readPair at hone
        split at hone
        · cases hone; rfl
        · cases hone

/-- What is read for a tag is an element with such a name and such keys. -/
theorem named_of_readElement {content : List Char} {k : Kind} (h : readElement content = .ok k) :
    ∃ name as, k = .element name as ∧ Named name as ∧ name.toList = nameOf content ∧
      as.map (·.1.toList) = (attributesOf true (nameOf content) content).1.map (·.key) := by
  obtain ⟨as, has, rfl⟩ : ∃ as, readAttributes (String.ofList (nameOf content)) content = .ok as ∧
      .element (String.ofList (nameOf content)) as = k := by
    simp only [readElement] at h
    cases hr : readAttributes (String.ofList (nameOf content)) content with
    | error e => rw [hr] at h; cases h
    | ok as => rw [hr] at h; cases h; exact ⟨as, rfl, rfl⟩
  have hread : ∃ raw : List RawAttribute, raw = (attributesOf true (nameOf content) content).1 ∧
      raw.mapM (readPair (String.ofList (nameOf content))) = .ok as := by
    simp only [readAttributes, String.toList_ofList] at has
    generalize attributesOf true (nameOf content) content = found at has ⊢
    obtain ⟨raw, fault⟩ := found
    refine ⟨raw, rfl, ?_⟩
    cases hm : raw.mapM (readPair (String.ofList (nameOf content))) with
    | error e => simp [hm, bind, Except.bind] at has
    | ok pairs =>
      simp only [hm, bind, Except.bind] at has
      cases fault with
      | some e => cases has
      | none => cases has; rfl
  obtain ⟨raw, hraw, hmap⟩ := hread
  have hkeys := keys_of_mapM hmap
  have hsame : as.map (·.1.toList) = raw.map (·.key) := by
    have hlists := congrArg (List.map String.toList) hkeys
    simpa [Function.comp_def] using hlists
  refine ⟨_, as, rfl, ⟨?_, ?_, ?_⟩, String.toList_ofList, hraw ▸ hsame⟩
  · intro c hc
    rw [String.toList_ofList] at hc
    simpa using List.all_eq_true.mp List.all_takeWhile c hc
  · intro a ha
    have hmem : a.1.toList ∈ raw.map (·.key) := hsame ▸ List.mem_map_of_mem ha
    obtain ⟨a', ha', he⟩ := List.mem_map.mp hmem
    rw [← he]
    rw [hraw] at ha'
    exact (attribute_of_mem ha').1
  · have hnd : ((as.map Prod.fst).map String.toList).Nodup := by
      have hraws : (raw.map (·.key)).Nodup := hraw ▸ (nodup_keys _ _ _).1
      rw [← hsame] at hraws
      simpa [Function.comp_def] using hraws
    exact hnd.of_map

/-- A tag is written so that it begins as the one that it was read from. -/
theorem startsTag_tag {content : List Char} (h : StartsTag content) {name : String} (hname : name.toList = nameOf content)
    (as : List (String × String)) : StartsTag (tag name as) := by
  intro c hc
  unfold tag at hc
  cases hn : name.toList with
  | nil =>
    rw [hn, List.nil_append] at hc
    cases as with
    | nil => cases hc
    | cons a as =>
      rw [List.flatMap_cons, writeAttribute_eq] at hc
      cases hc
      decide
  | cons x xs =>
    rw [hn] at hc
    cases hc
    refine h c ?_
    rw [hn] at hname
    cases content with
    | nil => cases hname
    | cons y content =>
      rw [nameOf, List.takeWhile_cons] at hname
      split at hname
      · cases hname; rfl
      · cases hname

/-! ## Quotes -/

def isQuote (c : Char) : Bool := c == '"' || c == '\''

/-- Without quotes and `>` no quote is open behind a text. -/
theorem quoteAfter_of_plain {cs : List Char} (h : ∀ c ∈ cs, c ≠ '>' ∧ c ≠ '"' ∧ c ≠ '\'') : quoteAfter none cs = some none := by
  induction cs with
  | nil => rfl
  | cons c cs ih =>
    obtain ⟨hgt, hdouble, hsingle⟩ := h c List.mem_cons_self
    rw [quoteAfter, if_neg hgt, if_neg (by simp [hdouble, hsingle])]
    exact ih fun x hx => h x (List.mem_cons_of_mem c hx)

/-- A quote stays open until it stands in the text again. -/
theorem quoteAfter_quoted {q : Char} {cs : List Char} (h : q ∉ cs) : quoteAfter (some q) (cs ++ [q]) = some none := by
  induction cs with
  | nil => simp [quoteAfter]
  | cons c cs ih =>
    rw [List.mem_cons, not_or] at h
    rw [List.cons_append, quoteAfter, if_neg (Ne.symm h.1)]
    exact ih h.2

/-- A text without quotes in front of another: the tag does not end in it, and goes on as before. -/
theorem quoteAfter_unquoted {a b : List Char} (ha : ∀ c ∈ a, isQuote c = false) (h : quoteAfter none (a ++ b) = some none) :
    quoteAfter none a = some none ∧ quoteAfter none b = some none := by
  induction a with
  | nil => exact ⟨rfl, h⟩
  | cons c a ih =>
    have hc : ¬ (c = '"' ∨ c = '\'') := by simpa [isQuote] using ha c List.mem_cons_self
    rw [List.cons_append, quoteAfter, if_neg hc] at h
    rw [quoteAfter, if_neg hc]
    split at h
    · cases h
    · next hgt =>
      rw [if_neg hgt]
      exact ih (fun x hx => ha x (List.mem_cons_of_mem c hx)) h

theorem not_quote_of_isSpace {cs : List Char} (h : ∀ c ∈ cs, isSpace c = true) : ∀ c ∈ cs, isQuote c = false := by
  intro c hc
  have hs := h c hc
  simp only [isSpace, Bool.or_eq_true, beq_iff_eq] at hs
  rcases hs with ((rfl | rfl) | rfl) | rfl <;> rfl

/-- If no key holds a quote, then the quotes of a tag are those of its values, and no key holds a `>`. -/
theorem quoteAfter_key {distinct : Bool} {seen : List (List Char × Nat)} {pos : Nat} {cs : List Char} (h : quoteAfter none cs = some none)
    (hno : ∀ a ∈ (attributesFrom distinct seen pos cs).1, ∀ c ∈ a.key, isQuote c = false) {a : RawAttribute}
    (ha : a ∈ (attributesFrom distinct seen pos cs).1) : quoteAfter none a.key = some none := by
  fun_induction attributesFrom distinct seen pos cs with
  | case1 => cases ha
  | case2 => cases ha
  | case3 => cases ha
  | case4 => cases ha
  | case5 seen pos cs c rest hs start key next text hk hd value after tail hv more fault hmore ih =>
    obtain ⟨-, gap, hgap, hsplit⟩ := readKey_spec (not_space_of_skipSpace hs) hk
    obtain ⟨q, hq, hvalue, hquoted⟩ := readQuoted_spec hv
    obtain ⟨before, hbefore, hcs⟩ := takeWhile_space_append cs
    obtain ⟨between, hbetween, htext⟩ := takeWhile_space_append text
    -- what stands in front of the value, part by part
    rw [hcs, hs, hsplit] at h
    obtain ⟨-, h⟩ := quoteAfter_unquoted (not_quote_of_isSpace hbefore) h
    obtain ⟨hkey, h⟩ := quoteAfter_unquoted (hno _ List.mem_cons_self) h
    obtain ⟨-, h⟩ := quoteAfter_unquoted (not_quote_of_isSpace hgap) h
    rw [quoteAfter, if_neg (by decide), if_neg (by decide), htext, hquoted] at h
    obtain ⟨-, h⟩ := quoteAfter_unquoted (not_quote_of_isSpace hbetween) h
    have htail : quoteAfter none tail = some none := by
      have hopen : quoteAfter none [q] = some (some q) := by rcases hq with rfl | rfl <;> rfl
      have hparts : q :: (value ++ q :: tail) = [q] ++ ((value ++ [q]) ++ tail) := by simp
      rw [hparts, quoteAfter_append, hopen, Option.bind_some, quoteAfter_append, quoteAfter_quoted hvalue] at h
      exact h
    rcases List.mem_cons.mp ha with rfl | ha
    · exact hkey
    · rw [hmore] at ih
      exact ih htail (fun b hb => hno b (List.mem_cons_of_mem _ hb)) ha

/-- No quotes but those around values. -/
structure Quoteless (name : String) (as : List (String × String)) : Prop where
  name : ∀ c ∈ name.toList, isQuote c = false
  keys : ∀ a ∈ as, ∀ c ∈ a.1.toList, isQuote c = false

instance (name : String) (as : List (String × String)) : Decidable (Quoteless name as) :=
  decidable_of_iff (name.toList.all (!isQuote ·) = true ∧ as.all (fun a => a.1.toList.all (!isQuote ·)) = true) <| by
    simp only [List.all_eq_true, Bool.not_eq_true']
    exact ⟨fun h => ⟨h.1, h.2⟩, fun h => ⟨h.name, h.keys⟩⟩

theorem quoteAfter_of_readElement {content : List Char} {name : String} {as : List (String × String)}
    (h : readElement content = .ok (.element name as)) (hquote : quoteAfter none content = some none) (hno : Quoteless name as) :
    quoteAfter none name.toList = some none ∧ ∀ a ∈ as, quoteAfter none a.1.toList = some none := by
  obtain ⟨name', as', he, -, hname, hkeys⟩ := named_of_readElement h
  cases he
  have hsplit : content = name.toList ++ content.drop (nameOf content).length := by
    rw [hname]
    exact (List.prefix_iff_eq_append.mp (List.takeWhile_prefix _)).symm
  rw [hsplit] at hquote
  obtain ⟨hfront, hrest⟩ := quoteAfter_unquoted hno.name hquote
  refine ⟨hfront, fun a ha => ?_⟩
  have hmem : ∀ key : List Char, key ∈ as.map (·.1.toList) ↔ ∃ b ∈ (attributesOf true (nameOf content) content).1, b.key = key := by
    intro key
    rw [hkeys, List.mem_map]
  obtain ⟨b, hb, hkey⟩ := (hmem a.1.toList).mp (List.mem_map_of_mem ha)
  rw [← hkey]
  refine quoteAfter_key hrest (fun d hd => ?_) hb
  obtain ⟨a', ha', he⟩ := List.mem_map.mp ((hmem d.key).mpr ⟨d, hd, rfl⟩)
  rw [← he]
  exact hno.keys a' ha'

/-- Only a quote can be open. -/
theorem isQuote_of_quoteAfter {q : Option Char} (hq : ∀ c, q = some c → isQuote c = true) {cs : List Char} {c : Char}
    (h : quoteAfter q cs = some (some c)) : isQuote c = true := by
  induction cs generalizing q with
  | nil =>
    cases q with
    | none => cases h
    | some x => cases h; exact hq c rfl
  | cons x cs ih =>
    cases q with
    | none =>
      rw [quoteAfter] at h
      split at h
      · cases h
      · refine ih ?_ h
        intro y hy
        split at hy
        · next hx => cases hy; simpa [isQuote] using hx
        · cases hy
    | some y =>
      rw [quoteAfter] at h
      refine ih ?_ h
      intro z hz
      split at hz
      · cases hz
      · cases hz; exact hq y rfl

theorem quoteAfter_writeAttribute {a : String × String} (h : quoteAfter none a.1.toList = some none) :
    quoteAfter none (writeAttribute a) = some none := by
  have hvalue : '"' ∉ escapeValue a.2.toList := fun hq => (not_quote_of_mem_escapeValue hq).1 rfl
  have hsplit : writeAttribute a = [' '] ++ (a.1.toList ++ (['=', '"'] ++ (escapeValue a.2.toList ++ ['"']))) := by
    simp [writeAttribute]
  have hspace : quoteAfter none [' '] = some none := rfl
  have hopen : quoteAfter none ['=', '"'] = some (some '"') := rfl
  rw [hsplit, quoteAfter_append, hspace, Option.bind_some, quoteAfter_append, h, Option.bind_some, quoteAfter_append,
    hopen, Option.bind_some, quoteAfter_quoted hvalue]

/-- A tag is written so that it ends at its own `>` if that holds of its name and of each key. -/
theorem quoteAfter_tag {name : String} {as : List (String × String)} (hname : quoteAfter none name.toList = some none)
    (has : ∀ a ∈ as, quoteAfter none a.1.toList = some none) : quoteAfter none (tag name as) = some none := by
  have hattributes : quoteAfter none (as.flatMap writeAttribute) = some none := by
    induction as with
    | nil => rfl
    | cons a as ih =>
      rw [List.flatMap_cons, quoteAfter_append, quoteAfter_writeAttribute (has a List.mem_cons_self), Option.bind_some]
      exact ih fun b hb => has b (List.mem_cons_of_mem a hb)
  rw [tag, quoteAfter_append, hname, Option.bind_some, hattributes]

theorem getLast?_tag {name : String} {as : List (String × String)} (h : as = [] → name.toList.getLast? ≠ some '/') :
    (tag name as).getLast? ≠ some '/' := by
  intro hlast
  unfold tag at hlast
  rcases List.eq_nil_or_concat as with rfl | ⟨front, a, rfl⟩
  · rw [List.flatMap_nil, List.append_nil] at hlast
    exact h rfl hlast
  · have hend : writeAttribute a = (' ' :: a.1.toList ++ '=' :: '"' :: escapeValue a.2.toList) ++ ['"'] := rfl
    rw [List.concat_eq_append, List.flatMap_append, List.flatMap_singleton, hend, ← List.append_assoc, ← List.append_assoc,
      List.getLast?_concat] at hlast
    cases hlast

/-! ## Plain names -/

/-- No space and no character that markup uses. -/
def isPlainChar (c : Char) : Bool := !isSpace c && !(['<', '>', '/', '=', '&', '!', '?', '"', '\''].contains c)

/-- A name that markup cannot take for anything else. -/
structure PlainName (name : String) : Prop where
  nonempty : name ≠ ""
  plain : ∀ c ∈ name.toList, isPlainChar c = true

theorem isPlainChar_iff {c : Char} : isPlainChar c = true ↔ isSpace c = false ∧ c ≠ '<' ∧ c ≠ '>' ∧ c ≠ '/' ∧ c ≠ '=' ∧
    c ≠ '&' ∧ c ≠ '!' ∧ c ≠ '?' ∧ c ≠ '"' ∧ c ≠ '\'' := by
  simp [isPlainChar]

theorem PlainName.isKey {key : String} (h : PlainName key) : IsKey key.toList := by
  have hplain := h.plain
  cases hk : key.toList with
  | nil => exact h.nonempty (String.toList_eq_nil_iff.mp hk)
  | cons c cs =>
    rw [hk] at hplain
    refine ⟨(isPlainChar_iff.mp (hplain c List.mem_cons_self)).1, fun x hx => ?_⟩
    obtain ⟨hspace, -, -, -, heq, -⟩ := isPlainChar_iff.mp (hplain x (List.mem_cons_of_mem c hx))
    simp [isKeyChar, hspace, heq]

theorem PlainName.quoteAfter {name : String} (h : PlainName name) : Markup.quoteAfter none name.toList = some none := by
  refine quoteAfter_of_plain fun c hc => ?_
  obtain ⟨-, -, hgt, -, -, -, -, -, hdouble, hsingle⟩ := isPlainChar_iff.mp (h.plain c hc)
  exact ⟨hgt, hdouble, hsingle⟩

theorem PlainName.startsTag {name : String} (h : PlainName name) (as : List (String × String)) : StartsTag (tag name as) := by
  intro c hc
  have hplain := h.plain
  unfold tag at hc
  cases hn : name.toList with
  | nil => exact absurd (String.toList_eq_nil_iff.mp hn) h.nonempty
  | cons x xs =>
    rw [hn] at hc hplain
    cases hc
    obtain ⟨-, -, -, hslash, -, -, hbang, hquestion, -⟩ := isPlainChar_iff.mp (hplain c List.mem_cons_self)
    exact ⟨hbang, hquestion, hslash⟩

theorem PlainName.getLast?_ne {name : String} (h : PlainName name) : name.toList.getLast? ≠ some '/' := by
  intro hlast
  obtain ⟨-, -, -, hslash, -⟩ := isPlainChar_iff.mp (h.plain '/' (List.mem_of_getLast? hlast))
  exact hslash rfl

end MailMerge.Markup
