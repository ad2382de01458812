/-
  MailMerge.Proofs.Text.LineEnd — a line end behind the text that is read.

  Behind a text that does not end in a carriage return there is put a line end. A reading is
  even if this makes no difference to it: it fails as before, or it gives the same and leaves
  the line end behind what it left before, or, where it took the whole text, it may take the
  line end as well (`EvenAt`). Some readings are even only on texts of some kind (`EvenOn`), as
  one that takes a line end is only where there is some text left.

  Proved: a reading made of even ones is even, whichever way it is made of them. Repetitions
  are where that needs an argument. One that goes on to a mark is even if what it repeats is
  even on texts that still hold the mark (`EvenOn.many_bind`); one that may take the line end
  is even if nobody asks what was taken (`EvenOn.skip`); and one whose result is kept has one
  thing more in it at most (`EvenOn.many_append`).
-/

import MailMerge.Text.Read

namespace MailMerge.Text

/-- The two forms of a line end. -/
inductive IsLineEnd : List Char → Prop
  | feed : IsLineEnd ['\n']
  | returned : IsLineEnd ['\r', '\n']

/-- A line end behind the text begins where the text ends. -/
def Clean (cs : List Char) : Prop := cs.getLast? ≠ some '\r'

instance (cs : List Char) : Decidable (Clean cs) := inferInstanceAs (Decidable (cs.getLast? ≠ some '\r'))

theorem Clean.of_suffix {cs rest : List Char} (h : Clean cs) (hs : rest <:+ cs) : Clean rest := by
  obtain ⟨front, rfl⟩ := hs
  cases rest with
  | nil => exact fun he => nomatch he
  | cons c rest =>
    intro he
    refine h ?_
    rw [List.getLast?_append, he, Option.some_or]

/-- A class of characters that no line end has. -/
def Inline (p : Char → Bool) : Prop := p '\n' = false ∧ p '\r' = false

namespace Read

variable {α β : Type} {r s : Read α} {f : α → Read β} {cs rest : List Char}

theorem bind_apply : (r >>= f) cs = (r cs).bind fun (a, rest) => f a rest := rfl

theorem bind_of_some {a : α} (h : r cs = some (a, rest)) : (r >>= f) cs = f a rest := by
  rw [bind_apply, h]
  rfl

theorem bind_of_none (h : r cs = none) : (r >>= f) cs = none := by
  rw [bind_apply, h]
  rfl

theorem orElse_of_some {p : α × List Char} (h : r cs = some p) : (r <|> s) cs = some p := by
  change (r cs <|> s cs) = some p
  rw [h]
  rfl

theorem orElse_of_none (h : r cs = none) : (r <|> s) cs = s cs := by
  change (r cs <|> s cs) = s cs
  rw [h]
  rfl

theorem char_eq_some {c : Char} {u : Unit} (h : char c cs = some (u, rest)) : cs = c :: rest := by
  cases cs with
  | nil => cases h
  | cons d cs =>
    by_cases hd : d = c
    · rw [char, bind_of_some (show one (· == c) (d :: cs) = some (d, cs) from if_pos (beq_iff_eq.mpr hd))] at h
      cases h
      rw [hd]
    · rw [char, bind_of_none (show one (· == c) (d :: cs) = none from if_neg (by simpa using hd))] at h
      cases h

theorem exactly_eq_some {lead : List Char} {u : Unit} (h : exactly lead cs = some (u, rest)) : cs = lead ++ rest := by
  obtain ⟨mid, hmid, he⟩ := Option.map_eq_some_iff.mp h
  cases he
  exact after?_eq_some_iff.mp hmid

/-! ## What a reading leaves -/

/-- What is left is an end of the text, by so many characters shorter at least. -/
def Takes (n : Nat) (r : Read α) : Prop :=
  ∀ ⦃cs : List Char⦄ ⦃a : α⦄ ⦃rest : List Char⦄, r cs = some (a, rest) → rest <:+ cs ∧ rest.length + n ≤ cs.length

namespace Takes

variable {m n : Nat}

theorem mono (h : Takes n r) (hmn : m ≤ n) : Takes m r := fun _ _ _ hr =>
  ⟨(h hr).1, Nat.le_trans (Nat.add_le_add_left hmn _) (h hr).2⟩

theorem pure (a : α) : Takes 0 (Pure.pure a : Read α) := fun cs b rest h => by
  cases h
  exact ⟨List.suffix_refl cs, Nat.le_refl _⟩

theorem failure : Takes n (Alternative.failure : Read α) := fun _ _ _ h => nomatch h

theorem bind (hr : Takes m r) (hf : ∀ a, Takes n (f a)) : Takes (m + n) (r >>= f) := by
  intro cs b rest h
  obtain ⟨⟨a, mid⟩, hmid, hrest⟩ := Option.bind_eq_some_iff.mp h
  obtain ⟨hsuffix, hlen⟩ := hr hmid
  obtain ⟨hsuffix', hlen'⟩ := hf a hrest
  exact ⟨hsuffix'.trans hsuffix, by omega⟩

theorem map {g : α → β} (hr : Takes n r) : Takes n (g <$> r) := by
  intro cs b rest h
  obtain ⟨⟨a, mid⟩, hmid, hrest⟩ := Option.bind_eq_some_iff.mp h
  cases hrest
  exact hr hmid

theorem orElse (hr : Takes n r) (hs : Takes n s) : Takes n (r <|> s) := by
  intro cs a rest h
  cases hcs : r cs with
  | some p =>
    rw [orElse_of_some hcs] at h
    exact hr (hcs.trans h)
  | none =>
    rw [orElse_of_none hcs] at h
    exact hs h

theorem one (p : Char → Bool) : Takes 1 (Read.one p) := by
  intro cs a rest h
  cases cs with
  | nil => cases h
  | cons c cs =>
    rw [Read.one] at h
    split at h
    · cases h
      exact ⟨List.suffix_cons a rest, Nat.le_refl _⟩
    · cases h

theorem char (c : Char) : Takes 1 (Read.char c) := (one _).bind fun _ => pure ()

theorem exactly (lead : List Char) : Takes lead.length (Read.exactly lead) := by
  intro cs a rest h
  obtain ⟨mid, hmid, he⟩ := Option.map_eq_some_iff.mp h
  cases he
  obtain rfl := after?_eq_some_iff.mp hmid
  exact ⟨List.suffix_append lead _, Nat.le_of_eq (by rw [List.length_append, Nat.add_comm])⟩

theorem run (p : Char → Bool) : Takes 0 (Read.run p) := fun cs a rest h => by
  cases h
  exact ⟨List.dropWhile_suffix p, (List.dropWhile_suffix p).length_le⟩

theorem run1 (p : Char → Bool) : Takes 1 (Read.run1 p) := (one p).bind fun _ => (run p).bind fun _ => pure _

theorem optional (hr : Takes 0 r) : Takes 0 (Read.optional r) := hr.map.orElse (pure none)

theorem atEnd : Takes 0 Read.atEnd := fun cs a rest h => by
  cases cs with
  | nil => cases h; exact ⟨List.suffix_refl [], Nat.le_refl _⟩
  | cons c cs => cases h

theorem manyWithin (hr : Takes 0 r) (bound : List Char) : Takes 0 (Read.manyWithin r bound) := by
  induction bound with
  | nil => exact pure []
  | cons b bound ih =>
    intro cs as rest h
    rw [Read.manyWithin] at h
    split at h
    · cases h
      exact ⟨List.suffix_refl cs, Nat.le_refl _⟩
    · next a mid hmid =>
      obtain ⟨⟨as', rest'⟩, hrest, he⟩ := Option.map_eq_some_iff.mp h
      cases he
      exact ⟨(ih hrest).1.trans (hr hmid).1, Nat.le_trans (ih hrest).2 (hr hmid).2⟩

theorem many (hr : Takes 0 r) : Takes 0 (Read.many r) := fun cs _ _ h => manyWithin hr cs h

end Takes

/-! ## Repetitions -/

theorem eq_none_of_takes (h : Takes 1 r) : r [] = none := by
  cases hr : r [] with
  | none => rfl
  | some p => exact absurd (h hr).2 (by simp)

/-- A bound as long as the text is none. -/
theorem manyWithin_congr (h : Takes 1 r) {bound bound' : List Char} (hb : cs.length ≤ bound.length)
    (hb' : cs.length ≤ bound'.length) : manyWithin r bound cs = manyWithin r bound' cs := by
  induction bound generalizing bound' cs with
  | nil =>
    obtain rfl : cs = [] := List.length_eq_zero_iff.mp (Nat.le_zero.mp hb)
    cases bound' with
    | nil => rfl
    | cons b' bound' =>
      rw [manyWithin, manyWithin, eq_none_of_takes h]
  | cons b bound ih =>
    cases bound' with
    | nil =>
      obtain rfl : cs = [] := List.length_eq_zero_iff.mp (Nat.le_zero.mp hb')
      rw [manyWithin, manyWithin, eq_none_of_takes h]
    | cons b' bound' =>
      rw [manyWithin, manyWithin]
      cases hr : r cs with
      | none => rfl
      | some p =>
        have hlen : p.2.length + 1 ≤ cs.length := (h hr).2
        rw [List.length_cons] at hb hb'
        have hrest : manyWithin r bound p.2 = manyWithin r bound' p.2 := ih (by omega) (by omega)
        exact congrArg (Option.map _) hrest

theorem many_of_none (h : r cs = none) : many r cs = some ([], cs) := by
  cases cs with
  | nil => rfl
  | cons c cs => rw [many, manyWithin, h]

theorem many_of_some (ht : Takes 1 r) {a : α} (h : r cs = some (a, rest)) :
    many r cs = (many r rest).map fun (as, rest) => (a :: as, rest) := by
  have hlen := (ht h).2
  cases cs with
  | nil => exact absurd hlen (by simp)
  | cons c cs =>
    rw [many, manyWithin, h]
    rw [List.length_cons] at hlen
    have hrest : manyWithin r cs rest = many r rest := manyWithin_congr ht (by omega) (Nat.le_refl _)
    exact congrArg (Option.map _) hrest

theorem many_bind_of_none {f : List α → Read β} (h : r cs = none) : (many r >>= f) cs = f [] cs :=
  bind_of_some (many_of_none h)

theorem many_bind_of_some {f : List α → Read β} (ht : Takes 1 r) {a : α} (h : r cs = some (a, rest)) :
    (many r >>= f) cs = (many r >>= fun as => f (a :: as)) rest := by
  rw [bind_apply, bind_apply, many_of_some ht h]
  cases many r rest <;> rfl

/-! ## Even readings -/

/-- What the reading makes of a text with `e` behind it, seen from what it makes of the text. -/
inductive EvenAt (e : List Char) (r : Read α) (cs : List Char) : Prop
  | fails : r cs = none → r (cs ++ e) = none → EvenAt e r cs
  | leaves {a : α} {rest : List Char} : r cs = some (a, rest) → r (cs ++ e) = some (a, rest ++ e) → EvenAt e r cs
  | ends {a : α} : r cs = some (a, []) → r (cs ++ e) = some (a, []) → EvenAt e r cs

/-- Even on clean texts with a property. -/
structure EvenOn (P : List Char → Prop) (e : List Char) (r : Read α) : Prop where
  takes : Takes 0 r
  even {cs : List Char} : Clean cs → P cs → EvenAt e r cs

/-- Even on all clean texts. -/
abbrev Even (e : List Char) (r : Read α) : Prop := EvenOn (fun _ => True) e r

variable {e : List Char} {P Q : List Char → Prop}

namespace EvenAt

/-- The reading does as another one does, on another text. -/
theorem of_eq {ds : List Char} (h : EvenAt e s ds) (heq : r cs = s ds) (heq' : r (cs ++ e) = s (ds ++ e)) : EvenAt e r cs := by
  cases h with
  | fails h h' => exact .fails (heq.trans h) (heq'.trans h')
  | leaves h h' => exact .leaves (heq.trans h) (heq'.trans h')
  | ends h h' => exact .ends (heq.trans h) (heq'.trans h')

/-- The reading goes on where nothing is left, with the line end and without. -/
theorem of_nil (ht : Takes 0 s) (heq : r cs = s []) (heq' : r (cs ++ e) = s []) : EvenAt e r cs := by
  cases hs : s [] with
  | none => exact .fails (heq.trans hs) (heq'.trans hs)
  | some p =>
    obtain ⟨a, rest⟩ := p
    obtain rfl : rest = [] := List.suffix_nil.mp (ht hs).1
    exact .ends (heq.trans hs) (heq'.trans hs)

theorem bind (h : EvenAt e r cs) (hf : ∀ a rest, r cs = some (a, rest) → EvenAt e (f a) rest) (ht : ∀ a, Takes 0 (f a)) :
    EvenAt e (r >>= f) cs := by
  cases h with
  | fails h h' => exact .fails (bind_of_none h) (bind_of_none h')
  | leaves h h' => exact (hf _ _ h).of_eq (bind_of_some h) (bind_of_some h')
  | ends h h' => exact .of_nil (ht _) (bind_of_some h) (bind_of_some h')

theorem orElse (h : EvenAt e r cs) (h' : EvenAt e s cs) : EvenAt e (r <|> s) cs := by
  cases h with
  | leaves hr hr' => exact .leaves (orElse_of_some hr) (orElse_of_some hr')
  | ends hr hr' => exact .ends (orElse_of_some hr) (orElse_of_some hr')
  | fails hr hr' =>
    cases h' with
    | leaves hs hs' => exact .leaves ((orElse_of_none hr).trans hs) ((orElse_of_none hr').trans hs')
    | ends hs hs' => exact .ends ((orElse_of_none hr).trans hs) ((orElse_of_none hr').trans hs')
    | fails hs hs' => exact .fails ((orElse_of_none hr).trans hs) ((orElse_of_none hr').trans hs')

end EvenAt

namespace EvenOn

theorem mono (h : EvenOn Q e r) (hPQ : ∀ cs, P cs → Q cs) : EvenOn P e r := ⟨h.takes, fun hcs hP => h.even hcs (hPQ _ hP)⟩

theorem on (h : EvenOn (fun _ => True) e r) : EvenOn P e r := h.mono fun _ _ => trivial

/-- Even where there is some text, and where there is none. -/
theorem of_ne_nil (h : EvenOn (· ≠ []) e r) (hnil : EvenAt e r []) : Even e r where
  takes := h.takes
  even {cs} hcs _ := by
    cases cs with
    | nil => exact hnil
    | cons c cs => exact h.even hcs (List.cons_ne_nil c cs)

theorem pure (a : α) : EvenOn P e (Pure.pure a : Read α) := ⟨Takes.pure a, fun _ _ => .leaves rfl rfl⟩

theorem failure : EvenOn P e (Alternative.failure : Read α) := ⟨Takes.failure, fun _ _ => .fails rfl rfl⟩

/-- One after the other, where the first leaves texts on which the second is even. -/
theorem bindOn (hr : EvenOn P e r) (hstep : ∀ {cs a rest}, P cs → r cs = some (a, rest) → Q rest)
    (hf : ∀ a, EvenOn Q e (f a)) : EvenOn P e (r >>= f) where
  takes := hr.takes.bind fun a => (hf a).takes
  even hcs hP := (hr.even hcs hP).bind (fun a _ h => (hf a).even (hcs.of_suffix (hr.takes h).1) (hstep hP h)) fun a => (hf a).takes

theorem bind (hr : EvenOn P e r) (hf : ∀ a, Even e (f a)) : EvenOn P e (r >>= f) := hr.bindOn (fun _ _ => trivial) hf

theorem orElse (hr : EvenOn P e r) (hs : EvenOn P e s) : EvenOn P e (r <|> s) where
  takes := hr.takes.orElse hs.takes
  even hcs hP := (hr.even hcs hP).orElse (hs.even hcs hP)

theorem map {g : α → β} (hr : EvenOn P e r) : EvenOn P e (g <$> r) := by
  rw [map_eq_pure_bind]
  exact hr.bind fun _ => pure _

theorem optional (hr : EvenOn P e r) : EvenOn P e (Read.optional r) := hr.map.orElse (pure none)

theorem ite {c : Prop} [Decidable c] (hr : EvenOn P e r) (hs : EvenOn P e s) : EvenOn P e (if c then r else s) := by
  split
  · exact hr
  · exact hs

/-- A single character, where there is one. -/
theorem one_of_ne_nil (p : Char → Bool) : EvenOn (· ≠ []) e (Read.one p) where
  takes := (Takes.one p).mono (Nat.zero_le 1)
  even {cs} _ hne := by
    cases cs with
    | nil => exact absurd rfl hne
    | cons c cs =>
      cases hp : p c with
      | false => exact .fails (by rw [Read.one, hp]; rfl) (by rw [List.cons_append, Read.one, hp]; rfl)
      | true => exact .leaves (by rw [Read.one, if_pos hp]) (by rw [List.cons_append, Read.one, if_pos hp])

theorem atEnd : EvenOn (· ≠ []) e Read.atEnd where
  takes := Takes.atEnd
  even {cs} _ hne := by
    cases cs with
    | nil => exact absurd rfl hne
    | cons c cs => exact .fails rfl rfl

end EvenOn

/-! ## Characters that no line end has -/

namespace Even

variable {p : Char → Bool} (he : IsLineEnd e)

include he

theorem one (hp : Inline p) : Even e (Read.one p) := (EvenOn.one_of_ne_nil p).of_ne_nil <| by
  refine .fails rfl ?_
  cases he with
  | feed => rw [List.nil_append, Read.one, hp.1]; rfl
  | returned => rw [List.nil_append, Read.one, hp.2]; rfl

theorem char {c : Char} (hc : c ≠ '\n' ∧ c ≠ '\r') : Even e (Read.char c) :=
  (one (p := (· == c)) he ⟨beq_false_of_ne hc.1.symm, beq_false_of_ne hc.2.symm⟩).bind fun _ => .pure ()

theorem after?_append {lead : List Char} (hlead : '\n' ∉ lead ∧ '\r' ∉ lead) (cs : List Char) :
    after? lead (cs ++ e) = (after? lead cs).map (· ++ e) := by
  induction lead generalizing cs with
  | nil => rfl
  | cons l lead ih =>
    obtain ⟨hfeed, hreturn⟩ := hlead
    rw [List.mem_cons, not_or] at hfeed hreturn
    cases cs with
    | nil => cases he with
      | feed => exact if_neg (Ne.symm hfeed.1)
      | returned => exact if_neg (Ne.symm hreturn.1)
    | cons c cs =>
      rw [List.cons_append, after?, after?]
      split
      · exact ih ⟨hfeed.2, hreturn.2⟩ cs
      · rfl

theorem exactly {lead : List Char} (hlead : '\n' ∉ lead ∧ '\r' ∉ lead) : Even e (Read.exactly lead) where
  takes := (Takes.exactly lead).mono (Nat.zero_le _)
  even {cs} _ _ := by
    have hafter := after?_append he hlead cs
    cases h : after? lead cs with
    | none => exact .fails (by rw [Read.exactly, h]; rfl) (by rw [Read.exactly, hafter, h]; rfl)
    | some rest => exact .leaves (by rw [Read.exactly, h]; rfl) (by rw [Read.exactly, hafter, h]; rfl)

theorem run_append (hp : Inline p) (cs : List Char) : Read.run p (cs ++ e) = some (cs.takeWhile p, cs.dropWhile p ++ e) := by
  induction cs with
  | nil => cases he with
    | feed => simp [Read.run, hp.1]
    | returned => simp [Read.run, hp.2]
  | cons c cs ih =>
    simp only [Read.run, Option.some.injEq, Prod.mk.injEq] at ih ⊢
    cases hc : p c <;> simp [hc, ih]

theorem run (hp : Inline p) : Even e (Read.run p) := ⟨Takes.run p, fun {cs} _ _ => .leaves rfl (run_append he hp cs)⟩

theorem run1 (hp : Inline p) : Even e (Read.run1 p) := (one he hp).bind fun _ => (run he hp).bind fun _ => .pure _

theorem times (hp : Inline p) : ∀ n, Even e (Read.times p n)
  | 0 => .pure []
  | n + 1 => (one he hp).bind fun _ => (times hp n).bind fun _ => .pure _

end Even

/-! ## Repetitions of even readings -/

/-- A repetition up to a mark: without it what follows fails. -/
theorem EvenOn.many_bind {f : List α → Read β} (hr : EvenOn P e r) (ht : Takes 1 r) (hf : ∀ as, Even e (f as))
    (hnone : ∀ as cs, ¬ P cs → f as cs = none) (hup : ∀ {cs rest}, rest <:+ cs → P rest → P cs)
    (hbehind : ∀ {cs}, P (cs ++ e) → P cs) : Even e (many r >>= f) where
  takes := (Takes.many hr.takes).bind fun as => (hf as).takes
  even {cs} hcs _ := by
    -- what is read first becomes part of what follows, which is therefore any reading here
    induction hn : cs.length using Nat.strongRecOn generalizing cs f with
    | _ n ih =>
      subst hn
      have hlost : ∀ cs, ¬ P cs → (many r >>= f) cs = none := by
        intro cs hP
        cases hm : many r cs with
        | none => exact bind_of_none hm
        | some p => exact (bind_of_some hm).trans (hnone p.1 p.2 fun hrest => hP (hup (Takes.many hr.takes hm).1 hrest))
      by_cases hP : P cs
      · cases hr.even hcs hP with
        | fails h h' => exact ((hf []).even hcs trivial).of_eq (many_bind_of_none h) (many_bind_of_none h')
        | @leaves a rest h h' =>
          have hnext := ih _ (ht h).2 (fun as => hf (a :: as)) (fun as => hnone (a :: as)) (hcs.of_suffix (ht h).1) rfl
          exact hnext.of_eq (many_bind_of_some ht h) (many_bind_of_some ht h')
        | @ends a h h' =>
          have htakes := (Takes.many hr.takes).bind fun as => (hf (a :: as)).takes
          exact .of_nil htakes (many_bind_of_some ht h) (many_bind_of_some ht h')
      · exact .fails (hlost cs hP) (hlost _ fun h => hP (hbehind h))

theorem Even.many_bind {f : List α → Read β} (hr : Even e r) (ht : Takes 1 r) (hf : ∀ as, Even e (f as)) :
    Even e (many r >>= f) :=
  EvenOn.many_bind hr ht hf (fun _ _ h => absurd trivial h) (fun _ _ => trivial) fun _ => trivial

theorem Even.many (hr : Even e r) (ht : Takes 1 r) : Even e (many r) := by
  rw [← bind_pure (Read.many r)]
  exact hr.many_bind ht fun _ => .pure _

theorem Even.separated {separator : Read Unit} (hr : Even e r) (hs : Even e separator) (ht : Takes 1 separator) :
    Even e (separated r separator) :=
  (hr.bind fun _ => (Even.many (hs.bind fun _ => hr) (ht.bind fun _ => hr.takes)).bind fun _ => .pure _).orElse (.pure [])

/-- What is repeated may be the line end: then it comes last. -/
theorem EvenOn.many_append (hr : EvenOn (· ≠ []) e r) (ht : Takes 1 r) {z : α} (hz : r e = some (z, [])) (hcs : Clean cs) :
    ∃ as rest, many r cs = some (as, rest) ∧ (rest ≠ [] ∧ many r (cs ++ e) = some (as, rest ++ e) ∨
      rest = [] ∧ (many r (cs ++ e) = some (as, []) ∨ many r (cs ++ e) = some (as ++ [z], []))) := by
  have hnil : many r [] = some ([], []) := rfl
  induction hn : cs.length using Nat.strongRecOn generalizing cs with
  | _ n ih =>
    subst hn
    by_cases hne : cs = []
    · subst hne
      refine ⟨[], [], rfl, Or.inr ⟨rfl, Or.inr ?_⟩⟩
      rw [List.nil_append, many_of_some ht hz, hnil]
      rfl
    · cases hr.even hcs hne with
      | fails h h' => exact ⟨[], cs, many_of_none h, Or.inl ⟨hne, many_of_none h'⟩⟩
      | leaves h h' =>
        obtain ⟨as, last, hm, hm'⟩ := ih _ (ht h).2 (hcs.of_suffix (ht h).1) rfl
        refine ⟨_ :: as, last, by rw [many_of_some ht h, hm]; rfl, ?_⟩
        rw [many_of_some ht h']
        rcases hm' with ⟨hlast, hm'⟩ | ⟨hlast, hm' | hm'⟩
        · exact Or.inl ⟨hlast, by rw [hm']; rfl⟩
        · exact Or.inr ⟨hlast, Or.inl (by rw [hm']; rfl)⟩
        · exact Or.inr ⟨hlast, Or.inr (by rw [hm']; rfl)⟩
      | ends h h' =>
        refine ⟨[_], [], by rw [many_of_some ht h, hnil]; rfl, Or.inr ⟨rfl, Or.inl ?_⟩⟩
        rw [many_of_some ht h', hnil]
        rfl

/-- A repetition that may take the line end, of which nothing is kept. -/
theorem EvenOn.skip {s : Read β} (hr : EvenOn (· ≠ []) e r) (ht : Takes 1 r) {z : α} (hz : r e = some (z, [])) (hs : Even e s) :
    Even e (Read.many r >>= fun _ => s) where
  takes := (Takes.many hr.takes).bind fun _ => hs.takes
  even {cs} hcs _ := by
    obtain ⟨as, rest, hm, ⟨-, hm'⟩ | ⟨rfl, hm' | hm'⟩⟩ := hr.many_append ht hz hcs
    · exact (hs.even (hcs.of_suffix (Takes.many hr.takes hm).1) trivial).of_eq (bind_of_some hm) (bind_of_some hm')
    · exact .of_nil hs.takes (bind_of_some hm) (bind_of_some hm')
    · exact .of_nil hs.takes (bind_of_some hm) (bind_of_some hm')

end Read

end MailMerge.Text
