/-
  MailMerge.Proofs.Operand.Written — operands and the texts they are written as.

  A segment is a text that is not empty and holds no blank, no dot and no parenthesis. An
  operand is proper if all its segments are; it is written as its segments with a dot between
  each two of them. No character of what is written is a blank, so nothing is trimmed from it,
  and no segment has a dot, so it is split where it was joined.

  Proved: a text reads as an operand exactly if the operand is proper and the trimmed text is
  what it is written as (`parse_eq_ok_iff`), with what follows from that (`parse_written`).
-/

import MailMerge.Operand
import MailMerge.Proofs.Traversal

namespace MailMerge

namespace Text

/-! ## Cutting and joining -/

theorem extend_eq_modifyHead {c : Char} {pieces : List (List Char)} (h : pieces ≠ []) :
    extend c pieces = pieces.modifyHead (c :: ·) := by
  cases pieces with
  | nil => exact absurd rfl h
  | cons piece pieces => rfl

theorem splitAt_eq_splitOn (sep : Char) (cs : List Char) : splitAt sep cs = cs.splitOn sep := by
  induction cs with
  | nil => rfl
  | cons c cs ih =>
    rw [splitAt, List.splitOn_cons_eq_if_modifyHead, extend_eq_modifyHead (splitAt_ne_nil sep cs), ih]
    simp only [beq_iff_eq]

theorem not_mem_of_mem_splitAt {sep : Char} {cs piece : List Char} (h : piece ∈ splitAt sep cs) : sep ∉ piece := by
  induction cs generalizing piece with
  | nil =>
    rw [List.mem_singleton.mp h]
    exact List.not_mem_nil
  | cons c cs ih =>
    rw [splitAt] at h
    split at h
    · rcases List.mem_cons.mp h with rfl | h
      · exact List.not_mem_nil
      · exact ih h
    · next hc =>
      obtain ⟨first, rest, hsplit⟩ := List.exists_cons_of_ne_nil (splitAt_ne_nil sep cs)
      rw [hsplit] at h ih
      rcases List.mem_cons.mp h with rfl | h
      · rw [List.mem_cons, not_or]
        exact ⟨Ne.symm hc, ih List.mem_cons_self⟩
      · exact ih (List.mem_cons_of_mem first h)

/-- Where there are no blanks nothing is trimmed. -/
theorem trim_of_not_blank {cs : List Char} (h : ∀ c ∈ cs, isBlank c = false) : trim cs = cs := by
  have hstart : trimStart cs = cs := by
    cases cs with
    | nil => rfl
    | cons c cs => exact List.dropWhile_cons_of_neg (by simp [h c List.mem_cons_self])
  have hend : cs.reverse.dropWhile isBlank = cs.reverse := by
    cases hr : cs.reverse with
    | nil => rfl
    | cons c rest =>
      have hc : c ∈ cs := List.mem_reverse.mp (hr ▸ List.mem_cons_self)
      exact List.dropWhile_cons_of_neg (by simp [h c hc])
  rw [trim, hstart, trimEnd, hend, List.reverse_reverse]

end Text

namespace Operand

open MailMerge.Text

/-- What may stand between dots. -/
structure IsSegment (s : String) : Prop where
  nonempty : s ≠ ""
  noBlank : ∀ c ∈ s.toList, isBlank c = false
  noDot : '.' ∉ s.toList
  noParenthesis : '(' ∉ s.toList ∧ ')' ∉ s.toList

/-- All segments are such. -/
def Proper (o : Operand) : Prop := ∀ s ∈ o.segments, IsSegment s

/-! ## Reading -/

theorem checkSegment_eq_ok {piece : List Char} (hdot : '.' ∉ piece) {s : String} :
    checkSegment piece = .ok s ↔ s.toList = piece ∧ IsSegment s := by
  unfold checkSegment
  split
  · next hempty =>
    rw [List.isEmpty_iff] at hempty
    subst hempty
    simp only [reduceCtorEq, false_iff, not_and]
    exact fun hs h => h.nonempty (String.toList_eq_nil_iff.mp hs)
  · next hempty =>
    split
    · next hany =>
      obtain ⟨c, hc, hforbidden⟩ := List.any_eq_true.mp hany
      simp only [reduceCtorEq, false_iff, not_and]
      rintro rfl h
      simp only [isForbidden, h.noBlank c hc, Bool.false_or, Bool.or_eq_true, beq_iff_eq] at hforbidden
      rcases hforbidden with rfl | rfl
      · exact h.noParenthesis.1 hc
      · exact h.noParenthesis.2 hc
    · next hany =>
      have hallowed : ∀ c ∈ piece, isBlank c = false ∧ c ≠ '(' ∧ c ≠ ')' := by
        intro c hc
        simpa [isForbidden, and_assoc] using fun hf => hany (List.any_eq_true.mpr ⟨c, hc, hf⟩)
      rw [Except.ok.injEq]
      constructor
      · rintro rfl
        rw [String.toList_ofList]
        refine ⟨rfl, fun he => hempty ?_, ?_, ?_, ?_, ?_⟩
        · rw [List.isEmpty_iff, ← @String.toList_ofList piece, he]
          rfl
        all_goals rw [String.toList_ofList]
        · exact fun c hc => (hallowed c hc).1
        · exact hdot
        · exact fun hc => (hallowed _ hc).2.1 rfl
        · exact fun hc => (hallowed _ hc).2.2 rfl
      · rintro ⟨rfl, -⟩
        exact String.ofList_toList

theorem mapM_checkSegment_eq_ok {pieces : List (List Char)} (hdot : ∀ piece ∈ pieces, '.' ∉ piece) {segments : List String} :
    pieces.mapM checkSegment = .ok segments ↔ segments.map String.toList = pieces ∧ ∀ s ∈ segments, IsSegment s := by
  constructor
  · intro h
    have hread := forall₂_of_mapM_eq_ok h
    clear h
    induction hread with
    | nil => exact ⟨rfl, List.forall_mem_nil _⟩
    | cons hone _ ih =>
      obtain ⟨hpiece, hpieces⟩ := List.forall_mem_cons.mp hdot
      obtain ⟨rfl, hs⟩ := (checkSegment_eq_ok hpiece).mp hone
      obtain ⟨rfl, hrest⟩ := ih hpieces
      exact ⟨rfl, List.forall_mem_cons.mpr ⟨hs, hrest⟩⟩
  · rintro ⟨rfl, h⟩
    refine mapM_eq_ok_of_forall₂ (List.forall₂_map_left_iff.mpr (List.forall₂_same.mpr fun s hs => ?_))
    exact (checkSegment_eq_ok (h s hs).noDot).mpr ⟨rfl, h s hs⟩

theorem toList_toString (o : Operand) : o.toString.toList = ['.'].intercalate (o.segments.map String.toList) :=
  String.toList_intercalate

/-- A text is cut into the segments of a proper operand exactly if it is what they are joined to. -/
theorem splitAt_eq_iff {o : Operand} (h : o.Proper) {text : List Char} :
    o.segments.map String.toList = splitAt '.' text ↔ o.toString.toList = text := by
  rw [toList_toString, splitAt_eq_splitOn]
  constructor
  · intro he
    rw [he, List.intercalate_splitOn]
  · rintro rfl
    refine (List.splitOn_intercalate '.' (fun piece hp => ?_) (by simp [segments])).symm
    obtain ⟨s, hs, rfl⟩ := List.mem_map.mp hp
    exact (h s hs).noDot

theorem Proper.toString_ne_nil {o : Operand} (h : o.Proper) : o.toString.toList ≠ [] := by
  intro hnil
  have hsplit := (splitAt_eq_iff h).mpr hnil
  have hroot := (List.cons.inj hsplit).1
  exact (h o.root List.mem_cons_self).nonempty (String.toList_eq_nil_iff.mp hroot)

theorem ofSegments_eq_ok {text : List Char} {o : Operand} : ofSegments text = .ok o ↔ o.Proper ∧ o.toString.toList = text := by
  have hcut : (splitAt '.' text).mapM checkSegment = .ok o.segments ↔ o.Proper ∧ o.toString.toList = text := by
    rw [mapM_checkSegment_eq_ok fun _ => not_mem_of_mem_splitAt, and_comm]
    exact and_congr_right fun h => splitAt_eq_iff h
  rw [← hcut, ofSegments]
  split
  · next hempty =>
    rw [List.isEmpty_iff] at hempty
    refine ⟨fun h => (by cases h), fun h => ?_⟩
    obtain ⟨hproper, htext⟩ := hcut.mp h
    exact absurd (htext.trans hempty) hproper.toString_ne_nil
  · cases hpieces : (splitAt '.' text).mapM checkSegment with
    | error e => exact ⟨fun h => (by cases h), fun h => (by cases h)⟩
    | ok pieces =>
      cases pieces with
      | nil => exact ⟨fun h => (by cases h), fun h => (by cases h)⟩
      | cons root members =>
        show Except.ok (Operand.mk root members) = .ok o ↔ Except.ok (root :: members) = Except.ok (o.root :: o.members)
        obtain ⟨root', members'⟩ := o
        simp

/-- Nothing in what a proper operand is written as is a blank. -/
theorem Proper.not_blank {o : Operand} (h : o.Proper) : ∀ c ∈ o.toString.toList, isBlank c = false := by
  intro c hc
  by_cases hdot : c = '.'
  · subst hdot
    rfl
  · have hkept : c ∈ (splitAt '.' o.toString.toList).flatten := by
      rw [flatten_splitAt]
      exact List.mem_filter.mpr ⟨hc, by simpa using hdot⟩
    rw [← (splitAt_eq_iff h).mpr rfl] at hkept
    obtain ⟨piece, hpiece, hmem⟩ := List.mem_flatten.mp hkept
    obtain ⟨s, hs, rfl⟩ := List.mem_map.mp hpiece
    exact (h s hs).noBlank c hmem

theorem Proper.trimmed_toString {o : Operand} (h : o.Proper) : trimmed o.toString = o.toString := by
  rw [trimmed, trim_of_not_blank h.not_blank, String.ofList_toList]

theorem parse_eq_ok_iff {t : String} {o : Operand} : parse t = .ok o ↔ o.Proper ∧ o.toString = trimmed t := by
  have hread : parse t = .ok o ↔ ofSegments (trim t.toList) = .ok o := by
    rw [parse]
    cases ofSegments (trim t.toList) <;> simp [Except.mapError]
  rw [hread, ofSegments_eq_ok, trimmed, ← String.toList_inj, String.toList_ofList]

theorem text_of_parse_eq_error {t : String} {e : OperandError} (h : parse t = .error e) : e.text = trimmed t := by
  rw [parse] at h
  cases hread : ofSegments (trim t.toList) with
  | ok o => rw [hread] at h; cases h
  | error fault =>
    rw [hread] at h
    cases h
    rfl

/-- Segments are told by the text that they are joined to. -/
theorem Proper.eq_of_toString {o o' : Operand} (h : o.Proper) (h' : o'.Proper) (ht : o.toString = o'.toString) : o = o' := by
  have hread := parse_eq_ok_iff.mpr ⟨h, h.trimmed_toString.symm⟩
  have hread' := parse_eq_ok_iff.mpr ⟨h', h'.trimmed_toString.symm⟩
  rw [ht, hread'] at hread
  exact (Except.ok.inj hread).symm

/-- A text reads as an operand exactly if it is one once it is trimmed, and as the operand
    that is written so. -/
theorem parse_written (t : String) :
    ((∃ o, parse t = .ok o) ↔ ∃ segments : List String, segments ≠ [] ∧ (∀ s ∈ segments, IsSegment s) ∧
      trimmed t = String.intercalate "." segments) ∧
    (∀ o, parse t = .ok o → o.toString = trimmed t ∧ parse o.toString = .ok o ∧
      ∀ root members, (∀ s ∈ root :: members, IsSegment s) → trimmed t = String.intercalate "." (root :: members) →
        o.root = root ∧ o.members = members) ∧
    (∀ e, parse t = .error e → e.text = trimmed t) ∧
    ∀ o : Operand, (∀ s ∈ o.segments, IsSegment s) → parse o.toString = .ok o := by
  have hback : ∀ o : Operand, o.Proper → parse o.toString = .ok o := fun o h =>
    parse_eq_ok_iff.mpr ⟨h, h.trimmed_toString.symm⟩
  refine ⟨⟨?_, ?_⟩, fun o ho => ?_, fun e => text_of_parse_eq_error, hback⟩
  · rintro ⟨o, ho⟩
    obtain ⟨hproper, htext⟩ := parse_eq_ok_iff.mp ho
    exact ⟨o.segments, List.cons_ne_nil _ _, hproper, htext.symm⟩
  · rintro ⟨segments, hne, hsegments, htext⟩
    obtain ⟨root, members, rfl⟩ := List.exists_cons_of_ne_nil hne
    exact ⟨⟨root, members⟩, parse_eq_ok_iff.mpr ⟨hsegments, htext.symm⟩⟩
  · obtain ⟨hproper, htext⟩ := parse_eq_ok_iff.mp ho
    refine ⟨htext, hback o hproper, fun root members hsegments hjoined => ?_⟩
    have hsame : o = ⟨root, members⟩ := hproper.eq_of_toString hsegments (htext.trans hjoined)
    subst hsame
    exact ⟨rfl, rfl⟩

/-- Blanks around the whole do not count. -/
theorem city_written : parse " person.address.city " = .ok ⟨"person", ["address", "city"]⟩ ∧
    (⟨"person", ["address", "city"]⟩ : Operand).toString = "person.address.city" ∧
    parse (⟨"person", ["address", "city"]⟩ : Operand).toString = .ok ⟨"person", ["address", "city"]⟩ := by
  have hread : parse " person.address.city " = .ok ⟨"person", ["address", "city"]⟩ := by rfl
  obtain ⟨htext, hback, -⟩ := (parse_written " person.address.city ").2.1 _ hread
  exact ⟨hread, htext.trans (by rfl), hback⟩

end Operand

end MailMerge
