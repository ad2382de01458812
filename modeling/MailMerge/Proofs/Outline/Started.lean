/-
  MailMerge.Proofs.Outline.Started — the statements that the fields of a scan start.

  A build keeps the statements at the top level only. But what it takes for a field that
  starts a block is a statement wherever the field stands, and can be computed from that place
  on (`started`). It is made of a group of the fields: the one that starts it, the one that
  ends it, and what is taken in between (`Group`).

  Proved: the statements started are those of the groups (`mem_started`); between two fields
  that bound a block of such a statement there are only whole groups (`Group.segment`).
-/

import MailMerge.Proofs.Outline.Groups

namespace MailMerge

namespace Outline

/-- The statements that fields start, each taken from the place of the field that starts it. -/
def started (r : Registry) (t : Tree) : List Field → List Statement
  | [] => []
  | f :: rest =>
    match takeField r t true false Ledger.empty f rest with
    | .ok (some s, _, _) => s :: started r t rest
    | _ => started r t rest

/-- A statement that consecutive fields of `fs` make. -/
inductive Group (r : Registry) (t : Tree) (fs : List Field) : Statement → Prop
  | intro (before after : List Field) {inner marks : List Field} {f e : Field} {stop : String} {isMarker : String → Bool}
      {s : Statement} :
      fs = before ++ (f :: inner ++ e :: after) → closing? r f = some (stop, isMarker) → Filled r t stop isMarker inner marks →
      e.expression = stop → Closes t f (r.directive f.expression) marks e s → Group r t fs s

variable {r : Registry} {t : Tree} {fs : List Field} {s : Statement}

theorem Group.resolves (h : Group r t fs s) {b : Block} (hb : b ∈ s.blocks) : Block.resolve? t b.startField b.endField = some b := by
  cases h with
  | intro _ _ _ _ _ _ hclose => exact hclose.resolves hb

theorem Group.of_suffix (before : List Field) {fs' : List Field} (h : Group r t fs' s) (hfs : fs = before ++ fs') :
    Group r t fs s := by
  cases h with
  | intro before' after he hc hfill hstop hclose =>
    exact .intro (before ++ before') after (by rw [hfs, he, List.append_assoc]) hc hfill hstop hclose

theorem mem_started_cons {f : Field} {rest : List Field} : s ∈ started r t (f :: rest) ↔
    (∃ l left, takeField r t true false Ledger.empty f rest = .ok (some s, l, left)) ∨ s ∈ started r t rest := by
  rw [started]
  cases htake : takeField r t true false Ledger.empty f rest with
  | error e => simp
  | ok taken =>
    obtain ⟨s?, l, left⟩ := taken
    cases s? with
    | none => simp
    | some s' => simp [eq_comm]

/-- What a field starts is made of the fields from its place on. -/
theorem takeField_eq_some {f : Field} {rest : List Field} : (∃ l left, takeField r t true false Ledger.empty f rest = .ok (some s, l, left)) ↔
    ∃ stop isMarker inner marks e after, rest = inner ++ e :: after ∧ closing? r f = some (stop, isMarker) ∧
      Filled r t stop isMarker inner marks ∧ e.expression = stop ∧ Closes t f (r.directive f.expression) marks e s := by
  constructor
  · rintro ⟨l, left, htake⟩
    cases hc : closing? r f with
    | none =>
      rw [takeField_nested_of_none rest hc] at htake
      cases htake
    | some closing =>
      obtain ⟨stop, isMarker⟩ := closing
      obtain ⟨marks, e, l₁, s', huntil, hclose, hs, -⟩ := (takeField_eq_ok hc).mp htake
      cases hs
      obtain ⟨inner, hsplit, he, hfill, -⟩ := takeUntil_eq_ok huntil
      exact ⟨stop, isMarker, inner, marks, e, left.1, hsplit, rfl, hfill, he, hclose⟩
  · rintro ⟨stop, isMarker, inner, marks, e, after, rfl, hc, hfill, he, hclose⟩
    obtain ⟨l, left, huntil, -⟩ := exists_takeUntil_eq_ok hfill he f Ledger.empty after
    exact ⟨_, left, (takeField_eq_ok hc).mpr ⟨marks, e, l, s, huntil, hclose, rfl, rfl⟩⟩

/-- The statements started are those that groups of the fields make. -/
theorem mem_started : s ∈ started r t fs ↔ Group r t fs s := by
  induction fs with
  | nil =>
    constructor
    · intro hs
      cases hs
    · rintro ⟨before, after, he⟩
      simp at he
  | cons f rest ih =>
    rw [mem_started_cons, takeField_eq_some, ih]
    constructor
    · rintro (⟨stop, isMarker, inner, marks, e, after, rfl, hc, hfill, he, hclose⟩ | hgroup)
      · exact .intro [] after rfl hc hfill he hclose
      · exact hgroup.of_suffix [f] rfl
    · rintro ⟨before, after, he, hc, hfill, hstop, hclose⟩
      cases before with
      | nil =>
        obtain ⟨rfl, rfl⟩ := List.cons.inj he
        exact Or.inl ⟨_, _, _, _, _, after, rfl, hc, hfill, hstop, hclose⟩
      | cons f' before =>
        obtain ⟨-, rfl⟩ := List.cons.inj he
        exact Or.inr (.intro before after rfl hc hfill hstop hclose)

/-! ## Segments -/

/-- At a mark the fields in front of the end are cut in two. -/
theorem Filled.split {stop : String} {isMarker : String → Bool} {inner marks : List Field} (h : Filled r t stop isMarker inner marks)
    {marks₁ marks₂ : List Field} {m : Field} (hm : marks = marks₁ ++ m :: marks₂) : ∃ inner₁ inner₂, inner = inner₁ ++ m :: inner₂ ∧
      Filled r t stop isMarker inner₁ marks₁ ∧ Filled r t stop isMarker inner₂ marks₂ := by
  induction h generalizing marks₁ with
  | nil => simp at hm
  | @mark stop isMarker f inner marks hs hmark hfill ih =>
    cases marks₁ with
    | nil =>
      obtain ⟨rfl, rfl⟩ := List.cons.inj hm
      exact ⟨[], inner, rfl, .nil, hfill⟩
    | cons m' marks₁ =>
      obtain ⟨rfl, rfl⟩ := List.cons.inj hm
      obtain ⟨inner₁, inner₂, rfl, hfill₁, hfill₂⟩ := ih rfl
      exact ⟨f :: inner₁, inner₂, rfl, .mark hs hmark hfill₁, hfill₂⟩
  | @lone stop isMarker f inner marks hs hmark hc _ ih =>
    obtain ⟨inner₁, inner₂, rfl, hfill₁, hfill₂⟩ := ih hm
    exact ⟨f :: inner₁, inner₂, rfl, .lone hs hmark hc hfill₁, hfill₂⟩
  | @block stop stop' isMarker isMarker' f e inner inner' marks marks' s' hs hmark hc hin he hclose _ _ ih =>
    obtain ⟨inner₁, inner₂, rfl, hfill₁, hfill₂⟩ := ih hm
    exact ⟨f :: inner' ++ e :: inner₁, inner₂, by simp, .block hs hmark hc hin he hclose hfill₁, hfill₂⟩

/-- Up to the next mark, or to the end, there are only whole groups. -/
theorem Filled.first {stop : String} {isMarker : String → Bool} {inner marks : List Field} (h : Filled r t stop isMarker inner marks)
    {e m : Field} {post : List Field} (hm : marks ++ [e] = m :: post) (after : List Field) : ∃ inner₁ after',
      inner ++ e :: after = inner₁ ++ m :: after' ∧ Filled r t stop isMarker inner₁ [] := by
  cases marks with
  | nil =>
    obtain ⟨rfl, -⟩ := List.cons.inj hm
    exact ⟨inner, after, rfl, h⟩
  | cons m' marks =>
    obtain ⟨rfl, -⟩ := List.cons.inj hm
    have hcut : m' :: marks = [] ++ m' :: marks := rfl
    obtain ⟨inner₁, inner₂, rfl, hfill, -⟩ := h.split hcut
    exact ⟨inner₁, inner₂ ++ e :: after, by simp, hfill⟩

/-- Between the fields that bound a block there are only whole groups. -/
theorem Group.segment (h : Group r t fs s) {b : Block} (hb : b ∈ s.blocks) : ∃ before seg after stop isMarker,
    fs = before ++ (b.startField :: seg ++ b.endField :: after) ∧ Filled r t stop isMarker seg [] := by
  cases h with
  | @intro before after inner marks f e stop isMarker s hfs hc hfill he hclose =>
    have hmem : b.ends ∈ (f :: (marks ++ [e])).zip (marks ++ [e]) := hclose.ends ▸ List.mem_map_of_mem hb
    obtain ⟨pre, post, hsplit⟩ := beside_of_mem_zip hmem
    cases pre with
    | nil =>
      obtain ⟨hf, hm⟩ := List.cons.inj hsplit
      obtain ⟨seg, after', hseg, hfill'⟩ := hfill.first hm after
      exact ⟨before, seg, after', stop, isMarker, by rw [hfs, List.cons_append, hseg, hf]; rfl, hfill'⟩
    | cons f' pre =>
      -- the block starts at a mark
      obtain ⟨-, hm⟩ := List.cons.inj hsplit
      obtain ⟨marks₂, hmarks, hrest⟩ : ∃ marks₂, marks = pre ++ b.ends.1 :: marks₂ ∧ marks₂ ++ [e] = b.ends.2 :: post := by
        rcases List.append_eq_append_iff.mp hm with ⟨k, hk, hk'⟩ | ⟨k, hk, hk'⟩
        · cases k with
          | nil => simp at hk'
          | cons _ k =>
            have hlen := congrArg List.length hk'
            simp at hlen
        · cases k with
          | nil => simp at hk'
          | cons x k =>
            obtain ⟨rfl, hk'⟩ := List.cons.inj hk'
            exact ⟨k, hk, (List.cons.inj hk').2.symm⟩
      obtain ⟨inner₁, inner₂, hinner, -, hfill₂⟩ := hfill.split hmarks
      obtain ⟨seg, after', hseg, hfill'⟩ := hfill₂.first hrest after
      refine ⟨before ++ f :: inner₁, seg, after', stop, isMarker, ?_, hfill'⟩
      rw [hfs, hinner]
      simp only [List.cons_append, List.append_assoc]
      rw [hseg]
      rfl

theorem Group.mem_ends (h : Group r t fs s) {b : Block} (hb : b ∈ s.blocks) : b.startField ∈ fs ∧ b.endField ∈ fs := by
  obtain ⟨before, seg, after, -, -, hfs, -⟩ := h.segment hb
  rw [hfs]
  simp

/-! ## Groups of a build -/

/-- A group in a part of the scan is one of the whole. -/
theorem Group.of_segment {stop : String} {isMarker : String → Bool} {f e : Field} {inner marks more : List Field}
    (hfs : f :: inner ++ e :: more <:+: fs) (hc : closing? r f = some (stop, isMarker))
    (hin : Filled r t stop isMarker inner marks) (he : e.expression = stop)
    (hclose : Closes t f (r.directive f.expression) marks e s) : Group r t fs s := by
  obtain ⟨before, after, rfl⟩ := hfs
  exact .intro before (more ++ after) (by simp) hc hin he hclose

/-- A statement at the top level is an insertion or one that a group makes. -/
theorem Outlined.group {ss : List Statement} (h : Outlined r t fs ss) {st : Statement} (hst : st ∈ ss) :
    (∃ f o, st = .insertion f o) ∨ Group r t fs st := by
  induction h with
  | nil => cases hst
  | @skip f _ _ _ _ ih => exact (ih hst).imp_right fun hg => hg.of_suffix [f] rfl
  | @insertion f o _ _ _ _ ih =>
    rcases List.mem_cons.mp hst with rfl | hst
    · exact Or.inl ⟨f, o, rfl⟩
    · exact (ih hst).imp_right fun hg => hg.of_suffix [f] rfl
  | @block f e stop isMarker inner marks rest s ss hc hfill he hclose _ ih =>
    rcases List.mem_cons.mp hst with rfl | hst
    · exact Or.inr (.intro [] rest rfl hc hfill he hclose)
    · exact (ih hst).imp_right fun hg => hg.of_suffix (f :: inner ++ [e]) (by simp)

end Outline

end MailMerge
