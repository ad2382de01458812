/-
  MailMerge.Proofs.Field.Echoed — the fields of a copy are fields of what was copied.

  Before a body is copied, texts may have been put into it: a text element gives way to new
  ones, and nothing else is taken out or moved (`Retains`). In a tidy tree neither carries
  a field. So what fields are made of is still there in the same order, each field ends where
  it ended, and a copy, which has the spans of its originals, tells the same place.

  Proved: each field of a copy has the expression and the span of a field of the tree that
  was scanned (`Echoed.exists_field`), and the copy is tidy again (`Echoed.tidy_copy`).
-/

import MailMerge.Proofs.Field.Renamed
import MailMerge.Proofs.Field.Tidy
import MailMerge.Proofs.Tree.Spans

namespace MailMerge

open MailMerge.Tree

/-! ## Lists of which some members do not count -/

theorem filter_flatMap_of_nil {α β : Type} {p : β → Bool} {q : α → Bool} {f : α → List β} {l : List α}
    (h : ∀ a ∈ l, q a = false → (f a).filter p = []) : (l.flatMap f).filter p = (l.filter q).flatMap fun a => (f a).filter p := by
  induction l with
  | nil => rfl
  | cons a l ih =>
    have hrest := ih fun b hb => h b (List.mem_cons_of_mem a hb)
    rw [List.flatMap_cons, List.filter_append, hrest, List.filter_cons]
    split
    · rfl
    · next hq =>
      rw [h a List.mem_cons_self (by simpa using hq)]
      rfl

theorem takeThrough?_filter {α : Type} {p q : α → Bool} {l : List α} (h : ∀ a ∈ l, p a = true → q a = true) :
    takeThrough? p (l.filter q) = (takeThrough? p l).map (·.filter q) := by
  induction l with
  | nil => rfl
  | cons a l ih =>
    have hrest := ih fun b hb => h b (List.mem_cons_of_mem a hb)
    by_cases hq : q a = true
    · rw [List.filter_cons_of_pos hq, takeThrough?, takeThrough?, hrest]
      split
      · simp [hq]
      · rw [Option.map_map, Option.map_map]
        congr 1
        funext front
        simp [hq]
    · have hp : p a = false := by
        rw [Bool.eq_false_iff]
        exact fun hp => hq (h a List.mem_cons_self hp)
      rw [List.filter_cons_of_neg hq, takeThrough?, hrest, hp, if_neg Bool.false_ne_true, Option.map_map]
      congr 1
      funext front
      simp [hq]

theorem takeThrough?_congr {α : Type} {p q : α → Bool} {l : List α} (h : ∀ a ∈ l, q a = p a) :
    takeThrough? q l = takeThrough? p l := by
  have hmap := takeThrough?_map (φ := id) h
  simpa using hmap

theorem takeThrough?_last {α : Type} {p : α → Bool} {l front : List α} (h : takeThrough? p l = some front) :
    ∃ before a, front = before ++ [a] ∧ p a = true := by
  induction l generalizing front with
  | nil => cases h
  | cons a l ih =>
    rw [takeThrough?] at h
    split at h
    · next ha =>
      cases h
      exact ⟨[], a, rfl, ha⟩
    · obtain ⟨rest, hrest, rfl⟩ := Option.map_eq_some_iff.mp h
      obtain ⟨before, b, rfl, hb⟩ := ih hrest
      exact ⟨a :: before, b, rfl, hb⟩

namespace Field

theorem last_eq_of_anchors {f : Field} {before : List NodeId} {a : NodeId} (h : f.anchors = before ++ [a]) : f.last = a := by
  have hlast : f.anchors.getLast? = some f.last := by
    rw [anchors, List.getLast?_cons]
    rw [last, List.getLastD_eq_getLast?]
  rw [h, List.getLast?_concat, Option.some.injEq] at hlast
  exact hlast.symm

/-- What a field says does not depend on where it is. -/
theorem ofInstruction_alike (t u : Tree) (marker marker' : NodeId) (instruction : String) (first first' : NodeId)
    (others others' : List NodeId) (shape : Shape) (whole : Bool) :
    (ofInstruction u marker' instruction first' others' shape whole).expression =
        (ofInstruction t marker instruction first others shape whole).expression ∧
      (ofInstruction u marker' instruction first' others' shape whole).valid =
        (ofInstruction t marker instruction first others shape whole).valid := by
  unfold ofInstruction
  split <;> exact ⟨rfl, rfl⟩

end Field

namespace Tree

/-! ## Bodies that texts have been put into -/

/-- A node of the tree that no text takes the place of. -/
def lasts (t : Tree) (x : NodeId) : Bool := decide (x < t.size) && !t.isNamed Word.text x

theorem lt_size_of_lasts {t : Tree} {x : NodeId} (h : t.lasts x = true) : x < t.size := by
  rw [lasts, Bool.and_eq_true, decide_eq_true_eq] at h
  exact h.1

/-- Below `ids`, what fields are made of stands in `s` as it does in `t`. -/
structure Retains (t : Tree) (ids : List NodeId) (s : Tree) : Prop where
  reads : ∀ x < t.size, t.Reads x s x
  spans : KeepsSpans t s
  up : ∀ x < t.size, ∀ p, s.parent x = some p → t.Within p x
  parent : ∀ x < t.size, ∀ p, t.Under ids p → s.parent x = some p → t.parent x = some p
  bare : ∀ x, t.size ≤ x → s.Under ids x → (s.kind x).carries = false
  rows : ∀ p, t.Under ids p → (s.children p).filter t.lasts = (t.children p).filter t.lasts
  instructions : ∀ p, t.Under ids p → t.isNamed Word.instructionText p = true → s.children p = t.children p

theorem filter_carries_of_not_laden {t : Tree} {x : NodeId} (hx : t.laden x = false) :
    (t.subtree x).filter (fun y => (t.kind y).carries) = [] := by
  rw [List.filter_eq_nil_iff]
  intro y hy hcarries
  rw [laden, List.any_eq_false] at hx
  exact hx y hy hcarries

theorem laden_eq (t : Tree) (x : NodeId) : t.laden x = ((t.subtree x).filter fun y => (t.kind y).carries).any fun _ => true := by
  rw [List.any_filter]
  simp [laden]

theorem any_holdsMarker_eq (t : Tree) (type : MarkerType) (ids : List NodeId) : ids.any (t.holdsMarker type) =
    ((ids.flatMap t.subtree).filter fun y => (t.kind y).carries).any (t.isMarker type) := by
  rw [List.any_filter, List.any_flatMap]
  congr 1
  funext x
  rw [holdsMarker]
  congr 1
  funext y
  cases hm : t.isMarker type y with
  | false => rw [Bool.and_false]
  | true => rw [carries_of_isMarker hm, Bool.and_true]

theorem laden_of_holdsMarker {t : Tree} {type : MarkerType} {x : NodeId} (h : t.holdsMarker type x = true) : t.laden x = true := by
  obtain ⟨y, hy, hm⟩ := List.any_eq_true.mp h
  exact List.any_eq_true.mpr ⟨y, hy, carries_of_isMarker hm⟩

theorem Tidy.not_laden {t : Tree} (h : t.WellFormed) {id x : NodeId} (htidy : t.Tidy id) (hin : t.Within id x) (hlt : x < t.size)
    (hx : t.lasts x = false) : t.laden x = false := by
  rw [lasts, decide_eq_true hlt, Bool.true_and, Bool.not_eq_false'] at hx
  exact htidy.text x (h.mem_subtree.mpr hin) hx

namespace Retains

variable {t s : Tree} {ids : List NodeId} (hk : Retains t ids s) (ht : t.WellFormed) (hs : s.WellFormed)

include hk ht

theorem within_of {a x : NodeId} (hx : x < t.size) (hw : s.Within a x) : t.Within a x := by
  induction hw with
  | refl => exact within_refl t a
  | tail _ hp ih =>
    have hup := hk.up _ hx _ hp
    exact within_trans (ih (ht.lt_size_above hx hup)) hup

theorem under_of {x : NodeId} (hx : x < t.size) (hu : s.Under ids x) : t.Under ids x := by
  obtain ⟨n, hn, hw⟩ := hu
  exact ⟨n, hn, hk.within_of ht hx hw⟩

omit ht in
theorem lt_size_of_carries {x : NodeId} (hu : s.Under ids x) (hx : (s.kind x).carries = true) : x < t.size := by
  by_contra hlt
  rw [hk.bare x (Nat.le_of_not_lt hlt) hu] at hx
  cases hx

omit ht in
theorem carries {x : NodeId} (hx : x < t.size) : (s.kind x).carries = (t.kind x).carries :=
  Kind.carries_of_name? (hk.reads x hx).name

include hs

variable {id : NodeId} (htidy : t.Tidy id) (hin : ∀ n ∈ ids, t.Within id n)

include htidy hin

/-- Neither a text nor what has been added carries a field. -/
theorem not_laden {x : NodeId} (hu : s.Under ids x) (hx : t.lasts x = false) : s.laden x = false := by
  rw [Bool.eq_false_iff]
  intro hladen
  obtain ⟨y, hxy, hy⟩ := (laden_iff hs).mp hladen
  have hlt := hk.lt_size_of_carries (hu.trans hxy) hy
  have hw := hk.within_of ht hlt hxy
  have hxlt := ht.lt_size_above hlt hw
  obtain ⟨n, hn, hnx⟩ := hk.under_of ht hxlt hu
  have hnot := htidy.not_laden ht (within_trans (hin n hn) hnx) hxlt hx
  rw [(laden_iff ht).mpr ⟨y, hw, hk.carries hlt ▸ hy⟩] at hnot
  cases hnot

/-- What carries fields below a node is the same, in the same order. -/
theorem filter_carries {x : NodeId} (hu : s.Under ids x) (hx : x < t.size) :
    (s.subtree x).filter (fun y => (s.kind y).carries) = (t.subtree x).filter fun y => (t.kind y).carries := by
  induction x using ht.below_induction with
  | step x ih =>
    have hut := hk.under_of ht hx hu
    have hnew : ∀ c ∈ s.children x, t.lasts c = false → (s.subtree c).filter (fun y => (s.kind y).carries) = [] :=
      fun c hc hl => filter_carries_of_not_laden (hk.not_laden ht hs htidy hin (hu.of_child hs hc) hl)
    have hold : ∀ c ∈ t.children x, t.lasts c = false → (t.subtree c).filter (fun y => (t.kind y).carries) = [] := by
      intro c hc hl
      obtain ⟨n, hn, hnc⟩ := hut.of_child ht hc
      exact filter_carries_of_not_laden (htidy.not_laden ht (within_trans (hin n hn) hnc) (ht.lt_size_of_mem hc) hl)
    have hbelow : ((s.children x).flatMap s.subtree).filter (fun y => (s.kind y).carries) =
        ((t.children x).flatMap t.subtree).filter fun y => (t.kind y).carries := by
      rw [filter_flatMap_of_nil hnew, filter_flatMap_of_nil hold, hk.rows x hut]
      apply List.flatMap_congr
      intro c hc
      have hcs : c ∈ s.children x := by
        rw [← hk.rows x hut] at hc
        exact (List.mem_filter.mp hc).1
      exact ih c (List.mem_filter.mp hc).1 (hu.of_child hs hcs) (ht.lt_size_of_mem (List.mem_filter.mp hc).1)
    rw [hs.subtree_eq, ht.subtree_eq, List.filter_cons, List.filter_cons, hbelow, hk.carries hx]

theorem laden {x : NodeId} (hu : s.Under ids x) (hx : x < t.size) : s.laden x = t.laden x := by
  rw [laden_eq, laden_eq, hk.filter_carries ht hs htidy hin hu hx]

omit htidy hin in
/-- The siblings behind a node that lasts. -/
theorem laterElements {p q : NodeId} (hp : t.Under ids p) (hqp : t.parent q = some p) (hq : t.lasts q = true) :
    s.parent q = some p ∧ (s.laterElements q).filter t.lasts = (t.laterElements q).filter t.lasts := by
  have hmem : q ∈ (t.children p).filter t.lasts := List.mem_filter.mpr ⟨ht.mem_of_parent hqp, hq⟩
  rw [← hk.rows p hp] at hmem
  obtain ⟨hmem, -⟩ := List.mem_filter.mp hmem
  obtain ⟨before, after, hrow⟩ := List.append_of_mem (ht.mem_of_parent hqp)
  obtain ⟨before', after', hrow'⟩ := List.append_of_mem hmem
  have hafter : after'.filter t.lasts = after.filter t.lasts := by
    have hrows := hk.rows p hp
    have hnd := (ht.distinct p).filter t.lasts
    rw [hrow, hrow', List.filter_append, List.filter_append, List.filter_cons_of_pos hq, List.filter_cons_of_pos hq] at hrows
    rw [hrow, List.filter_append, List.filter_cons_of_pos hq] at hnd
    exact (cut_unique hnd hrows.symm rfl).2
  refine ⟨hs.parent_of_mem hmem, ?_⟩
  rw [hs.laterElements_eq hrow', ht.laterElements_eq hrow, List.filter_comm, hafter, List.filter_comm t.lasts]
  apply List.filter_congr
  intro a ha
  exact (hk.reads a (lt_size_of_lasts (List.mem_filter.mp ha).2)).isElement

omit htidy hin in
/-- An instruction says what it said. -/
theorem textContent {x : NodeId} (hu : s.Under ids x) (hx : x < t.size) (hn : t.isNamed Word.instructionText x = true)
    (hplain : ∀ c ∈ t.children x, t.isElement c = false) : s.textContent x = t.textContent x := by
  have hchildren := hk.instructions x (hk.under_of ht hx hu) hn
  -- its children hold nothing in either tree
  have hbefore : ∀ c ∈ t.children x, t.subtree c = [c] := by
    intro c hc
    have hnil := ht.children_of_not_isElement (ht.parent_of_mem hc) (hplain c hc)
    rw [ht.subtree_eq, hnil]
    rfl
  have hafter : ∀ c ∈ t.children x, s.subtree c = [c] := by
    intro c hc
    have hel : s.isElement c = false := ((hk.reads c (ht.lt_size_of_mem hc)).isElement).trans (hplain c hc)
    have hnil := hs.children_of_not_isElement (hs.parent_of_mem (hchildren ▸ hc)) hel
    rw [hs.subtree_eq, hnil]
    rfl
  have hsubtree : s.subtree x = t.subtree x := by
    rw [hs.subtree_eq, ht.subtree_eq, hchildren, List.flatMap_congr hafter, List.flatMap_congr hbefore]
  rw [Tree.textContent, Tree.textContent, hsubtree]
  congr 1
  apply List.map_congr_left
  intro y hy
  exact (hk.reads y ((fenced_size ht).lt_of_within hx (ht.mem_subtree.mp hy))).ownText

section lists

variable {as bs : List NodeId} (has : ∀ a ∈ as, s.Under ids a) (hbs : ∀ b ∈ bs, t.Under ids b ∧ b < t.size)
  (he : as.filter t.lasts = bs.filter t.lasts)

include has hbs he

/-- What carries fields below nodes, of which only those that last count. -/
theorem filter_carries_flatMap : (as.flatMap s.subtree).filter (fun y => (s.kind y).carries) =
    (bs.flatMap t.subtree).filter fun y => (t.kind y).carries := by
  have hnew : ∀ a ∈ as, t.lasts a = false → (s.subtree a).filter (fun y => (s.kind y).carries) = [] := fun a ha hl =>
    filter_carries_of_not_laden (hk.not_laden ht hs htidy hin (has a ha) hl)
  have hold : ∀ b ∈ bs, t.lasts b = false → (t.subtree b).filter (fun y => (t.kind y).carries) = [] := by
    intro b hb hl
    obtain ⟨⟨n, hn, hnb⟩, hlt⟩ := hbs b hb
    exact filter_carries_of_not_laden (htidy.not_laden ht (within_trans (hin n hn) hnb) hlt hl)
  rw [filter_flatMap_of_nil hnew, filter_flatMap_of_nil hold, ← he]
  apply List.flatMap_congr
  intro a ha
  obtain ⟨ha, hl⟩ := List.mem_filter.mp ha
  exact hk.filter_carries ht hs htidy hin (has a ha) (lt_size_of_lasts hl)

theorem instructionText : Field.instructionText s as = Field.instructionText t bs := by
  have hparts : ∀ (u : Tree) (ns : List NodeId), (ns.flatMap u.subtree).filter (u.isNamed Word.instructionText) =
      ((ns.flatMap u.subtree).filter fun y => (u.kind y).carries).filter (u.isNamed Word.instructionText) := by
    intro u ns
    rw [List.filter_filter]
    apply List.filter_congr
    intro y _
    cases hn : u.isNamed Word.instructionText y with
    | false => rfl
    | true => rw [carries_of_instruction hn]; rfl
  have hlt : ∀ y ∈ bs.flatMap t.subtree, y < t.size := by
    intro y hy
    obtain ⟨b, hb, hby⟩ := List.mem_flatMap.mp hy
    exact (fenced_size ht).lt_of_within (hbs b hb).2 (ht.mem_subtree.mp hby)
  have hlist : (as.flatMap s.subtree).filter (s.isNamed Word.instructionText) =
      (bs.flatMap t.subtree).filter (t.isNamed Word.instructionText) := by
    rw [hparts, hparts, hk.filter_carries_flatMap ht hs htidy hin has hbs he]
    apply List.filter_congr
    intro y hy
    exact (hk.reads y (hlt y (List.mem_filter.mp hy).1)).isNamed _
  rw [Field.instructionText, Field.instructionText]
  congr 1
  rw [hlist]
  apply List.map_congr_left
  intro y hy
  have hys : y ∈ as.flatMap s.subtree := by
    rw [← hlist] at hy
    exact (List.mem_filter.mp hy).1
  obtain ⟨a, ha, hay⟩ := List.mem_flatMap.mp hys
  obtain ⟨hyt, hn⟩ := List.mem_filter.mp hy
  obtain ⟨b, hb, hby⟩ := List.mem_flatMap.mp hyt
  obtain ⟨n, hnmem, hnb⟩ := (hbs b hb).1
  have hbelow : y ∈ t.subtree id :=
    ht.mem_subtree.mpr (within_trans (hin n hnmem) (within_trans hnb (ht.mem_subtree.mp hby)))
  exact hk.textContent ht hs ((has a ha).of_mem_subtree hs hay) (hlt y hyt) hn (htidy.plain y hbelow hn)

theorem any_holdsMarker (type : MarkerType) : as.any (s.holdsMarker type) = bs.any (t.holdsMarker type) := by
  rw [any_holdsMarker_eq, any_holdsMarker_eq, hk.filter_carries_flatMap ht hs htidy hin has hbs he, Bool.eq_iff_iff,
    List.any_eq_true, List.any_eq_true]
  have hsame : ∀ y ∈ (bs.flatMap t.subtree).filter (fun y => (t.kind y).carries), s.isMarker type y = t.isMarker type y := by
    intro y hy
    obtain ⟨b, hb, hby⟩ := List.mem_flatMap.mp (List.mem_filter.mp hy).1
    exact (hk.reads y ((fenced_size ht).lt_of_within (hbs b hb).2 (ht.mem_subtree.mp hby))).isMarker type
  exact exists_congr fun y => and_congr_right fun hy => by rw [hsame y hy]

end lists

theorem holdsMarker {x : NodeId} (hu : s.Under ids x) (hx : x < t.size) (type : MarkerType) :
    s.holdsMarker type x = t.holdsMarker type x := by
  have has : ∀ a ∈ [x], s.Under ids a := fun a ha => List.mem_singleton.mp ha ▸ hu
  have hbs : ∀ b ∈ [x], t.Under ids b ∧ b < t.size := fun b hb => List.mem_singleton.mp hb ▸ ⟨hk.under_of ht hx hu, hx⟩
  have hany := hk.any_holdsMarker ht hs htidy hin has hbs rfl type
  simpa using hany

end Retains

/-- New nodes change nothing about it. -/
theorem Retains.beyond {t s u : Tree} {ids : List NodeId} (hk : Retains t ids s) (ht : t.WellFormed) (hs : s.WellFormed)
    (hin : ∀ x ∈ ids, x < t.size) (h : Beyond s.size s u) : Retains t ids u := by
  have hgrows := hk.spans.grows
  have hold : ∀ x, t.Under ids x → x < s.size := by
    rintro x ⟨n, hn, hnx⟩
    exact Nat.lt_of_lt_of_le ((fenced_size ht).lt_of_within (hin n hn) hnx) hgrows
  exact
    { reads := fun x hx => (hk.reads x hx).trans (reads_of_kind (h.kind_eq (Nat.lt_of_lt_of_le hx hgrows)))
      spans := hk.spans.trans (h.keepsSpans (Nat.le_refl _))
      up := fun x hx p hp => hk.up x hx p (by rwa [h.parent_eq (Nat.lt_of_lt_of_le hx hgrows)] at hp)
      parent := fun x hx p hp hxp => hk.parent x hx p hp (by rwa [h.parent_eq (Nat.lt_of_lt_of_le hx hgrows)] at hxp)
      bare := fun x hx hu => by
        obtain ⟨n, hn, hnx⟩ := hu
        have hlt : x < s.size := Fenced.lt_of_within h.zone (Nat.lt_of_lt_of_le (hin n hn) hgrows) hnx
        have hw : s.Within n x := (h.within_iff_of_not_mem (fenced_size hs) (Nat.not_le_of_lt hlt)).mp hnx
        rw [h.kind_eq hlt]
        exact hk.bare x hx ⟨n, hn, hw⟩
      rows := fun p hp => (congrArg _ (h.children_eq (hold p hp))).trans (hk.rows p hp)
      instructions := fun p hp hn => (h.children_eq (hold p hp)).trans (hk.instructions p hp hn) }

/-! ## Copies of such bodies -/

/-- Below `d`, `v` holds a copy of the body `ids` as it stands in `s`, where `t` is what was
    scanned below `id`. -/
structure Echoed (t : Tree) (id : NodeId) (ids : List NodeId) (s : Tree) (φ : NodeId → NodeId) (v : Tree) (d : NodeId) : Prop where
  before : t.WellFormed
  between : s.WellFormed
  after : v.WellFormed
  tidy : t.Tidy id
  retains : Retains t ids s
  renames : Renames s ids φ v
  spans : ∀ x, s.Under ids x → v.span (φ x) = s.span x
  children : v.children d = ids.map φ
  kind : v.kind d = .element Block.containerName []
  below : ∀ n ∈ ids, t.Within id n ∧ n ≠ id
  row : ∀ n ∈ ids, t.isElement n = true ∧ t.isPart n = false
  later : ∀ front n rest, ids = front ++ n :: rest → ∃ more, t.laterElements n = rest ++ more

/-- The anchors `as` of a field that was copied, and `bs` of a field that was scanned, are the
    same but for nodes that do not last. -/
structure SameAnchors (t s : Tree) (ids as bs : List NodeId) : Prop where
  copied : ∀ a ∈ as, s.Under ids a
  scanned : ∀ b ∈ bs, t.Under ids b
  lasting : as.filter t.lasts = bs.filter t.lasts
  last : ∃ front front' l, as = front ++ [l] ∧ bs = front' ++ [l] ∧ l < t.size

namespace Echoed

variable {t s v : Tree} {id d : NodeId} {ids : List NodeId} {φ : NodeId → NodeId} (h : Echoed t id ids s φ v d)

include h

theorem within {n : NodeId} (hn : n ∈ ids) : t.Within id n := (h.below n hn).1

theorem within_of_under {x : NodeId} (hx : t.Under ids x) : t.Within id x ∧ x ≠ id := by
  obtain ⟨n, hn, hnx⟩ := hx
  obtain ⟨hw, hne⟩ := h.below n hn
  refine ⟨within_trans hw hnx, ?_⟩
  rintro rfl
  exact hne (h.before.within_antisymm hnx hw)

theorem lt_size {x : NodeId} (hx : t.Under ids x) : x < t.size := by
  obtain ⟨n, hn, hnx⟩ := hx
  exact (fenced_size h.before).lt_of_within (lt_size_of_isElement (h.row n hn).1) hnx

/-- What is below the copies is a copy. -/
theorem exists_original {y : NodeId} (hy : v.Within d y) (hne : y ≠ d) : ∃ x, s.Under ids x ∧ φ x = y := by
  obtain ⟨c, hc, hcy⟩ := exists_child_of_within hy hne
  have hmem := h.after.mem_of_parent hc
  rw [h.children] at hmem
  obtain ⟨n, hn, rfl⟩ := List.mem_map.mp hmem
  obtain ⟨x, hnx, rfl⟩ := h.renames.exists_of_within h.between h.after (under_of_mem hn) hcy
  exact ⟨x, ⟨n, hn, hnx⟩, rfl⟩

theorem laden {x : NodeId} (hx : s.Under ids x) : v.laden (φ x) = s.laden x := by
  rw [Tree.laden, Tree.laden, h.renames.subtree h.between h.after hx, List.any_map, Bool.eq_iff_iff, List.any_eq_true, List.any_eq_true]
  have hsame : ∀ y ∈ s.subtree x, (v.kind (φ y)).carries = (s.kind y).carries := fun y hy =>
    Kind.carries_of_name? (h.renames.reads y (hx.of_mem_subtree h.between hy)).name
  exact exists_congr fun y => and_congr_right fun hy => by rw [Function.comp_apply, hsame y hy]

/-- A part of a field was there when the tree was scanned. -/
theorem old {x : NodeId} (hx : s.Under ids x) (hc : (v.kind (φ x)).carries = true) : x < t.size ∧ t.Under ids x := by
  have hlt : x < t.size := by
    apply h.retains.lt_size_of_carries hx
    rwa [← Kind.carries_of_name? (h.renames.reads x hx).name]
  exact ⟨hlt, h.retains.under_of h.before hlt hx⟩

theorem reads {x : NodeId} (hx : s.Under ids x) (hlt : x < t.size) : t.Reads x v (φ x) :=
  (h.retains.reads x hlt).trans (h.renames.reads x hx)

/-- A begin marker or an instruction is in the node it was in. -/
theorem parent {x : NodeId} (hx : s.Under ids x) (hpart : v.isPart (φ x) = true) :
    ∃ q, t.parent x = some q ∧ s.parent x = some q ∧ v.parent (φ x) = some (φ q) ∧ s.Under ids q ∧ t.Under ids q ∧
      t.isPart x = true := by
  obtain ⟨hlt, hxt⟩ := h.old hx (carries_of_isPart hpart)
  have hpartt : t.isPart x = true := by
    have hreads := h.reads hx hlt
    rw [isPart, hreads.isMarker, hreads.isNamed] at hpart
    exact hpart
  -- it is not in the row of the body
  have hnot : x ∉ ids := fun hmem => by
    rw [(h.row x hmem).2] at hpartt
    cases hpartt
  obtain ⟨n, hn, hnx⟩ := hx
  obtain ⟨q, hq, hnq⟩ := (within_iff.mp hnx).resolve_left fun he => hnot (he ▸ hn)
  have hqs : s.Under ids q := ⟨n, hn, hnq⟩
  have hqlt : q < t.size := h.before.lt_size_above hlt (h.retains.up x hlt q hq)
  have hqt := h.retains.under_of h.before hqlt hqs
  have hp := h.retains.parent x hlt q hqt hq
  exact ⟨q, hp, hq, h.renames.parent h.between h.after hqs hq, hqs, hqt, hpartt⟩

theorem not_carries : (v.kind d).carries = false := by
  rw [h.kind]
  decide

/-- What is laden in the copy was there when the tree was scanned. -/
theorem laden_old {x : NodeId} (hx : s.Under ids x) (hladen : v.laden (φ x) = true) :
    t.lasts x = true ∧ t.laden x = true := by
  rw [h.laden hx] at hladen
  have hin : ∀ n ∈ ids, t.Within id n := fun n hn => h.within hn
  have hlasts : t.lasts x = true := by
    by_contra hl
    rw [h.retains.not_laden h.before h.between h.tidy hin hx (by simpa using hl)] at hladen
    cases hladen
  exact ⟨hlasts, (h.retains.laden h.before h.between h.tidy hin hx (lt_size_of_lasts hlasts)).symm.trans hladen⟩

/-- What carries fields in the copy is the copy of something. -/
theorem exists_carrying {y : NodeId} (hy : y ∈ v.subtree d) (hc : (v.kind y).carries = true) : ∃ x, s.Under ids x ∧ φ x = y := by
  refine h.exists_original (h.after.mem_subtree.mp hy) ?_
  rintro rfl
  rw [h.not_carries] at hc
  cases hc

/-- Where a begin marker stands in the copy, one stood when the tree was scanned. -/
theorem isBoundary {x : NodeId} (hx : s.Under ids x) (hlt : x < t.size) (hbound : v.isBoundary (φ x) = true) :
    t.isBoundary x = true := by
  have hreads := h.reads hx hlt
  rw [Tree.isBoundary, hreads.isNamed, hreads.isNamed, hreads.isNamed] at hbound
  rcases (Bool.or_eq_true _ _).mp hbound with hnamed | hbegin
  · rw [Tree.isBoundary, hnamed]
    rfl
  · obtain ⟨c', hc', hm⟩ := List.any_eq_true.mp hbegin
    rw [h.renames.children x hx] at hc'
    obtain ⟨c, hc, rfl⟩ := List.mem_map.mp hc'
    have hcs := hx.of_child h.between hc
    obtain ⟨hclt, -⟩ := h.old hcs (carries_of_isMarker hm)
    have hxt := h.retains.under_of h.before hlt hx
    have hparent := h.retains.parent c hclt x hxt (h.between.parent_of_mem hc)
    have hold : t.hasBegin x = true :=
      List.any_eq_true.mpr ⟨c, h.before.mem_of_parent hparent, ((h.reads hcs hclt).isMarker _).symm.trans hm⟩
    rw [Tree.isBoundary, hold, Bool.or_true]

/-- The copy is tidy. -/
theorem tidy_copy : v.Tidy d where
  housed := by
    intro y hy hm
    obtain ⟨x, hx, rfl⟩ := h.exists_carrying hy (carries_of_isMarker hm)
    obtain ⟨q, hp, -, hv, hqs, hqt, -⟩ := h.parent hx (by rw [isPart, hm]; rfl)
    obtain ⟨hlt, hxt⟩ := h.old hx (carries_of_isMarker hm)
    obtain ⟨p, hxp, hel⟩ := h.tidy.housed x (h.before.mem_subtree.mpr (h.within_of_under hxt).1)
      (((h.reads hx hlt).isMarker _).symm.trans hm)
    obtain rfl : q = p := Option.some.inj (hp.symm.trans hxp)
    exact ⟨φ q, hv, ((h.reads hqs (h.lt_size hqt)).isElement).trans hel⟩
  apart := by
    intro y hy hpart p hp z hz hladen
    obtain ⟨x, hx, rfl⟩ := h.exists_carrying hy (carries_of_isPart hpart)
    obtain ⟨q, hxq, -, hv, hqs, hqt, hpartt⟩ := h.parent hx hpart
    obtain rfl : p = φ q := Option.some.inj (hp.symm.trans hv)
    rw [h.renames.children q hqs] at hz
    obtain ⟨y, hy, rfl⟩ := List.mem_map.mp hz
    have hys := hqs.of_child h.between hy
    obtain ⟨hlasts, hladen⟩ := h.laden_old hys hladen
    have hlt := lt_size_of_lasts hlasts
    have hyq := h.before.mem_of_parent (h.retains.parent y hlt q hqt (h.between.parent_of_mem hy))
    have hin := (h.within_of_under (h.old hx (carries_of_isPart hpart)).2).1
    rw [Bool.eq_false_iff]
    intro hbound
    have hrow := h.tidy.apart x (h.before.mem_subtree.mpr hin) hpartt q hxq y hyq hladen
    rw [h.isBoundary hys hlt hbound] at hrow
    cases hrow
  text := by
    intro y hy hn
    rw [Bool.eq_false_iff]
    intro hladen
    have hne : y ≠ d := by
      rintro rfl
      rw [isNamed_of_kind h.kind] at hn
      exact absurd hn (by decide)
    obtain ⟨x, hx, rfl⟩ := h.exists_original (h.after.mem_subtree.mp hy) hne
    obtain ⟨hlasts, -⟩ := h.laden_old hx hladen
    rw [(h.reads hx (lt_size_of_lasts hlasts)).isNamed] at hn
    rw [lasts, hn, Bool.not_true, Bool.and_false] at hlasts
    cases hlasts
  plain := by
    intro y hy hn z hz
    have hne : y ≠ d := by
      rintro rfl
      rw [isNamed_of_kind h.kind] at hn
      exact absurd hn (by decide)
    obtain ⟨x, hx, rfl⟩ := h.exists_original (h.after.mem_subtree.mp hy) hne
    obtain ⟨hlt, hxt⟩ := h.old hx (carries_of_instruction hn)
    rw [(h.reads hx hlt).isNamed] at hn
    have hplain := h.tidy.plain x (h.before.mem_subtree.mpr (h.within_of_under hxt).1) hn
    rw [h.renames.children x hx] at hz
    obtain ⟨c, hc, rfl⟩ := List.mem_map.mp hz
    have hct : c ∈ t.children x := h.retains.instructions x hxt hn ▸ hc
    rw [(h.reads (hx.of_child h.between hc) (h.before.lt_size_of_mem hct)).isElement]
    exact hplain c hct

theorem holdsMarker {x : NodeId} (hx : s.Under ids x) (hlt : x < t.size) (type : MarkerType) :
    v.holdsMarker type (φ x) = t.holdsMarker type x :=
  (h.renames.holdsMarker h.between h.after hx type).trans
    (h.retains.holdsMarker h.before h.between h.tidy (fun _ hn => h.within hn) hx hlt type)

theorem span {x : NodeId} (hx : s.Under ids x) (hlt : x < t.size) : v.span (φ x) = t.span x :=
  (h.spans x hx).trans (h.retains.spans.span x hlt)

/-- A field that begins in the row of the body. -/
theorem anchors_in_row {q : NodeId} (hq : q ∈ ids) {copies : List NodeId}
    (htake : takeThrough? (v.holdsMarker .closing) (φ q :: v.laterElements (φ q)) = some copies) :
    ∃ as bs, copies = as.map φ ∧ takeThrough? (t.holdsMarker .closing) (q :: t.laterElements q) = some bs ∧
      SameAnchors t s ids as bs := by
  obtain ⟨front, rest, hids⟩ := List.append_of_mem hq
  have hrow : ∀ x ∈ q :: rest, x ∈ ids := fun x hx => by rw [hids]; exact List.mem_append_right front hx
  have hlt : ∀ x ∈ ids, x < t.size := fun x hx => lt_size_of_isElement (h.row x hx).1
  have hlater : v.laterElements (φ q) = rest.map φ := by
    have hchildren := h.children
    rw [hids, List.map_append, List.map_cons] at hchildren
    rw [h.after.laterElements_eq hchildren, List.filter_eq_self]
    intro y hy
    obtain ⟨x, hx, rfl⟩ := List.mem_map.mp hy
    have hx := hrow x (List.mem_cons_of_mem q hx)
    rw [(h.reads (under_of_mem hx) (hlt x hx)).isElement]
    exact (h.row x hx).1
  have hholds : ∀ x ∈ q :: rest, v.holdsMarker .closing (φ x) = t.holdsMarker .closing x := fun x hx =>
    h.holdsMarker (under_of_mem (hrow x hx)) (hlt x (hrow x hx)) .closing
  rw [hlater, ← List.map_cons, takeThrough?_map hholds] at htake
  obtain ⟨as, has, rfl⟩ := Option.map_eq_some_iff.mp htake
  have hsub : ∀ a ∈ as, a ∈ ids := by
    obtain ⟨more, hmore⟩ := takeThrough?_eq_some has
    exact fun a ha => hrow a (by rw [hmore]; exact List.mem_append_left more ha)
  obtain ⟨before, l, hl, -⟩ := takeThrough?_last has
  refine ⟨as, as, rfl, ?_, fun a ha => under_of_mem (hsub a ha), fun a ha => under_of_mem (hsub a ha), rfl,
    before, before, l, hl, hl, hlt l (hsub l (by rw [hl]; simp))⟩
  -- in the tree that was scanned the row goes on behind the body
  obtain ⟨more, hmore⟩ := h.later front q rest hids
  rw [hmore, ← List.cons_append]
  exact takeThrough?_append_of_some has more

/-- A field that begins deeper. -/
theorem anchors_below {p q : NodeId} (hp : s.Under ids p) (hqp : s.parent q = some p) (hqt : t.Under ids q)
    (hladen : t.laden q = true) {copies : List NodeId}
    (htake : takeThrough? (v.holdsMarker .closing) (φ q :: v.laterElements (φ q)) = some copies) :
    ∃ as bs, copies = as.map φ ∧ takeThrough? (t.holdsMarker .closing) (q :: t.laterElements q) = some bs ∧
      SameAnchors t s ids as bs := by
  have hqlt := h.lt_size hqt
  have hpt : t.Under ids p := h.retains.under_of h.before (h.before.lt_size_above hqlt (h.retains.up q hqlt p hqp)) hp
  have hqpt : t.parent q = some p := h.retains.parent q hqlt p hpt hqp
  have hlasts : t.lasts q = true := by
    by_contra hl
    rw [h.tidy.not_laden h.before (h.within_of_under hqt).1 hqlt (by simpa using hl)] at hladen
    cases hladen
  have hs : ∀ x ∈ q :: s.laterElements q, s.Under ids x := by
    intro x hx
    rcases List.mem_cons.mp hx with rfl | hx
    · exact hp.of_child h.between (h.between.mem_of_parent hqp)
    · exact hp.of_child h.between (h.between.mem_of_parent ((h.between.mem_laterElements hx).1.trans hqp))
  have ht : ∀ x ∈ q :: t.laterElements q, t.Under ids x := by
    intro x hx
    rcases List.mem_cons.mp hx with rfl | hx
    · exact hqt
    · exact hpt.of_child h.before (h.before.mem_of_parent ((h.before.mem_laterElements hx).1.trans hqpt))
  have hrow : (q :: s.laterElements q).filter t.lasts = (q :: t.laterElements q).filter t.lasts := by
    rw [List.filter_cons_of_pos hlasts, List.filter_cons_of_pos hlasts,
      (h.retains.laterElements h.before h.between hpt hqpt hlasts).2]
  -- only what lasts can hold the end of the field
  have hends : ∀ x ∈ q :: s.laterElements q, s.holdsMarker .closing x = true → t.lasts x = true := by
    intro x hx hm
    have hladen : v.laden (φ x) = true := (h.laden (hs x hx)).trans (laden_of_holdsMarker hm)
    exact (h.laden_old (hs x hx) hladen).1
  have hends' : ∀ x ∈ q :: t.laterElements q, t.holdsMarker .closing x = true → t.lasts x = true := by
    intro x hx hm
    by_contra hl
    have hnot := h.tidy.not_laden h.before (h.within_of_under (ht x hx)).1 (h.lt_size (ht x hx)) (by simpa using hl)
    rw [laden_of_holdsMarker hm] at hnot
    cases hnot
  have hsame : ∀ x ∈ (q :: t.laterElements q).filter t.lasts, s.holdsMarker .closing x = t.holdsMarker .closing x := by
    intro x hx
    rw [← hrow] at hx
    obtain ⟨hx, hl⟩ := List.mem_filter.mp hx
    exact h.retains.holdsMarker h.before h.between h.tidy (fun _ hn => h.within hn) (hs x hx) (lt_size_of_lasts hl) .closing
  rw [h.renames.laterElements h.between h.after hp hqp, ← List.map_cons,
    takeThrough?_map fun x hx => h.renames.holdsMarker h.between h.after (hs x hx) .closing] at htake
  obtain ⟨as, has, rfl⟩ := Option.map_eq_some_iff.mp htake
  have hcut := takeThrough?_filter hends
  rw [has, hrow, takeThrough?_congr hsame, takeThrough?_filter hends', Option.map_some] at hcut
  obtain ⟨bs, hbs, hlasting⟩ := Option.map_eq_some_iff.mp hcut
  have hsub : ∀ a ∈ as, a ∈ q :: s.laterElements q := by
    obtain ⟨more, hmore⟩ := takeThrough?_eq_some has
    exact fun a ha => by rw [hmore]; exact List.mem_append_left more ha
  have hsub' : ∀ b ∈ bs, b ∈ q :: t.laterElements q := by
    obtain ⟨more, hmore⟩ := takeThrough?_eq_some hbs
    exact fun b hb => by rw [hmore]; exact List.mem_append_left more hb
  refine ⟨as, bs, rfl, hbs, fun a ha => hs a (hsub a ha), fun b hb => ht b (hsub' b hb), hlasting.symm, ?_⟩
  obtain ⟨front, l, rfl, hl⟩ := takeThrough?_last has
  obtain ⟨front', l', rfl, hl'⟩ := takeThrough?_last hbs
  have hll := hends l (hsub l (by simp)) hl
  have hll' := hends' l' (hsub' l' (by simp)) hl'
  rw [List.filter_append, List.filter_append, List.filter_cons_of_pos hll, List.filter_cons_of_pos hll'] at hlasting
  obtain rfl : l' = l := by
    have hlast := congrArg List.getLast? hlasting
    simpa using hlast
  exact ⟨front, front', l', rfl, rfl, lt_size_of_lasts hll'⟩

/-- A complex field of the copy and the one it is a copy of. -/
theorem exists_complex {x : NodeId} (hx : s.Under ids x) (hm : v.isMarker .opening (φ x) = true) {g : Field}
    (hg : Field.complex? v (φ x) = some g) : ∃ f, Field.complex? t x = some f ∧ f.expression = g.expression ∧
      f.valid = g.valid ∧ g.first = φ f.first ∧ s.Under ids f.first ∧ g.last = φ f.last ∧ s.Under ids f.last ∧
      f.first < t.size ∧ f.last < t.size := by
  have hin : ∀ n ∈ ids, t.Within id n := fun _ hn => h.within hn
  obtain ⟨q, hpt, hps, hpv, hqs, hqt, -⟩ := h.parent hx (by rw [isPart, hm]; rfl)
  simp only [Field.complex?, hpv, Option.bind_eq_bind, Option.bind_some, Option.bind_eq_some_iff, Option.some.injEq] at hg
  obtain ⟨copies, htake, rfl⟩ := hg
  have hanchors : ∃ as bs, copies = as.map φ ∧ takeThrough? (t.holdsMarker .closing) (q :: t.laterElements q) = some bs ∧
      SameAnchors t s ids as bs := by
    by_cases hq : q ∈ ids
    · exact h.anchors_in_row hq htake
    · obtain ⟨n, hn, hnq⟩ := hqs
      obtain ⟨p, hp, hnp⟩ := (within_iff.mp hnq).resolve_left fun he => hq (he ▸ hn)
      have hladen : t.laden q = true := by
        obtain ⟨hlt, -⟩ := h.old hx (carries_of_isMarker hm)
        have hmarker : (t.kind x).carries = true := carries_of_isMarker (((h.reads hx hlt).isMarker _).symm.trans hm)
        exact (laden_iff h.before).mpr ⟨x, within_of_parent hpt, hmarker⟩
      exact h.anchors_below ⟨n, hn, hnp⟩ hp hqt hladen htake
  obtain ⟨as, bs, rfl, hbs, hsame⟩ := hanchors
  have hscanned : ∀ b ∈ bs, t.Under ids b ∧ b < t.size := fun b hb => ⟨hsame.scanned b hb, h.lt_size (hsame.scanned b hb)⟩
  have htext : Field.instructionText v (as.map φ) = Field.instructionText t bs :=
    (h.renames.instructionText h.between h.after hsame.copied).trans
      (h.retains.instructionText h.before h.between h.tidy hin hsame.copied hscanned hsame.lasting)
  have hwhole : (as.map φ).any (v.holdsMarker .separator) = bs.any (t.holdsMarker .separator) := by
    have hcopies : (as.map φ).any (v.holdsMarker .separator) = as.any (s.holdsMarker .separator) := by
      rw [List.any_map, Bool.eq_iff_iff, List.any_eq_true, List.any_eq_true]
      have heach : ∀ a ∈ as, v.holdsMarker .separator (φ a) = s.holdsMarker .separator a := fun a ha =>
        h.renames.holdsMarker h.between h.after (hsame.copied a ha) .separator
      exact exists_congr fun a => and_congr_right fun ha => by rw [Function.comp_apply, heach a ha]
    exact hcopies.trans (h.retains.any_holdsMarker h.before h.between h.tidy hin hsame.copied hscanned hsame.lasting .separator)
  obtain ⟨front, front', l, has, hbsl, hllt⟩ := hsame.last
  -- both lists of anchors begin with the run
  have hbefore : q :: bs.drop 1 = front' ++ [l] := by
    obtain ⟨others, rfl⟩ := takeThrough?_head hbs
    exact hbsl
  have hafter : φ q :: (as.map φ).drop 1 = front.map φ ++ [φ l] := by
    obtain ⟨others, hothers⟩ := takeThrough?_head htake
    rw [hothers, List.drop_one, List.tail_cons, ← hothers, has, List.map_append]
    rfl
  obtain ⟨he, hv⟩ := Field.ofInstruction_alike v t (φ x) x (Field.instructionText t bs) (φ q) q ((as.map φ).drop 1) (bs.drop 1)
    .complex (bs.any (t.holdsMarker .separator))
  rw [htext, hwhole]
  refine ⟨Field.ofInstruction t x (Field.instructionText t bs) q (bs.drop 1) .complex (bs.any (t.holdsMarker .separator)),
    ?_, he, hv, ?_⟩
  · simp [Field.complex?, hpt, hbs]
  · rw [Field.ofInstruction_first, Field.ofInstruction_first, Field.last_eq_of_anchors ((Field.ofInstruction_anchors _ _ _ _ _ _ _).trans hbefore),
      Field.last_eq_of_anchors ((Field.ofInstruction_anchors _ _ _ _ _ _ _).trans hafter)]
    exact ⟨rfl, hqs, rfl, hsame.copied l (by rw [has]; simp), h.lt_size hqt, hllt⟩

/-- A field of the copy says what a field of the tree that was scanned says, and it is in the
    same place. -/
theorem exists_field {g : Field} (hg : g ∈ v.fields d) :
    ∃ f ∈ t.fields id, f.expression = g.expression ∧ f.span = g.span := by
  obtain ⟨hin, hscan, hvalid⟩ := mem_fields.mp hg
  obtain ⟨hgd, hne⟩ := h.after.mem_descendants.mp hin
  obtain ⟨x, hx, hxg⟩ := h.exists_original hgd hne
  rw [← hxg] at hscan
  obtain ⟨-, hopens, -⟩ := Field.ofMarker?_eq_some hscan
  obtain ⟨hlt, hxt⟩ := h.old hx (carries_of_opensField hopens)
  have hreads := h.reads hx hlt
  have hspan := Field.span_of_ofMarker? hscan
  -- it is enough to find a field of the scanned tree with the same marker
  have hfound : ∀ f, Field.ofMarker? t x = some f → f.expression = g.expression → f.valid = g.valid →
      t.span f.first = v.span g.first → t.span f.last = v.span g.last →
      ∃ f ∈ t.fields id, f.expression = g.expression ∧ f.span = g.span := by
    intro f hf he hv hfirst hlast
    have hmarker := (Field.ofMarker?_eq_some hf).1
    refine ⟨f, mem_fields.mpr ⟨?_, hmarker ▸ hf, hv.trans hvalid⟩, he, ?_⟩
    · rw [hmarker]
      exact h.before.mem_descendants.mpr (h.within_of_under hxt)
    · rw [Field.span_of_ofMarker? hf, hspan, hfirst, hlast]
  unfold Field.ofMarker? at hscan
  split at hscan
  · next hn =>
    obtain ⟨instruction, hattr, rfl⟩ := Option.map_eq_some_iff.mp hscan
    rw [hreads.isNamed] at hn
    have hkind := hreads.kind_of_isNamed hn (by decide) (by decide)
    rw [attribute?_congr hkind] at hattr
    have hf : Field.ofMarker? t x = some (Field.ofInstruction t x instruction x [] .simple true) := by
      rw [Field.ofMarker?, if_pos hn, Field.simple?, hattr]
      rfl
    obtain ⟨he, hv⟩ := Field.ofInstruction_alike v t (φ x) x instruction (φ x) x [] [] .simple true
    refine hfound _ hf he hv ?_ ?_
    · rw [Field.ofInstruction_first, Field.ofInstruction_first, h.span hx hlt]
    · rw [Field.ofInstruction_last, Field.ofInstruction_last]
      exact (h.span hx hlt).symm
  · split at hscan
    · next hn hm =>
      obtain ⟨f, hf, he, hv, hfirst, hfs, hlast, hls, hflt, hllt⟩ := h.exists_complex hx hm hscan
      refine hfound f ?_ he hv ?_ ?_
      · rw [hreads.isNamed] at hn
        rw [hreads.isMarker] at hm
        rw [Field.ofMarker?, if_neg hn, if_pos hm, hf]
      · rw [hfirst, h.span hfs hflt]
      · rw [hlast, h.span hls hllt]
    · cases hscan

end Echoed

end Tree

end MailMerge
