/-
  MailMerge.Proofs.Tree.Reworded — two trees that differ in the words of some texts.

  The one is edited as the other is, except that some texts are made with other words. Such a
  text is always made in a text element, and what may be taken out of there and put somewhere
  else is made of the same words in both. So the trees stay the same but for their words
  (`Reworded.wordless`), and wherever a child has other words its parent is a text element
  (`Linkable.worded`). `varies` tells whether there may be other words at all. With `guarded` the
  trees also keep instructions free of elements, so that no text element comes to stand in one.

  Proved: two such trees remain such trees under every edit, one lemma for each.
-/

import MailMerge.Proofs.Tree.Twigs
import MailMerge.Proofs.Tree.Wordless

namespace MailMerge.Tree

/-! ## What edits leave of a node -/

/-- Each node that was there keeps its kind, but for the attributes of elements. -/
structure Lasting (t u : Tree) : Prop where
  grows : t.size ≤ u.size
  kind : ∀ x < t.size, u.kind x = t.kind x ∨
    ∃ name attributes attributes', t.kind x = .element name attributes ∧ u.kind x = .element name attributes'

section lasting

variable {t u v : Tree}

theorem Lasting.refl (t : Tree) : Lasting t t := ⟨Nat.le_refl _, fun _ _ => Or.inl rfl⟩

theorem lasting_of_kind (hg : t.size ≤ u.size) (hk : ∀ x < t.size, u.kind x = t.kind x) : Lasting t u := ⟨hg, fun x hx => Or.inl (hk x hx)⟩

theorem Lasting.trans (h : Lasting t u) (h' : Lasting u v) : Lasting t v where
  grows := Nat.le_trans h.grows h'.grows
  kind x hx := by
    rcases h.kind x hx with hk | ⟨name, as, as', ht, hu⟩ <;>
      rcases h'.kind x (Nat.lt_of_lt_of_le hx h.grows) with hk' | ⟨name', bs, bs', hu', hv⟩
    · exact Or.inl (hk'.trans hk)
    · exact Or.inr ⟨name', bs, bs', hk ▸ hu', hv⟩
    · exact Or.inr ⟨name, as, as', ht, hk' ▸ hu⟩
    · rw [hu] at hu'
      cases hu'
      exact Or.inr ⟨name, as, bs', ht, hv⟩

theorem Lasting.name? (h : Lasting t u) {x : NodeId} (hx : x < t.size) : u.name? x = t.name? x := by
  rcases h.kind x hx with hk | ⟨name, as, as', ht, hu⟩
  · exact name?_congr hk
  · rw [Tree.name?, Tree.name?, ht, hu]

theorem Lasting.isNamed (h : Lasting t u) {x : NodeId} (hx : x < t.size) (name : String) : u.isNamed name x = t.isNamed name x :=
  isNamed_of_name? (h.name? hx) name

theorem Lasting.named (h : Lasting t u) {x : NodeId} {name : String} (hx : t.isNamed name x = true) : u.isNamed name x = true :=
  (h.isNamed (lt_size_of_isNamed hx) name).trans hx

theorem Lasting.isElement (h : Lasting t u) {x : NodeId} (hx : x < t.size) : u.isElement x = t.isElement x := by
  rw [Tree.isElement, Tree.isElement, h.name? hx]

theorem Lasting.element (h : Lasting t u) {x : NodeId} (hx : t.isElement x = true) : u.isElement x = true :=
  (h.isElement (lt_size_of_isElement hx)).trans hx

theorem lasting_create (t : Tree) (k : Kind) (s : Span) : Lasting t (t.create k s).2 :=
  lasting_of_kind (by rw [size_create]; exact Nat.le_succ _) fun x hx => by rw [kind_create, if_neg (Nat.ne_of_lt hx)]

theorem lasting_detach (t : Tree) (x : NodeId) : Lasting t (t.detach x) :=
  lasting_of_kind (Nat.le_of_eq (size_detach t x).symm) fun y _ => kind_detach t x y

theorem lasting_detachAll (t : Tree) (ids : List NodeId) : Lasting t (t.detachAll ids) := by
  induction ids generalizing t with
  | nil => exact .refl t
  | cons x ids ih => exact (lasting_detach t x).trans (ih _)

theorem lasting_attach (place : List NodeId → List NodeId) (t : Tree) (p x : NodeId) : Lasting t (t.attach place p x) :=
  lasting_of_kind (Nat.le_of_eq (size_attach place t p x).symm) fun y _ => kind_attach place t p x y

theorem lasting_setSpan (t : Tree) (id : NodeId) (s : Span) : Lasting t (t.setSpan id s) :=
  lasting_of_kind (Nat.le_of_eq (size_setSpan t id s).symm) fun x _ => kind_setSpan t id x s

theorem lasting_setAttribute (t : Tree) (id : NodeId) (key value : String) : Lasting t (t.setAttribute id key value) := by
  have hsize : (t.setAttribute id key value).size = t.size := by
    unfold setAttribute
    split
    · exact size_setKind _ _ _
    · rfl
  refine ⟨Nat.le_of_eq hsize.symm, fun x hx => ?_⟩
  by_cases hid : x = id
  · subst hid
    unfold setAttribute
    split
    · next name attributes hk => exact Or.inr ⟨name, attributes, _, hk, by rw [kind_setKind, if_pos ⟨rfl, hx⟩]⟩
    · exact Or.inl rfl
  · exact Or.inl (kind_setAttribute_of_ne hid key value)

end lasting

theorem lasting_setText {t : Tree} {id : NodeId} (hid : t.isElement id = true) (data : String) : Lasting t (t.setText id data) := by
  obtain ⟨name, attributes, hkind⟩ := kind_of_isElement hid
  unfold setText
  rw [hkind]
  have hmade := (lasting_detachAll t (t.children id)).trans (lasting_create _ (.text data) .none)
  exact hmade.trans ((lasting_detach _ _).trans (lasting_attach _ _ _ _))

/-! ## Links -/

/-- `x` may stand below `p` in both trees. -/
structure Linkable (guarded : Prop) (t u : Tree) (p x : NodeId) : Prop where
  stored : x < t.size
  worded : u.kind x = t.kind x ∨ t.isNamed Word.text p = true
  guard : guarded → t.isNamed Word.instructionText p = true → t.isElement x = false

structure Reworded (varies guarded : Prop) (t u : Tree) : Prop where
  wordless : u.wordless = t.wordless
  links : ∀ p, ∀ x ∈ t.children p, t.parent x = some p ∧ Linkable guarded t u p x
  same : ¬ varies → u = t

variable {varies guarded : Prop} {t u t' u' : Tree} {p x y anchor id : NodeId}

/-- Without their words the same nodes are of the same kind, if they are no texts. -/
theorem kind_eq_of_element (h : u.wordless = t.wordless) {x : NodeId} (hx : t.isElement x = true) : u.kind x = t.kind x := by
  have hk : (u.kind x).wordless = (t.kind x).wordless := by rw [← kind_wordless, h, kind_wordless]
  rcases Kind.eq_of_wordless hk with hk | ⟨a, b, ht, -⟩
  · exact hk
  · rw [isElement, name?, ht] at hx
    cases hx

/-- What has the same words keeps them. -/
theorem kind_eq_of_lasting (h' : u'.wordless = t'.wordless) (ht : Lasting t t') (hu : Lasting u u') {x : NodeId}
    (hx : x < t.size) (hxu : x < u.size) (hk : u.kind x = t.kind x) : u'.kind x = t'.kind x := by
  by_cases hel : t.isElement x = true
  · exact kind_eq_of_element h' ((ht.isElement hx).trans hel)
  · have hnone : ∀ {name as}, t.kind x ≠ .element name as := by
      intro name as he
      rw [isElement, name?, he] at hel
      exact hel rfl
    have htk : t'.kind x = t.kind x := by
      rcases ht.kind x hx with hk' | ⟨_, _, _, he, _⟩
      · exact hk'
      · exact absurd he hnone
    have huk : u'.kind x = u.kind x := by
      rcases hu.kind x hxu with hk' | ⟨_, _, _, he, _⟩
      · exact hk'
      · exact absurd (hk ▸ he) hnone
    rw [huk, hk, htk]

theorem Linkable.of_kind (h : Linkable guarded t u p x) (hs : t.size ≤ t'.size) (ht : ∀ y, t'.kind y = t.kind y) (hu : ∀ y, u'.kind y = u.kind y) :
    Linkable guarded t' u' p x where
  stored := Nat.lt_of_lt_of_le h.stored hs
  worded := by rw [ht, hu, isNamed_congr (ht p)]; exact h.worded
  guard := by rw [isNamed_congr (ht p), isElement_congr (ht x)]; exact h.guard

/-! ## Rows of children -/

/-- What is taken out leaves its list. -/
theorem mem_of_mem_detach (hy : y ∈ (t.detach x).children p) : y ∈ t.children p ∧ (t.parent x = some p → y ≠ x) := by
  unfold Tree.detach at hy
  cases hq : t.parent x with
  | none =>
    rw [hq] at hy
    exact ⟨hy, nofun⟩
  | some q =>
    simp only [hq, children_mapChildren, children_setParent, size_setParent] at hy
    split at hy
    · obtain ⟨hy, hne⟩ := List.mem_filter.mp hy
      exact ⟨hy, fun _ => bne_iff_ne.mp hne⟩
    · next hc => exact ⟨hy, fun hp => absurd ⟨(Option.some.inj hp).symm, lt_size_of_mem_children hy⟩ hc⟩

/-- A node that is put beside another one stays, is taken out, or goes where the other one is. -/
theorem insertBeside_cases (place : NodeId → NodeId → List NodeId → List NodeId) (t : Tree) (anchor x : NodeId) :
    t.insertBeside place anchor x = t ∨ t.insertBeside place anchor x = t.detach x ∨
      ∃ p, t.parent anchor = some p ∧ anchor ∈ (t.detach x).children p ∧
        t.insertBeside place anchor x = (t.detach x).attach (place anchor x) p x := by
  unfold Tree.insertBeside
  split
  · exact Or.inl rfl
  · split
    · exact Or.inl rfl
    · next p hp =>
      simp only
      split
      · next hmem => exact Or.inr (Or.inr ⟨p, hp, List.contains_iff_mem.mp hmem, rfl⟩)
      · exact Or.inr (Or.inl rfl)

theorem size_insertBeside (place : NodeId → NodeId → List NodeId → List NodeId) (t : Tree) (anchor x : NodeId) :
    (t.insertBeside place anchor x).size = t.size := by
  rcases t.insertBeside_cases place anchor x with h | h | ⟨p, -, -, h⟩ <;> rw [h]
  · exact size_detach t x
  · rw [size_attach, size_detach]

theorem kind_insertBeside (place : NodeId → NodeId → List NodeId → List NodeId) (t : Tree) (anchor x y : NodeId) :
    (t.insertBeside place anchor x).kind y = t.kind y := by
  rcases t.insertBeside_cases place anchor x with h | h | ⟨p, -, -, h⟩ <;> rw [h]
  · exact kind_detach t x y
  · rw [kind_attach, kind_detach]

theorem lasting_insertBeside (place : NodeId → NodeId → List NodeId → List NodeId) (t : Tree) (anchor x : NodeId) :
    Lasting t (t.insertBeside place anchor x) :=
  lasting_of_kind (Nat.le_of_eq (t.size_insertBeside place anchor x).symm) fun y _ => t.kind_insertBeside place anchor x y

theorem lasting_insertAfter (t : Tree) (anchor x : NodeId) : Lasting t (t.insertAfter anchor x) := lasting_insertBeside _ t anchor x

theorem lasting_insertAllAfter (t : Tree) (anchor : NodeId) (ids : List NodeId) : Lasting t (t.insertAllAfter anchor ids) := by
  induction ids generalizing t anchor with
  | nil => exact .refl t
  | cons x ids ih => exact (lasting_insertAfter t anchor x).trans (ih _ x)

/-- What stands in one row with `y` stands in no instruction. -/
def ClearBeside (guarded : Prop) (t : Tree) (y : NodeId) : Prop :=
  guarded → ∀ p, t.parent y = some p → y ∈ t.children p → t.isNamed Word.instructionText p = false

theorem ClearBeside.detach (hy : ClearBeside guarded t y) : ClearBeside guarded (t.detach x) y := by
  intro hg p hp hmem
  rw [parent_detach] at hp
  split at hp
  · cases hp
  · rw [isNamed_congr (kind_detach t x p)]
    exact hy hg p hp (mem_of_mem_detach hmem).1

theorem ClearBeside.insertAfter (hy : ClearBeside guarded t y) (hanchor : ClearBeside guarded t anchor) (hx : x < t.size) :
    ClearBeside guarded (t.insertAfter anchor x) y := by
  unfold Tree.insertAfter
  rcases t.insertBeside_cases Siblings.insertAfter anchor x with h | h | ⟨q, hq, hin, h⟩ <;> rw [h]
  · exact hy
  · exact hy.detach
  · intro hg p hp hmem
    rw [parent_attach _ (by rwa [size_detach])] at hp
    rw [isNamed_congr ((kind_attach _ (t.detach x) q x p).trans (kind_detach t x p))]
    split at hp
    · cases hp
      exact hanchor hg q hq (mem_of_mem_detach hin).1
    · next hne =>
      rw [parent_detach_of_ne t hne] at hp
      refine hy hg p hp ?_
      simp only [attach, children_mapChildren, children_setParent, size_setParent] at hmem
      split at hmem
      · next hc =>
        have hold := ((adds_insertAfter hin).mem y).mp (hc.1 ▸ hmem)
        exact (mem_of_mem_detach (hc.1 ▸ hold.resolve_left hne)).1
      · exact (mem_of_mem_detach hmem).1

namespace Reworded

theorem size (h : Reworded varies guarded t u) : u.size = t.size := read_congr size_wordless h.wordless

theorem parent (h : Reworded varies guarded t u) : u.parent = t.parent := read_congr parent_wordless h.wordless

theorem children (h : Reworded varies guarded t u) : u.children = t.children := read_congr children_wordless h.wordless

theorem isNamed (h : Reworded varies guarded t u) : u.isNamed = t.isNamed := read_congr isNamed_wordless h.wordless

theorem subtree (h : Reworded varies guarded t u) : u.subtree = t.subtree := read_congr subtree_wordless h.wordless

/-- What stands below another node than a text element has the same words. -/
theorem kind_of_mem (h : Reworded varies guarded t u) {p x : NodeId} (hx : x ∈ t.children p) (hp : t.isNamed Word.text p = false) :
    u.kind x = t.kind x := by
  refine (h.links p x hx).2.worded.resolve_right fun hn => ?_
  rw [hp] at hn
  cases hn

theorem refl (hlinks : ∀ p, ∀ x ∈ t.children p, t.parent x = some p)
    (hguard : guarded → ∀ p, t.isNamed Word.instructionText p = true → ∀ x ∈ t.children p, t.isElement x = false) :
    Reworded varies guarded t t where
  wordless := rfl
  links p x hx := ⟨hlinks p x hx, lt_size_of_parent (hlinks p x hx), Or.inl rfl, fun hg hp => hguard hg p hp x hx⟩
  same _ := rfl

/-- A pair of edits: all links behind them are old ones or fit. -/
theorem edit (h : Reworded varies guarded t u) (hw : u'.wordless = t'.wordless) (ht : Lasting t t') (hu : Lasting u u')
    (hlinks : ∀ p, ∀ x ∈ t'.children p, x ∈ t.children p ∧ t'.parent x = t.parent x ∨ t'.parent x = some p ∧ Linkable guarded t' u' p x)
    (hsame : ¬ varies → u' = t') : Reworded varies guarded t' u' where
  wordless := hw
  same := hsame
  links p x hx := by
    rcases hlinks p x hx with ⟨hold, hparent⟩ | hnew
    · obtain ⟨hup, hstored, hworded, hguard⟩ := h.links p x hold
      have hp := lt_size_of_mem_children hold
      refine ⟨hparent.trans hup, Nat.lt_of_lt_of_le hstored ht.grows, ?_, fun hg hn => ?_⟩
      · rcases hworded with hk | hn
        · exact Or.inl (kind_eq_of_lasting hw ht hu hstored (h.size ▸ hstored) hk)
        · exact Or.inr ((ht.isNamed hp _).trans hn)
      · rw [ht.isElement hstored]
        exact hguard hg ((ht.isNamed hp _).symm.trans hn)
    · exact hnew

/-! ## Single edits -/

/-- A new node may have other words. -/
theorem createWorded (h : Reworded varies guarded t u) {k k' : Kind} (hk : k'.wordless = k.wordless) (hv : ¬ varies → k' = k) (s : Span) :
    Reworded varies guarded (t.create k s).2 (u.create k' s).2 := by
  refine h.edit ?_ (lasting_create t k s) (lasting_create u k' s) (fun p x hx => Or.inl ?_) fun hvary => by rw [h.same hvary, hv hvary]
  · rw [wordless_create, wordless_create, h.wordless, hk]
  · rw [children_create] at hx
    exact ⟨hx, parent_create t k s x⟩

theorem create (h : Reworded varies guarded t u) (k : Kind) (s : Span) : Reworded varies guarded (t.create k s).2 (u.create k s).2 :=
  h.createWorded rfl (fun _ => rfl) s

theorem setSpan (h : Reworded varies guarded t u) (id : NodeId) (s : Span) : Reworded varies guarded (t.setSpan id s) (u.setSpan id s) := by
  refine h.edit ?_ (lasting_setSpan t id s) (lasting_setSpan u id s) (fun p x hx => Or.inl ?_) fun hv => by rw [h.same hv]
  · rw [wordless_setSpan, wordless_setSpan, h.wordless]
  · rw [children_setSpan] at hx
    exact ⟨hx, parent_setSpan t id x s⟩

theorem setAttribute (h : Reworded varies guarded t u) (id : NodeId) (key value : String) :
    Reworded varies guarded (t.setAttribute id key value) (u.setAttribute id key value) := by
  refine h.edit ?_ (lasting_setAttribute t id key value) (lasting_setAttribute u id key value) (fun p x hx => Or.inl ?_)
    fun hv => by rw [h.same hv]
  · rw [wordless_setAttribute, wordless_setAttribute, h.wordless]
  · rw [children_setAttribute] at hx
    exact ⟨hx, parent_setAttribute t id x key value⟩

theorem detach (h : Reworded varies guarded t u) (x : NodeId) : Reworded varies guarded (t.detach x) (u.detach x) := by
  refine h.edit ?_ (lasting_detach t x) (lasting_detach u x) (fun p y hy => Or.inl ?_) fun hv => by rw [h.same hv]
  · rw [wordless_detach, wordless_detach, h.wordless]
  · obtain ⟨hmem, hne⟩ := mem_of_mem_detach hy
    exact ⟨hmem, parent_detach_of_ne t fun he => hne (he ▸ (h.links p y hmem).1) he⟩

theorem detachAll (h : Reworded varies guarded t u) (ids : List NodeId) : Reworded varies guarded (t.detachAll ids) (u.detachAll ids) := by
  induction ids generalizing t u with
  | nil => exact h
  | cons x ids ih => exact ih (h.detach x)

theorem attach (h : Reworded varies guarded t u) {place : List NodeId → List NodeId} (hplace : Adds x (t.children p) (place (t.children p)))
    (hx : t.parent x = none) (hfits : Linkable guarded t u p x) :
    Reworded varies guarded (t.attach place p x) (u.attach place p x) := by
  refine h.edit ?_ (lasting_attach place t p x) (lasting_attach place u p x) (fun q y hy => ?_) fun hv => by rw [h.same hv]
  · rw [wordless_attach, wordless_attach, h.wordless]
  · have hmem : q = p ∧ y = x ∨ y ∈ t.children q := by
      simp only [Tree.attach, children_mapChildren, children_setParent] at hy
      split at hy
      · next hq =>
        rw [hq.1] at hy ⊢
        exact ((hplace.mem y).mp hy).imp_left fun he => ⟨rfl, he⟩
      · exact Or.inr hy
    rw [parent_attach place hfits.stored]
    rcases hmem with ⟨rfl, rfl⟩ | hold
    · refine Or.inr ⟨if_pos rfl, hfits.of_kind (Nat.le_of_eq (size_attach place t q y).symm) (kind_attach place t q y) (kind_attach place u q y)⟩
    · refine Or.inl ⟨hold, if_neg ?_⟩
      rintro rfl
      rw [(h.links q y hold).1] at hx
      cases hx

theorem move (h : Reworded varies guarded t u) {place : List NodeId → List NodeId} (hplace : ∀ l, Adds x l (place l))
    (hfits : Linkable guarded t u p x) : Reworded varies guarded (t.move place p x) (u.move place p x) :=
  (h.detach x).attach (hplace _) (parent_detach_self t x)
    (hfits.of_kind (Nat.le_of_eq (size_detach t x).symm) (kind_detach t x) (kind_detach u x))

theorem appendChild (h : Reworded varies guarded t u) (hfits : Linkable guarded t u p x) :
    Reworded varies guarded (t.appendChild p x) (u.appendChild p x) :=
  h.move (adds_append x) hfits

theorem prependChild (h : Reworded varies guarded t u) (hfits : Linkable guarded t u p x) :
    Reworded varies guarded (t.prependChild p x) (u.prependChild p x) :=
  h.move (adds_cons x) hfits

/-! ## Rows -/

/-- An element stands in no instruction. -/
theorem clearBeside (h : Reworded varies guarded t u) (hy : guarded → t.isElement y = true) : ClearBeside guarded t y := by
  intro hg p _ hmem
  rw [Bool.eq_false_iff]
  intro hn
  have hel := (h.links p y hmem).2.guard hg hn
  rw [hy hg] at hel
  cases hel

theorem insertBeside (h : Reworded varies guarded t u) {place : NodeId → NodeId → List NodeId → List NodeId}
    (hplace : ∀ {anchor x l}, anchor ∈ l → Adds x l (place anchor x l)) (hx : x < t.size) (hk : u.kind x = t.kind x)
    (hclear : ClearBeside guarded t anchor) : Reworded varies guarded (t.insertBeside place anchor x) (u.insertBeside place anchor x) := by
  have hd := h.detach x
  unfold Tree.insertBeside
  rw [h.parent]
  split
  · exact h
  · split
    · exact h
    · next p hp =>
      simp only [hd.children]
      split
      · next hmem =>
        have hmem := List.contains_iff_mem.mp hmem
        refine hd.attach (hplace hmem) (parent_detach_self t x) ⟨by rwa [size_detach], Or.inl ?_, fun hg hn => ?_⟩
        · rw [kind_detach, kind_detach, hk]
        · rw [isNamed_congr (kind_detach t x p), hclear hg p hp (mem_of_mem_detach hmem).1] at hn
          cases hn
      · exact hd

theorem insertAfter (h : Reworded varies guarded t u) (hx : x < t.size) (hk : u.kind x = t.kind x)
    (hclear : ClearBeside guarded t anchor) : Reworded varies guarded (t.insertAfter anchor x) (u.insertAfter anchor x) :=
  h.insertBeside adds_insertAfter hx hk hclear

theorem insertBefore (h : Reworded varies guarded t u) (hx : x < t.size) (hk : u.kind x = t.kind x)
    (hclear : ClearBeside guarded t anchor) : Reworded varies guarded (t.insertBefore anchor x) (u.insertBefore anchor x) :=
  h.insertBeside adds_insertBefore hx hk hclear

theorem insertAllAfter (h : Reworded varies guarded t u) {ids : List NodeId} (hids : ∀ x ∈ ids, x < t.size ∧ u.kind x = t.kind x)
    (hclear : ∀ y ∈ anchor :: ids, ClearBeside guarded t y) :
    Reworded varies guarded (t.insertAllAfter anchor ids) (u.insertAllAfter anchor ids) := by
  induction ids generalizing t u anchor with
  | nil => exact h
  | cons x ids ih =>
    obtain ⟨hx, hk⟩ := hids x List.mem_cons_self
    have hone := h.insertAfter hx hk (hclear anchor List.mem_cons_self)
    refine ih hone (fun y hy => ?_) fun y hy => ?_
    · rw [Tree.insertAfter, Tree.insertAfter, kind_insertBeside, kind_insertBeside, size_insertBeside]
      exact hids y (List.mem_cons_of_mem x hy)
    · exact (hclear y (List.mem_cons_of_mem anchor hy)).insertAfter (hclear anchor List.mem_cons_self) hx

/-- A field's own element goes, and what is in it stays in its place. -/
theorem unwrap (h : Reworded varies guarded t u) (hid : t.isNamed Word.simpleField id = true) :
    Reworded varies guarded (t.unwrap id) (u.unwrap id) := by
  have hother : ∀ name, Word.simpleField ≠ name → t.isNamed name id = false := fun name => not_isNamed_of_isNamed hid
  rw [Tree.unwrap, Tree.unwrap, h.children]
  refine (h.insertAllAfter (fun x hx => ⟨(h.links id x hx).2.stored, h.kind_of_mem hx (hother _ (by decide))⟩) fun y hy => ?_).detach id
  rcases List.mem_cons.mp hy with rfl | hy
  · exact h.clearBeside fun _ => isElement_of_isNamed hid
  · intro _ p hp _
    rw [(h.links id y hy).1] at hp
    cases hp
    exact hother _ (by decide)

/-! ## Words -/

/-- The words of a text element. -/
theorem setText (h : Reworded varies guarded t u) (hid : t.isNamed Word.text id = true) {a b : String} (hv : ¬ varies → b = a) :
    Reworded varies guarded (t.setText id a) (u.setText id b) := by
  have hk := kind_eq_of_element h.wordless (isElement_of_isNamed hid)
  obtain ⟨name, attributes, hkind⟩ := kind_of_isElement (isElement_of_isNamed hid)
  have hcut := h.detachAll (t.children id)
  have hkinds : (Kind.text b).wordless = (Kind.text a).wordless := rfl
  have hmade := hcut.createWorded hkinds (fun hvary => by rw [hv hvary]) .none
  unfold Tree.setText
  rw [hk, hkind, h.children]
  have hstored : (u.detachAll (t.children id)).size = (t.detachAll (t.children id)).size := hcut.size
  have hnamed : ((t.detachAll (t.children id)).create (.text a) .none).2.isNamed Word.text id = true :=
    ((lasting_detachAll t _).trans (lasting_create _ _ _)).named hid
  show Reworded varies guarded (((t.detachAll _).create _ _).2.appendChild id _) (((u.detachAll _).create _ _).2.appendChild id _)
  rw [hstored]
  refine hmade.appendChild ⟨by rw [size_create]; exact Nat.lt_succ_self _, Or.inr hnamed, fun _ hn => ?_⟩
  rw [not_isNamed_of_isNamed hnamed (by decide)] at hn
  cases hn

end Reworded

end MailMerge.Tree
