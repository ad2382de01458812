/-
  MailMerge.Proofs.Tree.Spans — the place in the source that a node tells.

  A node has the span it was read with, and only reading sets one: edits move nodes and
  change what they say, and a copy has the span of what it copies.

  Proved: edits leave every older node its span (`KeepsSpans`), and the nodes of a copy have
  the spans of the originals, one after the other (`spansOf_copyTo`). So copies in a new element
  have all that their originals have, under other names (`exists_duplicates_copiesIn`).
-/

import MailMerge.Proofs.Tree.Renamed
import MailMerge.Proofs.Tree.Spared

namespace MailMerge

namespace Tree

/-! ## Single edits -/

section fields

variable (t : Tree) (id x : NodeId)

theorem span_update {f : Node → Node} (hf : ∀ n, (f n).span = n.span) : (t.update id f).span x = t.span x := by
  rw [span, node_update]
  split
  · rw [hf]; rfl
  · rfl

@[simp] theorem span_setKind (k : Kind) : (t.setKind id k).span x = t.span x := span_update t id x fun _ => rfl

@[simp] theorem span_setParent (p : Option NodeId) : (t.setParent id p).span x = t.span x := span_update t id x fun _ => rfl

@[simp] theorem span_mapChildren (f : List NodeId → List NodeId) : (t.mapChildren id f).span x = t.span x :=
  span_update t id x fun _ => rfl

theorem span_create (k : Kind) (s : Span) : (t.create k s).2.span x = if x = t.size then s else t.span x := by
  rw [span, node_create]
  split <;> rfl

end fields

/-- Older nodes have the spans they had. -/
structure KeepsSpans (t u : Tree) : Prop where
  grows : t.size ≤ u.size
  span : ∀ x < t.size, u.span x = t.span x

variable {t u v : Tree}

theorem KeepsSpans.refl (t : Tree) : KeepsSpans t t := ⟨Nat.le_refl _, fun _ _ => rfl⟩

theorem KeepsSpans.trans (h : KeepsSpans t u) (h' : KeepsSpans u v) : KeepsSpans t v where
  grows := Nat.le_trans h.grows h'.grows
  span x hx := (h'.span x (Nat.lt_of_lt_of_le hx h.grows)).trans (h.span x hx)

theorem Beyond.keepsSpans {n : Nat} (h : Beyond n t u) (hn : t.size ≤ n) : KeepsSpans t u where
  grows := h.grows
  span x hx := by rw [Tree.span, h.same (Nat.lt_of_lt_of_le hx hn)]; rfl

theorem keepsSpans_create (t : Tree) (k : Kind) (s : Span) : KeepsSpans t (t.create k s).2 where
  grows := by rw [size_create]; exact Nat.le_succ _
  span x hx := by rw [span_create, if_neg (Nat.ne_of_lt hx)]

theorem keepsSpans_detach (t : Tree) (x : NodeId) : KeepsSpans t (t.detach x) where
  grows := Nat.le_of_eq (size_detach t x).symm
  span y _ := by
    unfold Tree.detach
    split
    · rfl
    · simp

theorem keepsSpans_detachAll (t : Tree) (ids : List NodeId) : KeepsSpans t (t.detachAll ids) := by
  induction ids generalizing t with
  | nil => exact .refl t
  | cons x ids ih => exact (keepsSpans_detach t x).trans (ih _)

theorem keepsSpans_link (t : Tree) (x p : NodeId) (place : List NodeId → List NodeId) :
    KeepsSpans t ((t.setParent x (some p)).mapChildren p place) where
  grows := by rw [size_mapChildren, size_setParent]
  span y _ := by simp

theorem keepsSpans_appendChild (t : Tree) (p x : NodeId) : KeepsSpans t (t.appendChild p x) :=
  (keepsSpans_detach t x).trans (keepsSpans_link _ x p _)

theorem keepsSpans_insertBeside (place : NodeId → NodeId → List NodeId → List NodeId) (t : Tree) (anchor x : NodeId) :
    KeepsSpans t (insertBeside place t anchor x) := by
  unfold insertBeside
  split
  · exact .refl t
  · split
    · exact .refl t
    · next p _ =>
      simp only
      split
      · exact (keepsSpans_detach t x).trans (keepsSpans_link _ x p _)
      · exact keepsSpans_detach t x

theorem keepsSpans_insertAllAfter (ids : List NodeId) (t : Tree) (anchor : NodeId) :
    KeepsSpans t (t.insertAllAfter anchor ids) := by
  induction ids generalizing t anchor with
  | nil => exact .refl t
  | cons x ids ih => exact (keepsSpans_insertBeside _ t anchor x).trans (ih _ x)

theorem keepsSpans_unwrap (t : Tree) (id : NodeId) : KeepsSpans t (t.unwrap id) :=
  (keepsSpans_insertAllAfter _ t id).trans (keepsSpans_detach _ id)

theorem keepsSpans_setAttribute (t : Tree) (id : NodeId) (key value : String) : KeepsSpans t (t.setAttribute id key value) := by
  unfold setAttribute
  split
  · exact ⟨Nat.le_of_eq (size_setKind t id _).symm, fun x _ => span_setKind t id x _⟩
  · exact .refl t

theorem keepsSpans_setText (t : Tree) (id : NodeId) (data : String) : KeepsSpans t (t.setText id data) := by
  have hkind : ∀ k, KeepsSpans t (t.setKind id k) := fun k =>
    ⟨Nat.le_of_eq (size_setKind t id k).symm, fun x _ => span_setKind t id x k⟩
  unfold setText
  split
  · exact hkind _
  · exact hkind _
  · have hcut := keepsSpans_detachAll t (t.children id)
    exact (hcut.trans (keepsSpans_create _ _ _)).trans (keepsSpans_appendChild _ id _)
  · exact .refl t

theorem keepsSpans_copyTo (n : Nat) (t : Tree) (id : NodeId) : KeepsSpans t (copyTo n t id).2 := by
  induction n generalizing t id with
  | zero => exact keepsSpans_create t _ _
  | succ n ih =>
    have hfold : ∀ (cs : List NodeId) (u : Tree), KeepsSpans t u → KeepsSpans t (cs.foldl (fun u child =>
        (copyTo n u child).2.adopt t.size (copyTo n u child).1) u) := by
      intro cs
      induction cs with
      | nil => exact fun _ hu => hu
      | cons c cs ihc => exact fun u hu => ihc _ ((hu.trans (ih u c)).trans (keepsSpans_link _ _ t.size _))
    exact hfold (t.children id) _ (keepsSpans_create t _ _)

/-! ## Copies -/

/-- The spans of nodes and all that is below them, in document order. -/
def spansOf (t : Tree) (ids : List NodeId) : List Span := (ids.flatMap t.subtree).map t.span

theorem spansOf_append (t : Tree) (ids ids' : List NodeId) : t.spansOf (ids ++ ids') = t.spansOf ids ++ t.spansOf ids' := by
  rw [spansOf, List.flatMap_append, List.map_append]
  rfl

/-- What is below some nodes tells its spans. -/
theorem spansOf_congr (h : t.WellFormed) (hu : u.WellFormed) {ids : List NodeId} (hin : ∀ x ∈ ids, x < t.size)
    (hs : ∀ a ∈ ids, ∀ d, t.Within a d → u.kind d = t.kind d ∧ u.children d = t.children d) (hspans : KeepsSpans t u) :
    u.spansOf ids = t.spansOf ids := by
  have hspares : Spares (t.Under ids) t u :=
    ⟨fun d ⟨a, ha, hd⟩ => reads_of_kind (hs a ha d hd).1, fun d ⟨a, ha, hd⟩ => (hs a ha d hd).2⟩
  have hsubtrees := (renames_id_iff.mpr hspares).flatMap_subtree h hu fun n hn => under_of_mem hn
  rw [List.map_id, List.map_id] at hsubtrees
  rw [spansOf, hsubtrees]
  apply List.map_congr_left
  intro d hd
  obtain ⟨a, ha, hda⟩ := List.mem_flatMap.mp hd
  exact hspans.span d ((fenced_size h).lt_of_within (hin a ha) (h.mem_subtree.mp hda))

/-- A copy that is adopted brings its spans, behind those of the copies before. -/
theorem Filling.spansOf_adopt {name : String} {as : List (String × String)} {ws : List Twig}
    (hu : Filling t (.element name as) ws u) {w : Twig} {cc : NodeId} (hv : Copied u w cc v) :
    (v.adopt t.size cc).spansOf ((v.adopt t.size cc).children t.size) = u.spansOf (u.children t.size) ++ v.spansOf [cc] := by
  have hwu := hu.beyond.wellFormed
  have hwv := hv.beyond.wellFormed
  have hw := (hu.step hv).beyond.wellFormed
  have hlt : t.size < v.size := Nat.lt_of_lt_of_le hu.lt_size hv.beyond.grows
  have hold : ∀ a ∈ u.children t.size, a < u.size := fun a ha => hwu.lt_size_of_mem ha
  have hchildren : ∀ q, (v.adopt t.size cc).children q = if q = t.size then v.children t.size ++ [cc] else v.children q :=
    children_attach _ hlt cc
  have hadopt : KeepsSpans v (v.adopt t.size cc) := keepsSpans_link v cc t.size _
  -- the new node is below none of the copies
  have hnone : ∀ a ∈ u.children t.size ++ [cc], ¬ v.Within a t.size := by
    intro a ha hin
    rcases List.mem_append.mp ha with ha | ha
    · have hbefore : u.Within a t.size :=
        (hv.beyond.within_iff_of_not_mem (fenced_size hwu) (Nat.not_le_of_lt hu.lt_size)).mp hin
      exact hwu.not_within_of_parent (hwu.parent_of_mem ha) hbefore
    · obtain rfl := List.mem_singleton.mp ha
      exact Nat.not_lt_of_le (hv.beyond.zone.within (Nat.le_of_eq hv.fst.symm) hin) hu.lt_size
  have hsame : (v.adopt t.size cc).spansOf (u.children t.size ++ [cc]) = v.spansOf (u.children t.size ++ [cc]) := by
    refine spansOf_congr hwv hw ?_ (fun a ha d hd => ⟨kind_attach _ v t.size cc d, ?_⟩) hadopt
    · intro a ha
      rcases List.mem_append.mp ha with ha | ha
      · exact Nat.lt_of_lt_of_le (hold a ha) hv.beyond.grows
      · rw [List.mem_singleton.mp ha, hv.fst]
        exact hv.lt_size
    · rw [hchildren, if_neg]
      rintro rfl
      exact hnone a ha hd
  have hbefore : v.spansOf (u.children t.size) = u.spansOf (u.children t.size) := by
    refine spansOf_congr hwu hwv hold (fun a ha d hd => ?_) (hv.beyond.keepsSpans (Nat.le_refl _))
    have hd := (fenced_size hwu).lt_of_within (hold a ha) hd
    exact ⟨hv.beyond.kind_eq hd, hv.beyond.children_eq hd⟩
  rw [hchildren, if_pos rfl, hv.beyond.children_eq hu.lt_size, hsame, spansOf_append, hbefore]

theorem preorder_congr (h : t.WellFormed) {a : NodeId} (hs : ∀ d, t.Within a d → u.children d = t.children d) (n : Nat) :
    u.preorder n a = t.preorder n a := by
  induction n generalizing a with
  | zero => rfl
  | succ n ih =>
    have hchildren : ∀ c ∈ t.children a, u.preorder n c = t.preorder n c := fun c hc =>
      ih fun d hd => hs d (within_trans (within_of_parent (h.parent_of_mem hc)) hd)
    rw [preorder, preorder, hs a (within_refl t a), List.flatMap_congr hchildren]

/-- So many levels are all there are. -/
theorem WellFormed.preorder_enough (h : t.WellFormed) (n : Nat) {a : NodeId} (hn : (t.below a).card ≤ n + 1) :
    t.preorder n a = t.subtree a := by
  have hless : ∀ c ∈ t.children a, (t.below c).card < (t.below a).card := fun c hc => h.card_below_lt (h.parent_of_mem hc)
  induction n generalizing a with
  | zero =>
    have hnil : t.children a = [] := by
      apply List.eq_nil_iff_forall_not_mem.mpr
      intro c hc
      have := hless c hc
      have := card_below_pos (h.lt_size_of_mem hc)
      omega
    rw [preorder, h.subtree_eq, hnil]
    rfl
  | succ n ih =>
    have hchildren : ∀ c ∈ t.children a, t.preorder n c = t.subtree c := by
      intro c hc
      have := hless c hc
      exact ih (by omega) fun d hd => h.card_below_lt (h.parent_of_mem hd)
    rw [preorder, h.subtree_eq, List.flatMap_congr hchildren]

/-- While copies of some nodes are made and adopted one by one, those made so far have the
    spans of their originals. -/
structure Echoing (t : Tree) (k : Kind) (span : Span) (spans : List Span) (u : Tree) : Prop where
  filling : ∃ ws, Filling t k ws u
  span : u.span t.size = span
  spans : u.spansOf (u.children t.size) = spans

theorem echoing_create (h : t.WellFormed) (k : Kind) (s : Span) : Echoing t k s [] (t.create k s).2 where
  filling := ⟨[], filling_create h k s⟩
  span := by rw [span_create, if_pos rfl]
  spans := by rw [children_create, children_of_size_le (Nat.le_refl _)]; rfl

theorem Echoing.spansOf_self {k : Kind} {s : Span} {spans : List Span} (h : Echoing t k s spans u) :
    u.spansOf [t.size] = s :: spans := by
  obtain ⟨ws, hfill⟩ := h.filling
  rw [spansOf, List.flatMap_singleton, hfill.beyond.wellFormed.subtree_eq, List.map_cons, h.span]
  congr 1
  exact h.spans

theorem Echoing.step {name : String} {as : List (String × String)} {s : Span} {spans more : List Span}
    (hu : Echoing t (.element name as) s spans u) {w : Twig} {cc : NodeId} (hv : Copied u w cc v) (hmore : v.spansOf [cc] = more) :
    Echoing t (.element name as) s (spans ++ more) (v.adopt t.size cc) := by
  obtain ⟨ws, hfill⟩ := hu.filling
  refine ⟨⟨_, hfill.step hv⟩, ?_, ?_⟩
  · have hkeep := (hv.beyond.keepsSpans (Nat.le_refl _)).trans (keepsSpans_link v cc t.size (· ++ [cc]))
    exact (hkeep.span t.size hfill.lt_size).trans hu.span
  · rw [hfill.spansOf_adopt hv, hu.spans, hmore]

theorem within_of_mem_preorder (h : t.WellFormed) {n : Nat} {a d : NodeId} (hd : d ∈ t.preorder n a) : t.Within a d := by
  induction n generalizing a with
  | zero => exact List.mem_singleton.mp hd ▸ within_refl t a
  | succ n ih =>
    rcases List.mem_cons.mp hd with rfl | hd
    · exact within_refl t d
    · obtain ⟨c, hc, hcd⟩ := List.mem_flatMap.mp hd
      exact within_trans (within_of_parent (h.parent_of_mem hc)) (ih hcd)

/-- One more copy, of `n` levels, where copies of so many levels have the spans of the originals. -/
theorem Echoing.copyTo (h : t.WellFormed) {name : String} {as : List (String × String)} {s : Span} {spans : List Span}
    (hu : Echoing t (.element name as) s spans u) {c : NodeId} (hcr : c ≠ root) (hlt : c < t.size) {n : Nat}
    (hn : ∀ v : Tree, v.WellFormed → (v.copyTo n c).2.spansOf [(v.copyTo n c).1] = (v.preorder n c).map v.span) :
    Echoing t (.element name as) s (spans ++ (t.preorder n c).map t.span) ((u.copyTo n c).2.adopt t.size (u.copyTo n c).1) := by
  obtain ⟨ws, hfill⟩ := hu.filling
  have hwu := hfill.beyond.wellFormed
  have hold : ∀ d, t.Within c d → d < t.size := fun d hd => (fenced_size h).lt_of_within hlt hd
  have hspans : (u.copyTo n c).2.spansOf [(u.copyTo n c).1] = (t.preorder n c).map t.span := by
    rw [hn u hwu, preorder_congr h fun d hd => hfill.beyond.children_eq (hold d hd)]
    apply List.map_congr_left
    intro d hd
    exact (hfill.beyond.keepsSpans (Nat.le_refl _)).span d (hold d (within_of_mem_preorder h hd))
  exact hu.step (copyTo_spec hwu hcr n) hspans

/-- A copy has the spans of what it copies. -/
theorem spansOf_copyTo (h : t.WellFormed) {id : NodeId} (hne : id ≠ root) (n : Nat) :
    (t.copyTo n id).2.spansOf [(t.copyTo n id).1] = (t.preorder n id).map t.span := by
  induction n generalizing t id with
  | zero => exact (echoing_create h (t.kind id) (t.span id)).spansOf_self
  | succ n ih =>
    have hfold : ∀ (todo : List NodeId) (spans : List Span) (u : Tree), (∀ c ∈ todo, c ∈ t.children id) →
        Echoing t (t.kind id) (t.span id) spans u → Echoing t (t.kind id) (t.span id)
          (spans ++ (todo.flatMap (t.preorder n)).map t.span) (todo.foldl (fun u child =>
            (u.copyTo n child).2.adopt t.size (u.copyTo n child).1) u) := by
      intro todo
      induction todo with
      | nil => intro spans u _ hu; simpa using hu
      | cons c todo ihc =>
        intro spans u hin hu
        have hcp := h.parent_of_mem (hin c List.mem_cons_self)
        have hcr : c ≠ root := fun he => by rw [he, h.top] at hcp; cases hcp
        obtain ⟨name, as, hk⟩ := kind_of_isElement ((h.inner id c hcp).resolve_left hne)
        rw [hk] at hu ihc ⊢
        have hone := hu.copyTo h hcr (lt_size_of_parent hcp) fun v hv => ih hv hcr
        rw [List.foldl_cons, List.flatMap_cons, List.map_append, ← List.append_assoc]
        exact ihc _ _ (fun x hx => hin x (List.mem_cons_of_mem c hx)) hone
    exact (hfold (t.children id) [] _ (fun _ hc => hc) (echoing_create h (t.kind id) (t.span id))).spansOf_self

/-- The copies of some nodes have the spans of the nodes. -/
theorem spansOf_copiesIn (h : t.WellFormed) (name : String) (attributes : List (String × String)) {ids : List NodeId}
    (hin : ∀ x ∈ ids, x ≠ root ∧ x < t.size) :
    (t.copiesIn name attributes ids).2.spansOf ((t.copiesIn name attributes ids).2.children t.size) = t.spansOf ids := by
  have hfold : ∀ (todo : List NodeId) (spans : List Span) (u : Tree), (∀ c ∈ todo, c ∈ ids) →
      Echoing t (.element name attributes) .none spans u → Echoing t (.element name attributes) .none
        (spans ++ t.spansOf todo) (todo.foldl (fun u id => (u.deepCopy id).2.appendChild t.size (u.deepCopy id).1) u) := by
    intro todo
    induction todo with
    | nil => intro spans u _ hu; simpa [spansOf] using hu
    | cons c todo ih =>
      intro spans u hsub hu
      obtain ⟨hcr, hlt⟩ := hin c (hsub c List.mem_cons_self)
      obtain ⟨ws, hfill⟩ := hu.filling
      have hcopied := deepCopy_spec hfill.beyond.wellFormed hcr
      have hone := hu.copyTo h hcr hlt (n := u.size) fun v hv => spansOf_copyTo hv hcr _
      have henough : (t.below c).card ≤ u.size + 1 :=
        Nat.le_succ_of_le (Nat.le_trans (t.card_below_le c) hfill.beyond.grows)
      rw [h.preorder_enough _ henough] at hone
      rw [deepCopy] at hcopied
      rw [adopt_eq_appendChild hcopied.parent] at hone
      rw [List.foldl_cons, ← List.singleton_append, spansOf_append, ← List.append_assoc]
      refine ih _ _ (fun x hx => hsub x (List.mem_cons_of_mem c hx)) ?_
      rw [spansOf, List.flatMap_singleton]
      exact hone
  exact (hfold ids [] _ (fun _ hc => hc) (echoing_create h _ _)).spans

/-- What stands under `ids` has copies in `u`, under the names that `φ` tells. -/
structure Duplicates (t : Tree) (ids : List NodeId) (φ : NodeId → NodeId) (u : Tree) : Prop where
  kind : ∀ x, t.Under ids x → u.kind (φ x) = t.kind x
  span : ∀ x, t.Under ids x → u.span (φ x) = t.span x
  children : ∀ x, t.Under ids x → u.children (φ x) = (t.children x).map φ
  injective : ∀ x y, t.Under ids x → t.Under ids y → φ x = φ y → x = y

theorem Duplicates.renames {ids : List NodeId} {φ : NodeId → NodeId} (h : Duplicates t ids φ u) : Renames t ids φ u :=
  ⟨fun x hx => reads_of_kind (h.kind x hx), h.children, h.injective⟩

/-- Nodes under other names are of the same kinds if the ones on top look the same. -/
theorem Renames.kind_of_twigs {ids : List NodeId} {φ : NodeId → NodeId} (h : Renames t ids φ u) (ht : t.WellFormed)
    (hu : u.WellFormed) (htwigs : ids.map (u.twig ∘ φ) = ids.map t.twig) {x : NodeId} (hx : t.Under ids x) :
    u.kind (φ x) = t.kind x := by
  suffices htwig : u.twig (φ x) = t.twig x from (hu.twig_node.mp (htwig.trans (ht.twig_eq x))).1
  obtain ⟨n, hn, hw⟩ := hx
  induction hw with
  | refl => exact List.map_inj_left.mp htwigs n hn
  | @tail q x hq hx ih =>
    have hbelow := (hu.twig_node.mp (ih.trans (ht.twig_eq q))).2
    rw [h.children q ⟨n, hn, hq⟩, List.map_map] at hbelow
    exact List.map_inj_left.mp hbelow x (ht.mem_of_parent hx)

/-- Each node below the originals has its copy. -/
theorem exists_duplicates_copiesIn (h : t.WellFormed) (name : String) (attributes : List (String × String)) {ids : List NodeId}
    (hin : ∀ x ∈ ids, x ≠ root ∧ x < t.size) (hids : ids.Pairwise fun a b => ∀ x, ¬ (t.Within a x ∧ t.Within b x)) :
    ∃ φ, Duplicates t ids φ (t.copiesIn name attributes ids).2 ∧
      (t.copiesIn name attributes ids).2.children t.size = ids.map φ := by
  obtain ⟨-, hfill⟩ := copiesIn_spec h name attributes hin
  have hu := hfill.beyond.wellFormed
  obtain ⟨φ, hφ, hmap⟩ := exists_renames h hu hids (pairwise_children hu t.size) hfill.twigs
  have htwigs := hfill.twigs
  rw [← hmap, List.map_map] at htwigs
  refine ⟨φ, ⟨fun x hx => hφ.kind_of_twigs h hu htwigs hx, fun x ⟨n, hn, hnx⟩ => ?_, hφ.children, hφ.injective⟩, hmap.symm⟩
  have hspans := spansOf_copiesIn h name attributes hin
  rw [spansOf, ← hmap, hφ.flatMap_subtree h hu fun n hn => under_of_mem hn, List.map_map, spansOf] at hspans
  exact List.map_inj_left.mp hspans x (List.mem_flatMap.mpr ⟨n, hn, h.mem_subtree.mpr hnx⟩)

end Tree

end MailMerge
