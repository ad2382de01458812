/-
  MailMerge.Proofs.Tree.Copy — what a copy has in common with its original.

  The `twig` of a node is all there is to be seen from it downwards: the kinds of the nodes
  within it, and how they are nested. It says nothing about places in the store.

  Proved: a copy has the twig of its original, and making it does not touch the nodes that
  were there before (`deepCopy_spec`); nor does making copies in a new element
  (`copiesIn_spec`).
-/

import MailMerge.Proofs.Tree.Linked

namespace MailMerge

/-- A node and what is below it, without places and spans. -/
inductive Twig where
  | node (kind : Kind) (twigs : List Twig)

def Twig.kind : Twig → Kind
  | node k _ => k

namespace Tree

/-- The twig of a node down to `depth` levels below it. -/
def twigTo (t : Tree) : (depth : Nat) → NodeId → Twig
  | 0, id => .node (t.kind id) []
  | n + 1, id => .node (t.kind id) ((t.children id).map (twigTo t n))

def twig (t : Tree) (id : NodeId) : Twig := t.twigTo t.size id

theorem Linked.twigTo_enough {t : Tree} (h : t.Linked) {n m : Nat} {a : NodeId} (hn : (t.below a).card ≤ n)
    (hm : (t.below a).card ≤ m) : t.twigTo n a = t.twigTo m a := by
  induction n generalizing m a with
  | zero =>
    have hnil : t.children a = [] := by
      refine children_of_size_le (Nat.le_of_not_lt fun ha => ?_)
      have hmem : a ∈ t.below a := mem_below.mpr ⟨ha, within_refl t a⟩
      rw [Finset.card_eq_zero.mp (Nat.le_zero.mp hn)] at hmem
      cases hmem
    cases m with
    | zero => rfl
    | succ m => rw [twigTo, twigTo, hnil]; rfl
  | succ n ih =>
    cases m with
    | zero =>
      have hnil : t.children a = [] := by
        refine children_of_size_le (Nat.le_of_not_lt fun ha => ?_)
        have hmem : a ∈ t.below a := mem_below.mpr ⟨ha, within_refl t a⟩
        rw [Finset.card_eq_zero.mp (Nat.le_zero.mp hm)] at hmem
        cases hmem
      rw [twigTo, twigTo, hnil]; rfl
    | succ m =>
      rw [twigTo, twigTo]
      congr 1
      refine List.map_congr_left fun c hc => ?_
      have hlt := h.card_below_lt (h.parent_of_mem hc)
      exact ih (by omega) (by omega)

theorem card_below_le (t : Tree) (a : NodeId) : (t.below a).card ≤ t.size := by
  have hsub : t.below a ⊆ Finset.range t.size := fun d hd => Finset.mem_range.mpr (mem_below.mp hd).1
  simpa using Finset.card_le_card hsub

/-- A twig is a kind and the twigs of the children. -/
theorem Linked.twig_eq {t : Tree} (h : t.Linked) (a : NodeId) : t.twig a = .node (t.kind a) ((t.children a).map t.twig) := by
  have hmore : t.twig a = t.twigTo (t.size + 1) a :=
    h.twigTo_enough (t.card_below_le a) (Nat.le_succ_of_le (t.card_below_le a))
  rw [hmore, twigTo]
  rfl

theorem WellFormed.twig_eq {t : Tree} (h : t.WellFormed) (a : NodeId) : t.twig a = .node (t.kind a) ((t.children a).map t.twig) :=
  h.isLinked.twig_eq a

/-- What is the same from a node downwards looks the same from there. -/
theorem twigTo_congr {t u : Tree} (h : t.WellFormed) {a : NodeId}
    (hs : ∀ d, t.Within a d → u.kind d = t.kind d ∧ u.children d = t.children d) (n : Nat) : u.twigTo n a = t.twigTo n a := by
  induction n generalizing a with
  | zero => rw [twigTo, twigTo, (hs a (within_refl t a)).1]
  | succ n ih =>
    obtain ⟨hk, hc⟩ := hs a (within_refl t a)
    rw [twigTo, twigTo, hk, hc]
    congr 1
    refine List.map_congr_left fun c hc => ih fun d hd => hs d ?_
    exact within_trans (within_of_parent (h.parent_of_mem hc)) hd

theorem twig_congr {t u : Tree} (h : t.WellFormed) (hu : u.WellFormed) {a : NodeId}
    (hs : ∀ d, t.Within a d → u.kind d = t.kind d ∧ u.children d = t.children d) : u.twig a = t.twig a := by
  induction a using h.below_induction with
  | step a ih =>
    obtain ⟨hk, hc⟩ := hs a (within_refl t a)
    rw [hu.twig_eq, h.twig_eq, hk, hc]
    congr 1
    refine List.map_congr_left fun c hc => ih c hc fun d hd => hs d ?_
    exact within_trans (within_of_parent (h.parent_of_mem hc)) hd

theorem adopt_eq (t : Tree) (p x : NodeId) : t.adopt p x = t.attach (· ++ [x]) p x := rfl

theorem adopt_eq_appendChild {t : Tree} {p x : NodeId} (hx : t.parent x = none) : t.adopt p x = t.appendChild p x := by
  rw [appendChild_eq, move, detach_of_parent_none hx]; rfl

/-! ## Copies -/

/-- A copy made in `u` of something with the twig `w` in `t`. -/
structure Copied (t : Tree) (w : Twig) (copy : NodeId) (u : Tree) : Prop where
  fst : copy = t.size
  lt_size : t.size < u.size
  beyond : Beyond t.size t u
  parent : u.parent copy = none
  twig : u.twig copy = w

/-- A new node of kind `k` with copies below it that have the twigs `ws`. -/
structure Filling (t : Tree) (k : Kind) (ws : List Twig) (u : Tree) : Prop where
  beyond : Beyond t.size t u
  lt_size : t.size < u.size
  parent : u.parent t.size = none
  kind : u.kind t.size = k
  twigs : (u.children t.size).map u.twig = ws

theorem filling_create {t : Tree} (h : t.WellFormed) (k : Kind) (s : Span) : Filling t k [] (t.create k s).2 := by
  refine ⟨(fenced_size h).create k s, by rw [size_create]; exact Nat.lt_succ_self _, ?_, by rw [kind_create, if_pos rfl], ?_⟩
  · rw [parent_create]; exact parent_of_size_le (Nat.le_refl _)
  · rw [children_create, children_of_size_le (Nat.le_refl _)]; rfl

/-- What was there before looks the same. -/
theorem Filling.twigTo_eq {t : Tree} (h : t.WellFormed) {k : Kind} {ws : List Twig} {u : Tree} (hu : Filling t k ws u)
    {id : NodeId} (hlt : id < t.size) (n : Nat) : u.twigTo n id = t.twigTo n id := by
  refine twigTo_congr h (fun d hd => ?_) n
  have hdlt : d < t.size := by
    by_cases he : d = id
    · exact he ▸ hlt
    · exact lt_size_of_within hd he
  exact ⟨hu.beyond.kind_eq hdlt, hu.beyond.children_eq hdlt⟩

theorem Filling.twig_eq {t : Tree} (h : t.WellFormed) {k : Kind} {ws : List Twig} {u : Tree} (hu : Filling t k ws u)
    {id : NodeId} (hlt : id < t.size) : u.twig id = t.twig id := by
  refine twig_congr h hu.beyond.wellFormed fun d hd => ?_
  have hdlt : d < t.size := by
    by_cases he : d = id
    · exact he ▸ hlt
    · exact lt_size_of_within hd he
  exact ⟨hu.beyond.kind_eq hdlt, hu.beyond.children_eq hdlt⟩

theorem Filling.step {t : Tree} {name : String} {as : List (String × String)} {ws : List Twig} {u : Tree}
    (hu : Filling t (.element name as) ws u) {w : Twig} {cc : NodeId} {v : Tree} (hv : Copied u w cc v) :
    Filling t (.element name as) (ws ++ [w]) (v.adopt t.size cc) := by
  have hparent := hv.parent
  have hcc : cc = u.size := hv.fst
  have hcsize : t.size < v.size := Nat.lt_trans hu.lt_size hv.lt_size
  have hcne : t.size ≠ cc := by rw [hcc]; exact Nat.ne_of_lt hu.lt_size
  have hkindv : v.kind t.size = .element name as := (hv.beyond.kind_eq hu.lt_size).trans hu.kind
  -- the new node stands before the fence that everything in the copy is behind
  have hapart : ¬ v.Within cc t.size := fun hw =>
    Nat.not_lt_of_le (hv.beyond.zone.within (Nat.le_of_eq hcc.symm) hw) hu.lt_size
  have hattach : Attachable (· ++ [cc]) v t.size cc :=
    { parent := hparent, ne_root := by rw [hcc]; exact Nat.ne_of_gt hu.beyond.wellFormed.rooted,
      lt_size := by rw [hcc]; exact hv.lt_size, below := hcsize,
      inner := Or.inr (by rw [isElement, name?, hkindv]; rfl),
      apart := hapart, adds := adds_append cc _ }
  have hvt : Beyond t.size u v := hv.beyond.of_le hu.beyond.zone (Nat.le_of_lt hu.lt_size)
  have hwf : (v.adopt t.size cc).WellFormed := hv.beyond.wellFormed.attach hattach
  have hchildren : ∀ q, (v.adopt t.size cc).children q = if q = t.size then v.children t.size ++ [cc] else v.children q :=
    children_attach _ hcsize cc
  have hkinds : ∀ q, (v.adopt t.size cc).kind q = v.kind q := kind_attach _ v t.size cc
  refine ⟨?_, ?_, ?_, ?_, ?_⟩
  · refine (hu.beyond.trans hvt).trans ?_
    rw [adopt_eq_appendChild hparent]
    exact hvt.zone.appendChild (Nat.le_refl _) (by rw [hcc]; exact Nat.le_of_lt hu.lt_size)
      ⟨hattach.ne_root, hattach.lt_size, hattach.below, hattach.inner, hapart⟩
  · rw [adopt_eq, size_attach]; exact hcsize
  · rw [adopt_eq, parent_attach _ hattach.lt_size, if_neg hcne, hv.beyond.parent_eq hu.lt_size, hu.parent]
  · rw [hkinds, hkindv]
  · rw [hchildren, if_pos rfl, hv.beyond.children_eq hu.lt_size, List.map_append, ← hu.twigs]
    congr 1
    · refine List.map_congr_left fun x hx => twig_congr hu.beyond.wellFormed hwf fun d hd => ?_
      have hxp := hu.beyond.wellFormed.parent_of_mem hx
      have hdne : d ≠ t.size := fun he => hu.beyond.wellFormed.not_within_of_parent hxp (he ▸ hd)
      have hdlt : d < u.size := by
        by_cases he : d = x
        · exact he ▸ lt_size_of_parent hxp
        · exact lt_size_of_within hd he
      rw [hkinds, hchildren, if_neg hdne]
      exact ⟨hv.beyond.kind_eq hdlt, hv.beyond.children_eq hdlt⟩
    · have hself : (v.adopt t.size cc).twig cc = v.twig cc := twig_congr hv.beyond.wellFormed hwf fun d hd => by
        have hdne : d ≠ t.size := fun he => hapart (he ▸ hd)
        rw [hkinds, hchildren, if_neg hdne]
        exact ⟨rfl, rfl⟩
      rw [List.map_singleton, hself, hv.twig]

theorem copyTo_spec {t : Tree} (h : t.WellFormed) {id : NodeId} (hne : id ≠ root) (n : Nat) :
    Copied t (t.twigTo n id) (copyTo n t id).1 (copyTo n t id).2 := by
  induction n generalizing t id with
  | zero =>
    have hone := filling_create h (t.kind id) (t.span id)
    have heq := hone.beyond.wellFormed.twig_eq t.size
    rw [hone.twigs, hone.kind] at heq
    exact ⟨rfl, hone.lt_size, hone.beyond, hone.parent, heq⟩
  | succ n ih =>
    -- the invariant of the fold over the children
    have hfold : ∀ (todo : List NodeId) (ws : List Twig) (u : Tree), (∀ c ∈ todo, c ∈ t.children id) →
        Filling t (t.kind id) ws u → Filling t (t.kind id) (ws ++ todo.map (t.twigTo n)) (todo.foldl (fun u child =>
          (copyTo n u child).2.adopt t.size (copyTo n u child).1) u) := by
      intro todo
      induction todo with
      | nil => intro ws u _ hu; simpa using hu
      | cons c todo ihc =>
        intro ws u hin hu
        have hcp := h.parent_of_mem (hin c List.mem_cons_self)
        have hcr : c ≠ root := fun he => by rw [he, h.top] at hcp; cases hcp
        have hel : t.isElement id = true := (h.inner id c hcp).resolve_left hne
        obtain ⟨name, as, hk⟩ := kind_of_isElement hel
        have hcopy := ih hu.beyond.wellFormed hcr
        rw [hu.twigTo_eq h (lt_size_of_parent hcp)] at hcopy
        rw [hk] at hu
        have hone := hu.step hcopy
        rw [← hk] at hone
        rw [List.foldl_cons, List.map_cons, ← List.singleton_append, ← List.append_assoc]
        exact ihc (ws ++ [t.twigTo n c]) _ (fun x hx => hin x (List.mem_cons_of_mem c hx)) hone
    have hall := hfold (t.children id) [] _ (fun _ hc => hc) (filling_create h (t.kind id) (t.span id))
    have heq := hall.beyond.wellFormed.twig_eq t.size
    rw [hall.twigs, hall.kind] at heq
    exact ⟨rfl, hall.lt_size, hall.beyond, hall.parent, heq⟩

/-- A copy looks like its original, stands nowhere yet, and leaves all else as it was. -/
theorem deepCopy_spec {t : Tree} (h : t.WellFormed) {id : NodeId} (hne : id ≠ root) :
    Copied t (t.twig id) (t.deepCopy id).1 (t.deepCopy id).2 := copyTo_spec h hne t.size

/-- A copy may be put below any node that was there before and may have children. -/
theorem Copied.movable {t u : Tree} {w : Twig} {copy p : NodeId} (hcopy : Copied t w copy u) (h : t.WellFormed) (hp : Hosts t p) :
    Movable u p copy := by
  have hhosts := (hcopy.beyond.edited (fenced_zero h) fun _ _ => Nat.zero_le _).hosts hp
  refine ⟨by rw [hcopy.fst]; exact Nat.ne_of_gt h.rooted, by rw [hcopy.fst]; exact hcopy.lt_size, hhosts.lt_size, hhosts.inner, fun hw => ?_⟩
  exact Nat.not_lt_of_le (hcopy.beyond.zone.within (Nat.le_of_eq hcopy.fst.symm) hw) hp.lt_size

/-! ## Copies in a row -/

/-- Copies of some nodes, in order, as the children of a new element. -/
def copiesIn (t : Tree) (name : String) (attributes : List (String × String)) (ids : List NodeId) : NodeId × Tree :=
  let (element, t) := t.create (.element name attributes) .none
  (element, ids.foldl (fun t id =>
    let (copy, t) := t.deepCopy id
    t.appendChild element copy) t)

/-- The copies stand in a new node, look like their originals, and nothing else is touched. -/
theorem copiesIn_spec {t : Tree} (h : t.WellFormed) (name : String) (attributes : List (String × String)) {ids : List NodeId}
    (hin : ∀ x ∈ ids, x ≠ root ∧ x < t.size) : (t.copiesIn name attributes ids).1 = t.size ∧
      Filling t (.element name attributes) (ids.map t.twig) (t.copiesIn name attributes ids).2 := by
  refine ⟨rfl, ?_⟩
  have hfold : ∀ (todo : List NodeId) (ws : List Twig) (u : Tree), (∀ c ∈ todo, c ∈ ids) →
      Filling t (.element name attributes) ws u →
      Filling t (.element name attributes) (ws ++ todo.map t.twig) (todo.foldl (fun u id =>
        (u.deepCopy id).2.appendChild t.size (u.deepCopy id).1) u) := by
    intro todo
    induction todo with
    | nil => intro ws u _ hu; simpa using hu
    | cons c todo ih =>
      intro ws u hsub hu
      obtain ⟨hne, hlt⟩ := hin c (hsub c List.mem_cons_self)
      have hcopy := deepCopy_spec hu.beyond.wellFormed hne
      have hone := hu.step hcopy
      rw [adopt_eq_appendChild hcopy.parent, hu.twig_eq h hlt] at hone
      rw [List.foldl_cons, List.map_cons, ← List.singleton_append, ← List.append_assoc]
      exact ih (ws ++ [t.twig c]) _ (fun x hx => hsub x (List.mem_cons_of_mem c hx)) hone
  exact hfold ids [] _ (fun _ hc => hc) (filling_create h _ _)

end Tree

end MailMerge
