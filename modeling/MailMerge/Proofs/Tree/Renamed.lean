/-
  MailMerge.Proofs.Tree.Renamed — the same nodes under other names.

  A copy has the nodes of its original under other names, and so has a copy of a copy. Where
  nothing has been done below a node the names are even the same. What a scan reads of a node
  is its name and its attributes, but not those of the elements of pictures, which are set
  while a part is merged (`Reads`). So what a scan finds below some nodes is told by what it
  finds where they have other names (`Renames`).

  Proved: nodes that look the same are the same under other names (`exists_renames`); walks
  down go the same way (`Renames.subtree`), and so do walks to later siblings and to ancestors
  as long as they stay below the renamed nodes (`Renames.laterElements`, `Renames.findAncestor?`).
-/

import MailMerge.Proofs.Tree.Twigs

namespace MailMerge.Tree

/-- The node is one of `ids`, or stands below one of them. -/
def Under (t : Tree) (ids : List NodeId) (x : NodeId) : Prop := ∃ n ∈ ids, t.Within n x

/-- The node `y` of `u` is read as the node `x` of `t` is. -/
structure Reads (t : Tree) (x : NodeId) (u : Tree) (y : NodeId) : Prop where
  name : u.name? y = t.name? x
  kind : t.isNamed Word.pictureProperties x = false → t.isNamed Word.blip x = false → u.kind y = t.kind x

/-- What stands under `ids` stands in `u` in the same way, under the names that `φ` tells. -/
structure Renames (t : Tree) (ids : List NodeId) (φ : NodeId → NodeId) (u : Tree) : Prop where
  reads : ∀ x, t.Under ids x → t.Reads x u (φ x)
  children : ∀ x, t.Under ids x → u.children (φ x) = (t.children x).map φ
  injective : ∀ x y, t.Under ids x → t.Under ids y → φ x = φ y → x = y

variable {t u v : Tree} {ids : List NodeId} {φ : NodeId → NodeId}

theorem under_of_mem {n : NodeId} (hn : n ∈ ids) : t.Under ids n := ⟨n, hn, within_refl t n⟩

theorem Under.trans {x y : NodeId} (h : t.Under ids x) (hxy : t.Within x y) : t.Under ids y := by
  obtain ⟨n, hn, hw⟩ := h
  exact ⟨n, hn, within_trans hw hxy⟩

theorem Under.of_child (ht : t.WellFormed) {x y : NodeId} (h : t.Under ids x) (hy : y ∈ t.children x) : t.Under ids y :=
  h.trans (within_of_parent (ht.parent_of_mem hy))

theorem Under.of_mem_subtree (ht : t.WellFormed) {x y : NodeId} (h : t.Under ids x) (hy : y ∈ t.subtree x) : t.Under ids y :=
  h.trans (ht.mem_subtree.mp hy)

/-! ## What is read -/

theorem Reads.isNamed {x y : NodeId} (h : t.Reads x u y) (name : String) : u.isNamed name y = t.isNamed name x := by
  rw [Tree.isNamed, Tree.isNamed, h.name]

theorem Reads.isElement {x y : NodeId} (h : t.Reads x u y) : u.isElement y = t.isElement x := by
  rw [Tree.isElement, Tree.isElement, h.name]

theorem Reads.kind_of_isNamed {x y : NodeId} (h : t.Reads x u y) {name : String} (hn : t.isNamed name x = true)
    (hp : name ≠ Word.pictureProperties) (hb : name ≠ Word.blip) : u.kind y = t.kind x :=
  h.kind (not_isNamed_of_isNamed hn hp) (not_isNamed_of_isNamed hn hb)

theorem Reads.isMarker {x y : NodeId} (h : t.Reads x u y) (type : MarkerType) : u.isMarker type y = t.isMarker type x := by
  rw [Tree.isMarker, Tree.isMarker, h.isNamed]
  cases hn : t.isNamed Word.fieldChar x with
  | false => rfl
  | true => rw [Tree.attribute?, Tree.attribute?, h.kind_of_isNamed hn (by decide) (by decide)]

theorem Reads.opensField {x y : NodeId} (h : t.Reads x u y) : u.opensField y = t.opensField x := by
  rw [Tree.opensField, Tree.opensField, h.isNamed, h.isMarker]

theorem Reads.ownText {x y : NodeId} (h : t.Reads x u y) : u.ownText y = t.ownText x := by
  by_cases hel : t.isElement x = true
  · have hel' : u.isElement y = true := h.isElement.trans hel
    obtain ⟨name, as, hk⟩ := kind_of_isElement hel
    obtain ⟨name', as', hk'⟩ := kind_of_isElement hel'
    rw [Tree.ownText, Tree.ownText, hk, hk']
  · have hno : ∀ name, t.isNamed name x = false := fun name => by
      rw [Bool.eq_false_iff]
      exact fun hn => hel (isElement_of_isNamed hn)
    rw [Tree.ownText, Tree.ownText, h.kind (hno _) (hno _)]

theorem Reads.trans {x y z : NodeId} (h : t.Reads x u y) (h' : u.Reads y v z) : t.Reads x v z where
  name := h'.name.trans h.name
  kind hp hb := (h'.kind ((h.isNamed _).trans hp) ((h.isNamed _).trans hb)).trans (h.kind hp hb)

namespace Renames

theorem mono (h : Renames t ids φ u) {some : List NodeId} (hs : ∀ n ∈ some, t.Under ids n) : Renames t some φ u := by
  have hin : ∀ {x}, t.Under some x → t.Under ids x := fun ⟨n, hn, hw⟩ => (hs n hn).trans hw
  exact ⟨fun x hx => h.reads x (hin hx), fun x hx => h.children x (hin hx), fun x y hx hy => h.injective x y (hin hx) (hin hy)⟩

section walks

variable (h : Renames t ids φ u) (ht : t.WellFormed) (hu : u.WellFormed)

include h ht hu

theorem parent {x y : NodeId} (hx : t.Under ids x) (hy : t.parent y = some x) : u.parent (φ y) = some (φ x) :=
  hu.parent_of_mem (by rw [h.children x hx]; exact List.mem_map_of_mem (ht.mem_of_parent hy))

theorem within_of {x y : NodeId} (hx : t.Under ids x) (hw : t.Within x y) : u.Within (φ x) (φ y) := by
  induction hw with
  | refl => exact within_refl u _
  | @tail q y hq hy ih => exact within_parent ih (h.parent ht hu (hx.trans hq) hy)

/-- All that stands below a renamed node is renamed. -/
theorem exists_of_within {x z : NodeId} (hx : t.Under ids x) (hw : u.Within (φ x) z) : ∃ y, t.Within x y ∧ φ y = z := by
  induction hw with
  | refl => exact ⟨x, within_refl t x, rfl⟩
  | @tail q z _ hz ih =>
    obtain ⟨y, hxy, rfl⟩ := ih
    have hmem := hu.mem_of_parent hz
    rw [h.children y (hx.trans hxy)] at hmem
    obtain ⟨c, hc, rfl⟩ := List.mem_map.mp hmem
    exact ⟨c, within_parent hxy (ht.parent_of_mem hc), rfl⟩

theorem within_iff {x y : NodeId} (hx : t.Under ids x) (hy : t.Under ids y) : u.Within (φ x) (φ y) ↔ t.Within x y := by
  refine ⟨fun hw => ?_, h.within_of ht hu hx⟩
  obtain ⟨y', hxy, he⟩ := h.exists_of_within ht hu hx hw
  exact h.injective y' y (hx.trans hxy) hy he ▸ hxy

theorem subtree {x : NodeId} (hx : t.Under ids x) : u.subtree (φ x) = (t.subtree x).map φ := by
  induction x using ht.below_induction with
  | step x ih =>
    rw [hu.subtree_eq, ht.subtree_eq, h.children x hx, List.map_cons, List.map_flatMap, List.flatMap_map]
    refine congrArg _ (List.flatMap_congr fun c hc => ih c hc (hx.of_child ht hc))

theorem flatMap_subtree {some : List NodeId} (hs : ∀ n ∈ some, t.Under ids n) :
    (some.map φ).flatMap u.subtree = (some.flatMap t.subtree).map φ := by
  rw [List.flatMap_map, List.map_flatMap]
  exact List.flatMap_congr fun n hn => h.subtree ht hu (hs n hn)

theorem holdsMarker {x : NodeId} (hx : t.Under ids x) (type : MarkerType) : u.holdsMarker type (φ x) = t.holdsMarker type x := by
  rw [Tree.holdsMarker, Tree.holdsMarker, h.subtree ht hu hx, List.any_map, Bool.eq_iff_iff, List.any_eq_true, List.any_eq_true]
  refine exists_congr fun y => and_congr_right fun hy => ?_
  rw [Function.comp_apply, (h.reads y (hx.of_mem_subtree ht hy)).isMarker]

theorem textContent {x : NodeId} (hx : t.Under ids x) : u.textContent (φ x) = t.textContent x := by
  rw [Tree.textContent, Tree.textContent, h.subtree ht hu hx, List.map_map]
  exact congrArg _ (List.map_congr_left fun y hy => (h.reads y (hx.of_mem_subtree ht hy)).ownText)

theorem instructionText {some : List NodeId} (hs : ∀ n ∈ some, t.Under ids n) :
    Field.instructionText u (some.map φ) = Field.instructionText t some := by
  have hin : ∀ y ∈ some.flatMap t.subtree, t.Under ids y := fun y hy => by
    obtain ⟨n, hn, hy⟩ := List.mem_flatMap.mp hy
    exact (hs n hn).of_mem_subtree ht hy
  rw [Field.instructionText, Field.instructionText, h.flatMap_subtree ht hu hs, List.filter_map, List.map_map]
  have hfilter : (some.flatMap t.subtree).filter (u.isNamed Word.instructionText ∘ φ) =
      (some.flatMap t.subtree).filter (t.isNamed Word.instructionText) :=
    List.filter_congr fun y hy => (h.reads y (hin y hy)).isNamed _
  rw [hfilter]
  exact congrArg _ (List.map_congr_left fun y hy => h.textContent ht hu (hin y (List.mem_filter.mp hy).1))

/-- The later siblings are the same where the parent is renamed. -/
theorem laterElements {p x : NodeId} (hp : t.Under ids p) (hx : t.parent x = some p) :
    u.laterElements (φ x) = (t.laterElements x).map φ := by
  obtain ⟨before, after, hs⟩ := List.append_of_mem (ht.mem_of_parent hx)
  have hs' : u.children (φ p) = before.map φ ++ φ x :: after.map φ := by rw [h.children p hp, hs]; simp
  rw [hu.laterElements_eq hs', ht.laterElements_eq hs, List.filter_map]
  refine congrArg _ (List.filter_congr fun y hy => (h.reads y ?_).isElement)
  exact hp.of_child ht (by rw [hs]; simp [hy])

/-- The nearest ancestor is the same as long as it is renamed itself. -/
theorem findAncestor? {name : String} {n x : NodeId} (hn : n ∈ ids) (hx : t.Within n x)
    (htop : u.findAncestor? (φ n) name = none) {a : NodeId} :
    u.findAncestor? (φ x) name = some a ↔ ∃ b, φ b = a ∧ t.Within n b ∧ t.findAncestor? x name = some b := by
  have hun := under_of_mem (t := t) hn
  induction hx with
  | refl =>
    rw [htop]
    constructor
    · rintro ⟨⟩
    · rintro ⟨b, rfl, hb, hfind⟩
      obtain ⟨-, hw, hne, -⟩ := ht.findAncestor?_eq_some hfind
      exact absurd (ht.within_antisymm hw hb) hne
  | @tail q x hq hxq ih =>
    rw [hu.findAncestor?_of_parent (h.parent ht hu (hun.trans hq) hxq), ht.findAncestor?_of_parent hxq,
      (h.reads q (hun.trans hq)).isNamed]
    split
    · constructor
      · rintro ⟨⟩; exact ⟨q, rfl, hq, rfl⟩
      · rintro ⟨b, rfl, -, ⟨⟩⟩; rfl
    · exact ih

end walks

/-- Where nothing is below two of the nodes, nothing is below two of them under other names. -/
theorem pairwise (h : Renames t ids φ u) (ht : t.WellFormed) (hu : u.WellFormed)
    (hids : ids.Pairwise fun a b => ∀ x, ¬ (t.Within a x ∧ t.Within b x)) :
    (ids.map φ).Pairwise fun a b => ∀ x, ¬ (u.Within a x ∧ u.Within b x) := by
  refine List.pairwise_map.mpr (hids.imp_of_mem fun {a b} ha hb hno x hx => ?_)
  obtain ⟨y, hay, rfl⟩ := h.exists_of_within ht hu (under_of_mem ha) hx.1
  obtain ⟨z, hbz, he⟩ := h.exists_of_within ht hu (under_of_mem hb) hx.2
  obtain rfl := h.injective z y ⟨b, hb, hbz⟩ ⟨a, ha, hay⟩ he
  exact hno z ⟨hay, hbz⟩

theorem trans (h : Renames t ids φ u) (ht : t.WellFormed) (hu : u.WellFormed) {ψ : NodeId → NodeId}
    (h' : Renames u (ids.map φ) ψ v) : Renames t ids (ψ ∘ φ) v := by
  have hin : ∀ {x}, t.Under ids x → u.Under (ids.map φ) (φ x) := fun ⟨n, hn, hw⟩ =>
    ⟨φ n, List.mem_map_of_mem hn, h.within_of ht hu (under_of_mem hn) hw⟩
  refine ⟨fun x hx => (h.reads x hx).trans (h'.reads _ (hin hx)), fun x hx => ?_, fun x y hx hy he => ?_⟩
  · rw [Function.comp_apply, h'.children _ (hin hx), h.children x hx, List.map_map]
  · exact h.injective x y hx hy (h'.injective _ _ (hin hx) (hin hy) he)

end Renames

/-! ## Nodes that look the same -/

section looks

variable (ht : t.WellFormed) (hu : u.WellFormed)

include ht hu

open Classical in
/-- Names for what stands below some nodes, and names for what stands below another one. -/
theorem Renames.cons {a : NodeId} {φ' : NodeId → NodeId} (h : Renames t [a] φ u) (h' : Renames t ids φ' u)
    (hids : ∀ b ∈ ids, ∀ x, ¬ (t.Within a x ∧ t.Within b x)) (hds : ∀ b ∈ ids, ∀ x, ¬ (u.Within (φ a) x ∧ u.Within (φ' b) x)) :
    ∃ ψ, Renames t (a :: ids) ψ u ∧ ψ a = φ a ∧ ids.map ψ = ids.map φ' := by
  have hone : ∀ {x}, t.Within a x → t.Under [a] x := fun hw => ⟨a, List.mem_singleton_self a, hw⟩
  have hout : ∀ {x}, t.Under ids x → ¬ t.Within a x := fun ⟨b, hb, hbx⟩ hax => hids b hb _ ⟨hax, hbx⟩
  have hcases : ∀ {x}, t.Under (a :: ids) x → t.Within a x ∨ t.Under ids x := by
    rintro x ⟨b, hb, hbx⟩
    rcases List.mem_cons.mp hb with rfl | hb
    · exact Or.inl hbx
    · exact Or.inr ⟨b, hb, hbx⟩
  let ψ : NodeId → NodeId := fun x => if t.Within a x then φ x else φ' x
  have hin : ∀ {x}, t.Within a x → ψ x = φ x := fun hw => if_pos hw
  have hrest : ∀ {x}, t.Under ids x → ψ x = φ' x := fun hx => if_neg (hout hx)
  have hapart : ∀ {x y}, t.Within a x → t.Under ids y → φ x ≠ φ' y := by
    rintro x y hx ⟨b, hb, hby⟩ he
    have hright := h'.within_of ht hu (under_of_mem hb) hby
    rw [← he] at hright
    exact hds b hb _ ⟨h.within_of ht hu (hone (within_refl t a)) hx, hright⟩
  refine ⟨ψ, ⟨fun x hx => ?_, fun x hx => ?_, fun x y hx hy he => ?_⟩, hin (within_refl t a), List.map_congr_left fun b hb =>
    hrest (under_of_mem hb)⟩
  · rcases hcases hx with hx | hx
    · rw [hin hx]; exact h.reads x (hone hx)
    · rw [hrest hx]; exact h'.reads x hx
  · rcases hcases hx with hx | hx
    · rw [hin hx, h.children x (hone hx)]
      exact List.map_congr_left fun c hc => (hin (within_parent hx (ht.parent_of_mem hc))).symm
    · rw [hrest hx, h'.children x hx]
      exact List.map_congr_left fun c hc => (hrest (hx.of_child ht hc)).symm
  · rcases hcases hx with hx | hx <;> rcases hcases hy with hy | hy
    · rw [hin hx, hin hy] at he
      exact h.injective x y (hone hx) (hone hy) he
    · rw [hin hx, hrest hy] at he
      exact absurd he (hapart hx hy)
    · rw [hrest hx, hin hy] at he
      exact absurd he.symm (hapart hy hx)
    · rw [hrest hx, hrest hy] at he
      exact h'.injective x y hx hy he

theorem exists_renames_of_each {ids ds : List NodeId} (hids : ids.Pairwise fun a b => ∀ x, ¬ (t.Within a x ∧ t.Within b x))
    (hds : ds.Pairwise fun a b => ∀ x, ¬ (u.Within a x ∧ u.Within b x)) (htwigs : ds.map u.twig = ids.map t.twig)
    (heach : ∀ a ∈ ids, ∀ d, u.twig d = t.twig a → ∃ φ, Renames t [a] φ u ∧ φ a = d) :
    ∃ φ, Renames t ids φ u ∧ ids.map φ = ds := by
  induction ids generalizing ds with
  | nil =>
    obtain rfl := List.map_eq_nil_iff.mp htwigs
    have hnone : ∀ {x}, ¬ t.Under [] x := fun ⟨_, hn, _⟩ => nomatch hn
    exact ⟨id, ⟨fun _ hx => (hnone hx).elim, fun _ hx => (hnone hx).elim, fun _ _ hx => (hnone hx).elim⟩, rfl⟩
  | cons a ids ih =>
    rw [List.map_cons, List.map_eq_cons_iff] at htwigs
    obtain ⟨d, rest, rfl, hd, hrest⟩ := htwigs
    obtain ⟨hda, hids⟩ := List.pairwise_cons.mp hids
    obtain ⟨hdd, hpair⟩ := List.pairwise_cons.mp hds
    obtain ⟨φ, hφ, rfl⟩ := heach a List.mem_cons_self d hd
    obtain ⟨φ', hφ', rfl⟩ := ih hids hpair hrest fun b hb => heach b (List.mem_cons_of_mem a hb)
    obtain ⟨ψ, hψ, ha, hmap⟩ := hφ.cons ht hu hφ' hda fun b hb => hdd (φ' b) (List.mem_map_of_mem hb)
    exact ⟨ψ, hψ, by rw [List.map_cons, ha, hmap]⟩

omit hu in
/-- Nothing stands below two children of one node. -/
theorem pairwise_children (p : NodeId) : (t.children p).Pairwise fun a b => ∀ x, ¬ (t.Within a x ∧ t.Within b x) := by
  refine (ht.distinct p).imp_of_mem fun {a b} ha hb hne x hx => hne ?_
  have hp := ht.parent_of_mem ha
  exact ht.eq_of_within_siblings (hp.trans (ht.parent_of_mem hb).symm) hx.1 hx.2 (by rw [hp]; simp)

omit hu in
/-- Nothing stands below two siblings of one row. -/
theorem pairwise_row {s : NodeId} {rest : List NodeId} (hrow : t.laterElements s = ids ++ rest) :
    ids.Pairwise fun a b => ∀ x, ¬ (t.Within a x ∧ t.Within b x) := by
  have hnd := ht.nodup_laterElements s
  rw [hrow] at hnd
  refine (List.nodup_append.mp hnd).1.imp_of_mem fun {a b} ha hb hne x hx => hne ?_
  have hside : ∀ {y}, y ∈ ids → t.parent y = t.parent s ∧ t.parent s ≠ none := fun hy =>
    have hy := ht.mem_laterElements (by rw [hrow]; exact List.mem_append_left rest hy)
    ⟨hy.1, hy.2.1⟩
  exact ht.eq_of_within_siblings ((hside ha).1.trans (hside hb).1.symm) hx.1 hx.2 ((hside ha).1.symm ▸ (hside ha).2)

open Classical in
theorem exists_renames_one (x : NodeId) {y : NodeId} (h : u.twig y = t.twig x) : ∃ φ, Renames t [x] φ u ∧ φ x = y := by
  induction x using ht.below_induction generalizing y with
  | step x ih =>
    rw [ht.twig_eq] at h
    obtain ⟨hkind, htwigs⟩ := hu.twig_node.mp h
    obtain ⟨φ, hφ, hmap⟩ := exists_renames_of_each ht hu (pairwise_children ht x) (pairwise_children hu y) htwigs fun c hc d hd =>
      ih c hc hd
    have hbelow : ∀ {z}, t.Under [x] z → z ≠ x → t.Under (t.children x) z := by
      rintro z ⟨n, hn, hw⟩ hne
      rw [List.mem_singleton.mp hn] at hw
      obtain ⟨c, hc, hcz⟩ := exists_child_of_within hw hne
      exact ⟨c, ht.mem_of_parent hc, hcz⟩
    have hne : ∀ {z}, t.Under (t.children x) z → z ≠ x := by
      rintro z ⟨c, hc, hw⟩ rfl
      exact ht.not_within_of_parent (ht.parent_of_mem hc) hw
    have hney : ∀ {z}, t.Under (t.children x) z → φ z ≠ y := by
      rintro z ⟨c, hc, hw⟩ he
      have hcy : φ c ∈ u.children y := by rw [← hmap]; exact List.mem_map_of_mem hc
      have hwy := hφ.within_of ht hu (under_of_mem hc) hw
      rw [he] at hwy
      exact hu.not_within_of_parent (hu.parent_of_mem hcy) hwy
    let ψ : NodeId → NodeId := fun z => if z = x then y else φ z
    have htop : ψ x = y := if_pos rfl
    have hrest : ∀ {z}, t.Under (t.children x) z → ψ z = φ z := fun hz => if_neg (hne hz)
    refine ⟨ψ, ⟨fun z hz => ?_, fun z hz => ?_, fun z z' hz hz' he => ?_⟩, htop⟩
    · by_cases hzx : z = x
      · subst hzx
        rw [htop]
        exact ⟨name?_congr hkind, fun _ _ => hkind⟩
      · rw [hrest (hbelow hz hzx)]; exact hφ.reads z (hbelow hz hzx)
    · by_cases hzx : z = x
      · subst hzx
        rw [htop, ← hmap]
        exact List.map_congr_left fun c hc => (hrest (under_of_mem hc)).symm
      · rw [hrest (hbelow hz hzx), hφ.children z (hbelow hz hzx)]
        exact List.map_congr_left fun c hc => (hrest ((hbelow hz hzx).of_child ht hc)).symm
    · by_cases hzx : z = x <;> by_cases hzx' : z' = x
      · exact hzx.trans hzx'.symm
      · rw [hzx, htop, hrest (hbelow hz' hzx')] at he
        exact absurd he.symm (hney (hbelow hz' hzx'))
      · rw [hzx', htop, hrest (hbelow hz hzx)] at he
        exact absurd he (hney (hbelow hz hzx))
      · rw [hrest (hbelow hz hzx), hrest (hbelow hz' hzx')] at he
        exact hφ.injective z z' (hbelow hz hzx) (hbelow hz' hzx') he

/-- Nodes that look the same are the same under other names. -/
theorem exists_renames {ids ds : List NodeId} (hids : ids.Pairwise fun a b => ∀ x, ¬ (t.Within a x ∧ t.Within b x))
    (hds : ds.Pairwise fun a b => ∀ x, ¬ (u.Within a x ∧ u.Within b x)) (htwigs : ds.map u.twig = ids.map t.twig) :
    ∃ φ, Renames t ids φ u ∧ ids.map φ = ds :=
  exists_renames_of_each ht hu hids hds htwigs fun a _ _ hd => exists_renames_one ht hu a hd

end looks

end MailMerge.Tree
