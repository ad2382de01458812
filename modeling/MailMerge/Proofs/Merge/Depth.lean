/-
  MailMerge.Proofs.Merge.Depth — how deep a merge goes.

  A merge below a node hands copies of bodies to merges one level deeper. What earlier
  statements have made of a body by then carries no new field, so each marker in the copy is
  the copy of a marker that the enclosing scan met in the body; and the marker of the
  block's own start is not among them. Every level therefore has fewer markers than the one
  above it. Nothing but a level without a statement to carry out ends the descent, and what
  a merge with that many levels does is what it does with any more.

  Proved: the copy of a body has fewer markers than what was scanned
  (`Hands.fewer_markers`), so with more levels than markers none are missed, and their number
  does not matter (`below_eq_of_markers_lt`, `merge_levels_suffice`).
-/

import MailMerge.Proofs.Merge.Blame
import MailMerge.Proofs.Merge.Pending
import MailMerge.Proofs.Merge.Scratch
import MailMerge.Proofs.Merge.Spans
import MailMerge.Proofs.Outline.Faults

namespace MailMerge

open MailMerge.Merge MailMerge.Outline MailMerge.Tree

/-! ## Expansions that agree -/

/-- Two expansions do the same to the copy of a body. -/
def Block.SameCopy (expand expand' : NodeId → Merge Unit) (b : Block) (s : Session) : Prop :=
  expand (copyNodes s.tree b.body).1 (b.copied s) = expand' (copyNodes s.tree b.body).1 (b.copied s)

section congruence

variable {expand expand' : NodeId → Merge Unit}

theorem Block.expandBody_congr {b : Block} {s : Session} (h : b.SameCopy expand expand' s) :
    b.expandBody expand s = b.expandBody expand' s := by
  have h : expand (copyNodes s.tree b.body).1 { s with tree := (copyNodes s.tree b.body).2 } =
      expand' (copyNodes s.tree b.body).1 { s with tree := (copyNodes s.tree b.body).2 } := h
  rw [run_expandBody, run_expandBody, h]

namespace Statement

theorem iterate_congr {iterator : String} {b : Block} {items : List Value} {s : Session}
    (h : ∀ before item after content s₁, items = before ++ item :: after →
      iterate expand iterator b before s = (.ok content, s₁) →
      b.SameCopy expand expand' { s₁ with env := s₁.env.push (Scope.binding iterator item) }) :
    iterate expand iterator b items s = iterate expand' iterator b items s := by
  induction items generalizing s with
  | nil => rfl
  | cons item items ih =>
    have hone : underScope (Scope.binding iterator item) (b.expandBody expand) s =
        underScope (Scope.binding iterator item) (b.expandBody expand') s := by
      rw [run_underScope, run_underScope, Block.expandBody_congr (h [] item items [] s rfl rfl)]
    rw [run_iterate_cons, run_iterate_cons, ← hone]
    generalize hmade : underScope (Scope.binding iterator item) (b.expandBody expand) s = made
    obtain ⟨result, s₁⟩ := made
    cases result with
    | error e => rfl
    | ok content =>
      have hmore : iterate expand iterator b items s₁ = iterate expand' iterator b items s₁ := by
        apply ih
        intro before item' after more s₂ hsplit hbefore
        refine h (item :: before) item' after (content ++ more) s₂ (by rw [hsplit]; rfl) ?_
        rw [run_iterate_cons, hmade]
        simp only [hbefore]
      simp only [hmore]

/-- A statement does the same under expansions that do the same to the copies it makes. -/
theorem evaluate_congr {st : Statement} {s : Session} (h : ∀ b s', st.Copies expand s b s' → b.SameCopy expand expand' s') :
    st.evaluate expand s = st.evaluate expand' s := by
  cases st with
  | insertion f o => rfl
  | loop list iterator b =>
    rw [evaluate, evaluate, run_bind, run_bind, run_askOperand]
    cases hitems : list.evaluateItems s.env with
    | error fault => rfl
    | ok items =>
      have hsame : iterate expand iterator b items s = iterate expand' iterator b items s := by
        apply iterate_congr
        intro before item after content s₁ hsplit hbefore
        exact h b _ (.loop (by rw [hitems, hsplit]) hbefore)
      simp only [Except.mapError]
      rw [run_bind, run_bind, hsame]
  | condition c =>
    rw [evaluate, evaluate, run_bind, run_bind, run_ask]
    cases hholds : c.holds s.env with
    | error e => rfl
    | ok kept =>
      cases kept with
      | false => rfl
      | true =>
        have hsame : c.block.expandBody expand s = c.block.expandBody expand' s :=
          Block.expandBody_congr (h c.block s (.condition hholds))
        simp only [if_true]
        rw [run_bind, run_bind, hsame]
  | choice branches otherwise =>
    rw [evaluate, evaluate, run_bind, run_bind, run_ask]
    cases hholding : Condition.firstHolding s.env branches with
    | error e => rfl
    | ok holding =>
      simp only
      cases hb : (branches.map (·.block) ++ otherwise.toList)[holding.getD branches.length]? with
      | none => rfl
      | some b =>
        have hsame : b.expandBody expand s = b.expandBody expand' s :=
          Block.expandBody_congr (h b s (.choice hholding hb))
        simp only
        rw [run_bind, run_bind, hsame]
  | picture o b => rfl
  | comment b => rfl

theorem evaluateAll_congr {ss : List Statement} {s : Session}
    (h : ∀ done st rest s₁, ss = done ++ st :: rest → evaluateAll expand done s = (.ok (), s₁) →
      ∀ b s₂, st.Copies expand s₁ b s₂ → b.SameCopy expand expand' s₂) :
    evaluateAll expand ss s = evaluateAll expand' ss s := by
  induction ss generalizing s with
  | nil => rfl
  | cons st ss ih =>
    have hone : st.evaluate expand s = st.evaluate expand' s := evaluate_congr (h [] st ss s rfl rfl)
    rw [run_evaluateAll_cons, run_evaluateAll_cons, ← hone]
    generalize hmade : st.evaluate expand s = made
    obtain ⟨result, s₁⟩ := made
    cases result with
    | error e => rfl
    | ok _ =>
      apply ih
      intro done st' rest s₂ hsplit hdone
      refine h (st :: done) st' rest s₂ (by rw [hsplit]; rfl) ?_
      rw [run_evaluateAll_cons, hmade]
      exact hdone

end Statement

end congruence

/-! ## Markers in copies -/

namespace Tree

/-- The copies of nodes that stand side by side have as many markers as those nodes. -/
theorem length_markers_copyNodes {t : Tree} (h : t.WellFormed) {ids : List NodeId} (hin : ∀ x ∈ ids, x ≠ root ∧ x < t.size)
    (hids : ids.Pairwise fun a b => ∀ x, ¬ (t.Within a x ∧ t.Within b x)) :
    ((Block.copyNodes t ids).2.markers (Block.copyNodes t ids).1).length = ((ids.flatMap t.subtree).filter t.opensField).length := by
  obtain ⟨hfst, hfill⟩ := Block.copyNodes_spec h (fun x hx => (hin x hx).1) fun x hx => (hin x hx).2
  have hu := hfill.beyond.wellFormed
  obtain ⟨φ, hφ, hmap, -⟩ := exists_renames_copyNodes h hin hids
  have hdesc : (Block.copyNodes t ids).2.descendants t.size = (ids.flatMap t.subtree).map φ := by
    rw [hu.descendants_eq, hmap, hφ.flatMap_subtree h hu fun n hn => under_of_mem hn]
  rw [hfst, markers, hdesc, List.filter_map, List.length_map]
  congr 1
  apply List.filter_congr
  intro x hx
  obtain ⟨n, hn, hnx⟩ := List.mem_flatMap.mp hx
  exact (hφ.reads x ⟨n, hn, h.mem_subtree.mp hnx⟩).opensField

end Tree

namespace Scan

section bodies

variable {r : Registry} {c : Scan} (hc : c.Made r) {st : Statement} (hst : st ∈ c.statements) {b : Block} (hb : b ∈ st.blocks)

include hc hst hb

/-- A body stands below the node that is scanned. -/
theorem Made.body_below {x : NodeId} (hx : x ∈ b.body) : c.tree.Within c.top x ∧ x ≠ c.top := by
  have hr := hc.outlined.resolves hst hb
  have hstart := ((hc.outlined.mem_fields hst).2 b hb).1
  obtain ⟨n, hn, hns⟩ := (Block.bounded_of_resolve? hr).exists_startNode hc.wellFormed (placed_of_mem_fields hstart)
  have hxn : x ∈ c.tree.laterElements n := by
    obtain ⟨hxs, -⟩ := Block.mem_laterElements_of_body hc.wellFormed hr hx
    rcases hns with rfl | hns
    · exact hxs
    · exact hc.wellFormed.laterElements_trans hns hxs
  obtain ⟨hpx, hpn, -, -⟩ := hc.wellFormed.mem_laterElements hxn
  have hmarker := (hc.wellFormed.mem_descendants.mp (Tree.mem_fields.mp hstart).1).1
  have htop : c.tree.Within c.top n := hc.within_top hmarker hn
  have hne : ∀ {y}, c.tree.parent y ≠ none → y ≠ c.top := by
    rintro y hy rfl
    exact hy hc.top
  obtain ⟨p, hp⟩ := Option.ne_none_iff_exists'.mp hpn
  exact ⟨within_parent (within_parent_of_ne htop (hne hpn) hp) (hpx.trans hp), hne (hpx ▸ hpn)⟩

theorem Made.body_pairwise : b.body.Pairwise fun x y => ∀ z, ¬ (c.tree.Within x z ∧ c.tree.Within y z) := by
  have hr := hc.outlined.resolves hst hb
  rcases (Block.resolve?_eq_some.mp hr).2.1 with hbody | ⟨-, -, hnil⟩
  · rcases (Block.between?_eq_some hc.wellFormed).mp hbody with ⟨-, hnil⟩ | ⟨post, hrow⟩
    · rw [hnil]
      exact List.Pairwise.nil
    · exact pairwise_row hc.wellFormed hrow
  · rw [hnil]
    exact List.Pairwise.nil

/-- The start of a block is in none of the nodes of its body. -/
theorem Made.startField_not_in_body {x : NodeId} (hx : x ∈ b.body) : ¬ c.tree.Within x b.startField.marker := fun hw =>
  (Block.behind_of_within hc.wellFormed (hc.outlined.resolves hst hb) ((hc.outlined.mem_fields hst).2 b hb).1 hx hw).1 rfl

variable {env : Environment} {rest : List Statement} {s : Session} (hs : c.Pending env (st :: rest) s)

include hs

omit hst in
/-- The markers that stand in a body by now stood in it when it was scanned. -/
theorem Pending.marker_in_body {x y : NodeId} (hx : x ∈ b.body) (hw : s.tree.Within x y) (hy : s.tree.opensField y = true) :
    c.tree.Within x y ∧ c.tree.opensField y = true := by
  by_cases hlt : y < c.tree.size
  · have hopens := (hs.reads y hlt).opensField
    exact ⟨hs.scan.lifted.within hc.wellFormed hlt hw, hopens.symm.trans hy⟩
  · exfalso
    have hmem : b ∈ (st :: rest).flatMap Statement.blocks := by
      rw [List.flatMap_cons]
      exact List.mem_append_left _ hb
    have hcarries := carries_of_opensField hy
    rw [hs.bare b hmem x hx y (Nat.le_of_not_lt hlt) hw] at hcarries
    cases hcarries

theorem Pending.body_pairwise : b.body.Pairwise fun x y => ∀ z, ¬ (s.tree.Within x z ∧ s.tree.Within y z) := by
  have hold : ∀ {a x}, x ∈ b.body → s.tree.Within a x → c.tree.Within a x := fun hx hw =>
    hs.scan.lifted.within hc.wellFormed (hc.inStore_of_body hst hb hx).2 hw
  refine (hc.body_pairwise hst hb).imp_of_mem ?_
  intro x y hx hy hno z ⟨hxz, hyz⟩
  -- of two nodes above one node the one is above the other, and they were so in the scanned tree
  rcases within_total hxz hyz with hxy | hyx
  · exact hno y ⟨hold hy hxy, within_refl _ y⟩
  · exact hno x ⟨within_refl _ x, hold hx hyx⟩

/-- There are fewer of them than were scanned: the start of the block is one more. -/
theorem Pending.markers_in_body_lt :
    ((b.body.flatMap s.tree.subtree).filter s.tree.opensField).length < (c.tree.markers c.top).length := by
  have hws := hs.scan.wellFormed
  generalize hfound : (b.body.flatMap s.tree.subtree).filter s.tree.opensField = found
  have hin : ∀ y ∈ found, ∃ x ∈ b.body, c.tree.Within x y ∧ c.tree.opensField y = true := by
    intro y hy
    rw [← hfound, List.mem_filter, List.mem_flatMap] at hy
    obtain ⟨⟨x, hx, hxy⟩, hopens⟩ := hy
    exact ⟨x, hx, hs.marker_in_body hc hb hx (hws.mem_subtree.mp hxy) hopens⟩
  have hstart := ((hc.outlined.mem_fields hst).2 b hb).1
  have hnd : (b.startField.marker :: found).Nodup := by
    refine List.nodup_cons.mpr ⟨fun hmem => ?_, ?_⟩
    · obtain ⟨x, hx, hw, -⟩ := hin _ hmem
      exact hc.startField_not_in_body hst hb hx hw
    · rw [← hfound]
      refine (List.nodup_flatMap.mpr ⟨fun x _ => hws.nodup_subtree x, ?_⟩).filter _
      refine (hs.body_pairwise hc hst hb).imp ?_
      intro x y hno z hzx hzy
      exact hno z ⟨hws.mem_subtree.mp hzx, hws.mem_subtree.mp hzy⟩
  have hsub : b.startField.marker :: found ⊆ c.tree.markers c.top := by
    intro y hy
    rcases List.mem_cons.mp hy with rfl | hy
    · obtain ⟨hdesc, hof, -⟩ := Tree.mem_fields.mp hstart
      exact List.mem_filter.mpr ⟨hdesc, (Field.ofMarker?_eq_some hof).2.1⟩
    · obtain ⟨x, hx, hw, hopens⟩ := hin y hy
      obtain ⟨hbelow, hne⟩ := hc.body_below hst hb hx
      refine List.mem_filter.mpr ⟨hc.wellFormed.mem_descendants.mpr ⟨within_trans hbelow hw, ?_⟩, hopens⟩
      rintro rfl
      exact hne (within_of_parent_none hc.top hw)
  exact (List.subperm_of_subset hnd hsub).length_le

variable {expand : NodeId → Merge Unit} (hexp : Expands expand) {s' : Session} (hcopies : st.Copies expand s b s')

include hexp hcopies

omit hc hb in
/-- What the iterations before a copy have made is new, so the body is as it was before them. -/
theorem Pending.spares_body : Spares (s.tree.Under b.body) s.tree s'.tree := by
  have hws := hs.scan.wellFormed
  have hown := hs.scan.owned st hst
  apply (hcopies.beyond hexp hws hown).spares
  rintro y ⟨x, hx, hxy⟩
  have hlt := ((hown.blocks b (Statement.mem_blocks_of_copied hcopies.mem_copied)).inStore x hx).2
  exact (fenced_size hws).lt_of_within hlt hxy

theorem Pending.pairwise_at_copy : b.body.Pairwise fun x y => ∀ z, ¬ (s'.tree.Within x z ∧ s'.tree.Within y z) := by
  have hws := hs.scan.wellFormed
  have hrenames := renames_id_iff.mpr (hs.spares_body hst hexp hcopies)
  have hmap := hrenames.pairwise hws (hcopies.inStore hexp hws (hs.scan.owned st hst)).1 (hs.body_pairwise hc hst hb)
  rwa [List.map_id] at hmap

end bodies

end Scan

/-! ## One level deeper -/

namespace Merge

/-- Merging below `id` from `s` comes to merge below `id'` from `s'` one level deeper: some
    statements are carried out, and the next one has a body copied. -/
def Hands (r : Registry) (levels : Nat) (id : NodeId) (s : Session) (id' : NodeId) (s' : Session) : Prop :=
  ∃ done st rest l s₁ b s₂, ofFields r s.tree (s.tree.fields id) = .ok (done ++ st :: rest, l) ∧
    Statement.evaluateAll (below r levels) done { s with ledger := l } = (.ok (), s₁) ∧
    st.Copies (below r levels) s₁ b s₂ ∧ id' = (Block.copyNodes s₂.tree b.body).1 ∧ s' = b.copied s₂

/-- Merging below `id` from `s` in that many levels comes to merge below `id'` from `s'`,
    `depth` levels deeper. -/
inductive Nested (r : Registry) : (levels : Nat) → NodeId → Session → (depth : Nat) → NodeId → Session → Prop
  | here {levels : Nat} {id : NodeId} {s : Session} : Nested r levels id s 0 id s
  | deeper {levels depth : Nat} {id id₁ id' : NodeId} {s s₁ s' : Session} : Hands r levels id s id₁ s₁ →
      Nested r levels id₁ s₁ depth id' s' → Nested r (levels + 1) id s (depth + 1) id' s'

/-- A merge below a node that stands in no other, where no markup can be reached. -/
structure Entry (id : NodeId) (s : Session) : Prop where
  wellFormed : s.tree.WellFormed
  top : s.tree.parent id = none
  lt_size : id < s.tree.size
  env : s.env.reaches Content.isMarkup = false

variable {r : Registry} {n : Nat} {id id' : NodeId} {s s' : Session}

theorem Entry.made (h : Entry id s) {ss : List Statement} {l : Ledger}
    (hbuild : ofFields r s.tree (s.tree.fields id) = .ok (ss, l)) : Scan.Made r ⟨s.tree, id, ss, l⟩ :=
  ⟨h.wellFormed, h.top, h.lt_size, hbuild⟩

/-- What a merge hands to the next level stands in no other node, either. -/
theorem Hands.placed (hw : s.tree.WellFormed) (htop : s.tree.parent id = none) (hid : id < s.tree.size) (hh : Hands r n id s id' s') :
    s'.tree.WellFormed ∧ s'.tree.parent id' = none ∧ id' < s'.tree.size := by
  obtain ⟨done, st, rest, l, s₁, b, s₂, hbuild, hdone, hcopies, rfl, rfl⟩ := hh
  have hc : Scan.Made r ⟨s.tree, id, done ++ st :: rest, l⟩ := ⟨hw, htop, hid, hbuild⟩
  have hexp := expands_below r n
  obtain ⟨hscan, -⟩ := (hc.inScan s.env).left hexp hw (fun st' hst' x hx => ⟨st', hst', hx⟩)
    (fun st' hst' => List.mem_append_left _ hst') hdone
  obtain ⟨hw₂, hb⟩ := hcopies.inStore hexp hscan.wellFormed (hscan.owned st (by simp))
  obtain ⟨hfst, hfill⟩ := Block.copyNodes_spec hw₂ (fun x hx => (hb x hx).1) fun x hx => (hb x hx).2
  exact ⟨hfill.beyond.wellFormed, hfst ▸ hfill.parent, hfst ▸ hfill.lt_size⟩

/-- What a merge hands to the next level is of the same kind. -/
theorem Entry.hands (h : Entry id s) (hh : Hands r n id s id' s') : Entry id' s' := by
  obtain ⟨hw, htop, hlt⟩ := hh.placed h.wellFormed h.top h.lt_size
  obtain ⟨done, st, rest, l, s₁, b, s₂, hbuild, hdone, hcopies, rfl, rfl⟩ := hh
  have hc := h.made hbuild
  have hpending := (hc.pending s.env).run hc h.env (expands_below r n) [] (st :: rest) rfl hdone
  have henv : s₁.env.reaches Content.isMarkup = false := (hpending.scan.env.reaches _).trans h.env
  have hspec := hcopies.spec (expands_below r n) hpending.scan.wellFormed (hpending.scan.owned st (by simp)) henv
  exact ⟨hw, htop, hlt, hspec.2⟩

/-- A copy that is handed to the next level has fewer markers than what was scanned, whatever
    statements were carried out before. -/
theorem Hands.fewer_markers (h : Entry id s) (hh : Hands r n id s id' s') :
    (s'.tree.markers id').length < (s.tree.markers id).length := by
  obtain ⟨done, st, rest, l, s₁, b, s₂, hbuild, hdone, hcopies, rfl, rfl⟩ := hh
  have hc := h.made hbuild
  have hexp := expands_below r n
  have hpending := (hc.pending s.env).run hc h.env hexp [] (st :: rest) rfl hdone
  have hst : st ∈ done ++ st :: rest := by simp
  have hb : b ∈ st.blocks := Statement.mem_blocks_of_copied hcopies.mem_copied
  have hws := hpending.scan.wellFormed
  have hown := hpending.scan.owned st hst
  obtain ⟨hw₂, hin₂⟩ := hcopies.inStore hexp hws hown
  have hspares := hpending.spares_body hst hexp hcopies
  have hsubtrees : b.body.flatMap s₂.tree.subtree = b.body.flatMap s₁.tree.subtree := by
    have hmap := (renames_id_iff.mpr hspares).flatMap_subtree hws hw₂ fun x hx => under_of_mem hx
    rwa [List.map_id, List.map_id] at hmap
  have hpairwise := hpending.pairwise_at_copy hc hst hb hexp hcopies
  have hopens : (b.body.flatMap s₁.tree.subtree).filter s₂.tree.opensField =
      (b.body.flatMap s₁.tree.subtree).filter s₁.tree.opensField := by
    apply List.filter_congr
    intro y hy
    obtain ⟨x, hx, hxy⟩ := List.mem_flatMap.mp hy
    exact (hspares.reads y ⟨x, hx, hws.mem_subtree.mp hxy⟩).opensField
  calc ((b.copied s₂).tree.markers (Block.copyNodes s₂.tree b.body).1).length
      = ((b.body.flatMap s₂.tree.subtree).filter s₂.tree.opensField).length := length_markers_copyNodes hw₂ hin₂ hpairwise
    _ = ((b.body.flatMap s₁.tree.subtree).filter s₁.tree.opensField).length := by rw [hsubtrees, hopens]
    _ < (s.tree.markers id).length := hpending.markers_in_body_lt hc hst hb

/-- Each level down costs at least a marker. -/
theorem Nested.markers_le {depth : Nat} (h : Entry id s) (hn : Nested r n id s depth id' s') :
    Entry id' s' ∧ depth + (s'.tree.markers id').length ≤ (s.tree.markers id).length := by
  induction hn with
  | here =>
    refine ⟨h, ?_⟩
    omega
  | deeper hh _ ih =>
    obtain ⟨hentry, hle⟩ := ih (h.hands hh)
    have hlt := hh.fewer_markers h
    refine ⟨hentry, ?_⟩
    omega

/-! ## Enough levels -/

/-- With more levels than markers, their number does not matter. -/
theorem below_eq_of_markers_lt (r : Registry) {m : Nat} (h : Entry id s) (hn : (s.tree.markers id).length < n)
    (hm : (s.tree.markers id).length < m) : below r n id s = below r m id s := by
  induction n generalizing m id s with
  | zero => exact absurd hn (Nat.not_lt_zero _)
  | succ n ih =>
    cases m with
    | zero => exact absurd hm (Nat.not_lt_zero _)
    | succ m =>
      rw [run_below_succ, run_below_succ]
      cases hbuild : ofFields r s.tree (s.tree.fields id) with
      | error e => rfl
      | ok built =>
        obtain ⟨ss, l⟩ := built
        have hsame : Statement.evaluateAll (below r n) ss { s with ledger := l } =
            Statement.evaluateAll (below r m) ss { s with ledger := l } := by
          apply Statement.evaluateAll_congr
          intro done st rest s₁ hsplit hdone b s₂ hcopies
          have hh : Hands r n id s (Block.copyNodes s₂.tree b.body).1 (b.copied s₂) :=
            ⟨done, st, rest, l, s₁, b, s₂, by rw [hbuild, hsplit], hdone, hcopies, rfl, rfl⟩
          have hlt := hh.fewer_markers h
          exact ih (h.hands hh) (by omega) (by omega)
        simp only [run_underLedger, hsame]

/-- With more levels than markers, no merge is too deep. -/
theorem below_ne_tooDeep (r : Registry) (h : Entry id s) (hn : (s.tree.markers id).length < n) {e : Failure}
    (hrun : below r n id s = (.error e, s')) : e.cause ≠ .tooDeep := by
  induction n generalizing id s s' with
  | zero => exact absurd hn (Nat.not_lt_zero _)
  | succ n ih =>
    rw [run_below_succ] at hrun
    cases hbuild : ofFields r s.tree (s.tree.fields id) with
    | error e' =>
      rw [hbuild] at hrun
      cases hrun
      obtain ⟨f, -, fault, -, rfl⟩ := ofFields_eq_error hbuild
      rw [Failure.template, Failure.cause_locatedAt]
      simp [Failure.ofCause]
    | ok built =>
      obtain ⟨ss, l⟩ := built
      rw [hbuild] at hrun
      simp only [run_underLedger] at hrun
      generalize hall : Statement.evaluateAll (below r n) ss { s with ledger := l } = made at hrun
      obtain ⟨result, last⟩ := made
      obtain ⟨rfl, -⟩ := Prod.mk.inj hrun
      obtain ⟨done, st, rest, s₁, rfl, hdone, hfail⟩ := Statement.evaluateAll_eq_error hall
      rcases Statement.evaluate_failure hfail with ⟨q, -, fault, -, rfl⟩ | ⟨f, o, source, fault, -, -, rfl⟩ | ⟨b, s₂, s₃, hcopies, hnested⟩
      · rw [Failure.context, Failure.cause_locatedAt]
        simp [Failure.ofCause]
      · rw [Failure.cause_locatedAt]
        simp [Failure.ofCause]
      · have hh : Hands r n id s (Block.copyNodes s₂.tree b.body).1 (b.copied s₂) :=
          ⟨done, st, rest, l, s₁, b, s₂, hbuild, hdone, hcopies, rfl, rfl⟩
        have hlt := hh.fewer_markers h
        exact ih (h.hands hh) (by omega) hnested

end Merge

/-- **A level for each marker, and one besides, are enough.** Where no markup can be reached,
    a merge with that many levels never runs out of them and does what it does with any more;
    it comes to be nested no deeper than there are markers, since what is handed to the next
    level has fewer of them each time. -/
theorem merge_levels_suffice {t : Tree} (h : t.WellFormed) {env : Environment} (henv : env.reaches Content.isMarkup = false)
    (r : Registry) :
    (∀ n, (t.markers root).length < n → ∀ e s', below r n root ⟨t, env, Ledger.empty⟩ = (.error e, s') → e.cause ≠ .tooDeep) ∧
    (∀ n, (t.markers root).length < n →
      below r n root ⟨t, env, Ledger.empty⟩ = below r ((t.markers root).length + 1) root ⟨t, env, Ledger.empty⟩) ∧
    (∀ n depth id s, Nested r n root ⟨t, env, Ledger.empty⟩ depth id s →
      depth + (s.tree.markers id).length ≤ (t.markers root).length ∧
      ∀ m id' s', Hands r m id s id' s' → (s'.tree.markers id').length < (s.tree.markers id).length) ∧
    ∀ e, (t.merge r env).outcome = .error e → e.cause ≠ .tooDeep := by
  have hentry : Entry root ⟨t, env, Ledger.empty⟩ := ⟨h, h.top, h.rooted, henv⟩
  refine ⟨fun n hn e s' hrun => ?_, fun n hn => ?_, fun n depth id s hnested => ?_, fun e he => ?_⟩
  · exact below_ne_tooDeep r hentry hn hrun
  · exact below_eq_of_markers_lt r hentry hn (Nat.lt_succ_self _)
  · obtain ⟨hbelow, hle⟩ := hnested.markers_le hentry
    exact ⟨hle, fun m id' s' hh => hh.fewer_markers hbelow⟩
  · obtain ⟨last, hrun⟩ := merge_eq_error he
    refine below_ne_tooDeep r hentry ?_ hrun
    show (t.markers root).length < (t.markers root).length + 1 + levelsForMarkup
    omega

namespace FieldsInParagraph

/-- A guard that holds and a value to insert, none of it markup. -/
def plainEnv : Environment := ⟨[("a", .boolean true), ("f", .content (.text "A"))], [], .lenient, .empty⟩

/-- The conditional is one level deep. -/
theorem nested_kept : Nested Registry.stock 4 root ⟨kept, plainEnv, .empty⟩ 1 5
    (keptBlock.copied ⟨kept, plainEnv, ⟨[4, 2], [], [1, 1]⟩⟩) := by
  refine .deeper ⟨[], .condition ⟨⟨"a", []⟩, none, keptBlock⟩, [], ⟨[4, 2], [], [1, 1]⟩, _, keptBlock, _, ?_, rfl, .condition ?_, ?_, rfl⟩ .here
  · cbv
  · cbv
  · cbv

end FieldsInParagraph

open FieldsInParagraph in
/-- Three markers take no more than four levels, and of the three one is left in the copy. -/
theorem kept_in_four_levels : kept.WellFormed ∧ plainEnv.reaches Content.isMarkup = false ∧ (kept.markers root).length = 3 ∧
    (∀ n, 3 < n → below Registry.stock n root ⟨kept, plainEnv, .empty⟩ = below Registry.stock 4 root ⟨kept, plainEnv, .empty⟩) ∧
    1 + ((keptBlock.copied ⟨kept, plainEnv, ⟨[4, 2], [], [1, 1]⟩⟩).tree.markers 5).length ≤ 3 := by
  have hw : kept.WellFormed := wellFormed_of_earlier (by decide) (by decide) (by decide)
  have henv : plainEnv.reaches Content.isMarkup = false := by decide
  have hcount : (kept.markers root).length = 3 := by decide
  obtain ⟨-, hsame, hnested, -⟩ := merge_levels_suffice hw henv Registry.stock
  rw [hcount] at hsame hnested
  exact ⟨hw, henv, hcount, hsame, (hnested _ _ _ _ nested_kept).1⟩

end MailMerge
