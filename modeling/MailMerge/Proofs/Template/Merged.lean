/-
  MailMerge.Proofs.Template.Merged — templates are merged as the reference says.

  The statements of a template are carried out from the first paragraph to the last. Between
  two of them the paragraphs are at a stage, and the ledger lists the blocks still to come
  (`Template.Reached`). A statement takes its marker paragraphs and bodies away and leaves what
  the reference expands them to; bodies are merged one level deeper, so the levels that are
  needed are as many as blocks are nested.

  Proved: wherever a template stands, merging it agrees with its expansion (`mergesBelow`).
-/

import MailMerge.Proofs.Template.Bodies

namespace MailMerge

open MailMerge.Tree Merge Outline

/-! ## The blocks of a plan -/

section plans

variable {t : Tree}

theorem Chained.shape {ns : List NodeId} {blocks : List Block} (h : Chained t ns blocks) {b : Block} (hb : b ∈ blocks) :
    ∃ c body e, b = Block.ofParagraphs t c body e ∧ ∀ x ∈ body, x ∈ ns := by
  induction h with
  | stop => cases hb
  | @block c e bs ns blocks _ ih =>
    rcases List.mem_cons.mp hb with rfl | hb
    · exact ⟨c, bs, e, rfl, fun x hx => List.mem_append_left _ (List.mem_cons_of_mem c hx)⟩
    · obtain ⟨c', body, e', rfl, hbody⟩ := ih hb
      exact ⟨c', body, e', rfl, fun x hx => List.mem_append_right _ (hbody x hx)⟩

theorem Branches.Planned.chained {B : Branches} {ns : List NodeId} {conditions : List Condition} {other : Option Block}
    (h : B.Planned t ns conditions other) : Chained t ns (blocksOf conditions other) := by
  induction h with
  | stop _ => exact .stop
  | guarded _ _ _ ih => exact .block ih
  | otherwise _ _ _ => exact .block .stop

theorem Statement.Chooses.blocks_eq {st : Statement} {c : Condition} {conditions : List Condition} {other : Option Block}
    (h : st.Chooses c conditions other) : st.blocks = c.block :: blocksOf conditions other := by
  rcases h with rfl | ⟨rfl, rfl, rfl⟩ <;> rfl

theorem Piece.Planned.blocks_eq {ps : List Piece} {xs : List NodeId} {ss : List Statement} (h : Piece.Planned t ps xs ss) :
    ss.flatMap Statement.blocks = [] := by
  induction h with
  | nil => rfl
  | plain _ _ ih => exact ih
  | insertion _ _ ih => exact ih

/-- The blocks of a template stand between marker paragraphs of the template. -/
theorem Template.Planned.blocks_spec {T : Template} {cs : List NodeId} {ss : List Statement} (h : T.Planned t cs ss)
    {b : Block} (hb : b ∈ ss.flatMap Statement.blocks) :
    (∃ c body e, b = Block.ofParagraphs t c body e) ∧ ∀ x ∈ b.ownNodes, x ∈ cs := by
  have hown : ∀ (c : NodeId) (body : List NodeId) (e x : NodeId), x ∈ (Block.ofParagraphs t c body e).ownNodes → x = c ∨ x = e :=
    fun c body e x hx => by
      have hnodes : (Block.ofParagraphs t c body e).ownNodes = [c, e] := rfl
      rw [hnodes] at hx
      simpa using hx
  induction h with
  | nil => cases hb
  | paragraph _ hpieces _ ih =>
    rw [List.flatMap_append, hpieces.blocks_eq, List.nil_append] at hb
    obtain ⟨hshape, hsub⟩ := ih hb
    exact ⟨hshape, fun x hx => List.mem_cons_of_mem _ (hsub x hx)⟩
  | loop _ _ ih | comment _ ih =>
    rw [List.flatMap_cons, List.mem_append] at hb
    rcases hb with hb | hb
    · obtain rfl := List.mem_singleton.mp hb
      refine ⟨⟨_, _, _, rfl⟩, fun x hx => ?_⟩
      rcases hown _ _ _ x hx with rfl | rfl <;> simp
    · obtain ⟨hshape, hsub⟩ := ih hb
      exact ⟨hshape, fun x hx => List.mem_append_right _ (List.mem_cons_of_mem _ (hsub x hx))⟩
  | @conditional _ _ _ _ _ _ c m bs ms _ conditions other _ _ _ hmore hchooses _ ih =>
    rw [List.flatMap_cons, List.mem_append] at hb
    rcases hb with hb | hb
    · rw [hchooses.blocks_eq] at hb
      have hchain : Chained t (c :: bs ++ m :: ms) (Block.ofParagraphs t c bs m :: blocksOf conditions other) := .block hmore.chained
      obtain ⟨c, body, e, rfl, -⟩ := hchain.shape hb
      exact ⟨⟨c, body, e, rfl⟩, fun x hx => List.mem_append_left _ (hchain.ownNodes_subset (List.mem_flatMap.mpr ⟨_, hb, hx⟩))⟩
    · obtain ⟨hshape, hsub⟩ := ih hb
      exact ⟨hshape, fun x hx => List.mem_append_right _ (hsub x hx)⟩

theorem Template.Planned.ownNodes_subset {T : Template} {cs : List NodeId} {ss : List Statement} (h : T.Planned t cs ss)
    {x : NodeId} (hx : x ∈ (ss.flatMap Statement.blocks).flatMap Block.ownNodes) : x ∈ cs := by
  obtain ⟨b, hb, hxb⟩ := List.mem_flatMap.mp hx
  exact (h.blocks_spec hb).2 x hxb

end plans

/-! ## Statements -/

/-- A choice asks its guards, expands the block that is chosen, and then all its blocks give way. -/
theorem Statement.run_choice (expand : NodeId → Merge Unit) (conditions : List Condition) (other : Option Block) (s : Session) :
    (Statement.choice conditions other).evaluate expand s =
      match Condition.firstHolding s.env conditions with
      | .error e => (.error e, s)
      | .ok holding => ((match (blocksOf conditions other)[holding.getD conditions.length]? with
          | some b => b.expandBody expand
          | none => pure []) >>= fun content =>
            giveWayTo (holding.getD conditions.length) content 0 (blocksOf conditions other)) s := by
  rw [evaluate, run_bind, run_ask]
  cases Condition.firstHolding s.env conditions with
  | error e => rfl
  | ok holding =>
    simp only [blocksOf]
    cases (conditions.map (·.block) ++ other.toList)[holding.getD conditions.length]? <;> rfl

/-- A condition is a choice with one branch. -/
theorem Statement.run_condition (expand : NodeId → Merge Unit) (c : Condition) (s : Session) :
    (Statement.condition c).evaluate expand s = (Statement.choice [c] none).evaluate expand s := by
  have hlast : ∀ (content : List NodeId) (chosen : Nat), giveWayTo chosen content 0 [c.block] =
      fun s => c.block.giveWay (if chosen = 0 then content else []) s := fun content chosen => by
    funext s
    rw [run_giveWayTo_cons, Block.run_giveWay]
    rfl
  rw [evaluate, evaluate, run_bind, run_bind, run_ask, run_ask, Condition.firstHolding]
  cases c.holds s.env with
  | error e => rfl
  | ok kept =>
    cases kept with
    | true =>
      show (c.block.expandBody expand >>= fun content => c.block.giveWay content) s =
        (c.block.expandBody expand >>= fun content => giveWayTo 0 content 0 [c.block]) s
      rw [run_bind, run_bind]
      rcases c.block.expandBody expand s with ⟨result, s'⟩
      cases result with
      | error e => rfl
      | ok content => exact (congrFun (hlast content 0) s').symm
    | false => exact (congrFun (hlast [] 1) s).symm

theorem Statement.Chooses.run_evaluate {st : Statement} {c : Condition} {conditions : List Condition} {other : Option Block}
    (h : st.Chooses c conditions other) (expand : NodeId → Merge Unit) (s : Session) :
    st.evaluate expand s = (Statement.choice (c :: conditions) other).evaluate expand s := by
  rcases h with rfl | ⟨rfl, rfl, rfl⟩
  · rfl
  · exact Statement.run_condition expand c s

/-- The paragraphs `ws` are done, `cs` are still to come, and the ledger lists the blocks among these. -/
structure Template.Reached (t : Tree) (p : NodeId) (ws : List Twig) (cs : List NodeId) (bs : List Block) (env : Environment)
    (s : Session) : Prop where
  stage : Stage t p ws cs s.tree
  env : s.env.Alike env
  ledger : s.ledger.Lists t bs

namespace Template.Reached

variable {t : Tree} {p c e : NodeId} {ws ws' : List Twig} {bs cs : List NodeId} {more : List Block} {env : Environment}
  {s s' : Session} (ht : t.WellFormed)

include ht

theorem expanded (h : Reached t p ws cs more env s) (hs : Expanded s.tree.size s s') : Reached t p ws cs more env s' where
  stage := h.stage.beyond ht hs.tree
  env := hs.env.trans h.env
  ledger := by rw [hs.ledger]; exact h.ledger

omit ht in
/-- What is still to come has a place. -/
theorem inStore (h : Reached t p ws cs more env s) {x : NodeId} (hx : x ∈ cs) : x ≠ root ∧ x < s.tree.size := by
  have hw := h.stage.wellFormed
  have hmem := h.stage.mem_children hx
  refine ⟨fun he => ?_, hw.lt_size_of_mem hmem⟩
  have hp := hw.parent_of_mem hmem
  rw [he, hw.top] at hp
  cases hp

/-- A block gives its place to content, and is done with its markers. -/
theorem giveWay {content : List NodeId} {m : Nat} (h : Reached t p ws (c :: bs ++ e :: cs) (Block.ofParagraphs t c bs e :: more) env s)
    (hsub : ∀ x ∈ more.flatMap Block.ownNodes, x ∈ cs) (hcontent : Brought m s.tree content ws') (hm : Fenced m s.tree)
    (hp : p < m) :
    Reached t p (ws ++ ws') cs more env ((Block.ofParagraphs t c bs e).giveWay content s).2 := by
  have hnd := h.stage.nodup
  have hlater : ∀ x, x = c ∨ x = e → x ∉ more.flatMap Block.ownNodes := fun x hx hmem => by
    rw [List.cons_append, List.nodup_cons, List.nodup_append', List.nodup_cons] at hnd
    rcases hx with rfl | rfl
    · exact hnd.1 (List.mem_append_right _ (List.mem_cons_of_mem _ (hsub x hmem)))
    · exact hnd.2.2.1.1 (hsub x hmem)
  have hheld := hcontent.held hm hp
  have hstage := h.stage.giveWay ht h.ledger (hlater c (Or.inl rfl)) hheld.spare
  rw [if_neg (hlater e (Or.inr rfl)), List.nil_append, hheld.twigs] at hstage
  refine ⟨hstage, ?_, ?_⟩
  · rw [Block.run_giveWay]
    exact h.env
  · rw [Block.run_giveWay, Block.replace_eq]
    exact h.ledger.after

variable {n : Nat} (henv : env.holdsContent = false)

include henv

/-- A loop leaves what its items make of its body. -/
theorem loop {list : Operand} {iterator : String} {body : Template} (hmerges : body.Merges n)
    (hbody : bs.map t.twig = body.paragraphs)
    (h : Reached t p ws (c :: bs ++ e :: cs) (Block.ofParagraphs t c bs e :: more) env s)
    (hsub : ∀ x ∈ more.flatMap Block.ownNodes, x ∈ cs) :
    Agrees (fun _ ws' s' => Reached t p (ws ++ ws') cs more env s')
      (do let items ← list.evaluateItems env
          let contents ← items.mapM fun item => body.expand (env.push (Scope.binding iterator item))
          .ok contents.flatten)
      ((Statement.loop list iterator (Block.ofParagraphs t c bs e)).evaluate (below Registry.stock n) s) := by
  have hw := h.stage.wellFormed
  have hin : ∀ x ∈ bs, x ∈ c :: bs ++ e :: cs := fun x hx => List.mem_append_left _ (List.mem_cons_of_mem c hx)
  have hquestion : list.evaluateItems s.env = list.evaluateItems env := by
    rw [Operand.evaluateItems, Operand.evaluateItems, list.evaluate_alike h.env]
  rw [Statement.evaluate]
  refine (agrees_askOperand _ hquestion).bind fun items _ s₀ hasked => ?_
  obtain ⟨rfl, rfl, hitems⟩ := hasked
  have hplain : ∀ item ∈ items, item.reaches (fun _ => true) = false := Environment.reaches_evaluateItems henv hitems
  have hmade := agrees_iterate (b := Block.ofParagraphs t c bs e) hmerges iterator hw (fun x hx => h.inStore (hin x hx))
    ((h.stage.twigs ht hin).trans hbody) h.env henv hplain
  refine hmade.bind fun content contents s₁ hdone => ?_
  exact .ok ((h.expanded ht hdone.2).giveWay ht hsub hdone.1 hdone.2.tree.zone h.stage.lt_size)

omit henv in
/-- A comment leaves nothing. -/
theorem comment {expand : NodeId → Merge Unit} (h : Reached t p ws (c :: bs ++ e :: cs) (Block.ofParagraphs t c bs e :: more) env s)
    (hsub : ∀ x ∈ more.flatMap Block.ownNodes, x ∈ cs) :
    Agrees (fun _ ws' s' => Reached t p (ws ++ ws') cs more env s') (.ok [])
      ((Statement.comment (Block.ofParagraphs t c bs e)).evaluate expand s) :=
  .ok (h.giveWay ht hsub (brought_nil _ _) (fenced_size h.stage.wellFormed) h.stage.lt_size)

/-- A choice leaves what becomes of the body that is picked. -/
theorem choice {ns : List NodeId} {conditions : List Condition} {other : Option Block} {ref : Except ContextFault (List Twig)}
    (hchain : Chained t ns (blocksOf conditions other)) (hne : blocksOf conditions other ≠ [])
    (hpicks : Picks t n env (blocksOf conditions other) conditions.length (Condition.firstHolding s.env conditions) ref)
    (h : Reached t p ws (ns ++ cs) (blocksOf conditions other ++ more) env s)
    (hsub : ∀ x ∈ more.flatMap Block.ownNodes, x ∈ cs) :
    Agrees (fun _ ws' s' => Reached t p (ws ++ ws') cs more env s') ref
      ((Statement.choice conditions other).evaluate (below Registry.stock n) s) := by
  have hw := h.stage.wellFormed
  have hstore : ∀ b ∈ blocksOf conditions other, (∀ x ∈ b.body, x ≠ root ∧ x < s.tree.size) ∧
      b.body.map s.tree.twig = b.body.map t.twig := fun b hb => by
    obtain ⟨c, body, e, rfl, hbody⟩ := hchain.shape hb
    exact ⟨fun x hx => h.inStore (List.mem_append_left cs (hbody x hx)),
      h.stage.twigs ht fun x hx => List.mem_append_left cs (hbody x hx)⟩
  rw [Statement.run_choice]
  cases hholding : Condition.firstHolding s.env conditions with
  | error fault =>
    rw [hholding] at hpicks
    cases hpicks with
    | fault => exact .error
  | ok holding =>
    rw [hholding] at hpicks
    refine (hpicks.agrees hw hstore h.env henv).andThen fun content ws' s₁ hdone => ?_
    obtain ⟨hnone, hbrought, hexp⟩ := hdone
    have h₁ := h.expanded ht hexp
    have hout : ∀ x ∈ ns, x ∉ more.flatMap Block.ownNodes := fun x hx hmem => by
      have hnd := h.stage.nodup
      rw [List.nodup_append'] at hnd
      exact hnd.2.2 hx (hsub x hmem)
    have hheld : 0 ≤ holding.getD conditions.length → Held s₁.tree p content ws' := fun _ =>
      hbrought.held hexp.tree.zone h.stage.lt_size
    obtain ⟨s₂, hrun, henv₂, hledger, hstage⟩ := h₁.stage.giveWayTo ht hchain hne h₁.ledger hout hheld
    rw [hrun]
    have hws : (if 0 ≤ holding.getD conditions.length ∧
        holding.getD conditions.length < 0 + (blocksOf conditions other).length then ws' else []) = ws' := by
      split
      · rfl
      · next hlt => exact (hnone (by omega)).symm
    rw [hws] at hstage
    exact .ok ⟨hstage, by rw [henv₂]; exact h₁.env, hledger⟩

omit ht henv in
/-- What a statement leaves stands in front of what the others leave. -/
theorem followedBy {expand : NodeId → Merge Unit} {st : Statement} {ss : List Statement} {after : List NodeId}
    {ref ref' : Except ContextFault (List Twig)}
    (hone : Agrees (fun _ ws' s' => Reached t p (ws ++ ws') cs more env s') ref (st.evaluate expand s))
    (hrest : ∀ {ws' s'}, Reached t p ws' cs more env s' →
      Agrees (fun _ ws'' s'' => Reached t p (ws' ++ ws'') after [] env s'') ref' (Statement.evaluateAll expand ss s')) :
    Agrees (fun _ ws' s' => Reached t p (ws ++ ws') after [] env s')
      (ref >>= fun content => ref' >>= fun more => .ok (content ++ more)) (Statement.evaluateAll expand (st :: ss) s) := by
  rw [Statement.evaluateAll]
  refine hone.bind fun _ ws' s₁ hreached => ((hrest hreached).bind_pure _).mono ?_
  rintro _ _ s₂ ⟨ws'', rfl, hdone⟩
  rwa [List.append_assoc] at hdone

end Template.Reached

/-! ## Templates -/

namespace Template

variable {env : Environment} {start stop : Marker} {body rest : Template}

/-- What a statement is expanded to, and what follows. -/
theorem expand_loop {list : Operand} {iterator : String} : (loop start list iterator body stop rest).expand env =
    (do let items ← list.evaluateItems env
        let contents ← items.mapM fun item => body.expand (env.push (Scope.binding iterator item))
        .ok contents.flatten) >>= fun content => rest.expand env >>= fun more => .ok (content ++ more) := by
  rw [expand, bind_assoc]
  refine congrArg (list.evaluateItems env >>= ·) (funext fun items => ?_)
  rw [bind_assoc]

theorem expand_conditional {guard : Guard} {operand : Operand} {more : Branches} :
    (conditional start guard operand body more rest).expand env =
      (do if ← guard.holds operand env then body.expand env else more.expand env) >>= fun content =>
        rest.expand env >>= fun others => .ok (content ++ others) := by
  rw [expand]
  cases guard.holds operand env with
  | error fault => rfl
  | ok holds => cases holds <;> rfl

theorem expand_comment : (comment start body stop rest).expand env =
    (.ok [] : Except ContextFault (List Twig)) >>= fun content => rest.expand env >>= fun more => .ok (content ++ more) := by
  rw [expand]
  show rest.expand env = rest.expand env >>= fun more => .ok more
  cases rest.expand env <;> rfl

end Template

/-- Templates that are nested less deep than `n` are merged as the reference says. -/
def MergesBelow (n : Nat) : Prop := ∀ (body : Template) (bounds : String → Bool), body.Nested bounds → body.depth < n → body.Merges n

section templates

variable {t : Tree} {n : Nat} (hbelow : MergesBelow n)

include hbelow

theorem Branches.Planned.picks {B : Branches} {ns : List NodeId} {conditions : List Condition} {other : Option Block}
    (h : B.Planned t ns conditions other) {name : String} (hn : B.Nested name) (hd : B.depth ≤ n) {e env : Environment}
    (halike : e.Alike env) :
    Picks t n env (blocksOf conditions other) conditions.length (Condition.firstHolding e conditions) (B.expand env) := by
  induction h with
  | stop _ => exact .nothing rfl
  | guarded _ hbody _ ih =>
    rw [Branches.Nested] at hn
    obtain ⟨-, -, -, -, hnested, hmore⟩ := hn
    rw [Branches.depth] at hd
    exact (ih hmore (by omega)).cons halike hbody (hbelow _ _ hnested (by omega))
  | otherwise _ hbody _ =>
    rw [Branches.Nested] at hn
    rw [Branches.depth] at hd
    exact .body rfl hbody (hbelow _ _ hn.2.2 (by omega))

variable (ht : t.WellFormed) {env : Environment} (henv : env.holdsContent = false)

include ht henv

/-- The statements of a template are carried out as the reference says. -/
theorem Template.agrees_of_planned {T : Template} {cs : List NodeId} {ss : List Statement} (hplan : T.Planned t cs ss)
    {bounds : String → Bool} (hn : T.Nested bounds) (hd : T.depth ≤ n) {p : NodeId} {ws : List Twig} {after : List NodeId}
    {s : Session} (h : Template.Reached t p ws (cs ++ after) (ss.flatMap Statement.blocks) env s) :
    Agrees (fun _ ws' s' => Template.Reached t p (ws ++ ws') after [] env s') (T.expand env)
      (Statement.evaluateAll (below Registry.stock n) ss s) := by
  induction hplan generalizing bounds ws s with
  | nil => exact .ok (by rw [List.append_nil]; exact h)
  | @paragraph q rest c cs ss ss' hk hpieces hrest ih =>
    rw [Template.Nested] at hn
    rw [Template.depth] at hd
    rw [List.flatMap_append, hpieces.blocks_eq, List.nil_append] at h
    have hone : Agrees _ (q.expand env) (Statement.evaluateAll (below Registry.stock n) ss s) :=
      h.stage.paragraph ht henv hk hpieces h.env
    rw [Template.expand]
    refine hone.append fun w s₁ hdone => ?_
    obtain ⟨hstage, henv₁, hledger⟩ := hdone
    have hmore := ih hn.2 hd ⟨hstage, by rw [henv₁]; exact h.env, by rw [hledger]; exact h.ledger⟩
    refine (hmore.bind_pure _).mono ?_
    rintro _ _ s₂ ⟨ws', rfl, hreached⟩
    rwa [List.append_assoc] at hreached
  | @loop start stop list iterator body rest c e bs cs ss hbody hrest ih =>
    rw [Template.Nested] at hn
    obtain ⟨-, -, hnested, hnrest⟩ := hn
    rw [Template.depth] at hd
    rw [List.append_assoc] at h
    rw [Template.expand_loop]
    refine Template.Reached.followedBy (Template.Reached.loop ht henv (hbelow _ _ hnested (by omega)) hbody h ?_) fun hreached =>
      ih hnrest (by omega) hreached
    exact fun x hx => List.mem_append_left after (hrest.ownNodes_subset hx)
  | @conditional start guard operand body rest more c m bs ms cs conditions other st ss hbody hmore hchooses hrest ih =>
    rw [Template.Nested] at hn
    obtain ⟨-, -, -, hnested, hnmore, hnrest⟩ := hn
    rw [Template.depth] at hd
    rw [List.flatMap_cons, hchooses.blocks_eq, List.append_assoc] at h
    have hpicks : Picks t n env (blocksOf (⟨operand, guard.predicate, Block.ofParagraphs t c bs m⟩ :: conditions) other) _ _
        (do if ← guard.holds operand env then body.expand env else more.expand env) :=
      (hmore.picks hbelow hnmore (by omega) h.env).cons h.env hbody (hbelow _ _ hnested (by omega))
    rw [Template.expand_conditional]
    refine Template.Reached.followedBy ?_ fun hreached => ih hnrest (by omega) hreached
    rw [hchooses.run_evaluate]
    exact Template.Reached.choice ht henv (.block hmore.chained) (List.cons_ne_nil _ _) hpicks h
      fun x hx => List.mem_append_left after (hrest.ownNodes_subset hx)
  | @comment start stop body rest c e bs cs ss hrest ih =>
    rw [Template.Nested] at hn
    obtain ⟨-, -, -, -, hnrest⟩ := hn
    rw [Template.depth] at hd
    rw [List.append_assoc] at h
    rw [Template.expand_comment]
    refine Template.Reached.followedBy (Template.Reached.comment ht h ?_) fun hreached => ih hnrest (by omega) hreached
    exact fun x hx => List.mem_append_left after (hrest.ownNodes_subset hx)

end templates

theorem Kind.opensField_of_paragraph {k : Kind} (h : k.isNamed Word.paragraph = true) : k.opensField = false := by
  cases k with
  | element name attributes =>
    obtain rfl : name = Word.paragraph := beq_iff_eq.mp h
    rfl
  | _ => rfl

namespace Template.Holds

variable {T : Template} {t : Tree} {id p : NodeId} {before cs after : List NodeId} (h : T.Holds t id p before cs after)

include h

/-- All fields below the node are those of the template. -/
theorem fields_eq : t.fields id = cs.flatMap t.fields := by
  have hw := h.wellFormed
  have hsubtree : ∀ c ∈ cs, Field.among t (t.subtree c) = t.fields c := fun c hc => by
    have hnamed := T.isNamed_paragraph _ (h.twigs ▸ List.mem_map_of_mem hc : t.twig c ∈ T.paragraphs)
    rw [hw.twig_eq, Twig.kind] at hnamed
    have hplain : Field.among t [c] = [] := Field.among_of_plain fun d hd => by
      rw [List.mem_singleton.mp hd]
      exact Kind.opensField_of_paragraph hnamed
    rw [hw.subtree_eq, ← List.singleton_append, Field.among_append, hplain, fields_eq_among, hw.descendants_eq]
    rfl
  have hcs : Field.among t (cs.flatMap t.subtree) = cs.flatMap t.fields := by
    clear h
    induction cs with
    | nil => rfl
    | cons c cs ih =>
      rw [List.flatMap_cons, List.flatMap_cons, Field.among_append, hsubtree c List.mem_cons_self,
        ih fun c' hc' => hsubtree c' (List.mem_cons_of_mem c hc')]
  obtain ⟨l, l', hl⟩ := hw.exists_segments h.within h.children
  have hnd := hw.nodup_descendants id
  rw [hl, List.append_assoc, List.nodup_append', List.nodup_append'] at hnd
  -- no other node opens a field
  have hout : ∀ d ∈ t.descendants id, d ∉ cs.flatMap t.subtree → (t.kind d).opensField = false := fun d hd hnot => by
    obtain ⟨hwithin, hne⟩ := hw.mem_descendants.mp hd
    rw [← opensField_eq, Bool.eq_false_iff]
    intro hopens
    obtain ⟨c, hc, hcd⟩ := h.only d hwithin hne hopens
    exact hnot (List.mem_flatMap.mpr ⟨c, hc, hw.mem_subtree.mpr hcd⟩)
  have hl₁ : Field.among t l = [] := Field.among_of_plain fun d hd =>
    hout d (by rw [hl]; simp [hd]) fun hmem => hnd.2.2 hd (List.mem_append_left l' hmem)
  have hl₂ : Field.among t l' = [] := Field.among_of_plain fun d hd =>
    hout d (by rw [hl]; simp [hd]) fun hmem => hnd.2.1.2.2 hmem hd
  rw [fields_eq_among, hl, Field.among_append, Field.among_append, hl₁, hl₂, List.nil_append, List.append_nil, hcs]

end Template.Holds

theorem mergesBelow (n : Nat) : MergesBelow n := by
  induction n with
  | zero => exact fun _ _ _ hd => absurd hd (Nat.not_lt_zero _)
  | succ n ih =>
    intro T bounds hn hd s id p before cs after env h halike henv
    have hw := h.wellFormed
    have hp : cs <:+: s.tree.children p := ⟨before, after, h.children.symm⟩
    obtain ⟨ss, hread⟩ := T.exists_plan hw hn hp h.twigs
    obtain ⟨l, hbuild⟩ := ofFields_iff.mpr (h.fields_eq ▸ hread.scanned.outlined)
    have hblocks : ∀ b ∈ ss.flatMap Statement.blocks, ∃ c body e, b = Block.ofParagraphs s.tree c body e := fun b hb =>
      (hread.planned.blocks_spec hb).1
    have hlists : l.Lists s.tree (ss.flatMap Statement.blocks) := by
      refine ⟨covers_of_ofFields hbuild, pinned_of_ofFields hbuild fun b hb => ?_, hblocks⟩
      obtain ⟨c, body, e, rfl⟩ := hblocks b hb
      rfl
    have hstart := stage_start hw h.lt_size (h.children.trans (List.append_assoc before cs after))
    have hrun := T.agrees_of_planned ih hw henv hread.planned hn (Nat.le_of_lt_succ hd) (p := p) (s := { s with ledger := l })
      ⟨hstart, halike, hlists⟩
    rw [run_below_succ, hbuild]
    simp only [run_underLedger]
    generalize Statement.evaluateAll (below Registry.stock n) ss { s with ledger := l } = run at hrun ⊢
    generalize T.expand env = ref at hrun ⊢
    cases hrun with
    | error => exact .error
    | ok hreached =>
      refine .ok ?_
      obtain ⟨as, has, htwigs⟩ := hreached.stage.done
      have hafter := hreached.stage.twigs hw fun x hx => hx
      refine ⟨hreached.stage.above id h.within, ?_⟩
      show Tree.twig _ p = _
      rw [hreached.stage.wellFormed.twig_node]
      exact ⟨hreached.stage.kind, by rw [has, List.map_append, htwigs, hafter]⟩

end MailMerge
