/-
  MailMerge.Proofs.Value.Reach — which contents can be reached from a value.

  From a value one comes to its members and its items, and from these to theirs. What
  cannot be reached from the names of an environment cannot be reached by any operand, nor
  by any loop.

  Proved: members, items and what operands mean reach nothing new (`reaches_member`,
  `reaches_items`, `reaches_evaluate`).
-/

import MailMerge.Evaluation

namespace MailMerge

def Content.isMarkup : Content → Bool
  | .markup _ => true
  | _ => false

namespace Value

mutual

/-- A content that satisfies `p` can be reached from the value. -/
def reaches (p : Content → Bool) : Value → Bool
  | content c => p c
  | list items => reachesIn p items
  | map entries => reachesAt p entries
  | object _ members none _ _ => reachesAt p members
  | object _ members (some items) _ _ => reachesAt p members || reachesIn p items
  | _ => false

def reachesIn (p : Content → Bool) : List Value → Bool
  | [] => false
  | v :: vs => reaches p v || reachesIn p vs

def reachesAt (p : Content → Bool) : List (String × Value) → Bool
  | [] => false
  | (_, v) :: entries => reaches p v || reachesAt p entries

end

variable {p : Content → Bool}

theorem reachesIn_eq_false {vs : List Value} : reachesIn p vs = false ↔ ∀ v ∈ vs, v.reaches p = false := by
  induction vs with
  | nil => simp [reachesIn]
  | cons v vs ih => simp [reachesIn, ih]

theorem reachesAt_eq_false {entries : List (String × Value)} :
    reachesAt p entries = false ↔ ∀ e ∈ entries, e.2.reaches p = false := by
  induction entries with
  | nil => simp [reachesAt]
  | cons e entries ih => simp [reachesAt, ih]

theorem reaches_lookup {entries : List (String × Value)} (h : reachesAt p entries = false) {name : String} {v : Value}
    (hv : entries.lookup name = some v) : v.reaches p = false := by
  induction entries with
  | nil => cases hv
  | cons e entries ih =>
    rw [reachesAt_eq_false] at h
    rw [List.lookup_cons] at hv
    split at hv
    · cases hv
      exact h e List.mem_cons_self
    · exact ih (reachesAt_eq_false.mpr fun e' he' => h e' (List.mem_cons_of_mem e he')) hv

theorem reaches_stringMember {s name : String} {v : Value} (hv : stringMember? s name = some v) : v.reaches p = false := by
  unfold stringMember? at hv
  split at hv <;> first | cases hv; rfl | cases hv

theorem reaches_listMember {items : List Value} (h : reachesIn p items = false) {name : String} {v : Value}
    (hv : listMember? items name = some v) : v.reaches p = false := by
  rw [reachesIn_eq_false] at h
  unfold listMember? at hv
  split at hv
  · cases hv; rfl
  · cases hv; rfl
  · cases hv; rfl
  · cases hv
    cases hl : items.head? with
    | none => rfl
    | some v => exact h v (List.mem_of_head? hl)
  · cases hv
    cases hl : items.getLast? with
    | none => rfl
    | some v => exact h v (List.mem_of_getLast? hl)
  · cases hv

theorem reaches_mapMember {entries : Entries} (h : reachesAt p entries = false) {name : String} {v : Value}
    (hv : mapMember? entries name = some v) : v.reaches p = false := by
  rw [reachesAt_eq_false] at h
  unfold mapMember? at hv
  split at hv
  · cases hv; rfl
  · cases hv; rfl
  · cases hv; rfl
  · cases hv
    rw [reaches, reachesIn_eq_false]
    intro v hv
    obtain ⟨e, -, rfl⟩ := List.mem_map.mp hv
    rfl
  · cases hv
    rw [reaches, reachesIn_eq_false]
    intro v hv
    obtain ⟨e, he, rfl⟩ := List.mem_map.mp hv
    exact h e he
  · cases hv

theorem reaches_member {w : Value} (h : w.reaches p = false) {name : String} {v : Value} (hv : w.member? name = some v) :
    v.reaches p = false := by
  unfold member? at hv
  split at hv
  · cases hv; rfl
  · exact reaches_stringMember hv
  · exact reaches_listMember h hv
  · next entries =>
    cases hl : entries.lookup name with
    | some u =>
      rw [hl] at hv
      cases hv
      exact reaches_lookup h hl
    | none =>
      rw [hl] at hv
      cases hm : mapMember? entries name with
      | some u =>
        rw [hm] at hv
        cases hv
        exact reaches_mapMember h hm
      | none => rw [hm] at hv; cases hv; rfl
  · next members items _ _ =>
    refine reaches_lookup ?_ hv
    cases items with
    | none => exact h
    | some items =>
      rw [reaches, Bool.or_eq_false_iff] at h
      exact h.1
  · split at hv
    · cases hv; rfl
    · cases hv

theorem reaches_items {w : Value} (h : w.reaches p = false) {items : List Value} (hi : w.enumerate? = some items) :
    ∀ v ∈ items, v.reaches p = false := by
  unfold enumerate? at hi
  split at hi
  · cases hi
    exact reachesIn_eq_false.mp h
  · cases hi
    intro v hv
    obtain ⟨e, he, rfl⟩ := List.mem_map.mp hv
    rw [reaches, reachesAt_eq_false] at h
    simp [entry, reaches, reachesAt, h e he]
  · subst hi
    rw [reaches, Bool.or_eq_false_iff] at h
    exact reachesIn_eq_false.mp h.2
  · cases hi

end Value

/-- A content that satisfies `p` can be reached from a name. -/
def Environment.reaches (p : Content → Bool) (env : Environment) : Bool :=
  Value.reachesAt p env.context || env.scopes.any (Value.reachesAt p)

namespace Environment

open Value

variable {p : Content → Bool} {env : Environment}

theorem reaches_lookup (h : env.reaches p = false) {name : String} {v : Value} (hv : env.lookup? name = some v) :
    v.reaches p = false := by
  rw [reaches, Bool.or_eq_false_iff] at h
  unfold lookup? at hv
  cases hs : env.scopes.findSome? (·.lookup name) with
  | some u =>
    rw [hs] at hv
    cases hv
    obtain ⟨scope, hmem, hl⟩ := List.exists_of_findSome?_eq_some hs
    exact Value.reaches_lookup (by simpa using List.any_eq_false.mp h.2 scope hmem) hl
  | none =>
    rw [hs] at hv
    exact Value.reaches_lookup h.1 hv

theorem reaches_evaluate (h : env.reaches p = false) {o : Operand} {v : Value} (hv : o.evaluate env = .ok v) :
    v.reaches p = false := by
  have hmembers : ∀ (names : List String) (u : Value), u.reaches p = false →
      names.foldlM (o.takeMember) u = .ok v → v.reaches p = false := by
    intro names
    induction names with
    | nil => rintro u hu ⟨⟩; exact hu
    | cons name names ih =>
      intro u hu hrun
      rw [List.foldlM_cons] at hrun
      unfold Operand.takeMember at hrun
      cases hm : u.member? name with
      | none => rw [hm] at hrun; cases hrun
      | some w => rw [hm] at hrun; exact ih w (reaches_member hu hm) hrun
  unfold Operand.evaluate Operand.lookup at hv
  cases hl : env.lookup? o.root with
  | some u =>
    rw [hl] at hv
    exact hmembers o.members u (reaches_lookup h hl) hv
  | none =>
    rw [hl] at hv
    cases hp : env.policy with
    | lenient => rw [hp] at hv; exact hmembers o.members .nil rfl hv
    | strict => rw [hp] at hv; cases hv

/-- Nor do the items of what it means. -/
theorem reaches_evaluateItems (h : env.reaches p = false) {o : Operand} {items : List Value}
    (hi : o.evaluateItems env = .ok items) : ∀ v ∈ items, v.reaches p = false := by
  simp only [Operand.evaluateItems, bind, Except.bind] at hi
  cases hv : o.evaluate env with
  | error fault => simp only [hv, reduceCtorEq] at hi
  | ok v =>
    cases hitems : v.enumerate? with
    | none => simp only [hv, hitems, reduceCtorEq] at hi
    | some found =>
      simp only [hv, hitems, Except.ok.injEq] at hi
      exact hi ▸ reaches_items (reaches_evaluate h hv) hitems

/-- Where no markup can be reached no operand means any. -/
theorem evaluate_ne_markup (h : env.reaches Content.isMarkup = false) (o : Operand) (source : String) :
    o.evaluate env ≠ .ok (.content (.markup source)) := fun he => nomatch reaches_evaluate h he

/-- The items of a loop reach no more. -/
theorem reaches_push (h : env.reaches p = false) {v : Value} (hv : v.reaches p = false) (name : String) :
    (env.push (Scope.binding name v)).reaches p = false := by
  rw [reaches, Bool.or_eq_false_iff] at h ⊢
  refine ⟨h.1, ?_⟩
  show (Value.reachesAt p [(name, v)] || env.scopes.any (Value.reachesAt p)) = false
  rw [h.2, Bool.or_false, reachesAt_eq_false]
  intro e he
  obtain rfl := List.mem_singleton.mp he
  exact hv

end Environment

end MailMerge
