/-
  MailMerge.Proofs.Directive.Table — a registry through a history of calls.

  A call registers, replaces or removes a handler under a name, or sets the fallback. A history
  starts at the empty registry or at the stock one, and a registration that fails leaves the
  registry as it was.

  Proved: behind every history the names are distinct, each call does to the table what its
  name says, and an expression is read by the first entry that accepts it (`table_run`). The
  order of the names and the handler of each are told by the history alone: a handler that is
  replaced keeps its place, and a name that is removed and added again is at the end
  (`readded_last`).
-/

import Mathlib
import MailMerge.Directive.Registry

namespace MailMerge

namespace Registry

inductive Call where
  | register (name : String) (h : Handler)
  | replace (name : String) (h : Handler)
  | remove (name : String)
  | setFallback (h : Option Handler)

namespace Call

def apply (r : Registry) : Call → Registry
  | .register name h =>
    match r.register name h with
    | .ok s => s
    | .error _ => r
  | .replace name h => (r.replace name h).2
  | .remove name => (r.remove name).2
  | .setFallback h => (r.setFallback h).2

/-- The order of the names behind a call, of the names before it. -/
def reorder (names : List String) : Call → List String
  | .register name _ => if name ∈ names then names else names ++ [name]
  | .replace name _ => if name ∈ names then names else names ++ [name]
  | .remove name => names.erase name
  | .setFallback _ => names

/-- The handler of a name behind a call, of the one it had before. -/
def settle (name : String) (held : Option Handler) : Call → Option Handler
  | .register n h => if n = name then held <|> some h else held
  | .replace n h => if n = name then some h else held
  | .remove n => if n = name then none else held
  | .setFallback _ => held

/-- The fallback behind a call, of the one before it. -/
def refit (held : Option Handler) : Call → Option Handler
  | .setFallback h => h
  | _ => held

/-- A call that neither replaces nor removes what stands under the names. -/
def Spares (names : List String) : Call → Prop
  | .register _ _ => True
  | .replace name _ => name ∉ names
  | .remove name => name ∉ names
  | .setFallback _ => True

end Call

def run (r : Registry) (calls : List Call) : Registry := calls.foldl Call.apply r

theorem run_cons (r : Registry) (c : Call) (calls : List Call) : r.run (c :: calls) = (c.apply r).run calls := rfl

variable {r : Registry} {name : String} {g h : Handler} {before after : List (String × Handler)}

/-! ## A table with distinct names -/

theorem exists_cut_of_mem_names (hm : name ∈ r.names) : ∃ before g after, r.handlers = before ++ (name, g) :: after := by
  obtain ⟨⟨n, g⟩, hin, hn⟩ := List.mem_map.mp hm
  obtain ⟨before, after, hc⟩ := List.append_of_mem hin
  obtain rfl : n = name := hn
  exact ⟨before, g, after, hc⟩

/-- Of distinct names the one at a cut is in front of the cut no more, nor behind it. -/
theorem not_mem_of_cut (hd : r.names.Nodup) (hc : r.handlers = before ++ (name, g) :: after) :
    name ∉ before.map (·.1) ∧ name ∉ after.map (·.1) := by
  rw [names, hc, List.map_append, List.map_cons, List.nodup_append, List.nodup_cons] at hd
  obtain ⟨-, ⟨hbehind, -⟩, hfront⟩ := hd
  exact ⟨fun hm => hfront name hm name List.mem_cons_self rfl, hbehind⟩

theorem lookup_of_not_mem (l : List (String × Handler)) (hm : name ∉ l.map (·.1)) : l.lookup name = none := by
  refine List.lookup_eq_none_iff.mpr fun x hx => bne_iff_ne.mpr ?_
  intro he
  exact hm (he ▸ List.mem_map_of_mem hx)

theorem lookup_append_of_not_mem (l l' : List (String × Handler)) (hm : name ∉ l.map (·.1)) :
    (l ++ l').lookup name = l'.lookup name := by
  rw [List.lookup_append, lookup_of_not_mem l hm, Option.none_or]

theorem handler?_of_cut (hd : r.names.Nodup) (hc : r.handlers = before ++ (name, g) :: after) : r.handler? name = some g := by
  rw [handler?, hc, lookup_append_of_not_mem before _ (not_mem_of_cut hd hc).1, List.lookup_cons_self]

theorem handler?_of_not_mem (hm : name ∉ r.names) : r.handler? name = none := lookup_of_not_mem r.handlers hm

theorem put_append (l : List (String × Handler)) (hm : name ∉ l.map (·.1)) (l' : List (String × Handler)) :
    replace.put name h (l ++ l') = l ++ replace.put name h l' := by
  induction l with
  | nil => rfl
  | cons x rest ih =>
    rw [List.map_cons, List.mem_cons, not_or] at hm
    rw [List.cons_append, replace.put, if_neg (Ne.symm hm.1), ih hm.2, List.cons_append]

theorem replace_of_cut (hd : r.names.Nodup) (hc : r.handlers = before ++ (name, g) :: after) (h : Handler) :
    r.replace name h = (some g, ⟨before ++ (name, h) :: after, r.fallback⟩) := by
  rw [replace, handler?_of_cut hd hc, hc, put_append before (not_mem_of_cut hd hc).1, replace.put, if_pos rfl]

theorem replace_of_not_mem (hm : name ∉ r.names) (h : Handler) :
    r.replace name h = (none, ⟨r.handlers ++ [(name, h)], r.fallback⟩) := by
  have hput := put_append (h := h) r.handlers hm []
  rw [List.append_nil] at hput
  rw [replace, handler?_of_not_mem hm, hput, replace.put]

theorem remove_of_cut (hd : r.names.Nodup) (hc : r.handlers = before ++ (name, g) :: after) :
    r.remove name = (some g, ⟨before ++ after, r.fallback⟩) := by
  have hfront : ∀ x ∈ before, ¬ (x.1 == name) = true := by
    intro x hx he
    exact (not_mem_of_cut hd hc).1 (beq_iff_eq.mp he ▸ List.mem_map_of_mem hx)
  rw [remove, handler?_of_cut hd hc, hc, List.eraseP_append_right _ hfront, List.eraseP_cons_of_pos (by exact beq_self_eq_true name)]

theorem remove_of_not_mem (hm : name ∉ r.names) : r.remove name = (none, r) := by
  have hkept : r.handlers.eraseP (·.1 == name) = r.handlers := by
    refine List.eraseP_of_forall_not fun x hx he => ?_
    exact hm (beq_iff_eq.mp he ▸ List.mem_map_of_mem hx)
  rw [remove, handler?_of_not_mem hm, hkept]

theorem register_of_mem (hm : name ∈ r.names) (h : Handler) : r.register name h = .error (.duplicate name) := by
  rw [register, if_pos (List.contains_iff_mem.mpr hm)]

theorem register_of_not_mem (hm : name ∉ r.names) (h : Handler) :
    r.register name h = .ok ⟨r.handlers ++ [(name, h)], r.fallback⟩ := by
  rw [register, if_neg (mt List.contains_iff_mem.mp hm)]

/-! ## A call -/

namespace Call

theorem apply_register_of_mem (hm : name ∈ r.names) : (Call.register name h).apply r = r := by
  rw [apply, register_of_mem hm]

theorem apply_register_of_not_mem (hm : name ∉ r.names) :
    (Call.register name h).apply r = ⟨r.handlers ++ [(name, h)], r.fallback⟩ := by
  rw [apply, register_of_not_mem hm]

theorem names_apply (hd : r.names.Nodup) (c : Call) : (c.apply r).names = c.reorder r.names := by
  have hadded : ∀ name h, (⟨r.handlers ++ [(name, h)], r.fallback⟩ : Registry).names = r.names ++ [name] := by
    intro name h
    rw [names, List.map_append]
    rfl
  cases c with
  | register name h =>
    by_cases hm : name ∈ r.names
    · rw [apply_register_of_mem hm, reorder, if_pos hm]
    · rw [apply_register_of_not_mem hm, hadded, reorder, if_neg hm]
  | replace name h =>
    by_cases hm : name ∈ r.names
    · obtain ⟨before, g, after, hc⟩ := exists_cut_of_mem_names hm
      rw [apply, replace_of_cut hd hc, reorder, if_pos hm, names, names, hc, List.map_append, List.map_append]
      rfl
    · rw [apply, replace_of_not_mem hm, hadded, reorder, if_neg hm]
  | remove name =>
    by_cases hm : name ∈ r.names
    · obtain ⟨before, g, after, hc⟩ := exists_cut_of_mem_names hm
      rw [apply, remove_of_cut hd hc, reorder, names, names, hc, List.map_append, List.map_append, List.map_cons,
        List.erase_append_right _ (not_mem_of_cut hd hc).1, List.erase_cons_head]
    · rw [apply, remove_of_not_mem hm, reorder, List.erase_of_not_mem hm]
  | setFallback h => rfl

theorem nodup_reorder {names : List String} (hd : names.Nodup) (c : Call) : (c.reorder names).Nodup := by
  have hadded : ∀ name, (if name ∈ names then names else names ++ [name]).Nodup := by
    intro name
    by_cases hm : name ∈ names
    · rw [if_pos hm]
      exact hd
    · rw [if_neg hm]
      exact List.nodup_append.mpr ⟨hd, List.nodup_singleton name, fun x hx y hy he => hm (by simp_all)⟩
  cases c with
  | register name _ => exact hadded name
  | replace name _ => exact hadded name
  | remove name => exact hd.erase name
  | setFallback _ => exact hd

theorem nodup_apply (hd : r.names.Nodup) (c : Call) : (c.apply r).names.Nodup := by
  rw [names_apply hd]
  exact nodup_reorder hd c

theorem handler?_added (hm : name ∉ r.names) (n : String) :
    (⟨r.handlers ++ [(name, h)], r.fallback⟩ : Registry).handler? n = if name = n then some h else r.handler? n := by
  rw [handler?, handler?, List.lookup_append]
  by_cases he : name = n
  · rw [if_pos he, ← he, lookup_of_not_mem r.handlers hm, Option.none_or, List.lookup_cons_self]
  · rw [if_neg he, List.lookup_cons, beq_false_of_ne (Ne.symm he), List.lookup_nil, Option.or_none]

theorem handler?_apply (hd : r.names.Nodup) (c : Call) (n : String) :
    (c.apply r).handler? n = c.settle n (r.handler? n) := by
  cases c with
  | register name h =>
    by_cases hm : name ∈ r.names
    · obtain ⟨before, g, after, hc⟩ := exists_cut_of_mem_names hm
      rw [apply_register_of_mem hm, settle]
      by_cases he : name = n
      · rw [if_pos he, ← he, handler?_of_cut hd hc]
        rfl
      · rw [if_neg he]
    · rw [apply_register_of_not_mem hm, handler?_added hm, settle]
      by_cases he : name = n
      · rw [if_pos he, if_pos he, ← he, handler?_of_not_mem hm]
        rfl
      · rw [if_neg he, if_neg he]
  | replace name h =>
    by_cases hm : name ∈ r.names
    · obtain ⟨before, g, after, hc⟩ := exists_cut_of_mem_names hm
      rw [apply, replace_of_cut hd hc, settle, handler?, handler?, hc]
      by_cases he : name = n
      · rw [if_pos he, ← he, lookup_append_of_not_mem before _ (not_mem_of_cut hd hc).1, List.lookup_cons_self]
      · rw [if_neg he, List.lookup_append, List.lookup_append, List.lookup_cons, List.lookup_cons,
          beq_false_of_ne (Ne.symm he)]
    · rw [apply, replace_of_not_mem hm, handler?_added hm, settle]
  | remove name =>
    by_cases hm : name ∈ r.names
    · obtain ⟨before, g, after, hc⟩ := exists_cut_of_mem_names hm
      obtain ⟨hfront, hbehind⟩ := not_mem_of_cut hd hc
      rw [apply, remove_of_cut hd hc, settle, handler?, handler?, hc]
      by_cases he : name = n
      · rw [if_pos he, ← he, lookup_append_of_not_mem before _ hfront, lookup_of_not_mem after hbehind]
      · rw [if_neg he, List.lookup_append, List.lookup_append, List.lookup_cons, beq_false_of_ne (Ne.symm he)]
    · rw [apply, remove_of_not_mem hm, settle]
      by_cases he : name = n
      · rw [if_pos he, ← he, handler?_of_not_mem hm]
      · rw [if_neg he]
  | setFallback h => rfl

theorem fallback_apply (r : Registry) (c : Call) : (c.apply r).fallback = c.refit r.fallback := by
  cases c with
  | register name h =>
    by_cases hm : name ∈ r.names
    · rw [apply_register_of_mem hm]
      rfl
    · rw [apply_register_of_not_mem hm]
      rfl
  | replace name h => rfl
  | remove name => rfl
  | setFallback h => rfl

/-- A call leaves all that it spares at the front of the table. -/
theorem handlers_apply_of_spares (hd : r.names.Nodup) {front rest : List (String × Handler)} (hc : r.handlers = front ++ rest)
    {c : Call} (hs : c.Spares (front.map (·.1))) : ∃ rest', (c.apply r).handlers = front ++ rest' := by
  have hbehind : ∀ {name}, name ∈ r.names → name ∉ front.map (·.1) →
      ∃ before g after, r.handlers = front ++ before ++ (name, g) :: after := by
    intro name hm hout
    rw [names, hc, List.map_append, List.mem_append] at hm
    obtain ⟨⟨n, g⟩, hin, hn⟩ := List.mem_map.mp (hm.resolve_left hout)
    obtain ⟨before, after, hrest⟩ := List.append_of_mem hin
    obtain rfl : n = name := hn
    exact ⟨before, g, after, by rw [hc, hrest, List.append_assoc]⟩
  cases c with
  | register name h =>
    by_cases hm : name ∈ r.names
    · exact ⟨rest, by rw [apply_register_of_mem hm, hc]⟩
    · exact ⟨rest ++ [(name, h)], by rw [apply_register_of_not_mem hm, hc, List.append_assoc]⟩
  | replace name h =>
    by_cases hm : name ∈ r.names
    · obtain ⟨before, g, after, hcut⟩ := hbehind hm hs
      exact ⟨before ++ (name, h) :: after, by rw [apply, replace_of_cut hd hcut, List.append_assoc]⟩
    · exact ⟨rest ++ [(name, h)], by rw [apply, replace_of_not_mem hm, hc, List.append_assoc]⟩
  | remove name =>
    by_cases hm : name ∈ r.names
    · obtain ⟨before, g, after, hcut⟩ := hbehind hm hs
      exact ⟨before ++ after, by rw [apply, remove_of_cut hd hcut, List.append_assoc]⟩
    · exact ⟨rest, by rw [apply, remove_of_not_mem hm, hc]⟩
  | setFallback h => exact ⟨rest, hc⟩

end Call

/-! ## A history -/

theorem nodup_run (hd : r.names.Nodup) (calls : List Call) : (r.run calls).names.Nodup := by
  induction calls generalizing r with
  | nil => exact hd
  | cons c calls ih => exact ih (c.nodup_apply hd)

theorem names_run (hd : r.names.Nodup) (calls : List Call) : (r.run calls).names = calls.foldl Call.reorder r.names := by
  induction calls generalizing r with
  | nil => rfl
  | cons c calls ih => rw [run_cons, ih (c.nodup_apply hd), c.names_apply hd, List.foldl_cons]

theorem handler?_run (hd : r.names.Nodup) (calls : List Call) (name : String) :
    (r.run calls).handler? name = calls.foldl (Call.settle name) (r.handler? name) := by
  induction calls generalizing r with
  | nil => rfl
  | cons c calls ih => rw [run_cons, ih (c.nodup_apply hd), c.handler?_apply hd, List.foldl_cons]

theorem fallback_run (r : Registry) (calls : List Call) : (r.run calls).fallback = calls.foldl Call.refit r.fallback := by
  induction calls generalizing r with
  | nil => rfl
  | cons c calls ih => rw [run_cons, ih, c.fallback_apply, List.foldl_cons]

theorem handlers_run_of_spares (hd : r.names.Nodup) {front rest : List (String × Handler)} (hc : r.handlers = front ++ rest)
    (calls : List Call) (hs : ∀ c ∈ calls, c.Spares (front.map (·.1))) : ∃ rest', (r.run calls).handlers = front ++ rest' := by
  induction calls generalizing r rest with
  | nil => exact ⟨rest, hc⟩
  | cons c calls ih =>
    obtain ⟨rest', hc'⟩ := Call.handlers_apply_of_spares hd hc (hs c List.mem_cons_self)
    exact ih (c.nodup_apply hd) hc' fun d hd => hs d (List.mem_cons_of_mem c hd)

theorem handlerFor?_of_cut {e : String} (hc : r.handlers = before ++ (name, g) :: after)
    (hfront : ∀ x ∈ before, x.2.accepts e = false) (hg : g.accepts e = true) : r.handlerFor? e = some g := by
  have hnone : before.find? (fun entry => entry.2.accepts e) = none := by
    refine List.find?_eq_none.mpr fun x hx => ?_
    rw [hfront x hx]
    exact Bool.false_ne_true
  rw [handlerFor?, hc, List.find?_append, hnone, Option.none_or, List.find?_cons_of_pos (by exact hg)]
  rfl

theorem handlerFor?_of_none {e : String} (hnone : ∀ x ∈ r.handlers, x.2.accepts e = false) : r.handlerFor? e = r.fallback := by
  have hfind : r.handlers.find? (fun entry => entry.2.accepts e) = none := by
    refine List.find?_eq_none.mpr fun x hx => ?_
    rw [hnone x hx]
    exact Bool.false_ne_true
  rw [handlerFor?, hfind]
  rfl

/-- A table under distinct names: what each call answers and leaves, and what is found. -/
structure Table (r : Registry) : Prop where
  distinct : r.names.Nodup
  /-- A name that is taken is refused, and all is left as it was. -/
  refused : ∀ name h, name ∈ r.names → r.register name h = .error (.duplicate name) ∧ (Call.register name h).apply r = r
  registered : ∀ name h, name ∉ r.names → r.register name h = .ok ⟨r.handlers ++ [(name, h)], r.fallback⟩
  replaced : ∀ before name g after h, r.handlers = before ++ (name, g) :: after →
    r.replace name h = (some g, ⟨before ++ (name, h) :: after, r.fallback⟩)
  appended : ∀ name h, name ∉ r.names → r.replace name h = (none, ⟨r.handlers ++ [(name, h)], r.fallback⟩)
  removed : ∀ before name g after, r.handlers = before ++ (name, g) :: after →
    r.remove name = (some g, ⟨before ++ after, r.fallback⟩) ∧ name ∉ (r.remove name).2.names
  missed : ∀ name, name ∉ r.names → r.remove name = (none, r)
  fallback : ∀ h, r.setFallback h = (r.fallback, ⟨r.handlers, h⟩)
  /-- The first entry that accepts is the handler, and stays it whatever is done behind it. -/
  first : ∀ before name g after e, r.handlers = before ++ (name, g) :: after → (∀ x ∈ before, x.2.accepts e = false) →
    g.accepts e = true → r.handlerFor? e = some g ∧
      ∀ calls : List Call, (∀ c ∈ calls, c.Spares ((before ++ [(name, g)]).map (·.1))) → (r.run calls).handlerFor? e = some g
  unaccepted : ∀ e, (∀ x ∈ r.handlers, x.2.accepts e = false) → r.handlerFor? e = r.fallback

theorem table_of_nodup (hd : r.names.Nodup) : Table r where
  distinct := hd
  refused _ h hm := ⟨register_of_mem hm h, Call.apply_register_of_mem hm⟩
  registered _ h hm := register_of_not_mem hm h
  replaced _ _ _ _ h hc := replace_of_cut hd hc h
  appended _ h hm := replace_of_not_mem hm h
  removed before name g after hc := by
    obtain ⟨hfront, hbehind⟩ := not_mem_of_cut hd hc
    refine ⟨remove_of_cut hd hc, ?_⟩
    rw [remove_of_cut hd hc, names, List.map_append, List.mem_append, not_or]
    exact ⟨hfront, hbehind⟩
  missed _ hm := remove_of_not_mem hm
  fallback _ := rfl
  first before name g after e hc hfront hg := by
    refine ⟨handlerFor?_of_cut hc hfront hg, fun calls hs => ?_⟩
    have hcut : r.handlers = (before ++ [(name, g)]) ++ after := by rw [hc, List.append_assoc]; rfl
    obtain ⟨rest, hrest⟩ := handlers_run_of_spares hd hcut calls hs
    rw [List.append_assoc] at hrest
    exact handlerFor?_of_cut hrest hfront hg
  unaccepted _ hnone := handlerFor?_of_none hnone

theorem nodup_start (hr : r = empty ∨ r = stock) : r.names.Nodup := by
  obtain rfl | rfl := hr
  · exact List.nodup_nil
  · decide

/-- Whatever is called from the start on, the registry is a table under distinct names, whose
    names, in their order, handlers and fallback are those the history tells. -/
theorem table_run (hr : r = empty ∨ r = stock) (calls : List Call) : Table (r.run calls) ∧
    (r.run calls).names = calls.foldl Call.reorder r.names ∧
    (∀ name, (r.run calls).handler? name = calls.foldl (Call.settle name) (r.handler? name)) ∧
    (r.run calls).fallback = calls.foldl Call.refit r.fallback :=
  ⟨table_of_nodup (nodup_run (nodup_start hr) calls), names_run (nodup_start hr) calls, handler?_run (nodup_start hr) calls,
    fallback_run r calls⟩

namespace Readded

def calls : List Call := [.register "each" (.decline "mine"), .remove "each", .replace "each" (.decline "own")]

end Readded

open Readded in
/-- The name that was refused is free when it is removed, and then at the end. -/
theorem readded_last : Table (stock.run calls) ∧
    (stock.run calls).names = ["insertion", "conditional", "image", "comment", "each"] := by
  obtain ⟨htable, hnames, -⟩ := table_run (.inr rfl) calls
  exact ⟨htable, hnames.trans (by decide)⟩

end Registry

end MailMerge
