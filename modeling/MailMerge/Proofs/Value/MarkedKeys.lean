/-
  MailMerge.Proofs.Value.MarkedKeys — the maps of a context with their marked keys read.

  Maps are sorted. Reading them takes the mark off each key that has it, and a map is built
  again of what comes out, in the order of the old keys, so of two entries whose keys become
  one the later stays: a plain key in front of its marked namesake gives way, and one behind
  it displaces it.

  Proved: at every depth of maps and lists below which nothing was displaced, a map is read
  entry by entry, and nothing else gets into it (`marked_keys_read`). A marked string can be
  lost to a plain value (`displaced_by_plain`).
-/

import Mathlib
import MailMerge.Environment

namespace MailMerge

namespace Entries

instance (entries : Entries) : Decidable entries.Sorted :=
  inferInstanceAs (Decidable (entries.Pairwise fun a b => a.1 < b.1))

theorem lookup_cons (key : String) (value : Value) (entries : Entries) (k : String) :
    List.lookup k ((key, value) :: entries) = if k = key then some value else entries.lookup k := by
  rw [List.lookup_cons]
  by_cases hk : k = key
  · rw [if_pos hk, hk, beq_self_eq_true]
  · rw [if_neg hk, beq_false_of_ne hk]

theorem lookup_insert (key : String) (value : Value) (entries : Entries) (k : String) :
    (insert key value entries).lookup k = if k = key then some value else entries.lookup k := by
  induction entries with
  | nil => rw [insert, lookup_cons]
  | cons e rest ih =>
    obtain ⟨key', v⟩ := e
    rw [insert]
    by_cases hlt : key < key'
    · rw [if_pos hlt, lookup_cons]
    by_cases heq : key = key'
    · rw [if_neg hlt, if_pos heq, lookup_cons, lookup_cons, ← heq]
      by_cases hk : k = key <;> simp only [hk, if_true, if_false]
    · rw [if_neg hlt, if_neg heq, lookup_cons, lookup_cons, ih]
      by_cases hk : k = key
      · rw [if_pos hk, if_pos hk, if_neg fun hk' => heq (hk.symm.trans hk')]
      · rw [if_neg hk, if_neg hk]

theorem mem_insert {key : String} {value : Value} {entries : Entries} {e : String × Value} (he : e ∈ insert key value entries) :
    e = (key, value) ∨ e ∈ entries := by
  induction entries with
  | nil => simpa [insert] using he
  | cons e' rest ih =>
    rw [insert] at he
    split_ifs at he
    · simpa using he
    · simp only [List.mem_cons] at he ⊢
      tauto
    · rcases List.mem_cons.mp he with he | he
      · exact .inr (List.mem_cons.mpr (.inl he))
      · exact (ih he).imp_right (List.mem_cons_of_mem e')

theorem Sorted.insert {entries : Entries} (h : entries.Sorted) (key : String) (value : Value) :
    (Entries.insert key value entries).Sorted := by
  induction entries with
  | nil => exact List.pairwise_singleton _ _
  | cons e rest ih =>
    obtain ⟨hhead, hrest⟩ := List.pairwise_cons.mp h
    obtain ⟨k, v⟩ := e
    rw [Entries.insert]
    by_cases hlt : key < k
    · rw [if_pos hlt]
      refine List.pairwise_cons.mpr ⟨fun e he => ?_, h⟩
      rcases List.mem_cons.mp he with rfl | he
      · exact hlt
      · exact hlt.trans (hhead e he)
    by_cases heq : key = k
    · rw [if_neg hlt, if_pos heq, heq]
      exact List.pairwise_cons.mpr ⟨hhead, hrest⟩
    · rw [if_neg hlt, if_neg heq]
      refine List.pairwise_cons.mpr ⟨fun e he => ?_, ih hrest⟩
      rcases mem_insert he with rfl | he
      · exact lt_of_le_of_ne (not_lt.mp hlt) (Ne.symm heq)
      · exact hhead e he

theorem ofPairs_concat (pairs : List (String × Value)) (e : String × Value) :
    ofPairs (pairs ++ [e]) = insert e.1 e.2 (ofPairs pairs) := by
  rw [ofPairs, List.foldl_append]
  rfl

theorem sorted_ofPairs (pairs : List (String × Value)) : (ofPairs pairs).Sorted := by
  induction pairs using List.reverseRecOn with
  | nil => exact List.Pairwise.nil
  | append_singleton pairs e ih =>
    rw [ofPairs_concat]
    exact ih.insert e.1 e.2

theorem lookup_ofPairs (pairs : List (String × Value)) (k : String) : (ofPairs pairs).lookup k = pairs.reverse.lookup k := by
  induction pairs using List.reverseRecOn with
  | nil => rfl
  | append_singleton pairs e ih =>
    rw [ofPairs_concat, lookup_insert, List.reverse_append, List.reverse_singleton, List.singleton_append, lookup_cons, ih]

theorem exists_mem_of_lookup_ofPairs {pairs : List (String × Value)} {k : String} {v : Value}
    (h : (ofPairs pairs).lookup k = some v) : (k, v) ∈ pairs := by
  rw [lookup_ofPairs] at h
  obtain ⟨l, l', hcut, -⟩ := List.lookup_eq_some_iff.mp h
  exact List.mem_reverse.mp (hcut ▸ List.mem_append_right l List.mem_cons_self)

end Entries

namespace Value

/-! ## Keys -/

/-- The key under which the entry of a key is read. -/
def readKey (key : String) : String := (unmarked? key).getD key

theorem unmarked?_eq_some {key k : String} : unmarked? key = some k ↔ key = "word_ml:" ++ k := by
  rw [unmarked?, Option.map_eq_some_iff]
  constructor
  · rintro ⟨cs, hcs, rfl⟩
    have hkey := Text.after?_eq_some_iff.mp hcs
    rw [← String.toList_inj, String.toList_append, hkey]
    simp [markupMark]
  · rintro rfl
    refine ⟨k.toList, Text.after?_eq_some_iff.mpr ?_, String.ofList_toList⟩
    rw [String.toList_append]
    rfl

theorem unmarked?_marked (k : String) : unmarked? ("word_ml:" ++ k) = some k := unmarked?_eq_some.mpr rfl

theorem readKey_eq {key k : String} (h : readKey key = k) : key = "word_ml:" ++ k ∨ unmarked? k = none ∧ key = k := by
  rw [readKey] at h
  cases hu : unmarked? key with
  | none =>
    rw [hu] at h
    obtain rfl : key = k := h
    exact .inr ⟨hu, rfl⟩
  | some k' =>
    rw [hu] at h
    obtain rfl : k' = k := h
    exact .inl (unmarked?_eq_some.mp hu)

theorem ne_marked (k : String) : k ≠ "word_ml:" ++ k := by
  intro h
  have hlength := congrArg String.length h
  rw [String.length_append] at hlength
  have hmark : "word_ml:".length = 8 := rfl
  omega

/-! ## Values at a depth -/

/-- A step down into a value: to what a map has under a key, or to an item of a list. -/
inductive Step where
  | key (name : String)
  | item (i : Nat)

def Step.read : Step → Step
  | .key name => .key (readKey name)
  | .item i => .item i

def follow? : Value → List Step → Option Value
  | v, [] => some v
  | map entries, .key name :: path => (entries.lookup name).bind (follow? · path)
  | list items, .item i :: path => items[i]?.bind (follow? · path)
  | _, _ :: _ => none

mutual

/-- All maps in maps and lists are sorted. -/
def Ordered : Value → Prop
  | map entries => Entries.Sorted entries ∧ OrderedEntries entries
  | list items => OrderedItems items
  | _ => True

def OrderedItems : List Value → Prop
  | [] => True
  | item :: items => Ordered item ∧ OrderedItems items

def OrderedEntries : List (String × Value) → Prop
  | [] => True
  | (_, value) :: entries => Ordered value ∧ OrderedEntries entries

end

theorem Ordered.of_lookup {entries : Entries} (h : OrderedEntries entries) {key : String} {v : Value}
    (hv : entries.lookup key = some v) : v.Ordered := by
  induction entries with
  | nil => cases hv
  | cons e rest ih =>
    rw [List.lookup_cons] at hv
    split at hv
    · cases hv
      exact h.1
    · exact ih h.2 hv

theorem Ordered.of_getElem? {items : List Value} (h : OrderedItems items) {i : Nat} {v : Value} (hv : items[i]? = some v) :
    v.Ordered := by
  induction items generalizing i with
  | nil => cases hv
  | cons item rest ih =>
    cases i with
    | zero =>
      cases hv
      exact h.1
    | succ i => exact ih h.2 hv

/-! ## Reading a map -/

/-- What a map has under a key that has no mark. -/
def plain? (entries : Entries) (k : String) : Option Value := if unmarked? k = none then entries.lookup k else none

/-- The entry of a key is not displaced: of a plain key and its marked namesake the one that
    is later in key order stays. -/
def Stays (entries : Entries) (key : String) : Prop :=
  match unmarked? key with
  | some k => plain? entries k = none ∨ k < key
  | none => entries.lookup ("word_ml:" ++ key) = none ∨ "word_ml:" ++ key < key

/-- How a value is read that stands under a marked key. -/
def readMarked : Value → Value
  | string source => content (.markup source)
  | v => readMarkupKeys v

/-- The entries of one map are the entries of the other, read. -/
structure ReadFrom (entries read : Entries) : Prop where
  sorted : read.Sorted
  marked : ∀ k v, entries.lookup ("word_ml:" ++ k) = some v → Stays entries ("word_ml:" ++ k) → read.lookup k = some (readMarked v)
  plain : ∀ k v, plain? entries k = some v → Stays entries k → read.lookup k = some (readMarkupKeys v)
  /-- Every key comes from an entry that stays. -/
  only : ∀ k w, read.lookup k = some w → (∃ v, entries.lookup ("word_ml:" ++ k) = some v ∧ Stays entries ("word_ml:" ++ k)) ∨
    ∃ v, plain? entries k = some v ∧ Stays entries k

theorem plain?_eq_some {entries : Entries} {k : String} {v : Value} :
    plain? entries k = some v ↔ unmarked? k = none ∧ entries.lookup k = some v := by
  rw [plain?]
  split_ifs with hu <;> simp [hu]

theorem readMarkedEntries_eq (entries : List (String × Value)) :
    readMarkedEntries entries = entries.map fun e => readMarkedEntry e.1 e.2 (readMarkupKeys e.2) := by
  induction entries with
  | nil => rfl
  | cons e rest ih => rw [readMarkedEntries, ih, List.map_cons]

theorem readMarkedEntry_key (key : String) (old new : Value) : (readMarkedEntry key old new).1 = readKey key := by
  rw [readMarkedEntry, readKey]
  cases unmarked? key with
  | none => rfl
  | some k => cases old <;> rfl

theorem readMarkedEntry_marked (k : String) (v : Value) :
    (readMarkedEntry ("word_ml:" ++ k) v (readMarkupKeys v)).2 = readMarked v := by
  rw [readMarkedEntry, unmarked?_marked]
  cases v <;> rfl

theorem readMarkedEntry_plain {k : String} (hk : unmarked? k = none) (v : Value) :
    (readMarkedEntry k v (readMarkupKeys v)).2 = readMarkupKeys v := by
  rw [readMarkedEntry, hk]

/-- The last of the keys that are read as one key is a key that stays. -/
theorem le_of_stays {entries : Entries} {key : String} (hs : Stays entries key) {j : String} {v : Value}
    (hj : entries.lookup j = some v) (he : readKey j = readKey key) : j ≤ key := by
  rw [Stays] at hs
  cases hu : unmarked? key with
  | some k =>
    rw [hu] at hs
    rw [readKey.eq_1 key, hu, Option.getD_some] at he
    rw [unmarked?_eq_some.mp hu] at hs ⊢
    rcases readKey_eq he with rfl | ⟨hplain, rfl⟩
    · exact le_refl _
    · rcases hs with hs | hs
      · rw [plain?_eq_some.mpr ⟨hplain, hj⟩] at hs
        cases hs
      · exact hs.le
  | none =>
    rw [hu] at hs
    rw [readKey.eq_1 key, hu, Option.getD_none] at he
    rcases readKey_eq he with rfl | ⟨-, rfl⟩
    · rcases hs with hs | hs
      · rw [hj] at hs
        cases hs
      · exact hs.le
    · exact le_refl _

/-- The entry of a key that stays is the last that is read under its key. -/
theorem lookup_of_stays {entries : Entries} (h : entries.Sorted) {key : String} {v : Value} (hv : entries.lookup key = some v)
    (hs : Stays entries key) :
    (readMarkedContext entries).lookup (readKey key) = some (readMarkedEntry key v (readMarkupKeys v)).2 := by
  obtain ⟨before, after, hcut, hfront⟩ := List.lookup_eq_some_iff.mp hv
  have hafter : ∀ e ∈ after, readKey key ≠ readKey e.1 := by
    intro e he hsame
    have hlt : key < e.1 := by
      rw [hcut] at h
      exact (List.pairwise_cons.mp (List.pairwise_append.mp h).2.1).1 e he
    have hother : entries.lookup e.1 ≠ none := by
      intro hnone
      have hne := List.lookup_eq_none_iff.mp hnone e (hcut ▸ List.mem_append_right before (List.mem_cons_of_mem _ he))
      exact bne_iff_ne.mp hne rfl
    obtain ⟨w, hw⟩ := Option.ne_none_iff_exists'.mp hother
    exact absurd (le_of_stays hs hw hsame.symm) (not_le.mpr hlt)
  rw [readMarkedContext, Entries.lookup_ofPairs, readMarkedEntries_eq, hcut, List.map_append, List.map_cons, List.reverse_append,
    List.reverse_cons, List.append_assoc, List.lookup_append]
  have hnone : (after.map fun e => readMarkedEntry e.1 e.2 (readMarkupKeys e.2)).reverse.lookup (readKey key) = none := by
    refine List.lookup_eq_none_iff.mpr fun x hx => bne_iff_ne.mpr ?_
    obtain ⟨e, he, rfl⟩ := List.mem_map.mp (List.mem_reverse.mp hx)
    rw [readMarkedEntry_key]
    exact hafter e he
  rw [hnone, Option.none_or, List.singleton_append, ← readMarkedEntry_key key v (readMarkupKeys v), List.lookup_cons_self]

theorem stays_of_marked {entries : Entries} {k : String} (h : plain? entries k = none ∨ k < "word_ml:" ++ k) :
    Stays entries ("word_ml:" ++ k) := by
  rw [Stays, unmarked?_marked]
  exact h

theorem stays_of_plain {entries : Entries} {k : String} (hk : unmarked? k = none)
    (h : entries.lookup ("word_ml:" ++ k) = none ∨ "word_ml:" ++ k < k) : Stays entries k := by
  rw [Stays, hk]
  exact h

theorem stays_or_stays (entries : Entries) {k : String} (hk : unmarked? k = none) :
    Stays entries ("word_ml:" ++ k) ∨ Stays entries k := by
  rcases lt_or_gt_of_ne (ne_marked k) with hlt | hlt
  · exact .inl (stays_of_marked (.inr hlt))
  · exact .inr (stays_of_plain hk (.inr hlt))

theorem readFrom_readMarkedContext {entries : Entries} (h : entries.Sorted) : ReadFrom entries (readMarkedContext entries) where
  sorted := Entries.sorted_ofPairs _
  marked k v hv hs := by
    have hread := lookup_of_stays h hv hs
    rwa [readKey, unmarked?_marked, Option.getD_some, readMarkedEntry_marked] at hread
  plain k v hv hs := by
    obtain ⟨hk, hv⟩ := plain?_eq_some.mp hv
    have hread := lookup_of_stays h hv hs
    rwa [readKey, hk, Option.getD_none, readMarkedEntry_plain hk] at hread
  only k w hw := by
    have hmem := Entries.exists_mem_of_lookup_ofPairs hw
    rw [readMarkedEntries_eq] at hmem
    obtain ⟨e, he, heq⟩ := List.mem_map.mp hmem
    have hkey : readKey e.1 = k := by
      rw [← readMarkedEntry_key e.1 e.2 (readMarkupKeys e.2), heq]
    have hthere : entries.lookup e.1 ≠ none := by
      intro hnone
      exact bne_iff_ne.mp (List.lookup_eq_none_iff.mp hnone e he) rfl
    obtain ⟨v, hv⟩ := Option.ne_none_iff_exists'.mp hthere
    by_cases hm : entries.lookup ("word_ml:" ++ k) = none
    · rcases readKey_eq hkey with hmarked | ⟨hk, hsame⟩
      · rw [hmarked, hm] at hv
        cases hv
      · rw [hsame] at hv
        exact .inr ⟨v, plain?_eq_some.mpr ⟨hk, hv⟩, stays_of_plain hk (.inl hm)⟩
    obtain ⟨u, hu⟩ := Option.ne_none_iff_exists'.mp hm
    by_cases hp : plain? entries k = none
    · exact .inl ⟨u, hu, stays_of_marked (.inl hp)⟩
    · obtain ⟨p, hp⟩ := Option.ne_none_iff_exists'.mp hp
      obtain hs | hs := stays_or_stays entries (plain?_eq_some.mp hp).1
      · exact .inl ⟨u, hu, hs⟩
      · exact .inr ⟨p, hp, hs⟩

/-! ## Reading a context -/

/-- The path leads to `w` over entries that stay. -/
inductive LeadsTo : Value → List Step → Value → Prop
  | here (v : Value) : LeadsTo v [] v
  | entry {entries : Entries} {name : String} {v w : Value} {path : List Step} :
      entries.lookup name = some v → Stays entries name → LeadsTo v path w → LeadsTo (map entries) (.key name :: path) w
  | item {items : List Value} {i : Nat} {v w : Value} {path : List Step} :
      items[i]? = some v → LeadsTo v path w → LeadsTo (list items) (.item i :: path) w

theorem LeadsTo.ordered {v w : Value} {path : List Step} (h : LeadsTo v path w) (hv : v.Ordered) : w.Ordered := by
  induction h with
  | here v => exact hv
  | entry hlookup _ _ ih => exact ih (.of_lookup hv.2 hlookup)
  | item hitem _ ih => exact ih (.of_getElem? hv hitem)

theorem readMarkedItems_eq (items : List Value) : readMarkedItems items = items.map readMarkupKeys := by
  induction items with
  | nil => rfl
  | cons item rest ih => rw [readMarkedItems, ih, List.map_cons]

/-- A marked string is at the end of each path that comes to it. -/
theorem LeadsTo.eq_string {w : Value} {path : List Step} {s : String} (h : LeadsTo (string s) path w) : w = string s := by
  cases h
  rfl

theorem readMarkedEntry_of_leadsTo {name : String} {v : Value} {path : List Step} {entries : Entries}
    (h : LeadsTo v path (map entries)) : (readMarkedEntry name v (readMarkupKeys v)).2 = readMarkupKeys v := by
  cases hu : unmarked? name with
  | none => exact readMarkedEntry_plain hu v
  | some k =>
    rw [unmarked?_eq_some.mp hu, readMarkedEntry_marked]
    cases v with
    | string s => cases h.eq_string
    | _ => rfl

/-- Where a map stands, there stands the map that is read from it. -/
theorem LeadsTo.follow?_read {v : Value} {path : List Step} {entries : Entries} (h : LeadsTo v path (map entries))
    (hv : v.Ordered) : (readMarkupKeys v).follow? (path.map Step.read) = some (map (readMarkedContext entries)) := by
  generalize hw : map entries = w at h
  induction h with
  | here v =>
    subst hw
    rfl
  | @entry outer name v w path hlookup hstays hrest ih =>
    subst hw
    have hread := lookup_of_stays hv.1 hlookup hstays
    rw [readMarkedEntry_of_leadsTo hrest] at hread
    have hmap : readMarkupKeys (map outer) = map (readMarkedContext outer) := rfl
    rw [hmap, List.map_cons, Step.read, follow?, hread, Option.bind_some]
    exact ih (.of_lookup hv.2 hlookup) rfl
  | @item items i v w path hitem hrest ih =>
    have hread : (readMarkedItems items)[i]? = some (readMarkupKeys v) := by
      rw [readMarkedItems_eq, List.getElem?_map, hitem, Option.map_some]
    rw [readMarkupKeys, List.map_cons, Step.read, follow?, hread, Option.bind_some]
    exact ih (.of_getElem? hv hitem) hw

end Value

open Value

/-- The maps of an environment are read from the maps of its context. Under a key are the
    marked string as markup, or else the marked value or the plain one with its own keys read;
    where both keys are there the one that is later in key order decides. -/
theorem marked_keys_read {context : Entries} (h : (Value.map context).Ordered) (policy : Policy) (media : Media) {path : List Step}
    {entries : Entries} (hpath : LeadsTo (.map context) path (.map entries)) :
    ∃ read, (Value.map (Environment.new context policy media).context).follow? (path.map Step.read) = some (.map read) ∧
      ReadFrom entries read :=
  ⟨readMarkedContext entries, hpath.follow?_read h, readFrom_readMarkedContext (hpath.ordered h).1⟩

namespace Displacing

/-- A biography as markup and as a text, of which the markup is later, in a list, and two
    entries of one name of which the plain one is later. -/
def context : Entries := [("people", .list [.map [("bio", .string "born"), ("word_ml:bio", .string "<w:p/>")]]),
  ("word_ml:x", .string "<w:p/>"), ("x", .integer 1)]

theorem ordered : (Value.map context).Ordered := by
  refine ⟨by decide, ⟨⟨by decide, trivial, trivial, trivial⟩, trivial⟩, trivial, trivial, trivial⟩

end Displacing

open Displacing in
/-- The later markup takes the place of the text. -/
theorem marked_entry_read : ∃ read, (Value.map (Environment.new context .lenient .empty).context).follow? [.key "people", .item 0] =
    some (.map read) ∧ read.lookup "bio" = some (.content (.markup "<w:p/>")) := by
  have hpath : LeadsTo (.map context) [.key "people", .item 0]
      (.map [("bio", .string "born"), ("word_ml:bio", .string "<w:p/>")]) :=
    .entry (by rfl) (.inl rfl) (.item rfl (.here _))
  obtain ⟨read, hread, hfrom⟩ := marked_keys_read ordered .lenient .empty hpath
  exact ⟨read, hread, hfrom.marked "bio" (.string "<w:p/>") rfl (.inr (by decide))⟩

open Displacing in
/-- A plain key that is later than its marked namesake displaces the markup. -/
theorem displaced_by_plain : context.Sorted ∧ context.lookup ("word_ml:" ++ "x") = some (.string "<w:p/>") ∧
    (Environment.new context .lenient .empty).context.lookup "x" = some (.integer 1) :=
  ⟨by decide, rfl, rfl⟩

end MailMerge
