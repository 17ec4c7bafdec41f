import Mathlib.Algebra.Order.BigOperators.Group.List
import Mathlib.Data.List.Perm.Subperm
import ScriptCore.Object.Keys
import ScriptCore.Proofs.Heap.Prototypes
import ScriptCore.Proofs.Object.Assignment

/-! # What a cursor lists

A cursor goes through the entries of an object, and then through those of the objects that it inherits from. It lists
the key of an entry if it has not met the key before and the property can be observed, and remembers the key in either
case. So a key is listed exactly if its nearest holder can show it. On a heap that stays as it is, a cursor comes to the
end of the chain, for each move passes an entry or an object and the heap has only so many of them.

* `Heap.observableAlong`: the keys that can be observed along a chain.
* `Heap.listing`, `listing_lineage`: what a cursor lists of the entries that it meets, and that it is this.
* `KeyCursor.Stands`, `KeyCursor.Stands.next`: where a cursor stands, and what it lists next.
* `Heap.cursorMoves_lineage`: the bound of a cursor is enough for any chain.
* `Heap.Lineage.enumerates`: **a cursor lists exactly the keys that can be observed.** -/

namespace ScriptCore

variable {h : Heap} {o q : ObjectRef} {p : Option ObjectRef} {l : List ObjectRef} {obj : Object} {key : PropertyKey}
  {cell : CellRef} {met : List PropertyKey} {es : List (PropertyKey × CellRef)} {c : KeyCursor} {n : Nat}

/-! ### Keys that can be observed -/

/-- A property can be observed if it is enumerable and not a variable. -/
def Descriptor.isObservable (d : Descriptor) : Bool := d.enumerable && !d.isVariable

namespace Heap

/-- The object has the key as a property of its own that can be observed. -/
def shows (h : Heap) (q : ObjectRef) (key : PropertyKey) : Bool :=
  match h.ownProperty q key with
  | .ok (some d) => d.isObservable
  | _ => false

/-- The nearest object of the list that has the key. -/
def holder? (h : Heap) (key : PropertyKey) (l : List ObjectRef) : Option ObjectRef := (h.nearest key l).map (·.1)

/-- The own entries of an object, in order of insertion. -/
def entriesOf (h : Heap) (q : ObjectRef) : List (PropertyKey × CellRef) :=
  match h.object q with
  | .ok obj => obj.properties.toList
  | .error _ => []

/-- The own keys of an object, in order of insertion. -/
def keysOf (h : Heap) (q : ObjectRef) : List PropertyKey := (h.entriesOf q).map (·.1)

/-- The keys of an object that can be observed on it, in order of insertion. -/
def observableOwn (h : Heap) (q : ObjectRef) : List PropertyKey := (h.keysOf q).filter (h.shows q)

/-- **The keys that can be observed along a chain**, one object after the other and in order of insertion on each: those
whose nearest holder is the object and can show them. -/
def observableAlong (h : Heap) (l : List ObjectRef) : List PropertyKey :=
  l.flatMap fun q => (h.keysOf q).filter fun key => h.holder? key l = some q && h.shows q key

theorem entriesOf_eq (ho : h.object q = .ok obj) : h.entriesOf q = obj.properties.toList := by
  unfold entriesOf
  rw [ho]

theorem keysOf_eq (ho : h.object q = .ok obj) : h.keysOf q = obj.properties.keys := by
  unfold keysOf
  rw [entriesOf_eq ho]
  rfl

theorem nodup_keysOf (h : Heap) (q : ObjectRef) : (h.keysOf q).Nodup := by
  cases ho : h.object q with
  | ok obj => rw [keysOf_eq ho]; exact obj.properties.nodup_keys
  | error e => simp [keysOf, entriesOf, ho]

/-! ### Entries and cells -/

end Heap

/-- An entry is what the search finds under its key. -/
theorem PropertyMap.mem_toList {m : PropertyMap} : (key, cell) ∈ m.toList ↔ m.find? key = some cell := by
  have among : ∀ entries : List (PropertyKey × CellRef), (entries.map (·.1)).Nodup →
      ((key, cell) ∈ entries ↔ entries.lookup key = some cell) := by
    intro entries hnodup
    induction entries with
    | nil => simp
    | cons e entries ih =>
      obtain ⟨k, c⟩ := e
      rw [List.map_cons, List.nodup_cons] at hnodup
      rw [lookup_cons, List.mem_cons, ih hnodup.2, Prod.mk.injEq]
      by_cases hk : k = key
      · subst hk
        have hnone : entries.lookup k ≠ some cell := fun hfind =>
          hnodup.1 (List.mem_map.mpr ⟨(k, cell), (ih hnodup.2).mpr hfind, rfl⟩)
        simp [hnone, eq_comm]
      · simp [hk, Ne.symm hk]
  unfold toList find?
  rw [List.mem_reverse, m.index_eq]
  exact among m.recent m.nodup

namespace Heap

theorem mem_entriesOf : (key, cell) ∈ h.entriesOf q ↔ h.ownCell q key = .ok (some cell) := by
  rw [ownCell_eq_ok]
  cases ho : h.object q with
  | error e => simp [entriesOf, ho]
  | ok obj => simp [entriesOf_eq ho, PropertyMap.mem_toList]

theorem mem_keysOf : key ∈ h.keysOf q ↔ ∃ cell, h.ownCell q key = .ok (some cell) := by
  unfold keysOf
  simp only [List.mem_map, Prod.exists, exists_and_right, exists_eq_right, mem_entriesOf]

/-- What a cell holds can be observed. -/
def observes (h : Heap) (cell : CellRef) : Bool :=
  match h.cell cell with
  | .ok d => d.isObservable
  | .error _ => false

theorem shows_eq (hown : h.ownCell q key = .ok (some cell)) : h.shows q key = h.observes cell := by
  unfold shows observes ownProperty
  rw [hown]
  dsimp only [bind, Except.bind]
  cases h.cell cell <;> rfl

theorem shows_false (hnot : key ∉ h.keysOf q) : h.shows q key = false := by
  rw [mem_keysOf, not_exists] at hnot
  unfold shows ownProperty
  cases hown : h.ownCell q key with
  | error e => rfl
  | ok found =>
    cases found with
    | none => rfl
    | some cell => exact absurd hown (hnot cell)

theorem holder?_eq_find? (h : Heap) (key : PropertyKey) (l : List ObjectRef) :
    h.holder? key l = l.find? fun q => key ∈ h.keysOf q := by
  unfold holder? nearest
  induction l with
  | nil => rfl
  | cons q l ih =>
    rw [List.findSome?_cons, List.find?_cons]
    by_cases hkey : key ∈ h.keysOf q
    · obtain ⟨cell, hown⟩ := mem_keysOf.mp hkey
      simp [hown, hkey]
    · have hnone : ∀ cell, h.ownCell q key ≠ .ok (some cell) := fun cell hown => hkey (mem_keysOf.mpr ⟨cell, hown⟩)
      split
      · next hfound =>
        split at hfound
        · next cell hown => exact absurd hown (hnone cell)
        · cases hfound
      · simpa [hkey] using ih

/-- A holder of the key is the nearest one exactly if no object before it has the key. -/
theorem holder?_append_cons {before : List ObjectRef} (hq : q ∉ before) (hkey : key ∈ h.keysOf q) :
    h.holder? key (before ++ q :: l) = some q ↔ ∀ q' ∈ before, key ∉ h.keysOf q' := by
  rw [holder?_eq_find?, List.find?_append]
  cases hfind : before.find? fun q => key ∈ h.keysOf q with
  | none =>
    rw [List.find?_eq_none] at hfind
    simpa [hkey] using hfind
  | some q' =>
    have hmem := List.mem_of_find?_eq_some hfind
    have hkey' : key ∈ h.keysOf q' := by simpa using List.find?_some hfind
    constructor
    · rintro hfound
      obtain rfl : q' = q := Option.some.inj hfound
      exact absurd hmem hq
    · intro hnot
      exact absurd hkey' (hnot q' hmem)

/-! ### What is listed of a run of entries -/

/-- The keys that a cursor lists of these entries if it has met the keys `met` before. -/
def listing (h : Heap) : List PropertyKey → List (PropertyKey × CellRef) → List PropertyKey
  | _, [] => []
  | met, (key, cell) :: es =>
    if key ∉ met ∧ h.observes cell then key :: h.listing (key :: met) es else h.listing (key :: met) es

theorem not_mem_listing (hkey : key ∈ met) : key ∉ h.listing met es := by
  induction es generalizing met with
  | nil => simp [listing]
  | cons e es ih =>
    obtain ⟨k, cell⟩ := e
    have hrest := ih (List.mem_cons_of_mem k hkey)
    rw [listing]
    split
    · next hlisted =>
      rw [List.mem_cons, not_or]
      exact ⟨fun hk => hlisted.1 (hk ▸ hkey), hrest⟩
    · exact hrest

/-- **No key is listed twice.** -/
theorem nodup_listing : (h.listing met es).Nodup := by
  induction es generalizing met with
  | nil => exact List.nodup_nil
  | cons e es ih =>
    obtain ⟨k, cell⟩ := e
    rw [listing]
    split
    · exact List.nodup_cons.mpr ⟨not_mem_listing (List.mem_cons_self ..), ih⟩
    · exact ih

theorem length_listing : (h.listing met es).length ≤ es.length := by
  induction es generalizing met with
  | nil => simp [listing]
  | cons e es ih =>
    obtain ⟨k, cell⟩ := e
    have hrest := @ih (k :: met)
    rw [listing]
    split <;> simp only [List.length_cons] <;> omega

/-- Only which keys have been met matters. -/
theorem listing_congr {met' : List PropertyKey} (hmet : ∀ k, k ∈ met ↔ k ∈ met') :
    h.listing met es = h.listing met' es := by
  induction es generalizing met met' with
  | nil => rfl
  | cons e es ih =>
    obtain ⟨key, cell⟩ := e
    have hrest : h.listing (key :: met) es = h.listing (key :: met') es := ih fun k => by simp [hmet]
    simp only [listing, hrest, hmet key]

/-- The entries of one object come first. -/
theorem listing_append {own : List (PropertyKey × CellRef)} (hnodup : (own.map (·.1)).Nodup) :
    h.listing met (own ++ es) =
      (own.filter fun e => e.1 ∉ met ∧ h.observes e.2).map (·.1) ++ h.listing (own.map (·.1) ++ met) es := by
  induction own generalizing met with
  | nil => rfl
  | cons e own ih =>
    obtain ⟨key, cell⟩ := e
    rw [List.map_cons, List.nodup_cons] at hnodup
    -- the first key of the object is no reason to skip another entry of the object
    have hfilter : (own.filter fun e => e.1 ∉ key :: met ∧ h.observes e.2) =
        own.filter fun e => e.1 ∉ met ∧ h.observes e.2 := by
      refine List.filter_congr fun e he => ?_
      have hne : e.1 ≠ key := fun heq => hnodup.1 (heq ▸ List.mem_map.mpr ⟨e, he, rfl⟩)
      simp [hne]
    have hrest : h.listing (own.map (·.1) ++ key :: met) es = h.listing (key :: (own.map (·.1) ++ met)) es :=
      listing_congr fun k => by simp only [List.mem_append, List.mem_cons]; tauto
    rw [List.cons_append, listing, ih hnodup.2, hfilter, hrest, List.filter_cons]
    simp only [decide_eq_true_eq]
    split <;> rfl

/-- **What is listed of a chain is what can be observed along it**, behind the objects met before. -/
theorem listing_chain (before : List ObjectRef) (hnodup : (before ++ l).Nodup)
    (hmet : ∀ k, k ∈ met ↔ ∃ q ∈ before, k ∈ h.keysOf q) :
    h.listing met (l.flatMap h.entriesOf) =
      l.flatMap fun q => (h.keysOf q).filter fun key => h.holder? key (before ++ l) = some q && h.shows q key := by
  induction l generalizing before met with
  | nil => rfl
  | cons q l ih =>
    have hq : q ∉ before := fun hmem => (List.nodup_append.mp hnodup).2.2 q hmem q (List.mem_cons_self ..) rfl
    have hown : (h.entriesOf q).filter (fun e => e.1 ∉ met ∧ h.observes e.2) =
        (h.entriesOf q).filter fun e => h.holder? e.1 (before ++ q :: l) = some q && h.shows q e.1 := by
      refine List.filter_congr fun e he => ?_
      have hholder : h.holder? e.1 (before ++ q :: l) = some q ↔ e.1 ∉ met := by
        rw [holder?_append_cons hq (List.mem_map.mpr ⟨e, he, rfl⟩), hmet]
        simp
      simp only [hholder, shows_eq (mem_entriesOf.mp he), Bool.decide_and, Bool.decide_eq_true]
    have hrest : h.listing (h.keysOf q ++ met) (l.flatMap h.entriesOf) = _ := ih (before ++ [q]) (by simpa using hnodup) fun k => by
      simp only [List.mem_append, hmet, List.mem_singleton, or_and_right, exists_or, exists_eq_left]
      exact or_comm
    rw [List.append_assoc, List.singleton_append] at hrest
    rw [List.flatMap_cons, List.flatMap_cons, listing_append (h.nodup_keysOf q), hown]
    unfold keysOf at hrest ⊢
    rw [hrest, List.filter_map]
    rfl

theorem listing_lineage (hc : h.Lineage p l) : h.listing [] (l.flatMap h.entriesOf) = h.observableAlong l :=
  listing_chain [] hc.nodup (by simp)

theorem listing_own (h : Heap) (q : ObjectRef) : h.listing [] (h.entriesOf q) = h.observableOwn q := by
  have hown : (h.entriesOf q).filter (fun e => e.1 ∉ ([] : List PropertyKey) ∧ h.observes e.2) =
      (h.entriesOf q).filter fun e => h.shows q e.1 := by
    refine List.filter_congr fun e he => ?_
    simp [shows_eq (mem_entriesOf.mp he)]
  have happend : h.listing [] (h.entriesOf q ++ []) = _ := listing_append (h.nodup_keysOf q)
  rw [List.append_nil, hown] at happend
  rw [happend, observableOwn, keysOf, List.filter_map]
  exact List.append_nil _

end Heap

/-! ### The bound of a cursor -/

/-- How often a cursor can move on what a slot holds. -/
def Slot.steps (s : Slot) : Nat :=
  match s.content with
  | some (.object o) => o.properties.size + 1
  | _ => 0

namespace Heap

/-- How often a cursor can move on what is at an index. -/
def stepsAt (h : Heap) (i : Nat) : Nat := (h.slots[i]?.map Slot.steps).getD 0

theorem cursorMoves_eq (h : Heap) : h.cursorMoves = 3 + ((List.range h.slots.size).map h.stepsAt).sum := by
  have summed : ∀ (slots : List Slot) (n : Nat), slots.foldl (fun n slot =>
      match slot.content with
      | some (.object o) => n + o.properties.size + 1
      | _ => n) n = n + (slots.map Slot.steps).sum := by
    intro slots
    induction slots with
    | nil => simp
    | cons slot slots ih =>
      intro n
      rw [List.foldl_cons, ih, List.map_cons, List.sum_cons, Slot.steps]
      split <;> omega
  have hsteps : h.slots.toList.map Slot.steps = (List.range h.slots.size).map h.stepsAt := by
    refine List.ext_getElem (by simp) fun i hi hi' => ?_
    have hlt : i < h.slots.size := by simpa using hi
    simp [stepsAt, hlt]
  unfold cursorMoves
  rw [← Array.foldl_toList, ← hsteps]
  exact summed _ 3

theorem stepsAt_object (ho : h.object q = .ok obj) : h.stepsAt q.handle.index = (h.entriesOf q).length + 1 := by
  unfold stepsAt
  rw [block?_eq_some.mp (object_eq_ok.mp ho), entriesOf_eq ho]
  simp [Slot.steps, PropertyMap.toList, PropertyMap.size]

/-- Live objects are in different slots. -/
theorem nodup_indices (hnodup : l.Nodup) (hlive : ∀ q ∈ l, ∃ obj, h.object q = .ok obj) :
    (l.map (·.handle.index)).Nodup := by
  refine hnodup.map_on fun q hq q' hq' heq => ?_
  obtain ⟨obj, ho⟩ := hlive q hq
  obtain ⟨obj', ho'⟩ := hlive q' hq'
  obtain ⟨id⟩ := q
  obtain ⟨id'⟩ := q'
  exact congrArg _ (eq_of_index_eq (Option.isSome_of_mem (object_eq_ok.mp ho))
    (Option.isSome_of_mem (object_eq_ok.mp ho')) heq)

/-- How often a cursor moves on the objects of a list. -/
def stepsOn (h : Heap) (l : List ObjectRef) : Nat := (l.map fun q => (h.entriesOf q).length + 1).sum

/-- **The bound is enough** for any live objects. -/
theorem stepsOn_lt (hnodup : l.Nodup) (hlive : ∀ q ∈ l, ∃ obj, h.object q = .ok obj) : h.stepsOn l < h.cursorMoves := by
  have hsteps : h.stepsOn l = ((l.map (·.handle.index)).map h.stepsAt).sum := by
    unfold stepsOn
    rw [List.map_map]
    refine congrArg List.sum (List.map_congr_left fun q hq => ?_)
    obtain ⟨obj, ho⟩ := hlive q hq
    exact (stepsAt_object ho).symm
  have hsub : l.map (·.handle.index) ⊆ List.range h.slots.size := by
    intro i hi
    obtain ⟨q, hq, rfl⟩ := List.mem_map.mp hi
    obtain ⟨obj, ho⟩ := hlive q hq
    exact List.mem_range.mpr (index_lt_of_resolves (Option.isSome_of_mem (object_eq_ok.mp ho)))
  obtain ⟨l', hperm, hsublist⟩ := (nodup_indices hnodup hlive).subperm hsub
  have hle : ((l.map (·.handle.index)).map h.stepsAt).sum ≤ ((List.range h.slots.size).map h.stepsAt).sum := by
    rw [← (hperm.map h.stepsAt).sum_eq]
    exact (hsublist.map h.stepsAt).sum_le_sum fun _ _ => Nat.zero_le _
  rw [cursorMoves_eq, hsteps]
  omega

end Heap

/-! ### Where a cursor stands -/

namespace KeyCursor

/-- The place behind an object that inherits from `p`. -/
def behind (inherited : Bool) : Option ObjectRef → KeySource
  | some p => if inherited then .entries p 0 else .done
  | none => .done

/-- **What lies ahead of a cursor**: the entries that it meets from its place on, and how many moves it takes. -/
inductive Ahead (h : Heap) (inherited : Bool) : KeySource → List (PropertyKey × CellRef) → Nat → Prop where
  | done : Ahead h inherited .done [] 0
  | entries {o : ObjectRef} {i : Nat} {obj : Object} {es : List (PropertyKey × CellRef)} {n : Nat}
      (live : h.object o = .ok obj) (rest : Ahead h inherited (behind inherited obj.prototype) es n) :
      Ahead h inherited (.entries o i) (obj.properties.toList.drop i ++ es)
        ((obj.properties.toList.drop i).length + 1 + n)

/-- The cursor has met the keys `met`, and meets the entries `es` in `n` moves. -/
structure Stands (h : Heap) (c : KeyCursor) (met : List PropertyKey) (es : List (PropertyKey × CellRef))
    (n : Nat) : Prop where
  own : c.ownIsProto = false
  ahead : Ahead h c.inherited c.source es n
  seen : ∀ k, k ∈ c.seen ↔ k ∈ met
  cells : ∀ e ∈ es, ∃ d, h.cell e.2 = .ok d

theorem beyond_eq (live : h.object o = .ok obj) : c.beyond h o = .ok (behind c.inherited obj.prototype) := by
  unfold beyond Heap.prototype behind
  rw [live]
  dsimp only [bind, Except.bind, pure, Except.pure]
  cases c.inherited <;> cases obj.prototype <;> rfl

/-- A cursor past an entry. -/
theorem meet_eq {d : Descriptor} (hd : h.cell cell = .ok d) (hseen : ∀ k, k ∈ c.seen ↔ k ∈ met) :
    ∃ c', c.meet h key cell = (.ok (if key ∉ met ∧ h.observes cell then .listed key else .skipped), c') ∧
      c'.source = c.source ∧ c'.inherited = c.inherited ∧ c'.ownIsProto = c.ownIsProto ∧
      ∀ k, k ∈ c'.seen ↔ k ∈ key :: met := by
  have hobserves : h.observes cell = d.isObservable := by
    unfold Heap.observes
    rw [hd]
  unfold meet
  rw [hd]
  dsimp only
  by_cases hmet : key ∈ met
  · rw [if_pos ((hseen key).mpr hmet)]
    refine ⟨c, by simp [hmet], rfl, rfl, rfl, fun k => ?_⟩
    rw [hseen, List.mem_cons, or_iff_right_of_imp]
    rintro rfl
    exact hmet
  · rw [if_neg fun hk => hmet ((hseen key).mp hk)]
    refine ⟨{ c with seen := c.seen.insert key }, ?_, rfl, rfl, rfl, fun k => ?_⟩
    · simp [hmet, hobserves, Descriptor.isObservable]
    · rw [Std.TreeSet.mem_insert, Std.LawfulEqCmp.compare_eq_iff_eq, hseen, List.mem_cons, eq_comm]

section

variable {i : Nat}

theorem move_done (hsource : c.source = .done) (h : Heap) : c.move h = (.ok .exhausted, c) := by
  unfold KeyCursor.move
  rw [hsource]

theorem move_dead {e : Error} (hown : c.ownIsProto = false) (hsource : c.source = .entries o i)
    (ho : h.object o = .error e) : c.move h = (.error e, c) := by
  have hentry : h.ownEntry o i = .error e := by
    unfold Heap.ownEntry
    rw [ho]
    rfl
  unfold KeyCursor.move
  rw [hsource]
  simp only [hown, hentry, Bool.false_and, Bool.false_eq_true, if_false]

theorem move_entry (hown : c.ownIsProto = false) (hsource : c.source = .entries o i) (live : h.object o = .ok obj)
    (hi : obj.properties.toList[i]? = some (key, cell)) :
    c.move h = { c with source := .entries o (i + 1) }.meet h key cell := by
  have hentry : h.ownEntry o i = .ok (some (key, cell)) := by
    unfold Heap.ownEntry
    rw [live, ← hi, ← obj.properties.entry?_eq]
    rfl
  unfold KeyCursor.move
  rw [hsource]
  simp only [hown, hentry, Bool.false_and, Bool.false_eq_true, if_false]

theorem move_behind (hown : c.ownIsProto = false) (hsource : c.source = .entries o i) (live : h.object o = .ok obj)
    (hi : obj.properties.toList[i]? = none) :
    c.move h = (.ok .skipped, { c with source := behind c.inherited obj.prototype }) := by
  have hentry : h.ownEntry o i = .ok none := by
    unfold Heap.ownEntry
    rw [live, ← hi, ← obj.properties.entry?_eq]
    rfl
  unfold KeyCursor.move
  rw [hsource]
  simp only [hown, hentry, beyond_eq live, Bool.false_and, Bool.false_eq_true, if_false]

end

/-- **A move** passes an entry, or an object, or nothing is left. -/
theorem Stands.move (hs : Stands h c met es n) :
    (c.source = .done ∧ es = [] ∧ c.move h = (.ok .exhausted, c)) ∨
    (∃ c' n', n = n' + 1 ∧ c.move h = (.ok .skipped, c') ∧ Stands h c' met es n') ∨
    ∃ key cell es' c' n', es = (key, cell) :: es' ∧ n = n' + 1 ∧
      c.move h = (.ok (if key ∉ met ∧ h.observes cell then .listed key else .skipped), c') ∧
      Stands h c' (key :: met) es' n' := by
  obtain ⟨hown, hahead, hseen, hcells⟩ := hs
  generalize hsource : c.source = source at hahead
  cases hahead with
  | done => exact .inl ⟨rfl, rfl, move_done hsource h⟩
  | @entries o i obj es n live rest =>
    refine .inr ?_
    cases hi : obj.properties.toList[i]? with
    | none =>
      have hdrop : obj.properties.toList.drop i = [] := List.drop_eq_nil_of_le (List.getElem?_eq_none_iff.mp hi)
      rw [hdrop] at hcells ⊢
      refine .inl ⟨{ c with source := behind c.inherited obj.prototype }, n, ?_, move_behind hown hsource live hi,
        hown, rest, hseen, hcells⟩
      rw [List.length_nil, Nat.zero_add, Nat.add_comm]
    | some e =>
      obtain ⟨key, cell⟩ := e
      obtain ⟨hlt, hget⟩ := List.getElem?_eq_some_iff.mp hi
      have hdrop : obj.properties.toList.drop i = (key, cell) :: obj.properties.toList.drop (i + 1) := by
        rw [List.drop_eq_getElem_cons hlt, hget]
      rw [hdrop] at hcells ⊢
      obtain ⟨d, hd⟩ := hcells (key, cell) (List.mem_cons_self ..)
      obtain ⟨c', hmeet, hsource', hinherited, hown', hseen'⟩ :=
        meet_eq (c := { c with source := .entries o (i + 1) }) hd hseen
      have hahead' : Ahead h c'.inherited c'.source (obj.properties.toList.drop (i + 1) ++ es)
          ((obj.properties.toList.drop (i + 1)).length + 1 + n) := by
        rw [hsource', hinherited]
        exact .entries live rest
      refine .inr ⟨key, cell, _, c', _, rfl, ?_, (move_entry hown hsource live hi).trans hmeet, hown'.trans hown, hahead',
        hseen', fun e he => hcells e (List.mem_cons_of_mem _ he)⟩
      rw [List.length_cons]
      omega

/-- **The next key** is the first that is listed of what lies ahead. If there is none, the cursor is done. -/
theorem Stands.nextWithin {bound : Nat} (hs : Stands h c met es n) (hn : n < bound) :
    ∃ c' met' es' n', c.nextWithin h bound = (.ok (h.listing met es).head?, c') ∧ n' ≤ n ∧ Stands h c' met' es' n' ∧
      h.listing met' es' = (h.listing met es).tail ∧ (h.listing met es = [] → c'.source = .done) := by
  induction bound generalizing c met es n with
  | zero => omega
  | succ bound ih =>
    rcases hs.move with ⟨hdone, rfl, hmove⟩ | ⟨c', n', rfl, hmove, hs'⟩ | ⟨key, cell, es', c', n', rfl, rfl, hmove, hs'⟩
    · refine ⟨c, met, [], n, ?_, le_rfl, hs, rfl, fun _ => hdone⟩
      rw [KeyCursor.nextWithin, hmove]
      rfl
    · obtain ⟨c'', met', es', n'', hnext, hle, hs'', htail, hend⟩ := ih hs' (by omega)
      refine ⟨c'', met', es', n'', ?_, by omega, hs'', htail, hend⟩
      rw [KeyCursor.nextWithin, hmove]
      exact hnext
    · rw [KeyCursor.nextWithin, hmove, Heap.listing]
      by_cases hlisted : key ∉ met ∧ h.observes cell
      · simp only [if_pos hlisted]
        exact ⟨c', key :: met, es', n', rfl, by omega, hs', rfl, nofun⟩
      · simp only [if_neg hlisted]
        obtain ⟨c'', met', es'', n'', hnext, hle, hs'', htail, hend⟩ := ih hs' (by omega)
        exact ⟨c'', met', es'', n'', hnext, by omega, hs'', htail, hend⟩

/-- **Driven to the end**, the cursor lists `ks` on a heap that stays as it is, and ends as `e`. -/
inductive Yields (h : Heap) : KeyCursor → List PropertyKey → KeyCursor → Prop where
  | exhausted {c e : KeyCursor} (next : c.next h = (.ok none, e)) : Yields h c [] e
  | listed {c c' e : KeyCursor} {key : PropertyKey} {ks : List PropertyKey} (next : c.next h = (.ok (some key), c'))
      (rest : Yields h c' ks e) : Yields h c (key :: ks) e

theorem Stands.yields (hs : Stands h c met es n) (hn : n < h.cursorMoves) :
    ∃ e, Yields h c (h.listing met es) e ∧ e.source = .done := by
  obtain ⟨ks, hks⟩ : ∃ ks, h.listing met es = ks := ⟨_, rfl⟩
  induction ks generalizing c met es n with
  | nil =>
    obtain ⟨e, -, -, -, hnext, -, -, -, hend⟩ := hs.nextWithin hn
    rw [hks] at hnext ⊢
    exact ⟨e, .exhausted hnext, hend hks⟩
  | cons key ks ih =>
    obtain ⟨c', met', es', n', hnext, hle, hs', htail, -⟩ := hs.nextWithin hn
    rw [hks] at hnext htail
    obtain ⟨e, hrest, hend⟩ := ih hs' (by omega) htail
    rw [htail] at hrest
    exact ⟨e, hks ▸ .listed hnext hrest, hend⟩

theorem Stands.collectWithin {moves bound : Nat} (hs : Stands h c met es n) (hn : n < moves)
    (hbound : (h.listing met es).length ≤ bound) : c.collectWithin h moves bound = .ok (h.listing met es) := by
  induction bound generalizing c met es n with
  | zero => rw [List.eq_nil_of_length_eq_zero (Nat.le_zero.mp hbound)]; rfl
  | succ bound ih =>
    obtain ⟨c', met', es', n', hnext, hle, hs', htail, -⟩ := hs.nextWithin hn
    rw [KeyCursor.collectWithin, hnext]
    cases hks : h.listing met es with
    | nil => rfl
    | cons key ks =>
      rw [hks] at htail hbound
      have hrest := ih hs' (by omega) (by rw [htail]; simpa using hbound)
      rw [htail] at hrest
      simp only [List.head?_cons, List.tail_cons] at hrest ⊢
      rw [hrest]
      rfl

/-- A cursor that is done keeps answering that no key is left, whatever becomes of the heap. -/
theorem next_done (hc : c.source = .done) (h : Heap) : c.next h = (.ok none, c) := by
  obtain ⟨bound, hbound⟩ : ∃ bound, h.cursorMoves = bound + 1 := ⟨_, h.cursorMoves_eq.trans (Nat.add_right_comm 2 1 _)⟩
  rw [next, hbound, KeyCursor.nextWithin, move_done hc]

end KeyCursor

/-! ### The result -/

namespace Heap

/-- Along a chain lie the entries of its members. -/
theorem Lineage.ahead (hc : h.Lineage p l) :
    KeyCursor.Ahead h true (KeyCursor.behind true p) (l.flatMap h.entriesOf) (h.stepsOn l) := by
  induction hc with
  | nil => exact .done
  | @cons q p l live rest ih =>
    obtain ⟨obj, ho, rfl⟩ := prototype_eq_ok.mp live
    have hahead := KeyCursor.Ahead.entries (i := 0) ho ih
    rw [List.drop_zero, ← entriesOf_eq ho] at hahead
    exact hahead

/-- Without inherited keys only the entries of the object itself are ahead. -/
theorem ahead_own (ho : h.object o = .ok obj) :
    KeyCursor.Ahead h false (.entries o 0) ([o].flatMap h.entriesOf) (h.stepsOn [o]) := by
  have hrest : KeyCursor.Ahead h false (KeyCursor.behind false obj.prototype) [] 0 := by
    cases obj.prototype <;> exact .done
  have hahead := KeyCursor.Ahead.entries (i := 0) ho hrest
  rw [List.drop_zero, ← entriesOf_eq ho] at hahead
  exact hahead

theorem length_le_stepsOn (h : Heap) (l : List ObjectRef) : (l.flatMap h.entriesOf).length ≤ h.stepsOn l := by
  induction l with
  | nil => exact le_rfl
  | cons q l ih =>
    unfold stepsOn at ih ⊢
    rw [List.flatMap_cons, List.length_append, List.map_cons, List.sum_cons]
    omega

theorem mem_observableOwn :
    key ∈ h.observableOwn o ↔ ∃ d, h.ownProperty o key = .ok (some d) ∧ d.isObservable = true := by
  unfold observableOwn
  rw [List.mem_filter]
  constructor
  · rintro ⟨-, hshows⟩
    unfold shows at hshows
    split at hshows
    · next d hd => exact ⟨d, hd, hshows⟩
    · cases hshows
  · rintro ⟨d, hd, hobservable⟩
    have hshows : h.shows o key = true := by
      unfold shows
      rw [hd]
      exact hobservable
    refine ⟨?_, hshows⟩
    by_contra hnot
    rw [shows_false hnot] at hshows
    cases hshows

theorem mem_observableAlong : key ∈ h.observableAlong l ↔
    ∃ q cell d, h.nearest key l = some (q, cell) ∧ h.cell cell = .ok d ∧ d.isObservable = true := by
  unfold observableAlong
  simp only [List.mem_flatMap, List.mem_filter, Bool.and_eq_true, decide_eq_true_eq]
  constructor
  · rintro ⟨q, -, -, hholder, hshows⟩
    obtain ⟨⟨q, cell⟩, hnearest, rfl⟩ := Option.map_eq_some_iff.mp hholder
    rw [shows_eq (nearest_mem hnearest).2] at hshows
    unfold observes at hshows
    split at hshows
    · next d hd => exact ⟨q, cell, d, hnearest, hd, hshows⟩
    · cases hshows
  · rintro ⟨q, cell, d, hnearest, hd, hobservable⟩
    obtain ⟨hmem, hown⟩ := nearest_mem hnearest
    refine ⟨q, hmem, mem_keysOf.mpr ⟨cell, hown⟩, Option.map_eq_some_iff.mpr ⟨_, hnearest, rfl⟩, ?_⟩
    rw [shows_eq hown]
    unfold observes
    rw [hd]
    exact hobservable

theorem Linked.cells (hl : h.Linked) (l : List ObjectRef) : ∀ e ∈ l.flatMap h.entriesOf, ∃ d, h.cell e.2 = .ok d := by
  rintro ⟨key, cell⟩ he
  obtain ⟨q, -, hentry⟩ := List.mem_flatMap.mp he
  obtain ⟨obj, ho, hfind⟩ := ownCell_eq_ok.mp (mem_entriesOf.mp hentry)
  exact hl q obj key cell ho hfind

/-- **A cursor over the keys of `o` lists `ks`**: driven to the end on a heap that stays as it is, it yields these keys in
this order, none of them twice. The bound of its moves has not cut it off: it is done, and from then on answers that no
key is left, on whatever heap. All keys taken at once are these as well. -/
structure Enumerates (h : Heap) (o : ObjectRef) (inherited : Bool) (ks : List PropertyKey) : Prop where
  yields : ∀ realm : Realm, ∃ c e, h.cursor realm (.object o) inherited = .ok c ∧ c.Yields h ks e ∧ e.source = .done ∧
    ∀ h', e.next h' = (.ok none, e)
  collected : ∀ realm : Realm, h.observableKeys realm (.object o) inherited = .ok ks
  nodup : ks.Nodup

/-- A cursor lists what is listed of the entries ahead of it. -/
theorem Enumerates.of_ahead {inherited : Bool} (hahead : KeyCursor.Ahead h inherited (.entries o 0) es n)
    (hcells : ∀ e ∈ es, ∃ d, h.cell e.2 = .ok d) (hn : n < h.cursorMoves) (hlength : es.length ≤ n) :
    h.Enumerates o inherited (h.listing [] es) := by
  have hstands : KeyCursor.Stands h { source := .entries o 0, inherited, ownIsProto := false, seen := ∅ } [] es n :=
    ⟨rfl, hahead, fun k => by simp, hcells⟩
  obtain ⟨e, hyields, hdone⟩ := hstands.yields hn
  have hbound : (h.listing [] es).length ≤ 0 + h.cursorMoves := by
    have hle : (h.listing [] es).length ≤ es.length := length_listing
    omega
  exact ⟨fun _ => ⟨_, e, rfl, hyields, hdone, KeyCursor.next_done hdone⟩, fun _ => hstands.collectWithin hn hbound,
    nodup_listing⟩

/-- **A cursor lists exactly the keys that can be observed.** The chain from `o` is live and ends, and properties have live
cells, as on every heap that operations lead to. Without inherited keys a cursor lists the own keys of `o` that can be observed, in order of insertion; with
them it lists, from `o` outwards and in order of insertion on each object, those keys whose nearest holder can show them.
A property that is not enumerable, or a variable, hides the key further out. -/
theorem Lineage.enumerates (hc : h.Lineage (some o) l) (hl : h.Linked) :
    h.Enumerates o false (h.observableOwn o) ∧
    h.Enumerates o true (h.observableAlong l) ∧
    (∀ key, key ∈ h.observableOwn o ↔ ∃ d, h.ownProperty o key = .ok (some d) ∧ d.isObservable = true) ∧
    ∀ key, key ∈ h.observableAlong l ↔
      ∃ q cell d, h.nearest key l = some (q, cell) ∧ h.cell cell = .ok d ∧ d.isObservable = true := by
  obtain ⟨obj, ho⟩ := hc.live_of_eq rfl
  have hown := Enumerates.of_ahead (ahead_own ho) (hl.cells [o])
    (stepsOn_lt (List.nodup_singleton o) fun q hq => ⟨obj, List.mem_singleton.mp hq ▸ ho⟩) (h.length_le_stepsOn [o])
  have hall := Enumerates.of_ahead hc.ahead (hl.cells l) (stepsOn_lt hc.nodup fun q => hc.live)
    (h.length_le_stepsOn l)
  rw [List.flatMap_singleton, listing_own] at hown
  rw [listing_lineage hc] at hall
  exact ⟨hown, hall, fun key => mem_observableOwn, fun key => mem_observableAlong⟩

/-- An object, and one that inherits from it: the keys 0 and 1 of the first are hidden by those of the second, of which 0 is
not enumerable and 4 is a variable. -/
def shadowing : Heap :=
  [Op.allocObject none .object .ordinary, .define ⟨⟨0, 0⟩⟩ (.index 0) (.data .null), .define ⟨⟨0, 0⟩⟩ (.index 1) (.hidden .null),
    .define ⟨⟨0, 0⟩⟩ (.index 2) (.data .null), .allocObject (some ⟨⟨0, 0⟩⟩) .object .ordinary,
    .define ⟨⟨4, 0⟩⟩ (.index 3) (.data .null), .define ⟨⟨4, 0⟩⟩ (.index 0) (.hidden .null),
    .define ⟨⟨4, 0⟩⟩ (.index 1) (.data .null), .define ⟨⟨4, 0⟩⟩ (.index 4) (.declared .null)].foldl
    (fun h op => op.run h) (empty (.ofMax 16))

/-- The keys 3 and 1 of the object and then the key 2 of its prototype are listed. -/
theorem Lineage.enumerates_shadowing :
    shadowing.Lineage (some ⟨⟨4, 0⟩⟩) [⟨⟨4, 0⟩⟩, ⟨⟨0, 0⟩⟩] ∧ shadowing.Linked ∧
    shadowing.Enumerates ⟨⟨4, 0⟩⟩ false [.index 3, .index 1] ∧
    shadowing.Enumerates ⟨⟨4, 0⟩⟩ true [.index 3, .index 1, .index 2] := by
  have hc : shadowing.Lineage (some ⟨⟨4, 0⟩⟩) [⟨⟨4, 0⟩⟩, ⟨⟨0, 0⟩⟩] := .cons rfl (.cons rfl .nil)
  have hl : shadowing.Linked := Built.linked ⟨_, _, rfl⟩
  obtain ⟨hown, hall, -⟩ := Lineage.enumerates hc hl
  have hownKeys : shadowing.observableOwn ⟨⟨4, 0⟩⟩ = [.index 3, .index 1] := by decide +kernel
  have hallKeys : shadowing.observableAlong [⟨⟨4, 0⟩⟩, ⟨⟨0, 0⟩⟩] = [.index 3, .index 1, .index 2] := by decide +kernel
  rw [hownKeys] at hown
  rw [hallKeys] at hall
  exact ⟨hc, hl, hown, hall⟩

end Heap

end ScriptCore
