import Mathlib.Logic.Function.Iterate
import Mathlib.Tactic.Set
import ScriptCore.Heap.Collection

/-! # Marking is exact

What a collection keeps is what can be *reached*: from the handles it starts from, through the
handles that blocks refer to, by handles that resolve. Marking is a traversal with a worklist, and
`Tracing` is what every such traversal keeps true: what is marked or waits is reached, and what is
reached in one step from a marked slot is marked or waits. A handle may wait more than once, and it
may be marked while it waits; it is then passed over.

* `Block.RefersTo`: the references in each kind of block, part by part; `Block.mem_handles`: they are what is traced.
* `Tracing.marked_iff`: a traversal with nothing fresh left to visit has marked exactly what is reached.
* `mark_exact`: `Heap.mark`, with a round for each slot, is such a traversal.
* `popStep_terminates`: so is the loop that takes one handle at a time off the worklist, and it ends
  with the same marks. -/

namespace ScriptCore

/-! ### What a block refers to -/

/-- A string and an object are values with a handle. -/
inductive Value.RefersTo : Value → Handle → Prop where
  | string (s : StringRef) : RefersTo (.string s) s.handle
  | object (o : ObjectRef) : RefersTo (.object o) o.handle

/-- A closure refers to its scope, to the scope that it is bound to, and to the receiver it keeps. -/
inductive Closure.RefersTo (c : Closure) : Handle → Prop where
  | scope : RefersTo c c.scope.handle
  | boundScope {s : ScopeRef} (h : c.boundScope = some s) : RefersTo c s.handle
  | receiver {v : Value} {x : Handle} (h : c.receiver = some v) (hx : v.RefersTo x) : RefersTo c x

/-- An object refers to its prototype, to the keys and the cells of its properties, and a function to what its closure
refers to. -/
inductive Object.RefersTo (o : Object) : Handle → Prop where
  | prototype {p : ObjectRef} (h : o.prototype = some p) : RefersTo o p.handle
  | key {s : StringRef} {c : CellRef} (h : (.string s, c) ∈ o.properties.recent) : RefersTo o s.handle
  | cell {k : PropertyKey} {c : CellRef} (h : (k, c) ∈ o.properties.recent) : RefersTo o c.handle
  | closure {c : Closure} {x : Handle} (h : o.kind = .closure c) (hx : c.RefersTo x) : RefersTo o x

/-- A scope refers to the object that holds its names, to its parent, to its receiver, and to the object that
declarations go to instead. -/
inductive Scope.RefersTo (s : Scope) : Handle → Prop where
  | object : RefersTo s s.object.handle
  | parent {p : ScopeRef} (h : s.parent = some p) : RefersTo s p.handle
  | receiver {x : Handle} (hx : s.receiver.RefersTo x) : RefersTo s x
  | writeTo {o : ObjectRef} (h : s.writeTo = some o) : RefersTo s o.handle

/-- A property refers to its value, or to its getter and its setter. -/
inductive Descriptor.RefersTo (d : Descriptor) : Handle → Prop where
  | value {v : Value} {w : Bool} {x : Handle} (h : d.content = .data v w) (hx : v.RefersTo x) : RefersTo d x
  | getter {g s : Value} {x : Handle} (h : d.content = .accessor g s) (hx : g.RefersTo x) : RefersTo d x
  | setter {g s : Value} {x : Handle} (h : d.content = .accessor g s) (hx : s.RefersTo x) : RefersTo d x

/-- A block refers to a handle. The text of a string refers to nothing. -/
inductive Block.RefersTo : Block → Handle → Prop where
  | object {o : Object} {x : Handle} (hx : o.RefersTo x) : RefersTo (.object o) x
  | scope {s : Scope} {x : Handle} (hx : s.RefersTo x) : RefersTo (.scope s) x
  | cell {d : Descriptor} {x : Handle} (hx : d.RefersTo x) : RefersTo (.cell d) x

section Handles

variable {x : Handle}

theorem Value.mem_handles {v : Value} : x ∈ v.handles ↔ v.RefersTo x := by
  constructor
  · intro hx
    cases v with
    | string s => exact List.mem_singleton.mp hx ▸ .string s
    | object o => exact List.mem_singleton.mp hx ▸ .object o
    | _ => cases hx
  · rintro (_ | _) <;> exact List.mem_singleton_self _

theorem Closure.mem_handles {c : Closure} : x ∈ c.handles ↔ c.RefersTo x := by
  constructor
  · intro hx
    rcases List.mem_cons.mp hx with rfl | hx
    · exact .scope
    rcases List.mem_append.mp hx with hx | hx
    · split at hx
      · next s hs => exact List.mem_singleton.mp hx ▸ .boundScope hs
      · cases hx
    · split at hx
      · next v hv => exact .receiver hv (Value.mem_handles.mp hx)
      · cases hx
  · rintro (_ | h | ⟨h, hx⟩)
    · exact List.mem_cons_self ..
    · simp [handles, h]
    · simp [handles, h, Value.mem_handles, hx]

theorem Object.mem_handles {o : Object} : x ∈ o.handles ↔ o.RefersTo x := by
  simp only [handles, List.mem_append, List.mem_flatMap]
  constructor
  · rintro ((hx | ⟨⟨k, c⟩, hmem, hx | hx⟩) | hx)
    · split at hx
      · next p hp => exact List.mem_singleton.mp hx ▸ .prototype hp
      · cases hx
    · cases k with
      | string s => exact List.mem_singleton.mp hx ▸ .key hmem
      | index i => cases hx
    · exact List.mem_singleton.mp hx ▸ .cell hmem
    · split at hx
      · next c hc => exact .closure hc (Closure.mem_handles.mp hx)
      · cases hx
  · rintro (h | h | h | ⟨h, hx⟩)
    · exact .inl (.inl (by simp [h]))
    · exact .inl (.inr ⟨_, h, .inl (List.mem_singleton_self _)⟩)
    · exact .inl (.inr ⟨_, h, .inr (List.mem_singleton_self _)⟩)
    · exact .inr (by simpa [h] using Closure.mem_handles.mpr hx)

theorem Scope.mem_handles {s : Scope} : x ∈ s.handles ↔ s.RefersTo x := by
  simp only [handles, List.mem_cons, List.mem_append]
  constructor
  · rintro (rfl | (hx | hx) | hx)
    · exact .object
    · split at hx
      · next p hp => exact List.mem_singleton.mp hx ▸ .parent hp
      · cases hx
    · exact .receiver (Value.mem_handles.mp hx)
    · split at hx
      · next o ho => exact List.mem_singleton.mp hx ▸ .writeTo ho
      · cases hx
  · rintro (_ | h | hx | h)
    · exact .inl rfl
    · exact .inr (.inl (.inl (by simp [h])))
    · exact .inr (.inl (.inr (Value.mem_handles.mpr hx)))
    · exact .inr (.inr (by simp [h]))

theorem Descriptor.mem_handles {d : Descriptor} : x ∈ d.handles ↔ d.RefersTo x := by
  unfold handles
  constructor
  · intro hx
    split at hx
    · next v writable hd => exact .value hd (Value.mem_handles.mp hx)
    · next g s hd =>
      rcases List.mem_append.mp hx with hx | hx
      · exact .getter hd (Value.mem_handles.mp hx)
      · exact .setter hd (Value.mem_handles.mp hx)
  · rintro (⟨h, hx⟩ | ⟨h, hx⟩ | ⟨h, hx⟩) <;> simp [h, Value.mem_handles, hx]

/-- **What is traced from a block is what it refers to.** -/
theorem Block.mem_handles {b : Block} : x ∈ b.handles ↔ b.RefersTo x := by
  constructor
  · intro hx
    cases b with
    | string t => cases hx
    | object o => exact .object (Object.mem_handles.mp hx)
    | scope s => exact .scope (Scope.mem_handles.mp hx)
    | cell d => exact .cell (Descriptor.mem_handles.mp hx)
  · rintro (hx | hx | hx)
    · exact Object.mem_handles.mpr hx
    · exact Scope.mem_handles.mpr hx
    · exact Descriptor.mem_handles.mpr hx

end Handles

namespace Heap

/-! ### Handles that resolve -/

variable {slots : Array Slot} {roots work : List Handle} {marks : Array Bool}

theorem resolve_eq_some {id : Handle} {b : Block} :
    resolve slots id = some b ↔ slots[id.index]? = some ⟨id.generation, some b⟩ := by
  unfold resolve
  cases h : slots[id.index]? with
  | none => simp
  | some slot =>
    obtain ⟨g, c⟩ := slot
    by_cases hg : g = id.generation <;> simp [hg]

theorem index_lt_of_resolves {id : Handle} (h : (resolve slots id).isSome) :
    id.index < slots.size := by
  obtain ⟨b, hb⟩ := Option.isSome_iff_exists.mp h
  obtain ⟨hlt, -⟩ := Array.getElem?_eq_some_iff.mp (resolve_eq_some.mp hb)
  exact hlt

/-- Two handles of one slot that resolve are the same. -/
theorem eq_of_index_eq {a b : Handle} (ha : (resolve slots a).isSome)
    (hb : (resolve slots b).isSome) (h : a.index = b.index) : a = b := by
  obtain ⟨x, hx⟩ := Option.isSome_iff_exists.mp ha
  obtain ⟨y, hy⟩ := Option.isSome_iff_exists.mp hb
  rw [resolve_eq_some] at hx hy
  rw [h, hy] at hx
  obtain ⟨i, g⟩ := a
  obtain ⟨j, g'⟩ := b
  simp only [Option.some.injEq, Slot.mk.injEq] at hx
  simp_all

/-! ### What is reached -/

/-- A handle is reached from `roots` by handles that resolve, from each block to what it refers to. -/
inductive Reach (slots : Array Slot) (roots : List Handle) : Handle → Prop where
  | root {id : Handle} : id ∈ roots → (resolve slots id).isSome → Reach slots roots id
  | step {a b : Handle} {block : Block} : Reach slots roots a → resolve slots a = some block → block.RefersTo b →
      (resolve slots b).isSome → Reach slots roots b

theorem mem_successors {a b : Handle} :
    b ∈ successors slots a ↔ ∃ block, resolve slots a = some block ∧ block.RefersTo b := by
  unfold successors
  cases resolve slots a with
  | none => simp
  | some block => simp [Block.mem_handles]

theorem Reach.resolves {id : Handle} (h : Reach slots roots id) : (resolve slots id).isSome := by
  cases h with
  | root _ h => exact h
  | step _ _ _ h => exact h

theorem isFresh_iff {id : Handle} :
    isFresh slots marks id = true ↔
      (resolve slots id).isSome ∧ marks[id.index]? = some false := by
  simp [isFresh]

/-- A handle that resolves and is not fresh is marked. -/
theorem marked_of_not_fresh {id : Handle} (hsize : marks.size = slots.size)
    (hr : (resolve slots id).isSome) (h : ¬ isFresh slots marks id = true) :
    marks[id.index]? = some true := by
  have hlt : id.index < marks.size := hsize ▸ index_lt_of_resolves hr
  rw [isFresh_iff, Array.getElem?_eq_getElem hlt] at h
  rw [Array.getElem?_eq_getElem hlt]
  cases hm : marks[id.index] with
  | true => rfl
  | false => exact absurd ⟨hr, by rw [hm]⟩ h

/-! ### What a traversal keeps true -/

/-- A traversal from `roots` that has set `marks` and has `work` before it. -/
structure Tracing (slots : Array Slot) (roots work : List Handle) (marks : Array Bool) : Prop where
  size : marks.size = slots.size
  sound : ∀ i : Nat, marks[i]? = some true → ∃ g, Reach slots roots ⟨i, g⟩
  waiting : ∀ id ∈ work, (resolve slots id).isSome → Reach slots roots id
  started : ∀ id ∈ roots, (resolve slots id).isSome →
    marks[id.index]? = some true ∨ id ∈ work
  closed : ∀ a, (resolve slots a).isSome → marks[a.index]? = some true →
    ∀ b ∈ successors slots a, (resolve slots b).isSome →
      marks[b.index]? = some true ∨ b ∈ work

namespace Tracing

/-- Before anything is marked, all roots that resolve wait. -/
theorem start (hsize : marks.size = slots.size) (hclear : ∀ i : Nat, marks[i]? ≠ some true)
    (hsub : ∀ id ∈ work, id ∈ roots)
    (hall : ∀ id ∈ roots, (resolve slots id).isSome → id ∈ work) :
    Tracing slots roots work marks where
  size := hsize
  sound i hi := absurd hi (hclear i)
  waiting id hid hr := .root (hsub id hid) hr
  started id hid hr := Or.inr (hall id hid hr)
  closed _ _ ha := absurd ha (hclear _)

/-- A handle that is not fresh may be passed over. -/
theorem skip {id : Handle} (h : Tracing slots roots (id :: work) marks)
    (hf : ¬ isFresh slots marks id = true) : Tracing slots roots work marks := by
  have pass : ∀ b, (resolve slots b).isSome → marks[b.index]? = some true ∨ b ∈ id :: work →
      marks[b.index]? = some true ∨ b ∈ work := by
    intro b hb hor
    rcases hor with hm | hm
    · exact Or.inl hm
    · rcases List.mem_cons.mp hm with rfl | hm
      · exact Or.inl (marked_of_not_fresh h.size hb hf)
      · exact Or.inr hm
  exact
    { size := h.size
      sound := h.sound
      waiting := fun b hb => h.waiting b (List.mem_cons_of_mem _ hb)
      started := fun b hb hr => pass b hr (h.started b hb hr)
      closed := fun a ha hm b hb hr => pass b hr (h.closed a ha hm b hb hr) }

/-- A fresh handle is marked, and what it refers to waits from then on, as far as it is fresh. -/
theorem visit {id : Handle} {next : List Handle} (h : Tracing slots roots (id :: work) marks)
    (hf : isFresh slots marks id = true)
    (hsub : ∀ b ∈ next, b ∈ work ∨ b ∈ successors slots id)
    (hall : ∀ b, b ∈ work ∨ b ∈ successors slots id →
      isFresh slots (marks.setIfInBounds id.index true) b = true → b ∈ next) :
    Tracing slots roots next (marks.setIfInBounds id.index true) := by
  obtain ⟨hid, hclear⟩ := isFresh_iff.mp hf
  have hlt : id.index < marks.size := h.size ▸ index_lt_of_resolves hid
  have hreach : Reach slots roots id := h.waiting id (List.mem_cons_self ..) hid
  have hsize : (marks.setIfInBounds id.index true).size = slots.size := by
    rw [Array.size_setIfInBounds, h.size]
  have hset : ∀ i : Nat, (marks.setIfInBounds id.index true)[i]? =
      if id.index = i then some true else marks[i]? := by
    intro i
    rw [Array.getElem?_setIfInBounds]
    by_cases hi : id.index = i
    · subst hi; simp [hlt]
    · simp [hi]
  have hkeep : ∀ i : Nat, marks[i]? = some true →
      (marks.setIfInBounds id.index true)[i]? = some true := by
    intro i hi
    rw [hset i]
    split
    · rfl
    · exact hi
  -- what waited, or is referred to by `id`, is marked now or still waits
  have settle : ∀ b, (resolve slots b).isSome → b ∈ work ∨ b ∈ successors slots id →
      (marks.setIfInBounds id.index true)[b.index]? = some true ∨ b ∈ next := by
    intro b hb hor
    by_cases hfb : isFresh slots (marks.setIfInBounds id.index true) b = true
    · exact Or.inr (hall b hor hfb)
    · exact Or.inl (marked_of_not_fresh hsize hb hfb)
  have pass : ∀ b, (resolve slots b).isSome → marks[b.index]? = some true ∨ b ∈ id :: work →
      (marks.setIfInBounds id.index true)[b.index]? = some true ∨ b ∈ next := by
    intro b hb hor
    rcases hor with hm | hm
    · exact Or.inl (hkeep _ hm)
    · rcases List.mem_cons.mp hm with rfl | hm
      · left; rw [hset, if_pos rfl]
      · exact settle b hb (Or.inl hm)
  refine ⟨hsize, fun i hi => ?_, fun b hb hr => ?_, fun b hb hr => pass b hr (h.started b hb hr),
    fun a ha hm b hb hr => ?_⟩
  · rw [hset i] at hi
    by_cases hii : id.index = i
    · exact ⟨id.generation, by rw [← hii]; exact hreach⟩
    · rw [if_neg hii] at hi
      exact h.sound i hi
  · rcases hsub b hb with hb | hb
    · exact h.waiting b (List.mem_cons_of_mem _ hb) hr
    · obtain ⟨block, hblock, hrefers⟩ := mem_successors.mp hb
      exact .step hreach hblock hrefers hr
  · rw [hset] at hm
    by_cases hai : id.index = a.index
    · rw [← eq_of_index_eq hid ha hai] at hb
      exact settle b hr (Or.inr hb)
    · rw [if_neg hai] at hm
      exact pass b hr (h.closed a ha hm b hb hr)

/-- **A traversal that has nothing fresh left is exact.** -/
theorem marked_iff (h : Tracing slots roots work marks)
    (hdone : ∀ id ∈ work, ¬ isFresh slots marks id = true) (i : Nat) :
    marks[i]? = some true ↔ ∃ g, Reach slots roots ⟨i, g⟩ := by
  have settled : ∀ b, (resolve slots b).isSome → marks[b.index]? = some true ∨ b ∈ work →
      marks[b.index]? = some true := by
    intro b hb hor
    rcases hor with hm | hm
    · exact hm
    · exact marked_of_not_fresh h.size hb (hdone b hm)
  have reached : ∀ id, Reach slots roots id → marks[id.index]? = some true := by
    intro id hid
    induction hid with
    | root hmem hr => exact settled _ hr (h.started _ hmem hr)
    | step ha hblock hrefers hr ih =>
      exact settled _ hr (h.closed _ ha.resolves ih _ (mem_successors.mpr ⟨_, hblock, hrefers⟩) hr)
  exact ⟨h.sound i, fun ⟨g, hg⟩ => reached ⟨i, g⟩ hg⟩

end Tracing

/-! ### Marking in rounds -/

/-- How many slots have no mark yet. -/
def unmarked (marks : Array Bool) : Nat := marks.count false

theorem unmarked_set {id : Handle} (h : isFresh slots marks id = true) :
    unmarked (marks.setIfInBounds id.index true) + 1 = unmarked marks := by
  obtain ⟨-, hm⟩ := isFresh_iff.mp h
  obtain ⟨hlt, hget⟩ := Array.getElem?_eq_some_iff.mp hm
  have hpos : 0 < marks.count false := Array.count_pos_iff.mpr (hget ▸ Array.getElem_mem hlt)
  unfold unmarked
  rw [Array.setIfInBounds_def, dif_pos hlt, Array.count_set hlt, hget]
  simp
  omega

theorem not_fresh_of_unmarked_eq_zero (h : unmarked marks = 0) (id : Handle) :
    ¬ isFresh slots marks id = true := by
  intro hf
  have := unmarked_set hf
  omega

theorem Tracing.dropWhile (h : Tracing slots roots work marks) :
    Tracing slots roots (work.dropWhile fun id => !isFresh slots marks id) marks := by
  induction work with
  | nil => exact h
  | cons id work ih =>
    rw [List.dropWhile_cons]
    split
    · next hf => exact ih (h.skip (by simpa using hf))
    · exact h

/-- A traversal that has a round for each slot without a mark ends with exact marks. -/
theorem Tracing.mark_exact : ∀ (rounds : Nat) (work : List Handle) (marks : Array Bool),
    unmarked marks ≤ rounds → Tracing slots roots work marks →
      (mark slots rounds work marks).size = slots.size ∧
      ∀ i : Nat, (mark slots rounds work marks)[i]? = some true ↔ ∃ g, Reach slots roots ⟨i, g⟩
  | 0, work, marks, hr, h =>
    ⟨h.size, h.marked_iff fun id _ => not_fresh_of_unmarked_eq_zero (by omega) id⟩
  | rounds + 1, work, marks, hr, h => by
    have hdrop := h.dropWhile
    rw [mark]
    cases hw : work.dropWhile fun id => !isFresh slots marks id with
    | nil =>
      rw [hw] at hdrop
      exact ⟨h.size, hdrop.marked_iff (by simp)⟩
    | cons id rest =>
      rw [hw] at hdrop
      have hfresh : isFresh slots marks id = true := by
        have := List.head_dropWhile_not (p := fun id => !isFresh slots marks id) (l := work)
          (by simp [hw])
        simpa [hw] using this
      have hcount := unmarked_set hfresh
      refine Tracing.mark_exact rounds _ _ (by omega) (hdrop.visit hfresh ?_ ?_)
      · intro b hb
        exact (List.mem_append.mp hb).symm
      · intro b hb _
        exact List.mem_append.mpr hb.symm

/-- **Marking is exact**: with a round for each slot, the marks are on the slots that are reached. -/
theorem mark_exact (hsize : marks.size = slots.size) (hclear : ∀ i : Nat, marks[i]? ≠ some true)
    (roots : List Handle) :
    (mark slots slots.size roots marks).size = slots.size ∧
    ∀ i : Nat, (mark slots slots.size roots marks)[i]? = some true ↔
      ∃ g, Reach slots roots ⟨i, g⟩ := by
  refine Tracing.mark_exact slots.size roots marks ?_ (.start hsize hclear ?_ ?_)
  · unfold unmarked
    have : marks.count false ≤ marks.size := Array.count_le_size
    omega
  · exact fun id hid => hid
  · exact fun id hid _ => hid

/-! ### Marking one handle at a time -/

/-- Puts a handle on the worklist, unless it is not fresh. -/
def pushFresh (slots : Array Slot) (marks : Array Bool) (work : List Handle) (id : Handle) :
    List Handle :=
  if isFresh slots marks id then id :: work else work

/-- Takes one handle off the worklist: it is passed over, or it is marked and what it refers to is
put on the worklist. -/
def popStep (slots : Array Slot) : List Handle × Array Bool → List Handle × Array Bool
  | ([], marks) => ([], marks)
  | (id :: work, marks) =>
    if isFresh slots marks id then
      let marks := marks.setIfInBounds id.index true
      ((successors slots id).foldl (pushFresh slots marks) work, marks)
    else (work, marks)

/-- The worklist and the marks before the first step. -/
def popStart (slots : Array Slot) (roots : List Handle) (marks : Array Bool) :
    List Handle × Array Bool :=
  (roots.foldl (pushFresh slots marks) [], marks)

theorem mem_foldl_pushFresh {b : Handle} : ∀ (ids work : List Handle),
    b ∈ ids.foldl (pushFresh slots marks) work ↔
      b ∈ work ∨ (b ∈ ids ∧ isFresh slots marks b = true)
  | [], work => by simp
  | id :: ids, work => by
    rw [List.foldl_cons, mem_foldl_pushFresh ids]
    unfold pushFresh
    split
    · next hf =>
      rw [List.mem_cons, List.mem_cons]
      constructor
      · rintro ((rfl | h) | ⟨h, hf'⟩)
        · exact Or.inr ⟨Or.inl rfl, hf⟩
        · exact Or.inl h
        · exact Or.inr ⟨Or.inr h, hf'⟩
      · rintro (h | ⟨rfl | h, hf'⟩)
        · exact Or.inl (Or.inr h)
        · exact Or.inl (Or.inl rfl)
        · exact Or.inr ⟨h, hf'⟩
    · next hf =>
      rw [List.mem_cons]
      constructor
      · rintro (h | ⟨h, hf'⟩)
        · exact Or.inl h
        · exact Or.inr ⟨Or.inr h, hf'⟩
      · rintro (h | ⟨rfl | h, hf'⟩)
        · exact Or.inl h
        · exact absurd hf' hf
        · exact Or.inr ⟨h, hf'⟩

/-- A step keeps what a traversal keeps true. -/
theorem Tracing.popStep (h : Tracing slots roots work marks) :
    Tracing slots roots (popStep slots (work, marks)).1 (popStep slots (work, marks)).2 := by
  cases work with
  | nil => exact h
  | cons id work =>
    by_cases hf : isFresh slots marks id = true
    · simp only [Heap.popStep, if_pos hf]
      refine h.visit hf (fun b hb => ?_) (fun b hb hfb => ?_)
      · rcases (mem_foldl_pushFresh _ _).mp hb with hb | ⟨hb, -⟩
        · exact Or.inl hb
        · exact Or.inr hb
      · rcases hb with hb | hb
        · exact (mem_foldl_pushFresh _ _).mpr (Or.inl hb)
        · exact (mem_foldl_pushFresh _ _).mpr (Or.inr ⟨hb, hfb⟩)
    · simp only [Heap.popStep, if_neg hf]
      exact h.skip hf

/-- The loop comes to an empty worklist. Each step marks a slot or shortens the worklist. -/
theorem Tracing.popStep_ends : ∀ (n : Nat) (work : List Handle) (marks : Array Bool),
    unmarked marks ≤ n → Tracing slots roots work marks →
      ∃ steps, ((Heap.popStep slots)^[steps] (work, marks)).1 = [] ∧
        Tracing slots roots [] ((Heap.popStep slots)^[steps] (work, marks)).2
  | _, [], marks, _, h => ⟨0, rfl, h⟩
  | n, id :: work, marks, hn, h => by
    have hnext := h.popStep
    by_cases hf : isFresh slots marks id = true
    · obtain ⟨n, rfl⟩ : ∃ k, n = k + 1 := by
        have := unmarked_set hf
        exact ⟨n - 1, by omega⟩
      have hcount : unmarked (Heap.popStep slots (id :: work, marks)).2 ≤ n := by
        have := unmarked_set hf
        simp only [Heap.popStep, if_pos hf]
        omega
      obtain ⟨steps, hsteps⟩ := Tracing.popStep_ends n _ _ hcount hnext
      exact ⟨steps + 1, hsteps⟩
    · have hskip : Heap.popStep slots (id :: work, marks) = (work, marks) := by
        simp [Heap.popStep, hf]
      rw [hskip] at hnext
      obtain ⟨steps, hsteps⟩ := Tracing.popStep_ends n work marks hn hnext
      refine ⟨steps + 1, ?_⟩
      rw [Function.iterate_succ_apply, hskip]
      exact hsteps
termination_by n work => (n, work.length)

/-- **The worklist loop terminates**, with the marks that marking in rounds gives. -/
theorem popStep_terminates (hsize : marks.size = slots.size)
    (hclear : ∀ i : Nat, marks[i]? ≠ some true) (roots : List Handle) :
    ∃ steps, (popStep slots)^[steps] (popStart slots roots marks) =
      ([], mark slots slots.size roots marks) := by
  have hstart : Tracing slots roots (popStart slots roots marks).1 marks := by
    refine .start hsize hclear (fun id hid => ?_) (fun id hid hr => ?_)
    · rcases (mem_foldl_pushFresh roots []).mp hid with hid | ⟨hid, -⟩
      · cases hid
      · exact hid
    · refine (mem_foldl_pushFresh roots []).mpr (Or.inr ⟨hid, ?_⟩)
      by_contra hf
      exact hclear _ (marked_of_not_fresh hsize hr hf)
  obtain ⟨steps, hwork, hend⟩ := Tracing.popStep_ends (unmarked marks) _ marks (Nat.le_refl _) hstart
  obtain ⟨hmsize, hmark⟩ := mark_exact hsize hclear roots
  refine ⟨steps, Prod.ext hwork (Array.ext_getElem? fun i => ?_)⟩
  set last := ((popStep slots)^[steps] ((popStart slots roots marks).1, marks)).2 with hlast
  have hexact := hend.marked_iff (by simp) i
  have hiff : last[i]? = some true ↔ (mark slots slots.size roots marks)[i]? = some true := by
    rw [hexact, hmark i]
  show last[i]? = _
  by_cases hi : i < slots.size
  · rw [Array.getElem?_eq_getElem (by rw [hend.size]; exact hi),
      Array.getElem?_eq_getElem (by rw [hmsize]; exact hi)] at hiff ⊢
    simp only [Option.some.injEq] at hiff ⊢
    exact Bool.eq_iff_iff.mpr hiff
  · rw [Array.getElem?_eq_none (by rw [hend.size]; omega),
      Array.getElem?_eq_none (by rw [hmsize]; omega)]

end Heap

end ScriptCore
