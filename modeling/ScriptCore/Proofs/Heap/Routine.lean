import ScriptCore.Proofs.Heap.Sweeping
import ScriptCore.ScopeChain

/-! # What procedures over the heap are made of

Apart from collections and the roots of the host, everything that happens to a heap is put together from a
few primitives: allocations, interning, changes of objects, scopes and cells, and reading. `Heap.Routine`
says so of a procedure. What the primitives keep true, every such procedure keeps true, however it ends, so
an invariant of the heap takes five lemmas and no walk through the operations.

* `Routine.keeps`: **what the primitives keep, every routine keeps.**
* `routine_define`, `routine_allocObject` and so on: the operations are routines. -/

namespace ScriptCore.Heap

variable {α β : Type} {K : ObjectKind → Prop}

/-- **A procedure made of the primitives**; the objects it makes are of kinds that satisfy `K`, and no object
ever changes its kind. -/
inductive Routine (K : ObjectKind → Prop) : {α : Type} → Proc Heap α → Prop where
  | pure {α : Type} (a : α) : Routine K (Pure.pure a : Proc Heap α)
  | fail {α : Type} (e : Error) : Routine K (throw e : Proc Heap α)
  | reads {α : Type} (f : Heap → Except Error α) : Routine K (Proc.reads f)
  | alloc (b : Block) (hb : ∀ t, b ≠ .string t) (hk : ∀ o, b = .object o → K o.kind) : Routine K (alloc b)
  | intern (t : Text) : Routine K (intern t)
  | modifyObject (o : ObjectRef) (f : Object → Object) (hf : ∀ x, (f x).kind = x.kind) :
      Routine K (modifyObject o f)
  | modifyScope (s : ScopeRef) (f : Scope → Scope) : Routine K (modifyScope s f)
  | modifyCell (c : CellRef) (f : Descriptor → Except Error Descriptor) : Routine K (modifyCell c f)
  | bind {α β : Type} {p : Proc Heap α} {f : α → Proc Heap β} (hp : Routine K p)
      (hf : ∀ a, Routine K (f a)) : Routine K (p >>= f)

namespace Routine

variable {p : Proc Heap α}

theorem map (hp : Routine K p) (f : α → β) : Routine K (f <$> p) := by
  rw [map_eq_pure_bind]
  exact hp.bind fun a => .pure (f a)

theorem discard (hp : Routine K p) : Routine K (discard p) := hp.map _

/-- **What the primitives keep true, every routine keeps true.** -/
theorem keeps {I : Heap → Prop}
    (halloc : ∀ b, (∀ t, b ≠ .string t) → (∀ o, b = .object o → K o.kind) → Proc.Keeps I (Heap.alloc b))
    (hintern : ∀ t, Proc.Keeps I (Heap.intern t))
    (hobject : ∀ o f, (∀ x, (f x).kind = x.kind) → Proc.Keeps I (Heap.modifyObject o f))
    (hscope : ∀ s f, Proc.Keeps I (Heap.modifyScope s f))
    (hcell : ∀ c f, Proc.Keeps I (Heap.modifyCell c f)) (hp : Routine K p) : Proc.Keeps I p := by
  induction hp with
  | pure a => exact .pure a
  | fail e => exact fun _ hs => hs
  | reads f => exact .reads f
  | alloc b hb hk => exact halloc b hb hk
  | intern t => exact hintern t
  | modifyObject o f hf => exact hobject o f hf
  | modifyScope s f => exact hscope s f
  | modifyCell c f => exact hcell c f
  | bind _ _ ihp ihf => exact ihp.bind ihf

theorem alloc_ends (b : Block) (h : Heap) : Heap.alloc b h ≠ .stalled := by
  unfold Heap.alloc
  repeat' split
  all_goals nofun

/-- **A routine always ends.** -/
theorem ends (hp : Routine K p) (h : Heap) : p h ≠ .stalled := by
  induction hp generalizing h with
  | pure a => exact nofun
  | fail e => exact nofun
  | reads f =>
    unfold Proc.reads
    cases f h <;> nofun
  | alloc b => exact alloc_ends b h
  | intern t =>
    have halloc := alloc_ends (.string t) h
    unfold Heap.intern
    split
    · nofun
    · split
      · nofun
      · nofun
      · next hstalled => exact absurd hstalled halloc
  | modifyObject o f =>
    unfold Heap.modifyObject
    split <;> nofun
  | modifyScope s f =>
    unfold Heap.modifyScope
    split <;> nofun
  | modifyCell c f =>
    unfold Heap.modifyCell
    repeat' split
    all_goals nofun
  | @bind _ _ p f _ _ ihp ihf =>
    cases hdone : p h with
    | done a h' =>
      rw [Proc.bind_done hdone]
      exact ihf a h'
    | failed e h' =>
      rw [Proc.bind_failed hdone]
      exact nofun
    | stalled => exact absurd hdone (ihp h)

end Routine

/-! ### Strings and keys -/

theorem routine_keyOfName (name : String) : Routine K (keyOfName name) :=
  .bind (.intern _) fun _ => .reads _

theorem routine_keyToString (key : PropertyKey) : Routine K (keyToString key) := by
  cases key with
  | string s => exact .pure s
  | index i => exact .intern _

/-! ### Objects and cells -/

theorem routine_allocCell (d : Descriptor) : Routine K (allocCell d) :=
  .map (.alloc (.cell d) (by simp) (by simp)) _

theorem routine_allocObject (prototype : Option ObjectRef) (tag : ClassTag) {kind : ObjectKind}
    (hk : K kind) : Routine K (allocObject prototype tag kind) := by
  have hnew : Routine K (alloc (.object ⟨prototype, tag, true, .empty, kind⟩)) := by
    refine .alloc _ (by simp) fun o ho => ?_
    cases ho
    exact hk
  unfold allocObject
  cases prototype with
  | none => exact .bind hnew fun _ => .pure _
  | some p => exact .bind (.discard (.reads _)) fun _ => .bind hnew fun _ => .pure _

theorem routine_preventExtensions (o : ObjectRef) : Routine K (preventExtensions o) :=
  .modifyObject o _ fun _ => rfl

theorem routine_setPrototype (o : ObjectRef) (p : Option ObjectRef) : Routine K (setPrototype o p) :=
  .bind (.discard (.reads _)) fun _ => .bind (.reads _) fun _ => .modifyObject o _ fun _ => rfl

/-- What a key needs: the object, and memory if it does not have the key yet. -/
theorem reserve_of_object [Memory] {h : Heap} {o : ObjectRef} {obj : Object} (ho : h.object o = .ok obj)
    (key : PropertyKey) : h.reserve o key =
      if (obj.properties.find? key).isNone && !Memory.grants h o then .error .outOfMemory else .ok () := by
  unfold reserve
  rw [ho]
  rfl

/-- As long as memory does not run short, any live cell can be bound. -/
theorem installCell_ample (o : ObjectRef) (key : PropertyKey) (c : CellRef) :
    installCell o key c = (do
      discard (Proc.reads fun h => h.cell c)
      modifyObject o fun obj => { obj with properties := obj.properties.insert key c }) := by
  unfold installCell
  refine bind_congr fun _ => funext fun h => ?_
  rw [Proc.reads_bind]
  cases ho : h.object o with
  | error e =>
    unfold reserve modifyObject
    rw [ho]
    rfl
  | ok obj =>
    have hgranted : h.reserve o key = .ok () :=
      (reserve_of_object ho key).trans (if_neg (Bool.eq_false_iff.mp (Bool.and_false _)))
    rw [hgranted]

theorem routine_installCell [Memory] (o : ObjectRef) (key : PropertyKey) (c : CellRef) :
    Routine K (installCell o key c) :=
  .bind (.discard (.reads _)) fun _ => .bind (.reads _) fun _ => .modifyObject o _ fun _ => rfl

theorem routine_define [Memory] (o : ObjectRef) (key : PropertyKey) (d : Descriptor) : Routine K (define o key d) :=
  .bind (.discard (.reads _)) fun _ => .bind (routine_allocCell d) fun c =>
    .bind (routine_installCell o key c) fun _ => .pure c

theorem routine_remove (o : ObjectRef) (key : PropertyKey) : Routine K (remove o key) := by
  refine .bind (.reads _) fun c => ?_
  cases c with
  | none => exact .pure _
  | some c => exact .bind (.modifyObject o _ fun _ => rfl) fun _ => .pure _

theorem routine_retainKeys (o : ObjectRef) (p : PropertyKey → Bool) : Routine K (retainKeys o p) :=
  .modifyObject o _ fun _ => rfl

/-! ### Scopes -/

theorem routine_allocScope (s : Scope) : Routine K (allocScope s) :=
  .bind (.discard (.reads _)) fun _ => .bind (.alloc (.scope s) (by simp) (by simp)) fun _ => .pure _

theorem routine_setScopeWriteTo (s : ScopeRef) (target : Option ObjectRef) :
    Routine K (setScopeWriteTo s target) := by
  unfold setScopeWriteTo
  cases target with
  | none => exact .modifyScope s _
  | some o => exact .bind (.discard (.reads _)) fun _ => .modifyScope s _

theorem routine_childScope (hk : K .ordinary) (parent : ScopeRef) : Routine K (childScope parent) :=
  .bind (.reads _) fun _ => .bind (routine_allocObject none .object hk) fun _ => routine_allocScope _

theorem routine_declare (s : ScopeRef) (name : String) (v : Value) : Routine K (declare s name v) :=
  .bind (.reads _) fun _ => .bind (routine_keyOfName name) fun _ => routine_define _ _ _

theorem routine_declareAll (s : ScopeRef) : ∀ names : List String, Routine K (declareAll s names)
  | [] => .pure _
  | name :: rest => .bind (.discard (routine_declare s name _)) fun _ => routine_declareAll s rest

theorem routine_declareCell (s : ScopeRef) (name : String) (c : CellRef) :
    Routine K (declareCell s name c) :=
  .bind (.reads _) fun _ => .bind (routine_keyOfName name) fun _ => routine_installCell _ _ c

end ScriptCore.Heap
