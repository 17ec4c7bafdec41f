import ScriptCore.Proofs.Calls.Declaring
import ScriptCore.Proofs.Calls.Expressions

/-! # Setting up a call works by acts

A call is set up in a scope of its own, which binds names in an object that nothing else binds names in. Its
arguments get cells of their own, which are held by the arguments object in sloppy code and by nothing in strict
code. Once that is done the call can be put on record.

* `World.Open`, `World.Entering`: the scope of a call that has not started.
* `World.Filling`: **the cells of the arguments**, as far as there are any.
* `InvocationTask.works_setUp`: **setting up a call works by acts.**
* `InvocationTask.Equipped.entered`, `InvocationTask.OnRecord`: a call that was set up is put on record. -/

namespace ScriptCore

open Heap (Stays refers_iff object_eq_ok cell_eq_ok scope_eq_ok)

variable {α : Type} {S : Setting} {own : Handle → Prop} {w w' : World} {label : List Handle} {E : Engine}
  {o a : ObjectRef} {key : PropertyKey} {c : CellRef} {cs : List CellRef} {d : Descriptor} {v : Value}
  {s : ScopeRef} {name : String} {k k' : Call} {i : Nat} {strict : Bool}

/-! ### Rules -/

namespace Works

variable {Q : World → α → Prop}

/-- **An act that leaves the heap as it is** comes about without a step of the procedure. -/
theorem after_record {p : Run α} (w' : World) (ha : w.Lawful S → Act S w label w') (hheap : w'.heap = w.heap)
    (howned : ∀ y ∈ label, own y) (hp : Works S own w' p Q) : Works S own w p Q := by
  intro hw hown m hm
  have hact := ha hw
  have hfresh : ∀ x, w'.Fresh x → own x := fun x hx => hown x (by
    show w.heap.block? x = none
    rw [← hheap]
    exact hx)
  exact (hp (hact.lawful hw) hfresh m ⟨hm.heap.trans hheap.symm, hm.realm, hm.active⟩).after (.one hact howned)

end Works

/-- What is live is not new. -/
theorem World.not_fresh_object {obj : Object} (ho : w.heap.object o = .ok obj) : ¬ w.Fresh o.handle := fun hfresh => by
  cases hfresh.symm.trans (object_eq_ok.mp ho)

theorem World.not_fresh_cell (hc : w.heap.cell c = .ok d) : ¬ w.Fresh c.handle := fun hfresh => by
  cases hfresh.symm.trans (cell_eq_ok.mp hc)

theorem World.not_fresh_private (ho : w.heap.Private S.realm o) : ¬ w.Fresh o.handle :=
  ho.elim fun _ hobj => not_fresh_object hobj.1

/-! ### Scopes of calls that have not started -/

/-- The scope binds names in an object of its own, and the call whose scope it is has not started. -/
structure World.Open (S : Setting) (own : Handle → Prop) (w : World) (s : ScopeRef) (o : ObjectRef) : Prop where
  binds : w.heap.Binds s o
  hidden : w.heap.Private S.realm o
  owned : own o.handle
  waiting : ∀ k ∈ w.calls, k.bindings = o → k.started = false

/-- The scope is that of a call that is not on record yet. -/
structure World.Entering (S : Setting) (own : Handle → Prop) (w : World) (s : ScopeRef) (o : ObjectRef) : Prop where
  binds : w.heap.Binds s o
  hidden : w.heap.Private S.realm o
  owned : own o.handle
  unused : ∀ k ∈ w.calls, k.bindings ≠ o

namespace World

variable {own' : Handle → Prop}

theorem Open.same (ho : w.Open S own s o) (hacts : Acts S own' w w') (hcalls : w'.calls = w.calls) :
    w'.Open S own s o := ⟨hacts.binds ho.binds, hacts.hidden ho.hidden, ho.owned, hcalls ▸ ho.waiting⟩

theorem Entering.same (he : w.Entering S own s o) (hacts : Acts S own' w w') (hcalls : w'.calls = w.calls) :
    w'.Entering S own s o := ⟨hacts.binds he.binds, hacts.hidden he.hidden, he.owned, hcalls ▸ he.unused⟩

/-- Code that takes only what is new does not use the object. -/
theorem Entering.next (he : w.Entering S own s o) (hacts : Acts S w.Fresh w w') : w'.Entering S own s o := by
  refine ⟨hacts.binds he.binds, hacts.hidden he.hidden, he.owned, fun k' hk' hb => ?_⟩
  rcases hacts.call_cases hk' with ⟨k, hk, hbecomes⟩ | hall
  · exact he.unused k hk (hbecomes.bindings ▸ hb)
  · exact not_fresh_private he.hidden (hb ▸ hall _ k'.mem_handles_bindings)

theorem Entering.opened (he : w.Entering S own s o) : w.Open S own s o :=
  ⟨he.binds, he.hidden, he.owned, fun k hk hb => absurd hb (he.unused k hk)⟩

end World

/-- Names were bound again in the object, to cells of their own. -/
structure World.Overlays (w : World) (o : ObjectRef) (names : List String) (w' : World) : Prop where
  calls : w'.calls = w.calls
  kept : ∀ o' key c, w.heap.Refers o' key c → (o' = o → ∀ name ∈ names, ¬ w'.heap.Spells key name) →
    w'.heap.Refers o' key c

theorem World.Rebinds.overlays (hr : w.Rebinds o key c w') (hspells : w'.heap.Spells key name) :
    w.Overlays o [name] w' :=
  ⟨hr.calls, fun _ key' _ hold hother => (hr.other fun hsame : _ ∧ key' = key =>
    hother hsame.1 name (List.mem_singleton_self _) (hsame.2 ▸ hspells)).mpr hold⟩

theorem works_declareOpen (ho : w.Open S own s o) (hv : w.Shows S v) :
    Works S own w (Run.onHeap (declare s name v)) fun w' _ => w.Overlays o [name] w' :=
  (works_declare ho.binds hv fun _ _ _ => .declares ho.hidden ho.owned ho.waiting).imp
    fun _ _ _ _ ⟨_, _, hspells, hr⟩ => hr.overlays hspells

theorem works_declareAll : ∀ (names : List String) {w : World}, w.Open S own s o →
    Works S own w (Run.onHeap (declareAll s names)) fun w' _ => w.Overlays o names w'
  | [], _, _ => .pure ⟨rfl, fun _ _ _ hr _ => hr⟩
  | name :: rest, w, ho => by
    unfold declareAll
    rw [Proc.discard_bind, Run.onHeap_bind]
    refine (works_declareOpen (v := .undefined) ho trivial).bind fun w₁ _ _ hacts hfirst => ?_
    refine (works_declareAll rest (ho.same hacts hfirst.calls)).imp fun w₂ _ _ hacts₂ hrest => ?_
    refine ⟨hrest.calls.trans hfirst.calls, fun o' key c hr hother => hrest.kept o' key c ?_ fun ho' name' hname' =>
      hother ho' name' (List.mem_cons_of_mem _ hname')⟩
    refine hfirst.kept o' key c hr fun ho' name' hname' hspells => ?_
    cases List.mem_singleton.mp hname'
    exact hother ho' name (List.mem_cons_self ..) (hacts₂.spells hspells)

/-- Names that a scope declares one after the other are declared in it. -/
theorem works_declareAll_declares : ∀ (names : List String) {w : World}, w.Entering S own s o →
    Works S own w (Run.onHeap (declareAll s names)) fun w' _ =>
      w'.Entering S own s o ∧ ∀ name ∈ names, w'.heap.Declares s name
  | [], _, he => .pure ⟨he, by simp⟩
  | name :: rest, w, he => by
    unfold declareAll
    rw [Proc.discard_bind, Run.onHeap_bind]
    have hplace : w.Open S own s o := he.opened
    refine (works_declare (v := .undefined) he.binds trivial fun _ _ _ =>
      .declares hplace.hidden hplace.owned hplace.waiting).bind fun w₁ _ hw₁ hacts ⟨_, key, hspells, hr⟩ => ?_
    have he₁ := he.same hacts hr.calls
    have hfirst : w₁.heap.Declares s name := hw₁.declares he₁.binds he₁.hidden hspells hr.self
    refine (works_declareAll_declares rest he₁).imp fun w₂ _ _ hacts₂ ⟨he₂, hrest⟩ => ⟨he₂, fun name' hname' => ?_⟩
    rcases List.mem_cons.mp hname' with rfl | hmem
    · exact hacts₂.declares hw₁ hfirst
    · exact hrest name' hmem

/-! ### The cells of the arguments -/

/-- **The cells of the arguments of a call that is not on record yet.** They are held by the arguments object alone, at
their positions, and not even there in strict code. -/
structure World.Filling (S : Setting) (own : Handle → Prop) (w : World) (strict : Bool) (a : ObjectRef)
    (cs : List CellRef) : Prop where
  unguarded : w.Unguarded S a
  ordinary : ∃ obj, w.heap.object a = .ok obj ∧ obj.kind = .ordinary
  owned : own a.handle ∧ ∀ c ∈ cs, own c.handle
  distinct : cs.Nodup
  live : ∀ c ∈ cs, ∃ d, w.heap.cell c = .ok d ∧ d.isWritable = true
  unused : ∀ c ∈ cs, ∀ k ∈ w.calls, ∀ i, ¬ k.HasCell i c
  held : ∀ (i : Nat) c o key, cs[i]? = some c → w.heap.Refers o key c →
    strict = false ∧ o = a ∧ key = .index i.toUInt32
  slots : strict = false → ∀ (i : Nat) c, cs[i]? = some c → w.heap.Refers a (.index i.toUInt32) c

namespace World.Filling

theorem length (hf : w.Filling S own strict a cs) (hw : w.Lawful S) : cs.length < UInt32.size :=
  hw.heap.numbered.count_cells hf.distinct fun c hc => (hf.live c hc).imp fun _ hd => hd.1

theorem live_next {own' : Handle → Prop} (hf : w.Filling S own strict a cs) (hacts : Acts S own' w w') :
    (∃ obj, w'.heap.object a = .ok obj ∧ obj.kind = .ordinary) ∧
      ∀ c ∈ cs, ∃ d, w'.heap.cell c = .ok d ∧ d.isWritable = true := by
  refine ⟨?_, fun c hc => ?_⟩
  · obtain ⟨obj, ho, hkind⟩ := hf.ordinary
    obtain ⟨obj', ho', hkind', -⟩ := hacts.stays.objects a obj trivial ho
    exact ⟨obj', ho', hkind'.trans hkind⟩
  · obtain ⟨d, hd, hwritable⟩ := hf.live c hc
    obtain ⟨d', hd', -, hsame⟩ := hacts.stays.cells c d trivial hd
    exact ⟨d', hd', hsame.trans hwritable⟩

/-- What is bound to other cells, in other objects or under other keys does not matter. -/
theorem rebinds {own' : Handle → Prop} (hf : w.Filling S own strict a cs) (hacts : Acts S own' w w')
    (hr : w.Rebinds o key c w') (hc : c ∉ cs) (hkey : o = a → ∀ i, i < cs.length → key ≠ .index i.toUInt32) :
    w'.Filling S own strict a cs where
  unguarded := hf.unguarded.next hacts hr.calls
  ordinary := (hf.live_next hacts).1
  owned := hf.owned
  distinct := hf.distinct
  live := (hf.live_next hacts).2
  unused := hr.calls ▸ hf.unused
  held i c' o' key' hi hrefers := by
    have hold := (hr.refers o' key' c').mp hrefers
    split at hold
    · exact absurd (List.mem_of_getElem? hi) (hold ▸ hc)
    · exact hf.held i c' o' key' hi hold
  slots hsloppy i c' hi :=
    (hr.other fun hsame => hkey hsame.1.symm i (List.getElem?_eq_some_iff.mp hi).1 hsame.2.symm).mpr
      (hf.slots hsloppy i c' hi)

theorem extended {own' : Handle → Prop} (hf : w.Filling S own strict a cs) (hacts : Acts S own' w w')
    (hext : w.Extends w') : w'.Filling S own strict a cs where
  unguarded := hf.unguarded.next hacts hext.calls
  ordinary := (hf.live_next hacts).1
  owned := hf.owned
  distinct := hf.distinct
  live := (hf.live_next hacts).2
  unused := hext.calls ▸ hf.unused
  held i c' o' key' hi hrefers := hf.held i c' o' key' hi ((hext.refers _ _ _).mp hrefers)
  slots hsloppy i c' hi := (hext.refers _ _ _).mpr (hf.slots hsloppy i c' hi)

/-- A cell in strict code is free. -/
theorem free (hf : w.Filling S own true a cs) (hc : c ∈ cs) : w.Free c := by
  refine ⟨fun o key hr => ?_, hf.unused c hc⟩
  obtain ⟨i, hi⟩ := List.mem_iff_getElem?.mp hc
  exact absurd (hf.held i c o key hi hr).1 (by simp)

/-- Code that takes only what is new leaves the arguments of strict code alone. -/
theorem next (hf : w.Filling S own true a cs) (hacts : Acts S w.Fresh w w') : w'.Filling S own true a cs := by
  have hfree : ∀ c ∈ cs, w'.Free c := fun c hc =>
    hacts.free (hf.free hc) ((hf.live c hc).elim fun _ hd => World.not_fresh_cell hd.1)
  refine ⟨hacts.unguarded hf.unguarded ?_, (hf.live_next hacts).1, hf.owned, hf.distinct, (hf.live_next hacts).2,
    fun c hc => (hfree c hc).2, fun i c o key hi hr => ?_, by simp⟩
  · obtain ⟨obj, ho, -⟩ := hf.ordinary
    exact World.not_fresh_object ho
  · exact absurd hr ((hfree c (List.mem_of_getElem? hi)).1 o key)

/-- One more cell, that of the argument at the next position. -/
theorem append (hf : w.Filling S own strict a cs) (hc : w.heap.cell c = .ok d) (hwritable : d.isWritable = true)
    (hown : own c.handle) (hnew : c ∉ cs) (hunused : ∀ k ∈ w.calls, ∀ i, ¬ k.HasCell i c)
    (hheld : ∀ o key, w.heap.Refers o key c → strict = false ∧ o = a ∧ key = .index cs.length.toUInt32)
    (hslot : strict = false → w.heap.Refers a (.index cs.length.toUInt32) c) :
    w.Filling S own strict a (cs ++ [c]) := by
  have hat : ∀ {i c'}, (cs ++ [c])[i]? = some c' → cs[i]? = some c' ∨ i = cs.length ∧ c' = c := by
    intro i c' hi
    rw [List.getElem?_append] at hi
    split at hi
    · exact .inl hi
    · next hle =>
      have hzero : i - cs.length = 0 := by
        by_contra hne
        rw [List.getElem?_eq_none (by simp; omega)] at hi
        cases hi
      rw [hzero] at hi
      exact .inr ⟨by omega, (Option.some.inj hi).symm⟩
  refine ⟨hf.unguarded, hf.ordinary, ⟨hf.owned.1, fun c' hc' => ?_⟩, ?_, fun c' hc' => ?_, fun c' hc' => ?_,
    fun i c' o key hi hr => ?_, fun hsloppy i c' hi => ?_⟩
  · rcases List.mem_append.mp hc' with hold | hold
    · exact hf.owned.2 c' hold
    · exact List.mem_singleton.mp hold ▸ hown
  · refine hf.distinct.append (List.nodup_singleton c) fun x hx hx' => ?_
    exact hnew (List.mem_singleton.mp hx' ▸ hx)
  · rcases List.mem_append.mp hc' with hold | hold
    · exact hf.live c' hold
    · exact List.mem_singleton.mp hold ▸ ⟨d, hc, hwritable⟩
  · rcases List.mem_append.mp hc' with hold | hold
    · exact hf.unused c' hold
    · exact List.mem_singleton.mp hold ▸ hunused
  · rcases hat hi with hold | ⟨rfl, rfl⟩
    · exact hf.held i c' o key hold hr
    · exact hheld o key hr
  · rcases hat hi with hold | ⟨rfl, rfl⟩
    · exact hf.slots hsloppy i c' hold
    · exact hslot hsloppy

end World.Filling

/-! ### Setting up -/

theorem works_adjustScope {f : Scope → Scope}
    (hf : ∀ sc, w.heap.scope s = .ok sc → ∃ u strict, f sc = { sc with receiver := u, strict } ∧
      u.Public S.realm w.heap) :
    Works S own w (Run.onHeap (Heap.modifyScope s f)) fun w' _ => Acts S w.Fresh w w' :=
  (works_modifyScope hf).narrow.imp fun _ _ _ _ hacts => hacts.2

namespace InvocationTask

variable {t : InvocationTask}

/-- What a call brings along names no private object. -/
structure Shown (S : Setting) (w : World) (t : InvocationTask) : Prop where
  callee : w.heap.Public S.realm t.callee
  closure : (ObjectKind.closure t.closure).Public S.realm w.heap
  receiver : w.Shows S t.receiver
  args : ∀ v ∈ t.args, w.Shows S v
  callerScope : ∃ o, w.heap.Binds t.callerScope o

theorem Shown.persists {P : Handle → Prop} (ht : t.Shown S w) (hp : Heap.Persists P w.heap w'.heap)
    (hP : ∀ x ∈ t.handles, P x) : t.Shown S w' where
  callee := hp.publicObject ht.callee (hP _ (by simp [InvocationTask.handles]))
  closure := hp.closure ht.closure fun x hx => hP x (by simp [InvocationTask.handles, hx])
  receiver := hp.value ht.receiver fun x hx => hP x (by simp [InvocationTask.handles, hx])
  args v hv := hp.value (ht.args v hv) fun x hx => hP x (by
    have hargs : x ∈ t.args.flatMap Value.handles := List.mem_flatMap_of_mem hv hx
    simp [InvocationTask.handles, hargs])
  callerScope := ht.callerScope.imp fun _ hs => hp.binds hs (hP _ (by simp [InvocationTask.handles]))

theorem Shown.next (ht : t.Shown S w) (hacts : Acts S own w w') : t.Shown S w' :=
  ht.persists hacts.stays fun _ _ => trivial

theorem works_openScope (ht : t.Shown S w) :
    Works S own w t.openScope fun w' r => w'.Shows S r.2 ∧ ∃ o, w'.Entering S own r.1 o := by
  unfold openScope
  rw [ht.closure.1]
  refine .lawful fun hw => .owning fun hown => works_childScope.bind fun w₁ s _ hacts ⟨o, hs, hprivate, hfresh, hext, _⟩ =>
    .pure ⟨?_, o, hs, hprivate, hown _ hfresh, fun k hk hb => ?_⟩
  · cases hreceiver : t.closure.receiver with
    | none => exact hacts.value ht.receiver
    | some v => exact hacts.value (ht.closure.2.2 v hreceiver)
  · rw [hext.calls] at hk
    exact World.not_fresh_private (hw.calls k hk).bindings (hb ▸ hfresh)

theorem works_bodyReceiver (t : InvocationTask) (strict : Bool) (hv : w.Shows S v) :
    Works S own w (t.bodyReceiver strict v) fun w' u => w' = w ∧ w'.Shows S u := by
  refine .lawful fun hw => .realm_bind (.ite (fun _ => ?_) fun _ => .pure ⟨rfl, hv⟩)
  refine .read (Heap.mild_outermostWithin _ _) fun o ho => .pure ⟨rfl, ?_⟩
  cases hw.heap.outermost _ _ ho
  exact hw.realm.global

/-- The names that a call declares before it binds its parameters; the variables of the body are among them. -/
theorem works_declareNames (ht : t.Shown S w) (he : w.Entering S own s o) (strict : Bool) :
    Works S own w (t.declareNames s strict) fun w' _ =>
      w'.Entering S own s o ∧ ∀ name ∈ t.closure.function.vars, w'.heap.Declares s name := by
  have hfunctions : ∀ {w}, w.Entering S own s o → (∀ name ∈ t.closure.function.vars, w.heap.Declares s name) →
      Works S own w
        (if (!strict) = true then Run.onHeap (declareAll s (t.closure.function.functions.filterMap (·.name)))
          else Pure.pure ()) fun w' _ =>
            w'.Entering S own s o ∧ ∀ name ∈ t.closure.function.vars, w'.heap.Declares s name := fun he hvars =>
    .ite (fun _ => .lawful fun hw => (works_declareAll _ he.opened).imp fun _ _ _ hacts hnames =>
      ⟨he.same hacts hnames.calls, fun name hname => hacts.declares hw (hvars name hname)⟩) fun _ => .pure ⟨he, hvars⟩
  have hrest : ∀ {w}, w.Entering S own s o → Works S own w (do
      declareAll s t.closure.function.vars
      if !strict then declareAll s (t.closure.function.functions.filterMap (·.name)) : Run Unit)
        fun w' _ => w'.Entering S own s o ∧ ∀ name ∈ t.closure.function.vars, w'.heap.Declares s name := fun he =>
    (works_declareAll_declares _ he).bind fun _ _ _ _ hvars => hfunctions hvars.1 hvars.2
  unfold declareNames
  dsimp only
  cases t.closure.function.name with
  | none => exact hrest he
  | some name =>
    exact .discard_bind (works_declareOpen (v := .object t.callee) he.opened ht.callee) fun _ _ _ hacts hnames =>
      hrest (he.same hacts hnames.calls)

/-- **Each argument gets a cell.** -/
theorem works_fillArguments (hE : E.Fair S) : ∀ (vs : List Value) (i : Nat) (cs : List CellRef) {w : World},
    w.Filling S own strict a cs → cs.length = i → (∀ v ∈ vs, w.Shows S v) → w.Entering S own s o →
    Works S own w (fillArguments E a strict i vs) fun w' new =>
      w'.Filling S own strict a (cs ++ new) ∧ w'.Entering S own s o
  | [], _, cs, w, hf, _, _, he => by
    unfold fillArguments
    exact .pure ⟨by rwa [List.append_nil], he⟩
  | v :: vs, i, cs, w, hf, hi, hvs, he => by
    unfold fillArguments
    have hd : (Descriptor.data v).Public S.realm w.heap := hvs v (List.mem_cons_self ..)
    refine .owning fun hown => (works_allocCell hd).bind fun w₁ c hw₁ hacts ⟨hc, hfree, hfresh, hext⟩ => ?_
    have hf₁ := hf.extended hacts hext
    have he₁ := he.same hacts hext.calls
    have hnew : c ∉ cs := fun hmem => (hf.live c hmem).elim fun _ hd => World.not_fresh_cell hd.1 hfresh
    have hrest : ∀ {w₂}, Acts S own w₁ w₂ → w₂.Filling S own strict a (cs ++ [c]) → w₂.Entering S own s o →
        Works S own w₂ (do return c :: (← fillArguments E a strict (i + 1) vs)) fun w' new =>
          w'.Filling S own strict a (cs ++ new) ∧ w'.Entering S own s o := by
      intro w₂ hacts₂ hf₂ he₂
      refine (works_fillArguments hE vs (i + 1) (cs ++ [c]) hf₂ (by simp [hi]) (fun u hu => ?_) he₂).bind
        fun w₃ new _ _ ⟨hf₃, he₃⟩ => .pure ⟨by rwa [List.append_assoc] at hf₃, he₃⟩
      exact hacts₂.value (hacts.value (hvs u (List.mem_cons_of_mem _ hu)))
    cases strict with
    | true =>
      have hf₂ : w₁.Filling S own true a (cs ++ [c]) := hf₁.append hc rfl (hown _ hfresh) hnew hfree.2
        (fun o key hr => absurd hr (hfree.1 o key)) (by simp)
      have hwrite : Works S w₁.Fresh w₁ (setProperty E a (.index i.toUInt32) v true) World.Anything :=
        works_setProperty hE (Heap.keyed_index _) (.inl hf₁.unguarded.shown) (hacts.value hd)
      exact .discard_bind hwrite.narrow fun w₂ _ _ hacts₂ ⟨_, hnarrow⟩ =>
        hrest hacts₂ (hf₂.next hnarrow) (he₁.next hnarrow)
    | false =>
      refine (works_installCell hc rfl hfree (hown _ hfresh) (Heap.keyed_index _)
        fun _ => .unguarded hf₁.unguarded).bind fun w₂ _ hw₂ hacts₂ hinstalled => ?_
      obtain ⟨hr, hc₂⟩ := hinstalled
      have hsize : cs.length < UInt32.size := hf₁.length hw₁
      have hf₂ : w₂.Filling S own false a cs := hf₁.rebinds hacts₂ hr hnew fun _ j hj hij =>
        absurd (Heap.index_injective (hi ▸ hsize) (by omega) hij) (by omega)
      refine hrest hacts₂ (hf₂.append hc₂ rfl (hown _ hfresh) hnew (hr.calls ▸ hfree.2) (fun o key hrefers => ?_)
        fun _ => hi ▸ hr.self) (he₁.same hacts₂ hr.calls)
      have hold := (hr.refers o key c).mp hrefers
      split at hold
      · next hsame => exact ⟨rfl, hsame.1, hi ▸ hsame.2⟩
      · exact absurd hold (hfree.1 o key)

/-- A property of the arguments object that is no element. -/
theorem works_defineNamed (hf : w.Filling S own strict a cs) (he : w.Entering S own s o) (hv : w.Shows S v)
    (hkey : key ∈ S.realm.names.all) :
    Works S own w (Run.onHeap (Heap.define a key (.hidden v))) fun w' _ =>
      w'.Filling S own strict a cs ∧ w'.Entering S own s o := by
  refine .lawful fun hw => (works_define (public_hidden hv) rfl (hw.named hkey) fun _ => .unguarded hf.unguarded).imp
    fun w' c _ hacts ⟨hfresh, hr, _⟩ => ⟨hf.rebinds hacts hr (fun hmem => ?_) fun _ i _ => hw.realm.strings key hkey _,
      he.same hacts hr.calls⟩
  exact (hf.live c hmem).elim fun _ hd => World.not_fresh_cell hd.1 hfresh

/-- **The arguments object and the cells of the arguments.** -/
theorem works_allocArguments (hE : E.Fair S) (ht : t.Shown S w) (he : w.Entering S own s o) (strict : Bool) :
    Works S own w (t.allocArguments E strict) fun w' r => w'.Filling S own strict r.1 r.2 ∧ w'.Entering S own s o := by
  have hordinary : ObjectKind.ordinary.Public S.realm w.heap := trivial
  refine .owning fun hown => .realm_bind ((works_allocPublic hordinary).bind
    fun w₁ a _ hacts ⟨hunguarded, ha, hfresh, hext⟩ => ?_)
  have ht₁ := ht.next hacts
  have hempty : w₁.Filling S own strict a [] :=
    ⟨hunguarded, ⟨_, ha, rfl⟩, ⟨hown _ hfresh, by simp⟩, .nil, by simp, by simp, by simp, by simp⟩
  have hpadded : ∀ v ∈ t.paddedArgs, w₁.Shows S v := by
    intro v hv
    rcases List.mem_append.mp hv with hv | hv
    · exact ht₁.args v hv
    · obtain rfl := List.eq_of_mem_replicate hv
      trivial
  refine (works_fillArguments hE t.paddedArgs 0 [] hempty rfl hpadded (he.same hacts hext.calls)).bind
    fun w₂ cs _ hacts₂ ⟨hf, he₂⟩ => ?_
  rw [List.nil_append] at hf
  have hfinish : ∀ {w}, w.Filling S own strict a cs → w.Entering S own s o → Works S own w (do
      discard (Heap.define a S.realm.names.length (.hidden (.ofCount t.args.length)))
      return (a, cs) : Run (ObjectRef × List CellRef)) fun w' r =>
        w'.Filling S own strict r.1 r.2 ∧ w'.Entering S own s o := fun hf he =>
    .discard_bind (works_defineNamed (v := .ofCount t.args.length) hf he trivial (by simp [CommonNames.all]))
      fun _ _ _ _ hdone => .pure hdone
  cases strict with
  | true => exact hfinish hf he₂
  | false =>
    exact .discard_bind (works_defineNamed (v := .object t.callee) hf he₂ (ht₁.next hacts₂).callee
      (by simp [CommonNames.all])) fun _ _ _ _ hdone => hfinish hdone.1 hdone.2

/-! ### Calls on record -/

/-- The call is on record. -/
structure OnRecord (w : World) (t : InvocationTask) (s : ScopeRef) (k : Call) : Prop where
  mem : k ∈ w.calls
  function : k.function = t.closure.function
  strict : k.strict = t.strict
  cells : k.cells = t.argCells.map some
  scope : t.scope = some s
  binds : w.heap.Binds s k.bindings

theorem OnRecord.next (hr : t.OnRecord w s k) (hacts : Acts S own w w') :
    ∃ k', t.OnRecord w' s k' ∧ k.Becomes (own k.bindings.handle) k' := by
  obtain ⟨k', hk', hb⟩ := hacts.call hr.mem
  exact ⟨k', ⟨hk', hb.function.trans hr.function, hb.strict.trans hr.strict, hb.cells.trans hr.cells, hr.scope,
    hb.bindings ▸ hacts.binds hr.binds⟩, hb⟩

theorem OnRecord.hasCell (hr : t.OnRecord w s k) (hc : t.argCells[i]? = some c) : k.HasCell i c := by
  unfold Call.HasCell
  rw [hr.cells, List.getElem?_map, hc]
  rfl

theorem hasCell_record : (t.record o a).HasCell i c ↔ t.argCells[i]? = some c := by
  unfold Call.HasCell record
  rw [List.getElem?_map]
  cases t.argCells[i]? with
  | none => simp
  | some c' => simp

/-- What is set up may be put on record. -/
theorem proper_record (hw : w.Lawful S) (hf : w.Filling S own t.strict a t.argCells)
    (he : w.Entering S own s o) : (t.record o a).Proper S.realm w.heap where
  bindings := he.hidden
  arguments a' ha := by
    obtain rfl : a = a' := Option.some.inj ha
    exact ⟨hf.unguarded.global, hf.unguarded.shown, hf.ordinary⟩
  length := by
    rw [show (t.record o a).cells = t.argCells.map some from rfl, List.length_map]
    exact hf.length hw
  cell i c hc := hf.live c (List.mem_of_getElem? (hasCell_record.mp hc))
  held i c o' key hc hr := by
    obtain ⟨hsloppy, rfl, rfl⟩ := hf.held i c o' key (hasCell_record.mp hc) hr
    exact ⟨hsloppy, .inl ⟨rfl, rfl⟩⟩
  slots hsloppy a' i ha hi _ := by
    obtain rfl : a = a' := Option.some.inj ha
    rw [show (t.record o a).cells = t.argCells.map some from rfl, List.length_map] at hi
    exact ⟨t.argCells[i], hasCell_record.mpr (List.getElem?_eq_getElem hi),
      hf.slots hsloppy i _ (List.getElem?_eq_getElem hi)⟩
  bound hstarted := by cases hstarted

/-- **The call was set up**: its scope is there and the cells of its arguments, and the name `arguments` is bound to
the object that holds them. -/
structure Equipped (S : Setting) (own : Handle → Prop) (w : World) (t : InvocationTask) (s : ScopeRef)
    (o a : ObjectRef) : Prop where
  shown : t.Shown S w
  scope : t.scope = some s
  filling : w.Filling S own t.strict a t.argCells
  entering : w.Entering S own s o
  named : ∃ c, w.heap.Refers o S.realm.names.arguments c ∧ w.heap.cell c = .ok (.declared (.object a))

namespace Equipped

/-- **A call is put on record** as soon as it was set up. -/
theorem entered (hr : t.Equipped S own w s o a) (hw : w.Lawful S) {E : Engine} {t₀ : InvocationTask} {m m' : Machine}
    (hrun : t₀.setUp E m = .done t m') (hheap : m'.heap = w.heap) :
    Act S w (t.record o a).handles { w with calls := t.record o a :: w.calls } := by
  obtain ⟨c, hc, hvalue⟩ := hr.named
  refine .entered (proper_record hw hr.filling hr.entering)
    (.setUp hrun hheap hr.scope hr.entering.binds hc hvalue) (fun k' hk' => ?_) (fun i j c hi hj => ?_) rfl
  · refine ⟨hr.entering.unused k' hk', fun a' ha => ?_, fun i j c hc => ?_⟩
    · obtain rfl : a = a' := Option.some.inj ha
      exact hr.filling.unguarded.arguments k' hk'
    · exact hr.filling.unused c (List.mem_of_getElem? (hasCell_record.mp hc)) k' hk' j
  · obtain ⟨hi, rfl⟩ := List.getElem?_eq_some_iff.mp (hasCell_record.mp hi)
    obtain ⟨hj, hij⟩ := List.getElem?_eq_some_iff.mp (hasCell_record.mp hj)
    exact ((List.Nodup.getElem_inj_iff hr.filling.distinct).mp hij).symm

theorem owned (hr : t.Equipped S own w s o a) : ∀ x ∈ (t.record o a).handles, own x := by
  intro x hx
  rcases List.mem_cons.mp hx with rfl | hx
  · exact hr.entering.owned
  · rcases List.mem_append.mp hx with hx | hx
    · obtain rfl : x = a.handle := by simpa [record] using hx
      exact hr.filling.owned.1
    · obtain ⟨c', hc', hx⟩ := List.mem_filterMap.mp hx
      obtain ⟨c'', hc'', rfl⟩ := List.mem_map.mp hc'
      cases hx
      exact hr.filling.owned.2 c'' hc''

theorem onRecord (hr : t.Equipped S own w s o a) :
    t.OnRecord { w with calls := t.record o a :: w.calls } s (t.record o a) :=
  ⟨List.mem_cons_self .., rfl, rfl, rfl, hr.scope, hr.entering.binds⟩

end Equipped

/-- Setting up what is left when the scope is there. -/
theorem works_setUpIn (hE : E.Fair S) (ht : t.Shown S w) (hv : w.Shows S v) (he : w.Entering S own s o) :
    Works S own w (do
      let strict ← Run.readHeap fun h => h.scopeIsStrict s
      let receiver ← t.bodyReceiver strict v
      setScopeReceiver s receiver
      t.declareNames s strict
      let (arguments, argCells) ← t.allocArguments E strict
      let names ← Run.names
      let target := (← Run.readHeap fun h => h.scope s).target
      discard (Heap.define target names.arguments (.declared (.object arguments)))
      return { t with scope := some s, strict, argCells } : Run InvocationTask) fun w' t' =>
        ∃ s o a, t'.Equipped S own w' s o a ∧ ∀ name ∈ t'.closure.function.vars, w'.heap.Declares s name := by
  refine .read (Heap.mild_scopeIsStrict s) fun strict _ => ?_
  refine (works_bodyReceiver t strict hv).bind fun w' u _ _ hreceiver => ?_
  obtain ⟨rfl, hu⟩ := hreceiver
  refine Works.bind (works_adjustScope fun sc _ => ⟨u, sc.strict, rfl, hu⟩) fun w₂ _ _ hacts₂ hnew => ?_
  have ht₂ := ht.next hacts₂
  refine (works_declareNames ht₂ (he.next hnew) strict).bind fun w₃ _ hw₃ hacts₃ ⟨he₃, hvars⟩ => ?_
  have ht₃ := ht₂.next hacts₃
  refine (works_allocArguments hE ht₃ he₃ strict).bind fun w₄ r hw₄ hacts₄ hfilled => ?_
  obtain ⟨a, cs⟩ := r
  obtain ⟨hf, he₄⟩ := hfilled
  refine .names_bind (.read (Heap.mild_scope s) fun sc hsc => ?_)
  dsimp only
  rw [(hw₄.heap.scopes s sc hsc).target, he₄.binds.object_eq hsc]
  have hd : (Descriptor.declared (.object a)).Public S.realm w₄.heap := hf.unguarded.shown
  refine .discard_bind (works_define hd rfl (hw₄.named (by simp [CommonNames.all]))
    fun _ => .declares he₄.opened.hidden he₄.opened.owned he₄.opened.waiting) fun w₅ c hw₅ hacts₅ hdefined => ?_
  obtain ⟨hfresh, hr, hvalue⟩ := hdefined
  have hf₅ : w₅.Filling S own strict a cs := by
    refine hf.rebinds hacts₅ hr (fun hmem => ?_) fun hoa => ?_
    · exact (hf.live c hmem).elim fun _ hd => World.not_fresh_cell hd.1 hfresh
    · exact absurd hf.unguarded.shown (hoa ▸ he₄.hidden).not_public
  have ht₅ := (ht₃.next hacts₄).next hacts₅
  exact .pure ⟨s, o, a, ⟨⟨ht₅.callee, ht₅.closure, ht₅.receiver, ht₅.args, ht₅.callerScope⟩, rfl, hf₅,
    he₄.same hacts₅ hr.calls, c, hr.self, hvalue⟩, fun name hname =>
      (hacts₄.trans hacts₅).declares hw₃ (hvars name hname)⟩

/-- **Setting up the scope, the names and the arguments.** The scope declares the variables of the body. -/
theorem works_setUp (hE : E.Fair S) (ht : t.Shown S w) :
    Works S own w (t.setUp E) fun w' t' =>
      ∃ s o a, t'.Equipped S own w' s o a ∧ ∀ name ∈ t'.closure.function.vars, w'.heap.Declares s name := by
  refine (works_openScope ht).bind fun w₁ r hw₁ hacts₁ hopened => ?_
  obtain ⟨s, v⟩ := r
  obtain ⟨hv, o, he⟩ := hopened
  dsimp only at he ⊢
  have ht₁ := ht.next hacts₁
  by_cases hstrict : t.closure.function.strict = true
  · rw [if_pos hstrict]
    exact Works.bind (works_adjustScope fun sc hsc => ⟨sc.receiver, true, rfl, (hw₁.heap.scopes s sc hsc).receiver⟩) fun _ _ _ hacts hnew =>
      works_setUpIn hE (ht₁.next hacts) (hacts.value hv) (he.next hnew)
  · rw [if_neg hstrict]
    exact works_setUpIn hE ht₁ hv he

end InvocationTask

end ScriptCore
