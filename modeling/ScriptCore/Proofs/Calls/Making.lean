import ScriptCore.Proofs.Calls.Reads

/-! # Making blocks and binding keys to them

What the operations on objects, cells and scopes come to in a world: which blocks are new, and which key is bound
to which cell. A key may be bound to a new cell where nothing is bound to it yet, in an object that no scope and
no call depends on, and by whoever binds names in the object.

* `World.Accepts`: where a key may be bound.
* `World.Rebinds`: the world after it was bound.
* `works_allocObject`, `works_define`, `works_declare` and so on: **the operations.** -/

namespace ScriptCore

variable {h : Heap} {S : Setting} {own : Handle → Prop} {w w' : World} {o : ObjectRef}
  {key : PropertyKey} {c : CellRef} {d : Descriptor} {v : Value} {s : ScopeRef} {name : String}

open Heap (Stays refers_iff object_eq_ok cell_eq_ok scope_eq_ok text_eq_ok)

/-! ### Making blocks -/

namespace World

/-- A new object on which nothing depends. -/
theorem Lawful.unguarded (hw : w.Lawful S) (hfresh : w.Fresh o.handle) (hcalls : w'.calls = w.calls)
    (hshown : w'.heap.Public S.realm o) : w'.Unguarded S o := by
  have hlive : ∀ obj, w.heap.object o ≠ .ok obj := by
    intro obj ho
    cases hfresh.symm.trans (object_eq_ok.mp ho)
  refine ⟨?_, hshown, fun k hk ha => ?_⟩
  · rintro rfl
    obtain ⟨obj, ho, -⟩ := hw.realm.global
    exact hlive obj ho
  · rw [hcalls] at hk
    obtain ⟨-, ⟨obj, ho, -⟩, -⟩ := (hw.calls k hk).arguments o ha
    exact hlive obj ho

/-- A new cell to which nothing is bound. -/
theorem Lawful.free (hw : w.Lawful S) (hfresh : w.Fresh c.handle) : w.Free c := by
  have hlive : ∀ d, w.heap.cell c ≠ .ok d := by
    intro d hc
    cases hfresh.symm.trans (cell_eq_ok.mp hc)
  refine ⟨fun o key hr => ?_, fun k hk i hi => ?_⟩
  · obtain ⟨d, hc⟩ := hw.heap.cells o key c hr
    exact hlive d hc
  · obtain ⟨d, hc, -⟩ := (hw.calls k hk).cell i c hi
    exact hlive d hc

end World

theorem works_keyOfName : Works S own w (Run.onHeap (Heap.keyOfName name)) fun w' key =>
    w'.heap.Spells key name ∧ w.Extends w' := by
  unfold Heap.keyOfName Heap.internString
  rw [Run.onHeap_bind]
  refine works_intern.bind fun w₁ r _ _ ⟨ht, hext⟩ => ?_
  rw [Routine.onHeap_reads]
  exact .reads (Heap.mild_keyOfString r) fun key hkey => ⟨Heap.spells_of_keyOfString ht hkey, hext⟩

theorem works_allocCell (hd : d.Public S.realm w.heap) :
    Works S own w (Run.onHeap (Heap.allocCell d)) fun w' c =>
      w'.heap.cell c = .ok d ∧ w'.Free c ∧ w.Fresh c.handle ∧ w.Extends w' := by
  unfold Heap.allocCell
  rw [Run.onHeap_map]
  refine .lawful fun hw => .map ((works_alloc (b := .cell d) hd (by simp)).imp fun w' id _ _ ⟨hid, hfresh, hext⟩ => ?_)
  exact ⟨cell_eq_ok.mpr hid, hext.free (hw.free hfresh), hfresh, hext⟩

/-- An object that is made: public if it inherits from another, private if not. -/
theorem works_allocObject {prototype : Option ObjectRef} {tag : ClassTag} {kind : ObjectKind}
    (hkind : kind.Public S.realm w.heap) (hordinary : prototype = none → kind = .ordinary) :
    Works S own w (Run.onHeap (Heap.allocObject prototype tag kind)) fun w' o =>
      w'.heap.object o = .ok ⟨prototype, tag, true, .empty, kind⟩ ∧ w.Fresh o.handle ∧ w.Extends w' := by
  have hnew : Works S own w (Run.onHeap (do
      return ⟨← Heap.alloc (.object ⟨prototype, tag, true, .empty, kind⟩)⟩ : Proc Heap ObjectRef)) fun w' o =>
      w'.heap.object o = .ok ⟨prototype, tag, true, .empty, kind⟩ ∧ w.Fresh o.handle ∧ w.Extends w' := by
    rw [Run.onHeap_bind]
    exact (works_alloc (b := .object _) ⟨rfl, hkind, hordinary⟩ (by simp)).bind fun w' id _ _ ⟨hid, hfresh, hext⟩ =>
      .pure ⟨object_eq_ok.mpr hid, hfresh, hext⟩
  unfold Heap.allocObject
  cases prototype with
  | none => exact hnew
  | some p =>
    dsimp only
    rw [Proc.discard_bind, Run.onHeap_bind, Routine.onHeap_reads]
    exact .read (Heap.mild_object p) fun _ _ => hnew

theorem works_allocPublic {p : ObjectRef} {tag : ClassTag} {kind : ObjectKind}
    (hkind : kind.Public S.realm w.heap) :
    Works S own w (Run.onHeap (Heap.allocObject (some p) tag kind)) fun w' o =>
      w'.Unguarded S o ∧ w'.heap.object o = .ok ⟨some p, tag, true, .empty, kind⟩ ∧ w.Fresh o.handle ∧
        w.Extends w' := by
  refine .lawful fun hw => (works_allocObject hkind (by simp)).imp fun w' o _ _ ⟨ho, hfresh, hext⟩ => ?_
  exact ⟨hw.unguarded hfresh hext.calls ⟨_, ho, .inl (by simp)⟩, ho, hfresh, hext⟩

theorem works_allocScope {sc : Scope} (hsc : sc.Proper S.realm w.heap) :
    Works S own w (Run.onHeap (Heap.allocScope sc)) fun w' s => w'.heap.scope s = .ok sc ∧ w.Extends w' := by
  unfold Heap.allocScope
  rw [Proc.discard_bind, Run.onHeap_bind, Routine.onHeap_reads]
  refine .read (Heap.mild_object _) fun _ _ => ?_
  rw [Run.onHeap_bind]
  exact (works_alloc (b := .scope sc) hsc (by simp)).bind fun w' id _ _ ⟨hid, _, hext⟩ => .pure ⟨scope_eq_ok.mpr hid, hext⟩

/-- The scope was made inside another. -/
def Heap.Inside (h : Heap) (s p : ScopeRef) : Prop := ∃ sc, h.scope s = .ok sc ∧ sc.parent = some p

theorem Heap.Persists.inside {P : Handle → Prop} {h h' : Heap} {p : ScopeRef} (hp : Persists P h h')
    (hs : h.Inside s p) (hP : P s.handle) : h'.Inside s p := by
  obtain ⟨sc, hsc, hparent⟩ := hs
  obtain ⟨sc', hsc', -, hparent'⟩ := hp.scopes s sc hP hsc
  exact ⟨sc', hsc', hparent'.trans hparent⟩

/-- A scope inside another: it binds names in a private object of its own. -/
theorem works_childScope {parent : ScopeRef} :
    Works S own w (Run.onHeap (childScope parent)) fun w' s => ∃ o, w'.heap.Binds s o ∧
      w'.heap.Private S.realm o ∧ w.Fresh o.handle ∧ w.Extends w' ∧ w'.heap.Inside s parent := by
  unfold childScope
  rw [Run.onHeap_bind, Routine.onHeap_reads]
  refine .lawful fun hw => .read (Heap.mild_scope parent) fun outer houter => ?_
  rw [Run.onHeap_bind]
  have hordinary : ObjectKind.ordinary.Public S.realm w.heap := trivial
  refine (works_allocObject hordinary fun _ => rfl).bind fun w₁ o hw₁ hacts ⟨ho, hfresh, hext⟩ => ?_
  have hprivate : w₁.heap.Private S.realm o := by
    refine ⟨_, ho, rfl, ?_⟩
    rintro rfl
    obtain ⟨obj, hobj⟩ := hw.realm.prototypes _ (List.mem_cons_self ..)
    cases hfresh.symm.trans (object_eq_ok.mp hobj)
  have hparent := hacts.stays.scopes parent outer trivial houter
  have hproper : Scope.Proper S.realm w₁.heap
      { object := o, parent := some parent, receiver := outer.receiver, writeTo := none, strict := outer.strict } := by
    refine ⟨rfl, hacts.value (hw.heap.scopes parent outer houter).receiver, by simp, fun p hp => ?_⟩
    cases hp
    obtain ⟨sc, hsc, -⟩ := hparent
    exact ⟨⟨sc, hsc⟩, hprivate⟩
  exact (works_allocScope hproper).imp fun w₂ s _ hacts₂ ⟨hs, hext₂⟩ =>
    ⟨o, ⟨_, hs, rfl⟩, hacts₂.hidden hprivate, hfresh, hext.trans hext₂, _, hs, rfl⟩

/-! ### Binding keys -/

/-- Where a key may be bound to a new cell. -/
inductive World.Accepts (S : Setting) (own : Handle → Prop) (w : World) (o : ObjectRef) (key : PropertyKey)
    (writable : Bool) : Prop where
  /-- Nothing is bound to the key. -/
  | absent (hkey : ∀ c, ¬ w.heap.Refers o key c) (hglobal : o = S.realm.globalObject → writable = true)
  /-- No scope and no call depends on the object. -/
  | unguarded (ho : w.Unguarded S o)
  /-- The object is that of a call that is being set up, or of a handler. -/
  | declares (ho : w.heap.Private S.realm o) (hown : own o.handle)
      (hopen : ∀ k ∈ w.calls, k.bindings = o → k.started = false)

theorem World.Accepts.extends {writable : Bool} (ha : w.Accepts S own o key writable) (hext : w.Extends w')
    (hstays : Stays w.heap w'.heap) : w'.Accepts S own o key writable := by
  cases ha with
  | absent hkey hglobal => exact .absent (fun c hr => hkey c ((hext.refers o key c).mp hr)) hglobal
  | unguarded ho =>
    exact .unguarded ⟨ho.global, hstays.publicObject ho.shown trivial, hext.calls ▸ ho.arguments⟩
  | declares ho hown hopen => exact .declares (hstays.privateObject ho trivial) hown (hext.calls ▸ hopen)

/-- The key was bound to the cell, and nothing else was bound. -/
structure World.Rebinds (w : World) (o : ObjectRef) (key : PropertyKey) (c : CellRef) (w' : World) : Prop where
  calls : w'.calls = w.calls
  refers : ∀ o' key' c', w'.heap.Refers o' key' c' ↔
    if o' = o ∧ key' = key then c' = c else w.heap.Refers o' key' c'

namespace World.Rebinds

variable {w₀ : World}

theorem after (hr : w.Rebinds o key c w') (hext : w₀.Extends w) : w₀.Rebinds o key c w' where
  calls := hr.calls.trans hext.calls
  refers o' key' c' := by rw [hr.refers, hext.refers]

theorem self (hr : w.Rebinds o key c w') : w'.heap.Refers o key c :=
  (hr.refers o key c).mpr (by rw [if_pos ⟨rfl, rfl⟩])

theorem other {o' : ObjectRef} {key' : PropertyKey} {c' : CellRef} (hr : w.Rebinds o key c w')
    (hne : ¬ (o' = o ∧ key' = key)) : w'.heap.Refers o' key' c' ↔ w.heap.Refers o' key' c' := by
  rw [hr.refers, if_neg hne]

/-- Other cells stay free. -/
theorem free {c' : CellRef} (hr : w.Rebinds o key c w') (hfree : w.Free c') (hne : c' ≠ c) : w'.Free c' := by
  refine ⟨fun o' key' hrefers => ?_, hr.calls ▸ hfree.2⟩
  have hold := (hr.refers o' key' c').mp hrefers
  split at hold
  · exact hne hold
  · exact hfree.1 o' key' hold

end World.Rebinds

theorem World.rebinds_putObject {obj : Object} (ho : w.heap.object o = .ok obj) (key : PropertyKey) (c : CellRef) :
    w.Rebinds o key c (w.putObject o (obj.bind key c)) :=
  ⟨rfl, fun _ _ _ => Heap.refers_bind ho⟩

/-- A key is bound to a cell that is there already. -/
theorem works_installCell (hc : w.heap.cell c = .ok d) (hdata : d.isAccessor = false) (hfree : w.Free c)
    (hown : own c.handle) (hkey : w.heap.Keyed key)
    (hplace : w.Lawful S → w.Accepts S own o key d.isWritable) :
    Works S own w (Run.onHeap (Heap.installCell o key c)) fun w' _ =>
      w.Rebinds o key c w' ∧ w'.heap.cell c = .ok d := by
  rw [Heap.installCell_ample, Proc.discard_bind, Run.onHeap_bind, Routine.onHeap_reads]
  refine .read (Heap.mild_cell c) fun _ _ => works_modifyObject fun hw obj ho => ?_
  refine ⟨w.putObject o (obj.bind key c), rfl, ?_, World.rebinds_putObject ho key c, ?_⟩
  swap
  · exact (Heap.cell_put_object ho _ c).trans hc
  have hinstalled : ∀ (_ : obj.properties.find? key = none ∨ w.Unguarded S o)
      (_ : o = S.realm.globalObject → d.isWritable = true), Acts S own w (w.putObject o (obj.bind key c)) :=
    fun hnew hglobal => .one (.installed ho hc hdata hfree hkey hnew hglobal) fun x hx =>
      List.mem_singleton.mp hx ▸ hown
  cases hplace hw with
  | absent hnone hglobal =>
    refine hinstalled (.inl ?_) hglobal
    cases hfind : obj.properties.find? key with
    | none => rfl
    | some c' => exact absurd (Heap.refers_of_find? ho hfind) (hnone c')
  | unguarded hunguarded => exact hinstalled (.inr hunguarded) fun hglobal => absurd hglobal hunguarded.global
  | declares hprivate howno hopen =>
    refine .one (.declared ho hprivate hc hdata hfree hkey hopen) fun x hx => ?_
    rcases List.mem_cons.mp hx with rfl | hx
    · exact howno
    · exact List.mem_singleton.mp hx ▸ hown

/-- **A property is defined** with a cell of its own. -/
theorem works_define (hd : d.Public S.realm w.heap) (hdata : d.isAccessor = false) (hkey : w.heap.Keyed key)
    (hplace : w.Lawful S → w.Accepts S own o key d.isWritable) :
    Works S own w (Run.onHeap (Heap.define o key d)) fun w' c =>
      w.Fresh c.handle ∧ w.Rebinds o key c w' ∧ w'.heap.cell c = .ok d := by
  unfold Heap.define
  rw [Proc.discard_bind, Run.onHeap_bind, Routine.onHeap_reads]
  refine .lawful fun hw => .owning fun hown => .read (Heap.mild_object o) fun _ _ => ?_
  rw [Run.onHeap_bind]
  refine (works_allocCell hd).bind fun w₁ c _ hacts ⟨hc, hfree, hfresh, hext⟩ => ?_
  rw [Run.onHeap_bind]
  exact (works_installCell hc hdata hfree (hown _ hfresh) (hacts.keyed hkey)
    fun _ => (hplace hw).extends hext hacts.stays).bind fun w₂ _ _ _ ⟨hrebinds, hcell⟩ =>
      .pure ⟨hfresh, hrebinds.after hext, hcell⟩

/-- **A name is declared** in a scope. -/
theorem works_declare (hs : w.heap.Binds s o) (hv : v.Public S.realm w.heap)
    (hplace : w.Lawful S → ∀ key, (∀ key', w.heap.Spells key' name → key' = key) → w.Accepts S own o key true) :
    Works S own w (Run.onHeap (declare s name v)) fun w' c =>
      w.Fresh c.handle ∧ ∃ key, w'.heap.Spells key name ∧ w.Rebinds o key c w' := by
  unfold declare
  rw [Run.onHeap_bind, Routine.onHeap_reads]
  refine .lawful fun hw => .read (Heap.mild_scope s) fun sc hsc => ?_
  rw [(hw.heap.scopes s sc hsc).target, hs.object_eq hsc, Run.onHeap_bind]
  refine works_keyOfName.bind fun w₁ key hw₁ hacts ⟨hspells, hext⟩ => ?_
  have haccepts := hplace hw key fun key' hkey' =>
    (hacts.spells hkey').key_eq hw₁.heap.valid.canonical hspells
  have hdeclared : (Descriptor.declared v).Public S.realm w₁.heap := hacts.value hv
  exact (works_define hdeclared rfl hspells.keyed fun _ => haccepts.extends hext hacts.stays).imp
    fun w₂ c _ hacts₂ ⟨hfresh, hrebinds, _⟩ => ⟨hacts.fresh hfresh, key, hacts₂.spells hspells, hrebinds.after hext⟩

/-! ### Removing properties -/

/-- A property that can be reconfigured is removed. -/
theorem works_remove (ho : w.heap.Public S.realm o) (hown : w.heap.ownProperty o key = .ok (some d))
    (hd : d.configurable = true) : Works S own w (Run.onHeap (Heap.remove o key)) fun _ _ => True := by
  obtain ⟨c, hr, hc⟩ := Heap.ownProperty_eq_some.mp hown
  unfold Heap.remove
  rw [Run.onHeap_bind, Routine.onHeap_reads]
  refine .read (Heap.mild_ownCell o key) fun found hfound => ?_
  cases hr.symm.trans hfound
  dsimp only
  rw [Run.onHeap_bind]
  refine (works_modifyObject (Q := fun _ _ => True) fun hw obj hobj => ?_).bind fun w' _ _ _ _ => .pure trivial
  exact ⟨_, rfl, .one (.deleted hobj ho (Heap.Refers.find? hr hobj) hc hd) (by simp), trivial⟩

/-- Elements of an array are removed. -/
theorem works_retainKeys {obj : Object} (ho : w.heap.object o = .ok obj) (hkind : obj.kind = .array)
    (p : PropertyKey → Bool) : Works S own w (Run.onHeap (Heap.retainKeys o p)) fun _ _ => True :=
  works_modifyObject fun _ obj' ho' => by
    cases ho.symm.trans ho'
    exact ⟨_, rfl, .one (.cut p ho hkind) (by simp), trivial⟩

end ScriptCore
