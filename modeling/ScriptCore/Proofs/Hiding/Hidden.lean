import ScriptCore.Proofs.Calls.Public
import ScriptCore.Proofs.Object.Enumeration
import ScriptCore.Proofs.Soundness

/-! # Objects that no value shows

A scope inside another binds names in an object of its own. Code reaches that object by its scope alone: as long as no
value shows it, nobody deletes what is bound there, puts accessors there, or makes it anything but a plain object. A
heap is `Secure` when none of its blocks shows such an object. Whoever gets hold of one has got it from outside.

* `Heap.Hides`: the object is that of a scope inside another.
* `Heap.Clear`: **the datum is live and shows no hidden object.**
* `Heap.Secure`: every block of the heap is clear.
* `Heap.Shelters`: **what is never done to a heap**, whatever code runs on it; `Heap.Conserves`: what operations leave.
* `Secure.filled`, `Secure.put`, `Secure.inner`: a slot is filled, a block is overwritten, and a scope is made. -/

namespace ScriptCore

open Heap (block_put_of block_put_cases object_eq_ok scope_eq_ok cell_eq_ok text_eq_ok refers_iff)

variable {α β : Type} {h h' h₁ : Heap} {o : ObjectRef} {obj obj' : Object} {key : PropertyKey} {c : CellRef}
  {d d' : Descriptor} {v : Value} {s : ScopeRef} {sc sc' : Scope} {t : Text} {name : String} {id x : Handle}
  {b b' : Block} {strict : Bool} {P Q : Prop}

namespace Heap

/-- A scope inside another binds names in the object. -/
def Hides (h : Heap) (o : ObjectRef) : Prop := ∃ s sc, h.scope s = .ok sc ∧ sc.parent ≠ none ∧ sc.object = o

/-- The reference is live, and no hidden object. -/
def Shows (h : Heap) (r : Ref) : Prop := h.Names r ∧ (r.kind = .object → ¬ h.Hides ⟨r.handle⟩)

/-- **The datum is clear**: all that it refers to is live, and none of it is a hidden object. -/
def Clear [Renamable α] (h : Heap) (a : α) : Prop := ∀ r ∈ refs a, h.Shows r

/-! ### What clear data are made of -/

@[simp] theorem clear_plain (a : ScriptCore.Plain α) : h.Clear a := fun _ hr => absurd hr List.not_mem_nil

@[simp] theorem clear_unit (u : Unit) : h.Clear u := fun _ hr => absurd hr List.not_mem_nil

@[simp] theorem clear_bool (b : Bool) : h.Clear b := fun _ hr => absurd hr List.not_mem_nil

@[simp] theorem clear_float (x : Float) : h.Clear x := fun _ hr => absurd hr List.not_mem_nil

@[simp] theorem clear_word (n : UInt32) : h.Clear n := fun _ hr => absurd hr List.not_mem_nil

@[simp] theorem clear_name (name : String) : h.Clear name := fun _ hr => absurd hr List.not_mem_nil

section Clear

variable [Renamable α] [Renamable β]

@[simp] theorem clear_prod {a : α} {b : β} : h.Clear (a, b) ↔ h.Clear a ∧ h.Clear b := List.forall_mem_append

@[simp] theorem clear_none : h.Clear (none : Option α) := fun _ hr => absurd hr List.not_mem_nil

@[simp] theorem clear_some {a : α} : h.Clear (some a) ↔ h.Clear a := Iff.rfl

theorem clear_option {a : Option α} : h.Clear a ↔ ∀ x, a = some x → h.Clear x := by
  cases a <;> simp

@[simp] theorem clear_list {l : List α} : h.Clear l ↔ ∀ a ∈ l, h.Clear a := by
  simp only [Clear, refs_list, List.mem_flatMap]
  exact ⟨fun hl a ha r hr => hl r ⟨a, ha, hr⟩, fun hl r ⟨a, ha, hr⟩ => hl a ha r hr⟩

theorem clear_getD {a : Option α} {x : α} (ha : h.Clear a) (hx : h.Clear x) : h.Clear (a.getD x) := by
  cases a <;> assumption

theorem clear_or {a a' : Option α} (ha : h.Clear a) (ha' : h.Clear a') : h.Clear (a.or a') := by
  cases a <;> assumption

end Clear

@[simp] theorem clear_object_value : h.Clear (Value.object o) ↔ h.Clear o := Iff.rfl

@[simp] theorem clear_string_value {r : StringRef} : h.Clear (Value.string r) ↔ h.Clear r := Iff.rfl

@[simp] theorem clear_string_key {r : StringRef} : h.Clear (PropertyKey.string r) ↔ h.Clear r := Iff.rfl

@[simp] theorem clear_index (i : UInt32) : h.Clear (PropertyKey.index i) := fun _ hr => absurd hr List.not_mem_nil

@[simp] theorem clear_undefined : h.Clear Value.undefined := fun _ hr => absurd hr List.not_mem_nil

@[simp] theorem clear_null : h.Clear Value.null := fun _ hr => absurd hr List.not_mem_nil

@[simp] theorem clear_bool_value (b : Bool) : h.Clear (Value.bool b) := fun _ hr => absurd hr List.not_mem_nil

@[simp] theorem clear_number (x : Float) : h.Clear (Value.number x) := fun _ hr => absurd hr List.not_mem_nil

@[simp] theorem clear_ofCount (n : Nat) : h.Clear (Value.ofCount n) := clear_number _

theorem clear_descriptor : h.Clear d ↔ h.Clear d.content := by
  show h.Clear (d.content, Plain.mk d.enumerable, Plain.mk d.configurable, Plain.mk d.isVariable) ↔ _
  simp

@[simp] theorem clear_data {w : Bool} : h.Clear (Slotted.data v w) ↔ h.Clear v := Iff.rfl

@[simp] theorem clear_accessor {g u : Value} : h.Clear (Slotted.accessor g u) ↔ h.Clear g ∧ h.Clear u :=
  List.forall_mem_append

theorem clear_closure {cl : Closure} :
    h.Clear cl ↔ h.Clear cl.scope ∧ h.Clear cl.boundScope ∧ h.Clear cl.receiver := by
  show h.Clear (cl.scope, cl.boundScope, cl.receiver, Plain.mk cl.function, Plain.mk cl.returnLastValue) ↔ _
  simp

@[simp] theorem clear_closure_kind {cl : Closure} : h.Clear (ObjectKind.closure cl) ↔ h.Clear cl := Iff.rfl

@[simp] theorem clear_ordinary : h.Clear ObjectKind.ordinary := fun _ hr => absurd hr List.not_mem_nil

@[simp] theorem clear_array : h.Clear ObjectKind.array := fun _ hr => absurd hr List.not_mem_nil

theorem clear_object : h.Clear obj ↔ h.Clear obj.prototype ∧ h.Clear obj.properties ∧ h.Clear obj.kind := by
  show h.Clear (obj.prototype, obj.properties, obj.kind, Plain.mk obj.tag, Plain.mk obj.extensible) ↔ _
  simp

/-- The entries of a property map are what it finds. -/
theorem clear_properties {m : PropertyMap} :
    h.Clear m ↔ ∀ key c, m.find? key = some c → h.Clear key ∧ h.Clear c := by
  have hentries : h.Clear m ↔ ∀ e ∈ m.toList, h.Clear e := by
    show h.Clear m.recent ↔ ∀ e ∈ m.recent.reverse, h.Clear e
    simp
  rw [hentries]
  exact ⟨fun hm key c hfind => clear_prod.mp (hm (key, c) (PropertyMap.mem_toList.mpr hfind)),
    fun hm e he => clear_prod.mpr (hm e.1 e.2 (PropertyMap.mem_toList.mp he))⟩

@[simp] theorem clear_empty : h.Clear PropertyMap.empty := fun _ hr => absurd hr List.not_mem_nil

@[simp] theorem clear_thrown : h.Clear (Error.throw v) ↔ h.Clear v := Iff.rfl

/-- An error without a value shows nothing. -/
theorem clear_error {e : Error} (he : ∀ v, e ≠ .throw v) : h.Clear e := by
  cases e with
  | throw v => exact absurd rfl (he v)
  | _ => exact fun _ hr => absurd hr List.not_mem_nil

theorem clear_ref (o : ObjectRef) : h.Clear o ↔ h.Names ⟨.object, o.handle⟩ ∧ ¬ h.Hides o := by
  simp [Clear, Shows]

theorem names_object : h.Names ⟨.object, o.handle⟩ ↔ ∃ obj, h.object o = .ok obj := by
  simp only [Names, object_eq_ok]
  refine ⟨fun ⟨b, hb, hk⟩ => ?_, fun ⟨obj, ho⟩ => ⟨_, ho, rfl⟩⟩
  cases b with
  | object obj => exact ⟨obj, hb⟩
  | _ => cases hk

theorem clear_scope : h.Clear s ↔ ∃ sc, h.scope s = .ok sc := by
  simp only [Clear, refs_scopeRef, List.mem_singleton, forall_eq, Shows, Names, scope_eq_ok, reduceCtorEq,
    false_implies, and_true]
  refine ⟨fun ⟨b, hb, hk⟩ => ?_, fun ⟨sc, hs⟩ => ⟨_, hs, rfl⟩⟩
  cases b with
  | scope sc => exact ⟨sc, hb⟩
  | _ => cases hk

theorem clear_cell : h.Clear c ↔ ∃ d, h.cell c = .ok d := by
  simp only [Clear, refs_cellRef, List.mem_singleton, forall_eq, Shows, Names, cell_eq_ok, reduceCtorEq,
    false_implies, and_true]
  refine ⟨fun ⟨b, hb, hk⟩ => ?_, fun ⟨d, hd⟩ => ⟨_, hd, rfl⟩⟩
  cases b with
  | cell d => exact ⟨d, hb⟩
  | _ => cases hk

theorem clear_text {r : StringRef} : h.Clear r ↔ ∃ t, h.text r = .ok t := by
  simp only [Clear, refs_stringRef, List.mem_singleton, forall_eq, Shows, Names, text_eq_ok, reduceCtorEq,
    false_implies, and_true]
  refine ⟨fun ⟨b, hb, hk⟩ => ?_, fun ⟨t, ht⟩ => ⟨_, ht, rfl⟩⟩
  cases b with
  | string t => exact ⟨t, hb⟩
  | _ => cases hk

end Heap

/-! ### Secure heaps -/

/-- A property of the cell holds a value. -/
def Heap.Valued (h : Heap) (c : CellRef) : Prop := ∃ d, h.cell c = .ok d ∧ d.isAccessor = false

theorem Heap.Valued.clear (hc : h.Valued c) : h.Clear c := clear_cell.mpr (hc.imp fun _ hd => hd.1)

/-- The object is plain, and its properties hold values. -/
def Object.Unadorned (h : Heap) (obj : Object) : Prop :=
  obj.kind = .ordinary ∧ ∀ key c, obj.properties.find? key = some c → h.Valued c

/-- **The block shows no hidden object**, but for the scope that binds names in it. What may be hidden is plain. -/
def Block.Apt (h : Heap) (hidden : Prop) : Block → Prop
  | .string _ => True
  | .object obj => h.Clear obj ∧ (hidden → obj.Unadorned h)
  | .scope sc => h.Names ⟨.object, sc.object.handle⟩ ∧ h.Clear sc.parent ∧ h.Clear sc.receiver ∧
      (∀ o, sc.writeTo = some o → h.Names ⟨.object, o.handle⟩) ∧ (sc.parent = none → h.Clear sc.object)
  | .cell d => h.Clear d

/-- What stays of a block when it is overwritten. -/
def Block.Spares (hidden : Prop) : Block → Block → Prop
  | .string t, .string t' => t' = t
  | .object obj, .object obj' => obj'.kind = obj.kind ∧ (hidden → ∀ key c, obj.properties.find? key = some c →
      ∃ c', obj'.properties.find? key = some c')
  | .scope sc, .scope sc' => sc'.object = sc.object ∧ sc'.parent = sc.parent
  | .cell _, .cell _ => True
  | _, _ => False

theorem Block.Spares.refl (P : Prop) (b : Block) : b.Spares P b := by
  cases b with
  | string t => rfl
  | object obj => exact ⟨rfl, fun _ _ c hfind => ⟨c, hfind⟩⟩
  | scope sc => exact ⟨rfl, rfl⟩
  | cell d => trivial

theorem Block.Spares.trans {b₁ b₂ b₃ : Block} (h₁ : b₁.Spares P b₂) (h₂ : b₂.Spares Q b₃) (hPQ : P → Q) :
    b₁.Spares P b₃ := by
  cases b₁ <;> cases b₂ <;> first | exact h₁.elim | skip
  all_goals cases b₃ <;> first | exact h₂.elim | skip
  case string.string.string => exact Eq.trans h₂ h₁
  case object.object.object =>
    exact ⟨h₂.1.trans h₁.1, fun hP key c hfind => let ⟨c', hfind'⟩ := h₁.2 hP key c hfind; h₂.2 (hPQ hP) key c' hfind'⟩
  case scope.scope.scope => exact ⟨h₂.1.trans h₁.1, h₂.2.trans h₁.2⟩
  case cell.cell.cell => trivial

theorem Block.Spares.kind (hb : b.Spares P b') : b'.kind = b.kind := by
  cases b <;> cases b' <;> first | exact hb.elim | rfl

namespace Heap

/-- **Every block is clear.** -/
structure Secure (h : Heap) : Prop where
  valid : h.Valid
  blocks : ∀ x b, h.block? x = some b → b.Apt h (h.Hides ⟨x⟩)

/-- **What is never done to a heap**: what is live stays so, an object stays of its kind, a scope keeps its object and
the scope around it, what is bound in a hidden object stays bound, and no object is hidden that was there before. -/
structure Shelters (h h' : Heap) : Prop where
  blocks : ∀ x b, h.block? x = some b → ∃ b', h'.block? x = some b' ∧ b.Spares (h.Hides ⟨x⟩) b'
  hides : ∀ o, h.Names ⟨.object, o.handle⟩ → h'.Hides o → h.Hides o

namespace Shelters

theorem scope (hh : h.Shelters h') (hs : h.scope s = .ok sc) :
    ∃ sc', h'.scope s = .ok sc' ∧ sc'.object = sc.object ∧ sc'.parent = sc.parent := by
  obtain ⟨b', hb', hspares⟩ := hh.blocks _ _ (scope_eq_ok.mp hs)
  cases b' with
  | scope sc' => exact ⟨sc', scope_eq_ok.mpr hb', hspares⟩
  | _ => exact hspares.elim

theorem text {r : StringRef} (hh : h.Shelters h') (ht : h.text r = .ok t) : h'.text r = .ok t := by
  obtain ⟨b', hb', hspares⟩ := hh.blocks _ _ (text_eq_ok.mp ht)
  cases b' with
  | string t' => exact text_eq_ok.mpr (hb'.trans (congrArg (some ∘ Block.string) hspares))
  | _ => exact hspares.elim

theorem names {r : Ref} (hh : h.Shelters h') (hr : h.Names r) : h'.Names r := by
  obtain ⟨b, hb, hk⟩ := hr
  obtain ⟨b', hb', hspares⟩ := hh.blocks _ _ hb
  exact ⟨b', hb', hspares.kind.trans hk⟩

theorem hidden (hh : h.Shelters h') (ho : h.Hides o) : h'.Hides o := by
  obtain ⟨s, sc, hs, hparent, rfl⟩ := ho
  obtain ⟨sc', hs', hobject, hparent'⟩ := hh.scope hs
  exact ⟨s, sc', hs', hparent'.symm ▸ hparent, hobject⟩

/-- An object stays of its kind. -/
theorem kinds (hh : h.Shelters h') (o : ObjectRef) (obj : Object) (ho : h.object o = .ok obj) :
    ∃ obj', h'.object o = .ok obj' ∧ obj'.kind = obj.kind := by
  obtain ⟨b', hb', hspares⟩ := hh.blocks _ _ (object_eq_ok.mp ho)
  cases b' with
  | object obj' => exact ⟨obj', object_eq_ok.mpr hb', hspares.1⟩
  | _ => exact hspares.elim

/-- What is bound in a hidden object stays bound. -/
theorem refers (hh : h.Shelters h') (ho : h.Hides o) (hr : h.Refers o key c) : ∃ c', h'.Refers o key c' := by
  obtain ⟨obj, hobj, hfind⟩ := refers_iff.mp hr
  obtain ⟨b', hb', hspares⟩ := hh.blocks _ _ (object_eq_ok.mp hobj)
  cases b' with
  | object obj' =>
    obtain ⟨c', hfind'⟩ := hspares.2 ho key c hfind
    exact ⟨c', refers_iff.mpr ⟨obj', object_eq_ok.mpr hb', hfind'⟩⟩
  | _ => exact hspares.elim

theorem refl (h : Heap) : h.Shelters h := ⟨fun _ b hb => ⟨b, hb, .refl _ b⟩, fun _ _ ho => ho⟩

theorem trans (hh : h.Shelters h₁) (hh' : h₁.Shelters h') : h.Shelters h' where
  blocks x b hb := by
    obtain ⟨b₁, hb₁, hspares⟩ := hh.blocks x b hb
    obtain ⟨b', hb', hspares'⟩ := hh'.blocks x b₁ hb₁
    exact ⟨b', hb', hspares.trans hspares' hh.hidden⟩
  hides o ho hhides := hh.hides o ho (hh'.hides o (hh.names ho) hhides)

/-- **What is clear stays clear.** -/
theorem clear [Renamable α] {a : α} (hh : h.Shelters h') (ha : h.Clear a) : h'.Clear a := fun r hr =>
  ⟨hh.names (ha r hr).1, fun hk hhides => by
    obtain ⟨k, x⟩ := r
    cases hk
    exact (ha _ hr).2 rfl (hh.hides ⟨x⟩ (ha _ hr).1 hhides)⟩

end Shelters

/-- **What operations leave of a heap**: besides, a property that holds a value gets no accessors. -/
structure Conserves (h h' : Heap) : Prop extends h.Shelters h' where
  values : ∀ c, h.Valued c → h'.Valued c

namespace Conserves

theorem refl (h : Heap) : h.Conserves h := ⟨.refl h, fun _ hc => hc⟩

theorem unadorned (hh : h.Conserves h') (ho : obj.Unadorned h) : obj.Unadorned h' :=
  ⟨ho.1, fun key c hfind => hh.values c (ho.2 key c hfind)⟩

theorem apt (hh : h.Conserves h') (hb : b.Apt h P) (hPQ : Q → P) : b.Apt h' Q := by
  cases b with
  | string t => trivial
  | object obj => exact ⟨hh.clear hb.1, fun hq => hh.unadorned (hb.2 (hPQ hq))⟩
  | scope sc =>
    exact ⟨hh.names hb.1, hh.clear hb.2.1, hh.clear hb.2.2.1, fun o ho => hh.names (hb.2.2.2.1 o ho),
      fun hnone => hh.clear (hb.2.2.2.2 hnone)⟩
  | cell d => exact hh.clear hb

end Conserves

namespace Secure

/-- **A secure heap stays secure** if the blocks that are new in it are clear. -/
theorem next (hs : h.Secure) (hh : h.Conserves h') (hv : h'.Valid)
    (hnew : ∀ x b, h'.block? x = some b → h.block? x = some b ∨ b.Apt h' (h'.Hides ⟨x⟩)) : h'.Secure := by
  refine ⟨hv, fun x b hb => (hnew x b hb).elim (fun hold => ?_) id⟩
  cases b with
  | object obj => exact hh.apt (hs.blocks x _ hold) (hh.hides ⟨x⟩ ⟨_, hold, rfl⟩)
  | string t => exact hh.apt (Q := h'.Hides ⟨x⟩) (b := .string t) trivial id
  | scope sc => exact hh.apt (P := h.Hides ⟨x⟩) (Q := h.Hides ⟨x⟩) (hs.blocks x _ hold) id
  | cell d => exact hh.apt (P := h.Hides ⟨x⟩) (Q := h.Hides ⟨x⟩) (hs.blocks x _ hold) id

theorem object (hs : h.Secure) (ho : h.object o = .ok obj) : h.Clear obj ∧ (h.Hides o → obj.Unadorned h) :=
  hs.blocks _ _ (object_eq_ok.mp ho)

theorem cell (hs : h.Secure) (hc : h.cell c = .ok d) : h.Clear d := hs.blocks _ _ (cell_eq_ok.mp hc)

theorem scope (hs : h.Secure) (hsc : h.scope s = .ok sc) :
    h.Names ⟨.object, sc.object.handle⟩ ∧ h.Clear sc.parent ∧ h.Clear sc.receiver ∧
      (∀ o, sc.writeTo = some o → h.Names ⟨.object, o.handle⟩) ∧ (sc.parent = none → h.Clear sc.object) :=
  hs.blocks _ _ (scope_eq_ok.mp hsc)

/-- A hidden object is live. -/
theorem live (hs : h.Secure) (ho : h.Hides o) : h.Names ⟨.object, o.handle⟩ := by
  obtain ⟨s, sc, hsc, -, rfl⟩ := ho
  exact (hs.scope hsc).1

end Secure

/-! ### Filling a slot -/

/-- A block that is no scope hides nothing. -/
theorem Filled.hides (hf : h.Filled b id h') (hb : b.kind ≠ .scope) (ho : h'.Hides o) : h.Hides o := by
  obtain ⟨s, sc, hs, hrest⟩ := ho
  rcases hf.block_cases (scope_eq_ok.mp hs) with ⟨-, rfl⟩ | hold
  · exact absurd rfl hb
  · exact ⟨s, sc, scope_eq_ok.mpr hold, hrest⟩

theorem Filled.valued (hf : h.Filled b id h') (hc : h.Valued c) : h'.Valued c := by
  obtain ⟨d, hd, hdata⟩ := hc
  exact ⟨d, hf.cell hd, hdata⟩

theorem Filled.conserves (hf : h.Filled b id h') (hb : b.kind ≠ .scope) : h.Conserves h' :=
  ⟨⟨fun _ c hc => ⟨c, hf.block?_of_some hc, .refl _ c⟩, fun _ _ => hf.hides hb⟩, fun _ => hf.valued⟩

/-- What is new is not hidden. -/
theorem Filled.not_hidden (hf : h.Filled b id h') (hs : h.Secure) (hb : b.kind ≠ .scope) : ¬ h'.Hides ⟨id⟩ := by
  intro ho
  obtain ⟨c, hc, -⟩ := hs.live (hf.hides hb ho)
  cases (hf.fresh rfl).symm.trans hc

/-- **A slot is filled** with a clear block that is no scope. -/
theorem Secure.filled (hs : h.Secure) (hf : h.Filled b id h') (hv : h'.Valid) (hkind : b.kind ≠ .scope)
    (hb : h.Clear b) : h.Conserves h' ∧ h'.Secure := by
  have hh := hf.conserves hkind
  refine ⟨hh, hs.next hh hv fun x c hc => (hf.block_cases hc).elim (fun hnew => .inr ?_) .inl⟩
  obtain ⟨rfl, rfl⟩ := hnew
  cases c with
  | string t => trivial
  | object obj => exact ⟨hh.clear (a := obj) hb, fun ho => absurd ho (hf.not_hidden hs hkind)⟩
  | scope sc => exact absurd rfl hkind
  | cell d => exact hh.clear (a := d) hb

/-- **A scope is made inside another**, with an object of its own. -/
theorem Secure.inner (hs : h.Secure) {tag : ClassTag} {p : ScopeRef}
    (ho : h.Filled (.object ⟨none, tag, true, .empty, .ordinary⟩) o.handle h₁)
    (hsc : h₁.Filled (.scope ⟨o, some p, v, none, strict⟩) s.handle h') (hv : h'.Valid) (hp : h.Clear p)
    (hreceiver : h.Clear v) : h.Conserves h' ∧ h'.Secure := by
  have hblock : ∀ {x b}, h'.block? x = some b → h.block? x = some b ∨
      x = o.handle ∧ b = .object ⟨none, tag, true, .empty, .ordinary⟩ ∨
      x = s.handle ∧ b = .scope ⟨o, some p, v, none, strict⟩ := fun hb =>
    (hsc.block_cases hb).elim (fun hnew => .inr (.inr hnew)) fun hb =>
      (ho.block_cases hb).elim (fun hnew => .inr (.inl hnew)) .inl
  have hh : h.Conserves h' := by
    refine ⟨⟨fun x b hb => ⟨b, hsc.block?_of_some (ho.block?_of_some hb), .refl _ b⟩, fun q hq => ?_⟩,
      fun c hc => hsc.valued (ho.valued hc)⟩
    rintro ⟨r, sc, hr, hparent, rfl⟩
    rcases hblock (scope_eq_ok.mp hr) with hold | ⟨-, hnew⟩ | ⟨-, hnew⟩
    · exact ⟨r, sc, scope_eq_ok.mpr hold, hparent, rfl⟩
    · cases hnew
    · -- the object of the new scope was not there before
      cases hnew
      obtain ⟨b, hb, -⟩ := hq
      cases (ho.fresh rfl).symm.trans hb
  refine ⟨hh, hs.next hh hv fun x b hb => ?_⟩
  rcases hblock hb with hold | ⟨-, rfl⟩ | ⟨-, rfl⟩
  · exact .inl hold
  · refine .inr ⟨clear_object.mpr ⟨clear_none, clear_empty, clear_ordinary⟩, fun _ => ⟨rfl, fun key c hfind => ?_⟩⟩
    cases (PropertyMap.index_eq .empty key).symm.trans hfind
  · exact .inr ⟨names_object.mpr ⟨_, object_eq_ok.mpr (hsc.block?_of_some ho.block?_self)⟩,
      clear_some.mpr (hh.clear hp), hh.clear hreceiver, nofun, nofun⟩

/-! ### Overwriting a block -/

/-- A block is overwritten. -/
theorem shelters_put (hid : h.block? id = some b) (hb : b.Spares (h.Hides ⟨id⟩) b') : h.Shelters (h.put id b') where
  blocks x c hc := by
    rcases block_put_of b' hid hc with ⟨rfl, rfl⟩ | hold
    · exact ⟨b', block?_put_self hid, hb⟩
    · exact ⟨c, hold, .refl _ c⟩
  hides o _ := by
    rintro ⟨s, sc, hs, hparent, rfl⟩
    rcases block_put_cases hid (scope_eq_ok.mp hs) with ⟨hx, rfl⟩ | ⟨-, hold⟩
    · cases b with
      | scope sc' =>
        obtain ⟨hobject, hparent'⟩ := hb
        exact ⟨s, sc', scope_eq_ok.mpr (hx ▸ hid), hparent' ▸ hparent, hobject.symm⟩
      | _ => exact hb.elim
    · exact ⟨s, sc, scope_eq_ok.mpr hold, hparent, rfl⟩

/-- **A block is overwritten** with a clear one that spares what is hidden. -/
theorem Secure.put (hs : h.Secure) (hid : h.block? id = some b) (hv : (h.put id b').Valid)
    (hb : b.Spares (h.Hides ⟨id⟩) b') (hb' : b'.Apt h (h.Hides ⟨id⟩))
    (hdata : ∀ d, b = .cell d → ∃ d', b' = .cell d' ∧ (d.isAccessor = false → d'.isAccessor = false)) :
    h.Conserves (h.put id b') ∧ (h.put id b').Secure := by
  have hh : h.Conserves (h.put id b') := by
    refine ⟨shelters_put hid hb, fun c ⟨d, hd, hvalue⟩ => ?_⟩
    rcases block_put_of b' hid (cell_eq_ok.mp hd) with ⟨hx, hold⟩ | hold
    · obtain ⟨d', rfl, hkept⟩ := hdata d hold.symm
      exact ⟨d', cell_eq_ok.mpr (by rw [hx]; exact block?_put_self hid), hkept hvalue⟩
    · exact ⟨d, cell_eq_ok.mpr hold, hvalue⟩
  refine ⟨hh, hs.next hh hv fun x c hc => ?_⟩
  rcases block_put_cases hid hc with ⟨rfl, rfl⟩ | ⟨-, hold⟩
  · refine .inr ?_
    cases c with
    | object obj =>
      refine hh.apt hb' (hh.hides ⟨x⟩ ⟨b, hid, hb.kind.symm⟩)
    | string t => trivial
    | scope sc => exact hh.apt (P := h.Hides ⟨x⟩) (Q := h.Hides ⟨x⟩) hb' id
    | cell d => exact hh.apt (P := h.Hides ⟨x⟩) (Q := h.Hides ⟨x⟩) hb' id
  · exact .inl hold

/-- Properties of an object are changed: of a hidden one only bindings to cells that hold values. -/
theorem Secure.putObject (hs : h.Secure) (ho : h.object o = .ok obj) (hclear : h.Clear obj')
    (hkind : obj'.kind = obj.kind)
    (hkept : h.Hides o → ∀ key c, obj.properties.find? key = some c → ∃ c', obj'.properties.find? key = some c')
    (hplain : h.Hides o → obj'.Unadorned h) :
    h.Conserves (h.put o.handle (.object obj')) ∧ (h.put o.handle (.object obj')).Secure :=
  hs.put (object_eq_ok.mp ho) (hs.valid.putObject ho _) ⟨hkind, hkept⟩ ⟨hclear, hplain⟩ (by simp)

/-- The value of a cell is written. -/
theorem Secure.putCell (hs : h.Secure) (hc : h.cell c = .ok d) (hd : d.isAccessor = false → d'.isAccessor = false)
    (hclear : h.Clear d') : h.Conserves (h.put c.handle (.cell d')) ∧ (h.put c.handle (.cell d')).Secure :=
  hs.put (cell_eq_ok.mp hc) (hs.valid.putCell hc _) trivial hclear fun x hx => ⟨d', rfl, by cases hx; exact hd⟩

/-- A scope gets another receiver, or another object to declare names in. -/
theorem Secure.putScope (hs : h.Secure) (hsc : h.scope s = .ok sc) (hobject : sc'.object = sc.object)
    (hparent : sc'.parent = sc.parent) (hreceiver : h.Clear sc'.receiver)
    (htarget : ∀ o, sc'.writeTo = some o → h.Names ⟨.object, o.handle⟩) :
    h.Conserves (h.put s.handle (.scope sc')) ∧ (h.put s.handle (.scope sc')).Secure := by
  obtain ⟨hnames, hclear, -, -, houtermost⟩ := hs.scope hsc
  exact hs.put (scope_eq_ok.mp hsc) (hs.valid.putScope hsc _) ⟨hobject, hparent⟩
    ⟨hobject ▸ hnames, hparent ▸ hclear, hreceiver, htarget, fun hnone => hobject ▸ houtermost (hparent ▸ hnone)⟩
    (by simp)

end Heap

end ScriptCore
