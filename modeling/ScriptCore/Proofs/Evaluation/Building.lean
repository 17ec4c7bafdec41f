import ScriptCore.Proofs.Evaluation.Expressions
import ScriptCore.Proofs.Object.Enumeration
import ScriptCore.Proofs.Object.Visibility
import ScriptCore.Proofs.Scope.Endings

/-! # Objects that evaluation builds

An object literal and the object that offers the arguments of a call are filled while nothing else refers to them. In
sloppy code the arguments are put in place as they are. An object literal and strict code assign instead, and an
assignment looks the key up on the prototype of objects first: the new object gets its own property if none is found
there or one that may be written.

* `Heap.Assignable`: a key that may be assigned to a new object.
* `builds_setProperty`: **a new object gets its own property.**
* `builds_allocArguments`: **the arguments of a call** are in the slots of the object that offers them.
* `builds_literal`: **the properties of an object literal**, in order.
* `fresh_objects`: both.
* `fresh_objects_inherit`: where the prototype of objects is consulted. -/

namespace ScriptCore

variable {α β : Type} {h h' h₀ h₁ : Heap} {m : Machine} {a o q : ObjectRef} {obj : Object} {key : PropertyKey}
  {c : CellRef} {d : Descriptor} {v w : Value} {vs : List Value} {R : Realm} {slots : List CellRef} {name : String}
  {strict : Bool} {e : Error}

namespace Heap

/-! ### Keys that a new object may be given -/

/-- **The key may be assigned to a new object**: on the chain from the prototype of objects it is found nowhere, or the
nearest property holds a value that may be written. -/
def Assignable (h : Heap) (R : Realm) (key : PropertyKey) : Prop :=
  ∃ found, h.findWithin key (maxPrototypeChain - 1) (some R.objectPrototype) = .ok found ∧
    ∀ q c, found = some (q, c) → ∃ v, h.Stores c v

theorem Assignable.untouched (hassignable : h.Assignable R key) (ht : Untouched h h') : h'.Assignable R key := by
  obtain ⟨found, hfound, hstores⟩ := hassignable
  refine ⟨found, findWithin_next ht _ _ hfound, fun q c hqc => ?_⟩
  obtain ⟨v, hv⟩ := hstores q c hqc
  exact ⟨v, ht.stores id hv⟩

/-- What the nearest holder holds is its own. -/
theorem Holder.refers : ∀ {n : Nat} {o : ObjectRef}, h.Holder key q c n o → h.Refers q key c
  | _, _, .own ho hfind => refers_iff.mpr ⟨_, ho, hfind⟩
  | _, _, .inherited _ _ _ hrest => hrest.refers

/-! ### New properties -/

end Heap

section Assigning

variable (hm : h₀.Making a obj h) (hkind : obj.kind = .ordinary)
include hm hkind

/-- **A new object gets its own property**, if it does not have one with the key and the key may be assigned. -/
theorem builds_setProperty (hextensible : obj.extensible = true) (hprototype : obj.prototype = some m.realm.objectPrototype)
    (hassignable : h.Assignable m.realm key) (hfind : obj.properties.find? key = none) (v : Value) :
    m.Builds h (fun E => setProperty E a key v true) fun h' _ => ∃ c, h₀.Making a (obj.bind key c) h' ∧
      h.Rekeyed a key c h' ∧ h'.cell c = .ok (.data v) ∧ ∀ d, h.cell c ≠ .ok d := by
  have hcreate : m.Builds h (fun _ => createOwn a key v true) fun h' _ => ∃ c, h₀.Making a (obj.bind key c) h' ∧
      h.Rekeyed a key c h' ∧ h'.cell c = .ok (.data v) ∧ ∀ d, h.cell c ≠ .ok d := by
    have hopen : h.isExtensible a = .ok true := by
      unfold Heap.isExtensible
      rw [hm.object]
      exact congrArg Except.ok hextensible
    refine .read hopen (.discard_bind (.onHeap (Heap.completes_define hm.kept hm.object key (.data v))
      (hm.gives_define key (.data v))) fun h₁ c ⟨hm₁, hre, hc, hfresh⟩ => ?_)
    have hnoted : ∀ m' : Machine, m'.heap = h₁ → noteKey a key m' = .done () m' := fun m' hm' =>
      noteKey_plain (by rw [hm']; exact hm₁.not_array hkind) key
    exact .bind (P := fun h' _ => h' = h₁) (.inr ⟨(), h₁, rfl, fun _ => hnoted _ rfl⟩) fun h' _ hsame => by
      subst hsame
      exact .pure ⟨c, hm₁, hre, hc, hfresh⟩
  have hplain : ∀ E, setProperty E a key v true { m with heap := h } = setOrdinary E a key v true { m with heap := h } :=
    fun E => setProperty_plain (m := { m with heap := h }) (hm.not_array hkind) E v true
  obtain ⟨found, hfound, hstores⟩ := hassignable
  have hwalk : h.findProperty a key = .ok found := by
    unfold Heap.findProperty maxPrototypeChain
    rw [Heap.findWithin, hm.object]
    dsimp only
    rw [hfind, hprototype]
    exact hfound
  refine .congr (.read hwalk ?_) hplain
  cases found with
  | none => exact hcreate
  | some found =>
    obtain ⟨q, c⟩ := found
    obtain ⟨w, d, hd, hcontent⟩ := hstores q c rfl
    refine .read hd ?_
    -- The holder is another object, since the new one does not have the key.
    have hne : q ≠ a := by
      rintro rfl
      have hown := ((Heap.findWithin_iff _ _).mp hfound).refers.find? hm.object
      rw [hfind] at hown
      cases hown
    rw [hcontent]
    dsimp only
    simpa only [if_neg hne] using hcreate

end Assigning

/-! ### The arguments of a call -/

/-- The object that offers the arguments while it is filled, with properties like any that are assigned. -/
structure Heap.Stocked (h₀ : Heap) (R : Realm) (a : ObjectRef) (vs : List Value) (slots : List CellRef) (obj : Object)
    (h : Heap) : Prop extends h₀.Filling R a vs slots obj h where
  extensible : obj.extensible = true
  plain : ∀ c ∈ slots, ∃ v, h.cell c = .ok (.data v)

namespace Heap.Stocked

variable (hs : h₀.Stocked R a vs slots obj h)
include hs

theorem beside (hk : h'.WellKept) (ht : Heap.Untouched h h') : h₀.Stocked R a vs slots obj h' :=
  { hs.toFilling.beside hk ht with
    extensible := hs.extensible
    plain := fun c hc => (hs.plain c hc).imp fun _ hv => ht.cell c _ id hv }

/-- One more argument was put into the object. -/
theorem append (hm : h₀.Making a (obj.bind (.index vs.length.toUInt32) c) h')
    (hre : h.Rekeyed a (.index vs.length.toUInt32) c h') (hfresh : c ∉ slots) (hc : h'.cell c = .ok (.data v)) :
    h₀.Stocked R a (vs ++ [v]) (slots ++ [c]) (obj.bind (.index vs.length.toUInt32) c) h' :=
  { hs.toFilling.append hm hre hfresh ⟨_, hc, rfl⟩ with
    extensible := hs.extensible
    plain := fun x hx => by
      rcases List.mem_append.mp hx with hx | hx
      · exact (hs.plain x hx).imp fun _ hv => hre.touches.cell x _ id hv
      · rw [List.mem_singleton.mp hx]
        exact ⟨v, hc⟩ }

/-- A property of the object that is no argument. -/
theorem other (hm : h₀.Making a (obj.bind key c) h') (hre : h.Rekeyed a key c h') (hkey : ∀ i, key ≠ .index i) :
    h₀.Stocked R a vs slots (obj.bind key c) h' :=
  { hs.toFilling.other hm hre hkey with
    extensible := hs.extensible
    plain := fun x hx => (hs.plain x hx).imp fun _ hv => hre.touches.cell x _ id hv }

/-- Each slot holds its argument. -/
theorem slot {i : Nat} (hi : vs[i]? = some v) :
    ∃ c, h.ownCell a (.index i.toUInt32) = .ok (some c) ∧ h.cell c = .ok (.data v) := by
  obtain ⟨hlt, -⟩ := List.getElem?_eq_some_iff.mp hi
  obtain ⟨c, hc⟩ : ∃ c, slots[i]? = some c := ⟨_, List.getElem?_eq_getElem (hs.sequence.length ▸ hlt)⟩
  obtain ⟨d, hd, hcontent⟩ := hs.sequence.stores i _ v hc hi
  obtain ⟨w, hw⟩ := hs.plain _ (List.mem_of_getElem? hc)
  cases hd.symm.trans hw
  cases hcontent
  obtain ⟨obj, ho, hfind⟩ := Heap.refers_iff.mp (hs.sequence.slot i c hc)
  exact ⟨c, Heap.ownCell_eq_ok.mpr ⟨obj, ho, hfind⟩, hw⟩

end Heap.Stocked

/-- **The values are put in the slots from a position on**, in strict code by assigning them. -/
theorem builds_fillArguments (strict : Bool) (vs' : List Value) :
    ∀ {h : Heap} {vs : List Value} {slots : List CellRef} {obj : Object}, h₀.Stocked m.realm a vs slots obj h →
      (strict = true → ∀ i, i < vs.length + vs'.length → h₀.Assignable m.realm (.index i.toUInt32)) →
      m.Builds h (fun E => InvocationTask.fillArguments E a strict vs.length vs') fun h' _ => ∃ obj' slots',
        h₀.Stocked m.realm a (vs ++ vs') slots' obj' h' := by
  induction vs' with
  | nil =>
    intro h vs slots obj hs _
    exact .pure ⟨obj, slots, by rwa [List.append_nil]⟩
  | cons v vs' ih =>
    intro h vs slots obj hs hassignable
    refine .bind (.onHeap (Heap.completes_allocCell hs.making.kept (.data v)) (Heap.gives_allocCell hs.making.kept _))
      fun h₁ c ⟨hk₁, ht₁, hfresh, hc⟩ => ?_
    have hs₁ := hs.beside hk₁ ht₁
    -- With the argument in place, the rest follows.
    have hrest : ∀ {h₂ x}, h₀.Stocked m.realm a (vs ++ [v]) (slots ++ [x]) (obj.bind (.index vs.length.toUInt32) x) h₂ →
        m.Builds h₂ (fun E => do return c :: (← InvocationTask.fillArguments E a strict (vs.length + 1) vs'))
          fun h' _ => ∃ obj' slots', h₀.Stocked m.realm a (vs ++ v :: vs') slots' obj' h' := by
      intro h₂ x hs₂
      have hfilled := ih hs₂ fun hstrict i hi => hassignable hstrict i (by
        rw [List.length_append, List.length_singleton] at hi
        rw [List.length_cons]
        omega)
      rw [List.length_append, List.length_singleton] at hfilled
      refine .bind hfilled fun h' cells ⟨obj', slots', hs'⟩ => .pure ⟨obj', slots', ?_⟩
      rwa [List.append_assoc] at hs'
    have hnew : ∀ {x}, (∀ d, h.cell x ≠ .ok d) → x ∉ slots := fun hx hmem =>
      let ⟨d, hd⟩ := hs.sequence.live hmem
      hx d hd
    cases strict with
    | true =>
      have hslot : h₁.Assignable m.realm (.index vs.length.toUInt32) :=
        (hassignable rfl vs.length (by rw [List.length_cons]; omega)).untouched hs₁.making.untouched
      refine .discard_bind (builds_setProperty hs₁.making hs₁.kind hs₁.extensible hs₁.prototype hslot
        (hs.indexed.find?_next hs.count_lt) v) fun h₂ _ ⟨x, hm₂, hre, hx, hfresh'⟩ => ?_
      exact hrest (hs₁.append hm₂ hre (hnew fun d hd => hfresh' d (ht₁.cell x d id hd)) hx)
    | false =>
      refine .bind (.onHeap (Heap.completes_installCell hs₁.making.object hc _)
        (hs₁.making.gives_installCell _ (fun e => hs.making.fresh_cell hfresh e) hc)) fun h₂ _ ⟨hm₂, hre, hx⟩ => ?_
      exact hrest (hs₁.append hm₂ hre (hnew hfresh) hx)

/-- The prototype of objects is live, and the names that a call needs are those of the realm. -/
structure Machine.Furnishes (m : Machine) (h : Heap) : Prop where
  kept : h.WellKept
  prototype : ∃ obj, h.object m.realm.objectPrototype = .ok obj
  names : m.realm.names.Spelled h

/-- **The object that offers the arguments is new, and each slot holds its argument**, `undefined` if there is none. In
strict code the slots have to be assignable. -/
theorem builds_allocArguments (hf : m.Furnishes h) (t : InvocationTask) (strict : Bool)
    (hassignable : strict = true → ∀ i, i < t.paddedArgs.length → h.Assignable m.realm (.index i.toUInt32)) :
    m.Builds h (fun E => t.allocArguments E strict) fun h' x => ∃ obj slots,
      h.Stocked m.realm x.1 t.paddedArgs slots obj h' := by
  obtain ⟨hk, ⟨proto, hproto⟩, hn⟩ := hf
  unfold InvocationTask.allocArguments
  refine .realm (.bind (.onHeap (Heap.completes_allocObject hk hproto .arguments .ordinary)
    (Heap.gives_allocObject hk _ .arguments .ordinary)) fun h₁ a hm => ?_)
  have hempty : h.Stocked m.realm a [] [] ⟨some m.realm.objectPrototype, .arguments, true, .empty, .ordinary⟩ h₁ :=
    ⟨⟨hm, rfl, rfl, rfl, (fun _ _ hc => by cases hc), .nil h₁ a⟩, rfl, nofun⟩
  refine .bind (builds_fillArguments strict t.paddedArgs hempty fun hstrict i hi => hassignable hstrict i (by
    simpa using hi)) fun h₂ cells ⟨obj₂, slots, hs₂⟩ => ?_
  rw [List.nil_append] at hs₂
  -- A property that is defined beside the arguments leaves them alone.
  have hdefine : ∀ {h₃ obj₃} (key : PropertyKey) (d : Descriptor), h.Stocked m.realm a t.paddedArgs slots obj₃ h₃ →
      (∀ i, key ≠ .index i) → m.Builds h₃ (fun _ => (Heap.define a key d : Run CellRef)) fun h' _ => ∃ obj',
        h.Stocked m.realm a t.paddedArgs slots obj' h' := by
    intro h₃ obj₃ key d hs₃ hkey
    refine (Machine.Builds.onHeap (Heap.completes_define hs₃.making.kept hs₃.making.object key d)
      (hs₃.making.gives_define key d)).imp fun h' c ⟨hm', hre, _, _⟩ => ⟨_, hs₃.other hm' hre hkey⟩
  have hlength : ∀ {h₃ obj₃}, h.Stocked m.realm a t.paddedArgs slots obj₃ h₃ → m.Builds h₃ (fun _ => do
      discard (Heap.define a m.realm.names.length (.hidden (.ofCount t.args.length)) : Run CellRef)
      return (a, cells)) fun h' x => ∃ obj slots, h.Stocked m.realm x.1 t.paddedArgs slots obj h' := fun hs₃ =>
    .discard_bind (hdefine _ _ hs₃ hn.length_ne_index) fun h' _ ⟨obj', hs'⟩ => .pure ⟨obj', slots, hs'⟩
  cases strict with
  | true => exact hlength hs₂
  | false =>
    exact .discard_bind (hdefine _ _ hs₂ hn.callee_ne_index) fun h₃ _ ⟨obj₃, hs₃⟩ => hlength hs₃

/-! ### Object literals -/

theorem PropertyMap.mem_keys {m : PropertyMap} : key ∈ m.keys ↔ ∃ c, m.find? key = some c := by
  unfold PropertyMap.keys
  simp only [List.mem_map, Prod.exists, exists_and_right, exists_eq_right, PropertyMap.mem_toList]

/-- The names in order of their first occurrence. -/
theorem eraseDups_concat (names : List String) (name : String) :
    (names ++ [name]).eraseDups = if name ∈ names then names.eraseDups else names.eraseDups ++ [name] := by
  rw [List.eraseDups_append]
  split
  · next hmem => simp [List.removeAll, hmem]
  · next hmem => simp [List.removeAll, hmem, List.eraseDups_cons]

/-- **The object is new, and its properties are the entries**: the distinct names in order of first occurrence, each
with the value of its last one and with all attributes set. -/
structure Heap.Displays (h₀ : Heap) (R : Realm) (a : ObjectRef) (entries : List (String × Value)) (obj : Object)
    (h : Heap) : Prop where
  making : h₀.Making a obj h
  kind : obj.kind = .ordinary
  tag : obj.tag = .object
  extensible : obj.extensible = true
  prototype : obj.prototype = some R.objectPrototype
  keys : List.Forall₂ h.Spells obj.properties.keys (entries.map (·.1)).eraseDups
  values : ∀ key c, obj.properties.find? key = some c →
    ∃ name v, h.Spells key name ∧ entries.reverse.lookup name = some v ∧ h.cell c = .ok (.data v)
  apart : ∀ key key' c, obj.properties.find? key = some c → obj.properties.find? key' = some c → key = key'

namespace Heap.Displays

variable {entries : List (String × Value)} (hd : h₀.Displays R a entries obj h)
include hd

theorem beside (hk : h'.WellKept) (ht : Heap.Untouched h h') : h₀.Displays R a entries obj h' :=
  { hd with
    making := hd.making.beside hk ht
    keys := hd.keys.imp fun _ _ hs => ht.spells hs
    values := fun key c hc =>
      let ⟨name, v, hs, hv, hcell⟩ := hd.values key c hc
      ⟨name, v, ht.spells hs, hv, ht.cell c _ id hcell⟩ }

/-- A name is among the entries exactly if the object has its key. -/
theorem mem_names (hs : h.Spells key name) : name ∈ entries.map (·.1) ↔ ∃ c, obj.properties.find? key = some c := by
  have hunique : Relator.BiUnique h.Spells :=
    ⟨fun _ _ _ hs hs' => hs.key_eq hd.making.kept.valid.canonical hs', fun _ _ _ hs hs' => hs.name_eq hs'⟩
  rw [← List.mem_eraseDups, ← PropertyMap.mem_keys]
  exact (List.rel_mem hunique hs hd.keys).symm

/-- **A name that is new** gets a property behind the others. -/
theorem append (hs : h.Spells key name) (hfind : obj.properties.find? key = none)
    (hm : h₀.Making a (obj.bind key c) h') (hre : h.Rekeyed a key c h') (hc : h'.cell c = .ok (.data v))
    (hfresh : ∀ d, h.cell c ≠ .ok d) :
    h₀.Displays R a (entries ++ [(name, v)]) (obj.bind key c) h' := by
  have hnew : name ∉ entries.map (·.1) := fun hmem => by
    obtain ⟨c, hc⟩ := (hd.mem_names hs).mp hmem
    rw [hfind] at hc
    cases hc
  have hbound : ∀ {k x}, (obj.bind key c).properties.find? k = some x →
      k = key ∧ x = c ∨ k ≠ key ∧ x ≠ c ∧ obj.properties.find? k = some x := by
    intro k x hx
    change (obj.properties.insert key c).find? k = some x at hx
    rw [PropertyMap.find?_insert] at hx
    split_ifs at hx with hk
    · cases hx
      exact .inl ⟨hk.symm, rfl⟩
    · refine .inr ⟨Ne.symm hk, ?_, hx⟩
      rintro rfl
      obtain ⟨_, d, hd⟩ := hd.making.cells k x hx
      exact hfresh d hd
  refine ⟨hm, hd.kind, hd.tag, hd.extensible, hd.prototype, ?_, fun k x hx => ?_, fun k k' x hx hx' => ?_⟩
  · have hkeys : (obj.bind key c).properties.keys = obj.properties.keys ++ [key] := by
      change (obj.properties.insert key c).keys = _
      rw [PropertyMap.keys_insert, hfind]
      rfl
    rw [hkeys, List.map_append, List.map_singleton, eraseDups_concat, if_neg hnew]
    exact List.rel_append (hd.keys.imp fun _ _ => hre.touches.spells) (.cons (hre.touches.spells hs) .nil)
  · rw [List.reverse_append, List.reverse_singleton, List.singleton_append]
    rcases hbound hx with ⟨rfl, rfl⟩ | ⟨hk, -, hx⟩
    · exact ⟨name, v, hre.touches.spells hs, by simp, hc⟩
    · obtain ⟨name', w, hs', hw, hcell⟩ := hd.values k x hx
      have hne : name' ≠ name := by
        rintro rfl
        exact hk (hs'.key_eq hd.making.kept.valid.canonical hs)
      refine ⟨name', w, hre.touches.spells hs', ?_, hre.touches.cell x _ id hcell⟩
      rw [List.lookup_cons, beq_false_of_ne hne]
      exact hw
  · rcases hbound hx with ⟨rfl, rfl⟩ | ⟨-, hne, hx⟩
    · rcases hbound hx' with ⟨rfl, -⟩ | ⟨-, hne, -⟩
      · rfl
      · exact absurd rfl hne
    · rcases hbound hx' with ⟨-, rfl⟩ | ⟨-, -, hx'⟩
      · exact absurd rfl hne
      · exact hd.apart k k' x hx hx'

/-- **A name that is there already** keeps its place, and its property takes the value. -/
theorem overwrite (hs : h.Spells key name) (hfind : obj.properties.find? key = some c)
    (hk : h'.WellKept) (ht : Heap.OnlyTouches (fun _ => False) (· = c) h h') (hc : h'.cell c = .ok (.data v)) :
    h₀.Displays R a (entries ++ [(name, v)]) obj h' := by
  have hmem : name ∈ entries.map (·.1) := (hd.mem_names hs).mpr ⟨c, hfind⟩
  have hfresh : ∀ e, h₀.cell c ≠ .ok e := (hd.making.cells key c hfind).1
  refine ⟨⟨hk, hd.making.untouched.trans ht (fun _ _ ho _ => ho) fun x e hx he => hfresh e (hx ▸ he), hd.making.fresh,
    ht.object a obj id hd.making.object, fun k x hx => ?_⟩, hd.kind, hd.tag, hd.extensible, hd.prototype, ?_,
    fun k x hx => ?_, hd.apart⟩
  · obtain ⟨hold, e, he⟩ := hd.making.cells k x hx
    exact ⟨hold, ht.cells x e he⟩
  · rw [List.map_append, List.map_singleton, eraseDups_concat, if_pos hmem]
    exact hd.keys.imp fun _ _ => ht.spells
  · rw [List.reverse_append, List.reverse_singleton, List.singleton_append]
    by_cases hxc : x = c
    · subst hxc
      cases hd.apart k key x hx hfind
      exact ⟨name, v, ht.spells hs, by simp, hc⟩
    · obtain ⟨name', w, hs', hw, hcell⟩ := hd.values k x hx
      have hne : name' ≠ name := by
        rintro rfl
        rw [hs'.key_eq hd.making.kept.valid.canonical hs, hfind] at hx
        exact hxc (Option.some.inj hx).symm
      refine ⟨name', w, ht.spells hs', ?_, ht.cell x _ hxc hcell⟩
      rw [List.lookup_cons, beq_false_of_ne hne]
      exact hw

end Heap.Displays

/-- **The name may be given to a new object**: the key may that it is, or that it will be once it is interned. -/
def Heap.AssignableName (h : Heap) (R : Realm) (name : String) : Prop :=
  ∀ h' key, Heap.Untouched h h' → h'.Valid → h'.Spells key name → h.Assignable R key

/-- **One more entry is assigned.** -/
theorem builds_setName {entries : List (String × Value)} (hd : h₀.Displays m.realm a entries obj h)
    (hname : h₀.AssignableName m.realm name) (v : Value) :
    m.Builds h (fun E => do
      let key ← Heap.keyOfName name
      setProperty E a key v true) fun h' _ => ∃ obj', h₀.Displays m.realm a (entries ++ [(name, v)]) obj' h' := by
  refine .bind (.onHeap (Heap.completes_keyOfName hd.making.kept name) fun key h₁ hdone =>
    Heap.keyOfName_names hd.making.kept hdone) fun h₁ key ⟨hk₁, hi, hspells⟩ => ?_
  have hd₁ := hd.beside hk₁ hi.untouched
  cases hfind : obj.properties.find? key with
  | none =>
    have hassignable : h₁.Assignable m.realm key :=
      (hname h₁ key hd₁.making.untouched hk₁.valid hspells).untouched hd₁.making.untouched
    exact (builds_setProperty hd₁.making hd₁.kind hd₁.extensible hd₁.prototype hassignable hfind v).imp
      fun h' _ ⟨c, hm', hre, hc, hfresh⟩ => ⟨_, hd₁.append hspells hfind hm' hre hc hfresh⟩
  | some c =>
    obtain ⟨_, w, -, -, hc⟩ := hd₁.values key c hfind
    have hown : h₁.ownCell a key = .ok (some c) := Heap.ownCell_eq_ok.mpr ⟨obj, hd₁.making.object, hfind⟩
    have hset : ∀ E, setProperty E a key v true { m with heap := h₁ } = .done true { m with
        heap := h₁.put c.handle (.cell (.data v)) } := fun E =>
      setProperty_own (m := { m with heap := h₁ }) (hd₁.making.not_array hd₁.kind) hown hc rfl E v true
    obtain ⟨-, -, hvalid⟩ := Heap.put_cell hc (.data v)
    refine .inr ⟨true, _, ⟨obj, hd₁.overwrite hspells hfind ⟨hvalid hk₁.valid, hk₁.numbered.put _ _⟩
      (Heap.onlyTouches_put_cell hc _) ?_⟩, hset⟩
    exact (Heap.cell_put_cell hc _ c).trans (if_pos rfl)

/-- **Entries are assigned to a new object**, one after the other. -/
theorem builds_setNames : ∀ (rest : List (String × Value)) {entries : List (String × Value)} {obj : Object} {h : Heap},
    h₀.Displays m.realm a entries obj h → (∀ name ∈ rest.map (·.1), h₀.AssignableName m.realm name) →
      m.Builds h (fun E => setNames E a rest) fun h' _ => ∃ obj',
        h₀.Displays m.realm a (entries ++ rest) obj' h'
  | [], entries, obj, h, hd, _ => .pure ⟨obj, by rwa [List.append_nil]⟩
  | (name, v) :: rest, entries, obj, h, hd, hnames => by
    have hfirst := builds_setName hd (hnames name (List.mem_cons_self ..)) v
    have hsplit : m.Builds h (fun E => do
        let _ ← (do let key ← Heap.keyOfName name; setProperty E a key v true : Run Bool)
        setNames E a rest) fun h' _ => ∃ obj',
          h₀.Displays m.realm a (entries ++ (name, v) :: rest) obj' h' := by
      refine hfirst.bind fun h₁ _ ⟨obj₁, hd₁⟩ => ?_
      have hrest := builds_setNames rest hd₁ fun n hn => hnames n (List.mem_cons_of_mem _ hn)
      rwa [List.append_assoc] at hrest
    unfold setNames
    simpa only [Proc.discard_bind, bind_assoc] using hsplit

/-- The object of a literal, with its entries. -/
def literal (E : Engine) (entries : List (String × Value)) : Run ObjectRef := do
  let o ← allocPlainObject
  setNames E o entries
  return o

theorem Proc.shared_bind {τ σ : Type} (p : Proc σ α) (f : α → Proc σ β) :
    (Proc.shared (p >>= f) : Proc (τ × σ) β) = (Proc.shared p >>= fun x => Proc.shared (f x)) := by
  funext ⟨t, s⟩
  cases hcase : p s with
  | done x s' =>
    have hshared : (Proc.shared p : Proc (τ × σ) α) (t, s) = .done x (t, s') := by
      simp only [Proc.shared, hcase]
    rw [Proc.bind_done hshared]
    simp only [Proc.shared, Proc.bind_done hcase]
  | failed e s' =>
    have hshared : (Proc.shared p : Proc (τ × σ) α) (t, s) = .failed e (t, s') := by
      simp only [Proc.shared, hcase]
    rw [Proc.bind_failed hshared]
    simp only [Proc.shared, Proc.bind_failed hcase]
  | stalled =>
    have hshared : (Proc.shared p : Proc (τ × σ) α) (t, s) = .stalled := by
      simp only [Proc.shared, hcase]
    rw [Proc.bind_stalled hshared]
    simp only [Proc.shared, Proc.bind_stalled hcase]

/-- Combining the values of an object literal makes its object. -/
theorem combine_object {t : ExpressionTask} {properties : List (String × Expr)} (hexpr : t.expr = .object properties)
    (E : Engine) : ExpressionTask.combine E (t, m) = (do
      let o ← Proc.shared (literal E ((properties.map (·.1)).zip t.values))
      return .value (.object o) : ExpressionTask.ExprRun Step) (t, m) := by
  obtain ⟨expr, scope, pending, values, phase, callee, receiver⟩ := t
  cases hexpr
  have hwrite : ∀ o, setNames E o ((properties.map (·.1)).zip values) =
      ExpressionTask.writeLiteral E o properties values := fun o => (ExpressionTask.writeLiteral_eq ..).symm
  unfold literal
  simp only [hwrite, Proc.shared_bind, bind_assoc]
  rfl

/-- **An object literal makes a new object** with the entries. -/
theorem builds_literal (hf : m.Furnishes h) {entries : List (String × Value)}
    (hnames : ∀ name ∈ entries.map (·.1), h.AssignableName m.realm name) :
    m.Builds h (fun E => literal E entries) fun h' a => ∃ obj, h.Displays m.realm a entries obj h' := by
  obtain ⟨hk, ⟨proto, hproto⟩, -⟩ := hf
  refine .bind (.realm (.onHeap (Heap.completes_allocObject hk hproto .object .ordinary)
    (Heap.gives_allocObject hk _ .object .ordinary))) fun h₁ a hm => ?_
  have hempty : h.Displays m.realm a [] ⟨some m.realm.objectPrototype, .object, true, .empty, .ordinary⟩ h₁ :=
    ⟨hm, rfl, rfl, rfl, rfl, .nil, (fun _ _ hc => by cases hc), fun _ _ _ hc => by cases hc⟩
  exact .bind (builds_setNames entries hempty hnames) fun h' _ ⟨obj, hd⟩ => .pure ⟨obj, hd⟩

/-! ### Fresh objects -/

/-- **Fresh objects consult no more than the prototype of objects.** Let the names of an object literal, and the indices
of the arguments of strict code, be such that a new object may be given them. Then, unless the heap is full, the literal
is a new object whose properties are its entries; and the object that offers the arguments, whether in strict or in
sloppy code, is new and has each argument in the slot of its own, `undefined` up to the number of parameters. No code is
run for it: the ways to run code make no difference. Nothing that was there before changes. -/
theorem fresh_objects (hf : m.Furnishes m.heap) :
    (∀ (t : ExpressionTask) (properties : List (String × Expr)), t.expr = .object properties →
      (∀ name ∈ properties.map (·.1), m.heap.AssignableName m.realm name) →
        (∃ h', h'.IsFull ∧ ∀ E, ExpressionTask.combine E (t, m) = .failed .outOfMemory (t, { m with heap := h' })) ∨
        ∃ a obj h', m.heap.Displays m.realm a ((properties.map (·.1)).zip t.values) obj h' ∧
          ∀ E, ExpressionTask.combine E (t, m) = .done (.value (.object a)) (t, { m with heap := h' })) ∧
    (∀ (t : InvocationTask) (strict : Bool), (strict = true → ∀ i,
      i < max t.args.length t.closure.function.params.length → m.heap.Assignable m.realm (.index i.toUInt32)) →
        m.Builds m.heap (fun E => t.allocArguments E strict) fun h' x =>
          Heap.Untouched m.heap h' ∧ (∀ obj, m.heap.object x.1 ≠ .ok obj) ∧ (∃ obj, h'.object x.1 = .ok obj ∧
            obj.tag = .arguments) ∧ max t.args.length t.closure.function.params.length < UInt32.size ∧
          ∀ i, i < max t.args.length t.closure.function.params.length → ∃ c,
            h'.ownCell x.1 (.index i.toUInt32) = .ok (some c) ∧ h'.cell c = .ok (.data (argumentAt t.args i))) := by
  refine ⟨fun t properties hexpr hnames => ?_, fun t strict hassignable => ?_⟩
  · have hentries : ∀ name ∈ (((properties.map (·.1)).zip t.values).map (·.1)), m.heap.AssignableName m.realm name :=
      fun name hname => by
        obtain ⟨⟨n, v⟩, hentry, rfl⟩ := List.mem_map.mp hname
        exact hnames n (List.of_mem_zip hentry).1
    obtain ⟨h', hfull, hfailed⟩ | ⟨a, h', ⟨obj, hd⟩, hdone⟩ := builds_literal hf hentries
    · refine .inl ⟨h', hfull, fun E => ?_⟩
      rw [combine_object hexpr]
      refine Proc.bind_failed ?_ _
      simp only [Proc.shared, show literal E _ m = _ from hfailed E]
    · refine .inr ⟨a, obj, h', hd, fun E => ?_⟩
      rw [combine_object hexpr]
      refine Proc.bind_done (t := (t, { m with heap := h' })) (a := a) ?_ _
      simp only [Proc.shared, show literal E _ m = _ from hdone E]
  · rw [← InvocationTask.length_paddedArgs] at hassignable ⊢
    refine (builds_allocArguments hf t strict hassignable).imp fun h' x hx => ?_
    obtain ⟨obj, slots, hs⟩ := hx
    refine ⟨hs.making.untouched, hs.making.fresh, ⟨obj, hs.making.object, hs.tag⟩, hs.count_lt, fun i hi => ?_⟩
    exact hs.slot (InvocationTask.getElem?_paddedArgs hi)

/-- The literal of an object with the index 0, its value at hand. -/
def indexLiteral (s : ScopeRef) : ExpressionTask :=
  ⟨.object [("0", .null)], s, [], [.null], .operands, .undefined, .undefined⟩

/-- The call of a closure with one argument. -/
def unaryCall (R : Realm) : InvocationTask :=
  ⟨R.objectPrototype, ⟨default, R.globalScope, none, none, false⟩, .undefined, [.null], R.globalScope, {}, .created,
    none, false, []⟩

theorem Heap.AssignableName.of_index {i : UInt32} (hi : arrayIndex? (Text.ofString name).units.toList = some i)
    (hassignable : h.Assignable R (.index i)) : h.AssignableName R name := by
  intro h' key ht _ hs
  unfold Heap.Spells at hs
  rw [hi] at hs
  subst hs
  exact hassignable

/-- The prototype of objects does not have the index 0. -/
def freeIndex (m : Machine) : Bool :=
  (m.heap.object m.realm.objectPrototype).toOption.isSome &&
    (m.heap.findWithin (.index 0) (maxPrototypeChain - 1) (some m.realm.objectPrototype)).toOption == some none

theorem of_freeIndex (hindex : freeIndex m = true) :
    (∃ obj, m.heap.object m.realm.objectPrototype = .ok obj) ∧ m.heap.Assignable m.realm (.index 0) := by
  obtain ⟨hproto, hfound⟩ := Bool.and_eq_true_iff.mp hindex
  refine ⟨?_, none, Except.eq_ok_of_toOption (beq_iff_eq.mp hfound), nofun⟩
  cases ho : m.heap.object m.realm.objectPrototype with
  | error e => rw [ho] at hproto; cases hproto
  | ok obj => exact ⟨obj, rfl⟩

theorem fresh_objects_created : ∃ m, Machine.create .standard {} 0 true = .ok m ∧ m.Furnishes m.heap ∧
    ((∃ h', h'.IsFull ∧ ∀ E, ExpressionTask.combine E (indexLiteral m.realm.globalScope, m) =
        .failed .outOfMemory (indexLiteral m.realm.globalScope, { m with heap := h' })) ∨
      ∃ a obj h', m.heap.Displays m.realm a [("0", .null)] obj h' ∧ ∀ E,
        ExpressionTask.combine E (indexLiteral m.realm.globalScope, m) =
          .done (.value (.object a)) (indexLiteral m.realm.globalScope, { m with heap := h' })) ∧
    m.Builds m.heap (fun E => (unaryCall m.realm).allocArguments E true) fun h' x =>
      Heap.Untouched m.heap h' ∧ (∀ obj, m.heap.object x.1 ≠ .ok obj) ∧ (∃ obj, h'.object x.1 = .ok obj ∧
        obj.tag = .arguments) ∧ 1 < UInt32.size ∧ ∀ i, i < 1 → ∃ c,
        h'.ownCell x.1 (.index i.toUInt32) = .ok (some c) ∧ h'.cell c = .ok (.data (argumentAt [.null] i)) := by
  have hindex : (Machine.create .standard {} 0 true).toOption.any freeIndex = true := by decide +kernel
  obtain ⟨m, hm, hindex⟩ := Except.exists_of_any hindex
  obtain ⟨hproto, hassignable⟩ := of_freeIndex hindex
  obtain ⟨hk, hn⟩ := Machine.spelled_create hm
  have hf : m.Furnishes m.heap := ⟨hk, hproto, hn⟩
  refine ⟨m, hm, hf, (fresh_objects hf).1 (indexLiteral _) _ rfl fun name hname => ?_,
    (fresh_objects hf).2 (unaryCall m.realm) true fun _ i hi => ?_⟩
  · rw [List.map_singleton, List.mem_singleton] at hname
    subst hname
    exact .of_index (by decide +kernel) hassignable
  · obtain rfl : i = 0 := Nat.lt_one_iff.mp hi
    exact hassignable

/-- Assigning the index 0 fails once the prototype of objects holds a value at it that may not be written. -/
def deniedIndex (m : Machine) : Bool :=
  match defineProperty m.realm.objectPrototype (.index 0) { value := some .null } m with
  | .done true m₁ =>
    (match ExpressionTask.combine Edit.refusing (indexLiteral m₁.realm.globalScope, m₁) with
      | .failed (.propertyAccess _) _ => true
      | _ => false) &&
    (match (unaryCall m₁.realm).allocArguments Edit.refusing true m₁ with
      | .failed (.propertyAccess _) _ => true
      | _ => false)
  | _ => false

theorem of_deniedIndex (hindex : deniedIndex m = true) : ∃ m₁,
    defineProperty m.realm.objectPrototype (.index 0) { value := some .null } m = .done true m₁ ∧
    (∃ what s, ExpressionTask.combine Edit.refusing (indexLiteral m₁.realm.globalScope, m₁) =
      .failed (.propertyAccess what) s) ∧
    ∃ what m₂, (unaryCall m₁.realm).allocArguments Edit.refusing true m₁ = .failed (.propertyAccess what) m₂ := by
  unfold deniedIndex at hindex
  split at hindex
  · next m₁ hdefine =>
    obtain ⟨hliteral, hcall⟩ := Bool.and_eq_true_iff.mp hindex
    refine ⟨m₁, hdefine, ?_, ?_⟩
    · split at hliteral
      · next what s hcombine => exact ⟨what, s, hcombine⟩
      · cases hliteral
    · split at hcall
      · next what m₂ hslots => exact ⟨what, m₂, hslots⟩
      · cases hcall
  · cases hindex

/-- **The prototype of objects is consulted**: an object literal, and a call in strict code, fail to give an object of
their own a property that the prototype has and does not let be written. -/
theorem fresh_objects_inherit : ∃ m₀ m : Machine, Machine.create .standard {} 0 true = .ok m₀ ∧
    defineProperty m₀.realm.objectPrototype (.index 0) { value := some .null } m₀ = .done true m ∧
    (∃ what s, ExpressionTask.combine Edit.refusing (indexLiteral m.realm.globalScope, m) =
      .failed (.propertyAccess what) s) ∧
    ∃ what m', (unaryCall m.realm).allocArguments Edit.refusing true m = .failed (.propertyAccess what) m' := by
  have hindex : (Machine.create .standard {} 0 true).toOption.any deniedIndex = true := by decide +kernel
  obtain ⟨m₀, hm, hindex⟩ := Except.exists_of_any hindex
  obtain ⟨m, hdefine, hliteral, hcall⟩ := of_deniedIndex hindex
  exact ⟨m₀, m, hm, hdefine, hliteral, hcall⟩

end ScriptCore
