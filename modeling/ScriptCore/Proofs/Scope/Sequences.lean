import ScriptCore.Proofs.Heap.Holders
import ScriptCore.Proofs.Heap.Prototypes
import ScriptCore.Proofs.Scope.Bindings

/-! # Objects that list values

The arguments of a call and the values that a rest parameter takes are listed by an object that is made for them. It
is new, and so are its cells, so nothing that was there before changes.

* `Heap.Making`: an object that is new, with all that it holds.
* `Heap.Sequence`: **the values that an object lists**, and the cells that hold them.
* `Heap.PlainIndices`, `gives_setProperty`: elements that strict code assigns, where none is inherited that runs code.
* `gives_allocArray`: an array of values. -/

namespace ScriptCore

variable {h h' h₀ h₁ : Heap} {m : Machine} {O : ObjectRef → Prop} {C : CellRef → Prop} {a o : ObjectRef} {obj : Object}
  {key : PropertyKey} {c : CellRef} {cs : List CellRef} {d : Descriptor} {v : Value} {vs : List Value} {R : Realm}
  {E : Engine} {i : Nat}

namespace Heap

/-! ### New objects -/

/-- **The object is new since `h₀`**, and so are the cells of its properties; nothing that was there has changed. -/
structure Making (h₀ : Heap) (a : ObjectRef) (obj : Object) (h : Heap) : Prop where
  kept : h.WellKept
  untouched : Untouched h₀ h
  fresh : ∀ x, h₀.object a ≠ .ok x
  object : h.object a = .ok obj
  cells : ∀ key c, obj.properties.find? key = some c → (∀ d, h₀.cell c ≠ .ok d) ∧ ∃ d, h.cell c = .ok d

theorem gives_allocObject (hk : h.WellKept) (prototype : Option ObjectRef) (tag : ClassTag) (kind : ObjectKind) :
    h.Gives (allocObject prototype tag kind) fun h' a => h.Making a ⟨prototype, tag, true, .empty, kind⟩ h' := by
  intro a h' hdone
  have hkept := (routine_allocObject (K := fun _ => True) prototype tag trivial).keeps_wellKept hk hdone
  obtain ⟨hf, -⟩ := allocObject_done hk.valid hdone
  refine ⟨hkept, hf.untouched, fun x hx => ?_, object_eq_ok.mpr hf.block?_self, fun key c hc => by cases hc⟩
  rw [object_eq_ok, hf.fresh rfl] at hx
  cases hx

theorem gives_allocCell (hk : h.WellKept) (d : Descriptor) :
    h.Gives (allocCell d) fun h' c => h'.WellKept ∧ Untouched h h' ∧ (∀ e, h.cell c ≠ .ok e) ∧ h'.cell c = .ok d := by
  intro c h' hdone
  have hkept := (routine_allocCell (K := fun _ => True) d).keeps_wellKept hk hdone
  rcases allocCell_filled hk.valid d with ⟨-, hfailed⟩ | ⟨c', h₁, hdone', hf⟩
  · rw [hdone] at hfailed
    cases hfailed
  cases hdone.symm.trans hdone'
  refine ⟨hkept, hf.untouched, fun e he => ?_, cell_eq_ok.mpr hf.block?_self⟩
  rw [cell_eq_ok, hf.fresh rfl] at he
  cases he

namespace Making

/-- What happens beside the object leaves it as it is. -/
theorem beside (hm : h₀.Making a obj h) (hk : h'.WellKept) (ht : Untouched h h') : h₀.Making a obj h' :=
  ⟨hk, hm.untouched.andThen ht, hm.fresh, ht.object a obj id hm.object,
    fun key c hc => let ⟨hfresh, d, hd⟩ := hm.cells key c hc; ⟨hfresh, d, ht.cell c d id hd⟩⟩

/-- A new cell is new since any time before. -/
theorem fresh_cell (hm : h₀.Making a obj h) (hc : ∀ d, h.cell c ≠ .ok d) (d : Descriptor) : h₀.cell c ≠ .ok d :=
  fun hd => hc d (hm.untouched.cell c d id hd)

/-- A property of the new object is bound to a new cell. -/
theorem rekey (hm : h₀.Making a obj h) (hr : h.Rekeyed a key c h') (hfresh : ∀ d, h₀.cell c ≠ .ok d)
    (hc : h'.cell c = .ok d) : h₀.Making a (obj.bind key c) h' := by
  refine ⟨hr.kept, hm.untouched.trans hr.touches (fun q x hq hx => hm.fresh x (hq ▸ hx)) fun _ _ hx _ => hx, hm.fresh,
    hr.object obj hm.object, fun k x hx => ?_⟩
  change (obj.properties.insert key c).find? k = some x at hx
  rw [PropertyMap.find?_insert] at hx
  split_ifs at hx with hk
  · cases hx
    exact ⟨hfresh, d, hc⟩
  · obtain ⟨hold, e, he⟩ := hm.cells k x hx
    exact ⟨hold, e, hr.touches.cell x e id he⟩

/-- A property of the new object is defined. -/
theorem gives_define (hm : h₀.Making a obj h) (key : PropertyKey) (d : Descriptor) :
    h.Gives (define a key d) fun h' c => h₀.Making a (obj.bind key c) h' ∧ h.Rekeyed a key c h' ∧ h'.cell c = .ok d ∧
      ∀ e, h.cell c ≠ .ok e := by
  intro c h' hdone
  obtain ⟨hr, hc, hfresh, -⟩ := define_rekeys hm.kept hdone
  exact ⟨hm.rekey hr (fun e => hm.fresh_cell hfresh e) hc, hr, hc, hfresh⟩

/-- A property of the new object is bound to a cell that is new, too. -/
theorem gives_installCell (hm : h₀.Making a obj h) (key : PropertyKey) (hfresh : ∀ e, h₀.cell c ≠ .ok e)
    (hc : h.cell c = .ok d) : h.Gives (installCell a key c) fun h' _ => h₀.Making a (obj.bind key c) h' ∧
      h.Rekeyed a key c h' ∧ h'.cell c = .ok d := by
  intro _ h' hdone
  obtain ⟨hr, hcell, -⟩ := installCell_rekeys hm.kept hdone
  exact ⟨hm.rekey hr hfresh (hcell d hc), hr, hcell d hc⟩

/-- What has come to be since shares no cell with the new object. -/
theorem apart (hm : h₀.Making a obj h) (hc : h₀.cell c = .ok d) (key : PropertyKey) : ¬ h.Refers a key c := fun hr =>
  (hm.cells key c (hr.find? hm.object)).1 d hc

end Making

/-! ### Values under indices -/

/-- **The object lists the values** under the indices from zero on, each in a cell of its own. -/
structure Sequence (h : Heap) (a : ObjectRef) (vs : List Value) (cs : List CellRef) : Prop where
  length : cs.length = vs.length
  slot : ∀ (i : Nat) c, cs[i]? = some c → h.Refers a (.index i.toUInt32) c
  stores : ∀ (i : Nat) c v, cs[i]? = some c → vs[i]? = some v → h.Stores c v
  nodup : cs.Nodup

namespace Sequence

theorem live (hs : h.Sequence a vs cs) (hc : c ∈ cs) : ∃ d, h.cell c = .ok d := by
  obtain ⟨i, hi, rfl⟩ := List.getElem_of_mem hc
  have hc := List.getElem?_eq_getElem hi
  obtain ⟨d, hd, -⟩ := hs.stores i _ _ hc (List.getElem?_eq_getElem (hs.length ▸ hi))
  exact ⟨d, hd⟩

theorem next (hs : h.Sequence a vs cs) (ht : OnlyTouches O C h h') (hO : ¬ O a) (hC : ∀ c ∈ cs, ¬ C c) :
    h'.Sequence a vs cs :=
  ⟨hs.length, fun i c hc => ht.refers hO (hs.slot i c hc),
    fun i c v hc hv => ht.stores (hC c (List.mem_of_getElem? hc)) (hs.stores i c v hc hv), hs.nodup⟩

/-- A property under another key does not matter. -/
theorem other (hs : h.Sequence a vs cs) (ho : h.object a = .ok obj) (hr : h.Rekeyed a key c h')
    (hkey : ∀ i, key ≠ .index i) : h'.Sequence a vs cs := by
  refine ⟨hs.length, fun i x hx => (hr.refers ho _ _).mpr ?_,
    fun i x v hx hv => hr.touches.stores id (hs.stores i x v hx hv), hs.nodup⟩
  rw [if_neg (Ne.symm (hkey _))]
  exact hs.slot i x hx

/-- **One more value.** -/
theorem append (hs : h.Sequence a vs cs) (hk : h.WellKept) (ho : h.object a = .ok obj)
    (hr : h.Rekeyed a (.index cs.length.toUInt32) c h') (hc : c ∉ cs) (hv : h'.Stores c v) :
    h'.Sequence a (vs ++ [v]) (cs ++ [c]) := by
  have hlt := hk.numbered.count_cells hs.nodup fun c => hs.live
  refine ⟨by rw [List.length_append, List.length_append, hs.length, List.length_singleton, List.length_singleton],
    fun i x hx => (hr.refers ho _ _).mpr ?_, fun i x u hx hu => ?_,
    List.nodup_append.mpr ⟨hs.nodup, List.nodup_singleton c, fun x hx y hy hxy => hc ?_⟩⟩
  · rcases getElem?_concat_eq_some.mp hx with hx | ⟨rfl, rfl⟩
    · obtain ⟨hi, -⟩ := List.getElem?_eq_some_iff.mp hx
      rw [if_neg]
      · exact hs.slot i x hx
      · intro hindex
        exact hi.ne (index_injective (hi.trans hlt) hlt hindex)
    · rw [if_pos rfl]
  · rcases getElem?_concat_eq_some.mp hx with hx | ⟨rfl, rfl⟩
    · obtain ⟨hi, -⟩ := List.getElem?_eq_some_iff.mp hx
      rw [List.getElem?_append_left (hs.length ▸ hi)] at hu
      exact hr.touches.stores id (hs.stores i x u hx hu)
    · rw [hs.length, List.getElem?_concat_length] at hu
      cases hu
      exact hv
  · rw [← List.mem_singleton.mp hy, ← hxy]
    exact hx

theorem nil (h : Heap) (a : ObjectRef) : h.Sequence a [] [] := ⟨rfl, nofun, nofun, List.nodup_nil⟩

end Sequence

/-! ### Arrays -/

/-- **The object is an array of the values.** -/
structure Lists (h : Heap) (R : Realm) (a : ObjectRef) (vs : List Value) : Prop where
  array : ∃ obj, h.object a = .ok obj ∧ obj.kind = .array ∧ obj.prototype = some R.arrayPrototype
  length : ∃ c, h.Refers a R.names.length c ∧ h.cell c = .ok (lengthDescriptor vs.length)
  elements : ∃ cs, h.Sequence a vs cs

/-- An array is what it was as long as its properties are not touched. -/
theorem Lists.transport (hl : h.Lists R a vs) (hobject : ∀ obj, h.object a = .ok obj → h'.object a = .ok obj)
    (hcell : ∀ key c d, h.Refers a key c → h.cell c = .ok d → h'.cell c = .ok d) : h'.Lists R a vs := by
  obtain ⟨⟨obj, ho, hkind⟩, ⟨c, hr, hc⟩, cs, hlength, hslot, hstores, hnodup⟩ := hl
  have hrefers : ∀ key c, h.Refers a key c → h'.Refers a key c := fun key c hr =>
    refers_iff.mpr ⟨obj, hobject obj ho, hr.find? ho⟩
  refine ⟨⟨obj, hobject obj ho, hkind⟩, ⟨c, hrefers _ _ hr, hcell _ c _ hr hc⟩, cs, hlength,
    fun i x hx => hrefers _ _ (hslot i x hx), fun i x v hx hv => ?_, hnodup⟩
  obtain ⟨d, hd, hcontent⟩ := hstores i x v hx hv
  exact ⟨d, hcell _ x d (hslot i x hx) hd, hcontent⟩

/-- **Elements are defined one after the other** on a new object. -/
theorem Making.gives_defineElements {lengthKey : PropertyKey} (hkey : ∀ i, lengthKey ≠ .index i) :
    ∀ (vs' vs : List Value) (cs : List CellRef) {h : Heap} {obj : Object}, h₀.Making a obj h → h.Sequence a vs cs →
      h.Refers a lengthKey c → h.cell c = .ok d →
      h.Gives (defineElements a vs.length vs') fun h' _ => ∃ obj' cs', h₀.Making a obj' h' ∧ obj'.kind = obj.kind ∧
        obj'.prototype = obj.prototype ∧ h'.Sequence a (vs ++ vs') cs' ∧ h'.Refers a lengthKey c ∧ h'.cell c = .ok d
  | [], vs, cs, h, obj, hm, hs, hr, hc => by
    refine .pure ⟨obj, cs, hm, rfl, rfl, ?_, hr, hc⟩
    rwa [List.append_nil]
  | v :: vs', vs, cs, h, obj, hm, hs, hr, hc => by
    refine .discard_bind (hm.gives_define (.index vs.length.toUInt32) (.data v)) fun h₁ x ⟨hm₁, hre, hx, hfresh⟩ => ?_
    have hs₁ : h₁.Sequence a (vs ++ [v]) (cs ++ [x]) := by
      refine hs.append hm.kept hm.object (hs.length ▸ hre) (fun hmem => ?_) ⟨_, hx, rfl⟩
      obtain ⟨e, he⟩ := hs.live hmem
      exact hfresh e he
    have hr₁ : h₁.Refers a lengthKey c := by
      refine (hre.refers hm.object _ _).mpr ?_
      rwa [if_neg (hkey _)]
    have hrest := gives_defineElements hkey vs' (vs ++ [v]) _ hm₁ hs₁ hr₁ (hre.touches.cell c d id hc)
    rw [List.length_append, List.length_singleton] at hrest
    refine hrest.imp fun h' _ ⟨obj', cs', hm', hkind, hprototype, hs', hr', hc'⟩ =>
      ⟨obj', cs', hm', hkind, hprototype, ?_, hr', hc'⟩
    rwa [List.append_assoc] at hs'

end Heap

/-- **An array of the values is new**, and so is all that it holds. -/
theorem gives_allocArray (hk : h.WellKept) (hkey : ∀ i, m.realm.names.length ≠ .index i) (vs : List Value) :
    m.Gives h (allocArray vs) fun h' a => ∃ obj, h.Making a obj h' ∧ h'.Lists m.realm a vs := by
  refine .realm (.bind (.onHeap (Heap.gives_allocObject hk (some m.realm.arrayPrototype) .array .array))
    fun h₁ a hm => ?_)
  refine .discard_bind (.onHeap (hm.gives_define m.realm.names.length (lengthDescriptor vs.length)))
    fun h₂ c ⟨hm₂, hre, hc, _⟩ => ?_
  have hr : h₂.Refers a m.realm.names.length c := (hre.refers hm.object _ _).mpr (by rw [if_pos rfl])
  refine .bind (.onHeap (hm₂.gives_defineElements hkey vs [] [] (.nil h₂ a) hr hc))
    fun h₃ _ ⟨obj', cs', hm', hkind, hprototype, hs', hr', hc'⟩ => ?_
  exact .pure ⟨obj', hm', ⟨obj', hm'.object, hkind, hprototype⟩, ⟨c, hr', hc'⟩, cs', hs'⟩

/-! ### Elements that strict code assigns -/

namespace Heap

/-- **No index of an object has accessors** that is the object prototype of the realm or that it inherits from. -/
def PlainIndices (h : Heap) (R : Realm) : Prop :=
  ∃ ps, h.Lineage (some R.objectPrototype) ps ∧
    ∀ q ∈ ps, ∀ i c, h.Refers q (.index i) c → ∃ d, h.cell c = .ok d ∧ d.isAccessor = false

theorem PlainIndices.untouched (hp : h.PlainIndices R) (ht : Untouched h h') : h'.PlainIndices R := by
  obtain ⟨ps, hps, hplain⟩ := hp
  refine ⟨ps, hps.mono fun q _ p hq => ?_, fun q hq i c hr => ?_⟩
  · obtain ⟨obj, ho, rfl⟩ := prototype_eq_ok.mp hq
    exact prototype_eq_ok.mpr ⟨obj, ht.object q obj id ho, rfl⟩
  · obtain ⟨obj, ho⟩ := hps.live hq
    obtain ⟨d, hd, haccessor⟩ := hplain q hq i c (ht.refers_of id ho hr)
    exact ⟨d, ht.cell c d id hd, haccessor⟩

/-- What a walk finds is a property of an object on the way. -/
theorem findWithin_mem : ∀ (bound : Nat) {p : Option ObjectRef} {ps : List ObjectRef}, h.Lineage p ps →
    h.findWithin key bound p = .ok (some (o, c)) → o ∈ ps ∧ h.Refers o key c
  | _, none, _, _, hfound => by
    unfold findWithin at hfound
    cases hfound
  | 0, some _, _, _, hfound => by cases hfound
  | bound + 1, some q, _, .cons (l := ps) live rest, hfound => by
    obtain ⟨obj, ho, rfl⟩ := prototype_eq_ok.mp live
    rw [findWithin, ho] at hfound
    dsimp only at hfound
    cases hfind : obj.properties.find? key with
    | some x =>
      rw [hfind] at hfound
      cases hfound
      exact ⟨List.mem_cons_self .., refers_iff.mpr ⟨obj, ho, hfind⟩⟩
    | none =>
      rw [hfind] at hfound
      obtain ⟨hmem, hr⟩ := findWithin_mem bound rest hfound
      exact ⟨List.mem_cons_of_mem _ hmem, hr⟩

end Heap

theorem gives_refuseWrite (key : PropertyKey) (strict : Bool) {Q : Heap → Bool → Prop} (hQ : strict = false → Q h false) :
    m.Gives h (refuseWrite key strict) Q := by
  cases strict with
  | false => exact .pure (hQ rfl)
  | true => exact .read fun _ _ => .fail _

section Assigning

variable (hm : h₀.Making a obj h) (hkind : obj.kind = .ordinary)
include hm hkind

theorem Heap.Making.not_array : h.isArray a = .ok false :=
  Heap.isArray_eq_ok.mpr ⟨obj, hm.object, by simp [hkind]⟩

theorem gives_createOwn (key : PropertyKey) (v : Value) :
    m.Gives h (createOwn a key v true) fun h' _ => ∃ c, h₀.Making a (obj.bind key c) h' ∧
      h.Rekeyed a key c h' ∧ h'.cell c = .ok (.data v) ∧ ∀ d, h.cell c ≠ .ok d := by
  refine .read fun extensible _ => ?_
  cases extensible with
  | false => exact gives_refuseWrite key true fun hstrict => by cases hstrict
  | true =>
    refine .discard_bind (.onHeap (hm.gives_define key (.data v))) fun h₁ c ⟨hm₁, hre, hc, hfresh⟩ => ?_
    have hnoted : m.Gives h₁ (noteKey a key) fun h' _ => h' = h₁ := by
      unfold Machine.Gives
      rw [noteKey_plain (m := { m with heap := h₁ }) (hm₁.not_array hkind)]
      exact ⟨h₁, rfl, rfl⟩
    refine hnoted.bind fun h' _ hsame => ?_
    subst hsame
    exact .pure ⟨c, hm₁, hre, hc, hfresh⟩

/-- **An element that is assigned to a new object becomes its own**, if what it inherits has no accessors there. -/
theorem gives_setProperty (hprototype : obj.prototype = some m.realm.objectPrototype) (hp : h.PlainIndices m.realm)
    {j : UInt32} (hfind : obj.properties.find? (.index j) = none) (E : Engine) (v : Value) :
    m.Gives h (setProperty E a (.index j) v true) fun h' _ => ∃ c, h₀.Making a (obj.bind (.index j) c) h' ∧
      h.Rekeyed a (.index j) c h' ∧ h'.cell c = .ok (.data v) ∧ ∀ d, h.cell c ≠ .ok d := by
  have hsame : setProperty E a (.index j) v true { m with heap := h } =
      setOrdinary E a (.index j) v true { m with heap := h } :=
    setProperty_plain (m := { m with heap := h }) (hm.not_array hkind) E v true
  unfold Machine.Gives
  rw [hsame]
  refine Machine.Gives.read fun found hfound => ?_
  cases found with
  | none => exact gives_createOwn hm hkind _ v
  | some found =>
    obtain ⟨holder, c⟩ := found
    -- The walk goes on from the object prototype, and what it finds there is no accessor.
    obtain ⟨ps, hps, hplain⟩ := hp
    have hinherited : holder ∈ ps ∧ h.Refers holder (.index j) c := by
      unfold Heap.findProperty maxPrototypeChain at hfound
      rw [Heap.findWithin, hm.object] at hfound
      dsimp only at hfound
      rw [hfind, hprototype] at hfound
      exact Heap.findWithin_mem _ hps hfound
    obtain ⟨d, hd, haccessor⟩ := hplain holder hinherited.1 j c hinherited.2
    refine .read fun d' hd' => ?_
    cases hd.symm.trans hd'
    obtain ⟨enumerable, configurable, isVariable, content⟩ := d
    cases content with
    | accessor getter setter => cases haccessor
    | data w writable =>
      cases writable with
      | false => exact gives_refuseWrite _ true fun hstrict => by cases hstrict
      | true =>
        dsimp only
        rw [if_neg]
        · exact gives_createOwn hm hkind _ v
        · rintro rfl
          have hown := hinherited.2.find? hm.object
          rw [hfind] at hown
          cases hown

end Assigning

end ScriptCore
