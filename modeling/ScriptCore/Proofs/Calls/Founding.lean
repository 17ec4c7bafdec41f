import ScriptCore.Proofs.Calls.Reads

/-! # The heap of a new machine is lawful

While a realm is built nothing is called and nothing is shared, and that is so whatever the realm will be: the
objects that are made are ordinary, and the values that are stored name objects that inherit from others. So the
procedures that build it are followed before the realm is known, up to the scope that is made last.

* `Heap.Unshared`, `Founds`: what holds of a heap on which a realm is built, and what a procedure makes of it.
* `Realm.create_lawful`: **a new realm is lawful.** -/

namespace ScriptCore

open Heap (Stays refers_iff object_eq_ok cell_eq_ok scope_eq_ok text_eq_ok)

variable {α β : Type} {h h' : Heap} {S : Setting} {o : ObjectRef} {key : PropertyKey} {c : CellRef} {d : Descriptor}
  {name : String} {R : Realm}

/-! ### Procedures that build a realm -/

/-- On the heap nothing is called and nothing is shared. -/
def Heap.Unshared (S : Setting) (h : Heap) : Prop := (⟨h, []⟩ : World).Orderly S

theorem Heap.unshared_empty (limits : HeapLimits) : (Heap.empty limits).Unshared S := by
  have hnone : ∀ x, (Heap.empty limits).block? x = none := fun x => by simp [Heap.empty, Heap.block?, resolve]
  have hrefers : ∀ {o key c}, ¬ (Heap.empty limits).Refers o key c := fun hr => by
    obtain ⟨obj, ho, -⟩ := refers_iff.mp hr
    rw [object_eq_ok, hnone] at ho
    cases ho
  refine ⟨⟨Heap.valid_empty limits, Nat.zero_le _, fun _ _ _ hr => absurd hr hrefers,
    fun _ _ _ hr => absurd hr hrefers, fun c d hc => ?_, fun o obj ho => ?_, fun s sc hs => ?_,
    fun o obj _ ho => ?_, fun _ _ _ _ _ hr => absurd hr hrefers⟩, by simp, by simp, by simp, by simp,
    fun _ _ _ _ _ hr => absurd hr hrefers⟩
  · rw [cell_eq_ok, hnone] at hc
    cases hc
  · rw [object_eq_ok, hnone] at ho
    cases ho
  · rw [scope_eq_ok, hnone] at hs
    cases hs
  · rw [object_eq_ok, hnone] at ho
    cases ho

/-- What a procedure makes of a heap: it loses nothing, and what it delivers satisfies `Q`. -/
def Outcome.Founds (h : Heap) (Q : Heap → α → Prop) : Outcome Heap α → Prop
  | .done a h' => Stays h h' ∧ Q h' a
  | .failed _ _ | .stalled => True

/-- What a procedure makes of a heap on which a realm is built. -/
def Founds (S : Setting) (h : Heap) (p : Proc Heap α) (Q : Heap → α → Prop) : Prop := h.Unshared S → (p h).Founds h Q

namespace Founds

variable {p : Proc Heap α} {f : α → Proc Heap β} {P Q : Heap → α → Prop} {Q' : Heap → β → Prop}

theorem pure {a : α} (ha : Q h a) : Founds S h (pure a) Q := fun _ => ⟨.refl _ h, ha⟩

theorem bind (hp : Founds S h p fun h' a => h'.Unshared S ∧ P h' a)
    (hf : ∀ h' a, Stays h h' → h'.Unshared S → P h' a → Founds S h' (f a) Q') : Founds S h (p >>= f) Q' := by
  intro hh
  have hfirst := hp hh
  rw [Proc.bind_eq]
  cases hdone : p h with
  | failed e h₁ => trivial
  | stalled => trivial
  | done a h₁ =>
    rw [hdone] at hfirst
    obtain ⟨hstays, hfounded, ha⟩ := hfirst
    have hsecond := hf h₁ a hstays hfounded ha hfounded
    show (f a h₁).Founds h Q'
    cases hdone' : f a h₁ with
    | failed e h₂ => trivial
    | stalled => trivial
    | done b h₂ =>
      rw [hdone'] at hsecond
      exact ⟨hstays.trans hsecond.1, hsecond.2⟩

theorem imp (hp : Founds S h p P) (hPQ : ∀ h' a, Stays h h' → P h' a → Q h' a) : Founds S h p Q := by
  intro hh
  have hrun := hp hh
  cases hdone : p h with
  | failed e h₁ => trivial
  | stalled => trivial
  | done a h₁ =>
    rw [hdone] at hrun
    exact ⟨hrun.1, hPQ h₁ a hrun.1 hrun.2⟩

/-- What a procedure delivers need not be followed. -/
theorem seq (hp : Founds S h p fun h' _ => h'.Unshared S)
    (hf : ∀ h' a, Stays h h' → h'.Unshared S → Founds S h' (f a) Q') : Founds S h (p >>= f) Q' :=
  (hp.imp fun _ _ _ hh => ⟨hh, trivial⟩).bind (P := fun _ _ => True) fun h' a hstays hh _ => hf h' a hstays hh

theorem discard_bind {f : Unit → Proc Heap β} (hp : Founds S h p fun h' _ => h'.Unshared S)
    (hf : ∀ h', Stays h h' → h'.Unshared S → Founds S h' (f ()) Q') : Founds S h (discard p >>= f) Q' := by
  rw [Proc.discard_bind]
  exact hp.seq fun h' _ => hf h'

/-- The last step of a procedure. -/
theorem last {g : α → β} (hp : Founds S h p fun h' a => Q' h' (g a)) :
    Founds S h (p >>= fun a => return g a) Q' := by
  intro hh
  have hrun := hp hh
  rw [Proc.bind_eq]
  cases hdone : p h with
  | failed e h₁ => trivial
  | stalled => trivial
  | done a h₁ =>
    rw [hdone] at hrun
    exact hrun

theorem map {g : α → β} (hp : Founds S h p fun h' a => Q' h' (g a)) : Founds S h (g <$> p) Q' := by
  rw [map_eq_pure_bind]
  exact hp.last

theorem read {g : Heap → Except Error α} (hf : ∀ a, g h = .ok a → Founds S h (f a) Q') :
    Founds S h (Proc.reads g >>= f) Q' := by
  intro hh
  rw [Proc.reads_bind]
  cases ha : g h with
  | error e => trivial
  | ok a => exact hf a ha hh

/-- What holds of the heap may be used. -/
theorem founded (hp : h.Unshared S → Founds S h p Q) : Founds S h p Q := fun hh => hp hh hh

end Founds

/-! ### The primitives -/

theorem founds_alloc {b : Block} (hb : h.MadeBlock S.realm b) (hstring : ∀ t, b ≠ .string t) :
    Founds S h (Heap.alloc b) fun h' id => h'.Unshared S ∧ h.Filled b id h' := by
  intro hh
  have hvalid := Heap.keeps_alloc hstring h hh.heap.valid
  have hnumbered := Heap.keeps_numbered_alloc b h hh.heap.numbered
  rcases Heap.alloc_filled hh.heap.valid.toConsistent b with ⟨-, hfailed⟩ | ⟨id, h', hdone, hf, -⟩
  · rw [hfailed]
    trivial
  · rw [hdone] at hvalid hnumbered ⊢
    exact ⟨hf.stays, (Act.filled (w := ⟨h, []⟩) hf hvalid hnumbered hb).orderly hh, hf⟩

theorem founds_internString (name : String) :
    Founds S h (Heap.internString name) fun h' r => h'.Unshared S ∧ h'.text r = .ok (Text.ofString name) := by
  intro hh
  unfold Heap.internString
  have hvalid := Heap.keeps_intern (Text.ofString name) h hh.heap.valid
  have hnumbered := Heap.keeps_numbered_intern (Text.ofString name) h hh.heap.numbered
  rcases Heap.intern_filled hh.heap.valid (Text.ofString name) with
    ⟨r, hdone, ht⟩ | ⟨-, ⟨-, hfailed⟩ | ⟨r, h', hdone, hf⟩⟩
  · rw [hdone]
    exact ⟨.refl _ h, hh, ht⟩
  · rw [hfailed]
    trivial
  · rw [hdone] at hvalid hnumbered ⊢
    have hmade : h.MadeBlock S.realm (.string (Text.ofString name)) := trivial
    exact ⟨hf.stays, (Act.filled (w := ⟨h, []⟩) hf hvalid hnumbered hmade).orderly hh, text_eq_ok.mpr hf.block?_self⟩

theorem founds_keyOfName (name : String) :
    Founds S h (Heap.keyOfName name) fun h' key => h'.Unshared S ∧ h'.Spells key name := by
  unfold Heap.keyOfName
  refine (founds_internString name).bind fun h₁ r _ hh₁ ht => ?_
  rw [← bind_pure (Proc.reads _)]
  exact .read fun key hkey => .pure ⟨hh₁, Heap.spells_of_keyOfString ht hkey⟩

/-- An ordinary object is made. -/
theorem founds_allocObject (prototype : Option ObjectRef) (tag : ClassTag) :
    Founds S h (Heap.allocObject prototype tag .ordinary) fun h' o =>
      h'.Unshared S ∧ h'.object o = .ok ⟨prototype, tag, true, .empty, .ordinary⟩ := by
  have hnew : Founds S h (do return ⟨← Heap.alloc (.object ⟨prototype, tag, true, .empty, .ordinary⟩)⟩ : Proc Heap _)
      fun h' o => h'.Unshared S ∧ h'.object o = .ok ⟨prototype, tag, true, .empty, .ordinary⟩ := by
    have hmade : h.MadeBlock S.realm (.object ⟨prototype, tag, true, .empty, .ordinary⟩) :=
      ⟨rfl, trivial, fun _ => rfl⟩
    exact (founds_alloc hmade (by simp)).bind fun h₁ id _ hh₁ hf => .pure ⟨hh₁, object_eq_ok.mpr hf.block?_self⟩
  unfold Heap.allocObject
  cases prototype with
  | none => exact hnew
  | some p =>
    dsimp only
    rw [Proc.discard_bind]
    exact .read fun _ _ => hnew

theorem founds_allocCell (hd : d.Public S.realm h) :
    Founds S h (Heap.allocCell d) fun h' c => h'.Unshared S ∧ h'.cell c = .ok d ∧ World.Free ⟨h', []⟩ c := by
  unfold Heap.allocCell
  rw [map_eq_pure_bind]
  refine .founded fun hh => (founds_alloc (b := .cell d) hd (by simp)).bind fun h₁ id _ hh₁ hf =>
    .pure ⟨hh₁, cell_eq_ok.mpr hf.block?_self, fun o key hr => ?_, by simp⟩
  -- what is bound is bound to a cell that was there before
  obtain ⟨d', hd'⟩ := hh.heap.cells o key _ (hf.refers_of (by simp) hr)
  cases (hf.fresh rfl).symm.trans (cell_eq_ok.mp hd')

/-- A key is bound to a cell of its own. -/
theorem founds_installCell (hc : h.cell c = .ok d) (hdata : d.isAccessor = false) (hfree : World.Free ⟨h, []⟩ c)
    (hkey : h.Keyed key) : Founds S h (Heap.installCell o key c) fun h' _ => h'.Unshared S := by
  intro hh
  cases ho : h.object o with
  | error e =>
    rw [Heap.installCell_ample, Proc.discard_bind, Proc.reads_bind, hc]
    dsimp only
    rw [Heap.modifyObject_failed ho]
    trivial
  | ok obj =>
    rw [Heap.installCell_done ho hc]
    have hbound : (World.putObject ⟨h, []⟩ o (obj.bind key c)).Orderly S :=
      World.Orderly.bind hh ho hc (fun _ => hdata) hfree hkey (by simp) (by simp)
    exact ⟨World.stays_putObject (w := ⟨h, []⟩) ho rfl rfl, hbound⟩

/-- A property is defined. -/
theorem founds_define (hd : d.Public S.realm h) (hdata : d.isAccessor = false) (hkey : h.Keyed key) :
    Founds S h (Heap.define o key d) fun h' _ => h'.Unshared S := by
  unfold Heap.define
  rw [Proc.discard_bind]
  refine .read fun _ _ => (founds_allocCell hd).bind fun h₁ c hstays _ hc => ?_
  have hinstall := founds_installCell (o := o) (S := S) hc.1 hdata hc.2 (hstays.keyed hkey fun _ _ => trivial)
  exact hinstall.seq fun _ _ _ hh => .pure hh

/-! ### The realm -/

/-- A name that is no index. -/
theorem Heap.Spells.ne_index (hs : h.Spells key name) (hname : arrayIndex? (Text.ofString name).units.toList = none)
    (i : UInt32) : key ≠ .index i := by
  unfold Heap.Spells at hs
  rw [hname] at hs
  obtain ⟨r, rfl, -⟩ := hs
  exact fun h => by cases h

/-- The names that are looked up often are live, and none is an index. -/
def CommonNames.Live (h : Heap) (n : CommonNames) : Prop := ∀ key ∈ n.all, h.Keyed key ∧ ∀ i, key ≠ .index i

theorem founds_internNames : Founds S h CommonNames.intern fun h' n => h'.Unshared S ∧ n.Live h' := by
  have hname : ∀ (name : String) {h : Heap}, arrayIndex? (Text.ofString name).units.toList = none →
      Founds S h (Heap.keyOfName name) fun h' key => h'.Unshared S ∧ h'.Keyed key ∧ ∀ i, key ≠ .index i :=
    fun name _ hnone => (founds_keyOfName name).imp fun _ _ _ ⟨hh, hs⟩ => ⟨hh, hs.keyed, hs.ne_index hnone⟩
  have hkept : ∀ {key : PropertyKey} {h h' : Heap}, Stays h h' → (h.Keyed key ∧ ∀ i, key ≠ .index i) →
      h'.Keyed key ∧ ∀ i, key ≠ .index i := fun hs hkey => ⟨hs.keyed hkey.1 fun _ _ => trivial, hkey.2⟩
  unfold CommonNames.intern
  refine (hname _ (by decide)).bind fun h₁ length _ _ hlength => ?_
  refine (hname _ (by decide)).bind fun h₂ prototype s₂ _ hprototype => ?_
  refine (hname _ (by decide)).bind fun h₃ name s₃ _ hname₃ => ?_
  refine (hname _ (by decide)).bind fun h₄ message s₄ _ hmessage => ?_
  refine (hname _ (by decide)).bind fun h₅ callee s₅ _ hcallee => ?_
  refine (hname _ (by decide)).bind fun h₆ arguments s₆ _ harguments => ?_
  refine (hname _ (by decide)).bind fun h₇ valueOf s₇ _ hvalueOf => ?_
  refine (hname _ (by decide)).bind fun h₈ toString s₈ hh₈ htoString => .pure ⟨hh₈, fun key hkey => ?_⟩
  have s₇ := s₇.trans s₈
  have s₆ := s₆.trans s₇
  have s₅ := s₅.trans s₆
  have s₄ := s₄.trans s₅
  have s₃ := s₃.trans s₄
  simp only [CommonNames.all, List.mem_cons, List.not_mem_nil, or_false] at hkey
  rcases hkey with rfl | rfl | rfl | rfl | rfl | rfl | rfl | rfl
  · exact hkept (s₂.trans s₃) hlength
  · exact hkept s₃ hprototype
  · exact hkept s₄ hname₃
  · exact hkept s₅ hmessage
  · exact hkept s₆ hcallee
  · exact hkept s₇ harguments
  · exact hkept s₈ hvalueOf
  · exact htoString

theorem CommonNames.Live.stays {n : CommonNames} (hn : n.Live h) (hs : Stays h h') : n.Live h' :=
  fun key hkey => ⟨hs.keyed (hn key hkey).1 fun _ _ => trivial, (hn key hkey).2⟩

theorem founds_defineConstant {v : Value} (global : ObjectRef) (name : String) (hv : v.Public S.realm h) :
    Founds S h (Realm.defineConstant global name v) fun h' _ => h'.Unshared S := by
  unfold Realm.defineConstant
  refine (founds_keyOfName name).bind fun h₁ key hs₁ _ hkey => ?_
  have hd : (Descriptor.hidden v).readonly.nonConfigurable.Public S.realm h₁ := hs₁.value hv fun _ _ => trivial
  exact .map (founds_define hd rfl hkey.keyed)

theorem founds_allocScope {sc : Scope} :
    Founds S h (Heap.allocScope sc) fun h' s => h'.scope s = .ok sc ∧ (sc.Proper S.realm h → h'.Unshared S) := by
  unfold Heap.allocScope
  rw [Proc.discard_bind]
  refine .read fun _ _ hh => ?_
  have hvalid := Heap.keeps_alloc (b := .scope sc) (by simp) h hh.heap.valid
  have hnumbered := Heap.keeps_numbered_alloc (.scope sc) h hh.heap.numbered
  rw [Proc.bind_eq]
  rcases Heap.alloc_filled hh.heap.valid.toConsistent (.scope sc) with ⟨-, hfailed⟩ | ⟨id, h', hdone, hf, -⟩
  · rw [hfailed]
    trivial
  · rw [hdone] at hvalid hnumbered ⊢
    exact ⟨hf.stays, scope_eq_ok.mpr hf.block?_self, fun hsc =>
      (Act.filled (w := ⟨h, []⟩) (b := .scope sc) hf hvalid hnumbered hsc).orderly hh⟩

/-- An ordinary object that inherits from `p`. -/
def Heap.Plain (h : Heap) (p : Option ObjectRef) (o : ObjectRef) : Prop :=
  ∃ obj, h.object o = .ok obj ∧ obj.kind = .ordinary ∧ obj.prototype = p

theorem Heap.Plain.stays {p : Option ObjectRef} (ho : h.Plain p o) (hs : Stays h h') : h'.Plain p o := by
  obtain ⟨obj, ho, hkind, hprototype⟩ := ho
  obtain ⟨obj', ho', hkind', hprototype'⟩ := hs.objects o obj trivial ho
  exact ⟨obj', ho', hkind'.trans hkind, hprototype'.trans hprototype⟩

/-- The names and the prototypes of a realm that is being built. -/
structure Heap.Furnished (h : Heap) (n : CommonNames) (object : ObjectRef) (inheriting : List ObjectRef) : Prop where
  names : n.Live h
  root : h.Plain none object
  inheriting : ∀ o ∈ inheriting, h.Plain (some object) o

namespace Heap.Furnished

variable {n : CommonNames} {object : ObjectRef} {objects : List ObjectRef}

theorem stays (hb : h.Furnished n object objects) (hs : Stays h h') : h'.Furnished n object objects :=
  ⟨hb.names.stays hs, hb.root.stays hs, fun o ho => (hb.inheriting o ho).stays hs⟩

theorem keyed (hb : h.Furnished n object objects) (hkey : key ∈ n.all) : h.Keyed key := (hb.names key hkey).1

theorem shown (hb : h.Furnished n object objects) (ho : o ∈ objects) : h.Public R o := by
  obtain ⟨obj, ho, -, hinherits⟩ := hb.inheriting o ho
  exact ⟨obj, ho, .inl (by simp [hinherits])⟩

/-- One more object that inherits from the first. -/
theorem add {tag : ClassTag} (hb : h.Furnished n object objects) (hs : Stays h h')
    (ho : h'.object o = .ok ⟨some object, tag, true, .empty, .ordinary⟩) : h'.Furnished n object (o :: objects) where
  names := hb.names.stays hs
  root := hb.root.stays hs
  inheriting o' ho' := by
    rcases List.mem_cons.mp ho' with rfl | hold
    · exact ⟨_, ho, rfl, rfl⟩
    · exact (hb.inheriting o' hold).stays hs

/-- **With its scope the realm is complete.** -/
theorem lawful {R : Realm} {sc : Scope} {forbids : String → Prop}
    (hb : h.Furnished R.names R.objectPrototype objects)
    (hobjects : ∀ o ∈ [R.globalObject, R.functionPrototype, R.arrayPrototype, R.errorPrototype], o ∈ objects)
    (hsc : h.scope R.globalScope = .ok sc) (hparent : sc.parent = none) (hh : h.Unshared ⟨R, forbids⟩) :
    (⟨h, []⟩ : World).Lawful ⟨R, forbids⟩ := by
  have hplain : ∀ o ∈ [R.globalObject, R.functionPrototype, R.arrayPrototype, R.errorPrototype],
      h.Plain (some R.objectPrototype) o := fun o ho => hb.inheriting o (hobjects o ho)
  obtain ⟨global, hglobal, hordinary, hinherits⟩ := hplain _ (List.mem_cons_self ..)
  refine ⟨hh, ⟨⟨global, hglobal, .inl (by simp [hinherits])⟩, fun obj ho => ?_, ⟨sc, hsc, hparent⟩,
    fun key hkey => (hb.names key hkey).1, fun key hkey => (hb.names key hkey).2, fun p hp => ?_⟩⟩
  · cases hglobal.symm.trans ho
    exact hordinary
  · rcases List.mem_cons.mp hp with rfl | hp
    · obtain ⟨obj, ho, -⟩ := hb.root
      exact ⟨obj, ho⟩
    · obtain ⟨obj, ho, -⟩ := hplain p (List.mem_cons_of_mem _ hp)
      exact ⟨obj, ho⟩

end Heap.Furnished

/-- **Building a realm.** -/
theorem founds_createRealm (sloppy : Bool) :
    Founds S h (Realm.create sloppy) fun h' R => S.realm = R → (⟨h', []⟩ : World).Lawful S := by
  unfold Realm.create
  refine founds_internNames.bind fun h₁ n _ _ hn => ?_
  refine (founds_allocObject none .object).bind fun h₂ object s₂ _ hobject => ?_
  have b₂ : h₂.Furnished n object [] := ⟨hn.stays s₂, ⟨_, hobject, rfl, rfl⟩, by simp⟩
  refine (founds_allocObject (some object) .function).bind fun h₃ function s₃ _ hfunction => ?_
  have b₃ := b₂.add s₃ hfunction
  refine (founds_allocObject (some object) .array).bind fun h₄ array s₄ _ harray => ?_
  have b₄ := b₃.add s₄ harray
  refine (founds_allocObject (some object) (.custom "String")).bind fun h₅ string s₅ _ hstring => ?_
  have b₅ := b₄.add s₅ hstring
  refine (founds_allocObject (some object) (.custom "Number")).bind fun h₆ number s₆ _ hnumber => ?_
  have b₆ := b₅.add s₆ hnumber
  refine (founds_allocObject (some object) (.custom "Boolean")).bind fun h₇ boolean s₇ _ hboolean => ?_
  have b₇ := b₆.add s₇ hboolean
  refine (founds_allocObject (some object) .error).bind fun h₈ error s₈ _ herror => ?_
  have b₈ := b₇.add s₈ herror
  have hzero : (Descriptor.hidden (.number 0.0)).nonConfigurable.Public S.realm h₈ := trivial
  refine (founds_allocCell hzero).bind fun h₉ cell s₉ _ hcell => ?_
  have b₉ := b₈.stays s₉
  refine (founds_installCell hcell.1 rfl hcell.2 (b₉.keyed (by simp [CommonNames.all]))).seq fun h₁₀ _ s₁₀ _ => ?_
  have b₁₀ := b₉.stays s₁₀
  refine (founds_internString "Error").bind fun h₁₁ errorName s₁₁ _ _ => ?_
  have b₁₁ := b₁₀.stays s₁₁
  have hname : (Descriptor.hidden (.string errorName)).Public S.realm h₁₁ := trivial
  refine .discard_bind (founds_define hname rfl (b₁₁.keyed (by simp [CommonNames.all]))) fun h₁₂ s₁₂ _ => ?_
  have b₁₂ := b₁₁.stays s₁₂
  refine (founds_internString "").bind fun h₁₃ noText s₁₃ _ _ => ?_
  have b₁₃ := b₁₂.stays s₁₃
  have hmessage : (Descriptor.hidden (.string noText)).Public S.realm h₁₃ := trivial
  refine .discard_bind (founds_define hmessage rfl (b₁₃.keyed (by simp [CommonNames.all]))) fun h₁₄ s₁₄ _ => ?_
  have b₁₄ := b₁₃.stays s₁₄
  refine (founds_allocObject (some object) .object).bind fun h₁₅ global s₁₅ _ hglobal => ?_
  have b₁₅ := b₁₄.add s₁₅ hglobal
  refine (founds_keyOfName "globalThis").bind fun h₁₆ globalThis s₁₆ _ hkey => ?_
  have b₁₆ := b₁₅.stays s₁₆
  have hthis : (Value.object global).Public S.realm h₁₆ := b₁₆.shown (List.mem_cons_self ..)
  refine .discard_bind (founds_define (show (Descriptor.hidden _).Public _ _ from hthis) rfl hkey.keyed)
    fun h₁₇ s₁₇ _ => ?_
  have b₁₇ := b₁₆.stays s₁₇
  refine (founds_defineConstant (v := .undefined) global "undefined" trivial).seq fun h₁₈ _ s₁₈ _ => ?_
  have b₁₈ := b₁₇.stays s₁₈
  refine (founds_defineConstant (v := .number Number.nan) global "NaN" trivial).seq fun h₁₉ _ s₁₉ _ => ?_
  have b₁₉ := b₁₈.stays s₁₉
  refine (founds_defineConstant (v := .number Number.infinity) global "Infinity" trivial).seq
    fun h₂₀ _ s₂₀ hh₂₀ => ?_
  have b₂₀ := b₁₉.stays s₂₀
  -- that the scope is a proper one is known only once the realm is
  refine Founds.last (founds_allocScope.imp fun h' s hstays hscope hrealm => ?_)
  obtain ⟨R, forbids⟩ := S
  cases hrealm
  refine (b₂₀.stays hstays).lawful (by simp) hscope.1 rfl (hscope.2 ⟨rfl, b₂₀.shown ?_, fun _ => rfl, fun p hp => ?_⟩)
  · exact List.mem_cons_self ..
  · cases hp

/-- **A new realm is lawful.** -/
theorem Realm.create_lawful {R : Realm} {sloppy : Bool} {limits : HeapLimits} {forbids : String → Prop}
    (hcreate : Realm.create sloppy (Heap.empty limits) = .done R h) : (⟨h, []⟩ : World).Lawful ⟨R, forbids⟩ := by
  have hrun := founds_createRealm (S := ⟨R, forbids⟩) sloppy (Heap.unshared_empty limits)
  rw [hcreate] at hrun
  exact hrun.2 rfl

end ScriptCore
