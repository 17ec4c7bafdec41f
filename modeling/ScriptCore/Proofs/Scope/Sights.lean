import ScriptCore.Proofs.Object.Visibility
import ScriptCore.Proofs.Scope.Endings

/-! # The parts of a value

A pattern takes a value apart along paths of names and positions. What it comes upon is known before it starts, except
that a unit of a string is a string that may still have to be made. So a value is seen as the text that it is, if it is a
live string, and as itself otherwise.

* `Heap.HasPart`: **a part of what is seen**, where it is a unit or the length of a string or a stored value.
* `Heap.Leads`: what a path leads to.
* `Heap.Settles`: reading a property delivers the same from now on.
* `builds_getPart`: **reading a part delivers it**, and settles it.
* `Heap.Follows`, `getPath_follows`: reading along a path. -/

namespace ScriptCore

variable {h h' h₁ : Heap} {m : Machine} {R : Realm} {B C : CellRef → Prop} {key : PropertyKey} {v u w : Value}
  {i : UInt32} {t : Text} {name : String}

theorem Heap.Named.next {O : ObjectRef → Prop} (hnamed : h.Named name key) (ht : OnlyTouches O C h h') :
    h'.Named name key := by
  obtain ⟨s, hs, hkey⟩ := hnamed
  refine ⟨s, ht.text s _ hs, ?_⟩
  unfold Heap.keyOfString at hkey ⊢
  rw [hs] at hkey
  rwa [ht.text s _ hs]

/-! ### Parts -/

/-- A part of a value: the property with a name, or the element at a position. -/
inductive Part where
  | property (name : String)
  | element (i : Nat)

namespace Part

variable {part : Part}

/-- The index that the part is, if it is one. -/
def index? : Part → Option UInt32
  | .property name => arrayIndex? (Text.ofString name).units.toList
  | .element i => some i.toUInt32

/-- The key of the part. -/
def Is (h : Heap) (key : PropertyKey) : Part → Prop
  | .property name => h.Spells key name
  | .element i => key = .index i.toUInt32

/-- The key of the part, and its name was interned. -/
def Named (h : Heap) (key : PropertyKey) : Part → Prop
  | .property name => h.Named name key
  | .element i => key = .index i.toUInt32

/-- The key of the part is looked for. -/
def toKey : Part → Run PropertyKey
  | .property name => Heap.keyOfName name
  | .element i => return .index i.toUInt32

theorem Is.eq_index (hkey : part.Is h key) (hi : part.index? = some i) : key = .index i := by
  cases part with
  | property name =>
    unfold Is Heap.Spells at hkey
    unfold index? at hi
    dsimp only at hkey hi
    rw [hi] at hkey
    exact hkey
  | element n =>
    cases hi
    exact hkey

theorem Is.unique {key' : PropertyKey} (hkey : part.Is h key) (hc : h.Canonical) (hkey' : part.Is h key') : key = key' := by
  cases part with
  | property name => exact Heap.Spells.key_eq hc hkey hkey'
  | element n => exact Eq.trans hkey (Eq.symm hkey')

/-- The key of a property is the one that its name spells. -/
theorem Is.eq_of_spells {key' : PropertyKey} (hkey : (Part.property name).Is h key) (hc : h.Canonical)
    (hs : h.Spells key' name) : key = key' :=
  hkey.unique hc hs

theorem Is.next {O : ObjectRef → Prop} (hkey : part.Is h key) (ht : Heap.OnlyTouches O C h h') : part.Is h' key := by
  cases part with
  | property name => exact ht.spells hkey
  | element n => exact hkey

theorem Is.keyText (hkey : part.Is h key) : ∃ name, h.keyText key = .ok name := by
  cases key with
  | index i => exact ⟨_, rfl⟩
  | string s =>
    cases part with
    | property name =>
      unfold Is Heap.Spells at hkey
      dsimp only at hkey
      split at hkey
      · cases hkey
      · obtain ⟨_, hs, htext⟩ := hkey
        cases hs
        unfold Heap.keyText
        dsimp only
        rw [htext]
        exact ⟨_, rfl⟩
    | element n => cases hkey

theorem Named.is (hnamed : part.Named h key) : part.Is h key := by
  cases part with
  | property name =>
    obtain ⟨t, ht, hkey⟩ := hnamed
    exact Heap.spells_of_keyOfString ht hkey
  | element n => exact hnamed

theorem Named.next {O : ObjectRef → Prop} (hnamed : part.Named h key) (ht : Heap.OnlyTouches O C h h') :
    part.Named h' key := by
  cases part with
  | property name => exact Heap.Named.next hnamed ht
  | element n => exact hnamed

theorem Named.toKey_done (hnamed : part.Named m.heap key) (hv : m.heap.Valid) : part.toKey m = .done key m := by
  cases part with
  | property name => exact Run.onHeap_done (Heap.Named.keyOfName hv hnamed)
  | element n =>
    obtain rfl := hnamed
    rfl

end Part

/-! ### What is seen -/

/-- A value as it is seen: the text that it is, if it is a live string. -/
inductive Sight where
  | text (t : Text)
  | plain (v : Value)

namespace Sight

/-- The value is seen like this. -/
def Shown (h : Heap) (v : Value) : Sight → Prop
  | .text t => ∃ s, v = .string s ∧ h.text s = .ok t
  | .plain w => v = w

def isNullish : Sight → Bool
  | .text _ => false
  | .plain v => v.isNullish

/-- The object where the chain begins that reading a property walks, if it walks one. -/
def chainStart? (R : Realm) (key : PropertyKey) : Sight → Option ObjectRef
  | .text _ =>
    match key with
    | .index _ => none
    | .string _ => if key = R.names.length then none else some R.stringPrototype
  | .plain v => R.chainStart? key v

variable {x : Sight}

theorem Shown.next {O : ObjectRef → Prop} (hx : x.Shown h v) (ht : Heap.OnlyTouches O C h h') : x.Shown h' v := by
  cases x with
  | text t =>
    obtain ⟨s, hv, hs⟩ := hx
    exact ⟨s, hv, ht.text s t hs⟩
  | plain w => exact hx

theorem Shown.isNullish (hx : x.Shown h v) : x.isNullish = v.isNullish := by
  cases x with
  | text t =>
    obtain ⟨s, rfl, -⟩ := hx
    rfl
  | plain w =>
    cases hx
    rfl

theorem Shown.chainStart? (hx : x.Shown h v) : x.chainStart? R key = R.chainStart? key v := by
  cases x with
  | text t =>
    obtain ⟨s, rfl, -⟩ := hx
    rfl
  | plain w =>
    cases hx
    rfl

end Sight

/-- How a value is seen. -/
def Heap.sight (h : Heap) : Value → Sight
  | .string s =>
    match h.text s with
    | .ok t => .text t
    | .error _ => .plain (.string s)
  | v => .plain v

theorem Heap.shown_sight (h : Heap) (v : Value) : (h.sight v).Shown h v := by
  unfold Heap.sight
  split
  · next s =>
    split
    · next t ht => exact ⟨s, rfl, ht⟩
    · rfl
  · rfl

/-- **A part of what is seen.** A string has its units, `undefined` beyond its end, and its length. Every value has what
is stored for it in the nearest holder on its chain, if the cell is not one of `B`. -/
inductive Heap.HasPart (h : Heap) (R : Realm) (B : CellRef → Prop) : Sight → Part → Sight → Prop where
  | unit {t : Text} {part : Part} {i : UInt32} {u : UInt16} : part.index? = some i → t.unitAt? i.toNat = some u →
      HasPart h R B (.text t) part (.text ⟨#[u]⟩)
  | beyond {t : Text} {part : Part} {i : UInt32} : part.index? = some i → t.unitAt? i.toNat = none →
      HasPart h R B (.text t) part (.plain .undefined)
  | length {t : Text} : HasPart h R B (.text t) (.property "length") (.plain (.ofCount t.length))
  | held {x : Sight} {part : Part} {key : PropertyKey} {o q : ObjectRef} {c : CellRef} {d : Descriptor} {v : Value}
      {writable : Bool} : part.Is h key → x.chainStart? R key = some o → h.Holder key q c maxPrototypeChain o →
      h.cell c = .ok d → d.content = .data v writable → ¬ B c → HasPart h R B x part (h.sight v)

/-- **What a path leads to.** -/
inductive Heap.Leads (h : Heap) (R : Realm) (B : CellRef → Prop) : Sight → List Part → Sight → Prop where
  | nil {x : Sight} : Leads h R B x [] x
  | cons {x y z : Sight} {part : Part} {path : List Part} : h.HasPart R B x part y → Leads h R B y path z →
      Leads h R B x (part :: path) z

namespace Heap

variable {x y z : Sight} {part : Part} {path : List Part}

theorem index?_length : (Part.property "length").index? = none := by decide +kernel

/-- What a string has of its own is not looked for on a chain. -/
theorem chainStart?_index (hkey : part.Is h key) (hi : part.index? = some i) : (Sight.text t).chainStart? R key = none := by
  rw [hkey.eq_index hi]
  rfl

theorem chainStart?_length (hc : h.Canonical) (hn : h.Spells R.names.length "length")
    (hkey : (Part.property "length").Is h key) : (Sight.text t).chainStart? R key = none := by
  have hlength : key = R.names.length := hkey.eq_of_spells hc hn
  unfold Sight.chainStart?
  cases key with
  | index i => rfl
  | string s => exact if_pos hlength

/-- **A part is one.** -/
theorem HasPart.unique (hc : h.Canonical) (hn : h.Spells R.names.length "length") (hy : h.HasPart R B x part y)
    (hz : h.HasPart R B x part z) : y = z := by
  cases hy with
  | unit hi hu =>
    cases hz with
    | unit hi' hu' =>
      cases hi.symm.trans hi'
      cases hu.symm.trans hu'
      rfl
    | beyond hi' hu' =>
      cases hi.symm.trans hi'
      cases hu.symm.trans hu'
    | length => cases hi.symm.trans index?_length
    | held hkey hstart => cases (chainStart?_index hkey hi).symm.trans hstart
  | beyond hi hu =>
    cases hz with
    | unit hi' hu' =>
      cases hi.symm.trans hi'
      cases hu.symm.trans hu'
    | beyond => rfl
    | length => cases hi.symm.trans index?_length
    | held hkey hstart => cases (chainStart?_index hkey hi).symm.trans hstart
  | length =>
    cases hz with
    | unit hi => cases hi.symm.trans index?_length
    | beyond hi => cases hi.symm.trans index?_length
    | length => rfl
    | held hkey hstart => cases (chainStart?_length hc hn hkey).symm.trans hstart
  | held hkey hstart hholder hd hcontent _ =>
    cases hz with
    | unit hi => cases (chainStart?_index hkey hi).symm.trans hstart
    | beyond hi => cases (chainStart?_index hkey hi).symm.trans hstart
    | length => cases (chainStart?_length hc hn hkey).symm.trans hstart
    | held hkey' hstart' hholder' hd' hcontent' _ =>
      cases hkey.unique hc hkey'
      cases hstart.symm.trans hstart'
      cases (findProperty_iff.mpr hholder).symm.trans (findProperty_iff.mpr hholder')
      cases hd.symm.trans hd'
      cases hcontent.symm.trans hcontent'
      rfl

/-- **A path leads to one end.** -/
theorem Leads.unique (hc : h.Canonical) (hn : h.Spells R.names.length "length") (hy : h.Leads R B x path y) :
    ∀ {z}, h.Leads R B x path z → y = z := by
  induction hy with
  | nil =>
    rintro _ ⟨⟩
    rfl
  | cons hpart _ ih =>
    rintro _ (_ | ⟨hpart', hrest⟩)
    cases hpart.unique hc hn hpart'
    exact ih hrest

end Heap

/-! ### Reading parts -/

/-- **Reading the property delivers `u` from now on**, as long as only the cells of `B` are touched. -/
def Machine.Settles (m : Machine) (B : CellRef → Prop) (h : Heap) (v : Value) (key : PropertyKey) (u : Value) : Prop :=
  ∀ h', Heap.OnlyTouches (fun _ => False) B h h' → h'.Valid → ∀ E,
    getProperty E v key { m with heap := h' } = .done u { m with heap := h' }

theorem Machine.Settles.next (hs : m.Settles B h v key u) (ht : Heap.OnlyTouches (fun _ => False) B h h') :
    m.Settles B h' v key u := fun h₂ ht₂ =>
  hs h₂ (ht.andThen ht₂)

/-- What is settled is delivered at once. -/
theorem Machine.Settles.builds {x : Sight} (hs : m.Settles B h v key u) (hk : h.WellKept) (hx : x.Shown h u) :
    m.Builds h (fun E => getProperty E v key) fun h' u => h'.WellKept ∧ Heap.Untouched h h' ∧ x.Shown h' u ∧
      m.Settles B h' v key u :=
  .inr ⟨u, h, ⟨hk, .refl _ _ h, hx, hs⟩, hs h (.refl _ _ h) hk.valid⟩

section Reading

variable {x y : Sight} {part : Part} (hk : h.WellKept) (ht : Heap.OnlyTouches (fun _ => False) B m.heap h)
  (hn : m.realm.names.Spelled m.heap) (hx : x.Shown h v) (hkey : part.Is h key)
include hk ht hn hx hkey

/-- **Reading a part delivers it**, and delivers the same from then on. -/
theorem builds_getPart (hpart : m.heap.HasPart m.realm B x part y) :
    m.Builds h (fun E => getProperty E v key) fun h' u => h'.WellKept ∧ Heap.Untouched h h' ∧ y.Shown h' u ∧
      m.Settles B h' v key u := by
  cases hpart with
  | @unit t _ i u hi hu =>
    obtain ⟨s, rfl, hs⟩ := hx
    obtain rfl := hkey.eq_index hi
    have hread : ∀ h', Heap.OnlyTouches (fun _ => False) B h h' → ∀ E,
        getProperty E (.string s) (.index i) { m with heap := h' } =
          (do return .string (← Heap.intern ⟨#[u]⟩) : Run Value) { m with heap := h' } := fun h' ht' E => by
      rw [getProperty_eq, Heap.lookup_unit (ht'.text s t hs) hu]
      rfl
    have hintern : m.Builds h (fun _ => (Run.onHeap (Heap.intern ⟨#[u]⟩) : Run StringRef)) fun h' r =>
        h'.WellKept ∧ Heap.Untouched h h' ∧ h'.text r = .ok ⟨#[u]⟩ := by
      refine .onHeap ?_ fun r h' hdone => ?_
      · rcases Heap.intern_filled hk.valid ⟨#[u]⟩ with ⟨r, hdone, -⟩ | ⟨-, hfull | ⟨r, h', hdone, -⟩⟩
        · exact .inr ⟨r, h, hdone⟩
        · exact .inl hfull
        · exact .inr ⟨r, h', hdone⟩
      · have hk' := (Heap.Routine.intern ⟨#[u]⟩).keeps_wellKept hk hdone
        rcases Heap.intern_filled hk.valid ⟨#[u]⟩ with ⟨r', hdone', hr⟩ | ⟨-, ⟨-, hfailed⟩ | ⟨r', h₁, hdone', hf⟩⟩
        · cases hdone.symm.trans hdone'
          exact ⟨hk', .refl _ _ h, hr⟩
        · cases hdone.symm.trans hfailed
        · cases hdone.symm.trans hdone'
          exact ⟨hk', hf.untouched, Heap.text_eq_ok.mpr hf.block?_self⟩
    have hmade : m.Builds h (fun _ => (do return .string (← Heap.intern ⟨#[u]⟩) : Run Value)) fun h' w => h'.WellKept ∧
        Heap.Untouched h h' ∧ (Sight.text ⟨#[u]⟩).Shown h' w ∧ m.Settles B h' (.string s) (.index i) w := by
      refine hintern.bind fun h' r ⟨hk', ht', hr⟩ => .pure ⟨hk', ht', ⟨r, rfl, hr⟩, fun h₂ ht₂ hv₂ E => ?_⟩
      -- From then on the unit is interned.
      have hfound : Heap.intern ⟨#[u]⟩ h₂ = .done r h₂ := by
        unfold Heap.intern
        rw [hv₂.canonical.find?_eq_some.mpr (ht₂.text r _ hr)]
      rw [hread h₂ (ht'.untouched.andThen ht₂) E]
      exact Proc.bind_done (Run.onHeap_done hfound) _
    exact hmade.congr fun E => hread h (.refl _ _ h) E
  | @beyond t _ i hi hu =>
    obtain ⟨s, rfl, hs⟩ := hx
    obtain rfl := hkey.eq_index hi
    have hsettles : m.Settles B h (.string s) (.index i) .undefined := fun h' ht' _ E => by
      rw [getProperty_eq, Heap.lookup_beyond (ht'.text s t hs) (Array.getElem?_eq_none_iff.mp hu)]
    exact hsettles.builds hk rfl
  | @length t =>
    obtain ⟨s, rfl, hs⟩ := hx
    have hlength : h.Spells m.realm.names.length "length" := ht.spells hn.length
    obtain rfl : key = m.realm.names.length := hkey.eq_of_spells hk.valid.canonical hlength
    obtain ⟨r, hr, -⟩ : ∃ r, m.realm.names.length = .string r ∧ h.text r = .ok (Text.ofString "length") := hlength
    have hsettles : m.Settles B h (.string s) m.realm.names.length (.ofCount t.length) := fun h' ht' _ E => by
      rw [getProperty_eq, hr, Heap.lookup_length (ht'.text s t hs) hr.symm]
    exact hsettles.builds hk rfl
  | @held _ _ key' o q c d u writable hkey' hstart hholder hd hcontent hB =>
    obtain rfl := hkey.unique hk.valid.canonical (hkey'.next ht)
    rw [hx.chainStart?] at hstart
    have hsettles : m.Settles B h v key u := fun h' ht' _ E => by
      have htouches := ht.andThen ht'
      have hfound : h'.findProperty o key = .ok (some (q, c)) :=
        Heap.findWithin_next htouches _ _ (Heap.findProperty_iff.mpr hholder)
      rw [getProperty_eq, Heap.lookup_chain hstart]
      dsimp only
      rw [hfound]
      dsimp only [Found.read]
      rw [Run.readHeap_bind, htouches.cell c d hB hd]
      exact readDescriptor_data hcontent E v _
    exact hsettles.builds hk ((m.heap.shown_sight u).next ht)

omit hk ht hn in
/-- **Nothing is a part of `undefined` or `null`**: reading it fails. -/
theorem getProperty_nullish (hnullish : x.isNullish = true) : ∃ text, ∀ E,
    getProperty E v key { m with heap := h } = .failed (.typeError text) { m with heap := h } := by
  obtain ⟨name, hname⟩ := hkey.keyText
  rw [hx.isNullish] at hnullish
  obtain ⟨described, hdescribed⟩ : ∃ text, h.describe v = .ok text := by
    cases v with
    | undefined | null => exact ⟨_, rfl⟩
    | _ => cases hnullish
  obtain ⟨text, hbase⟩ : ∃ text, h.baseError "read" v key = .ok (.typeError text) := by
    unfold Heap.baseError
    rw [hname]
    dsimp only [bind, Except.bind]
    rw [hdescribed]
    exact ⟨_, rfl⟩
  have hrefuses : ∀ E, getProperty E v key { m with heap := h } = refuseBase "read" v key { m with heap := h } := by
    intro E
    rw [getProperty_eq]
    cases v with
    | undefined | null => rfl
    | _ => cases hnullish
  refine ⟨text, fun E => (hrefuses E).trans ?_⟩
  unfold refuseBase
  rw [Run.readHeap_bind]
  dsimp only
  rw [hbase]
  rfl

end Reading

/-! ### Reading along paths -/

/-- The value at the end of a path. -/
def getPath (E : Engine) (v : Value) : List Part → Run Value
  | [] => return v
  | part :: path => do
    let key ← part.toKey
    let u ← getProperty E v key
    getPath E u path

/-- **Reading along the path delivers the value**, from now on. -/
inductive Machine.Follows (m : Machine) (B : CellRef → Prop) (h : Heap) : Value → List Part → Value → Prop where
  | nil {v : Value} : Follows m B h v [] v
  | cons {v u w : Value} {part : Part} {path : List Part} {key : PropertyKey} : part.Named h key → m.Settles B h v key u →
      Follows m B h u path w → Follows m B h v (part :: path) w

namespace Machine.Follows

variable {path : List Part}

theorem next (hf : m.Follows B h v path w) (ht : Heap.OnlyTouches (fun _ => False) B h h') : m.Follows B h' v path w := by
  induction hf with
  | nil => exact .nil
  | cons hnamed hs _ ih => exact .cons (hnamed.next ht) (hs.next ht) ih

theorem getPath (hf : m.Follows B h v path w) (hv : h.Valid) (E : Engine) :
    getPath E v path { m with heap := h } = .done w { m with heap := h } := by
  induction hf with
  | nil => rfl
  | cons hnamed hs _ ih =>
    unfold ScriptCore.getPath
    rw [Proc.bind_done (hnamed.toKey_done hv), Proc.bind_done (hs h (.refl _ _ h) hv E)]
    exact ih

end Machine.Follows

end ScriptCore
