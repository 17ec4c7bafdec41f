import ScriptCore.Proofs.Object.Assignment
import ScriptCore.Proofs.Object.Touches

/-! # Arrays with frozen attributes

A read-only length is not written by a write to the length, which looks at its attributes, but it is moved past an
element that is set or defined at or beyond it, which does not. And a property that cannot be reconfigured is not
deleted and not reconfigured, but a write to a writable length cuts it off. So the attributes of an array are
respected as long as no operation does the one or the other.

* `Edit.ReachesBeyond`: the operation sets or defines an element at or beyond a length.
* `touch_lengthFrozen`, `touch_sealed`: what one change preserves.
* `frozen_array_edits`: **when the attributes of an array are respected, and what happens otherwise.** -/

namespace ScriptCore

variable {h h' : Heap} {a o : ObjectRef} {c x : CellRef} {d : Descriptor} {key : PropertyKey} {s : StringRef}
  {obj obj₀ : Object} {m m' : Machine} {e : Edit} {v w : Value} {engine : Engine} {edits : List Edit}

/-! ### Sequences of operations -/

/-- The property holds of every operation of the sequence and the machine on which it is performed. -/
def Edit.Along (P : Edit → Machine → Prop) (engine : Engine) : List Edit → Machine → Prop
  | [], _ => True
  | e :: edits, m => P e m ∧ Along P engine edits (e.run engine m)

/-- The machine that a sequence of operations leaves. -/
def Edit.runAll (engine : Engine) (edits : List Edit) (m : Machine) : Machine :=
  edits.foldl (fun m e => e.run engine m) m

/-- The operation sets or defines an element at or beyond the length of an array that has its length in the cell
`c`. -/
def Edit.ReachesBeyond (e : Edit) (m : Machine) (c : CellRef) : Prop :=
  ∃ o i n, e.element? = some (o, i) ∧ m.heap.isArray o = .ok true ∧
    m.heap.ownCell o m.realm.names.length = .ok (some c) ∧ m.heap.lengthOf m.realm.names o = .ok n ∧ n ≤ i

/-! ### A read-only length -/

/-- The array `a` has the read-only length `d` in the cell `c`, and its elements at or beyond it are among those of
`obj₀`. -/
structure Heap.LengthFrozen (h : Heap) (length : PropertyKey) (a : ObjectRef) (obj₀ : Object) (c : CellRef)
    (d : Descriptor) : Prop where
  own : ∃ obj, h.HasLength length a obj c d ∧
    ∀ i c', d.count ≤ i → obj.properties.find? (.index i) = some c' → obj₀.properties.find? (.index i) = some c'
  readOnly : ∃ w, d.content = .data w false
  configurable : d.configurable = false

/-- A patch that is not refused leaves a read-only value that cannot be reconfigured as it is. -/
theorem Descriptor.Endures.eq_of_readOnly {d' : Descriptor} (he : d.Endures d') (hd : d.content = .data w false)
    (hconfigurable : d.configurable = false) : d' = d := by
  obtain ⟨enumerable, configurable, isVariable, content⟩ := d
  obtain ⟨enumerable', configurable', isVariable', content'⟩ := d'
  obtain ⟨hc, he, hv, hcontent⟩ := he
  dsimp only at hd hconfigurable hc he hv hcontent
  subst hd hconfigurable hc he hv
  cases hcontent with
  | fixed same => rw [Value.sameValue_iff.mp same]

namespace Heap.LengthFrozen

variable {length : PropertyKey} (hl : h.LengthFrozen length a obj₀ c d)
include hl

/-- Another heap has the length if it has the same array and the same cell. -/
theorem frame (hobject : h'.object a = h.object a) (hcell : h'.cell c = h.cell c) :
    h'.LengthFrozen length a obj₀ c d := by
  obtain ⟨obj, ⟨ho, hkind, hbound, hc⟩, hbelow⟩ := hl.own
  exact ⟨⟨obj, ⟨hobject.trans ho, hkind, hbound, hcell.trans hc⟩, hbelow⟩, hl.readOnly, hl.configurable⟩

/-- The array may lose other properties, and get elements below its length. -/
theorem putObject {obj' : Object} (ho : h.object a = .ok obj) (hkind : obj'.kind = obj.kind)
    (hbound : obj'.properties.find? length = obj.properties.find? length)
    (hfind : ∀ i c', d.count ≤ i → obj'.properties.find? (.index i) = some c' →
      obj.properties.find? (.index i) = some c') :
    (h.put a.handle (.object obj')).LengthFrozen length a obj₀ c d := by
  obtain ⟨obj₁, ⟨ho₁, hkind₁, hbound₁, hc⟩, hbelow⟩ := hl.own
  cases ho.symm.trans ho₁
  exact ⟨⟨obj', ⟨by rw [Heap.object_put_object ho, if_pos rfl], hkind.trans hkind₁, hbound.trans hbound₁,
    (Heap.cell_put_object ho obj' c).trans hc⟩, fun i c' hle hi => hbelow i c' hle (hfind i c' hle hi)⟩,
    hl.readOnly, hl.configurable⟩

/-- The array gets another property, or an element below its length. -/
theorem insert (ho : h.object a = .ok obj) (hne : key ≠ length) (hbelow : ∀ i, key = .index i → ¬ d.count ≤ i) :
    (h.put a.handle (.object { obj with properties := obj.properties.insert key x })).LengthFrozen length a obj₀ c d := by
  refine hl.putObject ho rfl (by rw [PropertyMap.find?_insert, if_neg hne]) fun i c' hle hi => ?_
  rw [PropertyMap.find?_insert] at hi
  split at hi
  · next hkey => exact absurd hle (hbelow i hkey)
  · exact hi

/-- The array loses another property. -/
theorem erase (ho : h.object a = .ok obj) (hne : key ≠ length) :
    (h.put a.handle (.object { obj with properties := obj.properties.erase key })).LengthFrozen length a obj₀ c d := by
  refine hl.putObject ho rfl (by rw [PropertyMap.find?_erase, if_neg hne]) fun i c' _ hi => ?_
  rw [PropertyMap.find?_erase] at hi
  split at hi
  · cases hi
  · exact hi

/-- Another object changes. -/
theorem putOther {obj' : Object} (ho : h.object o = .ok obj) (hne : o ≠ a) :
    (h.put o.handle (.object obj')).LengthFrozen length a obj₀ c d :=
  hl.frame (by rw [Heap.object_put_object ho, if_neg hne.symm]) (Heap.cell_put_object ho obj' c)

/-- Another cell changes. -/
theorem putCell {d₁ d₂ : Descriptor} (hx : h.cell x = .ok d₁) (hne : x ≠ c) :
    (h.put x.handle (.cell d₂)).LengthFrozen length a obj₀ c d :=
  hl.frame (Heap.object_put_cell hx d₂ a) (by rw [Heap.cell_put_cell hx, if_neg hne.symm])

/-- What was there before a slot was filled is there still. -/
theorem filled {b : Block} {id : Handle} (hf : h.Filled b id h') : h'.LengthFrozen length a obj₀ c d := by
  obtain ⟨obj, ⟨ho, hkind, hbound, hc⟩, hbelow⟩ := hl.own
  exact hl.frame
    ((Heap.object_eq_ok.mpr (hf.block?_of_some (Heap.object_eq_ok.mp ho))).trans ho.symm)
    ((Heap.cell_eq_ok.mpr (hf.block?_of_some (Heap.cell_eq_ok.mp hc))).trans hc.symm)

end Heap.LengthFrozen

/-- **One change of an operation that reaches not beyond the length** leaves the length as it is. -/
theorem touch_lengthFrozen (hm : m.heap.LengthFrozen m.realm.names.length a obj₀ c d) (hwithin : ¬ e.ReachesBeyond m c)
    (hl : h.LengthFrozen m.realm.names.length a obj₀ c d) (htouch : e.Touch m h h') :
    h'.LengthFrozen m.realm.names.length a obj₀ c d := by
  obtain ⟨objₘ, hlm, -⟩ := hm.own
  obtain ⟨obj, ⟨ho, hkind, hbound, hc⟩, -⟩ := hl.own
  obtain ⟨w, hreadOnly⟩ := hl.readOnly
  -- An element that the operation is about is below every length in the cell.
  have hbelow : ∀ o i, e.element? = some (o, i) → m.heap.isArray o = .ok true →
      m.heap.ownCell o m.realm.names.length = .ok (some c) → ¬ d.count ≤ i := fun o i helement harray hown hle =>
    hwithin ⟨o, i, d.count, helement, harray, hown,
      Heap.lengthOf_eq (Heap.ownProperty_eq_some.mpr ⟨c, hown, hlm.cell⟩), hle⟩
  cases htouch with
  | filled _ hf => exact hl.filled hf
  | @defined o obj₁ key c₁ d₁ h₁ ho₁ hf hnew =>
    have hl₁ := hl.filled hf
    have hsame : h₁.object o = .ok obj₁ := Heap.object_eq_ok.mpr (hf.block?_of_some (Heap.object_eq_ok.mp ho₁))
    by_cases hoa : o = a
    · subst hoa
      obtain ⟨hfresh, helement⟩ := hnew objₘ hlm.object
      cases ho.symm.trans ho₁
      have hne : key ≠ m.realm.names.length := by
        rintro rfl
        rw [hbound] at hfresh
        cases hfresh
      exact hl₁.insert hsame hne fun i hkey hle =>
        (helement i hkey).elim (fun hlength => hne hlength) fun helement => hbelow _ i helement hlm.isArray hlm.ownCell hle
    · exact hl₁.putOther hsame hoa
  | @written x d₁ v w₁ hx hd₁ =>
    refine hl.putCell hx ?_
    rintro rfl
    cases hc.symm.trans hx
    rw [hreadOnly] at hd₁
    cases hd₁
  | @merged x d₁ p hx hallowed =>
    by_cases hxc : x = c
    · subst hxc
      cases hc.symm.trans hx
      have hkept : p.applyTo d = d :=
        (Descriptor.Endures.apply hl.configurable (hallowed hl.configurable)).eq_of_readOnly hreadOnly hl.configurable
      rw [hkept]
      exact hl.frame (Heap.object_put_cell hx d a) (by rw [Heap.cell_put_cell hx, if_pos rfl, hc])
    · exact hl.putCell hx hxc
  | @noted o obj₁ x d₁ w₁ writable n i hl₁ hd₁ hlength hle helement hold =>
    refine hl.putCell hl₁.cell ?_
    rintro rfl
    cases hc.symm.trans hl₁.cell
    obtain ⟨objₒ, hoₒ, hkindₒ, hboundₒ⟩ := hold
    rw [Heap.lengthOf_eq hl₁.ownProperty] at hlength
    cases hlength
    have harray : m.heap.isArray o = .ok true := Heap.isArray_eq_ok.mpr ⟨objₒ, hoₒ, by simp [hkindₒ]⟩
    exact hbelow o i helement harray (Heap.ownCell_eq_ok.mpr ⟨objₒ, hoₒ, hboundₒ⟩) hle
  | @cut o obj₁ n ho₁ hcuts =>
    refine hl.putOther ho₁ ?_
    rintro rfl
    obtain ⟨v, strict, x, m₁, k, -, hwritable, -⟩ := hcuts
    rw [hlm.ownWritable] at hwritable
    unfold Descriptor.isWritable at hwritable
    rw [hreadOnly] at hwritable
    cases hwritable
  | @removed o obj₁ key x d₁ ho₁ hfind hx hd₁ =>
    by_cases hoa : o = a
    · subst hoa
      cases ho.symm.trans ho₁
      have hne : key ≠ m.realm.names.length := by
        rintro rfl
        cases hbound.symm.trans hfind
        cases hc.symm.trans hx
        rw [hl.configurable] at hd₁
        cases hd₁
      exact hl.erase ho hne
    · exact hl.putOther ho₁ hoa
  | @reshaped o obj₁ obj' ho₁ hkind₁ hproperties =>
    by_cases hoa : o = a
    · subst hoa
      exact hl.putObject ho₁ hkind₁ (by rw [hproperties]) fun i c' _ hi => by rw [← hproperties]; exact hi
    · exact hl.putOther ho₁ hoa

/-! ### A property that cannot be reconfigured -/

/-- The object `a` has the property `key` in the cell `c`, which cannot be reconfigured. -/
structure Heap.Sealed (h : Heap) (a : ObjectRef) (key : PropertyKey) (c : CellRef) : Prop where
  own : h.ownCell a key = .ok (some c)
  cell : ∃ d, h.cell c = .ok d ∧ d.configurable = false

/-- The operation cuts the property off by no write to the length. -/
def Edit.Spares (e : Edit) (m : Machine) (a : ObjectRef) (key : PropertyKey) : Prop :=
  ∀ n, e.Cuts m a n → ∀ i, key = .index i → i < n

namespace Heap.Sealed

variable (hs : h.Sealed a key c)
include hs

theorem frame (hobject : h'.object a = h.object a) (hcell : h'.cell c = h.cell c) : h'.Sealed a key c := by
  obtain ⟨obj, ho, hfind⟩ := Heap.ownCell_eq_ok.mp hs.own
  obtain ⟨d, hc, hd⟩ := hs.cell
  exact ⟨Heap.ownCell_eq_ok.mpr ⟨obj, hobject.trans ho, hfind⟩, d, hcell.trans hc, hd⟩

theorem putObject {obj' : Object} (ho : h.object o = .ok obj)
    (hfind : o = a → obj'.properties.find? key = obj.properties.find? key) :
    (h.put o.handle (.object obj')).Sealed a key c := by
  obtain ⟨obj₁, ho₁, hfind₁⟩ := Heap.ownCell_eq_ok.mp hs.own
  obtain ⟨d, hc, hd⟩ := hs.cell
  by_cases hoa : o = a
  · subst hoa
    cases ho.symm.trans ho₁
    exact ⟨Heap.ownCell_eq_ok.mpr ⟨obj', by rw [Heap.object_put_object ho, if_pos rfl], (hfind rfl).trans hfind₁⟩,
      d, (Heap.cell_put_object ho obj' c).trans hc, hd⟩
  · exact hs.frame (by rw [Heap.object_put_object ho, if_neg (Ne.symm hoa)]) (Heap.cell_put_object ho obj' c)

/-- A cell is overwritten by one that cannot be reconfigured if it could not be. -/
theorem putCell {d₁ d₂ : Descriptor} (hx : h.cell x = .ok d₁)
    (hd₂ : d₁.configurable = false → d₂.configurable = false) : (h.put x.handle (.cell d₂)).Sealed a key c := by
  obtain ⟨obj, ho, hfind⟩ := Heap.ownCell_eq_ok.mp hs.own
  obtain ⟨d, hc, hd⟩ := hs.cell
  refine ⟨Heap.ownCell_eq_ok.mpr ⟨obj, (Heap.object_put_cell hx d₂ a).trans ho, hfind⟩, ?_⟩
  by_cases hxc : c = x
  · subst hxc
    cases hc.symm.trans hx
    exact ⟨d₂, by rw [Heap.cell_put_cell hx, if_pos rfl], hd₂ hd⟩
  · exact ⟨d, by rw [Heap.cell_put_cell hx, if_neg hxc, hc], hd⟩

theorem filled {b : Block} {id : Handle} (hf : h.Filled b id h') : h'.Sealed a key c := by
  obtain ⟨obj, ho, hfind⟩ := Heap.ownCell_eq_ok.mp hs.own
  obtain ⟨d, hc, hd⟩ := hs.cell
  exact hs.frame
    ((Heap.object_eq_ok.mpr (hf.block?_of_some (Heap.object_eq_ok.mp ho))).trans ho.symm)
    ((Heap.cell_eq_ok.mpr (hf.block?_of_some (Heap.cell_eq_ok.mp hc))).trans hc.symm)

end Heap.Sealed

/-- **One change of an operation that does not cut the property off** leaves the property where it is. -/
theorem touch_sealed (hm : m.heap.Sealed a key c) (hspares : e.Spares m a key) (hs : h.Sealed a key c)
    (htouch : e.Touch m h h') : h'.Sealed a key c := by
  obtain ⟨objₘ, hoₘ, -⟩ := Heap.ownCell_eq_ok.mp hm.own
  obtain ⟨obj, ho, hfind⟩ := Heap.ownCell_eq_ok.mp hs.own
  obtain ⟨d, hc, hd⟩ := hs.cell
  cases htouch with
  | filled _ hf => exact hs.filled hf
  | @defined o obj₁ key₁ c₁ d₁ h₁ ho₁ hf hnew =>
    refine (hs.filled hf).putObject (Heap.object_eq_ok.mpr (hf.block?_of_some (Heap.object_eq_ok.mp ho₁))) ?_
    rintro rfl
    cases ho.symm.trans ho₁
    rw [PropertyMap.find?_insert, if_neg]
    rintro rfl
    exact absurd (hfind.symm.trans (hnew objₘ hoₘ).1) (by simp)
  | written hx _ => exact hs.putCell hx fun hd₁ => hd₁
  | merged hx hallowed =>
    exact hs.putCell hx fun hd₁ => (Descriptor.Endures.apply hd₁ (hallowed hd₁)).configurable
  | noted hl _ _ _ _ _ => exact hs.putCell hl.cell fun hd₁ => hd₁
  | @cut o obj₁ n ho₁ hcuts =>
    refine hs.putObject ho₁ ?_
    rintro rfl
    rw [Object.find?_cutAt, if_neg]
    cases key with
    | string t => exact Bool.false_ne_true
    | index i => simpa [PropertyKey.isBeyond] using hspares n hcuts i rfl
  | @removed o obj₁ key₁ x d₁ ho₁ hfind₁ hx hd₁ =>
    refine hs.putObject ho₁ ?_
    rintro rfl
    cases ho.symm.trans ho₁
    rw [PropertyMap.find?_erase, if_neg]
    rintro rfl
    cases hfind.symm.trans hfind₁
    cases hc.symm.trans hx
    rw [hd] at hd₁
    cases hd₁
  | reshaped ho₁ _ hproperties => exact hs.putObject ho₁ fun _ => by rw [hproperties]

/-! ### New elements -/

/-- The machine is `m`, or the object has got a property under `key` since. -/
def Machine.MayCreate (m : Machine) (o : ObjectRef) (key : PropertyKey) (m' : Machine) : Prop :=
  m' = m ∨ ∃ d c, m.Creates o key d c m'

section

variable (hv : m.heap.Valid) (hname : m.realm.names.length = .string s) (hnone : m.heap.ownCell o key = .ok none)
  (hnotes : m.Notes o key)
include hv hname hnone hnotes

theorem createOwn_mayCreate (v : Value) (strict : Bool) :
    (createOwn o key v strict m).Leaves (m.MayCreate o key) := by
  obtain ⟨htakes, hrefuses⟩ := createOwn_assigns hv hname hnone hnotes v strict
  by_cases hextensible : m.heap.isExtensible o = .ok true
  · rcases htakes hextensible with ⟨-, -, hfailed⟩ | ⟨m', hdone, -, hin | ⟨-, c, hcreates⟩⟩
    · rw [hfailed]
      exact .inl rfl
    · obtain ⟨c, d, hown, -⟩ := hin
      rw [hnone] at hown
      cases hown
    · rw [hdone]
      exact .inr ⟨_, c, hcreates⟩
  · exact (hrefuses hextensible).leaves (.inl rfl)

/-- **Setting a property that the object has not** makes it, or changes nothing. -/
theorem setProperty_mayCreate (hlength : key ≠ m.realm.names.length) (v : Value) (strict : Bool) :
    (setProperty Edit.refusing o key v strict m).Leaves (m.MayCreate o key) := by
  obtain ⟨obj, ho, hnew⟩ := Heap.ownCell_eq_ok.mp hnone
  have hsame : m.MayCreate o key m := .inl rfl
  rw [setProperty_ordinary ho fun _ => hlength]
  unfold setOrdinary
  rw [Run.readHeap_bind]
  cases hfound : m.heap.findProperty o key with
  | error err => exact hsame
  | ok found =>
    cases found with
    | none => exact createOwn_mayCreate hv hname hnone hnotes v strict
    | some found =>
      obtain ⟨holder, c⟩ := found
      dsimp only
      rw [Run.readHeap_bind]
      cases hc : m.heap.cell c with
      | error err => exact hsame
      | ok d =>
        dsimp only
        cases hcontent : d.content with
        | accessor getter setter =>
          dsimp only
          rw [Run.readHeap_bind]
          cases m.heap.isCallable setter with
          | error err => exact hsame
          | ok callable =>
            cases callable with
            | true => exact hsame
            | false => exact (refuseWrite_refuses key strict m).leaves hsame
        | data w writable =>
          cases writable with
          | false => exact (refuseWrite_refuses key strict m).leaves hsame
          | true =>
            dsimp only
            rw [if_neg]
            · exact createOwn_mayCreate hv hname hnone hnotes v strict
            · rintro rfl
              obtain ⟨obj', ho', hfind⟩ := Heap.findWithin_holds _ _ hfound
              cases ho.symm.trans ho'
              exact absurd (hfind.symm.trans hnew) (by simp)

theorem defineProperty_mayCreate (p : Patch) : (defineProperty o key p m).Leaves (m.MayCreate o key) := by
  have hsame : m.MayCreate o key m := .inl rfl
  unfold defineProperty
  show ((Proc.ofExcept p.validate >>= _) m).Leaves _
  rw [Proc.bind_eq]
  unfold Proc.ofExcept
  cases p.validate with
  | error err => exact hsame
  | ok u =>
    show ((Run.readHeap fun h => h.ownCell o key) >>= _ : Run Bool) m |>.Leaves _
    rw [Run.readHeap_bind, hnone]
    dsimp only
    rw [Run.readHeap_bind]
    cases hextensible : m.heap.isExtensible o with
    | error err => exact hsame
    | ok extensible =>
      cases extensible with
      | false => exact hsame
      | true =>
        show ((do
          discard (Run.onHeap (Heap.define o key p.toDescriptor))
          noteKey o key
          return true : Run Bool) m).Leaves _
        rcases defineNoted_done hv hname hextensible hnone hnotes p.toDescriptor with
          ⟨-, hfailed⟩ | ⟨c, m', hdone, hcreates⟩
        · rw [hfailed]
          exact hsame
        · rw [hdone]
          exact .inr ⟨_, c, hcreates⟩

end

/-- **An operation on an element that the object has not** makes it, or changes nothing. -/
theorem Edit.run_mayCreate {i : UInt32} (hv : m.heap.Valid) (hname : m.realm.names.length = .string s)
    (hnone : m.heap.ownCell o (.index i) = .ok none) (hnotes : m.Notes o (.index i)) (hnothing : e.RunsNothing m)
    (helement : e.element? = some (o, i)) : m.MayCreate o (.index i) (e.run engine m) := by
  have hlength : PropertyKey.index i ≠ m.realm.names.length := by rw [hname]; exact nofun
  have hperformed : (e.perform Edit.refusing m).Leaves (m.MayCreate o (.index i)) := by
    cases e with
    | set o' key v strict =>
      cases key with
      | string t => cases helement
      | index j =>
        cases helement
        exact Proc.leaves_discard (setProperty_mayCreate hv hname hnone hnotes hlength v strict)
    | setMember base key v strict =>
      cases base with
      | object o' =>
        cases key with
        | string t => cases helement
        | index j =>
          cases helement
          exact Proc.leaves_discard (setProperty_mayCreate hv hname hnone hnotes hlength v strict)
      | _ => cases helement
    | define o' key p =>
      cases key with
      | string t => cases helement
      | index j =>
        cases helement
        exact Proc.leaves_discard (defineProperty_mayCreate hv hname hnone hnotes p)
    | _ => cases helement
  unfold Edit.run
  rw [hnothing engine Edit.refusing]
  cases hdone : e.perform Edit.refusing m with
  | done u m' => rw [hdone] at hperformed; exact hperformed
  | failed err m' => rw [hdone] at hperformed; exact hperformed
  | stalled => exact .inl rfl

/-! ### Any number of operations -/

theorem Edit.run_lengthFrozen (hv : m.heap.Valid) (hname : m.realm.names.length = .string s)
    (hnothing : e.RunsNothing m) (hm : m.heap.LengthFrozen (.string s) a obj₀ c d)
    (hwithin : ¬ e.ReachesBeyond m c) : (e.run engine m).heap.LengthFrozen (.string s) a obj₀ c d := by
  rw [← hname] at hm ⊢
  exact (Edit.touched_run hv hname hnothing).heap.keeps hm fun _ _ ih htouch => touch_lengthFrozen hm hwithin ih htouch

theorem Edit.run_sealed (hv : m.heap.Valid) (hname : m.realm.names.length = .string s)
    (hnothing : e.RunsNothing m) (hm : m.heap.Sealed a key c) (hspares : e.Spares m a key) :
    (e.run engine m).heap.Sealed a key c :=
  (Edit.touched_run hv hname hnothing).heap.keeps hm fun _ _ ih htouch => touch_sealed hm hspares ih htouch

/-- No write to a read-only length cuts elements off. -/
theorem Heap.LengthFrozen.not_cuts (hm : m.heap.LengthFrozen m.realm.names.length a obj₀ c d) (n : UInt32) :
    ¬ e.Cuts m a n := by
  rintro ⟨v, strict, x, m₁, k, -, hwritable, -⟩
  obtain ⟨obj, hl, -⟩ := hm.own
  obtain ⟨w, hd⟩ := hm.readOnly
  rw [hl.ownWritable] at hwritable
  unfold Descriptor.isWritable at hwritable
  rw [hd] at hwritable
  cases hwritable

/-- **A read-only length stays** while no operation reaches beyond it, and nothing is cut off. -/
theorem Edit.runAll_lengthFrozen : ∀ {edits : List Edit} {m : Machine}, m.heap.Valid →
    m.realm.names.length = .string s → Edit.Along (fun e m => e.RunsNothing m) engine edits m →
    Edit.Along (fun e m => ¬ e.ReachesBeyond m c) engine edits m → m.heap.LengthFrozen (.string s) a obj₀ c d →
    (Edit.runAll engine edits m).heap.LengthFrozen (.string s) a obj₀ c d ∧
      Edit.Along (fun e m => ∀ n, ¬ e.Cuts m a n) engine edits m
  | [], _, _, _, _, _, hm => ⟨hm, trivial⟩
  | e :: edits, m, hv, hname, ⟨hnothing, hrest⟩, ⟨hwithin, hwithins⟩, hm => by
    have htouched : Machine.Touched e m (e.run engine m) := Edit.touched_run hv hname hnothing
    obtain ⟨hkept, huncut⟩ := runAll_lengthFrozen htouched.heap.valid
      (by rw [htouched.realm]; exact hname) hrest hwithins (Edit.run_lengthFrozen hv hname hnothing hm hwithin)
    exact ⟨hkept, (hname ▸ hm).not_cuts, huncut⟩

/-- **A property that cannot be reconfigured stays** while no operation cuts it off. -/
theorem Edit.runAll_sealed : ∀ {edits : List Edit} {m : Machine}, m.heap.Valid →
    m.realm.names.length = .string s → Edit.Along (fun e m => e.RunsNothing m) engine edits m →
    Edit.Along (fun e m => e.Spares m a key) engine edits m → m.heap.Sealed a key c →
    (Edit.runAll engine edits m).heap.Sealed a key c
  | [], _, _, _, _, _, hm => hm
  | e :: edits, m, hv, hname, ⟨hnothing, hrest⟩, ⟨hspares, hspared⟩, hm => by
    have htouched : Machine.Touched e m (e.run engine m) := Edit.touched_run hv hname hnothing
    show (Edit.runAll engine edits (e.run engine m)).heap.Sealed a key c
    exact runAll_sealed htouched.heap.valid (by rw [htouched.realm]; exact hname) hrest hspared
      (Edit.run_sealed hv hname hnothing hm hspares)

/-- **When the attributes of an array are respected.** Let the array `a` have a length that cannot be reconfigured, and
let operations that run no code be performed one after another, each of which may fail.

* A read-only length stays as it is, and nothing is cut off, if none of the operations sets or defines an element at
  or beyond it. The array gets no element there either.
* A property that cannot be reconfigured stays in its cell, and cannot be reconfigured, if no write to the length cuts
  it off. So it does while the length is read-only.
* Both conditions are needed. A new element at or beyond the length moves the length past it, be it read-only or not;
  and a write to a writable length removes all elements from there on, whether they can be reconfigured or not. -/
theorem frozen_array_edits {writable : Bool} (hv : m.heap.Valid) (hname : m.realm.names.length = .string s)
    (hl : m.heap.HasLength m.realm.names.length a obj c d) (hd : d.content = .data w writable)
    (hconfigurable : d.configurable = false) (engine : Engine) :
    (writable = false → ∀ edits, Edit.Along (fun e m => e.RunsNothing m) engine edits m →
      Edit.Along (fun e m => ¬ e.ReachesBeyond m c) engine edits m →
      (∃ obj', (Edit.runAll engine edits m).heap.HasLength m.realm.names.length a obj' c d ∧
        ∀ i c', d.count ≤ i → obj'.properties.find? (.index i) = some c' →
          obj.properties.find? (.index i) = some c') ∧
      Edit.Along (fun e m => ∀ n, ¬ e.Cuts m a n) engine edits m) ∧
    (∀ key x, m.heap.Sealed a key x → ∀ edits, Edit.Along (fun e m => e.RunsNothing m) engine edits m →
      Edit.Along (fun e m => e.Spares m a key) engine edits m →
      (Edit.runAll engine edits m).heap.Sealed a key x) ∧
    (∀ (e : Edit) i, e.RunsNothing m → e.element? = some (a, i) → d.count ≤ i → i.toNat < indexBound →
      obj.properties.find? (.index i) = none → (e.run engine m).heap.ownCell a (.index i) ≠ .ok none →
      (e.run engine m).heap.ownProperty a m.realm.names.length =
        .ok (some { d with content := .data (.ofCount (i.toNat + 1)) writable })) ∧
    (writable = true → ∀ v strict x n, v.isObject = false → m.heap.numberOf v = .ok x →
      Number.wholeBelow? UInt32.size x = some n → ∀ i : UInt32, n ≤ i.toNat →
      ((Edit.set a m.realm.names.length v strict).run engine m).heap.ownCell a (.index i) = .ok none) := by
  refine ⟨?_, fun key x hsealed edits hnothing hspares => Edit.runAll_sealed hv hname hnothing hspares hsealed, ?_, ?_⟩
  · rintro rfl edits hnothing hwithin
    have hfrozen : m.heap.LengthFrozen (.string s) a obj c d :=
      ⟨⟨obj, hname ▸ hl, fun _ _ _ hi => hi⟩, ⟨w, hd⟩, hconfigurable⟩
    obtain ⟨hkept, huncut⟩ := Edit.runAll_lengthFrozen hv hname hnothing hwithin hfrozen
    rw [hname]
    exact ⟨hkept.own, huncut⟩
  · intro e i hnothing helement hle hbound hnew hthere
    have hnone : m.heap.ownCell a (.index i) = .ok none := Heap.ownCell_eq_ok.mpr ⟨obj, hl.object, hnew⟩
    have hnotes : m.Notes a (.index i) := fun j hj _ _ => by
      cases hj
      exact ⟨hbound, d, w, writable, hl.ownProperty, hd⟩
    have hmay : m.MayCreate a (.index i) (e.run engine m) :=
      Edit.run_mayCreate hv hname hnone hnotes hnothing helement
    rcases hmay with hsame | ⟨d', c', hcreates⟩
    · rw [hsame] at hthere
      exact absurd hnone hthere
    · have hout : m.Outgrows a (.index i) i := ⟨rfl, hl.isArray, d.count, Heap.lengthOf_eq hl.ownProperty, hle⟩
      obtain ⟨obj₁, ho₁, -, -, ho'⟩ := hcreates.object
      cases hl.object.symm.trans ho₁
      refine Heap.ownProperty_eq_some.mpr ⟨c, Heap.ownCell_eq_ok.mpr ⟨_, ho', ?_⟩,
        hcreates.length i c d w writable hout hl.ownCell hl.cell hd⟩
      rw [PropertyMap.find?_insert, if_neg (by rw [hname]; exact nofun)]
      exact hl.bound
  · rintro rfl v strict x n hprimitive hx hn i hle
    have hlength : ∀ k, m.realm.names.length.isBeyond k = false := fun k => by rw [hname]; rfl
    have hdone : (Edit.set a m.realm.names.length v strict).perform engine m = .done () { m with
        heap := (m.heap.put a.handle (.object (obj.cutAt n.toUInt32))).put c.handle
          (.cell { d with content := .data (.ofCount n) true }) } := by
      show (discard (setProperty engine a m.realm.names.length v strict) : Run Unit) m = _
      show (Functor.map _ (setProperty engine a m.realm.names.length v strict)) m = _
      rw [map_eq_pure_bind, Proc.bind_eq, setProperty_length hl hd, Proc.bind_eq,
        setLength_done hl hlength hd hprimitive hx hn]
      rfl
    unfold Edit.run
    rw [hdone]
    have hcut : Heap.cell (m.heap.put a.handle (.object (obj.cutAt n.toUInt32))) c = .ok d :=
      (Heap.cell_put_object hl.object _ c).trans hl.cell
    refine Heap.ownCell_eq_ok.mpr ⟨obj.cutAt n.toUInt32, ?_, ?_⟩
    · show Heap.object (Heap.put _ _ _) a = _
      rw [Heap.object_put_cell hcut, Heap.object_put_object hl.object, if_pos rfl]
    · rw [Object.find?_cutAt, if_pos]
      have hcount : n.toUInt32.toNat = n := Nat.mod_eq_of_lt (wholeBelow?_lt hn)
      simpa [PropertyKey.isBeyond, UInt32.le_iff_toNat_le, hcount] using hle

/-- The length is written and defined, to no effect. -/
def lengthEdits (a : ObjectRef) (length : PropertyKey) : List Edit :=
  [.set a length (.ofCount 0) false, .define a length { value := some (.ofCount 0) }]

/-- A read-only length. -/
def readOnlyLength (n : Nat) : Descriptor := ⟨false, false, false, .data (.ofCount n) false⟩

/-- A value of the object's own is no accessor that an operation meets. -/
theorem Edit.meetsAccessorAt_own {writable : Bool} (hown : h.ownCell a key = .ok (some c)) (hc : h.cell c = .ok d)
    (hd : d.content = .data w writable) : Edit.meetsAccessorAt h a key = false := by
  obtain ⟨obj, ho, hfind⟩ := Heap.ownCell_eq_ok.mp hown
  have hfound : h.findProperty a key = .ok (some (a, c)) := by
    unfold Heap.findProperty maxPrototypeChain
    rw [Heap.findWithin, ho]
    dsimp only
    rw [hfind]
  unfold Edit.meetsAccessorAt
  rw [hfound]
  dsimp only
  rw [hc]
  unfold Descriptor.isAccessor
  dsimp only
  rw [hd]

/-- A new array of one value whose length is made read-only keeps its length. -/
theorem frozen_array_edits_length : ∃ (m m₁ m₂ : Machine) (a : ObjectRef) (c : CellRef) (d : Descriptor),
    Machine.create .standard {} 0 true = .ok m ∧ allocArray [.null, .null] m = .done a m₁ ∧
    defineProperty a m₁.realm.names.length { writable := some false } m₁ = .done true m₂ ∧
    m₂.heap.ownProperty a m₂.realm.names.length = .ok (some d) ∧ d.isWritable = false ∧
    ∃ obj, (Edit.runAll Edit.refusing (lengthEdits a m₂.realm.names.length) m₂).heap.HasLength
      m₂.realm.names.length a obj c d := by
  have hfit : (Machine.create .standard {} 0 true).toOption.any arrayEditsFit = true := by decide +kernel
  cases hm : Machine.create .standard {} 0 true with
  | error e => rw [hm] at hfit; cases hfit
  | ok m =>
    rw [hm] at hfit
    change arrayEditsFit m = true at hfit
    unfold arrayEditsFit at hfit
    cases halloc : allocArray [.null, .null] m with
    | failed e m₁ => rw [halloc] at hfit; cases hfit
    | stalled => rw [halloc] at hfit; cases hfit
    | done a m₁ =>
      rw [halloc] at hfit
      obtain ⟨hname, -⟩ := Bool.and_eq_true_iff.mp hfit
      obtain ⟨c, n, -, hmeasured⟩ := Machine.allocArray_sized (Machine.built_create hm) (beq_iff_eq.mp hname) halloc
      obtain ⟨obj, hl⟩ := hmeasured.hasLength
      have hdefined : defineProperty a m₁.realm.names.length { writable := some false } m₁ =
          .done true { m₁ with heap := m₁.heap.put c.handle (.cell (readOnlyLength n)) } :=
        defineProperty_done hmeasured.name hl.ownCell hl.cell rfl rfl
      have hl' : Heap.HasLength (m₁.heap.put c.handle (.cell (readOnlyLength n))) m₁.realm.names.length a obj c
          (readOnlyLength n) :=
        ⟨(Heap.object_put_cell hl.cell _ a).trans hl.object, hl.kind, hl.bound,
          by rw [Heap.cell_put_cell hl.cell, if_pos rfl]⟩
      have hv : Heap.Valid (m₁.heap.put c.handle (.cell (readOnlyLength n))) :=
        hmeasured.heap.valid.putCell hl.cell _
      have hproduced : m₁.realm.names.length.Produced := by
        rw [hmeasured.name]
        exact .inl ⟨"length", Heap.empty .standard, _, rfl⟩
      have hset : (Edit.set a m₁.realm.names.length (.ofCount 0) false).RunsNothing
          { m₁ with heap := m₁.heap.put c.handle (.cell (readOnlyLength n)) } :=
        Edit.runsNothing (a := a) ⟨hproduced, fun _ => rfl⟩ (Edit.meetsAccessorAt_own hl'.ownCell hl'.cell rfl)
      have hwithin : ∀ e ∈ lengthEdits a m₁.realm.names.length, ∀ m, ¬ e.ReachesBeyond m c := by
        rw [hmeasured.name]
        intro e he m hbeyond
        obtain ⟨o, i, n, helement, -⟩ := hbeyond
        simp only [lengthEdits, List.mem_cons, List.not_mem_nil, or_false] at he
        rcases he with rfl | rfl <;> cases helement
      obtain ⟨⟨obj', hkept, -⟩, -⟩ := (frozen_array_edits
        (m := { m₁ with heap := m₁.heap.put c.handle (.cell (readOnlyLength n)) })
        hv hmeasured.name hl' rfl rfl Edit.refusing).1 rfl (lengthEdits a m₁.realm.names.length)
        ⟨hset, fun _ _ => rfl, trivial⟩
        ⟨hwithin _ (List.mem_cons_self ..) _, hwithin _ (List.mem_cons_of_mem _ (List.mem_cons_self ..)) _, trivial⟩
      exact ⟨m, m₁, _, a, c, _, rfl, halloc, hdefined, hl'.ownProperty, rfl, obj', hkept⟩

/-- The length of a new array of one value is made read-only, and element `1` is set. -/
def frozenLengthMoves (m : Machine) : Bool :=
  match allocArray [.null] m with
  | .done a m₁ =>
    match defineProperty a m₁.realm.names.length { writable := some false } m₁ with
    | .done true m₂ =>
      match setProperty Edit.refusing a (.index 1) .null false m₂ with
      | .done true m₃ => (m₂.heap.ownWritable a m₂.realm.names.length).toOption == some false &&
          (m₂.heap.lengthOf m₂.realm.names a).toOption == some 1 &&
          (m₃.heap.lengthOf m₃.realm.names a).toOption == some 2
      | _ => false
    | _ => false
  | _ => false

theorem of_frozenLengthMoves (hmoves : frozenLengthMoves m = true) : ∃ a m₁ m₂ m₃, allocArray [.null] m = .done a m₁ ∧
    defineProperty a m₁.realm.names.length { writable := some false } m₁ = .done true m₂ ∧
    m₂.heap.ownWritable a m₂.realm.names.length = .ok false ∧ m₂.heap.lengthOf m₂.realm.names a = .ok 1 ∧
    setProperty Edit.refusing a (.index 1) .null false m₂ = .done true m₃ ∧
    m₃.heap.lengthOf m₃.realm.names a = .ok 2 := by
  unfold frozenLengthMoves at hmoves
  split at hmoves
  · next a m₁ halloc =>
    split at hmoves
    · next m₂ hdefined =>
      split at hmoves
      · next m₃ hset =>
        simp only [Bool.and_eq_true, beq_iff_eq] at hmoves
        obtain ⟨⟨hwritable, hbefore⟩, hafter⟩ := hmoves
        exact ⟨a, m₁, m₂, m₃, halloc, hdefined, Except.eq_ok_of_toOption hwritable,
          Except.eq_ok_of_toOption hbefore, hset, Except.eq_ok_of_toOption hafter⟩
      · cases hmoves
    · cases hmoves
  · cases hmoves

/-- The element of a new array of one value is made unconfigurable, and the length is set to zero. -/
def sealedElementGoes (m : Machine) : Bool :=
  match allocArray [.null] m with
  | .done a m₁ =>
    match defineProperty a (.index 0) { configurable := some false } m₁ with
    | .done true m₂ =>
      match setProperty Edit.refusing a m₂.realm.names.length (.ofCount 0) false m₂ with
      | .done true m₃ =>
          (m₂.heap.ownProperty a (.index 0)).toOption == some (some ⟨true, false, false, .data .null true⟩) &&
          (m₃.heap.ownProperty a (.index 0)).toOption == some none
      | _ => false
    | _ => false
  | _ => false

theorem of_sealedElementGoes (hgoes : sealedElementGoes m = true) : ∃ a m₁ m₂ m₃ d, allocArray [.null] m = .done a m₁ ∧
    defineProperty a (.index 0) { configurable := some false } m₁ = .done true m₂ ∧
    m₂.heap.ownProperty a (.index 0) = .ok (some d) ∧ d.configurable = false ∧
    setProperty Edit.refusing a m₂.realm.names.length (.ofCount 0) false m₂ = .done true m₃ ∧
    m₃.heap.ownProperty a (.index 0) = .ok none := by
  unfold sealedElementGoes at hgoes
  split at hgoes
  · next a m₁ halloc =>
    split at hgoes
    · next m₂ hdefined =>
      split at hgoes
      · next m₃ hset =>
        simp only [Bool.and_eq_true, beq_iff_eq] at hgoes
        exact ⟨a, m₁, m₂, m₃, _, halloc, hdefined, Except.eq_ok_of_toOption hgoes.1, rfl, hset,
          Except.eq_ok_of_toOption hgoes.2⟩
      · cases hgoes
    · cases hgoes
  · cases hgoes

/-- **Frozen attributes yield.** A read-only length is moved past an element that is set, and an element that cannot be
reconfigured is cut off by a write to the length. -/
theorem frozen_attributes_yield : ∃ m, Machine.create .standard {} 0 true = .ok m ∧
    (∃ a m₁ m₂ m₃, allocArray [.null] m = .done a m₁ ∧
      defineProperty a m₁.realm.names.length { writable := some false } m₁ = .done true m₂ ∧
      m₂.heap.ownWritable a m₂.realm.names.length = .ok false ∧ m₂.heap.lengthOf m₂.realm.names a = .ok 1 ∧
      setProperty Edit.refusing a (.index 1) .null false m₂ = .done true m₃ ∧
      m₃.heap.lengthOf m₃.realm.names a = .ok 2) ∧
    (∃ a m₁ m₂ m₃ d, allocArray [.null] m = .done a m₁ ∧
      defineProperty a (.index 0) { configurable := some false } m₁ = .done true m₂ ∧
      m₂.heap.ownProperty a (.index 0) = .ok (some d) ∧ d.configurable = false ∧
      setProperty Edit.refusing a m₂.realm.names.length (.ofCount 0) false m₂ = .done true m₃ ∧
      m₃.heap.ownProperty a (.index 0) = .ok none) := by
  have hboth : (Machine.create .standard {} 0 true).toOption.any
      (fun m => frozenLengthMoves m && sealedElementGoes m) = true := by decide +kernel
  cases hm : Machine.create .standard {} 0 true with
  | error e => rw [hm] at hboth; cases hboth
  | ok m =>
    rw [hm] at hboth
    obtain ⟨hmoves, hgoes⟩ := Bool.and_eq_true_iff.mp hboth
    exact ⟨m, rfl, of_frozenLengthMoves hmoves, of_sealedElementGoes hgoes⟩

end ScriptCore
