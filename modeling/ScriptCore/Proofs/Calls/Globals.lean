import ScriptCore.Proofs.Calls.Sharing

/-! # Properties of the global object that cannot be written

A host prepares a machine: it executes programs and defines properties of the global object, with values or
accessors. Programs that run on it then write no property of the global object that is read-only, by whatever
route: assignments refuse, declarations of variables find the name bound, and parameters have cells of their
own. The one route that does not look is the declaration of a function in the global scope, which overwrites the
cell of its name; so the names of such functions are left out.

* `Machine.Prepared`: machines that a host prepared.
* `World.ReadOnly`, `Act.readOnly`, `World.Comes.readOnly`: acts and collections leave what cannot be written.
* `Machine.Prepared.globals_kept`: **programs leave read-only properties of the global object as they are**, and
  what a declared function does to the property of its name.
* `declared_over_globals`: declared functions overwrite `undefined`, and fail at accessors. -/

namespace ScriptCore

open Heap (Stays refers_iff object_eq_ok cell_eq_ok scope_eq_ok ownProperty_eq_some)

variable {α : Type} {S : Setting} {w w' w₁ : World} {label : List Handle} {host : Host} {forbids : String → Prop}
  {m m' : Machine} {h h' : Heap} {key : PropertyKey} {c : CellRef} {d d' : Descriptor} {s : ScopeRef} {sc sc' : Scope}
  {o : ObjectRef} {name : String}

/-! ### Read-only properties -/

theorem Heap.cell_putScope (hs : h.scope s = .ok sc) : (h.put s.handle (.scope sc')).cell c = h.cell c := by
  have hid := scope_eq_ok.mp hs
  unfold Heap.cell
  rw [block?_put (Option.isSome_of_eq_some hid)]
  by_cases hx : c.handle = s.handle
  · rw [if_pos hx, hx, hid]
  · rw [if_neg hx]

/-- **A property of the global object that cannot be written.** Its name is one under which no function is declared
globally. -/
structure World.ReadOnly (S : Setting) (w : World) (key : PropertyKey) (d : Descriptor) : Prop where
  own : w.heap.ownProperty S.realm.globalObject key = .ok (some d)
  data : ∃ v, d.content = .data v false
  name : ∃ name, w.heap.Spells key name ∧ S.forbids name

/-- **An act leaves what cannot be written**, but may delete what can be reconfigured. -/
theorem Act.readOnly (ha : Act S w label w') (hw : w.Lawful S) (hr : w.ReadOnly S key d) :
    w'.ReadOnly S key d ∨ d.configurable = true ∧ w'.heap.ownCell S.realm.globalObject key = .ok none := by
  obtain ⟨c, hcell, hc⟩ := ownProperty_eq_some.mp hr.own
  have hrefers : w.heap.Refers S.realm.globalObject key c := hcell
  have hname : ∃ name, w'.heap.Spells key name ∧ S.forbids name :=
    hr.name.imp fun _ hn => ⟨ha.stays.spells hn.1, hn.2⟩
  have hkept : w'.heap.Refers S.realm.globalObject key c → w'.heap.cell c = .ok d → w'.ReadOnly S key d :=
    fun hrefers' hc' => ⟨ownProperty_eq_some.mpr ⟨c, hrefers', hc'⟩, hr.data, hname⟩
  have hglobal := hw.realm.global
  cases ha with
  | filled hf => exact .inl (hkept (hf.refers hrefers) (hf.cell hc))
  | @installed o obj key' c' d' ho hc' hd' hfree hkey hnew =>
    refine .inl (hkept (hrefers.bind ho ?_) ((Heap.cell_put_object ho _ c).trans hc))
    rintro rfl rfl
    rcases hnew with hnone | hunguarded
    · rw [hrefers.find? ho] at hnone
      cases hnone
    · exact hunguarded.global rfl
  | @declared o obj key' c' d' ho hprivate =>
    refine .inl (hkept (hrefers.bind ho ?_) ((Heap.cell_put_object ho _ c).trans hc))
    rintro rfl
    exact absurd hglobal hprivate.not_public
  | @bound k i c' obj key' name default hk hopen hsloppy hi hparam hkey ho =>
    refine .inl (hkept (hrefers.bind ho fun heq => ?_) ((Heap.cell_put_object ho _ c).trans hc))
    exact absurd hglobal (heq ▸ (hw.calls k hk).bindings).not_public
  | @written c' d' u v writable hc' hd' hv hallowed =>
    refine .inl (hkept ((Heap.refers_putCell hc').mpr hrefers) ((Heap.cell_put_cell hc' _ c).trans ?_))
    rw [if_neg, hc]
    rintro rfl
    -- the cell cannot be written, and the name of its property is forbidden
    cases hc.symm.trans hc'
    obtain ⟨v', hv'⟩ := hr.data
    rcases hallowed with rfl | hallowed
    · rw [hv'] at hd'
      cases hd'
    · obtain ⟨name, hspells, hforbids⟩ := hr.name
      obtain ⟨name', hspells', hfree⟩ := hallowed key hrefers
      exact hfree (hspells'.name_eq hspells ▸ hforbids)
  | @deleted o obj key' c' d' ho hshown hfind hc' hconfigurable =>
    by_cases hsame : o = S.realm.globalObject ∧ key' = key
    · obtain ⟨rfl, rfl⟩ := hsame
      cases (hrefers.find? ho).symm.trans hfind
      cases hc.symm.trans hc'
      refine .inr ⟨hconfigurable, Heap.ownCell_eq_ok.mpr ⟨_, (Heap.object_put_object ho _ _).trans (if_pos rfl), ?_⟩⟩
      rw [PropertyMap.find?_erase, if_pos rfl]
    · refine .inl (hkept ((Heap.refers_putObject ho).mpr ?_) ((Heap.cell_put_object ho _ c).trans hc))
      split
      · next hoo =>
        subst hoo
        rw [PropertyMap.find?_erase, if_neg fun hkey => hsame ⟨rfl, hkey⟩]
        exact hrefers.find? ho
      · exact hrefers
  | @cut o obj p ho hkind =>
    refine .inl (hkept ((Heap.refers_putObject ho).mpr ?_) ((Heap.cell_put_object ho _ c).trans hc))
    rw [if_neg]
    · exact hrefers
    · rintro rfl
      rw [hw.realm.ordinary obj ho] at hkind
      cases hkind
  | adjusted strict hs =>
    exact .inl (hkept ((Heap.refers_putScope hs).mpr hrefers) ((Heap.cell_putScope hs).trans hc))
  | entered => exact .inl (hkept hrefers hc)
  | started => exact .inl (hkept hrefers hc)

/-- A collection leaves the global object and its properties. -/
theorem World.ReadOnly.sweep (hr : w.ReadOnly S key d) (hw : w.Lawful S) {reported : List Handle}
    (hrealm : ∀ x ∈ S.realm.handles, x ∈ reported) : (w.sweep reported).ReadOnly S key d := by
  obtain ⟨c, hcell, hc⟩ := ownProperty_eq_some.mp hr.own
  have hs := Heap.shrinks_collect hw.heap.valid reported
  have hglobal := Heap.retains_collect hw.heap.valid (hrealm S.realm.globalObject.handle (by simp [Realm.handles]))
  have hrefers : (w.heap.collect reported).Refers S.realm.globalObject key c := Heap.Shrinks.refers_of hcell hglobal
  obtain ⟨hkept, hkey⟩ := hs.retains_of_refers hrefers
  obtain ⟨name, hspells, hforbids⟩ := hr.name
  exact ⟨ownProperty_eq_some.mpr ⟨c, hrefers, cell_eq_ok.mpr (hkept _ (cell_eq_ok.mp hc))⟩, hr.data,
    name, hs.persists.spells hspells hkey, hforbids⟩

/-- **Acts and collections leave what cannot be written**, until it is deleted. -/
theorem World.Comes.readOnly (hcomes : w.Comes S w') (hw : w.Lawful S) (hr : w.ReadOnly S key d) :
    w'.ReadOnly S key d ∨ d.configurable = true ∧
      ∃ w₁, w.Passes S w' w₁ ∧ w₁.heap.ownCell S.realm.globalObject key = .ok none := by
  induction hcomes with
  | refl => exact .inl hr
  | act hw₁ ha ih =>
    rcases ih with hr₁ | ⟨hconfigurable, w₂, hpass, hnone⟩
    · rcases ha.readOnly (hw₁.lawful hw) hr₁ with hr₂ | ⟨hconfigurable, hnone⟩
      · exact .inl hr₂
      · exact .inr ⟨hconfigurable, _, ⟨hw₁.act ha, .refl⟩, hnone⟩
    · exact .inr ⟨hconfigurable, w₂, ⟨hpass.1, hpass.2.act ha⟩, hnone⟩
  | swept hw₁ reported hrealm ih =>
    rcases ih with hr₁ | ⟨hconfigurable, w₂, hpass, hnone⟩
    · exact .inl (hr₁.sweep (hw₁.lawful hw) hrealm)
    · exact .inr ⟨hconfigurable, w₂, ⟨hpass.1, hpass.2.swept reported hrealm⟩, hnone⟩

/-! ### Machines that a host prepared -/

/-- The host defines a property of the global object. -/
def defineGlobal (R : Realm) (name : String) (d : Descriptor) : Proc Heap CellRef := do
  let key ← Heap.keyOfName name
  Heap.define R.globalObject key d

/-- **Machines that a host prepared**: new ones, on which programs ran, and on whose global object properties were
defined between these, with values or accessors. -/
inductive Machine.Prepared (host : Host) : Machine → Prop where
  | created {m : Machine} {limits : HeapLimits} {options : MonitorOptions} {now : Nat} {sloppy : Bool}
      (hnew : Machine.create limits options now sloppy = .ok m) : Prepared host m
  | ran {m m' : Machine} (hm : Prepared host m) (hidle : m.frames = .empty)
      (hrun : m.Comes host (fun _ => False) m') : Prepared host m'
  | defined {m m' : Machine} (hm : Prepared host m) (hidle : m.frames = .empty) (name : String) {d : Descriptor}
      (hd : d.Public m.realm m.heap)
      (hrun : (Run.onHeap (defineGlobal m.realm name d) m).state? = some m') : Prepared host m'

/-- What a procedure that works by acts does to a heap while no task is running. -/
theorem Works.idle {p : Proc Heap α} {Q : World → α → Prop} (hp : Works S (fun _ => True) w (Run.onHeap p) Q)
    (hw : w.Lawful S) (hrealm : m.realm = S.realm) :
    (∃ a w', p w.heap = .done a w'.heap ∧ Acts S (fun _ => True) w w' ∧ Q w' a) ∨
      (∃ e w', p w.heap = .failed e w'.heap ∧ Acts S (fun _ => True) w w') ∨ p w.heap = .stalled := by
  have hrun := hp hw (fun _ _ => trivial) { m with heap := w.heap, active := some ⟨0, false⟩ } ⟨rfl, hrealm, rfl⟩
  cases hcase : p w.heap with
  | stalled => exact .inr (.inr rfl)
  | failed e h =>
    rw [Run.onHeap_failed hcase] at hrun
    obtain ⟨w', hacts, hat, -⟩ := hrun
    exact .inr (.inl ⟨e, w', by rw [← hat.heap], hacts⟩)
  | done a h =>
    rw [Run.onHeap_done hcase] at hrun
    obtain ⟨w', hacts, hat, ha⟩ := hrun
    exact .inl ⟨a, w', by rw [← hat.heap], hacts, ha⟩

/-- **The global object may be given any property**, also one that has accessors. -/
theorem World.Lawful.define_global (hw : w.Lawful S) (hrealm : m.realm = S.realm) (hd : d.Public S.realm w.heap)
    (hkey : w.heap.Keyed key) (hrun : (Heap.define S.realm.globalObject key d w.heap).state? = some h') :
    ∃ w' : World, w'.heap = h' ∧ w'.Lawful S := by
  obtain ⟨obj, ho, -⟩ := hw.realm.global
  unfold Heap.define at hrun
  rw [Proc.discard_bind, Proc.reads_bind, ho] at hrun
  dsimp only at hrun
  rw [Proc.bind_eq] at hrun
  rcases (works_allocCell hd).idle hw hrealm with
    ⟨c, w₁, hdone, hacts, hc, hfree, -⟩ | ⟨e, w₁, hfailed, hacts⟩ | hstalled
  · have hw₁ := hacts.lawful hw
    have hglobal := hw₁.realm.global
    obtain ⟨obj₁, ho₁, -⟩ := hglobal
    -- no call depends on the global object
    have hbound := hw₁.toOrderly.bind ho₁ hc (fun hprivate => absurd hw₁.realm.global hprivate.not_public) hfree
      (hacts.stays.keyed hkey fun _ _ => trivial) (fun k hk ha => absurd rfl ((hw₁.calls k hk).arguments _ ha).1)
      (fun k hk hb => absurd hw₁.realm.global (hb ▸ (hw₁.calls k hk).bindings).not_public)
    refine ⟨_, ?_, hbound, hw₁.realm.stays (World.stays_putObject ho₁ rfl rfl)⟩
    rw [hdone] at hrun
    refine Option.some.inj (Eq.trans ?_ hrun)
    show _ = Outcome.state? ((Heap.installCell S.realm.globalObject key c >>= fun _ => Pure.pure c) w₁.heap)
    rw [Proc.bind_done (Heap.installCell_done ho₁ hc key)]
    rfl
  · rw [hfailed] at hrun
    exact ⟨w₁, Option.some.inj hrun, hacts.lawful hw⟩
  · rw [hstalled] at hrun
    cases hrun

theorem World.Recounts.defined (hm : w.Recounts S m) (hidle : m.frames = .empty) (hd : d.Public m.realm m.heap)
    (hrun : (Run.onHeap (defineGlobal m.realm name d) m).state? = some m') : ∃ w' : World, w'.Recounts S m' := by
  have hleft : ∀ {h' : Heap}, (∃ w' : World, w'.heap = h' ∧ w'.Lawful S) →
      ∃ w' : World, w'.Recounts S { m with heap := h' } := by
    rintro h' ⟨w', rfl, hw'⟩
    exact ⟨w', .idle hw' rfl hm.realm hm.active hidle⟩
  obtain ⟨h', hh', rfl⟩ : ∃ h', (defineGlobal m.realm name d m.heap).state? = some h' ∧ m' = { m with heap := h' } := by
    unfold Run.onHeap at hrun
    dsimp only at hrun
    cases hcase : defineGlobal m.realm name d m.heap with
    | stalled => rw [hcase] at hrun; cases hrun
    | failed e h' => rw [hcase] at hrun; cases hrun; exact ⟨h', rfl, rfl⟩
    | done c h' => rw [hcase] at hrun; cases hrun; exact ⟨h', rfl, rfl⟩
  rw [hm.heap, hm.realm] at hh' hd
  refine hleft ?_
  unfold defineGlobal at hh'
  rw [Proc.bind_eq] at hh'
  rcases works_keyOfName.idle hm.lawful hm.realm with
    ⟨key, w₁, hdone, hacts, hspells, -⟩ | ⟨e, w₁, hfailed, hacts⟩ | hstalled
  · rw [hdone] at hh'
    exact (hacts.lawful hm.lawful).define_global hm.realm (hacts.stays.descriptor hd fun _ _ => trivial)
      hspells.keyed hh'
  · rw [hfailed] at hh'
    exact ⟨w₁, Option.some.inj hh', hacts.lawful hm.lawful⟩
  · rw [hstalled] at hh'
    cases hh'

/-- The law does not depend on which names are forbidden. -/
theorem World.Lawful.forbidding {R : Realm} {p q : String → Prop} (hw : w.Lawful ⟨R, p⟩) : w.Lawful ⟨R, q⟩ :=
  ⟨⟨hw.heap, hw.calls, hw.bindings, hw.arguments, hw.cells, hw.shared⟩, hw.realm⟩

theorem Machine.Prepared.recounts (hhost : host.BySyntax) (hm : m.Prepared host) :
    ∃ w : World, w.Recounts ⟨m.realm, fun _ => False⟩ m := by
  induction hm with
  | created hnew => exact ⟨_, Machine.recounts_create hnew _⟩
  | @ran m m' _ _ hrun ih =>
    obtain ⟨w, hw⟩ := ih
    obtain ⟨w', -, hw'⟩ := hrun.recounts (S := ⟨m.realm, fun _ => False⟩) hhost hw
    exact ⟨w', hw'.realm ▸ hw'⟩
  | @defined m m' _ hidle name d hd hrun ih =>
    obtain ⟨w, hw⟩ := ih
    obtain ⟨w', hw'⟩ := hw.defined hidle hd hrun
    exact ⟨w', hw'.realm ▸ hw'⟩

/-! ### Declared functions -/

/-- **What a declared function does to a property that is there**: it fails at accessors, and overwrites a value
whether or not it can be written. -/
theorem hoistFunction_own {f : Function} {n₁ n₂ : Machine} {closure : ObjectRef}
    (hclosure : allocClosure f s m = .done closure n₁) (hkey : Run.onHeap (Heap.keyOfName name) n₁ = .done key n₂)
    (hown : n₂.heap.ownCell o key = .ok (some c)) (hc : n₂.heap.cell c = .ok d) :
    hoistFunction s o f name m =
      match d.content with
      | .accessor _ _ => .failed .invalidHandle n₂
      | .data _ writable => .done () { n₂ with
          heap := n₂.heap.put c.handle (.cell { d with content := .data (.object closure) writable }) } := by
  unfold hoistFunction
  refine (Proc.bind_done hclosure _).trans ?_
  refine (Proc.bind_done hkey _).trans ?_
  rw [Run.readHeap_bind, hown]
  show Run.onHeap (Heap.writeCell c (.object closure)) n₂ = _
  cases hd : d.content with
  | accessor g t => exact Run.onHeap_failed (Heap.writeCell_accessor hc hd _)
  | data v writable => exact Run.onHeap_done (Heap.writeCell_done hc hd _)

/-! ### Programs on a machine that was prepared -/

/-- **Programs leave read-only properties of the global object as they are**, if they declare no functions globally
under their names: such a property is there with the same value, unless it could be reconfigured and was deleted on
the way. A declared function fails at a property with accessors, with an invalid handle, and overwrites any value. -/
theorem Machine.Prepared.globals_kept (hhost : host.BySyntax) (hm : m.Prepared host) (hidle : m.frames = .empty)
    (hrun : m.Comes host forbids m') :
    (∀ name key d v, forbids name → m.heap.Spells key name →
      m.heap.ownProperty m.realm.globalObject key = .ok (some d) → d.content = .data v false →
        m'.heap.ownProperty m.realm.globalObject key = .ok (some d) ∨ d.configurable = true ∧
          ∃ w w₁ w' : World, w.heap = m.heap ∧ w'.heap = m'.heap ∧ w.Passes ⟨m.realm, forbids⟩ w' w₁ ∧
            w₁.heap.ownCell m.realm.globalObject key = .ok none) ∧
      ∀ f s o name n n₁ n₂ closure key c d, allocClosure f s n = .done closure n₁ →
        Run.onHeap (Heap.keyOfName name) n₁ = .done key n₂ → n₂.heap.ownCell o key = .ok (some c) →
        n₂.heap.cell c = .ok d → hoistFunction s o f name n =
          match d.content with
          | .accessor _ _ => .failed .invalidHandle n₂
          | .data _ writable => .done () { n₂ with
              heap := n₂.heap.put c.handle (.cell { d with content := .data (.object closure) writable }) } := by
  refine ⟨fun name key d v hforbids hspells hown hdata => ?_,
    fun f s o name n n₁ n₂ closure key c d hclosure hkey hown hc => hoistFunction_own hclosure hkey hown hc⟩
  obtain ⟨w, hw⟩ := hm.recounts hhost
  have hstart : w.Recounts ⟨m.realm, forbids⟩ m := .idle hw.lawful.forbidding hw.heap rfl hw.active hidle
  obtain ⟨w', hcomes, hw'⟩ := hrun.recounts (S := ⟨m.realm, forbids⟩) hhost hstart
  have hreadOnly : w.ReadOnly ⟨m.realm, forbids⟩ key d := by
    rw [hw.heap] at hspells hown
    exact ⟨hown, ⟨v, hdata⟩, name, hspells, hforbids⟩
  rcases hcomes.readOnly hstart.lawful hreadOnly with hkept | ⟨hconfigurable, w₁, hpass, hnone⟩
  · exact .inl (hw'.heap ▸ hkept.own)
  · exact .inr ⟨hconfigurable, w, w₁, w', hw.heap.symm, hw'.heap.symm, hpass, hnone⟩

/-- The string key of the global object that has a text. -/
def Machine.globalKey? (m : Machine) (name : String) : Option StringRef :=
  (m.heap.object m.realm.globalObject).toOption.bind fun obj => obj.properties.keys.findSome? fun key =>
    match key with
    | .string s => if (m.heap.text s).toOption = some (Text.ofString name) then some s else none
    | .index _ => none

/-- A program that assigns to `undefined`. -/
def assignsUndefined : List Stmt := [.expr (.assign (.ident "undefined") (.bool true))]

/-- The assignment to `undefined` is refused, and nothing changes. -/
theorem Machine.Prepared.globals_kept_undefined : ∃ (m m' : Machine) (key : PropertyKey) (d : Descriptor),
    Machine.create .standard {} 0 true = .ok m ∧ m.Comes (Host.plain []) (· = "undefined") m' ∧
    m'.frames.isEmpty = true ∧ m.heap.Spells key "undefined" ∧ d.content = .data .undefined false ∧
    m.heap.ownProperty m.realm.globalObject key = .ok (some d) ∧
    m'.heap.ownProperty m.realm.globalObject key = .ok (some d) := by
  have hruns : ((openedProgram .standard assignsUndefined).bind fun m =>
      (drive (Host.plain []) ((Host.plain []).engine 20) 0 20 m).done?.map fun r => r.2.frames.isEmpty) =
        some true := by decide +kernel
  have hnew : ((Machine.create .standard {} 0 true).toOption.bind fun m => (m.globalKey? "undefined").bind fun s =>
      (m.heap.ownProperty m.realm.globalObject (.string s)).toOption.bind fun d => d.map fun d =>
        decide ((m.heap.text s).toOption = some (Text.ofString "undefined")) &&
          (decide (d.content = .data .undefined false) && !d.configurable)) = some true := by decide +kernel
  obtain ⟨m, hm, hnew⟩ := Option.bind_eq_some_iff.mp hnew
  obtain ⟨s, -, hnew⟩ := Option.bind_eq_some_iff.mp hnew
  obtain ⟨found, hfound, hnew⟩ := Option.bind_eq_some_iff.mp hnew
  obtain ⟨d, rfl, hd⟩ := Option.map_eq_some_iff.mp hnew
  obtain ⟨htext, hd⟩ := Bool.and_eq_true_iff.mp hd
  obtain ⟨hdata, hconfigurable⟩ := Bool.and_eq_true_iff.mp hd
  have hcreate := Except.eq_ok_of_toOption hm
  have hown := Except.eq_ok_of_toOption hfound
  have hspells : m.heap.Spells (.string s) "undefined" := by
    unfold Heap.Spells
    rw [show arrayIndex? (Text.ofString "undefined").units.toList = none by decide]
    exact ⟨s, rfl, Except.eq_ok_of_toOption (of_decide_eq_true htext)⟩
  have hspares : ∀ f ∈ hoistedOfList assignsUndefined, ∀ name, f.name = some name → ¬ name = "undefined" := by
    simp [assignsUndefined, hoistedOfList, Stmt.hoisted]
  obtain ⟨m₁, hopened, hruns⟩ := Option.bind_eq_some_iff.mp hruns
  obtain ⟨⟨c, m'⟩, hdrive, hidle⟩ := Option.map_eq_some_iff.mp hruns
  obtain ⟨m₀, hcreate', hm₁⟩ := Machine.comes_openedProgram hopened hspares
  cases hcreate.symm.trans hcreate'
  have hrun := hm₁.driven 20 20 (congrArg Outcome.state? (Outcome.eq_done hdrive))
  have hheld := Machine.held_create hcreate
  refine ⟨m, m', .string s, d, hcreate, hrun, hidle, hspells, of_decide_eq_true hdata, hown, ?_⟩
  rcases (globals_kept (Host.bySyntax_plain []) (.created hcreate) hheld.frames hrun).1 "undefined" _ d _ rfl hspells
    hown (of_decide_eq_true hdata) with hkept | ⟨hyes, -⟩
  · exact hkept
  · rw [hyes] at hconfigurable
    cases hconfigurable

/-- A program that declares a function under the name `undefined` and asks whether the name has its value. -/
def declaresUndefined : List Stmt :=
  [.function (.ofBody (some "undefined") [] (.block [])),
    .expr (.binary .strictEq (.ident "undefined") .undefined)]

/-- A program that declares a function under the name `x`. -/
def declaresX : List Stmt := [.function (.ofBody (some "x") [] (.block []))]

/-- **A declared function overwrites `undefined`**, and fails at a property of the global object that has
accessors. -/
theorem declared_over_globals :
    (∃ m m' : Machine, Machine.create .standard {} 0 true = .ok m ∧
      ((Host.plain []).engine 40).execute declaresUndefined m = .done (.bool false) m') ∧
    ∃ m m₁ m₂ : Machine, Machine.create .standard {} 0 true = .ok m ∧
      (Run.onHeap (defineGlobal m.realm "x" (.accessor .undefined .undefined)) m).state? = some m₁ ∧
      ((Host.plain []).engine 40).execute declaresX m₁ = .failed .invalidHandle m₂ := by
  have hruns : ((Machine.create .standard {} 0 true).toOption.bind fun m =>
      (((Host.plain []).engine 40).execute declaresUndefined m).done?.map fun r => decide (r.1 = .bool false)) =
        some true := by decide +kernel
  have hfails : ((Machine.create .standard {} 0 true).toOption.bind fun m =>
      (Run.onHeap (defineGlobal m.realm "x" (.accessor .undefined .undefined)) m).state?.bind fun m₁ =>
        (((Host.plain []).engine 40).execute declaresX m₁).failed?.map fun r => decide (r.1 = .invalidHandle)) =
          some true := by decide +kernel
  constructor
  · obtain ⟨m, hm, hruns⟩ := Option.bind_eq_some_iff.mp hruns
    obtain ⟨⟨v, m'⟩, hdone, hfalse⟩ := Option.map_eq_some_iff.mp hruns
    obtain rfl : v = .bool false := of_decide_eq_true hfalse
    exact ⟨m, m', Except.eq_ok_of_toOption hm, Outcome.eq_done hdone⟩
  · obtain ⟨m, hm, hfails⟩ := Option.bind_eq_some_iff.mp hfails
    obtain ⟨m₁, hdefined, hfails⟩ := Option.bind_eq_some_iff.mp hfails
    obtain ⟨⟨e, m₂⟩, hfailed, hinvalid⟩ := Option.map_eq_some_iff.mp hfails
    obtain rfl : e = .invalidHandle := of_decide_eq_true hinvalid
    exact ⟨m, m₁, m₂, Except.eq_ok_of_toOption hm, hdefined, Outcome.eq_failed hfailed⟩

end ScriptCore
