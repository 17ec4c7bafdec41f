import Mathlib.Logic.Function.Basic
import ScriptCore.Proofs.Calls.Acts
import ScriptCore.Proofs.Scope.Assignment

/-! # What one scope binds

While a call is set up names are bound in one scope, one after the other, in cells that are new or that another
object holds, too. What the scope binds is kept as a function of the names; each operation changes it at one name.

* `Heap.OnlyTouches`: what operations on some objects and cells leave alone.
* `Heap.Rekeyed`: one key of one object was bound to a cell.
* `Heap.Layer`: **what a scope binds**, and nothing else.
* `Heap.BoundTo`: what a scope binds one name to.
* `Layer.rekey`, `Layer.write`: what it binds after a name was bound anew, and after a cell was written.
* `Heap.Gives`, `Machine.Gives`: what procedures that end well leave behind. -/

namespace ScriptCore

variable {α β : Type} {h h' h₁ : Heap} {m : Machine} {O O' : ObjectRef → Prop} {C C' : CellRef → Prop} {o a : ObjectRef}
  {obj : Object} {key : PropertyKey} {c : CellRef} {d : Descriptor} {s : ScopeRef} {sc : Scope} {name : String}
  {v w : Value}

namespace Heap

/-! ### What operations leave alone -/

/-- The heap is in order, and has no more slots than can be numbered. -/
structure WellKept (h : Heap) : Prop where
  valid : h.Valid
  numbered : h.Numbered

theorem Routine.keeps_wellKept {p : Proc Heap α} {x : α} (hp : Routine (fun _ => True) p) (hk : h.WellKept)
    (hdone : p h = .done x h') : h'.WellKept :=
  ⟨hp.keeps_valid.of_done hdone hk.valid, hp.keeps_numbered.of_done hdone hk.numbered⟩

/-- **Of what there was only some changes**: the objects that satisfy `O`, and the cells that satisfy `C`. -/
structure OnlyTouches (O : ObjectRef → Prop) (C : CellRef → Prop) (h h' : Heap) : Prop where
  text : ∀ t u, h.text t = .ok u → h'.text t = .ok u
  scope : ∀ s sc, h.scope s = .ok sc → h'.scope s = .ok sc
  object : ∀ o obj, ¬ O o → h.object o = .ok obj → h'.object o = .ok obj
  cell : ∀ c d, ¬ C c → h.cell c = .ok d → h'.cell c = .ok d
  objects : ∀ o obj, h.object o = .ok obj → ∃ obj', h'.object o = .ok obj'
  cells : ∀ c d, h.cell c = .ok d → ∃ d', h'.cell c = .ok d'

/-- Everything is still there as it was. -/
abbrev Untouched (h h' : Heap) : Prop := OnlyTouches (fun _ => False) (fun _ => False) h h'

namespace OnlyTouches

theorem refl (O : ObjectRef → Prop) (C : CellRef → Prop) (h : Heap) : OnlyTouches O C h h :=
  ⟨fun _ _ ht => ht, fun _ _ hs => hs, fun _ _ _ ho => ho, fun _ _ _ hc => hc, fun _ _ ho => ⟨_, ho⟩,
    fun _ _ hc => ⟨_, hc⟩⟩

/-- Of what is touched next, only what was there to begin with counts. -/
theorem trans (ht : OnlyTouches O C h h₁) (ht' : OnlyTouches O' C' h₁ h')
    (hO : ∀ o obj, O' o → h.object o = .ok obj → O o) (hC : ∀ c d, C' c → h.cell c = .ok d → C c) :
    OnlyTouches O C h h' where
  text t u hu := ht'.text t u (ht.text t u hu)
  scope s sc hs := ht'.scope s sc (ht.scope s sc hs)
  object o obj hno ho := ht'.object o obj (fun ho' => hno (hO o obj ho' ho)) (ht.object o obj hno ho)
  cell c d hnc hc := ht'.cell c d (fun hc' => hnc (hC c d hc' hc)) (ht.cell c d hnc hc)
  objects o obj ho := let ⟨obj', ho'⟩ := ht.objects o obj ho; ht'.objects o obj' ho'
  cells c d hc := let ⟨d', hc'⟩ := ht.cells c d hc; ht'.cells c d' hc'

theorem mono (ht : OnlyTouches O C h h') (hO : ∀ o obj, O o → h.object o = .ok obj → O' o)
    (hC : ∀ c d, C c → h.cell c = .ok d → C' c) : OnlyTouches O' C' h h' :=
  (refl O' C' h).trans ht hO hC

/-- The same is touched in the one step and in the next. -/
theorem andThen (ht : OnlyTouches O C h h₁) (ht' : OnlyTouches O C h₁ h') : OnlyTouches O C h h' :=
  ht.trans ht' (fun _ _ ho _ => ho) fun _ _ hc _ => hc

/-- More cells count as touched. -/
theorem widen (ht : OnlyTouches O C h h') (hC : ∀ c, C c → C' c) : OnlyTouches O C' h h' :=
  ht.mono (fun _ _ ho _ => ho) fun c _ hc _ => hC c hc

theorem untouched (ht : Untouched h h') : OnlyTouches O C h h' := ht.mono (fun _ _ => False.elim) fun _ _ => False.elim

theorem spells (ht : OnlyTouches O C h h') (hs : h.Spells key name) : h'.Spells key name :=
  hs.of_texts fun s t _ => ht.text s t

theorem refers (ht : OnlyTouches O C h h') (hno : ¬ O o) (hr : h.Refers o key c) : h'.Refers o key c := by
  obtain ⟨obj, ho, hfind⟩ := refers_iff.mp hr
  exact refers_iff.mpr ⟨obj, ht.object o obj hno ho, hfind⟩

/-- An object that was not touched has no other properties. -/
theorem refers_of (ht : OnlyTouches O C h h') (hno : ¬ O o) (ho : h.object o = .ok obj) (hr : h'.Refers o key c) :
    h.Refers o key c :=
  refers_iff.mpr ⟨obj, ho, hr.find? (ht.object o obj hno ho)⟩

end OnlyTouches

theorem Filled.untouched {b : Block} {id : Handle} (hf : h.Filled b id h') : Untouched h h' :=
  ⟨fun _ _ => hf.text, fun _ _ => hf.scope, fun _ _ _ => hf.object, fun _ _ _ => hf.cell, fun _ _ ho => ⟨_, hf.object ho⟩,
    fun _ _ hc => ⟨_, hf.cell hc⟩⟩

theorem onlyTouches_put_object (ho : h.object o = .ok obj) (obj' : Object) :
    OnlyTouches (· = o) (fun _ => False) h (h.put o.handle (.object obj')) := by
  obtain ⟨hscope, htext, -⟩ := put_object ho obj'
  refine ⟨fun t u ht => (htext t).trans ht, fun s sc hs => (hscope s).trans hs, fun q x hne hq => ?_, fun c d _ hc =>
    (cell_put_object ho obj' c).trans hc, fun q x hq => ?_, fun c d hc => ⟨d, (cell_put_object ho obj' c).trans hc⟩⟩
  · rw [object_put_object ho, if_neg hne, hq]
  · rw [object_put_object ho]
    split
    · exact ⟨_, rfl⟩
    · exact ⟨_, hq⟩

theorem onlyTouches_put_cell (hc : h.cell c = .ok d) (d' : Descriptor) :
    OnlyTouches (fun _ => False) (· = c) h (h.put c.handle (.cell d')) := by
  obtain ⟨hscope, htext, -⟩ := put_cell hc d'
  refine ⟨fun t u ht => (htext t).trans ht, fun s sc hs => (hscope s).trans hs, fun q x _ hq =>
    (object_put_cell hc d' q).trans hq, fun x e hne hx => ?_, fun q x hq => ⟨x, (object_put_cell hc d' q).trans hq⟩,
    fun x e hx => ?_⟩
  · rw [cell_put_cell hc, if_neg hne, hx]
  · rw [cell_put_cell hc]
    split
    · exact ⟨_, rfl⟩
    · exact ⟨_, hx⟩

theorem Naming.untouched (hi : h.Naming name key h') : Untouched h h' :=
  ⟨hi.text, fun s _ hs => (hi.scope s).trans hs, fun o _ _ ho => (hi.object o).trans ho, fun c _ _ hc =>
    (hi.cell c).trans hc, fun o _ ho => ⟨_, (hi.object o).trans ho⟩, fun c _ hc => ⟨_, (hi.cell c).trans hc⟩⟩

/-- A name that becomes a key. -/
theorem keyOfName_names (hk : h.WellKept) (hdone : keyOfName name h = .done key h') :
    h'.WellKept ∧ h.Naming name key h' ∧ h'.Spells key name := by
  refine ⟨(routine_keyOfName name).keeps_wellKept hk hdone, ?_⟩
  rcases keyOfName_ends hk.valid name with ⟨-, hfailed⟩ | ⟨key', h₁, hi⟩
  · rw [hdone] at hfailed
    cases hfailed
  · cases hdone.symm.trans hi.done
    obtain ⟨t, ht, hkey⟩ := hi.named
    exact ⟨hi, spells_of_keyOfString ht hkey⟩

/-! ### Binding a key -/

/-- **The key of the object was bound to the cell**, and nothing else happened to what there was. -/
structure Rekeyed (h : Heap) (o : ObjectRef) (key : PropertyKey) (c : CellRef) (h' : Heap) : Prop where
  kept : h'.WellKept
  object : ∀ obj, h.object o = .ok obj → h'.object o = .ok (obj.bind key c)
  touches : OnlyTouches (· = o) (fun _ => False) h h'

theorem Rekeyed.refers (hr : h.Rekeyed o key c h') (ho : h.object o = .ok obj) (k : PropertyKey) (x : CellRef) :
    h'.Refers o k x ↔ if k = key then x = c else h.Refers o k x := by
  rw [refers_iff, refers_iff, hr.object obj ho, ho]
  simp only [Except.ok.injEq, exists_eq_left', Object.bind, PropertyMap.find?_insert]
  split_ifs with hsame hsame' hsame'
  · exact Option.some_inj.trans eq_comm
  · exact absurd hsame.symm hsame'
  · exact absurd hsame'.symm hsame
  · rfl

theorem define_rekeys (hk : h.WellKept) (hdone : define o key d h = .done c h') :
    h.Rekeyed o key c h' ∧ h'.cell c = .ok d ∧ (∀ e, h.cell c ≠ .ok e) ∧ ∃ obj, h.object o = .ok obj := by
  have hkept := (routine_define (K := fun _ => True) o key d).keeps_wellKept hk hdone
  rcases define_filled hk.valid o key d with ⟨e, hfailed⟩ | ⟨obj, c', h₁, ho, hf, -, hdone'⟩
  · rw [hdone] at hfailed
    cases hfailed
  cases hdone.symm.trans hdone'
  have ho₁ : h₁.object o = .ok obj := hf.object ho
  refine ⟨⟨hkept, fun obj' ho' => ?_, hf.untouched.untouched.trans (onlyTouches_put_object ho₁ _) (fun _ _ hq _ => hq)
    fun _ _ hx _ => hx⟩, ?_, fun e hc => ?_, obj, ho⟩
  · cases ho.symm.trans ho'
    rw [object_put_object ho₁, if_pos rfl]
    rfl
  · rw [cell_put_object ho₁, hf.cell_cell, if_pos rfl]
  · rw [cell_eq_ok, hf.fresh rfl] at hc
    cases hc

theorem installCell_rekeys (hk : h.WellKept) (hdone : installCell o key c h = .done () h') :
    h.Rekeyed o key c h' ∧ (∀ d, h.cell c = .ok d → h'.cell c = .ok d) ∧ ∃ obj, h.object o = .ok obj := by
  have hkept := (routine_installCell (K := fun _ => True) o key c).keeps_wellKept hk hdone
  rw [installCell_ample, Proc.discard_bind, Proc.reads_bind] at hdone
  cases hc : h.cell c with
  | error e => rw [hc] at hdone; cases hdone
  | ok d =>
    rw [hc] at hdone
    cases ho : h.object o with
    | error e =>
      replace hdone := (modifyObject_failed ho _).symm.trans hdone
      cases hdone
    | ok obj =>
      replace hdone := (modifyObject_done ho _).symm.trans hdone
      cases hdone
      refine ⟨⟨hkept, fun obj' ho' => ?_, onlyTouches_put_object ho _⟩, fun d' hd' => ?_, obj, rfl⟩
      · cases ho.symm.trans ho'
        rw [object_put_object ho, if_pos rfl]
        rfl
      · exact (cell_put_object ho _ c).trans (hc.trans hd')

/-- A cell that holds a value that may be overwritten. -/
def Stores (h : Heap) (c : CellRef) (v : Value) : Prop := ∃ d, h.cell c = .ok d ∧ d.content = .data v true

theorem writeCell_stores (hk : h.WellKept) (hc : h.Stores c w) (hdone : writeCell c v h = .done () h') :
    h'.WellKept ∧ OnlyTouches (fun _ => False) (· = c) h h' ∧ h'.Stores c v := by
  have hkept := Routine.keeps_wellKept (.modifyCell c _) hk hdone
  obtain ⟨d, hd, hcontent⟩ := hc
  rw [writeCell_done hd hcontent] at hdone
  cases hdone
  exact ⟨hkept, onlyTouches_put_cell hd _, _, (cell_put_cell hd _ c).trans (if_pos rfl), rfl⟩

theorem OnlyTouches.stores (ht : OnlyTouches O C h h') (hno : ¬ C c) (hc : h.Stores c v) : h'.Stores c v :=
  let ⟨d, hd, hcontent⟩ := hc
  ⟨d, ht.cell c d hno hd, hcontent⟩

/-! ### What a scope binds -/

/-- What names are bound to: a cell, and the value in it. -/
abbrev Bindings := String → Option (CellRef × Value)

/-- **What the scope binds is `Γ`**: the names of which it says so, each in a cell of its own, and no others. -/
structure Layer (h : Heap) (s : ScopeRef) (sc : Scope) (Γ : Bindings) : Prop where
  scope : h.scope s = .ok sc
  writeTo : sc.writeTo = none
  live : ∃ obj, h.object sc.object = .ok obj
  bound : ∀ name c v, Γ name = some (c, v) → h.Stores c v ∧ ∃ key, h.Spells key name ∧ h.Refers sc.object key c
  only : ∀ key c, h.Refers sc.object key c → ∃ name v, Γ name = some (c, v) ∧ h.Spells key name
  apart : ∀ name name' c v v', Γ name = some (c, v) → Γ name' = some (c, v') → name = name'

/-- **The scope itself binds the name to the value.** -/
def BoundTo (h : Heap) (s : ScopeRef) (name : String) (v : Value) : Prop :=
  ∃ sc key c d writable, h.scope s = .ok sc ∧ h.Spells key name ∧ h.Refers sc.object key c ∧ h.cell c = .ok d ∧
    d.content = .data v writable

namespace Layer

variable {Γ : Bindings}

theorem boundTo (hl : h.Layer s sc Γ) (hname : Γ name = some (c, v)) : h.BoundTo s name v := by
  obtain ⟨⟨d, hd, hcontent⟩, key, hspells, hr⟩ := hl.bound name c v hname
  exact ⟨sc, key, c, d, true, hl.scope, hspells, hr, hd, hcontent⟩

/-- **What has to be shown of a heap** for a scope to bind the same in it. -/
theorem transport {sc' : Scope} (hl : h.Layer s sc Γ) (hscope : h'.scope s = .ok sc') (hsame : sc'.object = sc.object)
    (hwriteTo : sc'.writeTo = none) (hobject : ∀ obj, h.object sc.object = .ok obj → h'.object sc.object = .ok obj)
    (hcell : ∀ name c v d, Γ name = some (c, v) → h.cell c = .ok d → h'.cell c = .ok d)
    (hspells : ∀ key c name, h.Refers sc.object key c → h.Spells key name → h'.Spells key name) :
    h'.Layer s sc' Γ := by
  obtain ⟨obj, ho⟩ := hl.live
  have hrefers : ∀ key c, h'.Refers sc.object key c ↔ h.Refers sc.object key c := fun key c => by
    unfold Refers ownCell
    rw [hobject obj ho, ho]
  refine ⟨hscope, hwriteTo, ⟨obj, hsame ▸ hobject obj ho⟩, fun name c v hname => ?_, fun key c hr => ?_, hl.apart⟩
  · obtain ⟨⟨d, hd, hcontent⟩, key, hs, hr⟩ := hl.bound name c v hname
    exact ⟨⟨d, hcell name c v d hname hd, hcontent⟩, key, hspells key c name hr hs, hsame ▸ (hrefers key c).mpr hr⟩
  · rw [hsame, hrefers] at hr
    obtain ⟨name, v, hname, hs⟩ := hl.only key c hr
    exact ⟨name, v, hname, hspells key c name hr hs⟩

theorem next (hl : h.Layer s sc Γ) (ht : OnlyTouches O C h h') (hO : ¬ O sc.object)
    (hC : ∀ name c v, Γ name = some (c, v) → ¬ C c) : h'.Layer s sc Γ :=
  hl.transport (ht.scope s sc hl.scope) rfl hl.writeTo (fun obj => ht.object _ obj hO)
    (fun name c v d hname => ht.cell c d (hC name c v hname)) fun _ _ _ _ => ht.spells

theorem untouched (hl : h.Layer s sc Γ) (ht : Untouched h h') : h'.Layer s sc Γ :=
  hl.next ht id fun _ _ _ _ => id

/-- A new cell has not been bound. -/
theorem ne_fresh (hl : h.Layer s sc Γ) (hfresh : ∀ d, h.cell c ≠ .ok d) (name : String) (v : Value) :
    Γ name ≠ some (c, v) := fun hname =>
  let ⟨⟨d, hd, _⟩, _⟩ := hl.bound name c v hname
  hfresh d hd

/-- **A name was bound anew**, in a cell to which no other name is bound. -/
theorem rekey (hl : h.Layer s sc Γ) (hr : h.Rekeyed sc.object key c h') (hspells : h'.Spells key name)
    (hc : h'.Stores c v) (hapart : ∀ other w, other ≠ name → Γ other ≠ some (c, w)) :
    h'.Layer s sc (Function.update Γ name (some (c, v))) := by
  obtain ⟨obj, ho⟩ := hl.live
  have hrefers := hr.refers ho
  refine ⟨hr.touches.scope s sc hl.scope, hl.writeTo, ⟨_, hr.object obj ho⟩, fun n x u hn => ?_, fun k x hx => ?_,
    fun n n' x u u' hn hn' => ?_⟩
  · by_cases hname : n = name
    · subst hname
      rw [Function.update_self] at hn
      cases hn
      exact ⟨hc, key, hspells, (hrefers key c).mpr (by rw [if_pos rfl])⟩
    · rw [Function.update_of_ne hname] at hn
      obtain ⟨hstores, k, hs, hx⟩ := hl.bound n x u hn
      refine ⟨hr.touches.stores id hstores, k, hr.touches.spells hs, (hrefers k x).mpr ?_⟩
      rwa [if_neg]
      rintro rfl
      exact hname ((hr.touches.spells hs).name_eq hspells)
  · have hx' := (hrefers k x).mp hx
    split_ifs at hx' with hk
    · subst hk hx'
      exact ⟨name, v, Function.update_self .., hspells⟩
    · obtain ⟨n, u, hn, hs⟩ := hl.only k x hx'
      refine ⟨n, u, ?_, hr.touches.spells hs⟩
      rwa [Function.update_of_ne]
      rintro rfl
      exact hk ((hr.touches.spells hs).key_eq hr.kept.valid.canonical hspells)
  · by_cases hname : n = name
    · by_cases hname' : n' = name
      · rw [hname, hname']
      · rw [hname, Function.update_self] at hn
        rw [Function.update_of_ne hname'] at hn'
        cases hn
        exact absurd hn' (hapart n' u' hname')
    · rw [Function.update_of_ne hname] at hn
      by_cases hname' : n' = name
      · rw [hname', Function.update_self] at hn'
        cases hn'
        exact absurd hn (hapart n u hname)
      · rw [Function.update_of_ne hname'] at hn'
        exact hl.apart n n' x u u' hn hn'

/-- **The cell of a name was written.** -/
theorem write (hl : h.Layer s sc Γ) (hname : Γ name = some (c, w)) (ht : OnlyTouches (fun _ => False) (· = c) h h')
    (hc : h'.Stores c v) : h'.Layer s sc (Function.update Γ name (some (c, v))) := by
  obtain ⟨obj, ho⟩ := hl.live
  refine ⟨ht.scope s sc hl.scope, hl.writeTo, ⟨obj, ht.object _ _ id ho⟩, fun n x u hn => ?_, fun k x hx => ?_,
    fun n n' x u u' hn hn' => ?_⟩
  · by_cases hsame : n = name
    · subst hsame
      rw [Function.update_self] at hn
      cases hn
      obtain ⟨-, key, hs, hr⟩ := hl.bound n c w hname
      exact ⟨hc, key, ht.spells hs, ht.refers id hr⟩
    · rw [Function.update_of_ne hsame] at hn
      obtain ⟨hstores, key, hs, hr⟩ := hl.bound n x u hn
      refine ⟨ht.stores (fun hx => hsame ?_) hstores, key, ht.spells hs, ht.refers id hr⟩
      exact hl.apart n name x u w hn (hx ▸ hname)
  · obtain ⟨n, u, hn, hs⟩ := hl.only k x (ht.refers_of id ho hx)
    by_cases hsame : n = name
    · subst hsame
      cases hname.symm.trans hn
      exact ⟨n, v, Function.update_self .., ht.spells hs⟩
    · exact ⟨n, u, by rwa [Function.update_of_ne hsame], ht.spells hs⟩
  · have hcell : ∀ {n x u}, Function.update Γ name (some (c, v)) n = some (x, u) → ∃ u', Γ n = some (x, u') := by
      intro n x u hn
      by_cases hsame : n = name
      · subst hsame
        rw [Function.update_self] at hn
        cases hn
        exact ⟨w, hname⟩
      · exact ⟨u, by rwa [Function.update_of_ne hsame] at hn⟩
    obtain ⟨_, hn⟩ := hcell hn
    obtain ⟨_, hn'⟩ := hcell hn'
    exact hl.apart n n' x _ _ hn hn'

end Layer

/-! ### What procedures leave behind -/

/-- What the procedure delivers and the heap that it leaves satisfy `Q`, if it ends well. -/
def Gives (h : Heap) (p : Proc Heap α) (Q : Heap → α → Prop) : Prop := ∀ x h', p h = .done x h' → Q h' x

namespace Gives

variable {p : Proc Heap α} {f : α → Proc Heap β} {P Q : Heap → α → Prop} {Q' : Heap → β → Prop}

theorem pure {x : α} (hx : Q h x) : h.Gives (pure x) Q := by
  rintro _ _ ⟨⟩
  exact hx

theorem bind (hp : h.Gives p P) (hf : ∀ h' x, P h' x → h'.Gives (f x) Q') : h.Gives (p >>= f) Q' := by
  intro y h'' hdone
  rw [Proc.bind_eq] at hdone
  cases hpx : p h with
  | done x h' => rw [hpx] at hdone; exact hf h' x (hp x h' hpx) y h'' hdone
  | failed e h' => rw [hpx] at hdone; cases hdone
  | stalled => rw [hpx] at hdone; cases hdone

theorem discard_bind {f : Unit → Proc Heap β} (hp : h.Gives p P) (hf : ∀ h' x, P h' x → h'.Gives (f ()) Q') :
    h.Gives (discard p >>= f) Q' := by
  rw [Proc.discard_bind]
  exact hp.bind hf

theorem imp (hp : h.Gives p P) (hPQ : ∀ h' x, P h' x → Q h' x) : h.Gives p Q := fun x h' hdone =>
  hPQ h' x (hp x h' hdone)

theorem read {g : Heap → Except Error α} (hf : ∀ x, g h = .ok x → h.Gives (f x) Q') :
    h.Gives (Proc.reads g >>= f) Q' := by
  intro y h' hdone
  rw [Proc.reads_bind] at hdone
  cases hx : g h with
  | ok x => rw [hx] at hdone; exact hf x hx y h' hdone
  | error e => rw [hx] at hdone; cases hdone

end Gives

/-! ### Declarations -/

section Declaring

variable {Γ : Bindings}

/-- Names are declared in the object of the scope. -/
theorem Layer.target (hl : h.Layer s sc Γ) : sc.target = sc.object := by
  unfold Scope.target
  rw [hl.writeTo]
  rfl

/-- **A name is declared**, in a new cell. -/
theorem Layer.gives_declare (hk : h.WellKept) (hl : h.Layer s sc Γ) (name : String) (v : Value) :
    h.Gives (declare s name v) fun h' c => h'.WellKept ∧
      OnlyTouches (· = sc.object) (fun _ => False) h h' ∧ (∀ d, h.cell c ≠ .ok d) ∧
      h'.Layer s sc (Function.update Γ name (some (c, v))) := by
  refine .read fun sc' hs => ?_
  cases hl.scope.symm.trans hs
  rw [hl.target]
  refine .bind (fun key h₁ hdone => keyOfName_names hk hdone) fun h₁ key ⟨hk₁, hi, hspells⟩ c h' hdone => ?_
  obtain ⟨hr, hc, hfresh, -⟩ := define_rekeys hk₁ hdone
  have hl₁ := hl.untouched hi.untouched
  refine ⟨hr.kept, hi.untouched.untouched.andThen hr.touches,
    fun d hd => hfresh d ((hi.cell c).trans hd), ?_⟩
  exact hl₁.rekey hr (hr.touches.spells hspells) ⟨_, hc, rfl⟩ fun other w _ => hl₁.ne_fresh hfresh other w

/-- **A name is declared with a cell** that no other name is bound to. -/
theorem Layer.gives_declareCell (hk : h.WellKept) (hl : h.Layer s sc Γ) (hc : h.Stores c v)
    (hapart : ∀ other w, other ≠ name → Γ other ≠ some (c, w)) :
    h.Gives (declareCell s name c) fun h' _ => h'.WellKept ∧
      OnlyTouches (· = sc.object) (fun _ => False) h h' ∧
      h'.Layer s sc (Function.update Γ name (some (c, v))) := by
  refine .read fun sc' hs => ?_
  cases hl.scope.symm.trans hs
  rw [hl.target]
  refine .bind (fun key h₁ hdone => keyOfName_names hk hdone) fun h₁ key ⟨hk₁, hi, hspells⟩ _ h' hdone => ?_
  obtain ⟨hr, hcell, -⟩ := installCell_rekeys hk₁ hdone
  obtain ⟨d, hd, hcontent⟩ := hi.untouched.stores id hc
  exact ⟨hr.kept, hi.untouched.untouched.andThen hr.touches,
    (hl.untouched hi.untouched).rekey hr (hr.touches.spells hspells) ⟨d, hcell d hd, hcontent⟩ hapart⟩

end Declaring

end Heap

/-! ### Running code that works on the heap -/

/-- Nothing of the machine has changed but the heap; what is delivered and the heap satisfy `Q`. -/
def Outcome.Gives (m : Machine) (Q : Heap → α → Prop) : Outcome Machine α → Prop
  | .done x m' => ∃ h, m' = { m with heap := h } ∧ Q h x
  | .failed _ m' => ∃ h, m' = { m with heap := h }
  | .stalled => True

/-- **Running code works on the heap alone**; if it ends well, what it delivers and the heap satisfy `Q`. -/
def Machine.Gives (m : Machine) (h : Heap) (p : Run α) (Q : Heap → α → Prop) : Prop :=
  (p { m with heap := h }).Gives m Q

namespace Machine.Gives

variable {p : Run α} {f : α → Run β} {P Q : Heap → α → Prop} {Q' : Heap → β → Prop}

theorem pure {x : α} (hx : Q h x) : m.Gives h (pure x) Q := ⟨h, rfl, hx⟩

theorem fail (e : Error) : m.Gives h (throw e : Run α) Q := ⟨h, rfl⟩

theorem bind (hp : m.Gives h p P) (hf : ∀ h' x, P h' x → m.Gives h' (f x) Q') : m.Gives h (p >>= f) Q' := by
  unfold Machine.Gives at hp ⊢
  rw [Proc.bind_eq]
  cases hpx : p { m with heap := h } with
  | done x m' =>
    rw [hpx] at hp
    obtain ⟨h', rfl, hx⟩ := hp
    exact hf h' x hx
  | failed e m' => rw [hpx] at hp; exact hp
  | stalled => trivial

theorem imp (hp : m.Gives h p P) (hPQ : ∀ h' x, P h' x → Q h' x) : m.Gives h p Q := by
  have hbind : m.Gives h (p >>= Pure.pure) Q := hp.bind fun h' x hx => .pure (hPQ h' x hx)
  rwa [bind_pure] at hbind

theorem discard_bind {f : Unit → Run β} (hp : m.Gives h p P) (hf : ∀ h' x, P h' x → m.Gives h' (f ()) Q') :
    m.Gives h (discard p >>= f) Q' := by
  rw [Proc.discard_bind]
  exact hp.bind hf

theorem map {g : α → β} (hp : m.Gives h p fun h' x => Q' h' (g x)) : m.Gives h (g <$> p) Q' := by
  rw [map_eq_pure_bind]
  exact hp.bind fun _ _ hx => .pure hx

theorem onHeap {p : Proc Heap α} (hp : h.Gives p Q) : m.Gives h (Run.onHeap p) Q := by
  unfold Machine.Gives Run.onHeap
  dsimp only
  cases hpx : p h with
  | done x h' => exact ⟨h', rfl, hp x h' hpx⟩
  | failed e h' => exact ⟨h', rfl⟩
  | stalled => trivial

theorem read {g : Heap → Except Error α} (hf : ∀ x, g h = .ok x → m.Gives h (f x) Q') :
    m.Gives h (Run.readHeap g >>= f) Q' := by
  unfold Machine.Gives
  rw [Run.readHeap_bind]
  dsimp only
  cases hx : g h with
  | ok x => exact hf x hx
  | error e => exact ⟨h, rfl⟩

theorem realm {f : Realm → Run β} (hf : m.Gives h (f m.realm) Q') : m.Gives h (Run.realm >>= f) Q' := hf

theorem names {f : CommonNames → Run β} (hf : m.Gives h (f m.realm.names) Q') : m.Gives h (Run.names >>= f) Q' := hf

theorem isDebug {f : Bool → Run β} (hf : m.Gives h (f m.monitor.options.debug) Q') :
    m.Gives h (Run.isDebug >>= f) Q' := hf

/-- A failure that is handed over leaves the machine as it was but for the heap. -/
theorem attempt (hp : m.Gives h p Q) : m.Gives h p.attempt fun h' r => ∀ x, r = .ok x → Q h' x := by
  unfold Machine.Gives Proc.attempt at *
  cases hpx : p { m with heap := h } with
  | done x m' =>
    rw [hpx] at hp
    obtain ⟨h', rfl, hx⟩ := hp
    exact ⟨h', rfl, fun _ heq => Except.ok.inj heq ▸ hx⟩
  | failed e m' =>
    rw [hpx] at hp
    obtain ⟨h', rfl⟩ := hp
    exact ⟨h', rfl, nofun⟩
  | stalled => trivial

end Machine.Gives

end ScriptCore
