import ScriptCore.Proofs.Calls.Collecting
import ScriptCore.Proofs.Scope.Hoisting
import ScriptCore.Task.Run

/-! # What names mean when a body starts

A call binds one name after the other in one object: the function itself, its variables, the object that offers the
arguments, the parameters and the functions that the body declares. Whatever comes later takes the place of what was
bound under the same name before. Between the binding of the parameters and that of the functions garbage may be
collected.

* `Function.initially`: **what a name means**, in the order in which the meanings hide each other.
* `InvocationTask.AtBody`: the heap from which the body of a call starts; `AtBody.shrunk`: collecting garbage changes
  nothing.
* `Heap.BoundTo.reads`: **a name that a scope binds reads what it is bound to.**
* `InvocationTask.gives_start`: a call that was set up asks for its body from such a heap.
* `Activation.Begins`, `AtBody.gives_hoist`: **what names mean when the functions of the body are bound**, too. -/

namespace ScriptCore

open Heap (object_eq_ok scope_eq_ok cell_eq_ok text_eq_ok refers_iff)

variable {h h' h₀ h₁ : Heap} {m : Machine} {t t' : InvocationTask} {R : Realm} {s p : ScopeRef} {sc : Scope}
  {Γ Γ' : Heap.Bindings} {a b o : ObjectRef} {c l : CellRef} {d : Descriptor} {slots : List CellRef} {E : Engine}
  {k : Activation} {x : Initial} {v : Value} {vs : List Value} {name : String} {key : PropertyKey} {body : List Stmt}
  {f : Function} {ps : List Handle} {i : Nat}

namespace Function

/-- What a name is bound to when the parameters are bound. -/
def atBody (f : Function) (strict : Bool) (name : String) : Option Initial :=
  (paramInitial 0 f.params name).or (f.atParams strict name)

/-- **What a name is bound to when the first statement of the body is reached**: the last function of this name that the
body itself declares; or else the last parameter; or else, for `arguments`, the object that offers them; or else
`undefined` for a variable and, in sloppy code, for a function declared deeper in the body; or else, for the name of the
function, the closure that is called. -/
def initially (f : Function) (body : List Stmt) (strict : Bool) (name : String) : Option Initial :=
  match declaredFunction body name with
  | some g => some (.function g)
  | none => f.atBody strict name

end Function

/-! ### Collecting garbage -/

theorem Heap.ClosureOf.shrunk (hc : h.ClosureOf o f s) (ho : h.Retains h' o.handle) : h'.ClosureOf o f s := by
  obtain ⟨cl, hcl, hrest⟩ := hc
  refine ⟨cl, ?_, hrest⟩
  unfold Heap.closure at hcl ⊢
  cases hobj : h.object o with
  | error e => rw [hobj] at hcl; cases hcl
  | ok obj => rwa [object_eq_ok.mpr (ho _ (object_eq_ok.mp hobj)), ← hobj]

section Collecting

variable (hs : h.Shrinks h')
include hs

/-- The properties of an object that is left have the cells that they had. -/
theorem Heap.Shrinks.cell_of_refers (ho : h.Retains h' o.handle) (hr : h.Refers o key c) (hd : h.cell c = .ok d) :
    h'.cell c = .ok d :=
  cell_eq_ok.mpr ((hs.retains_of_refers (Heap.Shrinks.refers_of hr ho)).1 _ (cell_eq_ok.mp hd))

/-- A name stays bound in a scope that is left, and so is its value. -/
theorem Heap.BoundTo.shrunk (hb : h.BoundTo s name v) (hkeep : h.Retains h' s.handle) :
    h'.BoundTo s name v ∧ ∀ x ∈ v.handles, h.Retains h' x := by
  obtain ⟨sc, key, c, d, writable, hsc, hspells, hr, hd, hcontent⟩ := hb
  have hscope : h'.scope s = .ok sc := scope_eq_ok.mpr (hkeep _ (scope_eq_ok.mp hsc))
  have hobject : h.Retains h' sc.object.handle :=
    hs.closed _ _ (scope_eq_ok.mp hscope) _ (by simp [Block.handles, Scope.handles])
  have hr' := Heap.Shrinks.refers_of hr hobject
  have hd' : h'.cell c = .ok d := hs.cell_of_refers hobject hr hd
  have hspells' : h'.Spells key name := hspells.of_texts fun t u hkey ht =>
    text_eq_ok.mpr ((hs.retains_of_refers hr').2 _ (by rw [hkey]; exact List.mem_singleton_self _) _ (text_eq_ok.mp ht))
  refine ⟨⟨sc, key, c, d, writable, hscope, hspells', hr', hd', hcontent⟩, fun x hx => ?_⟩
  refine hs.closed _ _ (cell_eq_ok.mp hd') x ?_
  show x ∈ d.handles
  unfold Descriptor.handles
  rwa [hcontent]

theorem Heap.Layer.shrunk (hl : h.Layer s sc Γ) (hkeep : h.Retains h' s.handle) :
    h'.Layer s sc Γ ∧ ∀ name c v, Γ name = some (c, v) → ∀ x ∈ v.handles, h.Retains h' x := by
  have hscope : h'.scope s = .ok sc := scope_eq_ok.mpr (hkeep _ (scope_eq_ok.mp hl.scope))
  have hobject : h.Retains h' sc.object.handle :=
    hs.closed _ _ (scope_eq_ok.mp hscope) _ (by simp [Block.handles, Scope.handles])
  refine ⟨?_, fun name c v hname => ((hl.boundTo hname).shrunk hs hkeep).2⟩
  refine hl.transport hscope rfl hl.writeTo (fun obj ho => object_eq_ok.mpr (hobject _ (object_eq_ok.mp ho)))
    (fun name c v d hname hd => ?_) fun key c name hr hspells => ?_
  · obtain ⟨-, key, -, hr⟩ := hl.bound name c v hname
    exact hs.cell_of_refers hobject hr hd
  · refine hspells.of_texts fun t u hkey ht => text_eq_ok.mpr ?_
    refine (hs.retains_of_refers (Heap.Shrinks.refers_of hr hobject)).2 _ ?_ _ (text_eq_ok.mp ht)
    rw [hkey]
    exact List.mem_singleton_self _

theorem Heap.Sequence.shrunk (hl : h.Sequence a vs slots) (ha : h.Retains h' a.handle) : h'.Sequence a vs slots := by
  refine ⟨hl.length, fun i c hc => Heap.Shrinks.refers_of (hl.slot i c hc) ha, fun i c v hc hv => ?_, hl.nodup⟩
  obtain ⟨d, hd, hcontent⟩ := hl.stores i c v hc hv
  exact ⟨d, hs.cell_of_refers ha (hl.slot i c hc) hd, hcontent⟩

theorem Heap.Lists.shrunk (hl : h.Lists R a vs) (ha : h.Retains h' a.handle) : h'.Lists R a vs :=
  hl.transport (fun _ ho => object_eq_ok.mpr (ha _ (object_eq_ok.mp ho))) fun _ _ _ hr hd => hs.cell_of_refers ha hr hd

theorem Heap.Offers.shrunk (ho : h.Offers R t a l slots) (ha : h.Retains h' a.handle) : h'.Offers R t a l slots := by
  obtain ⟨obj, hobj, htag⟩ := ho.object
  exact ⟨⟨obj, object_eq_ok.mpr (ha _ (object_eq_ok.mp hobj)), htag⟩, Heap.Shrinks.refers_of ho.refers ha,
    hs.cell_of_refers ha ho.refers ho.length, ho.sequence.shrunk hs ha, ho.distinct⟩

theorem Heap.Apart.shrunk (hb : h.Apart o b) : h'.Apart o b := by
  refine ⟨hb.ne, fun key c hr => ?_, fun key c key' hr hr' => hb.unshared key c key' (hs.refers hr) (hs.refers hr')⟩
  obtain ⟨d, hd⟩ := hb.live key c (hs.refers hr)
  exact ⟨d, cell_eq_ok.mpr ((hs.retains_of_refers hr).1 _ (cell_eq_ok.mp hd))⟩

/-- A value means what it did as long as its objects are left. -/
theorem Initial.Means.shrunk (hx : x.Means k h v) (hv : ∀ y ∈ v.handles, h.Retains h' y) : x.Means k h' v := by
  cases x with
  | function g =>
    obtain ⟨f, rfl, hf⟩ := hx
    exact ⟨f, rfl, hf.shrunk (hv _ (List.mem_singleton_self _))⟩
  | rest i =>
    obtain ⟨b, rfl, hfresh, hlists, hapart⟩ := hx
    exact ⟨b, rfl, hfresh, hlists.shrunk hs (hv _ (List.mem_singleton_self _)), hapart.shrunk hs⟩
  | _ => exact hx

end Collecting

/-! ### Looking names up -/

/-- **Looking the name up from the scope gives the value**, unless the heap is too full to make a key of the name. -/
def Machine.Reads (m : Machine) (s : ScopeRef) (name : String) (v : Value) : Prop :=
  ∀ E, (∃ h, lookupName E s name m = .done v { m with heap := h }) ∨
    m.heap.IsFull ∧ lookupName E s name m = .failed .outOfMemory m

/-- A walk along a finite chain does not depend on how far it may go. -/
theorem Heap.Chain.bindingWithin_eq {q : Option ScopeRef} (hc : Chain h q ps) (key : PropertyKey) :
    ∀ {n n' : Nat}, ps.length ≤ n → ps.length ≤ n' → h.bindingWithin key n q = h.bindingWithin key n' q := by
  induction hc with
  | nil =>
    intro n n' _ _
    cases n <;> cases n' <;> rfl
  | cons hs _ ih =>
    intro n n' hn hn'
    obtain ⟨n, rfl⟩ := Nat.exists_eq_succ_of_ne_zero (Nat.ne_of_gt (Nat.lt_of_lt_of_le (Nat.succ_pos _) hn))
    obtain ⟨n', rfl⟩ := Nat.exists_eq_succ_of_ne_zero (Nat.ne_of_gt (Nat.lt_of_lt_of_le (Nat.succ_pos _) hn'))
    rw [Heap.bindingWithin, Heap.bindingWithin, scope_eq_ok.mpr hs]
    dsimp only
    rw [ih (Nat.le_of_succ_le_succ hn) (Nat.le_of_succ_le_succ hn')]

/-- **A name that the scope binds reads what it is bound to.** -/
theorem Heap.BoundTo.reads (hb : m.heap.BoundTo s name v) (hv : m.heap.Valid) : m.Reads s name v := by
  intro E
  rcases keyOfName_ends hv name with ⟨hfull, hfailed⟩ | ⟨key, h₁, hi⟩
  · exact .inr ⟨hfull, Proc.bind_failed (Run.onHeap_failed hfailed) _⟩
  left
  obtain ⟨sc, key', c, d, writable, hs, hspells, hr, hd, hcontent⟩ := hb
  obtain ⟨u, hu, hkey⟩ := hi.named
  cases (hi.untouched.spells hspells).key_eq hi.valid.canonical (spells_of_keyOfString hu hkey)
  have hr₁ := hi.untouched.refers id hr
  have hbinding : h₁.binding s key = .ok (some sc.object) := by
    unfold Heap.binding chainBound
    rw [bindingWithin, (hi.scope s).trans hs]
    dsimp only
    rw [hr₁]
  refine ⟨h₁, ?_⟩
  unfold lookupName
  show (Run.onHeap (keyOfName name) >>= _) m = _
  rw [Proc.bind_done (Run.onHeap_done hi.done), Run.readHeap_bind, hbinding]
  dsimp only
  rw [Run.readHeap_bind, ownProperty_eq_some.mpr ⟨c, hr₁, (hi.cell c).trans hd⟩]
  exact readDescriptor_data hcontent ..

namespace Heap.Layer

variable (hv : m.heap.Valid) (hl : m.heap.Layer s sc Γ)
include hv hl

/-- **A name that the scope does not bind is looked up outside**, if the chain of the scopes is finite. -/
theorem reads_outer (hname : Γ name = none) (hparent : sc.parent = some p) (hc : Chain m.heap (some s) ps) (E : Engine) :
    lookupName E s name m = lookupName E p name m := by
  unfold lookupName
  show (Run.onHeap (keyOfName name) >>= _) m = (Run.onHeap (keyOfName name) >>= _) m
  rcases keyOfName_ends hv name with ⟨-, hfailed⟩ | ⟨key, h₁, hi⟩
  · rw [Proc.bind_failed (Run.onHeap_failed hfailed), Proc.bind_failed (Run.onHeap_failed hfailed)]
  have hl₁ := hl.untouched hi.untouched
  obtain ⟨obj, ho⟩ := hl₁.live
  have hown : h₁.ownCell sc.object key = .ok none := by
    refine ownCell_eq_ok.mpr ⟨obj, ho, ?_⟩
    cases hfind : obj.properties.find? key with
    | none => rfl
    | some c =>
      obtain ⟨n, v, hn, hspells⟩ := hl₁.only key c (refers_iff.mpr ⟨obj, ho, hfind⟩)
      obtain ⟨u, hu, hkey⟩ := hi.named
      cases hspells.name_eq (spells_of_keyOfString hu hkey)
      cases hn.symm.trans hname
  have hbinding : h₁.binding s key = h₁.binding p key := by
    obtain ⟨sc', ps', hs', rfl, rest⟩ := (hc.of_scope hi.scope).cases_some
    cases hl₁.scope.symm.trans hs'
    have hle : ps'.length ≤ h₁.slots.size := Nat.le_of_succ_le (hc.of_scope hi.scope).length_le
    rw [hparent] at rest
    unfold Heap.binding chainBound
    rw [bindingWithin, hl₁.scope]
    dsimp only
    rw [hown, hparent]
    exact rest.bindingWithin_eq key hle (Nat.le_succ_of_le hle)
  rw [Proc.bind_done (Run.onHeap_done hi.done), Proc.bind_done (Run.onHeap_done hi.done), Run.readHeap_bind,
    Run.readHeap_bind]
  dsimp only
  rw [hbinding]

end Heap.Layer

/-! ### From the call to its body -/

/-- In sloppy code the name is bound to the cell of the argument at the position. -/
def Function.Aliases (f : Function) (strict : Bool) (name : String) (i : Nat) : Prop :=
  strict = false ∧ paramInitial 0 f.params name = some (.argument i)

namespace InvocationTask

/-- **The heap from which the body of the call starts**: what its scope `s` binds is `Γ`, and the object `a` offers the
arguments, as long as their name means it. Of the cells of the arguments those are bound whose names are aliases. -/
structure AtBody (t : InvocationTask) (R : Realm) (h₀ : Heap) (s : ScopeRef) (sc : Scope) (Γ : Heap.Bindings)
    (a : ObjectRef) (l : CellRef) (slots : List CellRef) (h : Heap) : Prop where
  kept : h.WellKept
  layer : h.Layer s sc Γ
  reflects : Γ.Reflects (Initial.Means (t.activation R h₀ s sc.object a) h) (t.closure.function.atBody sc.strict)
  offers : t.closure.function.atBody sc.strict "arguments" = some .arguments → h.Offers R t a l slots
  apart : a ≠ sc.object
  shared : ∀ name i, t.closure.function.Aliases sc.strict name i → ∃ c v, slots[i]? = some c ∧ Γ name = some (c, v)
  unshared : ∀ name c v, Γ name = some (c, v) → c ≠ l ∧
    (c ∈ slots → ∃ i, t.closure.function.Aliases sc.strict name i ∧ slots[i]? = some c)

/-- The parameters of a call that was set up are bound. -/
theorem Prepared.atBody (hp : t.Prepared R h₀ s sc Γ a l slots t' h) (he : h₀.Entered s sc Γ' h')
    (ht : Heap.OnlyTouches (· = sc.object) (fun _ => False) h h')
    (hb : t'.Binds (t'.activation R h₀ s sc.object a) (paramInitial 0 t'.closure.function.params) h Γ h' Γ') :
    t.AtBody R h₀ s sc Γ' a l slots h' := by
  obtain ⟨cells, htask⟩ : ∃ cells, t' = { t with scope := some s, strict := sc.strict, argCells := cells } :=
    ⟨_, hp.task⟩
  subst htask
  have hslots : sc.strict = false → slots = cells := hp.cells
  refine ⟨he.kept, he.layer, ⟨fun name x hx => ?_, fun name hx => ?_⟩, fun _ => hp.offers.next ht hp.apart id fun _ _ => id,
    hp.apart, fun name i halias => ?_, fun name c v hname => ?_⟩
  · unfold Function.atBody at hx
    cases hparam : paramInitial 0 t.closure.function.params name with
    | some y =>
      rw [hparam] at hx
      cases hx
      obtain ⟨c, v, hname, hv, -⟩ := hb.bound name _ hparam
      exact ⟨c, v, hname, hv⟩
    | none =>
      rw [hparam, Option.none_or] at hx
      rw [hb.others name hparam]
      exact (hp.reflects h').bound name x hx
  · obtain ⟨hparam, hx⟩ := Option.or_eq_none_iff.mp hx
    rw [hb.others name hparam]
    exact (hp.reflects h').unbound name hx
  · obtain ⟨hsloppy, hparam⟩ := halias
    obtain ⟨c, v, hname, -, hc⟩ := hb.bound name _ hparam
    change if sc.strict = true then _ else cells[i]? = some c at hc
    rw [if_neg (by rw [hsloppy]; exact Bool.false_ne_true)] at hc
    exact ⟨c, v, hslots hsloppy ▸ hc, hname⟩
  · -- A cell that was new when the parameters were bound is none of the arguments.
    have hfresh : (∀ d, h.cell c ≠ .ok d) → c ≠ l ∧ c ∉ slots := fun hc => by
      refine ⟨?_, fun hmem => ?_⟩
      · rintro rfl
        exact hc _ hp.offers.length
      · obtain ⟨d, hd⟩ := hp.offers.sequence.live hmem
        exact hc d hd
    cases hparam : paramInitial 0 t.closure.function.params name with
    | none =>
      rw [hb.others name hparam] at hname
      obtain ⟨hne, hnot⟩ := hp.unshared name c v hname
      exact ⟨hne, fun hmem => absurd hmem hnot⟩
    | some y =>
      obtain ⟨c', v', hname', -, hc⟩ := hb.bound name _ hparam
      cases hname.symm.trans hname'
      cases y with
      | argument i =>
        change if sc.strict = true then _ else cells[i]? = some c at hc
        split_ifs at hc with hstrict
        · exact ⟨(hfresh hc).1, fun hmem => absurd hmem (hfresh hc).2⟩
        · have hsloppy := Bool.not_eq_true _ ▸ hstrict
          rw [← hslots hsloppy] at hc
          exact ⟨fun hl => hp.offers.distinct (hl ▸ List.mem_of_getElem? hc), fun _ => ⟨i, ⟨hsloppy, hparam⟩, hc⟩⟩
      | _ => exact ⟨(hfresh hc).1, fun hmem => absurd hmem (hfresh hc).2⟩

/-- **Collecting garbage changes nothing** that the body will see. -/
theorem AtBody.shrunk (hb : t.AtBody R h₀ s sc Γ a l slots h) (hs : h.Shrinks h') (hk : h'.WellKept)
    (hkeep : h.Retains h' s.handle) : t.AtBody R h₀ s sc Γ a l slots h' := by
  obtain ⟨hl, hvalues⟩ := hb.layer.shrunk hs hkeep
  refine ⟨hk, hl, ⟨fun name x hx => ?_, hb.reflects.unbound⟩, fun hname => ?_, hb.apart, hb.shared, hb.unshared⟩
  · obtain ⟨c, v, hname, hv⟩ := hb.reflects.bound name x hx
    exact ⟨c, v, hname, hv.shrunk hs (hvalues name c v hname)⟩
  · obtain ⟨c, v, hbound, rfl⟩ := hb.reflects.bound _ _ hname
    exact (hb.offers hname).shrunk hs (hvalues _ c _ hbound _ (List.mem_singleton_self _))

/-- The step asks for the body of the call, which starts from the heap `h` in a scope inside that of the closure. -/
def AsksBody (t : InvocationTask) (R : Realm) (h₀ h : Heap) (step : Step) : Prop :=
  ∃ outer s sc Γ a l slots node options, step = .ask ⟨.function, node, s, options⟩ ∧
    (∀ body, t.closure.function.body = .block body → node = .statements body) ∧
    h₀.scope t.closure.scope = .ok outer ∧ sc.parent = some t.closure.scope ∧
    sc.strict = (t.closure.function.strict || outer.strict) ∧ t.AtBody R h₀ s sc Γ a l slots h

section Starting

variable (hk : h.WellKept) (hn : m.realm.names.Spelled h) (hp : h.PlainIndices m.realm)
  (hunbound : t.closure.boundScope = none) (hplain : ∀ p ∈ t.closure.function.params, p.IsPlain)
include hk hn hp hunbound hplain

/-- A call is set up and its parameters are bound, if they need no code. -/
theorem gives_enter : m.Gives h (do
    let t ← t.setUp E
    let scope ← t.callScope
    bindParams E t scope 0 t.closure.function.params) fun h' x => t.AsksBody m.realm h h' x.2 := by
  refine .bind (gives_setUp hk hn hp hunbound) fun h₁ t₁ hprepared => ?_
  obtain ⟨outer, s, sc, Γ, a, l, slots, houter, hparent, hstrict, hprepared⟩ := hprepared
  have htask := hprepared.task
  have hscope : t₁.scope = some s := by rw [htask]
  have hclosure : t₁.closure = t.closure := by rw [htask]
  have hargs : t₁.args = t.args := by rw [htask]
  have hsame : t₁.strict = sc.strict := by rw [htask]
  have hcall : t₁.callScope = .ok s := by
    unfold callScope
    rw [hscope]
  rw [hcall]
  have hawaits : t₁.strict = false → t₁.Awaits 0 Γ h₁ := fun hsloppy => by
    rw [hsame] at hsloppy
    have hsequence := hprepared.offers.sequence
    rw [hprepared.cells hsloppy] at hsequence
    refine ⟨hsequence.nodup, fun j c hc => ?_, fun name c v hname hmem => ?_⟩
    · have hj := hsequence.length ▸ (List.getElem?_eq_some_iff.mp hc).1
      rw [hargs]
      exact hsequence.stores j c _ hc (getElem?_paddedArgs hj)
    · rw [List.drop_zero, ← hprepared.cells hsloppy] at hmem
      exact (hprepared.unshared name c v hname).2 hmem
  rw [← hclosure] at hplain
  refine (gives_bindParams (t := t₁) (fun i => (hn.untouched hprepared.entered.untouched).length_ne_index i) a _
    hprepared.entered hawaits hplain).imp fun h' x hbound => ?_
  obtain ⟨⟨Γ', he, ht, hb⟩, node, options, rfl, hnode⟩ := hbound
  rw [hclosure] at hnode
  exact ⟨outer, s, sc, Γ', a, l, slots, node, options, rfl, hnode, houter, hparent, hstrict,
    hprepared.atBody he ht hb⟩

end Starting

theorem gives_settle {p : Run (InvocationTask × Step)} {Q : Heap → InvocationTask × Step → Prop} (hp : m.Gives h p Q) :
    m.Gives h (t.settle p) fun h' x => ∀ step, x.1 = .ok step → ∃ t', Q h' (t', step) := by
  refine .bind hp.attempt fun h' r hr => ?_
  cases r with
  | error e => exact .pure fun step hstep => by cases hstep
  | ok x =>
    obtain ⟨t', step⟩ := x
    have hx := hr _ rfl
    cases step with
    | finished c => exact .pure fun step hstep => ⟨t', by cases hstep; exact hx⟩
    | suspended on => exact .pure fun step hstep => ⟨t', by cases hstep; exact hx⟩

/-- **A call that starts asks for its body**, if it gets that far and its parameters need no code to be bound. -/
theorem gives_start (hk : h.WellKept) (hn : m.realm.names.Spelled h) (hp : h.PlainIndices m.realm)
    (hunbound : t.closure.boundScope = none) (hplain : ∀ p ∈ t.closure.function.params, p.IsPlain) :
    m.Gives h (t.start E) fun h' x => ∀ step, x.1 = .ok step →
      InvocationTask.AsksBody { t with state := .invoking } m.realm h h' step := by
  unfold start
  split_ifs with hcreated
  · refine (gives_settle (gives_enter (t := { t with state := .invoking }) hk hn hp hunbound hplain)).imp
      fun h' x hx step hstep => ?_
    obtain ⟨t', hasks⟩ := hx step hstep
    exact hasks
  · exact .pure fun step hstep => by cases hstep

end InvocationTask

/-! ### The functions of the body -/

/-- **The object offers the arguments of the call** when its body starts: their number and, under the indices from zero
on, the arguments themselves, with `undefined` for missing ones. In sloppy code the element that a parameter is bound to
is what the name of the parameter reads, which is another value only if the body declares a function of that name. -/
structure Activation.Provides (k : Activation) (f : Function) (body : List Stmt) (strict : Bool) (m : Machine) : Prop where
  object : ∃ obj, m.heap.object k.arguments = .ok obj ∧ obj.tag = .arguments
  length : m.heap.ownProperty k.arguments k.realm.names.length = .ok (some (.hidden (.ofCount k.args.length)))
  count : max k.args.length f.params.length < UInt32.size
  element : ∀ i < max k.args.length f.params.length, ∃ d v,
    m.heap.ownProperty k.arguments (.index i.toUInt32) = .ok (some d) ∧ d.content = .data v true ∧
    (∀ name, f.Aliases strict name i → m.Reads k.scope name v) ∧
    ((∀ name g, f.Aliases strict name i → declaredFunction body name ≠ some g) → v = argumentAt k.args i)

/-- **What names mean when the first statement of the body is reached**, looked up in the scope of the call. -/
structure Activation.Begins (k : Activation) (f : Function) (body : List Stmt) (sc : Scope) (m : Machine) : Prop where
  scope : m.heap.scope k.scope = .ok sc
  named : ∀ name x, f.initially body sc.strict name = some x → ∃ v, x.Means k m.heap v ∧ m.Reads k.scope name v
  others : ∀ name, f.initially body sc.strict name = none → ∀ p ps, sc.parent = some p →
    m.heap.Chain (some k.scope) ps → ∀ E, lookupName E k.scope name m = lookupName E p name m
  arguments : f.initially body sc.strict "arguments" = some .arguments → k.Provides f body sc.strict m

theorem Heap.Stores.eq {w : Value} (hc : h.Stores c v) (hc' : h.Stores c w) : v = w := by
  obtain ⟨d, hd, hcontent⟩ := hc
  obtain ⟨d', hd', hcontent'⟩ := hc'
  cases hd.symm.trans hd'
  cases hcontent.symm.trans hcontent'
  rfl

/-- A cell that is bound when functions were hoisted was bound before, or is new. -/
theorem Heap.Bindings.Hoists.bound_before {μ : String → Option Function} (hh : Γ.Hoists s μ h h' Γ')
    (hname : Γ' name = some (c, v)) : (∃ w, Γ name = some (c, w)) ∨ ∀ d, h.cell c ≠ .ok d := by
  cases hdeclared : μ name with
  | none =>
    rw [hh.others name hdeclared] at hname
    exact .inl ⟨v, hname⟩
  | some g =>
    obtain ⟨c', f, hname', -, hc⟩ := hh.bound name g hdeclared
    cases hname.symm.trans hname'
    exact hc.symm.imp id And.right

/-- A name that is bound stays bound to its cell. -/
theorem Heap.Bindings.Hoists.bound_after {μ : String → Option Function} (hh : Γ.Hoists s μ h h' Γ')
    (hname : Γ name = some (c, v)) : ∃ w, Γ' name = some (c, w) := by
  cases hdeclared : μ name with
  | none => exact ⟨v, (hh.others name hdeclared).trans hname⟩
  | some g =>
    obtain ⟨c', f, hname', -, ⟨hnone, -⟩ | ⟨w, hw⟩⟩ := hh.bound name g hdeclared
    · cases hnone.symm.trans hname
    · cases hw.symm.trans hname
      exact ⟨_, hname'⟩

theorem paramInitial_ne_function {g : Function} (params : List Param) :
    ∀ i, paramInitial i params name ≠ some (.function g) := by
  induction params with
  | nil => exact fun _ => nofun
  | cons p params ih =>
    intro i hx
    cases p with
    | simple n default =>
      obtain hx | ⟨-, hx⟩ := Option.or_eq_some_iff.mp hx
      · exact ih (i + 1) hx
      · split_ifs at hx
        cases hx
    | rest n =>
      unfold paramInitial at hx
      split_ifs at hx
      cases hx
    | pattern target default => exact ih (i + 1) hx

/-- No name means a function of the body before these are bound. -/
theorem Function.atBody_ne_function {strict : Bool} {g : Function} : f.atBody strict name ≠ some (.function g) := by
  intro hx
  obtain hx | ⟨-, hx⟩ := Option.or_eq_some_iff.mp hx
  · exact paramInitial_ne_function f.params 0 hx
  · unfold atParams atDeclarations at hx
    split_ifs at hx <;> cases hx

namespace InvocationTask.AtBody

variable (hb : t.AtBody R h₀ s sc Γ a l slots h) (hl' : h'.Layer s sc Γ')
  (ht : Heap.OnlyTouches (· = sc.object) (Γ.Hoisted (declaredFunction body)) h h')
  (hh : Γ.Hoists s (declaredFunction body) h h' Γ')
include hb hl' ht hh

/-- What was bound before means what it did. -/
theorem means (hname : t.closure.function.atBody sc.strict name = some x)
    (hx : x.Means (t.activation R h₀ s sc.object a) h v) : x.Means (t.activation R h₀ s sc.object a) h' v := by
  cases x with
  | function g => exact absurd hname Function.atBody_ne_function
  | rest i =>
    obtain ⟨b, rfl, hfresh, hlists, hapart⟩ := hx
    have hne : ¬ b = sc.object := hapart.ne
    obtain ⟨obj, ho, -⟩ := hlists.array
    -- The cells of the array are none of those that were bound.
    have hunbound : ∀ {n key x w}, Γ n = some (x, w) → ¬ h.Refers b key x := fun hn hr =>
      let ⟨_, key', _, hr'⟩ := hb.layer.bound _ _ _ hn
      hapart.unshared _ _ key' hr hr'
    refine ⟨b, rfl, hfresh, hlists.transport (fun obj => ht.object b obj hne) fun key x d hr => ht.cell x d ?_,
      .of_layer hl' hne (fun key x hr => ?_) fun n x w hn key hr => ?_⟩
    · rintro ⟨n, w, -, hn⟩
      exact hunbound hn hr
    · obtain ⟨d, hd⟩ := hapart.live key x (ht.refers_of hne ho hr)
      exact ht.cells x d hd
    · have hr := ht.refers_of hne ho hr
      rcases hh.bound_before hn with ⟨w', hn⟩ | hnew
      · exact hunbound hn hr
      · obtain ⟨d, hd⟩ := hapart.live key x hr
        exact hnew d hd
  | _ => exact hx

/-- The object offers the arguments, if its name means it still. -/
theorem provides (hv : m.heap.Valid) (hsame : m.heap = h') (hoffers : h.Offers R t a l slots) :
    (t.activation R h₀ s sc.object a).Provides t.closure.function body sc.strict m := by
  subst hsame
  obtain ⟨obj, ho, htag⟩ := hoffers.object
  have hne : ¬ a = sc.object := hb.apart
  have hlength : slots.length = max t.args.length t.closure.function.params.length := by
    rw [hoffers.sequence.length, length_paddedArgs]
  refine ⟨⟨obj, ht.object a obj hne ho, htag⟩, ?_, ?_, fun i hi => ?_⟩
  · have hnot : ¬ Γ.Hoisted (declaredFunction body) l := by
      rintro ⟨n, w, -, hn⟩
      exact (hb.unshared n l w hn).1 rfl
    exact Heap.ownProperty_eq_some.mpr ⟨l, ht.refers hne hoffers.refers, ht.cell l _ hnot hoffers.length⟩
  · exact hlength ▸ hb.kept.numbered.count_cells hoffers.sequence.nodup fun _ => hoffers.sequence.live
  change i < max t.args.length t.closure.function.params.length at hi
  rw [← hlength] at hi
  have hc := List.getElem?_eq_getElem hi
  generalize slots[i] = c at hc
  have hr := ht.refers hne (hoffers.sequence.slot i c hc)
  have halias : ∀ name, t.closure.function.Aliases sc.strict name i → ∃ w, Γ name = some (c, w) := fun name halias => by
    obtain ⟨c', w, hc', hname⟩ := hb.shared name i halias
    cases hc.symm.trans hc'
    exact ⟨w, hname⟩
  -- What the cell holds afterwards is what every name reads that is bound to it.
  have hstores : ∃ v, m.heap.Stores c v ∧
      ((∀ name g, t.closure.function.Aliases sc.strict name i → declaredFunction body name ≠ some g) →
        v = argumentAt t.args i) := by
    by_cases hhoisted : Γ.Hoisted (declaredFunction body) c
    · obtain ⟨name, w, hdeclared, hname⟩ := hhoisted
      obtain ⟨g, hg⟩ := Option.isSome_iff_exists.mp hdeclared
      obtain ⟨w', hname'⟩ := hh.bound_after hname
      obtain ⟨j, haliases, hj⟩ := (hb.unshared name c w hname).2 (List.mem_of_getElem? hc)
      obtain rfl := (List.getElem?_inj hi hoffers.sequence.nodup).mp (hc.trans hj.symm)
      exact ⟨w', (hl'.bound name c w' hname').1, fun hno => absurd hg (hno name g haliases)⟩
    · refine ⟨argumentAt t.args i, ht.stores hhoisted (hoffers.sequence.stores i c _ hc (getElem?_paddedArgs ?_)),
        fun _ => rfl⟩
      exact hoffers.sequence.length ▸ hi
  obtain ⟨v, ⟨d, hd, hcontent⟩, hargument⟩ := hstores
  refine ⟨d, v, Heap.ownProperty_eq_some.mpr ⟨c, hr, hd⟩, hcontent, fun name haliases => ?_, hargument⟩
  obtain ⟨w, hname⟩ := halias name haliases
  obtain ⟨w', hname'⟩ := hh.bound_after hname
  obtain rfl := (hl'.bound name c w' hname').1.eq ⟨d, hd, hcontent⟩
  exact (hl'.boundTo hname').reads hv

end InvocationTask.AtBody

/-- **What names mean when the functions of the body are bound.** -/
theorem InvocationTask.AtBody.gives_hoist (hb : t.AtBody R h₀ s sc Γ a l slots h) (options : BranchOptions) :
    m.Gives h (StatementsTask.hoist ⟨.function, body, s, options, body, none⟩) fun h' _ => ∀ m', m'.heap = h' →
      (t.activation R h₀ s sc.object a).Begins t.closure.function body sc m' := by
  refine .read fun sc' hread => ?_
  cases hb.layer.scope.symm.trans hread
  dsimp only
  rw [hb.layer.target]
  refine Machine.Gives.imp (gives_hoistFunctions body hb.kept hb.layer) fun h' _ hhoisted m' hsame => ?_
  obtain ⟨Γ', hk', hl', ht, hh⟩ := hhoisted
  subst hsame
  have hv := hk'.valid
  refine ⟨hl'.scope, fun name x hx => ?_, fun name hx p ps hparent hc E => ?_, fun hx => ?_⟩
  · unfold Function.initially at hx
    cases hdeclared : declaredFunction body name with
    | some g =>
      rw [hdeclared] at hx
      cases hx
      obtain ⟨c, f, hname, hf, -⟩ := hh.bound name g hdeclared
      exact ⟨.object f, ⟨f, rfl, hf⟩, (hl'.boundTo hname).reads hv⟩
    | none =>
      rw [hdeclared] at hx
      obtain ⟨c, v, hname, hmeans⟩ := hb.reflects.bound name x hx
      exact ⟨v, hb.means hl' ht hh hx hmeans, (hl'.boundTo ((hh.others name hdeclared).trans hname)).reads hv⟩
  · unfold Function.initially at hx
    cases hdeclared : declaredFunction body name with
    | some g => rw [hdeclared] at hx; cases hx
    | none =>
      rw [hdeclared] at hx
      exact hl'.reads_outer hv ((hh.others name hdeclared).trans (hb.reflects.unbound name hx)) hparent hc E
  · unfold Function.initially at hx
    cases hdeclared : declaredFunction body "arguments" with
    | some g => rw [hdeclared] at hx; cases hx
    | none =>
      rw [hdeclared] at hx
      exact hb.provides hl' ht hh hv rfl (hb.offers hx)

end ScriptCore
