import ScriptCore.Proofs.Scope.BodyStart

/-! # What one scope binds one name to

A list of statements binds the functions that it declares, one after the other, and that may fail on the way: there may
be no room for another closure, or a name may be bound to a property that has accessors. However it ends, a name that
was bound to a closure of one of some functions is bound to one still; and if the list is entered, then each function
that it declares itself has left its name bound.

* `Heap.BoundToClosure`: a scope itself binds a name to a closure.
* `Heap.Hosts`: an object in which a scope binds names, each in a cell of its own.
* `Heap.Beside`: what was there is there as it was; making a closure leaves it so, however it ends.
* `Heap.Hosting`, `ends_hoistFunctions`: **what hoisting leaves under one name.**
* `StatementsTask.ends_start`: **what a list leaves under a name when it starts.** -/

namespace ScriptCore

variable {α β σ : Type} {h h' h₀ h₁ : Heap} {m m' : Machine} {o a : ObjectRef} {obj : Object} {key : PropertyKey}
  {c : CellRef} {d : Descriptor} {u v : Value} {s : ScopeRef} {sc : Scope} {name n : String} {f : Function}
  {F : Function → Prop} {O : ObjectRef → Prop} {C : CellRef → Prop} {q : Prop}

/-! ### However a procedure ends -/

/-- The state satisfies `I` after a failure, and `J` after an end that is none. -/
def Outcome.Ends (I J : σ → Prop) : Outcome σ α → Prop
  | .done _ s => J s
  | .failed _ s => I s
  | .stalled => True

theorem Outcome.Ends.imp {I I' J J' : σ → Prop} {r : Outcome σ α} (hr : r.Ends I J) (hI : ∀ s, I s → I' s)
    (hJ : ∀ s, J s → J' s) : r.Ends I' J' := by
  cases r with
  | done x s => exact hJ s hr
  | failed e s => exact hI s hr
  | stalled => trivial

theorem Outcome.Leaves.ends {I : σ → Prop} {r : Outcome σ α} (hr : r.Leaves I) : r.Ends I I := by
  cases r <;> exact hr

namespace Proc

variable {I J K : σ → Prop} {t : σ}

theorem ends_bind {p : Proc σ α} {f : α → Proc σ β} (hp : (p t).Ends I K)
    (hf : ∀ x t', p t = .done x t' → K t' → (f x t').Ends I J) : ((p >>= f) t).Ends I J := by
  rw [bind_eq]
  cases hdone : p t with
  | done x t' =>
    rw [hdone] at hp
    exact hf x t' hdone hp
  | failed e t' =>
    rw [hdone] at hp
    exact hp
  | stalled => trivial

theorem ends_discard_bind {p : Proc σ α} {f : Unit → Proc σ β} (hp : (p t).Ends I K)
    (hf : ∀ t', K t' → (f () t').Ends I J) : ((discard p >>= f) t).Ends I J := by
  rw [discard_bind]
  exact ends_bind hp fun _ t' _ => hf t'

theorem ends_map {p : Proc σ α} {f : α → β} (hp : (p t).Ends I J) : ((f <$> p) t).Ends I J := by
  rw [map_eq_pure_bind]
  exact ends_bind hp fun _ _ _ ht => ht

theorem ends_reads_bind {g : σ → Except Error α} {f : α → Proc σ β} (ht : I t)
    (hf : ∀ x, g t = .ok x → (f x t).Ends I J) : ((reads g >>= f) t).Ends I J := by
  rw [reads_bind]
  cases hx : g t with
  | ok x => exact hf x hx
  | error e => exact ht

end Proc

theorem Run.ends_onHeap {I J : Heap → Prop} {p : Proc Heap α} (hp : (p m.heap).Ends I J) :
    (Run.onHeap p m).Ends (fun m' => I m'.heap) fun m' => J m'.heap := by
  unfold Run.onHeap
  dsimp only
  cases hdone : p m.heap with
  | done x h' =>
    rw [hdone] at hp
    exact hp
  | failed e h' =>
    rw [hdone] at hp
    exact hp
  | stalled => trivial

theorem Run.keeps_onHeap {I : Heap → Prop} {p : Proc Heap α} (hp : Proc.Keeps I p) :
    Proc.Keeps (fun m => I m.heap) (Run.onHeap p) := by
  intro m hm
  have hkept := hp m.heap hm
  unfold Run.onHeap
  dsimp only
  cases hdone : p m.heap <;> rw [hdone] at hkept <;> exact hkept

/-- What a procedure leaves that ends well. -/
theorem Machine.Gives.of_done {p : Run α} {Q : Heap → α → Prop} {x : α} (hp : m.Gives m.heap p Q)
    (hdone : p m = .done x m') : Q m'.heap x := by
  change (p m).Gives m Q at hp
  rw [hdone] at hp
  obtain ⟨h', rfl, hx⟩ := hp
  exact hx

namespace Heap

/-! ### Beside what was there -/

/-- **What was there is there as it was**, and the heap is in order. -/
structure Beside (h₀ h : Heap) : Prop where
  kept : h.WellKept
  untouched : Untouched h₀ h

/-- The object is new since `h₀`, whatever properties it has by now. -/
def MakingSome (h₀ : Heap) (a : ObjectRef) (h : Heap) : Prop := ∃ obj, h₀.Making a obj h

theorem MakingSome.beside (hm : h₀.MakingSome a h) : h₀.Beside h :=
  let ⟨_, hm⟩ := hm
  ⟨hm.kept, hm.untouched⟩

theorem beside_intern (hk : h.WellKept) (t : Text) : (intern t h).Leaves h.Beside := by
  rcases intern_filled hk.valid t with ⟨r, hdone, -⟩ | ⟨-, ⟨-, hfailed⟩ | ⟨r, h', hdone, hf⟩⟩
  · rw [hdone]
    exact ⟨hk, .refl ..⟩
  · rw [hfailed]
    exact ⟨hk, .refl ..⟩
  · rw [hdone]
    exact ⟨Routine.keeps_wellKept (.intern t) hk hdone, hf.untouched⟩

theorem beside_allocObject (hk : h.WellKept) (prototype : Option ObjectRef) (tag : ClassTag) (kind : ObjectKind) :
    (allocObject prototype tag kind h).Leaves h.Beside := by
  rcases allocObject_filled hk.valid prototype tag kind with ⟨e, hfailed⟩ | ⟨a, h', hdone, -⟩
  · rw [hfailed]
    exact ⟨hk, .refl ..⟩
  · rw [hdone]
    exact MakingSome.beside ⟨_, gives_allocObject hk prototype tag kind a h' hdone⟩

namespace MakingSome

/-- What happens beside a new object leaves it as it is. -/
theorem keeps_of_beside {p : Proc Heap α} (hp : ∀ h, h.WellKept → (p h).Leaves h.Beside) :
    Proc.Keeps (h₀.MakingSome a) p := by
  rintro h ⟨obj, hm⟩
  exact (hp h hm.kept).imp fun h' hb => ⟨obj, hm.beside hb.kept hb.untouched⟩

theorem keeps_define (key : PropertyKey) (d : Descriptor) : Proc.Keeps (h₀.MakingSome a) (define a key d) := by
  rintro h ⟨obj, hm⟩
  rcases define_filled hm.kept.valid a key d with ⟨e, hfailed⟩ | ⟨obj', c, h', -, -, -, hdone⟩
  · rw [hfailed]
    exact ⟨obj, hm⟩
  · rw [hdone]
    exact ⟨_, (hm.gives_define key d c _ hdone).1⟩

end MakingSome

end Heap

theorem keeps_defineFunctionNames (name : String) (arity : Nat) :
    Proc.Keeps (fun m => h₀.MakingSome a m.heap) (defineFunctionNames a name arity) := by
  refine .bind (Run.keeps_onHeap (Heap.MakingSome.keeps_of_beside fun h hk => Heap.beside_intern hk _)) fun r => ?_
  refine .bind (fun _ hm => hm) fun names => ?_
  refine .bind (.discard (Run.keeps_onHeap (Heap.MakingSome.keeps_define _ _))) fun _ => ?_
  exact .discard (Run.keeps_onHeap (Heap.MakingSome.keeps_define _ _))

theorem keeps_allocPlainObject : Proc.Keeps (fun m => h₀.MakingSome a m.heap) allocPlainObject :=
  .bind (fun _ hm => hm) fun _ =>
    Run.keeps_onHeap (Heap.MakingSome.keeps_of_beside fun _ hk => Heap.beside_allocObject hk _ _ _)

theorem ends_allocClosureObject (hk : m.heap.WellKept) (cl : Closure) :
    (allocClosureObject cl m).Ends (fun m' => m.heap.Beside m'.heap) fun m' => m.heap.Beside m'.heap := by
  let object := Heap.allocObject (some m.realm.functionPrototype) .function (.closure cl)
  have hobject : (Run.onHeap object m).Ends (fun m' => m.heap.Beside m'.heap) fun m' => m.heap.Beside m'.heap :=
    Run.ends_onHeap (Heap.beside_allocObject hk _ _ _).ends
  show ((Run.onHeap object >>= _) m).Ends _ _
  refine Proc.ends_bind hobject fun g m₁ hdone _ => ?_
  have hmade := (Machine.Gives.onHeap (Heap.gives_allocObject hk _ _ _)).of_done hdone
  have hprototype : ∀ p : ObjectRef, Proc.Keeps (fun m' => m.heap.MakingSome g m'.heap) (do
      discard (Heap.define g m.realm.names.prototype (Descriptor.hidden (.object p)).nonConfigurable)
      defineFunctionNames g (cl.function.name.getD "") cl.function.params.length
      return g : Run ObjectRef) := fun p =>
    .bind (.discard (Run.keeps_onHeap (Heap.MakingSome.keeps_define _ _))) fun _ =>
      .bind (keeps_defineFunctionNames _ _) fun _ => .pure g
  have hrest : Proc.Keeps (fun m' : Machine => m.heap.MakingSome g m'.heap) _ := .bind keeps_allocPlainObject hprototype
  exact ((hrest m₁ ⟨_, hmade⟩).imp fun _ => Heap.MakingSome.beside).ends

/-- **Making a closure leaves what was there as it was**, however it ends. -/
theorem ends_allocClosure (hk : m.heap.WellKept) (f : Function) (s : ScopeRef) :
    (allocClosure f s m).Ends (fun m' => m.heap.Beside m'.heap) fun m' => m.heap.Beside m'.heap := by
  unfold allocClosure
  cases f.arrow with
  | true =>
    simp only [map_eq_pure_bind, if_true, bind_assoc, pure_bind]
    rw [Run.readHeap_bind]
    cases m.heap.scopeReceiver s with
    | ok v => exact ends_allocClosureObject hk _
    | error e => exact ⟨hk, .refl ..⟩
  | false =>
    simp only [Bool.false_eq_true, if_false, pure_bind]
    exact ends_allocClosureObject hk _

namespace Heap

theorem beside_keyOfName (hk : h.WellKept) (name : String) : (keyOfName name h).Leaves h.Beside := by
  rcases keyOfName_ends hk.valid name with ⟨-, hfailed⟩ | ⟨key, h', hi⟩
  · rw [hfailed]
    exact ⟨hk, .refl ..⟩
  · rw [hi.done]
    exact ⟨(keyOfName_names hk hi.done).1, hi.untouched⟩

/-! ### What a scope itself binds -/

/-- The value is a closure of one of the functions, made in the scope. -/
def IsClosure (h : Heap) (s : ScopeRef) (F : Function → Prop) (v : Value) : Prop :=
  ∃ g f, v = .object g ∧ F f ∧ h.ClosureOf g f s

/-- **The scope itself binds the name to a closure** of one of the functions, made in that scope. -/
def BoundToClosure (h : Heap) (s : ScopeRef) (name : String) (F : Function → Prop) : Prop :=
  ∃ v, h.BoundTo s name v ∧ h.IsClosure s F v

/-- An object stays the closure that it is as long as it stays of its kind. -/
theorem ClosureOf.of_kind (hc : h.ClosureOf o f s)
    (hkind : ∀ obj, h.object o = .ok obj → ∃ obj', h'.object o = .ok obj' ∧ obj'.kind = obj.kind) :
    h'.ClosureOf o f s := by
  obtain ⟨cl, hcl, hrest⟩ := hc
  refine ⟨cl, ?_, hrest⟩
  unfold Heap.closure at hcl ⊢
  cases ho : h.object o with
  | error e => rw [ho] at hcl; cases hcl
  | ok obj =>
    obtain ⟨obj', ho', hsame⟩ := hkind obj ho
    rw [ho] at hcl
    rw [ho']
    dsimp only [bind, Except.bind] at hcl ⊢
    rwa [hsame]

namespace IsClosure

theorem mono {F' : Function → Prop} (hv : h.IsClosure s F v) (hF : ∀ f, F f → F' f) : h.IsClosure s F' v :=
  let ⟨g, f, hg, hf, hc⟩ := hv
  ⟨g, f, hg, hF f hf, hc⟩

theorem of_kinds (hv : h.IsClosure s F v)
    (hkinds : ∀ o obj, h.object o = .ok obj → ∃ obj', h'.object o = .ok obj' ∧ obj'.kind = obj.kind) :
    h'.IsClosure s F v :=
  let ⟨g, f, hg, hf, hc⟩ := hv
  ⟨g, f, hg, hf, hc.of_kind (hkinds g)⟩

end IsClosure

theorem BoundToClosure.mono {F' : Function → Prop} (hb : h.BoundToClosure s name F) (hF : ∀ f, F f → F' f) :
    h.BoundToClosure s name F' :=
  let ⟨v, hb, hv⟩ := hb
  ⟨v, hb, hv.mono hF⟩

theorem OnlyTouches.boundTo (ht : OnlyTouches O C h h') (hb : h.BoundTo s name v)
    (hO : ∀ sc, h.scope s = .ok sc → ¬ O sc.object)
    (hC : ∀ sc key c, h.scope s = .ok sc → h.Spells key name → h.Refers sc.object key c → ¬ C c) :
    h'.BoundTo s name v := by
  obtain ⟨sc, key, c, d, x, hs, hspells, hr, hc, hd⟩ := hb
  exact ⟨sc, key, c, d, x, ht.scope s sc hs, ht.spells hspells, ht.refers (hO sc hs) hr,
    ht.cell c d (hC sc key c hs hspells hr) hc, hd⟩

theorem OnlyTouches.kinds (ht : OnlyTouches (fun _ => False) C h h') (o : ObjectRef) (obj : Object)
    (ho : h.object o = .ok obj) : ∃ obj', h'.object o = .ok obj' ∧ obj'.kind = obj.kind :=
  ⟨obj, ht.object o obj id ho, rfl⟩

theorem Rekeyed.kinds (hr : h.Rekeyed a key c h') (o : ObjectRef) (obj : Object) (ho : h.object o = .ok obj) :
    ∃ obj', h'.object o = .ok obj' ∧ obj'.kind = obj.kind := by
  by_cases hsame : o = a
  · subst hsame
    exact ⟨_, hr.object obj ho, rfl⟩
  · exact ⟨obj, hr.touches.object o obj hsame ho, rfl⟩

/-! ### Where names are bound -/

/-- **The scope binds names in the object**, each in a live cell of its own. -/
structure Hosts (h : Heap) (s : ScopeRef) (sc : Scope) : Prop where
  kept : h.WellKept
  scope : h.scope s = .ok sc
  target : sc.target = sc.object
  live : ∃ obj, h.object sc.object = .ok obj
  cells : ∀ key c, h.Refers sc.object key c → ∃ d, h.cell c = .ok d
  apart : ∀ key key' c, h.Refers sc.object key c → h.Refers sc.object key' c → key = key'

/-- **The scope binds the name to a closure of one of the functions if `q` holds**, in an object of its own. -/
structure Hosting (s : ScopeRef) (sc : Scope) (name : String) (F : Function → Prop) (q : Prop) (h : Heap) : Prop where
  hosts : h.Hosts s sc
  bound : q → h.BoundToClosure s name F

namespace Hosts

variable (hh : h.Hosts s sc)
include hh

/-- Neither the object nor what it refers to is touched, but for the contents of cells. -/
theorem next (hk : h'.WellKept) (ht : OnlyTouches O C h h') (hO : ¬ O sc.object) : h'.Hosts s sc := by
  obtain ⟨obj, ho⟩ := hh.live
  have hrefers : ∀ {key c}, h'.Refers sc.object key c → h.Refers sc.object key c := ht.refers_of hO ho
  refine ⟨hk, ht.scope s sc hh.scope, hh.target, ⟨obj, ht.object _ obj hO ho⟩, fun key c hr => ?_,
    fun key key' c hr hr' => hh.apart key key' c (hrefers hr) (hrefers hr')⟩
  obtain ⟨d, hc⟩ := hh.cells key c (hrefers hr)
  exact ht.cells c d hc

/-- A key is bound to a new cell. -/
theorem rekey (hr : h.Rekeyed sc.object key c h') (hfresh : ∀ e, h.cell c ≠ .ok e) (hc : h'.cell c = .ok d) :
    h'.Hosts s sc := by
  obtain ⟨obj, ho⟩ := hh.live
  have hrefers := hr.refers ho
  have hunused : ∀ {k}, ¬ h.Refers sc.object k c := fun hk =>
    let ⟨e, he⟩ := hh.cells _ c hk
    hfresh e he
  refine ⟨hr.kept, hr.touches.scope s sc hh.scope, hh.target, ⟨_, hr.object obj ho⟩, fun k x hx => ?_,
    fun k k' x hx hx' => ?_⟩
  · have hx' := (hrefers k x).mp hx
    split_ifs at hx' with hk
    · exact ⟨d, hx' ▸ hc⟩
    · obtain ⟨e, he⟩ := hh.cells k x hx'
      exact hr.touches.cells x e he
  · have hy := (hrefers k x).mp hx
    have hy' := (hrefers k' x).mp hx'
    split_ifs at hy hy' with hk hk' hk'
    · rw [hk, hk']
    · exact (hunused (hy ▸ hy')).elim
    · exact (hunused (hy' ▸ hy)).elim
    · exact hh.apart k k' x hy hy'

end Hosts

namespace Hosting

variable (hh : Hosting s sc name F q h)
include hh

theorem imp {q' : Prop} (hq : q' → q) : Hosting s sc name F q' h := ⟨hh.hosts, fun hq' => hh.bound (hq hq')⟩

theorem beside (hb : h.Beside h') : Hosting s sc name F q h' := by
  refine ⟨hh.hosts.next hb.kept hb.untouched id, fun hq => ?_⟩
  obtain ⟨v, hv, hclosure⟩ := hh.bound hq
  exact ⟨v, hb.untouched.boundTo hv (fun _ _ => id) (fun _ _ _ _ _ _ => id), hclosure.of_kinds hb.untouched.kinds⟩

theorem bind {J : Heap → Prop} {p : Proc Heap α} {g : α → Proc Heap β} (hp : (p h).Leaves h.Beside)
    (hg : ∀ x h', p h = .done x h' → h.Beside h' → (g x h').Ends (Hosting s sc name F q) J) :
    ((p >>= g) h).Ends (Hosting s sc name F q) J :=
  Proc.ends_bind (hp.ends.imp (fun _ => hh.beside) fun _ hb => hb) hg

/-- **A name that is not bound is declared.** -/
theorem ends_declare {r : Prop} (hspells : h.Spells key n) (hnone : ∀ c, ¬ h.Refers sc.object key c)
    (hv : r → n = name ∧ h.IsClosure s F v) :
    (declare s n v h).Ends (Hosting s sc name F q) (Hosting s sc name F (q ∨ r)) := by
  refine Proc.ends_reads_bind hh fun sc' hs => ?_
  cases hh.hosts.scope.symm.trans hs
  rw [hh.hosts.target]
  refine hh.bind (beside_keyOfName hh.hosts.kept n) fun key' h₁ hdone hb => ?_
  have hh₁ := hh.beside hb
  obtain ⟨obj, ho⟩ := hh.hosts.live
  obtain ⟨-, hi, hspells'⟩ := keyOfName_names hh.hosts.kept hdone
  cases (hi.untouched.spells hspells).key_eq hb.kept.valid.canonical hspells'
  rcases define_filled hb.kept.valid sc.object key (.declared v) with ⟨e, hfailed⟩ | ⟨obj', c, h', -, -, -, hdefined⟩
  · rw [hfailed]
    exact hh₁
  rw [hdefined]
  obtain ⟨hr, hc, hfresh, -⟩ := define_rekeys hb.kept hdefined
  have hrefers := hr.refers (hb.untouched.object _ obj id ho)
  refine ⟨hh₁.hosts.rekey hr hfresh hc, ?_⟩
  rintro (hq | hr')
  · obtain ⟨u, ⟨sc', k, x, d, w, hs', hspells', hx, hd, hcontent⟩, hclosure⟩ := hh₁.bound hq
    cases hh₁.hosts.scope.symm.trans hs'
    refine ⟨u, ⟨sc, k, x, d, w, hr.touches.scope s sc hs', hr.touches.spells hspells', (hrefers k x).mpr ?_,
      hr.touches.cell x d id hd, hcontent⟩, hclosure.of_kinds hr.kinds⟩
    rwa [if_neg]
    rintro rfl
    exact hnone x (hb.untouched.refers_of id ho hx)
  · obtain ⟨rfl, hclosure⟩ := hv hr'
    refine ⟨v, ⟨sc, key, c, _, true, hr.touches.scope s sc hh₁.hosts.scope, hr.touches.spells hspells',
      (hrefers key c).mpr ?_, hc, rfl⟩, (hclosure.of_kinds hb.untouched.kinds).of_kinds hr.kinds⟩
    rw [if_pos rfl]

/-- **The cell of a name is written.** -/
theorem ends_writeCell (hspells : h.Spells key n) (hr : h.Refers sc.object key c)
    (hv : n = name → h.IsClosure s F v) :
    (writeCell c v h).Ends (Hosting s sc name F q) (Hosting s sc name F (q ∨ n = name)) := by
  obtain ⟨d, hd⟩ := hh.hosts.cells key c hr
  have hkept : ∀ {h'}, writeCell c v h = .done () h' → h'.WellKept := fun hdone =>
    Routine.keeps_wellKept (.modifyCell c _) hh.hosts.kept hdone
  cases hcontent : d.content with
  | accessor get set =>
    rw [writeCell_accessor hd hcontent]
    exact hh
  | data u w =>
    rw [writeCell_done hd hcontent] at hkept ⊢
    have ht := onlyTouches_put_cell hd { d with content := .data v w }
    refine ⟨hh.hosts.next (hkept rfl) ht id, fun hbound => ?_⟩
    by_cases hname : n = name
    · subst hname
      exact ⟨v, ⟨sc, key, c, _, w, ht.scope s sc hh.hosts.scope, ht.spells hspells, ht.refers id hr,
        (cell_put_cell hd _ c).trans (if_pos rfl), rfl⟩, (hv rfl).of_kinds ht.kinds⟩
    · -- another name has another cell
      obtain ⟨u, hu, hclosure⟩ := hh.bound (hbound.resolve_right hname)
      refine ⟨u, ht.boundTo hu (fun _ _ => id) fun sc' k x hs hk hx hsame => ?_, hclosure.of_kinds ht.kinds⟩
      cases hh.hosts.scope.symm.trans hs
      cases hh.hosts.apart k key c (hsame ▸ hx) hr
      exact hname (hspells.name_eq hk)

end Hosting

end Heap

/-! ### Hoisting -/

/-- A statement of the list declares a function under the name. -/
def DeclaresUnder (list : List Stmt) (name : String) : Prop := ∃ f, .function f ∈ list ∧ f.name = some name

theorem declaresUnder_cons {statement : Stmt} {rest : List Stmt} : DeclaresUnder (statement :: rest) name ↔
    (∃ f, statement = .function f ∧ f.name = some name) ∨ DeclaresUnder rest name := by
  unfold DeclaresUnder
  simp only [List.mem_cons, or_and_right, exists_or, eq_comm]

/-- **Variables are declared**, and what is bound stays bound. -/
theorem ends_hoistVariables (names : List String) : ∀ {h : Heap}, Heap.Hosting s sc name F q h →
    (hoistVariables s sc.object names h).Ends (Heap.Hosting s sc name F q) (Heap.Hosting s sc name F q) := by
  induction names with
  | nil => exact fun hh => hh
  | cons n rest ih =>
    intro h hh
    rw [hoistVariables]
    refine hh.bind (Heap.beside_keyOfName hh.hosts.kept n) fun key h₁ hdone hb => ?_
    have hh₁ := hh.beside hb
    obtain ⟨-, -, hspells⟩ := Heap.keyOfName_names hh.hosts.kept hdone
    refine Proc.ends_reads_bind hh₁ fun found hfound => ?_
    cases found with
    | some c => exact ih hh₁
    | none =>
      have hdeclared := hh₁.ends_declare (r := False) (v := .undefined) hspells (fun c hr => ?_) False.elim
      · exact Proc.ends_discard_bind hdeclared fun h₂ hh₂ => ih ⟨hh₂.hosts, fun hq => hh₂.bound (.inl hq)⟩
      · cases hfound.symm.trans hr

/-- **A function is hoisted**: if it is declared under the name, then this is bound to its closure. -/
theorem ends_hoistFunction (hh : Heap.Hosting s sc name F q m.heap) (hF : n = name → F f) :
    (hoistFunction s sc.object f n m).Ends (fun m' => Heap.Hosting s sc name F q m'.heap)
      fun m' => Heap.Hosting s sc name F (q ∨ n = name) m'.heap := by
  have hmade := gives_allocClosure (m := m) hh.hosts.kept f s
  refine Proc.ends_bind ((ends_allocClosure hh.hosts.kept f s).imp (fun _ => hh.beside) fun _ hb => hb)
    fun g m₁ hdone hb => ?_
  have hh₁ := hh.beside hb
  have hclosure : m₁.heap.ClosureOf g f s := (hmade.of_done hdone).2.2.2
  have hnaming := (Heap.beside_keyOfName hb.kept n).ends.imp (fun _ => hh₁.beside) fun _ hb => hb
  refine Proc.ends_bind (Run.ends_onHeap hnaming) fun key m₂ hkey hb₂ => ?_
  have hh₂ := hh₁.beside hb₂
  have hnamed := (Machine.Gives.onHeap (m := m₁) fun _ _ hdone => Heap.keyOfName_names hb.kept hdone).of_done hkey
  obtain ⟨-, -, hspells⟩ := hnamed
  have hclosure₂ : n = name → m₂.heap.IsClosure s F (.object g) := fun hname =>
    ⟨g, f, rfl, hF hname, hclosure.of_kind (hb₂.untouched.kinds g)⟩
  rw [Run.readHeap_bind]
  cases hfound : m₂.heap.ownCell sc.object key with
  | error e => exact hh₂
  | ok found =>
    cases found with
    | some c => exact Run.ends_onHeap (hh₂.ends_writeCell hspells hfound hclosure₂)
    | none =>
      have hdeclared := hh₂.ends_declare (v := .object g) hspells (fun c hr => ?_) fun hname => ⟨hname, hclosure₂ hname⟩
      · exact Proc.ends_map (Run.ends_onHeap hdeclared)
      · cases hfound.symm.trans hr

/-- **The functions of a list are hoisted.** -/
theorem ends_hoistFunctions (list : List Stmt) (hF : ∀ f, .function f ∈ list → f.name = some name → F f) :
    ∀ {q : Prop} {m : Machine}, Heap.Hosting s sc name F q m.heap →
      (hoistFunctions s sc.object list m).Ends (fun m' => Heap.Hosting s sc name F q m'.heap)
        fun m' => Heap.Hosting s sc name F (q ∨ DeclaresUnder list name) m'.heap := by
  induction list with
  | nil =>
    intro q m hh
    refine hh.imp ?_
    rintro (hq | ⟨f, hf, -⟩)
    · exact hq
    · cases hf
  | cons statement rest ih =>
    intro q m hh
    have hF' : ∀ f, .function f ∈ rest → f.name = some name → F f := fun f hf =>
      hF f (List.mem_cons_of_mem statement hf)
    -- A statement that binds nothing under the name.
    have hskip : (∀ f, statement = .function f → f.name ≠ some name) → ∀ {m₁ : Machine},
        Heap.Hosting s sc name F q m₁.heap →
        (hoistFunctions s sc.object rest m₁).Ends (fun m' => Heap.Hosting s sc name F q m'.heap)
          fun m' => Heap.Hosting s sc name F (q ∨ DeclaresUnder (statement :: rest) name) m'.heap := by
      intro hother m₁ hh₁
      refine (ih hF' hh₁).imp (fun _ hh' => hh') fun _ hh' => hh'.imp ?_
      rw [declaresUnder_cons]
      rintro (hq | ⟨f, hf, hname⟩ | hrest)
      · exact .inl hq
      · exact absurd hname (hother f hf)
      · exact .inr hrest
    cases statement with
    | function f =>
      rw [hoistFunctions]
      cases hname : f.name with
      | none =>
        refine hskip ?_ hh
        rintro _ ⟨⟩ hsome
        cases hname.symm.trans hsome
      | some n =>
        have hhoisted := ends_hoistFunction (n := n) hh fun hn => hF f List.mem_cons_self (hname.trans (hn ▸ rfl))
        refine Proc.ends_bind hhoisted fun _ m₁ _ hh₁ => ?_
        refine (ih hF' hh₁).imp (fun _ hh' => hh'.imp .inl) fun _ hh' => hh'.imp ?_
        rw [declaresUnder_cons]
        rintro (hq | ⟨_, ⟨⟩, hsome⟩ | hrest)
        · exact .inl (.inl hq)
        · exact .inl (.inr (Option.some.inj (hname.symm.trans hsome)))
        · exact .inr hrest
    | _ =>
      refine hskip (fun f hf => ?_) hh
      cases hf

/-- **A list starts**: however that ends, a name that was bound to a closure of one of the functions is bound to one
still; and if it goes on to its first statement, then each name is that it declares a function under. -/
theorem StatementsTask.ends_start {t : StatementsTask} (hF : ∀ f, .function f ∈ t.statements → f.name = some name → F f)
    (hh : Heap.Hosting t.scope sc name F q m.heap) :
    (t.start m).Ends (fun m' => Heap.Hosting t.scope sc name F q m'.heap)
      fun m' => Heap.Hosting t.scope sc name F (q ∨ DeclaresUnder t.statements name) m'.heap := by
  have hhoisted : (t.hoist m).Ends (fun m' => Heap.Hosting t.scope sc name F q m'.heap)
      fun m' => Heap.Hosting t.scope sc name F (q ∨ DeclaresUnder t.statements name) m'.heap := by
    unfold hoist
    rw [Run.readHeap_bind, hh.hosts.scope]
    dsimp only
    rw [hh.hosts.target]
    by_cases hkind : t.kind = .program
    · rw [if_pos hkind]
      exact Proc.ends_bind (Run.ends_onHeap (ends_hoistVariables _ hh)) fun _ m₁ _ hh₁ => ends_hoistFunctions _ hF hh₁
    · rw [if_neg hkind]
      exact ends_hoistFunctions _ hF hh
  exact Proc.ends_bind hhoisted fun _ _ _ hh' => hh'

end ScriptCore
