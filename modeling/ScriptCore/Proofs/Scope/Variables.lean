import ScriptCore.Host.Dispatch
import ScriptCore.Proofs.Drive.Nesting
import ScriptCore.Proofs.Hiding.Situations
import ScriptCore.Proofs.Scope.Bindings
import ScriptCore.Proofs.Scope.Targets

/-! # Variables stay in their call

The variables of a function are collected from its body before the body runs, and declared in the scope of the call.
A declaration that runs anywhere in the body, at whatever depth of blocks, branches, loops and handlers, assigns to
names; each of them is bound in the scope of the call, or in the scope of a handler on the way there. So no declaration
reaches past its call.

* `Task.callScopes`: the scopes of the innermost call.
* `Heap.Nested.finds`: **a declared name is bound in one of them**, and the walk ends there.
* `assignName_overwrites`: what assigning to it comes to.
* `Situation.Arises.variables_stay`: **the assignments of a declaration stay in its call.** -/

namespace ScriptCore

open Heap (Naming)

variable {h : Heap} {S : Scene} {m m₁ : Machine} {key : PropertyKey} {s : ScopeRef} {o : ObjectRef} {c : CellRef}
  {name : String} {base : Nat} {bases : List Nat} {host : Host} {v : Value} {E : Engine}

/-! ### The scopes of a call -/

namespace Task

/-- The task runs the handler of a `try` statement. -/
def runsHandler : Task → Bool
  | .statement t => t.state = .tryHandler
  | _ => false

/-- The innermost call. -/
def innermostCall : List Task → Option InvocationTask
  | [] => none
  | .invocation t :: _ => some t
  | _ :: ts => innermostCall ts

/-- **The scopes of the innermost call**: those in which its open handlers run, the innermost first, and its own. -/
def callScopes : List Task → List ScopeRef
  | [] => []
  | .invocation t :: _ => t.scope.toList
  | t :: ts => (if ts.head?.any runsHandler then t.scope?.toList else []) ++ callScopes ts

variable {t u : Task} {ts : List Task}

theorem callScopes_cons (ht : t.Declares s name) :
    callScopes (t :: ts) = (if ts.head?.any runsHandler then [s] else []) ++ callScopes ts := by
  obtain ⟨hscope, hname⟩ := ht
  cases t with
  | invocation t => cases hname
  | expression t => cases hname
  | settled o => cases hname
  | statements t =>
    rw [callScopes, hscope]
    · rfl
    · intro _ hcall
      cases hcall
  | statement t =>
    rw [callScopes, hscope]
    · rfl
    · intro _ hcall
      cases hcall

end Task

/-! ### Where declared names are bound -/

/-- **A name that open code declares is bound in a scope of the call in which it is open**: either a handler on the way
out to the call caught under that name, or the scope of the call declares it. -/
theorem Heap.Nested.finds {t : Task} {ts : List Task} {k : InvocationTask} (hn : h.Nested (t :: ts)) (hs : h.Secure)
    (hd : t.Declares s name) (hcall : Task.innermostCall ts = some k) (hfree : k.closure.boundScope = none) :
    ∃ p ∈ Task.callScopes (t :: ts), ∃ sc key c, h.scope p = .ok sc ∧ sc.parent ≠ none ∧ h.Spells key name ∧
      h.Finds key s (some (sc.object, c)) := by
  -- from the innermost task outwards; only a handler leaves the scope
  induction ts generalizing t s with
  | nil => cases hcall
  | cons u ts ih =>
    rw [Task.callScopes_cons hd]
    have hwithin := hn.2.1 u rfl s name hd
    cases u with
    | expression u => exact hwithin.elim
    | settled o => exact hwithin.elim
    | invocation u =>
      obtain rfl : u = k := Option.some.inj hcall
      obtain ⟨hstate, hscope, hname⟩ := hwithin
      obtain ⟨s', hs', hvars⟩ := (show u.closure.boundScope = none → u.Furnished h from hn.tail.1) hfree (.inr hstate)
      cases hscope.symm.trans hs'
      obtain ⟨sc, key, c, hsc, hparent, hspells, hr⟩ := hvars name hname
      refine ⟨s, List.mem_append_right _ ?_, sc, key, c, hsc, hparent, hspells, .here hsc hr⟩
      rw [Task.callScopes, hscope]
      exact List.mem_singleton_self s
    | statements u =>
      obtain ⟨rfl, hname⟩ := hwithin
      obtain ⟨p, hp, hrest⟩ := ih hn.tail ⟨rfl, hname⟩ hcall
      exact ⟨p, List.mem_append_right _ hp, hrest⟩
    | statement u =>
      obtain ⟨hname, hscope⟩ := hwithin
      obtain ⟨p, hp, sc, key, c, hsc, hinner, hspells, hf⟩ :=
        ih (t := .statement u) (s := u.scope) hn.tail ⟨rfl, hname⟩ hcall
      rcases hscope with rfl | ⟨hstate, sc', hsc', hparent⟩
      · exact ⟨p, List.mem_append_right _ hp, sc, key, c, hsc, hinner, hspells, hf⟩
      · -- the handler may have caught under the name
        obtain ⟨obj, ho⟩ := Heap.names_object.mp (hs.scope hsc').1
        cases hfind : obj.properties.find? key with
        | some c' =>
          refine ⟨s, List.mem_append_left _ ?_, sc', key, c', hsc', by simp [hparent], hspells,
            .here hsc' (Heap.ownCell_eq_ok.mpr ⟨obj, ho, hfind⟩)⟩
          rw [if_pos (by simp [Task.runsHandler, hstate])]
          exact List.mem_singleton_self s
        | none =>
          exact ⟨p, List.mem_append_right _ hp, sc, key, c, hsc, hinner, hspells,
            .outer hsc' (Heap.ownCell_eq_ok.mpr ⟨obj, ho, hfind⟩) hparent hf⟩

/-! ### Assigning to a name that is bound -/

/-- **What writing to the cell comes to**: of what there was nothing but the cell changes, and if the cell can be
written it holds the value; or it fails, and nothing changes; and it does not fail for want of a binding. -/
def Outcome.Overwrites (h : Heap) (c : CellRef) (v : Value) : Outcome Machine Unit → Prop
  | .done _ m => h.OnlyTouches (fun _ => False) (· = c) m.heap ∧ ∀ w, h.Stores c w → m.heap.Stores c v
  | .failed e m => h.Untouched m.heap ∧ ∀ name, e ≠ .unresolvedReference name
  | .stalled => False

/-- A write is refused with an error about the property. -/
theorem refuseWrite_named (hspells : m.heap.Spells key name) (strict : Bool) :
    refuseWrite key strict m = .done false m ∨ ∃ text, refuseWrite key strict m = .failed (.propertyAccess text) m := by
  cases strict with
  | false => exact .inl rfl
  | true =>
    have htext : ∃ text, m.heap.keyText key = .ok text := by
      unfold Heap.Spells at hspells
      split at hspells
      · subst hspells
        exact ⟨_, rfl⟩
      · obtain ⟨t, rfl, ht⟩ := hspells
        unfold Heap.keyText
        dsimp only
        rw [ht]
        exact ⟨_, rfl⟩
    obtain ⟨text, htext⟩ := htext
    refine .inr ⟨text, ?_⟩
    unfold refuseWrite
    rw [if_pos rfl, Run.readHeap_bind, htext]
    rfl

/-- **A name that is bound in a hidden object is written there**, or the write fails. -/
theorem assignName_overwrites (hs : m.heap.Secure) (hf : m.heap.Finds key s (some (o, c)))
    (hspells : m.heap.Spells key name) (ho : m.heap.Hides o) (E : Engine) (v : Value) :
    (assignName E s name v m).Overwrites m.heap c v := by
  rcases Heap.keyOfName_ends hs.valid name with ⟨-, hfailed⟩ | ⟨key', h₁, hi⟩
  · have hfull : assignName E s name v m = .failed .outOfMemory m := Proc.bind_failed (Run.onHeap_failed hfailed) _
    rw [hfull]
    exact ⟨.refl .., nofun⟩
  · obtain ⟨t, ht, hkey⟩ := hi.named
    have hspells₁ := hi.untouched.spells hspells
    cases hspells₁.key_eq hi.valid.canonical (Heap.spells_of_keyOfString ht hkey)
    obtain ⟨sc, hsc⟩ := hf.exists_scope
    obtain ⟨obj, hobj, hfind⟩ := Heap.refers_iff.mp (hf.ownCell rfl)
    obtain ⟨hordinary, hvalued⟩ := (hs.object hobj).2 ho
    obtain ⟨d, hd, hdata⟩ := hvalued key c hfind
    have hd₁ : h₁.cell c = .ok d := (hi.cell c).trans hd
    have hplain : h₁.isArray o = .ok false :=
      (hi.isArray o).trans (Heap.isArray_eq_ok.mpr ⟨obj, hobj, by simp [hordinary]⟩)
    rw [assignName_bound hi.done (hi.finds hf) rfl ((hi.scope s).trans hsc)]
    unfold Descriptor.isAccessor at hdata
    cases hcontent : d.content with
    | accessor get set => rw [hcontent] at hdata; cases hdata
    | data x writable =>
      have hset := setProperty_own (m := { m with heap := h₁ }) hplain ((hi.ownCell o key).trans (hf.ownCell rfl)) hd₁
        hcontent E v sc.strict
      cases writable with
      | true =>
        have hdone : (discard (setProperty E o key v sc.strict) : Run Unit) { m with heap := h₁ } =
            .done () { m with heap := h₁.put c.handle (.cell { d with content := .data v true }) } :=
          Proc.bind_done hset _
        rw [hdone]
        refine ⟨hi.untouched.untouched.trans (Heap.onlyTouches_put_cell hd₁ _) (fun _ _ h => h.elim) fun _ _ h _ => h,
          fun _ _ => ⟨_, (Heap.cell_put_cell hd₁ _ c).trans (if_pos rfl), rfl⟩⟩
      | false =>
        have hstays : ∀ x, m.heap.Stores c x → h₁.Stores c v := by
          rintro x ⟨d', hd', hcontent'⟩
          cases hd.symm.trans hd'
          rw [hcontent] at hcontent'
          cases hcontent'
        rcases refuseWrite_named (m := { m with heap := h₁ }) hspells₁ sc.strict with hrefused | ⟨text, hrefused⟩
        · have hdone : (discard (setProperty E o key v sc.strict) : Run Unit) { m with heap := h₁ } =
              .done () { m with heap := h₁ } := Proc.bind_done (hset.trans hrefused) _
          rw [hdone]
          exact ⟨hi.untouched.untouched, hstays⟩
        · have hfailed : (discard (setProperty E o key v sc.strict) : Run Unit) { m with heap := h₁ } =
              .failed (.propertyAccess text) { m with heap := h₁ } := Proc.bind_failed (hset.trans hrefused) _
          rw [hfailed]
          exact ⟨hi.untouched, nofun⟩

/-! ### Declarations that run -/

/-- **The assignment stays in the scopes**: the walk from its scope outwards finds the name in one of them, in an object
that is not the global object, and the assignment does nothing but write there. -/
def Assignment.StaysIn (E : Engine) (scopes : List ScopeRef) (a : Assignment) : Prop :=
  ∃ s ∈ scopes, ∃ sc key c, a.machine.heap.scope s = .ok sc ∧ sc.object ≠ a.machine.realm.globalObject ∧
    a.machine.heap.Spells key a.name ∧ a.machine.heap.Finds key a.scope (some (sc.object, c)) ∧
    a.machine.heap.binding a.scope key = .ok (some sc.object) ∧
    (assignName E a.scope a.name a.value a.machine).Overwrites a.machine.heap c a.value

/-- **A variable declaration runs in a call**, to whose closure no scope is bound: at the next boundary the task on top,
a declaration somewhere inside the call, gets the initial value `v` for the target, and goes on with it on the machine
`m₁`. -/
structure Machine.Initializes (m : Machine) (base : Nat) (t : StatementTask) (target : Pattern) (v : Value)
    (m₁ : Machine) : Prop where
  called : ∃ k, Task.innermostCall (m.tasksAbove base) = some k ∧ k.closure.boundScope = none
  declares : ∃ declarations i init, t.stmt = .vars declarations ∧ t.state = .varInit i ∧
    declarations[i]? = some (target, init)
  runs : ∃ (f : Frame) (c : Completion), f.task = .statement t ∧ c.value = v ∧ m.Runs base f (some (.ok c)) m₁

/-- What the task does then is to write the value to the target, in its scope, before it goes on to the next
declaration. -/
theorem StatementTask.resume_initializes {t : StatementTask} {target : Pattern}
    {declarations : List (Pattern × Option Expr)} {i : Nat} {init : Option Expr} (hstmt : t.stmt = .vars declarations)
    (hstate : t.state = .varInit i) (hi : declarations[i]? = some (target, init)) (E : Engine) (c : Completion) :
    t.resume E (.ok c) = do
      writePattern E t.scope target c.value
      return t.askInitializer (i + 1) declarations := by
  unfold resume
  rw [hstate, hstmt]
  dsimp only
  rw [hi]
  rfl

/-- **The variables of a function stay in its call.** In every situation that arises on a host whose native functions
show no hidden object, whatever code runs there: when a variable declaration runs in a call, each assignment that it
makes is to a name that its pattern binds, and stays in the scopes of the call. If the declaration goes on, it has
assigned to every such name. -/
theorem Situation.Arises.variables_stay {t : StatementTask} {target : Pattern} (hhost : host.BySyntax)
    (hnative : host.Tactful) (hm : (Situation.driven (base :: bases) m).Arises host)
    (hinit : m.Initializes base t target v m₁) (bound : Nat) :
    (∀ a, target.Assigns (host.engine bound) a t.scope v m₁ → a.name ∈ target.boundNames ∧
      a.StaysIn (host.engine bound) (Task.callScopes (m.tasksAbove base))) ∧
    ∀ m₂, writePattern (host.engine bound) t.scope target v m₁ = .done () m₂ →
      ∀ name ∈ target.boundNames, ∃ a, target.Assigns (host.engine bound) a t.scope v m₁ ∧ a.name = name := by
  refine ⟨fun a ha => ?_, fun m₂ hdone name hname => Pattern.exists_assigns hdone hname⟩
  obtain ⟨⟨k, hcall, hfree⟩, ⟨declarations, i, init, hstmt, -, hi⟩, f, c, htask, rfl, hruns⟩ := hinit
  obtain ⟨hveiled, hstacked⟩ := hm.veiled hhost hnative
  obtain ⟨hholds, hclear, houtput, ts, habove, hnested⟩ := hveiled.runs hstacked hruns
  rw [htask] at hclear habove hnested
  rw [habove] at hcall ⊢
  obtain ⟨hsame, hname, hshelters, hholds'⟩ := ha.reached (host.engine_reticent hhost hnative bound _)
    (Heap.clear_statement.mp hclear).1 (Heap.clear_value houtput) hholds
  have hdeclares : (Task.statement t).Declares t.scope a.name := by
    refine ⟨rfl, ?_⟩
    show a.name ∈ t.stmt.variables
    rw [hstmt]
    exact List.mem_flatMap.mpr ⟨_, List.mem_of_getElem? hi, hname⟩
  have hsecure := hholds'.veiled.heap
  obtain ⟨p, hp, sc, key, x, hsc, hinner, hspells, hf⟩ :=
    (hnested.sheltered hshelters).finds hsecure hdeclares hcall hfree
  have hhidden : a.machine.heap.Hides sc.object := ⟨p, sc, hsc, hinner, rfl⟩
  rw [← hsame] at hf
  refine ⟨hname, p, hp, sc, key, x, hsc, fun hglobal => ?_, hspells, hf, hf.binding,
    assignName_overwrites hsecure hf hspells hhidden _ _⟩
  have hrealm := hholds'.veiled.clear
  rw [← hholds'.veiled.realm] at hrealm
  exact ((Heap.clear_ref _).mp (Heap.clear_realm hrealm).2.1).2 (hglobal ▸ hhidden)

/-- A program that calls a function whose handler has a native function call a closure, and declares a variable. -/
def variableInHandler : List Stmt :=
  [.function (.ofBody (some "g") [] (.block
      [.tryCatch [.throwValue (.bool true)] (some "e")
        [.expr (.call (.ident "f") [.function (.ofBody none [] (.block []))]),
          .vars [(.ident "x", some (.bool false))]]])),
    .expr (.call (.ident "g") [])]

/-- The declaration of a variable that is about to get its initial value, and that value. -/
def Machine.initializing? (m : Machine) (name : String) : Option (Frame × StatementTask × Completion) :=
  match m.frames.top? with
  | some f =>
    match f.task, f.input with
    | .statement t, .deliver (.ok c) =>
      match t.state, t.stmt, (m.collected.monitor.crossed (some (.ok c))).1 with
      | .varInit 0, .vars [(.ident n, _)], .ok () => if n = name then some (f, t, c) else none
      | _, _, _ => none
    | _, _ => none
  | none => none

theorem Machine.initializes_of_initializing {f : Frame} {t : StatementTask} {c : Completion}
    (hinit : m.initializing? name = some (f, t, c))
    (hcall : ∃ k, Task.innermostCall (m.tasksAbove 0) = some k ∧ k.closure.boundScope = none) :
    ∃ m₁, m.Initializes 0 t (.ident name) c.value m₁ := by
  unfold initializing? at hinit
  split at hinit
  · next g htop =>
    split at hinit
    · next u d htask hinput =>
      split at hinit
      · next n init hstate hstmt hgoes =>
        split at hinit
        · next hn =>
          cases hinit
          subst hn
          have hframes : m.frames = m.frames.pop.push (f.fed (some (.ok c))) := by
            rw [Frame.fed_of_deliver hinput]
            exact Stack.ext (List.cons_head?_tail htop).symm
          obtain ⟨m₁, hruns⟩ := exists_runs hframes (Nat.zero_le _) hgoes
          exact ⟨m₁, hcall, ⟨_, 0, init, hstmt, hstate, rfl⟩, f, c, htask, rfl, hruns⟩
        · cases hinit
      · cases hinit
    · cases hinit
  · cases hinit

/-- A native function is offered to programs, under the name of its code. -/
def Realm.offer (R : Realm) (entry : String) : Proc Heap Unit := do
  let f ← Heap.allocObject (some R.functionPrototype) .function (.native ⟨entry, 0, entry⟩)
  Realm.defineConstant R.globalObject entry (.object f)

theorem reticent_offer (entry : String) : Reticent S h (Run.onHeap (S.realm.offer entry)) Heap.Clear := by
  unfold Realm.offer Realm.defineConstant
  refine .secure fun _ hrealm => ?_
  have hkind : h.Clear (ObjectKind.native ⟨entry, 0, entry⟩) := fun _ hr => absurd hr List.not_mem_nil
  rw [Run.onHeap_bind]
  refine (reticent_allocObject (Heap.clear_realm hrealm).2.2.2.1 hkind).bind fun h₁ f _ hf => ?_
  rw [Run.onHeap_bind]
  refine reticent_keyOfName.bind fun h₂ key hh hkey => ?_
  have hd : h₂.Clear (Descriptor.hidden (.object f)).readonly.nonConfigurable := hh.clear hf
  rw [Run.onHeap_discard]
  exact .discard (reticent_define hkey.1.clear hd rfl)

/-- A host whose native functions only call what they are given shows no hidden object. -/
theorem Host.tactful_calling : Host.calling.Tactful := fun S h entry receiver args hreceiver hargs => by
  refine .call ?_ hreceiver hargs
  cases args with
  | nil => exact Heap.clear_undefined
  | cons v vs => exact Heap.clear_list.mp hargs v (List.mem_cons_self ..)

/-- A variable that is declared in a handler is bound in one of two scopes: that of the handler or that of the call. -/
theorem Situation.Arises.variables_stay_handler : ∃ (m m₁ : Machine) (t : StatementTask) (v : Value),
    (Situation.driven [0] m).Arises Host.calling ∧ m.Initializes 0 t (.ident "x") v m₁ ∧
      (Task.callScopes (m.tasksAbove 0)).length = 2 ∧
      (⟨t.scope, "x", v, m₁⟩ : Assignment).StaysIn (Host.calling.engine 4) (Task.callScopes (m.tasksAbove 0)) := by
  have hruns : ((Machine.create .standard {} 0 true).toOption.bind fun m₀ =>
      (m₀.realm.offer "f" m₀.heap).done?.bind fun r =>
        (crossings Host.calling (Host.calling.engine 4) 0 28 ({ m₀ with heap := r.2 }.openFrame
          (.ofRequest (.program variableInHandler m₀.realm.globalScope)) ⟨.program, {}⟩ 0 false false)).bind fun m =>
            (m.initializing? "x").map fun _ =>
              (Task.innermostCall (m.tasksAbove 0)).any (·.closure.boundScope.isNone) &&
                (Task.callScopes (m.tasksAbove 0)).length == 2) = some true := by decide +kernel
  obtain ⟨m₀, hcreate, hruns⟩ := Option.bind_eq_some_iff.mp hruns
  obtain ⟨r, hoffered, hruns⟩ := Option.bind_eq_some_iff.mp hruns
  obtain ⟨m, hcrossed, hruns⟩ := Option.bind_eq_some_iff.mp hruns
  obtain ⟨⟨f, t, c⟩, hinit, hcall⟩ := Option.map_eq_some_iff.mp hruns
  obtain ⟨hcalled, hlength⟩ := Bool.and_eq_true_iff.mp hcall
  have hnew := Except.eq_ok_of_toOption hcreate
  have hheld := Machine.held_create hnew
  have hsyntax : Host.calling.BySyntax := fun _ => rfl
  have hoffer : (Situation.driven [] { m₀ with heap := r.2 }).Arises Host.calling :=
    Situation.Arises.worked hsyntax Host.tactful_calling (.created hnew)
      (reticent_offer (S := ⟨⟨m₀.realm, []⟩, m₀.tasks⟩) "f") (Outcome.eq_done hoffered)
  have hstarted := hoffer.started hsyntax Host.tactful_calling hheld.active variableInHandler
  rw [show ({ m₀ with heap := r.2 } : Machine).frames.size = 0 from congrArg Stack.size hheld.frames] at hstarted
  have hm := hstarted.crossed_times 28 hcrossed
  have hunbound : ∃ k, Task.innermostCall (m.tasksAbove 0) = some k ∧ k.closure.boundScope = none := by
    obtain ⟨k, hk, hfree⟩ := (Option.any_eq_true _ _).mp hcalled
    exact ⟨k, hk, Option.isNone_iff_eq_none.mp hfree⟩
  obtain ⟨m₁, hm₁⟩ := m.initializes_of_initializing hinit hunbound
  have hstays := (hm.variables_stay hsyntax Host.tactful_calling hm₁ 4).1 ⟨t.scope, "x", c.value, m₁⟩ ⟨_, m₁, rfl, rfl⟩
  exact ⟨m, m₁, t, c.value, hm, hm₁, beq_iff_eq.mp hlength, hstays.2⟩

/-! ### Arguments with accessors -/

/-- A program that calls a function. The function makes an accessor of its argument, whose getter deletes the binding
that it is called for, and declares a variable under the name of the parameter. -/
def escapingVariable : List Stmt :=
  [.function (.ofBody (some "f") [.simple "a" none] (.block
      [.expr (.call (.ident "define") [.ident "arguments", .string "0", .object [("get", .function (.ofBody none [] (.block
        [.ret (some (.unary .delete (.member .receiver (.named "a"))))])))]]),
        .expr (.ident "a"),
        .vars [(.ident "a", some (.bool true))]])),
    .expr (.call (.ident "f") [.null])]

/-- **A variable escapes** where a native function makes an accessor of a cell that a parameter shares: no global
variable has its name before the call, and one has it afterwards. -/
theorem variable_escapes : ∃ (m m' : Machine) (v : Value), machineWith "define" none = some m ∧
    (hasBinding m.realm.globalScope "a" m).done?.map (·.1) = some false ∧
    ((Host.plain []).engine 40).execute escapingVariable m = .done v m' ∧
    (hasBinding m'.realm.globalScope "a" m').done?.map (·.1) = some true := by
  have hruns : ((machineWith "define" none).bind fun m =>
      (((Host.plain []).engine 40).execute escapingVariable m).done?.map fun r =>
        decide ((hasBinding m.realm.globalScope "a" m).done?.map (·.1) = some false) &&
        decide ((hasBinding r.2.realm.globalScope "a" r.2).done?.map (·.1) = some true)) = some true := by decide +kernel
  obtain ⟨m, hm, hruns⟩ := Option.bind_eq_some_iff.mp hruns
  obtain ⟨r, hr, hbound⟩ := Option.map_eq_some_iff.mp hruns
  rw [Bool.and_eq_true, decide_eq_true_eq, decide_eq_true_eq] at hbound
  exact ⟨m, r.2, r.1, hm, hbound.1, Outcome.eq_done hr, hbound.2⟩

end ScriptCore
