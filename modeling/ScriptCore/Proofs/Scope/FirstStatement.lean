import ScriptCore.Proofs.Calls.Programs
import ScriptCore.Proofs.Scope.BodyStart

/-! # The first statement of a call

Two boundaries lead from the frame of a call to the first statement of its body: at the first the call binds its names
and asks for the body, at the second the body binds the functions that it declares and asks for the statement. Garbage
may be collected at either.

* `advance_opens`: a boundary at which a frame opens above one that starts.
* `names_at_body`: **what names mean when the first statement is reached.**
* `Machine.Comes.spelled`: the machines that a host reaches are as a call needs them. -/

namespace ScriptCore

open Heap (object_eq_ok scope_eq_ok cell_eq_ok text_eq_ok refers_iff)

variable {host : Host} {E : Engine} {m m₁ m₂ : Machine} {below : Stack Frame} {f : Frame} {base : Nat} {h h' : Heap}
  {R : Realm} {t : InvocationTask} {body : List Stmt}

/-! ### A boundary at which a frame opens -/

/-- The frame of a branch that was asked for. -/
def Frame.ofRequest (f : Frame) (r : BranchRequest) : Frame :=
  ⟨.ofRequest r, r.info, f.depth + 1, f.quiet || r.info.options.isQuiet, false, .start⟩

theorem Machine.size_close (m : Machine) (f : Frame) (o : Except Error Completion) (base : Nat) :
    (m.close f o base).2.frames.size = m.frames.size := by
  rw [m.close_eq f o base]
  split_ifs
  · rw [Machine.frames_leave]
  · show ((m.leave f o).frames.modifyTop _).size = _
    rw [Machine.frames_leave]
    rfl

/-- **A task that starts and asks for a branch** leaves its frame with that of the branch above it. -/
theorem advance_opens (hhost : host.BySyntax) {Q : Heap → BranchRequest → Prop} (hframes : m.frames = below.push f)
    (hbase : base ≤ below.size) (hinput : f.input = .start)
    (hstart : ∀ m' : Machine, m'.realm = m.realm → m'.Gives m.collected.heap (f.task.start E) fun h' x =>
      ∀ on, x.1 = .ok (.suspended on) → ∃ r, on = .branch r ∧ Q h' r)
    (hgoing : advance host E base m = .done .going m₁) (hopened : m₁.frames.size = m.frames.size + 1) :
    ∃ task r, Q m₁.heap r ∧ m₁.realm = m.realm ∧
      m₁.frames = (below.push { f with task, input := .waiting }).push (f.ofRequest r) := by
  rw [hframes, Stack.size_push] at hopened
  rw [advance_eq_turn hframes hbase] at hgoing
  -- Closing the frame would leave fewer.
  have hclosed : ∀ (m' : Machine) g o, m'.frames = below →
      Outcome.done (m'.close g o base).1 (m'.close g o base).2 ≠ .done .going m₁ := by
    rintro m' g o rfl heq
    injection heq with _ heq
    rw [← heq, Machine.size_close] at hopened
    omega
  unfold turn feed at hgoing
  rw [hinput] at hgoing
  dsimp only at hgoing
  rw [runTask_eq, tickUnlessFailed_eq] at hgoing
  dsimp only at hgoing
  cases hticked : (m.collected.monitor.crossed none).1 with
  | error e =>
    rw [hticked] at hgoing
    exact absurd hgoing (hclosed _ _ _ rfl)
  | ok u =>
    rw [hticked] at hgoing
    dsimp only [Frame.act] at hgoing
    -- The task starts on a machine that differs in what no task reads.
    have hgives := hstart { m.collected with
      frames := below
      monitor := (m.collected.monitor.crossed none).2
      active := some ⟨f.depth, f.quiet⟩ } (Machine.realm_collected m)
    unfold Machine.Gives at hgives
    cases hran : f.task.start E { m.collected with
        frames := below
        monitor := (m.collected.monitor.crossed none).2
        active := some ⟨f.depth, f.quiet⟩ } with
    | failed e m' => rw [hran] at hgoing; cases hgoing
    | stalled => rw [hran] at hgoing; cases hgoing
    | done x m' =>
      rw [hran] at hgoing hgives
      obtain ⟨h', rfl, hasks⟩ := hgives
      obtain ⟨r, task⟩ := x
      dsimp only at hgoing
      cases r with
      | error e => exact absurd hgoing (hclosed _ _ _ rfl)
      | ok step =>
        cases step with
        | finished c => exact absurd hgoing (hclosed _ _ _ rfl)
        | suspended on =>
          obtain ⟨r, rfl, hQ⟩ := hasks on rfl
          dsimp only at hgoing
          rw [suspend_eq] at hgoing
          unfold openChild at hgoing
          dsimp only at hgoing
          rw [hhost r] at hgoing
          cases hgoing
          refine ⟨task, r, ?_, ?_, ?_⟩
          · simp only [Machine.heap_openFrame]
            exact hQ
          · simp only [Machine.realm_openFrame, Machine.realm_collected]
          · simp only [Machine.frames_openFrame]
            rfl

/-! ### What garbage collection leaves of what a call relies on -/

/-- **Collecting garbage** leaves the heap in order, and what the realm and the frames hold. -/
theorem Machine.shrinks_collected (hk : m.heap.WellKept) : m.heap.Shrinks m.collected.heap ∧
    m.collected.heap.WellKept ∧ ∀ x ∈ m.handles, m.heap.Retains m.collected.heap x := by
  unfold Machine.collected
  split_ifs
  · exact ⟨Heap.shrinks_collect hk.valid _, ⟨hk.valid.collect _, Heap.numbered_collect hk.numbered _⟩,
      fun x hx => Heap.retains_collect hk.valid hx⟩
  · exact ⟨⟨fun _ _ hx => hx, fun _ _ _ _ _ _ hy => hy⟩, hk, fun _ _ _ hx => hx⟩

/-- What an object inherits from is left with it. -/
theorem Heap.Lineage.shrunk {q : Option ObjectRef} {ps : List ObjectRef} (hs : h.Shrinks h') (hps : h.Lineage q ps)
    (hq : ∀ o, q = some o → h.Retains h' o.handle) : h'.Lineage q ps ∧ ∀ o ∈ ps, h.Retains h' o.handle := by
  induction hps with
  | nil => exact ⟨.nil, nofun⟩
  | @cons o q ps live rest ih =>
    obtain ⟨obj, ho, rfl⟩ := Heap.prototype_eq_ok.mp live
    have ho' := hq o rfl _ (object_eq_ok.mp ho)
    obtain ⟨hrest, hkept⟩ := ih fun p hp => hs.closed _ _ ho' _ (by simp [Block.handles, Object.handles, hp])
    refine ⟨.cons (Heap.prototype_eq_ok.mpr ⟨obj, object_eq_ok.mpr ho', rfl⟩) hrest, fun x hx => ?_⟩
    rcases List.mem_cons.mp hx with rfl | hx
    · exact hq x rfl
    · exact hkept x hx

section Shrinking

variable (hs : h.Shrinks h') (hrealm : ∀ x ∈ R.handles, h.Retains h' x)
include hrealm

theorem CommonNames.Spelled.shrunk (hn : R.names.Spelled h) : R.names.Spelled h' := by
  have hkeep : ∀ {key : PropertyKey} {name : String}, (∀ x ∈ key.handles, x ∈ R.handles) → h.Spells key name →
      h'.Spells key name := fun hkey hspells => hspells.of_texts fun u x hu hx =>
    text_eq_ok.mpr (hrealm _ (hkey _ (by rw [hu]; exact List.mem_singleton_self _)) _ (text_eq_ok.mp hx))
  exact ⟨hkeep (by simp +contextual [Realm.handles]) hn.length, hkeep (by simp +contextual [Realm.handles]) hn.callee,
    hkeep (by simp +contextual [Realm.handles]) hn.arguments⟩

include hs

theorem Heap.PlainIndices.shrunk (hp : h.PlainIndices R) : h'.PlainIndices R := by
  obtain ⟨ps, hps, hplain⟩ := hp
  have hprototype : h.Retains h' R.objectPrototype.handle := hrealm _ (by simp [Realm.handles])
  obtain ⟨hps', hkept⟩ := hps.shrunk hs fun o ho => by cases ho; exact hprototype
  refine ⟨ps, hps', fun q hq i c hr => ?_⟩
  obtain ⟨d, hd, hdata⟩ := hplain q hq i c (hs.refers hr)
  exact ⟨d, hs.cell_of_refers (hkept q hq) (hs.refers hr) hd, hdata⟩

end Shrinking

/-! ### The two boundaries -/

/-- The first boundary of a call. -/
theorem Task.gives_start_call (hk : h.WellKept) (hn : m.realm.names.Spelled h) (hp : h.PlainIndices m.realm)
    (hunbound : t.closure.boundScope = none) (hplain : ∀ p ∈ t.closure.function.params, p.IsPlain) :
    m.Gives h (Task.start E (.invocation t)) fun h' x => ∀ on, x.1 = .ok (.suspended on) → ∃ r, on = .branch r ∧
      InvocationTask.AsksBody { t with state := .invoking } m.realm h h' (.ask r) := by
  refine .bind (t.gives_start hk hn hp hunbound hplain) fun h' x hasks => ?_
  obtain ⟨r, t'⟩ := x
  refine .pure fun on hon => ?_
  have hbody := hasks _ hon
  obtain ⟨_, _, _, _, _, _, _, _, _, hstep, -⟩ := id hbody
  cases hstep
  exact ⟨_, rfl, hbody⟩

theorem Task.gives_keeping {τ : Type} {u : τ} {p : Run (τ × Step)} {P : Heap → Step → Prop}
    (hp : m.Gives h p fun h' x => P h' x.2) : m.Gives h (keeping u p) fun h' x => ∀ step, x.1 = .ok step → P h' step := by
  refine .bind hp.attempt fun h' r hr => ?_
  cases r with
  | error e => exact .pure fun step hstep => by cases hstep
  | ok x => exact .pure fun step hstep => by cases hstep; exact hr x rfl

/-- The request is for the first statement of the body, where names mean what they do in a heap `h`. -/
def Activation.AsksFirst (k : Activation) (f : Function) (body : List Stmt) (sc : Scope) (h : Heap) (r : BranchRequest) :
    Prop :=
  (∃ first rest, body = first :: rest ∧ r = .statement first k.scope) ∧ ∀ m, m.heap = h → k.Begins f body sc m

/-- The first boundary of the body. -/
theorem Task.gives_start_body {s : ScopeRef} {sc : Scope} {Γ : Heap.Bindings} {a : ObjectRef} {l : CellRef}
    {slots : List CellRef} {h₀ : Heap} (hb : t.AtBody R h₀ s sc Γ a l slots h) (options : BranchOptions) :
    m.Gives h (Task.start E (.ofRequest ⟨.function, .statements body, s, options⟩)) fun h' x =>
      ∀ on, x.1 = .ok (.suspended on) → ∃ r, on = .branch r ∧
        (t.activation R h₀ s sc.object a).AsksFirst t.closure.function body sc h' r := by
  have hstart : m.Gives h (StatementsTask.start ⟨.function, body, s, options, body, none⟩) fun h' x =>
      ∀ on, x.2 = .suspended on → ∃ r, on = .branch r ∧
        (t.activation R h₀ s sc.object a).AsksFirst t.closure.function body sc h' r := by
    refine .bind (hb.gives_hoist options) fun h' _ hbegins => .pure fun on hon => ?_
    cases body with
    | nil => cases hon
    | cons first rest =>
      cases hon
      exact ⟨_, rfl, ⟨first, rest, rfl, rfl⟩, hbegins⟩
  refine .bind (gives_keeping (P := fun h' step => ∀ on, step = .suspended on → ∃ r, on = .branch r ∧
    (t.activation R h₀ s sc.object a).AsksFirst t.closure.function body sc h' r) hstart) fun h' x hx => ?_
  exact .pure fun on hon => hx _ hon on rfl

section Reaching

variable (hhost : host.BySyntax) (hk : m.heap.WellKept) (hn : m.realm.names.Spelled m.heap)
  (hp : m.heap.PlainIndices m.realm) (hframes : m.frames = below.push f) (hbase : base ≤ below.size)
  (htask : f.task = .invocation t) (hinput : f.input = .start) (hunbound : t.closure.boundScope = none)
  (hplain : ∀ p ∈ t.closure.function.params, p.IsPlain)
include hhost hk hn hp hframes hbase htask hinput hunbound hplain

/-- A call that starts opens the frame of its body. -/
theorem advance_asksBody (hcall : advance host E base m = .done .going m₁)
    (hopened : m₁.frames.size = m.frames.size + 1) :
    ∃ task r, InvocationTask.AsksBody { t with state := .invoking } m.realm m.collected.heap m₁.heap (.ask r) ∧
      m₁.frames = (below.push { f with task, input := .waiting }).push (f.ofRequest r) := by
  obtain ⟨hs, hk', hkept⟩ := m.shrinks_collected hk
  have hrealm : ∀ x ∈ m.realm.handles, m.heap.Retains m.collected.heap x := fun x hx =>
    hkept x (List.mem_append_left _ hx)
  have hstart : ∀ m' : Machine, m'.realm = m.realm → m'.Gives m.collected.heap (f.task.start E) fun h' x =>
      ∀ on, x.1 = .ok (.suspended on) → ∃ r, on = .branch r ∧
        InvocationTask.AsksBody { t with state := .invoking } m.realm m.collected.heap h' (.ask r) := by
    intro m' hsame
    rw [htask, ← hsame]
    refine Task.gives_start_call hk' ?_ ?_ hunbound hplain
    · exact hsame ▸ hn.shrunk hrealm
    · exact hsame ▸ hp.shrunk hs hrealm
  obtain ⟨task, r, hasks, -, hframes₁⟩ := advance_opens hhost hframes hbase hinput hstart hcall hopened
  exact ⟨task, r, hasks, hframes₁⟩

/-- **What names mean when the first statement of a call is reached.** Let the innermost frame be that of a call that
starts, of a closure with no bound scope, whose function has a body of statements and parameters that need no code to be
bound, and let no index of the object prototype have accessors. If at the first boundary the frame of the body opens, and
at the next that of a statement, this is the first statement of the body, it runs in a new scope inside that of the
closure, and there every name means what `Function.initially` says. -/
theorem names_at_body (hbody : t.closure.function.body = .block body) (hcall : advance host E base m = .done .going m₁)
    (hopened : m₁.frames.size = m.frames.size + 1) (hstart : advance host E base m₁ = .done .going m₂)
    (hreached : m₂.frames.size = m₁.frames.size + 1) :
    ∃ (first : Stmt) (rest : List Stmt) (k : Activation) (sc outer : Scope) (s : Stack Frame) (g : Frame),
      body = first :: rest ∧ m₂.frames = s.push g ∧ g.task = .ofRequest (.statement first k.scope) ∧ g.input = .start ∧
      m.heap.scope t.closure.scope = .ok outer ∧ sc.parent = some t.closure.scope ∧
      sc.strict = (t.closure.function.strict || outer.strict) ∧
      k.callee = t.callee ∧ k.args = t.args ∧ k.realm = m.realm ∧ k.before = m.collected.heap ∧ k.bindings = sc.object ∧
      k.Begins t.closure.function body sc m₂ := by
  obtain ⟨task, r, hasks, hframes₁⟩ :=
    advance_asksBody hhost hk hn hp hframes hbase htask hinput hunbound hplain hcall hopened
  obtain ⟨outer, s, sc, Γ, a, l, slots, node, options, hstep, hnode, houter, hparent, hstrict, hb⟩ := hasks
  cases hstep
  obtain rfl := hnode body hbody
  obtain ⟨hs, hk', hkept⟩ := m₁.shrinks_collected hb.kept
  have hframe : f.ofRequest ⟨.function, .statements body, s, options⟩ ∈ m₁.frames.items := by
    rw [hframes₁, Stack.items_push]
    exact List.mem_cons_self ..
  have hscope : s.handle ∈ m₁.handles := List.mem_append_right _ (List.mem_flatMap.mpr
    ⟨_, hframe, List.mem_append_left _ (List.mem_append_left _ (List.mem_cons_self ..))⟩)
  have hb' := hb.shrunk hs hk' (hkept _ hscope)
  obtain ⟨task', r', ⟨⟨first, rest, rfl, rfl⟩, hbegins⟩, -, hframes₂⟩ :=
    advance_opens hhost hframes₁ (Nat.le_succ_of_le hbase) rfl (fun m' _ => Task.gives_start_body hb' options) hstart hreached
  exact ⟨first, rest, _, sc, outer, _, _, rfl, hframes₂, rfl, rfl, (m.shrinks_collected hk).1.scope houter, hparent,
    hstrict, rfl, rfl, rfl, rfl, rfl, hbegins m₂ rfl⟩

end Reaching

/-! ### Machines that hosts reach -/

namespace Heap

variable {α : Type} {p : Proc Heap α} {names : CommonNames}

/-- A routine takes no string away. -/
theorem Routine.keeps_text {K : ObjectKind → Prop} (hp : Routine K p) (r : StringRef) (u : Text) :
    Proc.Keeps (fun h => h.Valid ∧ h.text r = .ok u) p := by
  refine hp.keeps_filled (fun h b id h' hu hf => hf.text hu) fun h id b b' hu hb hover => ?_
  have hsame : h.SameBut id b' (h.put id b') := block?_put (Option.isSome_of_eq_some hb) _
  rw [hsame.text (fun t ht => ?_) (fun t ht => ?_), hu]
  · cases hb.symm.trans ht
    cases hover
  · subst ht
    cases hover

/-- Names that are spelled stay spelled. -/
theorem gives_spelled (hp : Routine (fun _ => True) p) (hh : h.WellKept ∧ names.Spelled h) :
    h.Gives p fun h' _ => h'.WellKept ∧ names.Spelled h' := by
  intro x h' hdone
  have hkeep : ∀ {key : PropertyKey} {name : String}, h.Spells key name → h'.Spells key name := fun hs =>
    hs.of_texts fun r u _ hu => ((hp.keeps_text r u).of_done hdone ⟨hh.1.valid, hu⟩).2
  exact ⟨hp.keeps_wellKept hh.1 hdone, hkeep hh.2.length, hkeep hh.2.callee, hkeep hh.2.arguments⟩

theorem gives_internNames (hk : h.WellKept) : h.Gives CommonNames.intern fun h' n => h'.WellKept ∧ n.Spelled h' := by
  have hname : ∀ (name : String) {h : Heap}, h.WellKept → h.Gives (keyOfName name) fun h' key =>
      h'.WellKept ∧ Untouched h h' ∧ h'.Spells key name := fun name _ hk key h' hdone => by
    obtain ⟨hk', hi, hspells⟩ := keyOfName_names hk hdone
    exact ⟨hk', hi.untouched, hspells⟩
  unfold CommonNames.intern
  refine (hname _ hk).bind fun h₁ length hn₁ => ?_
  obtain ⟨hk₁, -, hlength⟩ := hn₁
  refine (hname _ hk₁).bind fun h₂ prototype hn₂ => ?_
  obtain ⟨hk₂, ht₂, -⟩ := hn₂
  refine (hname _ hk₂).bind fun h₃ name hn₃ => ?_
  obtain ⟨hk₃, ht₃, -⟩ := hn₃
  refine (hname _ hk₃).bind fun h₄ message hn₄ => ?_
  obtain ⟨hk₄, ht₄, -⟩ := hn₄
  refine (hname _ hk₄).bind fun h₅ callee hn₅ => ?_
  obtain ⟨hk₅, ht₅, hcallee⟩ := hn₅
  refine (hname _ hk₅).bind fun h₆ arguments hn₆ => ?_
  obtain ⟨hk₆, ht₆, harguments⟩ := hn₆
  refine (hname _ hk₆).bind fun h₇ valueOf hn₇ => ?_
  obtain ⟨hk₇, ht₇, -⟩ := hn₇
  refine (hname _ hk₇).bind fun h₈ toString hn₈ => ?_
  obtain ⟨hk₈, ht₈, -⟩ := hn₈
  have hlength := ht₅.spells (ht₄.spells (ht₃.spells (ht₂.spells hlength)))
  exact .pure ⟨hk₈, ht₈.spells (ht₇.spells (ht₆.spells hlength)), ht₈.spells (ht₇.spells (ht₆.spells hcallee)),
    ht₈.spells (ht₇.spells harguments)⟩

/-- The names of a new realm are spelled. -/
theorem gives_createRealm (hk : h.WellKept) (sloppy : Bool) :
    h.Gives (Realm.create sloppy) fun h' R => h'.WellKept ∧ R.names.Spelled h' := by
  have hconstant : ∀ global name v, Routine (fun _ => True) (Realm.defineConstant global name v) := fun _ _ _ =>
    .bind (routine_keyOfName _) fun _ => .discard (routine_define _ _ _)
  unfold Realm.create
  refine (gives_internNames hk).bind fun _ names hh => ?_
  refine (gives_spelled (routine_allocObject _ _ trivial) hh).bind fun _ object hh => ?_
  refine (gives_spelled (routine_allocObject _ _ trivial) hh).bind fun _ function hh => ?_
  refine (gives_spelled (routine_allocObject _ _ trivial) hh).bind fun _ array hh => ?_
  refine (gives_spelled (routine_allocObject _ _ trivial) hh).bind fun _ string hh => ?_
  refine (gives_spelled (routine_allocObject _ _ trivial) hh).bind fun _ number hh => ?_
  refine (gives_spelled (routine_allocObject _ _ trivial) hh).bind fun _ boolean hh => ?_
  refine (gives_spelled (routine_allocObject _ _ trivial) hh).bind fun _ error hh => ?_
  refine (gives_spelled (routine_allocCell _) hh).bind fun _ length hh => ?_
  refine (gives_spelled (routine_installCell _ _ _) hh).bind fun _ _ hh => ?_
  refine (gives_spelled (.intern _) hh).bind fun _ errorName hh => ?_
  refine (gives_spelled (routine_define _ _ _) hh).discard_bind fun _ _ hh => ?_
  refine (gives_spelled (.intern _) hh).bind fun _ noText hh => ?_
  refine (gives_spelled (routine_define _ _ _) hh).discard_bind fun _ _ hh => ?_
  refine (gives_spelled (routine_allocObject _ _ trivial) hh).bind fun _ global hh => ?_
  refine (gives_spelled (routine_keyOfName _) hh).bind fun _ globalThis hh => ?_
  refine (gives_spelled (routine_define _ _ _) hh).discard_bind fun _ _ hh => ?_
  refine (gives_spelled (hconstant _ _ _) hh).bind fun _ _ hh => ?_
  refine (gives_spelled (hconstant _ _ _) hh).bind fun _ _ hh => ?_
  refine (gives_spelled (hconstant _ _ _) hh).bind fun _ _ hh => ?_
  exact (gives_spelled (routine_allocScope _) hh).bind fun _ scope hh => .pure hh

end Heap

/-- Acts and collections leave the names of the realm spelled. -/
theorem World.Comes.spelled {S : Setting} {w w' : World} (hcomes : w.Comes S w') (hw : w.Lawful S)
    (hn : S.realm.names.Spelled w.heap) : S.realm.names.Spelled w'.heap := by
  induction hcomes with
  | refl => exact hn
  | act _ ha ih =>
    have hstays := ha.stays
    exact ⟨hstays.spells ih.length, hstays.spells ih.callee, hstays.spells ih.arguments⟩
  | swept hcomes reported hrealm ih =>
    have hv := (hcomes.lawful hw).heap.valid
    exact ih.shrunk fun x hx => Heap.retains_collect hv (hrealm x hx)

/-- **Every machine that a host reaches from a new one** is as a call needs it. -/
theorem Machine.spelled_create {limits : HeapLimits} {options : MonitorOptions} {now : Nat} {sloppy : Bool}
    (hnew : Machine.create limits options now sloppy = .ok m) : m.heap.WellKept ∧ m.realm.names.Spelled m.heap := by
  obtain ⟨R, h, hcreate, rfl⟩ := create_eq_ok hnew
  exact Heap.gives_createRealm ⟨Heap.valid_empty limits, Nat.zero_le _⟩ sloppy R h hcreate

theorem Machine.Comes.spelled {forbids : String → Prop} {limits : HeapLimits} {options : MonitorOptions} {now : Nat}
    {sloppy : Bool} (hhost : host.BySyntax) (hnew : Machine.create limits options now sloppy = .ok m)
    (hcomes : m.Comes host forbids m₁) : m₁.heap.WellKept ∧ m₁.realm.names.Spelled m₁.heap := by
  obtain ⟨w, hw, hm⟩ := hcomes.recounts (S := ⟨m.realm, forbids⟩) hhost (Machine.recounts_create hnew forbids)
  have hn := (Machine.spelled_create hnew).2
  rw [hm.heap, hm.realm]
  exact ⟨⟨hm.lawful.heap.valid, hm.lawful.heap.numbered⟩, hw.spelled (Machine.recounts_create hnew forbids).lawful hn⟩

/-! ### A function that hides a parameter -/

/-- A program that calls a function whose body declares a function with the name of its second parameter. -/
def hidingParameter : List Stmt :=
  [.function (.ofBody (some "f") [.simple "a" none, .simple "b" none, .rest "r"]
      (.block [.function (.ofBody (some "b") [] (.block [])), .expr (.ident "b")])),
    .expr (.call (.ident "f") [.bool true])]

/-- The function is that of the program. -/
def Function.hidesParameter (f : Function) : Bool :=
  match f.params, f.body with
  | [.simple a none, .simple b none, .rest r], .block [.function g, .expr _] =>
    a = "a" && b = "b" && r = "r" && decide (g.name = some "b")
  | _, _ => false

theorem Function.of_hidesParameter {f : Function} (hf : f.hidesParameter = true) : ∃ g e,
    f.params = [.simple "a" none, .simple "b" none, .rest "r"] ∧ f.body = .block [.function g, .expr e] ∧
      g.name = some "b" := by
  unfold hidesParameter at hf
  split at hf
  · next a b r g e hparams hbody =>
    simp only [Bool.and_eq_true, decide_eq_true_eq] at hf
    obtain ⟨⟨⟨rfl, rfl⟩, rfl⟩, hname⟩ := hf
    exact ⟨g, e, hparams, hbody, hname⟩
  · cases hf

/-- The call that starts next. -/
def Machine.startingCall? (m : Machine) : Option InvocationTask :=
  match m.frames.top? with
  | some ⟨.invocation t, _, _, _, _, .start⟩ => some t
  | _ => none

theorem Machine.startingCall?_eq_some (hm : m.startingCall? = some t) : ∃ (s : Stack Frame) (f : Frame),
    m.frames = s.push f ∧ f.task = .invocation t ∧ f.input = .start := by
  unfold startingCall? at hm
  split at hm
  · next t' _ _ _ _ htop =>
    cases hm
    have hsize : 0 < m.frames.size := by
      rw [m.frames.size_eq]
      refine List.length_pos_iff.mpr fun hnil => ?_
      unfold Stack.top? at htop
      rw [hnil] at htop
      cases htop
    obtain ⟨s, f, hframes⟩ := Stack.exists_push hsize
    rw [hframes, Stack.top?_push] at htop
    cases htop
    exact ⟨s, _, hframes, rfl, rfl⟩
  · cases hm

/-- The object prototype has no properties and inherits from nothing. -/
def Machine.plainPrototype (m : Machine) : Bool :=
  match m.heap.object m.realm.objectPrototype with
  | .ok obj => obj.prototype.isNone && obj.properties.recent.isEmpty
  | .error _ => false

theorem Machine.plainIndices_of_plainPrototype (hm : m.plainPrototype = true) : m.heap.PlainIndices m.realm := by
  unfold plainPrototype at hm
  split at hm
  · next obj ho =>
    obtain ⟨hprototype, hempty⟩ := Bool.and_eq_true_iff.mp hm
    refine ⟨[m.realm.objectPrototype], .cons (Heap.prototype_eq_ok.mpr ⟨obj, ho, Option.isNone_iff_eq_none.mp hprototype⟩)
      .nil, fun q hq i c hr => ?_⟩
    obtain rfl := List.mem_singleton.mp hq
    have hfind := hr.find? ho
    rw [PropertyMap.find?, PropertyMap.index_eq, List.isEmpty_iff.mp hempty] at hfind
    cases hfind
  · cases hm

/-- The next boundary is the start of the call of the program. -/
def Machine.startsHiding (m : Machine) : Bool :=
  match m.startingCall? with
  | some t => t.closure.boundScope.isNone && decide (t.args = [.bool true]) && t.closure.function.hidesParameter &&
    m.plainPrototype
  | none => false

theorem advance_of_crossings (hm : crossings host E base 1 m = some m₁) : advance host E base m = .done .going m₁ := by
  unfold crossings at hm
  cases hrun : advance host E base m with
  | stalled => rw [hrun] at hm; cases hm
  | failed e m' => rw [hrun] at hm; cases hm
  | done r m' =>
    rw [hrun] at hm
    cases r with
    | finished o => cases hm
    | going => cases hm; rfl

/-- The first parameter reads the argument, and the name of the second one the function that hides it. -/
theorem names_at_body_hidden : ∃ (m : Machine) (k : Activation) (f : Function) (body : List Stmt) (sc : Scope)
    (g : Function) (o : ObjectRef), k.Begins f body sc m ∧ m.Reads k.scope "a" (.bool true) ∧
      m.heap.ClosureOf o g k.scope ∧ m.Reads k.scope "b" (.object o) := by
  have hruns : ((openedProgram .standard hidingParameter).bind fun m₀ =>
      (crossings (Host.plain []) ((Host.plain []).engine 1) 0 9 m₀).bind fun m =>
        (crossings (Host.plain []) ((Host.plain []).engine 1) 0 1 m).bind fun m₁ =>
          (crossings (Host.plain []) ((Host.plain []).engine 1) 0 1 m₁).map fun m₂ =>
            m.startsHiding && decide (m₁.frames.size = m.frames.size + 1) &&
              decide (m₂.frames.size = m₁.frames.size + 1)) = some true := by decide +kernel
  obtain ⟨m₀, hopened, hruns⟩ := Option.bind_eq_some_iff.mp hruns
  obtain ⟨m, hcrossed, hruns⟩ := Option.bind_eq_some_iff.mp hruns
  obtain ⟨m₁, hcall, hruns⟩ := Option.bind_eq_some_iff.mp hruns
  obtain ⟨m₂, hstart, hruns⟩ := Option.map_eq_some_iff.mp hruns
  simp only [Bool.and_eq_true, decide_eq_true_eq] at hruns
  obtain ⟨⟨hstarts, hasked⟩, hreached⟩ := hruns
  obtain ⟨n, hnew, hcomes⟩ : ∃ n, Machine.create .standard {} 0 true = .ok n ∧
      n.Comes (Host.plain []) (fun _ => False) m₀ := Machine.comes_openedProgram hopened fun _ _ _ _ h => h
  obtain ⟨hk, hn⟩ := (hcomes.crossed_times 9 hcrossed).spelled (Host.bySyntax_plain []) hnew
  unfold Machine.startsHiding at hstarts
  split at hstarts
  · next t hcalled =>
    simp only [Bool.and_eq_true, decide_eq_true_eq] at hstarts
    obtain ⟨⟨⟨hunbound, hargs⟩, hf⟩, hplain⟩ := hstarts
    obtain ⟨s, f, hframes, htask, hinput⟩ := Machine.startingCall?_eq_some hcalled
    obtain ⟨g, e, hparams, hbody, hname⟩ := Function.of_hidesParameter hf
    have hsimple : ∀ p ∈ t.closure.function.params, p.IsPlain := by
      rw [hparams]
      simp [Param.IsPlain]
    obtain ⟨first, rest, k, sc, outer, _, _, -, -, -, -, -, -, -, -, hk', -, -, -, hbegins⟩ :=
      names_at_body (Host.bySyntax_plain []) hk hn (Machine.plainIndices_of_plainPrototype hplain) hframes (Nat.zero_le _)
        htask hinput (Option.isNone_iff_eq_none.mp hunbound) hsimple hbody (advance_of_crossings hcall) hasked
        (advance_of_crossings hstart) hreached
    have ha : t.closure.function.initially [.function g, .expr e] sc.strict "a" = some (.argument 0) := by
      simp [Function.initially, Function.atBody, hparams, declaredFunction, hname, paramInitial]
    have hb : t.closure.function.initially [.function g, .expr e] sc.strict "b" = some (.function g) := by
      simp [Function.initially, declaredFunction, hname]
    obtain ⟨v, hv, hreads⟩ := hbegins.named "a" _ ha
    obtain ⟨w, ⟨o, rfl, ho⟩, hreads'⟩ := hbegins.named "b" _ hb
    obtain rfl : v = .bool true := by
      rw [show v = argumentAt k.args 0 from hv, hk', hargs]
      rfl
    exact ⟨m₂, k, _, _, sc, g, o, hbegins, hreads, ho, hreads'⟩
  · cases hstarts

end ScriptCore
