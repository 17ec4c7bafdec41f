import ScriptCore.Proofs.Renaming.Basic

/-! # Which data are alike

The types of values, blocks, completions, requests, tasks and frames, one after the other, with the
references in them. Four things are alike to nothing: a native function, a pair of accessors, a task
whose outcome is fixed beforehand, and an error that says that the machine itself went wrong. Programs
make none of them, so data that are alike hold none.

* `Block.handles_eq`, `Frame.handles_eq`, `Realm.handles_eq`: the handles that a collection traces are
  those of the references. -/

namespace ScriptCore

open Renamable (via transfer paired)

variable {ρ ρ' : Renaming}

/-! ### Values and keys -/

namespace Value

/-- The same kind of value, with paired handles. -/
inductive Alike (ρ : Renaming) : Value → Value → Prop where
  | undefined : Alike ρ .undefined .undefined
  | null : Alike ρ .null .null
  | bool (b : Bool) : Alike ρ (.bool b) (.bool b)
  | number (x : Float) : Alike ρ (.number x) (.number x)
  | string {s t : StringRef} (h : Renamable.Alike ρ s t) : Alike ρ (.string s) (.string t)
  | object {o p : ObjectRef} (h : Renamable.Alike ρ o p) : Alike ρ (.object o) (.object p)

instance : Renamable Value where
  refs
    | .string s => refs s
    | .object o => refs o
    | _ => []
  Alike := Alike
  transfer h hr := by
    cases h with
    | string h => exact .string (transfer h hr)
    | object h => exact .object (transfer h hr)
    | undefined => exact .undefined
    | null => exact .null
    | bool b => exact .bool b
    | number x => exact .number x
  paired h := by
    cases h with
    | string h => exact paired h
    | object h => exact paired h
    | _ => exact .nil

end Value

namespace PropertyKey

/-- The same index, or strings with paired handles. -/
inductive Alike (ρ : Renaming) : PropertyKey → PropertyKey → Prop where
  | string {s t : StringRef} (h : Renamable.Alike ρ s t) : Alike ρ (.string s) (.string t)
  | index (i : UInt32) : Alike ρ (.index i) (.index i)

instance : Renamable PropertyKey where
  refs
    | .string s => refs s
    | .index _ => []
  Alike := Alike
  transfer h hr := by
    cases h with
    | string h => exact .string (transfer h hr)
    | index i => exact .index i
  paired h := by
    cases h with
    | string h => exact paired h
    | index i => exact .nil

end PropertyKey

/-! ### Blocks -/

/-- Stored values that are alike; accessors are alike to nothing. -/
inductive Slotted.Alike (ρ : Renaming) : Slotted → Slotted → Prop where
  | data {v w : Value} (h : Renamable.Alike ρ v w) (writable : Bool) :
      Alike ρ (.data v writable) (.data w writable)

instance : Renamable Slotted where
  refs
    | .data v _ => refs v
    | .accessor g s => refs (g, s)
  Alike := Slotted.Alike
  transfer h hr := by
    cases h with
    | data h w => exact .data (transfer h hr) w
  paired h := by
    cases h with
    | data h w => exact paired h

instance : Renamable Descriptor :=
  via fun d => (d.content, Plain.mk d.enumerable, Plain.mk d.configurable, Plain.mk d.isVariable)

instance : Renamable Closure :=
  via fun c => (c.scope, c.boundScope, c.receiver, Plain.mk c.function, Plain.mk c.returnLastValue)

/-- Objects of the same kind; natives are alike to nothing. -/
inductive ObjectKind.Alike (ρ : Renaming) : ObjectKind → ObjectKind → Prop where
  | ordinary : Alike ρ .ordinary .ordinary
  | array : Alike ρ .array .array
  | closure {c d : Closure} (h : Renamable.Alike ρ c d) : Alike ρ (.closure c) (.closure d)

instance : Renamable ObjectKind where
  refs
    | .closure c => refs c
    | _ => []
  Alike := ObjectKind.Alike
  transfer h hr := by
    cases h with
    | ordinary => exact .ordinary
    | array => exact .array
    | closure h => exact .closure (transfer h hr)
  paired h := by
    cases h with
    | closure h => exact paired h
    | _ => exact .nil

instance : Renamable PropertyMap := via PropertyMap.recent

instance : Renamable Object :=
  via fun o => (o.prototype, o.properties, o.kind, Plain.mk o.tag, Plain.mk o.extensible)

instance : Renamable Scope :=
  via fun s => (s.object, s.parent, s.receiver, s.writeTo, Plain.mk s.strict)

theorem Descriptor.alike_iff {d e : Descriptor} :
    Alike ρ d e ↔ Alike ρ d.content e.content ∧ d.enumerable = e.enumerable ∧
      d.configurable = e.configurable ∧ d.isVariable = e.isVariable := Iff.rfl

theorem Closure.alike_iff {c d : Closure} :
    Alike ρ c d ↔ Alike ρ c.scope d.scope ∧ Alike ρ c.boundScope d.boundScope ∧
      Alike ρ c.receiver d.receiver ∧ c.function = d.function ∧
      c.returnLastValue = d.returnLastValue := Iff.rfl

theorem Object.alike_iff {o p : Object} :
    Alike ρ o p ↔ Alike ρ o.prototype p.prototype ∧ Alike ρ o.properties p.properties ∧
      Alike ρ o.kind p.kind ∧ o.tag = p.tag ∧ o.extensible = p.extensible := Iff.rfl

theorem Scope.alike_iff {s t : Scope} :
    Alike ρ s t ↔ Alike ρ s.object t.object ∧ Alike ρ s.parent t.parent ∧
      Alike ρ s.receiver t.receiver ∧ Alike ρ s.writeTo t.writeTo ∧ s.strict = t.strict := Iff.rfl

section Descriptors

variable {v w : Value} {d e : Descriptor}

theorem Descriptor.alike_data (h : Alike ρ v w) : Alike ρ (Descriptor.data v) (.data w) :=
  ⟨.data h true, rfl, rfl, rfl⟩

theorem Descriptor.alike_hidden (h : Alike ρ v w) : Alike ρ (Descriptor.hidden v) (.hidden w) :=
  ⟨.data h true, rfl, rfl, rfl⟩

theorem Descriptor.alike_declared (h : Alike ρ v w) : Alike ρ (Descriptor.declared v) (.declared w) :=
  ⟨.data h true, rfl, rfl, rfl⟩

theorem Descriptor.alike_readonly (h : Alike ρ d e) : Alike ρ d.readonly e.readonly := by
  obtain ⟨hc, h1, h2, h3⟩ := Descriptor.alike_iff.mp h
  obtain ⟨_, _, _, c⟩ := d
  obtain ⟨_, _, _, c'⟩ := e
  cases hc with
  | data hv _ => exact ⟨.data hv false, h1, h2, h3⟩

theorem Descriptor.alike_nonConfigurable (h : Alike ρ d e) :
    Alike ρ d.nonConfigurable e.nonConfigurable :=
  ⟨h.1, h.2.1, rfl, h.2.2.2⟩

end Descriptors

/-- Blocks of the same kind that are alike. -/
inductive Block.Alike (ρ : Renaming) : Block → Block → Prop where
  | string (t : Text) : Alike ρ (.string t) (.string t)
  | object {o p : Object} (h : Renamable.Alike ρ o p) : Alike ρ (.object o) (.object p)
  | scope {s t : Scope} (h : Renamable.Alike ρ s t) : Alike ρ (.scope s) (.scope t)
  | cell {d e : Descriptor} (h : Renamable.Alike ρ d e) : Alike ρ (.cell d) (.cell e)

instance : Renamable Block where
  refs
    | .string _ => []
    | .object o => refs o
    | .scope s => refs s
    | .cell d => refs d
  Alike := Block.Alike
  transfer h hr := by
    cases h with
    | string t => exact .string t
    | object h => exact .object (transfer h hr)
    | scope h => exact .scope (transfer h hr)
    | cell h => exact .cell (transfer h hr)
  paired h := by
    cases h with
    | string t => exact .nil
    | object h => exact paired h
    | scope h => exact paired h
    | cell h => exact paired h

/-- What a block is. -/
def Block.kind : Block → Kind
  | .string _ => .string
  | .object _ => .object
  | .scope _ => .scope
  | .cell _ => .cell

/-! ### Completions and errors -/

/-- The same way of completing, with values that are alike. -/
inductive Completion.Alike (ρ : Renaming) : Completion → Completion → Prop where
  | normal {v w : Option Value} (h : Renamable.Alike ρ v w) : Alike ρ (.normal v) (.normal w)
  | thrown {v w : Value} (h : Renamable.Alike ρ v w) : Alike ρ (.thrown v) (.thrown w)
  | returned {v w : Value} (h : Renamable.Alike ρ v w) : Alike ρ (.returned v) (.returned w)
  | broken (label : Option String) {v w : Option Value} (h : Renamable.Alike ρ v w) :
      Alike ρ (.broken label v) (.broken label w)
  | continued (label : Option String) {v w : Option Value} (h : Renamable.Alike ρ v w) :
      Alike ρ (.continued label v) (.continued label w)

instance : Renamable Completion where
  refs
    | .normal v | .broken _ v | .continued _ v => refs v
    | .thrown v | .returned v => refs v
  Alike := Completion.Alike
  transfer h hr := by
    cases h with
    | normal h => exact .normal (transfer h hr)
    | thrown h => exact .thrown (transfer h hr)
    | returned h => exact .returned (transfer h hr)
    | broken l h => exact .broken l (transfer h hr)
    | continued l h => exact .continued l (transfer h hr)
  paired h := by cases h <;> exact paired ‹_›

/-- The error says that the machine itself went wrong: a handle that does not resolve, or frames
driven out of order. -/
def Error.isInternal : Error → Bool
  | .invalidHandle | .driverState _ => true
  | _ => false

/-- Thrown values that are alike, or the same error without a value, which is not internal. -/
inductive Error.Alike (ρ : Renaming) : Error → Error → Prop where
  | throw {v w : Value} (h : Renamable.Alike ρ v w) : Alike ρ (.throw v) (.throw w)
  | same {e : Error} (hi : e.isInternal = false) (ht : ∀ v, e ≠ .throw v) : Alike ρ e e

instance : Renamable Error where
  refs
    | .throw v => refs v
    | _ => []
  Alike := Error.Alike
  transfer h hr := by
    cases h with
    | throw h => exact .throw (transfer h hr)
    | same hi ht => exact .same hi ht
  paired {ρ a b} h := by
    cases h with
    | throw h => exact paired h
    | same hi ht =>
      cases a <;> first | exact absurd rfl (ht _) | exact .nil

/-- Both succeed with results that are alike, or both fail with errors that are. -/
inductive ExceptAlike {α : Type} [Renamable α] (ρ : Renaming) :
    Except Error α → Except Error α → Prop where
  | ok {a b : α} (h : Renamable.Alike ρ a b) : ExceptAlike ρ (.ok a) (.ok b)
  | error {e e' : Error} (h : Renamable.Alike ρ e e') : ExceptAlike ρ (.error e) (.error e')

instance {α : Type} [Renamable α] : Renamable (Except Error α) where
  refs
    | .ok a => refs a
    | .error e => refs e
  Alike := ExceptAlike
  transfer h hr := by
    cases h with
    | ok h => exact .ok (transfer h hr)
    | error h => exact .error (transfer h hr)
  paired h := by cases h <;> exact paired ‹_›

/-! ### Requests -/

instance : Renamable BranchOptions :=
  via fun o => (o.creator, o.callee, Plain.mk o.returnLastValue, Plain.mk o.profileName,
    Plain.mk o.yieldPower)

instance : Renamable BranchInfo := via fun i => (i.options, Plain.mk i.kind)

instance : Renamable BranchRequest :=
  via fun r => (r.scope, r.options, Plain.mk r.kind, Plain.mk r.node)

instance : Renamable CallExtra := via fun x => (x.callee, Plain.mk x.profileName)

instance : Renamable CallRequest :=
  via fun r => (r.callee, r.receiver, r.args, r.scope, r.extra)

/-- Requests of the same kind that are alike. -/
inductive Suspension.Alike (ρ : Renaming) : Suspension → Suspension → Prop where
  | branch {r s : BranchRequest} (h : Renamable.Alike ρ r s) : Alike ρ (.branch r) (.branch s)
  | call {r s : CallRequest} (h : Renamable.Alike ρ r s) : Alike ρ (.call r) (.call s)

instance : Renamable Suspension where
  refs
    | .branch r => refs r
    | .call r => refs r
  Alike := Suspension.Alike
  transfer h hr := by
    cases h with
    | branch h => exact .branch (transfer h hr)
    | call h => exact .call (transfer h hr)
  paired h := by cases h <;> exact paired ‹_›

/-- Both finished alike, or both ask for something alike. -/
inductive Step.Alike (ρ : Renaming) : Step → Step → Prop where
  | finished {c d : Completion} (h : Renamable.Alike ρ c d) : Alike ρ (.finished c) (.finished d)
  | suspended {s t : Suspension} (h : Renamable.Alike ρ s t) : Alike ρ (.suspended s) (.suspended t)

instance : Renamable Step where
  refs
    | .finished c => refs c
    | .suspended s => refs s
  Alike := Step.Alike
  transfer h hr := by
    cases h with
    | finished h => exact .finished (transfer h hr)
    | suspended h => exact .suspended (transfer h hr)
  paired h := by cases h <;> exact paired ‹_›

/-! ### Tasks and frames -/

instance : Renamable StatementsTask :=
  via fun t => (t.scope, t.options, t.last, Plain.mk t.kind, Plain.mk t.statements, Plain.mk t.rest)

instance : Renamable StatementTask :=
  via fun t => (t.scope, t.last, Plain.mk t.stmt, Plain.mk t.state)

instance : Renamable ExpressionTask :=
  via fun t => (t.scope, t.values, t.callee, t.receiver, Plain.mk t.expr, Plain.mk t.pending,
    Plain.mk t.phase)

instance : Renamable InvocationTask :=
  via fun t => (t.callee, t.closure, t.receiver, t.args, t.callerScope, t.extra, t.scope, t.argCells,
    Plain.mk t.state, Plain.mk t.strict)

/-- Tasks of the same kind; a task whose outcome is fixed is alike to nothing. -/
inductive Task.Alike (ρ : Renaming) : Task → Task → Prop where
  | statements {s t : StatementsTask} (h : Renamable.Alike ρ s t) :
      Alike ρ (.statements s) (.statements t)
  | statement {s t : StatementTask} (h : Renamable.Alike ρ s t) :
      Alike ρ (.statement s) (.statement t)
  | expression {s t : ExpressionTask} (h : Renamable.Alike ρ s t) :
      Alike ρ (.expression s) (.expression t)
  | invocation {s t : InvocationTask} (h : Renamable.Alike ρ s t) :
      Alike ρ (.invocation s) (.invocation t)

instance : Renamable Task where
  refs
    | .statements t => refs t
    | .statement t => refs t
    | .expression t => refs t
    | .invocation t => refs t
    | .settled o => refs o
  Alike := Task.Alike
  transfer h hr := by
    cases h with
    | statements h => exact .statements (transfer h hr)
    | statement h => exact .statement (transfer h hr)
    | expression h => exact .expression (transfer h hr)
    | invocation h => exact .invocation (transfer h hr)
  paired h := by cases h <;> exact paired ‹_›

/-- The same kind of input, with outcomes that are alike. -/
inductive Input.Alike (ρ : Renaming) : Input → Input → Prop where
  | start : Alike ρ .start .start
  | deliver {o o' : Except Error Completion} (h : Renamable.Alike ρ o o') :
      Alike ρ (.deliver o) (.deliver o')
  | fail {e e' : Error} (h : Renamable.Alike ρ e e') : Alike ρ (.fail e) (.fail e')
  | waiting : Alike ρ .waiting .waiting

instance : Renamable Input where
  refs
    | .deliver o => refs o
    | .fail e => refs e
    | .start | .waiting => []
  Alike := Input.Alike
  transfer h hr := by
    cases h with
    | start => exact .start
    | deliver h => exact .deliver (transfer h hr)
    | fail h => exact .fail (transfer h hr)
    | waiting => exact .waiting
  paired h := by
    cases h with
    | deliver h => exact paired h
    | fail h => exact paired h
    | _ => exact .nil

instance : Renamable Frame :=
  via fun f => (f.task, f.info, f.input, Plain.mk f.depth, Plain.mk f.quiet, Plain.mk f.isCall)

/-! ### The realm -/

instance : Renamable CommonNames :=
  via fun n => (n.length, n.prototype, n.name, n.message, n.callee, n.arguments, n.valueOf, n.toString)

instance : Renamable Realm :=
  via fun r => (r.globalScope, r.globalObject, r.objectPrototype, r.functionPrototype,
    r.arrayPrototype, r.stringPrototype, r.numberPrototype, r.booleanPrototype, r.errorPrototype,
    r.names, Plain.mk r.sloppyThisIsGlobal)

theorem CommonNames.alike_iff {n m : CommonNames} :
    Alike ρ n m ↔ Alike ρ n.length m.length ∧ Alike ρ n.prototype m.prototype ∧
      Alike ρ n.name m.name ∧ Alike ρ n.message m.message ∧ Alike ρ n.callee m.callee ∧
      Alike ρ n.arguments m.arguments ∧ Alike ρ n.valueOf m.valueOf ∧
      Alike ρ n.toString m.toString := Iff.rfl

theorem Realm.alike_iff {r s : Realm} :
    Alike ρ r s ↔ Alike ρ r.globalScope s.globalScope ∧ Alike ρ r.globalObject s.globalObject ∧
      Alike ρ r.objectPrototype s.objectPrototype ∧ Alike ρ r.functionPrototype s.functionPrototype ∧
      Alike ρ r.arrayPrototype s.arrayPrototype ∧ Alike ρ r.stringPrototype s.stringPrototype ∧
      Alike ρ r.numberPrototype s.numberPrototype ∧ Alike ρ r.booleanPrototype s.booleanPrototype ∧
      Alike ρ r.errorPrototype s.errorPrototype ∧ Alike ρ r.names s.names ∧
      r.sloppyThisIsGlobal = s.sloppyThisIsGlobal := Iff.rfl

/-! ### What a collection traces -/

theorem Value.handles_eq (v : Value) : v.handles = (refs v).map Ref.handle := by cases v <;> rfl

theorem PropertyKey.handles_eq (k : PropertyKey) : k.handles = (refs k).map Ref.handle := by
  cases k <;> rfl

theorem handlesOfOption_eq (v : Option Value) : handlesOfOption v = (refs v).map Ref.handle := by
  cases v with
  | none => rfl
  | some v => exact v.handles_eq

theorem flatMap_handles_eq (vs : List Value) :
    vs.flatMap Value.handles = (refs vs).map Ref.handle := by
  simp only [refs_list, List.map_flatMap, ← Value.handles_eq]

theorem Closure.handles_eq (c : Closure) : c.handles = (refs c).map Ref.handle := by
  obtain ⟨f, s, b, r, l⟩ := c
  show _ = (refs (s, b, r, Plain.mk f, Plain.mk l)).map Ref.handle
  cases b <;> cases r <;> simp [Closure.handles, Value.handles_eq]

theorem Object.handles_eq (o : Object) : o.handles = (refs o).map Ref.handle := by
  obtain ⟨p, t, x, m, k⟩ := o
  have hm : m.recent.flatMap (fun e => e.1.handles ++ [e.2.handle]) =
      (refs m.recent).map Ref.handle := by
    rw [refs_list, List.map_flatMap]
    congr 1
    funext e
    obtain ⟨key, c⟩ := e
    simp [PropertyKey.handles_eq]
  show _ = (refs (p, m.recent, k, Plain.mk t, Plain.mk x)).map Ref.handle
  have hk : ∀ c, refs (ObjectKind.closure c) = refs c := fun c => rfl
  cases p <;> cases k <;> simp [Object.handles, hm, hk, Closure.handles_eq] <;> rfl

theorem Scope.handles_eq (s : Scope) : s.handles = (refs s).map Ref.handle := by
  obtain ⟨o, p, r, w, x⟩ := s
  show _ = (refs (o, p, r, w, Plain.mk x)).map Ref.handle
  cases p <;> cases w <;> simp [Scope.handles, Value.handles_eq]

theorem Descriptor.handles_eq (d : Descriptor) : d.handles = (refs d).map Ref.handle := by
  obtain ⟨e, c, v, content⟩ := d
  show _ = (refs (content, Plain.mk e, Plain.mk c, Plain.mk v)).map Ref.handle
  cases content with
  | data v w => simp [Descriptor.handles, Value.handles_eq]; rfl
  | accessor g s =>
    simp only [Descriptor.handles, Value.handles_eq]
    show _ = (refs (g, s) ++ []).map Ref.handle
    simp

/-- **A block refers to what it is traced by.** -/
theorem Block.handles_eq (b : Block) : b.handles = (refs b).map Ref.handle := by
  cases b with
  | string t => rfl
  | object o => exact o.handles_eq
  | scope s => exact s.handles_eq
  | cell d => exact d.handles_eq

theorem Completion.handles_eq (c : Completion) : c.handles = (refs c).map Ref.handle := by
  cases c with
  | normal v | broken _ v | continued _ v => exact handlesOfOption_eq v
  | thrown v | returned v => exact v.handles_eq

theorem Error.handles_eq (e : Error) : e.handles = (refs e).map Ref.handle := by
  cases e with
  | throw v => exact v.handles_eq
  | _ => rfl

theorem Input.handles_eq (i : Input) : i.handles = (refs i).map Ref.handle := by
  cases i with
  | deliver o =>
    cases o with
    | ok c => exact c.handles_eq
    | error e => exact e.handles_eq
  | fail e => exact e.handles_eq
  | _ => rfl

theorem BranchOptions.handles_eq (o : BranchOptions) : o.handles = (refs o).map Ref.handle := by
  obtain ⟨l, c, p, v, y⟩ := o
  show _ = (refs (c, v, Plain.mk l, Plain.mk p, Plain.mk y)).map Ref.handle
  cases c <;> cases v <;> simp [BranchOptions.handles, Value.handles_eq]

theorem StatementsTask.handles_eq (t : StatementsTask) : t.handles = (refs t).map Ref.handle := by
  show _ = (refs (t.scope, t.options, t.last, Plain.mk t.kind, Plain.mk t.statements,
    Plain.mk t.rest)).map Ref.handle
  simp [StatementsTask.handles, BranchOptions.handles_eq, handlesOfOption_eq]

theorem StatementTask.handles_eq (t : StatementTask) : t.handles = (refs t).map Ref.handle := by
  show _ = (refs (t.scope, t.last, Plain.mk t.stmt, Plain.mk t.state)).map Ref.handle
  simp [StatementTask.handles, handlesOfOption_eq]

theorem ExpressionTask.handles_eq (t : ExpressionTask) : t.handles = (refs t).map Ref.handle := by
  show _ = (refs (t.scope, t.values, t.callee, t.receiver,
    Plain.mk t.expr, Plain.mk t.pending, Plain.mk t.phase)).map Ref.handle
  simp only [ExpressionTask.handles, flatMap_handles_eq, Value.handles_eq]
  simp

theorem InvocationTask.handles_eq (t : InvocationTask) : t.handles = (refs t).map Ref.handle := by
  show _ = (refs (t.callee, t.closure, t.receiver, t.args, t.callerScope,
    (t.extra.callee, Plain.mk t.extra.profileName), t.scope, t.argCells,
    Plain.mk t.state, Plain.mk t.strict)).map Ref.handle
  have hc : t.argCells.map (·.handle) = (refs t.argCells).map Ref.handle := by
    rw [refs_list, List.map_flatMap, List.map_eq_flatMap]
    rfl
  unfold InvocationTask.handles
  rw [hc, flatMap_handles_eq, handlesOfOption_eq, Closure.handles_eq, Value.handles_eq]
  cases t.scope <;> simp

/-- A task whose outcome is not fixed refers to what it is traced by. -/
theorem Task.handles_eq {t : Task} (ht : ∀ o, t ≠ .settled o) :
    t.handles = (refs t).map Ref.handle := by
  cases t with
  | statements t => exact t.handles_eq
  | statement t => exact t.handles_eq
  | expression t => exact t.handles_eq
  | invocation t => exact t.handles_eq
  | settled o => exact absurd rfl (ht o)

theorem Renamable.Alike.not_settled {s t : Task} (h : Alike ρ s t) :
    (∀ o, s ≠ .settled o) ∧ ∀ o, t ≠ .settled o := by
  cases h <;> exact ⟨fun o => Task.noConfusion, fun o => Task.noConfusion⟩

/-- **A frame refers to what it is traced by.** -/
theorem Frame.handles_eq {f : Frame} (hf : ∀ o, f.task ≠ .settled o) :
    f.handles = (refs f).map Ref.handle := by
  show _ = (refs (f.task, (f.info.options, Plain.mk f.info.kind), f.input,
    Plain.mk f.depth, Plain.mk f.quiet, Plain.mk f.isCall)).map Ref.handle
  simp [Frame.handles, Task.handles_eq hf, BranchOptions.handles_eq, Input.handles_eq]

/-- **The realm refers to what it is traced by.** -/
theorem Realm.handles_eq (r : Realm) : r.handles = (refs r).map Ref.handle := by
  show _ = (refs (r.globalScope, r.globalObject, r.objectPrototype, r.functionPrototype,
    r.arrayPrototype, r.stringPrototype, r.numberPrototype, r.booleanPrototype, r.errorPrototype,
    (r.names.length, r.names.prototype, r.names.name, r.names.message, r.names.callee,
      r.names.arguments, r.names.valueOf, r.names.toString),
    Plain.mk r.sloppyThisIsGlobal)).map Ref.handle
  simp [Realm.handles, PropertyKey.handles_eq]

end ScriptCore
