import ScriptCore.Task.Expression
import ScriptCore.Proofs.Renaming.Statements

/-! # Expressions go alike

An expression is a procedure with a part of its own, which `Proc.within` makes explicit: it takes the
own part and hands over the one that is left. An expression can be resumed while the values it has, the
operand it waits for and the operands still pending are together as many as its phase works on. So when
it combines its operands, each of them has its value.

* `Expr.Takes`: how many operands an expression works on in a phase; `Expr.Takes.reads_lt` says that it
  looks at no others.
* `ExpressionTask.sim_combine`, `ExpressionTask.sim_start`, `ExpressionTask.sim_resume`. -/

namespace ScriptCore

variable {M : Mode} {ρ ρ' : Renaming} {E₁ E₂ : Engine} {α β τ : Type}

/-! ### Procedures with a part of their own -/

/-- Runs a procedure from the own part `t` and hands over the own part that it left. -/
def Proc.within {σ : Type} (t : τ) (p : Proc (τ × σ) α) : Proc σ (τ × α) := fun s =>
  match p (t, s) with
  | .done a (t, s) => .done (t, a) s
  | .failed e (_, s) => .failed e s
  | .stalled => .stalled

namespace Sim

open Proc (within)

variable {t t' : τ} {Q : Renaming → α → α → Prop} {R : Renaming → τ × β → τ × β → Prop}

/-- Running a procedure over the machine first. -/
theorem call {p q : Run α} {f g : α → Proc (τ × Machine) β} (hp : Sim M ρ Q p q)
    (hf : ∀ ρ', ρ ≤ ρ' → ∀ a b, Q ρ' a b → Sim M ρ' R (within t (f a)) (within t' (g b))) :
    Sim M ρ R (within t (Proc.shared p >>= f)) (within t' (Proc.shared q >>= g)) := by
  have key : ∀ (u : τ) (p : Run α) (f : α → Proc (τ × Machine) β),
      within u (Proc.shared p >>= f) = p >>= fun a => within u (f a) := by
    intro u p f
    funext m
    show within u (Proc.bind (Proc.shared p) f) m = Proc.bind p (fun a => within u (f a)) m
    simp only [within, Proc.bind, Proc.shared]
    cases p m <;> rfl
  rw [key, key]
  exact hp.bind hf

theorem own {f g : τ → Proc (τ × Machine) β} (h : Sim M ρ R (within t (f t)) (within t' (g t'))) :
    Sim M ρ R (within t (Proc.own >>= f)) (within t' (Proc.own >>= g)) := h

theorem setOwn {u u' : τ} {f g : Unit → Proc (τ × Machine) β}
    (h : Sim M ρ R (within u (f ())) (within u' (g ()))) :
    Sim M ρ R (within t (Proc.setOwn u >>= f)) (within t' (Proc.setOwn u' >>= g)) := h

theorem within_pure {a b : β} (h : ∀ ρ', ρ ≤ ρ' → R ρ' (t, a) (t', b)) :
    Sim M ρ R (within t (Pure.pure a : Proc (τ × Machine) β)) (within t' (Pure.pure b)) :=
  Sim.pure_of (σ := Machine) h

end Sim

open Proc (within)

/-! ### Operands -/

/-- How many operands an expression works on in a phase. -/
inductive Expr.Takes : Expr → ExpressionPhase → Nat → Prop where
  | array (elements : List Expr) : Takes (.array elements) .operands elements.length
  | object (properties : List (String × Expr)) :
      Takes (.object properties) .operands properties.length
  | member (base : Expr) (key : MemberKey) :
      Takes (.member base key) .operands (memberOperands base key).length
  | assign (target : Pattern) (value : Expr) :
      Takes (.assign target value) .operands (Expr.assign target value).operands.length
  | call (callee : Expr) (args : List Expr) :
      Takes (.call callee args) .operands (Expr.call callee args).operands.length
  | arguments (callee : Expr) (args : List Expr) : Takes (.call callee args) .callArgs args.length
  | binary (op : BinaryOp) (left right : Expr) : Takes (.binary op left right) .operands 2
  | logical (op : LogicalOp) (left right : Expr) : Takes (.logical op left right) .operands 1
  | right (op : LogicalOp) (left right : Expr) : Takes (.logical op left right) .logicalRight 2
  | unary (op : UnaryOp) (operand : Expr) :
      Takes (.unary op operand) .operands (Expr.unary op operand).operands.length

/-- The positions of the operands that an expression looks at when it combines them. -/
inductive Expr.Reads : Expr → ExpressionPhase → Nat → Prop where
  | base (e : Expr) (key : MemberKey) : Reads (.member e key) .operands 0
  | key (e k : Expr) : Reads (.member e (.computed k)) .operands 1
  | target (e : Expr) (key : MemberKey) (value : Expr) :
      Reads (.assign (.member e key) value) .operands 0
  | targetKey (e k value : Expr) : Reads (.assign (.member e (.computed k)) value) .operands 1
  | assigned (target : Pattern) (value : Expr) :
      Reads (.assign target value) .operands ((Expr.assign target value).operands.length - 1)
  | callee (f : Expr) (args : List Expr) : Reads (.call f args) .operands 0
  | calleeKey (e k : Expr) (args : List Expr) :
      Reads (.call (.member e (.computed k)) args) .operands 1
  | left (op : BinaryOp) (e e' : Expr) : Reads (.binary op e e') .operands 0
  | right (op : BinaryOp) (e e' : Expr) : Reads (.binary op e e') .operands 1
  | decider (op : LogicalOp) (e e' : Expr) : Reads (.logical op e e') .operands 0
  | decided (op : LogicalOp) (e e' : Expr) : Reads (.logical op e e') .logicalRight 1
  | operand (op : UnaryOp) (e : Expr) : Reads (.unary op e) .operands 0
  | deletedKey (e k : Expr) : Reads (.unary .delete (.member e (.computed k))) .operands 1

/-- **No operand is looked at that has no value.** -/
theorem Expr.Takes.reads_lt {e : Expr} {phase : ExpressionPhase} {n i : Nat} (h : e.Takes phase n)
    (hr : e.Reads phase i) : i < n := by
  cases hr with
  | base e key => cases h; cases key <;> exact Nat.succ_pos _
  | key e k => cases h; exact Nat.one_lt_two
  | target e key value => cases h; cases key <;> exact Nat.succ_pos _
  | targetKey e k value => cases h; exact Nat.succ_lt_succ (Nat.succ_pos 1)
  | assigned target value =>
    cases h
    have hpos : 0 < (Expr.assign target value).operands.length := by
      cases target with
      | member e key => rw [Expr.operands, List.length_append]; exact Nat.succ_pos _
      | _ => exact Nat.one_pos
    exact Nat.sub_lt hpos Nat.one_pos
  | callee f args =>
    cases h
    cases f with
    | member e key => cases key <;> exact Nat.succ_pos _
    | _ => exact Nat.succ_pos _
  | calleeKey e k args => cases h; exact Nat.one_lt_two
  | left op e e' => cases h; decide
  | right op e e' => cases h; decide
  | decider op e e' => cases h; decide
  | decided op e e' => cases h; decide
  | operand op e =>
    cases h
    cases op with
    | delete =>
      cases e with
      | member e key => cases key <;> exact Nat.succ_pos _
      | _ => exact Nat.succ_pos _
    | _ => exact Nat.succ_pos _
  | deletedKey e k => cases h; exact Nat.one_lt_two

namespace ExpressionTask

variable {t t' : ExpressionTask}

/-- The expression waits for its call, or for one of as many operands as its phase works on. -/
def Resumable (t : ExpressionTask) : Prop :=
  t.phase = .awaitCall ∨ t.expr.Takes t.phase (t.values.length + 1 + t.pending.length)

theorem alike_iff : Alike ρ t t' ↔ Alike ρ t.scope t'.scope ∧ Alike ρ t.values t'.values ∧
    Alike ρ t.callee t'.callee ∧ Alike ρ t.receiver t'.receiver ∧ t.expr = t'.expr ∧
    t.pending = t'.pending ∧ t.phase = t'.phase := Iff.rfl

theorem alike_operand (h : Alike ρ t t') (i : Nat) : Alike ρ (t.operand i) (t'.operand i) :=
  alike_getD (alike_getElem? (alike_iff.mp h).2.1 i) .undefined

/-- The expression ends with a value. -/
theorem advanced_value (h : Alike ρ t t') {v w : Value} (hv : Alike ρ v w) :
    Advanced Resumable ρ (t, .value v) (t', .value w) :=
  ⟨h, .finished (.normal (.some hv)), fun _ hs => by cases hs⟩

/-- The expression asks for an operand. -/
theorem advanced_ask (h : Alike ρ t t') (hw : t.Resumable) {s s' : ExpressionTask}
    (hs : Alike ρ s s') (e : Expr) : Advanced Resumable ρ (t, s.ask e) (t', s'.ask e) :=
  ⟨h, .suspended (.branch (alike_expression e (alike_iff.mp hs).1)), fun _ _ => hw⟩

/-- A procedure over the machine gives the value of the expression. -/
theorem sim_value {p q : Run α} {Q : Renaming → α → α → Prop} {f g : α → Value} (h : Alike ρ t t')
    (hp : Sim M ρ Q p q) (hf : ∀ ρ', ρ ≤ ρ' → ∀ a b, Q ρ' a b → Alike ρ' (f a) (g b)) :
    Sim M ρ (Advanced Resumable) (within t (Proc.shared p >>= fun a => pure (.value (f a))))
      (within t' (Proc.shared q >>= fun a => pure (.value (g a)))) :=
  hp.call fun _ hρ a b hab => .within_pure fun _ hρ' =>
    (advanced_value (h.mono hρ) (hf _ hρ a b hab)).mono hρ'

/-! ### What an expression computes -/

theorem sim_memberKey (hE : Engine.Sim M E₁ E₂) (h : Alike ρ t t') (key : MemberKey) :
    Sim M ρ Alike (t.memberKey E₁ key) (t'.memberKey E₂ key) := by
  cases key with
  | named name => exact (Heap.sim_keyOfName name).onHeap
  | computed e => exact sim_toPropertyKey hE (alike_operand h 1)

theorem sim_writeLiteral (hE : Engine.Sim M E₁ E₂) : ∀ (properties : List (String × Expr))
    (vs ws : List Value) (ρ : Renaming) (o p : ObjectRef), Alike ρ o p → Alike ρ vs ws →
    Sim M ρ Alike (writeLiteral E₁ o properties vs) (writeLiteral E₂ p properties ws)
  | [], _, _, _, _, _, _, _ => by
    unfold writeLiteral
    exact .pure rfl
  | (name, _) :: properties, _, _, ρ, o, p, ho, hv => by
    cases hv with
    | nil => exact .pure rfl
    | @cons v w vs ws hv hvs =>
      have hvs : Alike ρ vs ws := hvs
      refine (Heap.sim_keyOfName name).onHeap.bind fun ρ₁ hρ₁ k l hk => ?_
      refine (sim_setProperty hE true (ho.mono hρ₁) hk (hv.mono hρ₁)).discard.bind
        fun ρ₂ hρ₂ _ _ _ => ?_
      have hle := hρ₁.trans hρ₂
      exact sim_writeLiteral hE properties vs ws ρ₂ o p (ho.mono hle) (hvs.mono hle)

theorem sim_readStrict {s s' : ScopeRef} (hs : Alike ρ s s') :
    Sim M ρ Alike (Run.readHeap fun h => h.scopeIsStrict s) (Run.readHeap fun h => h.scopeIsStrict s') :=
  Sim.readHeap fun _ hρ _ _ hh => hh.scopeIsStrict (hs.mono hρ)

theorem sim_unary (hE : Engine.Sim M E₁ E₂) (h : Alike ρ t t') (op : UnaryOp) (operand : Expr) :
    Sim M ρ Alike (t.unary E₁ op operand) (t'.unary E₂ op operand) := by
  have hv := alike_operand h 0
  cases op with
  | not =>
    refine (Sim.readHeap fun _ hρ _ _ hh => hh.truthy (hv.mono hρ)).bind fun _ _ x y hxy => ?_
    obtain rfl : x = y := hxy
    exact .pure (.bool _)
  | neg =>
    refine (sim_toNumber hE hv).bind fun _ _ x y hxy => ?_
    obtain rfl : x = y := hxy
    exact .pure (.number _)
  | plus =>
    refine (sim_toNumber hE hv).bind fun _ _ x y hxy => ?_
    obtain rfl : x = y := hxy
    exact .pure (.number _)
  | void => exact .pure .undefined
  | typeOf =>
    refine (Sim.readHeap fun _ hρ _ _ hh => hh.typeName (hv.mono hρ)).bind fun _ _ x y hxy => ?_
    obtain rfl : x = y := hxy
    exact (Heap.sim_internString _).onHeap.bind fun _ _ _ _ hs => .pure (.string hs)
  | delete =>
    cases operand with
    | member base key =>
      refine (sim_memberKey hE h key).bind fun ρ₁ hρ₁ k l hk => ?_
      have refuse : ∀ {v w : Value}, Alike ρ v w → Sim M ρ₁ Alike
          (do throw (.typeError s!"cannot delete property of {← Run.readHeap fun h => h.describe v}") :
            Run Value)
          (do throw (.typeError s!"cannot delete property of {← Run.readHeap fun h => h.describe w}")) := by
        intro v w hv
        refine (Sim.readHeap fun _ hρ _ _ hh => hh.describe (hv.mono (hρ₁.trans hρ))).bind
          fun _ _ x y hxy => ?_
        obtain rfl : x = y := hxy
        exact .fail (.same rfl nofun)
      generalize t.operand 0 = v, t'.operand 0 = w at hv
      cases hv with
      | object ho =>
        refine (sim_readStrict ((alike_iff.mp h).1.mono hρ₁)).bind fun ρ₂ hρ₂ x y hxy => ?_
        obtain rfl : x = y := hxy
        refine (sim_deleteProperty x (ho.mono (hρ₁.trans hρ₂)) (hk.mono hρ₂)).bind
          fun _ _ a b hab => ?_
        obtain rfl : a = b := hab
        exact .pure (.bool _)
      | undefined => exact refuse .undefined
      | null => exact refuse .null
      | bool b => exact .pure (.bool true)
      | number x => exact .pure (.bool true)
      | string hs => exact .pure (.bool true)
    | _ => exact .pure (.bool true)

theorem sim_assignTo (hE : Engine.Sim M E₁ E₂) (h : Alike ρ t t') (target : Pattern) {v w : Value}
    (hv : Alike ρ v w) : Sim M ρ Alike (t.assignTo E₁ target v) (t'.assignTo E₂ target w) := by
  have hs := (alike_iff.mp h).1
  cases target with
  | member base key =>
    refine (sim_memberKey hE h key).bind fun ρ₁ hρ₁ k l hk => ?_
    refine (sim_readStrict (hs.mono hρ₁)).bind fun ρ₂ hρ₂ x y hxy => ?_
    obtain rfl : x = y := hxy
    have hle := hρ₁.trans hρ₂
    exact (sim_setMember hE x ((alike_operand h 0).mono hle) (hk.mono hρ₂) (hv.mono hle)).discard
  | ident name => exact sim_writePattern hE _ hs hv
  | object ps => exact sim_writePattern hE _ hs hv
  | array ps => exact sim_writePattern hE _ hs hv

/-! ### Calls -/

theorem sim_askCall (h : Alike ρ t t') (callee : Expr) :
    Sim M ρ (Advanced Resumable) (within t (askCall callee)) (within t' (askCall callee)) := by
  refine Sim.own ?_
  obtain ⟨hs, hv, hc, hr, he, hp, hph⟩ := alike_iff.mp h
  refine (Sim.readHeap fun _ hρ _ _ hh => hh.isCallable (hc.mono hρ)).call fun ρ₁ hρ₁ x y hxy => ?_
  obtain rfl : x = y := hxy
  cases x with
  | false => exact .fail (.same rfl nofun)
  | true =>
    refine Sim.isDebug.call fun ρ₂ hρ₂ debug debug' hdebug => ?_
    obtain rfl : debug = debug' := hdebug
    refine Sim.setOwn (Sim.within_pure fun ρ₃ hρ₃ => ?_)
    have hle := hρ₁.trans (hρ₂.trans hρ₃)
    have hs := hs.mono hle
    have hv := hv.mono hle
    have hc := hc.mono hle
    have hr := hr.mono hle
    exact ⟨⟨hs, .nil, hc, hr, he, hp, rfl⟩, .suspended (.call ⟨hc, hr, hv, hs, .some hc, rfl⟩),
      fun _ _ => .inl rfl⟩

/-- Asking for the arguments of a call whose callee is known. -/
theorem sim_askArguments (h : Alike ρ t t') (callee : Expr) (args : List Expr)
    (hvalues : t.values = []) (hphase : t.phase = .callArgs) (hexpr : t.expr = .call callee args) :
    Sim M ρ (Advanced Resumable) (within t (askArguments callee args))
      (within t' (askArguments callee args)) := by
  cases args with
  | nil => exact sim_askCall h callee
  | cons e rest =>
    refine Sim.own (Sim.setOwn (Sim.within_pure fun ρ₁ hρ₁ => ?_))
    obtain ⟨hs, hv, hc, hr, he, -, hph⟩ := alike_iff.mp (h.mono hρ₁)
    have hown : Alike ρ₁ { t with pending := rest } { t' with pending := rest } :=
      ⟨hs, hv, hc, hr, he, rfl, hph⟩
    refine advanced_ask hown (.inr ?_) (h.mono hρ₁) e
    show t.expr.Takes t.phase (t.values.length + 1 + rest.length)
    rw [hexpr, hphase, hvalues, List.length_nil, Nat.zero_add, Nat.add_comm]
    exact .arguments callee (e :: rest)

/-! ### Combining -/

/-- **Expressions that have a value for each operand combine alike.** -/
theorem sim_combine (hE : Engine.Sim M E₁ E₂) (h : Alike ρ t t') (hpending : t.pending = [])
    (htakes : t.expr.Takes t.phase t.values.length) :
    Sim M ρ (Advanced Resumable) (within t (combine E₁)) (within t' (combine E₂)) := by
  refine Sim.own ?_
  obtain ⟨expr, scope, pending, values, phase, callee, receiver⟩ := t
  obtain ⟨expr', scope', pending', values', phase', callee', receiver'⟩ := t'
  obtain ⟨hs, hv, hc, hr, he, hp, hph⟩ := alike_iff.mp h
  obtain rfl : expr = expr' := he
  obtain rfl : pending = pending' := hp
  obtain rfl : phase = phase' := hph
  obtain rfl : pending = [] := hpending
  dsimp only at htakes
  generalize hn : values.length = n at htakes
  cases htakes with
  | array elements => exact sim_value h (sim_allocArray hv) fun _ _ _ _ ho => .object ho
  | object properties =>
    refine sim_allocPlainObject.call fun ρ₁ hρ₁ o p ho => ?_
    refine (sim_writeLiteral hE properties _ _ ρ₁ o p ho (hv.mono hρ₁)).call fun ρ₂ hρ₂ _ _ _ => ?_
    exact .within_pure fun _ hρ₃ => advanced_value (h.mono (hρ₁.trans (hρ₂.trans hρ₃)))
      (.object (ho.mono (hρ₂.trans hρ₃)))
  | member base key =>
    refine (sim_memberKey hE h key).call fun ρ₁ hρ₁ k l hk => ?_
    exact sim_value (h.mono hρ₁) (sim_getProperty (alike_operand (h.mono hρ₁) 0) hk)
      fun _ _ _ _ hv => hv
  | assign target value =>
    have hlast := alike_getD (alike_getLast? hv) (.undefined : Alike ρ Value.undefined .undefined)
    refine (sim_assignTo hE h target hlast).call fun ρ₁ hρ₁ _ _ _ => ?_
    exact .within_pure fun _ hρ₂ =>
      advanced_value (h.mono (hρ₁.trans hρ₂)) (hlast.mono (hρ₁.trans hρ₂))
  | call f args =>
    have simple : Sim M ρ (Advanced Resumable)
        (within ⟨.call f args, scope, [], values, .operands, callee, receiver⟩ (do
          Proc.setOwn ⟨.call f args, scope, [], values.tail, .operands,
            (values[0]?).getD .undefined, receiver⟩
          askCall f))
        (within ⟨.call f args, scope', [], values', .operands, callee', receiver'⟩ (do
          Proc.setOwn ⟨.call f args, scope', [], values'.tail, .operands,
            (values'[0]?).getD .undefined, receiver'⟩
          askCall f)) := by
      refine Sim.setOwn (sim_askCall ?_ f)
      exact ⟨hs, alike_tail hv, alike_operand h 0, hr, rfl, rfl, rfl⟩
    cases f with
    | member base key =>
      refine (sim_memberKey hE h key).call fun ρ₁ hρ₁ k l hk => ?_
      have h₁ := h.mono hρ₁
      refine (sim_getProperty (alike_operand h₁ 0) hk).call fun ρ₂ hρ₂ g g' hg => ?_
      refine Sim.setOwn (sim_askArguments ?_ _ args rfl rfl rfl)
      exact ⟨hs.mono (hρ₁.trans hρ₂), .nil, hg, (alike_operand h₁ 0).mono hρ₂, rfl, rfl, rfl⟩
    | _ => exact simple
  | arguments f args => exact sim_askCall h f
  | binary op left right =>
    exact sim_value h (sim_applyBinary hE op (alike_operand h 0) (alike_operand h 1))
      fun _ _ _ _ hv => hv
  | logical op left right =>
    have hleft := alike_operand h 0
    refine (Sim.readHeap fun _ hρ _ _ hh => hh.truthy (hleft.mono hρ)).call fun ρ₁ hρ₁ x y hxy => ?_
    obtain rfl : x = y := hxy
    have decided : Sim M ρ₁ (Advanced Resumable)
        (within ⟨.logical op left right, scope, [], values, .operands, callee, receiver⟩
          (pure (.value ((values[0]?).getD .undefined)) : ExprRun Step))
        (within ⟨.logical op left right, scope', [], values', .operands, callee', receiver'⟩
          (pure (.value ((values'[0]?).getD .undefined)))) :=
      .within_pure fun _ hρ => (advanced_value (h.mono hρ₁) (hleft.mono hρ₁)).mono hρ
    have undecided : Sim M ρ₁ (Advanced Resumable)
        (within ⟨.logical op left right, scope, [], values, .operands, callee, receiver⟩ (do
          Proc.setOwn ⟨.logical op left right, scope, [], values, .logicalRight, callee, receiver⟩
          return .ask (.expression right scope) : ExprRun Step))
        (within ⟨.logical op left right, scope', [], values', .operands, callee', receiver'⟩ (do
          Proc.setOwn ⟨.logical op left right, scope', [], values', .logicalRight, callee', receiver'⟩
          return .ask (.expression right scope'))) := by
      refine Sim.setOwn (Sim.within_pure fun ρ₂ hρ₂ => ?_)
      have hle := hρ₁.trans hρ₂
      have hright : Expr.Takes (.logical op left right) .logicalRight (values.length + 1 + 0) := by
        rw [hn]
        exact .right op left right
      exact ⟨⟨hs.mono hle, hv.mono hle, hc.mono hle, hr.mono hle, rfl, rfl, rfl⟩,
        .suspended (.branch (alike_expression right (hs.mono hle))), fun _ _ => .inr hright⟩
    cases op <;> cases x <;> first | exact decided | exact undecided
  | right op left right =>
    exact .within_pure fun _ hρ => (advanced_value h (alike_operand h 1)).mono hρ
  | unary op operand => exact sim_value h (sim_unary hE h op operand) fun _ _ _ _ hv => hv

/-- Asking for the next operand, or combining. -/
theorem sim_pump (hE : Engine.Sim M E₁ E₂) (h : Alike ρ t t')
    (htakes : t.expr.Takes t.phase (t.values.length + t.pending.length)) :
    Sim M ρ (Advanced Resumable) (within t (pump E₁)) (within t' (pump E₂)) := by
  refine Sim.own ?_
  obtain ⟨hs, hv, hc, hr, he, hp, hph⟩ := alike_iff.mp h
  rw [← hp]
  cases hpending : t.pending with
  | nil =>
    rw [hpending] at htakes
    exact sim_combine hE h hpending htakes
  | cons e rest =>
    refine Sim.setOwn (Sim.within_pure fun ρ₁ hρ₁ => ?_)
    have hown : Alike ρ₁ { t with pending := rest } { t' with pending := rest } :=
      ⟨hs.mono hρ₁, hv.mono hρ₁, hc.mono hρ₁, hr.mono hρ₁, he, rfl, hph⟩
    refine advanced_ask hown (.inr ?_) (h.mono hρ₁) e
    rw [hpending, List.length_cons, Nat.add_comm rest.length, ← Nat.add_assoc] at htakes
    exact htakes

/-! ### Start and resume -/

/-- The expression has not started. -/
def Fresh (t : ExpressionTask) : Prop := t.pending = [] ∧ t.values = [] ∧ t.phase = .operands

theorem sim_begin (hE : Engine.Sim M E₁ E₂) (h : Alike ρ t t') (hfresh : t.Fresh)
    (htakes : t.expr.Takes .operands t.expr.operands.length) :
    Sim M ρ (Advanced Resumable) (within t (begin E₁)) (within t' (begin E₂)) := by
  obtain ⟨hs, hv, hc, hr, he, hp, hph⟩ := alike_iff.mp h
  obtain ⟨hpending, hvalues, hphase⟩ := hfresh
  have hown : Alike ρ { t with pending := t.pending ++ t.expr.operands }
      { t' with pending := t'.pending ++ t'.expr.operands } :=
    ⟨hs, hv, hc, hr, he, show _ = _ by rw [hp, he], hph⟩
  refine sim_pump hE hown ?_
  show t.expr.Takes t.phase (t.values.length + (t.pending ++ t.expr.operands).length)
  rw [hpending, hvalues, hphase, List.nil_append, List.length_nil, Nat.zero_add]
  exact htakes

/-- **Expressions start alike.** -/
theorem sim_start (hE : Engine.Sim M E₁ E₂) (h : Alike ρ t t') (hfresh : t.Fresh) :
    Sim M ρ (Advanced Resumable) (within t (start E₁)) (within t' (start E₂)) := by
  refine Sim.own ?_
  obtain ⟨expr, scope, pending, values, phase, callee, receiver⟩ := t
  obtain ⟨expr', scope', pending', values', phase', callee', receiver'⟩ := t'
  obtain ⟨hs, hv, hc, hr, he, hp, hph⟩ := alike_iff.mp h
  obtain rfl : expr = expr' := he
  have value : ∀ {v w : Value}, Alike ρ v w → Sim M ρ (Advanced Resumable)
      (within ⟨expr, scope, pending, values, phase, callee, receiver⟩ (pure (.value v)))
      (within ⟨expr, scope', pending', values', phase', callee', receiver'⟩ (pure (.value w))) :=
    fun hv => .within_pure fun _ hρ => (advanced_value h hv).mono hρ
  have operands := sim_begin hE h hfresh
  cases expr with
  | undefined => exact value .undefined
  | null => exact value .null
  | bool b => exact value (.bool b)
  | number x => exact value (.number x)
  | string s =>
    exact sim_value h (Heap.sim_internString s).onHeap fun _ _ _ _ hs => .string hs
  | ident name => exact sim_value h (sim_lookupName name hs) fun _ _ _ _ hv => hv
  | receiver =>
    exact sim_value h (Sim.readHeap fun _ hρ _ _ hh => hh.scopeReceiver (hs.mono hρ))
      fun _ _ _ _ hv => hv
  | function f => exact sim_value h (sim_allocClosure f hs) fun _ _ _ _ ho => .object ho
  | array elements => exact operands (.array elements)
  | object properties =>
    exact operands (by rw [Expr.operands, List.length_map]; exact .object properties)
  | member base key => exact operands (.member base key)
  | assign target v => exact operands (.assign target v)
  | call f args => exact operands (.call f args)
  | binary op left right => exact operands (.binary op left right)
  | logical op left right => exact operands (.logical op left right)
  | unary op operand =>
    have operands := operands (.unary op operand)
    cases op with
    | typeOf =>
      cases operand with
      | ident name =>
        refine (sim_hasBinding name hs).call fun ρ₁ hρ₁ x y hxy => ?_
        obtain rfl : x = y := hxy
        cases x with
        | true => exact operands.mono hρ₁
        | false =>
          exact sim_value (h.mono hρ₁) (Heap.sim_internString _).onHeap fun _ _ _ _ hs => .string hs
      | _ => exact operands
    | delete =>
      cases operand with
      | ident name => exact value (.bool false)
      | _ => exact operands
    | _ => exact operands

/-- **Expressions that can be resumed go on alike.** -/
theorem sim_resume (hE : Engine.Sim M E₁ E₂) {o o' : Except Error Completion} (h : Alike ρ t t')
    (hw : t.Resumable) (ho : Alike ρ o o') :
    Sim M ρ (Advanced Resumable) (within t (resume E₁ o)) (within t' (resume E₂ o')) := by
  have key : ∀ {ρ'} {c d : Completion}, ρ ≤ ρ' → Alike ρ' c d → Sim M ρ' (Advanced Resumable)
      (within t (if t.phase = .awaitCall then pure (.value c.value) else do
        Proc.setOwn { t with values := t.values ++ [c.value] }
        pump E₁))
      (within t' (if t'.phase = .awaitCall then pure (.value d.value) else do
        Proc.setOwn { t' with values := t'.values ++ [d.value] }
        pump E₂)) := by
    intro ρ₁ c d hρ₁ hc
    have h₁ := h.mono hρ₁
    obtain ⟨hs, hv, hcallee, hr, he, hp, hph⟩ := alike_iff.mp h₁
    have hvalue := alike_value hc
    by_cases hphase : t.phase = .awaitCall
    · rw [if_pos hphase, if_pos (hph ▸ hphase)]
      exact .within_pure fun _ hρ => (advanced_value h₁ hvalue).mono hρ
    · rw [if_neg hphase, if_neg fun hawait => hphase (hph.trans hawait)]
      have hown : Alike ρ₁ { t with values := t.values ++ [c.value] }
          { t' with values := t'.values ++ [d.value] } :=
        ⟨hs, alike_append hv (.cons hvalue .nil), hcallee, hr, he, hp, hph⟩
      refine Sim.setOwn (sim_pump hE hown ?_)
      show t.expr.Takes t.phase ((t.values ++ [c.value]).length + t.pending.length)
      rw [List.length_append]
      exact hw.resolve_left hphase
  cases ho with
  | ok hc => exact key le_rfl hc
  | error he => exact .fail he

end ExpressionTask

end ScriptCore
