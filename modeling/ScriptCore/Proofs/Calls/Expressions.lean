import ScriptCore.Proofs.Calls.Tasks

/-! # Expressions work by acts

An expression is a procedure with a part of its own, the values of the operands so far. It keeps to values that
name no private object.

* `ExpressionTask.Proper`: an expression that can go on.
* `ExpressionTask.works_start`, `ExpressionTask.works_resume`: **expressions work by acts.** -/

namespace ScriptCore

open Proc (within)

variable {α β τ : Type} {S : Setting} {own : Handle → Prop} {w w' : World} {E : Engine} {o : ObjectRef}
  {v : Value} {s : ScopeRef} {t : τ}

/-! ### Procedures with a part of their own -/

/-- A procedure with a part of its own works: what it delivers together with its part satisfies `Q`. -/
def OwnWorks (S : Setting) (own : Handle → Prop) (w : World) (t : τ) (p : Proc (τ × Machine) α)
    (Q : World → τ × α → Prop) : Prop := Works S own w (within t p) Q

namespace OwnWorks

variable {p : Proc (τ × Machine) α} {f : α → Proc (τ × Machine) β} {Q : World → τ × α → Prop}
  {Q' : World → τ × β → Prop}

theorem pure {a : α} (ha : Q w (t, a)) : OwnWorks S own w t (pure a) Q := Works.pure ha

theorem fail {e : Error} (he : e.Public S.realm w.heap) :
    OwnWorks S own w t (throw e : Proc (τ × Machine) α) Q := Works.fail he

/-- What the machine does first. -/
theorem shared {P : World → α → Prop} {q : Run α} (hq : Works S own w q P)
    (hf : ∀ w' a, w'.Lawful S → Acts S own w w' → P w' a → OwnWorks S own w' t (f a) Q') :
    OwnWorks S own w t (Proc.shared q >>= f) Q' := by
  have hwithin : within t (Proc.shared q >>= f) = (q >>= fun a => within t (f a)) := by
    funext m
    show within t (Proc.bind (Proc.shared q) f) m = Proc.bind q (fun a => within t (f a)) m
    simp only [within, Proc.bind, Proc.shared]
    cases q m <;> rfl
  unfold OwnWorks
  rw [hwithin]
  exact hq.bind hf

theorem read {g : Heap → Except Error α} (hg : Mild (g w.heap))
    (hf : ∀ a, g w.heap = .ok a → OwnWorks S own w t (f a) Q') :
    OwnWorks S own w t (Proc.shared (Run.readHeap g) >>= f) Q' :=
  shared (P := fun w' a => w' = w ∧ g w.heap = .ok a) (.reads hg fun _ ha => ⟨rfl, ha⟩)
    fun _ a _ _ ⟨hsame, ha⟩ => hsame ▸ hf a ha

theorem getOwn {f : τ → Proc (τ × Machine) β} (hf : OwnWorks S own w t (f t) Q') :
    OwnWorks S own w t (Proc.own >>= f) Q' := hf

theorem setOwn {u : τ} {f : Unit → Proc (τ × Machine) β} (hf : OwnWorks S own w u (f ()) Q') :
    OwnWorks S own w t (Proc.setOwn u >>= f) Q' := hf

theorem modifyOwn {g : τ → τ} {f : Unit → Proc (τ × Machine) β} (hf : OwnWorks S own w (g t) (f ()) Q') :
    OwnWorks S own w t (Proc.modifyOwn g >>= f) Q' := hf

theorem ofExcept {r : Except Error α} (hok : ∀ a, r = .ok a → OwnWorks S own w t (f a) Q')
    (herror : ∀ e, r = .error e → e.Public S.realm w.heap) :
    OwnWorks S own w t (Proc.ofExcept r >>= f) Q' := by
  cases r with
  | ok a => exact hok a rfl
  | error e => exact Works.fail (herror e rfl)

theorem ite {b : Prop} [Decidable b] {q : Proc (τ × Machine) α} (hp : b → OwnWorks S own w t p Q)
    (hq : ¬ b → OwnWorks S own w t q Q) : OwnWorks S own w t (if b then p else q) Q := by
  by_cases hb : b
  · rw [if_pos hb]
    exact hp hb
  · rw [if_neg hb]
    exact hq hb

end OwnWorks

/-! ### Expressions -/

/-- An expression that can go on. -/
structure ExpressionTask.Proper (S : Setting) (w : World) (t : ExpressionTask) : Prop where
  scope : ∃ o, w.heap.Binds t.scope o
  values : ∀ v ∈ t.values, w.Shows S v
  callee : w.Shows S t.callee
  receiver : w.Shows S t.receiver

namespace ExpressionTask

variable {t : ExpressionTask}

theorem Proper.persists {P : Handle → Prop} (ht : t.Proper S w) (hp : Heap.Persists P w.heap w'.heap)
    (hP : ∀ x ∈ t.handles, P x) : t.Proper S w' where
  scope := ht.scope.imp fun _ hs => hp.binds hs (hP _ (List.mem_cons_self ..))
  values v hv := hp.value (ht.values v hv) fun x hx => hP x (List.mem_cons_of_mem _
    (List.mem_append_left _ (List.mem_append_left _ (List.mem_flatMap_of_mem hv hx))))
  callee := hp.value ht.callee fun x hx => hP x (List.mem_cons_of_mem _
    (List.mem_append_left _ (List.mem_append_right _ hx)))
  receiver := hp.value ht.receiver fun x hx => hP x (List.mem_cons_of_mem _ (List.mem_append_right _ hx))

theorem Proper.next (ht : t.Proper S w) (hacts : Acts S own w w') : t.Proper S w' :=
  ht.persists hacts.stays fun _ _ => trivial

/-- What an expression hands over: itself and what it asks for or ended with. -/
abbrev Hands (S : Setting) (w : World) (r : ExpressionTask × Step) : Prop := r.1.Proper S w ∧ r.2.Proper S w

theorem Proper.operand (ht : t.Proper S w) (i : Nat) : w.Shows S (t.operand i) := by
  unfold ExpressionTask.operand
  cases hv : t.values[i]? with
  | none => trivial
  | some v => exact ht.values v (List.mem_of_getElem? hv)

theorem Proper.value (ht : t.Proper S w) (hv : w.Shows S v) : Hands S w (t, .value v) :=
  ⟨ht, fun _ hx => Option.some.inj hx ▸ hv⟩

theorem Proper.ask (ht : t.Proper S w) (e : Expr) : Hands S w (t, t.ask e) :=
  ht.scope.elim fun _ hs => ⟨ht, proper_expression e hs⟩

theorem works_memberKey (hE : E.Fair S) (ht : t.Proper S w) (key : MemberKey) :
    Works S own w (t.memberKey E key) fun w' key => w'.heap.Keyed key := by
  cases key with
  | named name => exact works_keyOfName.imp fun _ _ _ _ ⟨hspells, _⟩ => hspells.keyed
  | computed e => exact works_toPropertyKey hE (ht.operand 1)

theorem works_writeLiteral (hE : E.Fair S) : ∀ (properties : List (String × Expr)) (values : List Value)
    {w : World}, w.heap.Public S.realm o → (∀ v ∈ values, w.Shows S v) →
      Works S own w (writeLiteral E o properties values) World.Anything
  | [], _, _, _, _ => by
    unfold writeLiteral
    exact .pure trivial
  | _ :: _, [], _, _, _ => by
    unfold writeLiteral
    exact .pure trivial
  | (name, _) :: properties, v :: values, w, ho, hvalues => by
    unfold writeLiteral
    refine works_keyOfName.bind fun w₁ key _ hacts₁ hkey => ?_
    rw [Proc.discard_bind]
    refine (works_setProperty hE hkey.1.keyed (.inl (hacts₁.shown ho))
      (hacts₁.value (hvalues v (List.mem_cons_self ..)))).bind fun w₂ _ _ hacts₂ _ => ?_
    exact works_writeLiteral hE properties values (hacts₂.shown (hacts₁.shown ho)) fun u hu =>
      hacts₂.value (hacts₁.value (hvalues u (List.mem_cons_of_mem _ hu)))

theorem works_askCall (ht : t.Proper S w) (callee : Expr) : OwnWorks S own w t (askCall callee) (Hands S) := by
  refine .getOwn (.read (Heap.mild_isCallable t.callee) fun callable _ => .ite (fun _ => ?_) fun _ =>
    .fail fun _ hu => by cases hu)
  refine .shared (P := fun w' _ => w' = w) (fun _ _ m hm => ⟨w, .refl, hm, rfl⟩) fun w' debug _ _ hsame => ?_
  subst hsame
  refine .setOwn (.pure ⟨⟨ht.scope, by simp, ht.callee, ht.receiver⟩, ?_⟩)
  exact ⟨ht.callee, ht.receiver, ht.values, ht.scope⟩

theorem works_askArguments (ht : t.Proper S w) (callee : Expr) (args : List Expr) :
    OwnWorks S own w t (askArguments callee args) (Hands S) := by
  cases args with
  | nil => exact works_askCall ht callee
  | cons e rest =>
    exact .getOwn (.setOwn (.pure (Proper.ask (t := { t with pending := rest })
      ⟨ht.scope, ht.values, ht.callee, ht.receiver⟩ e)))

theorem works_unary (hE : E.Fair S) (ht : t.Proper S w) (op : UnaryOp) (operand : Expr) :
    Works S own w (t.unary E op operand) (World.Shows S) := by
  have hoperand := ht.operand 0
  cases op with
  | not => exact .read (Heap.mild_truthy _) fun _ _ => .pure trivial
  | neg => exact (works_toNumber hE hoperand).bind fun _ _ _ _ _ => .pure trivial
  | plus => exact (works_toNumber hE hoperand).bind fun _ _ _ _ _ => .pure trivial
  | void => exact .pure trivial
  | typeOf => exact .read (Heap.mild_typeName _) fun _ _ => works_intern.bind fun _ _ _ _ _ => .pure trivial
  | delete =>
    cases operand with
    | member base key =>
      refine (works_memberKey hE ht key).bind fun w₁ k _ hacts _ => ?_
      have hbase := hacts.value hoperand
      cases hv : t.operand 0 with
      | object o =>
        rw [hv] at hbase
        exact .read (Heap.mild_scopeIsStrict _) fun strict _ =>
          (works_deleteProperty hbase).bind fun _ _ _ _ _ => .pure trivial
      | undefined => exact .read (Heap.mild_describe _) fun _ _ => .fail fun _ hu => by cases hu
      | null => exact .read (Heap.mild_describe _) fun _ _ => .fail fun _ hu => by cases hu
      | _ => exact .pure trivial
    | _ => exact .pure trivial

theorem works_assignTo (hE : E.Fair S) (ht : t.Proper S w) (target : Pattern) (hv : w.Shows S v) :
    Works S own w (t.assignTo E target v) World.Anything := by
  obtain ⟨o, hs⟩ := ht.scope
  cases target with
  | member base key =>
    exact (works_memberKey hE ht key).bind fun w₁ k _ hacts hk => .read (Heap.mild_scopeIsStrict _) fun strict _ =>
      .discard (works_setMember hE (hacts.value (ht.operand 0)) hk (hacts.value hv))
  | _ => exact works_writePattern hE hs _ hv

theorem works_combine (hE : E.Fair S) (ht : t.Proper S w) : OwnWorks S own w t (combine E) (Hands S) := by
  have hunexpected : ∀ phase : ExpressionPhase, OwnWorks S own w t
      (throw (.driverState (.expressionFinished phase.name)) : ExprRun Step) (Hands S) :=
    fun _ => .fail fun _ hu => by cases hu
  refine .getOwn ?_
  obtain ⟨expr, scope, pending, values, phase, callee, receiver⟩ := t
  have hfirst := ht.operand 0
  have hsecond := ht.operand 1
  cases expr with
  | array elements =>
    exact .shared (works_allocArray ht.values) fun _ o _ hacts ho =>
      .pure ((ht.next hacts).value (v := .object o) ho)
  | object properties =>
    refine .shared works_allocPlainObject fun w₁ o _ hacts ⟨ho, _⟩ => ?_
    refine .shared (works_writeLiteral hE properties values ho.shown fun v hv => hacts.value (ht.values v hv))
      fun w₂ _ _ hacts₂ _ => ?_
    exact .pure (((ht.next hacts).next hacts₂).value (v := .object o) (hacts₂.shown ho.shown))
  | member base key =>
    refine .shared (works_memberKey hE ht key) fun w₁ k _ hacts _ => ?_
    exact .shared (works_getProperty hE (hacts.value hfirst)) fun _ v _ hacts₂ hv =>
      .pure (((ht.next hacts).next hacts₂).value hv)
  | assign target value =>
    have hv : w.Shows S (values.getLast?.getD .undefined) := by
      cases hlast : values.getLast? with
      | none => trivial
      | some v => exact ht.values v (List.mem_of_getLast? hlast)
    exact .shared (works_assignTo hE ht target hv) fun _ _ _ hacts _ => .pure ((ht.next hacts).value (hacts.value hv))
  | call f args =>
    cases phase with
    | operands =>
      have htail : ∀ v ∈ values.tail, w.Shows S v := fun v hv => ht.values v (List.mem_of_mem_tail hv)
      have hplain : OwnWorks S own w
          (⟨.call f args, scope, pending, values, .operands, callee, receiver⟩ : ExpressionTask) (do
            Proc.setOwn ⟨.call f args, scope, pending, values.tail, .operands,
              ExpressionTask.operand ⟨.call f args, scope, pending, values, .operands, callee, receiver⟩ 0, receiver⟩
            askCall f) (Hands S) := by
        refine .setOwn (works_askCall ?_ f)
        exact ⟨ht.scope, htail, hfirst, ht.receiver⟩
      cases f with
      | member base key =>
        refine .shared (works_memberKey hE ht key) fun w₁ k _ hacts _ => ?_
        refine .shared (works_getProperty hE (hacts.value hfirst)) fun w₂ g _ hacts₂ hg =>
          .setOwn (works_askArguments ?_ _ args)
        exact ⟨((ht.next hacts).next hacts₂).scope, by simp, hg, hacts₂.value (hacts.value hfirst)⟩
      | _ => exact hplain
    | callArgs => exact works_askCall ht f
    | logicalRight => exact hunexpected _
    | awaitCall => exact hunexpected _
  | binary op left right =>
    exact .shared (works_applyBinary hE op hfirst hsecond) fun _ _ _ hacts hv => .pure ((ht.next hacts).value hv)
  | logical op left right =>
    cases phase with
    | operands =>
      refine .read (Heap.mild_truthy _) fun truthy _ => .ite (fun _ => .pure (ht.value hfirst)) fun _ => ?_
      exact .setOwn (.pure (Proper.ask (t := ⟨_, scope, pending, values, .logicalRight, callee, receiver⟩)
        ⟨ht.scope, ht.values, ht.callee, ht.receiver⟩ right))
    | logicalRight => exact .pure (ht.value hsecond)
    | callArgs => exact hunexpected _
    | awaitCall => exact hunexpected _
  | unary op operand =>
    exact .shared (works_unary hE ht op operand) fun _ _ _ hacts hv => .pure ((ht.next hacts).value hv)
  | _ => exact hunexpected _

theorem works_pump (hE : E.Fair S) (ht : t.Proper S w) : OwnWorks S own w t (pump E) (Hands S) := by
  refine .getOwn ?_
  cases t.pending with
  | nil => exact works_combine hE ht
  | cons e rest =>
    exact .setOwn (.pure (Proper.ask (t := { t with pending := rest })
      ⟨ht.scope, ht.values, ht.callee, ht.receiver⟩ e))

theorem works_begin (hE : E.Fair S) (ht : t.Proper S w) : OwnWorks S own w t (begin E) (Hands S) :=
  .modifyOwn (works_pump hE ⟨ht.scope, ht.values, ht.callee, ht.receiver⟩)

theorem works_start (hE : E.Fair S) (ht : t.Proper S w) : OwnWorks S own w t (start E) (Hands S) := by
  obtain ⟨o, hs⟩ := ht.scope
  refine .getOwn ?_
  cases t.expr with
  | undefined => exact .pure (ht.value trivial)
  | null => exact .pure (ht.value trivial)
  | bool b => exact .pure (ht.value trivial)
  | number x => exact .pure (ht.value trivial)
  | string text => exact .shared works_intern fun _ _ _ hacts _ => .pure ((ht.next hacts).value trivial)
  | ident name =>
    exact .shared (works_lookupName hE t.scope name) fun _ _ _ hacts hv => .pure ((ht.next hacts).value hv)
  | receiver =>
    have hreceiver : Works S own w (Run.readHeap fun h => h.scopeReceiver t.scope) (World.Shows S) :=
      .lawful fun hw => .reads (Heap.mild_scopeReceiver _) fun _ hv => hw.heap.scopeReceiver hv
    exact .shared hreceiver fun _ _ _ hacts hv => .pure ((ht.next hacts).value hv)
  | function f =>
    exact .shared (works_allocClosure f hs) fun _ o _ hacts ho => .pure ((ht.next hacts).value (v := .object o) ho)
  | unary op operand =>
    cases op with
    | typeOf =>
      cases operand with
      | ident name =>
        refine .shared (works_hasBinding _ name) fun w₁ b _ hacts _ => .ite (fun _ => works_begin hE (ht.next hacts))
          fun _ => ?_
        exact .shared works_intern fun _ _ _ hacts₂ _ => .pure (((ht.next hacts).next hacts₂).value trivial)
      | _ => exact works_begin hE ht
    | delete =>
      cases operand with
      | ident name => exact .pure (ht.value trivial)
      | _ => exact works_begin hE ht
    | _ => exact works_begin hE ht
  | _ => exact works_begin hE ht

theorem works_resume (hE : E.Fair S) (ht : t.Proper S w) {r : Except Error Completion} (hr : w.Outputs S r) :
    OwnWorks S own w t (resume E r) (Hands S) := by
  refine .ofExcept (fun c hc => ?_) fun e he => hr.error he
  have hv := (hr.ok hc).value
  refine .getOwn (.ite (fun _ => .pure (ht.value hv)) fun _ => .setOwn (works_pump hE
    ⟨ht.scope, fun v hmem => ?_, ht.callee, ht.receiver⟩))
  rcases List.mem_append.mp hmem with hmem | hmem
  · exact ht.values v hmem
  · exact List.mem_singleton.mp hmem ▸ hv

end ExpressionTask

end ScriptCore
