import ScriptCore.Proofs.Calls.SettingUp
import ScriptCore.Proofs.Drive.Asking

/-! # Calls work by acts

When a call is on record its parameters are bound, one after the other: a simple parameter of sloppy code to the
cell of its argument. Defaults are waited for, and patterns may run code, but neither binds a name in the object
of the call. When the last parameter is bound the body is asked for, and every name that no later parameter
binds again still has the cell of its argument.

* `Call.Covers`: **the parameters that are bound**, up to a position.
* `InvocationTask.Proper`: a call that can go on.
* `InvocationTask.Furnished`: while a call waits, its scope declares the variables of its body.
* `InvocationTask.works_begin`, `InvocationTask.works_goOn`: **calls work by acts.** -/

namespace ScriptCore

open Heap (Stays)

variable {S : Setting} {own : Handle → Prop} {w w' : World} {E : Engine} {c : CellRef} {v : Value} {s : ScopeRef}
  {name : String} {k k' : Call} {i n r : Nat}

/-- What a procedure delivers on every machine it delivers here. -/
theorem Works.yields {α : Type} {p : Run α} {Q : World → α → Prop} {P : α → Prop} (hp : Works S own w p Q)
    (hP : p.Yields P) : Works S own w p fun w' a => Q w' a ∧ P a := by
  intro hw hown m hm
  have hrun := hp hw hown m hm
  cases hcase : p m with
  | stalled => trivial
  | failed e m' =>
    rw [hcase] at hrun
    exact hrun
  | done a m' =>
    rw [hcase] at hrun
    obtain ⟨w', hacts, hm', ha⟩ := hrun
    exact ⟨w', hacts, hm', ha, hP m a m' hcase⟩

/-! ### Parameters that are bound -/

theorem boundParams_cons {p : Param} (hp : ∀ name, p ≠ .rest name) (params : List Param) :
    boundParams (p :: params) = p :: boundParams params := by
  cases p with
  | rest name => exact absurd rfl (hp name)
  | simple name default => rfl
  | pattern target default => rfl

/-- No rest parameter stands before the position. -/
def Function.Reaches (f : Function) (n : Nat) : Prop := (boundParams f.params).drop n = boundParams (f.params.drop n)

namespace Function.Reaches

variable {f : Function} {p : Param} {params : List Param}

theorem here (hf : f.Reaches n) (hp : ∀ name, p ≠ .rest name) (hparams : f.params.drop n = p :: params) :
    (boundParams f.params)[n]? = some p ∧ f.params[n]? = some p ∧ f.Reaches (n + 1) ∧
      f.params.drop (n + 1) = params := by
  have hrest : f.params.drop (n + 1) = params := by
    rw [← List.tail_drop, hparams]
    rfl
  have hbound : (boundParams f.params).drop n = p :: boundParams params := by
    rw [hf, hparams, boundParams_cons hp]
  refine ⟨by rw [← List.head?_drop, hbound]; rfl, by rw [← List.head?_drop, hparams]; rfl, ?_, hrest⟩
  show (boundParams f.params).drop (n + 1) = boundParams (f.params.drop (n + 1))
  rw [← List.tail_drop, hbound, hrest]
  rfl

end Function.Reaches

/-- **The simple parameters before position `n` have the cells of their arguments**, but for those whose names a
parameter before position `r` binds again. -/
def Call.Covers (h : Heap) (k : Call) (n r : Nat) : Prop :=
  ∀ i name default, i < n → (boundParams k.function.params)[i]? = some (.simple name default) →
    (∀ j p, i < j → j < r → (boundParams k.function.params)[j]? = some p → name ∉ p.names) → k.HasBound h i name

namespace Call.Covers

variable {h h' : Heap} {p : Param} {touched : Prop}

theorem zero (h : Heap) (k : Call) (r : Nat) : k.Covers h 0 r := fun _ _ _ hi => absurd hi (Nat.not_lt_zero _)

theorem next (hc : k.Covers h n r) (hs : Stays h h') (hb : k.Becomes touched k')
    (hrefers : ∀ key c, h.Refers k.bindings key c → h'.Refers k.bindings key c) : k'.Covers h' n r := by
  intro i name default hi hparam hlater
  rw [hb.function] at hparam hlater
  exact (hc i name default hi hparam hlater).stays hs hb hrefers

theorem mono {n' r' : Nat} (hc : k.Covers h n r) (hn : n' ≤ n) (hr : r ≤ r') : k.Covers h n' r' :=
  fun i name default hi hparam hlater => hc i name default (by omega) hparam fun j p hij hjr =>
    hlater j p hij (by omega)

/-- The names of the parameter at position `q` are bound again. -/
theorem overlay {q : Nat} (hc : k.Covers w.heap n r) (hrq : r ≤ q + 1) (hnq : n ≤ q)
    (hp : (boundParams k.function.params)[q]? = some p) (hs : Stays w.heap w'.heap)
    (hover : w.Overlays k.bindings p.names w') : k.Covers w'.heap n (q + 1) := by
  intro i name default hi hparam hlater
  obtain ⟨c, key, hcell, hspells, hr⟩ := hc i name default hi hparam fun j p' hij hjr =>
    hlater j p' hij (by omega)
  refine ⟨c, key, hcell, hs.spells hspells, hover.kept _ _ _ hr fun _ name' hname' hspells' => ?_⟩
  cases hspells'.name_eq (hs.spells hspells)
  exact hlater q p (by omega) (by omega) hp hname'

/-- A simple parameter that is bound to the cell of its argument. -/
theorem simple {default : Option Expr} (hc : k.Covers h n (n + 1))
    (hp : (boundParams k.function.params)[n]? = some (.simple name default)) (hbound : k.HasBound h n name) :
    k.Covers h (n + 1) (n + 1) := by
  intro i name' default' hi hparam hlater
  rcases Nat.lt_succ_iff_lt_or_eq.mp hi with hi | rfl
  · exact hc i name' default' hi hparam hlater
  · cases hp.symm.trans hparam
    exact hbound

/-- A parameter that is not simple. -/
theorem other (hc : k.Covers h n (n + 1)) (hp : (boundParams k.function.params)[n]? = some p)
    (hother : ∀ name default, p ≠ .simple name default) : k.Covers h (n + 1) (n + 1) := by
  intro i name' default' hi hparam hlater
  rcases Nat.lt_succ_iff_lt_or_eq.mp hi with hi | rfl
  · exact hc i name' default' hi hparam hlater
  · cases hp.symm.trans hparam
    exact absurd rfl (hother name' default')

/-- All parameters are bound. -/
theorem all (hc : k.Covers h n r) (hn : (boundParams k.function.params).length ≤ n)
    (hbinds : k.function.Binds i name) : k.HasBound h i name := by
  obtain ⟨⟨default, hparam⟩, hlater⟩ := hbinds
  refine hc i name default ?_ hparam fun j p hij _ hp => hlater p ?_
  · have hlt := (List.getElem?_eq_some_iff.mp hparam).1
    omega
  · refine List.mem_of_getElem? (i := j - (i + 1)) ?_
    rw [List.getElem?_drop, show i + 1 + (j - (i + 1)) = j by omega]
    exact hp

end Call.Covers

namespace InvocationTask

variable {t : InvocationTask}

/-- A call on record that has not started, whose parameters before position `n` are bound. -/
structure Binding (w : World) (t : InvocationTask) (s : ScopeRef) (k : Call) (n r : Nat) : Prop where
  onRecord : t.OnRecord w s k
  waiting : k.started = false
  reaches : t.closure.function.Reaches n
  covers : k.strict = false → k.Covers w.heap n r

namespace Binding

/-- Acts that take other objects leave the parameters bound. -/
theorem next (hb : t.Binding w s k n r) (hw : w.Lawful S) (hacts : Acts S own w w')
    (hown : ¬ own k.bindings.handle) : ∃ k', t.Binding w' s k' n r ∧ k'.bindings = k.bindings := by
  obtain ⟨k', hr', hbecomes⟩ := hb.onRecord.next hacts
  refine ⟨k', ⟨hr', (hbecomes.waiting hown).trans hb.waiting, hb.reaches, fun hsloppy => ?_⟩, hbecomes.bindings⟩
  refine (hb.covers (hbecomes.strict ▸ hsloppy)).next hacts.stays hbecomes fun key c hr => ?_
  exact hacts.refers_private hw (hw.calls k hb.onRecord.mem).bindings hown hr

/-- So does code that takes only what is new. -/
theorem beyond (hb : t.Binding w s k n r) (hw : w.Lawful S) (hacts : Acts S w.Fresh w w') :
    ∃ k', t.Binding w' s k' n r ∧ k'.bindings = k.bindings :=
  hb.next hw hacts (World.not_fresh_private (hw.calls k hb.onRecord.mem).bindings)

theorem opened (hb : t.Binding w s k n r) (hw : w.Lawful S) (hown : own k.bindings.handle) :
    w.Open S own s k.bindings where
  binds := hb.onRecord.binds
  hidden := (hw.calls k hb.onRecord.mem).bindings
  owned := hown
  waiting k' hk' hsame := (hw.bindings k' hk' k hb.onRecord.mem hsame) ▸ hb.waiting

end Binding

/-- A call that can go on. -/
structure Proper (S : Setting) (w : World) (t : InvocationTask) : Prop where
  shown : t.Shown S w
  binding : ∀ i, t.state = .paramBinding i → ∃ s k, t.Binding w s k i (i + 1)
  body : t.state = .bodyEvaluating → ∃ s k, t.OnRecord w s k ∧ k.started = true

/-- A call waits for the default of a parameter or for its body. -/
def Waits (t : InvocationTask) : Prop := (∃ i, t.state = .paramBinding i) ∨ t.state = .bodyEvaluating

/-- The object in which a call that waits binds names. -/
def Owns (w : World) (t : InvocationTask) (x : Handle) : Prop :=
  t.Waits ∧ ∃ s o, t.scope = some s ∧ w.heap.Binds s o ∧ x = o.handle

/-- The scope of a call that waits declares the variables of its body. -/
def Furnished (h : Heap) (t : InvocationTask) : Prop :=
  t.Waits → ∃ s, t.scope = some s ∧ ∀ name ∈ t.closure.function.vars, h.Declares s name

theorem Furnished.next (hf : t.Furnished w.heap) (hw : w.Lawful S) (hacts : Acts S own w w') :
    t.Furnished w'.heap := fun hwaits => by
  obtain ⟨s, hs, hvars⟩ := hf hwaits
  exact ⟨s, hs, fun name hname => hacts.declares hw (hvars name hname)⟩

/-- What a call hands over: itself and what it asks for or ended with. -/
structure Hands (S : Setting) (own : Handle → Prop) (w : World) (r : InvocationTask × Step) : Prop where
  task : r.1.Proper S w
  step : r.2.Proper S w
  owned : ∀ x, r.1.Owns w x → own x

/-- Those who take other objects leave a call as it can go on. -/
theorem Proper.next (ht : t.Proper S w) (hw : w.Lawful S) (hacts : Acts S own w w')
    (hown : ∀ x, t.Owns w x → ¬ own x) : t.Proper S w' := by
  refine ⟨ht.shown.next hacts, fun i hi => ?_, fun hbody => ?_⟩
  · obtain ⟨s, k, hb⟩ := ht.binding i hi
    obtain ⟨k', hb', -⟩ := hb.next hw hacts (hown _ ⟨.inl ⟨i, hi⟩, s, k.bindings, hb.onRecord.scope, hb.onRecord.binds, rfl⟩)
    exact ⟨s, k', hb'⟩
  · obtain ⟨s, k, hr, hstarted⟩ := ht.body hbody
    obtain ⟨k', hr', hb⟩ := hr.next hacts
    exact ⟨s, k', hr', hb.started hstarted⟩

/-! ### Binding parameters -/

/-- **A simple parameter of sloppy code is bound to the cell of its argument.** -/
theorem works_declareCell (hb : t.Binding w s k n r) (hsloppy : k.strict = false) (hown : own k.bindings.handle)
    (hc : k.HasCell i c) {default : Option Expr} (hparam : k.function.params[i]? = some (.simple name default)) :
    Works S own w (Run.onHeap (declareCell s name c)) fun w' _ =>
      ∃ key, w'.heap.Spells key name ∧ w.Rebinds k.bindings key c w' := by
  unfold declareCell
  rw [Run.onHeap_bind, Routine.onHeap_reads]
  refine .lawful fun hw => .read (Heap.mild_scope s) fun sc hsc => ?_
  rw [(hw.heap.scopes s sc hsc).target, hb.onRecord.binds.object_eq hsc, Run.onHeap_bind]
  refine works_keyOfName.bind fun w₁ key _ hacts ⟨hspells, hext⟩ => ?_
  rw [Heap.installCell_ample, Proc.discard_bind, Run.onHeap_bind, Routine.onHeap_reads]
  refine .read (Heap.mild_cell c) fun _ _ => works_modifyObject fun _ obj ho =>
    ⟨w₁.putObject k.bindings (obj.bind key c), rfl, ?_, key, ?_, (World.rebinds_putObject ho key c).after hext⟩
  · exact .one (.bound (hext.calls ▸ hb.onRecord.mem) hb.waiting hsloppy hc hparam hspells ho) fun x hx =>
      List.mem_singleton.mp hx ▸ hown
  · have hstays : Stays w₁.heap (w₁.putObject k.bindings (obj.bind key c)).heap := World.stays_putObject ho rfl rfl
    exact hstays.spells hspells

theorem works_bindSimple (hb : t.Binding w s k n r) (hrn : r ≤ n + 1) (hown : own k.bindings.handle)
    {default : Option Expr} {params : List Param} (hparams : t.closure.function.params.drop n = .simple name default :: params)
    (hv : w.Shows S v) :
    Works S own w (t.bindSimple s n name v) fun w' _ => t.Binding w' s k (n + 1) (n + 1) := by
  obtain ⟨hat, hparam, hreaches, -⟩ := hb.reaches.here (by simp) hparams
  rw [← hb.onRecord.function] at hat hparam
  have hnext : ∀ {w'}, Acts S own w w' → w.Overlays k.bindings [name] w' →
      (k.strict = false → k.HasBound w'.heap n name) → t.Binding w' s k (n + 1) (n + 1) := by
    intro w' hacts hover hbound
    refine ⟨⟨hover.calls ▸ hb.onRecord.mem, hb.onRecord.function, hb.onRecord.strict, hb.onRecord.cells,
      hb.onRecord.scope, hacts.binds hb.onRecord.binds⟩, hb.waiting, hreaches, fun hsloppy => ?_⟩
    exact ((hb.covers hsloppy).overlay hrn le_rfl hat hacts.stays hover).simple hat (hbound hsloppy)
  refine .lawful fun hw => .ite (fun hstrict => ?_) fun hsloppy => ?_
  · refine .discard ((works_declareOpen (hb.opened hw hown) hv).imp fun _ _ _ hacts hover => hnext hacts hover fun hsloppy => ?_)
    rw [hb.onRecord.strict, hstrict] at hsloppy
    cases hsloppy
  · have hsloppy : k.strict = false := hb.onRecord.strict.trans (Bool.eq_false_iff.mpr hsloppy)
    cases hc : t.argCells[n]? with
    | none => exact .fail fun _ hu => by cases hu
    | some c =>
      have hcell := hb.onRecord.hasCell hc
      exact (works_declareCell hb hsloppy hown hcell hparam).imp fun _ _ _ hacts ⟨key, hspells, hr⟩ =>
        hnext hacts (hr.overlays hspells) fun _ => ⟨c, key, hcell, hspells, hr.self⟩

/-- **The body is asked for** when all parameters are bound. -/
theorem works_askBody (ht : t.Shown S w) (hr : t.OnRecord w s k)
    (hbound : k.strict = false → ∀ i name, k.function.Binds i name → k.HasBound w.heap i name)
    (hown : own k.bindings.handle) : Works S own w (t.askBody s) (Hands S own) := by
  refine .lawful fun hw => .isDebug_bind fun debug =>
    .after_record { w with calls := w.calls.map fun k' => k'.start k.bindings } (fun _ => .started ?_) rfl ?_
      (.pure ?_)
  · intro k' hk' hsame hsloppy i name hbinds
    cases hw.bindings k' hk' k hr.mem hsame
    exact hbound hsloppy i name hbinds
  · exact fun x hx => List.mem_singleton.mp hx ▸ hown
  · have hbecomes := k.becomes_start k.bindings
    have hstarted : (k.start k.bindings).started = true := by
      unfold Call.start
      rw [if_pos rfl]
    have hbinds : w.heap.Binds s (k.start k.bindings).bindings := by
      rw [hbecomes.bindings]
      exact hr.binds
    refine ⟨⟨⟨ht.callee, ht.closure, ht.receiver, ht.args, ht.callerScope⟩, fun i hi => (by cases hi), fun _ =>
      ⟨s, k.start k.bindings, ⟨List.mem_map_of_mem hr.mem, hbecomes.function.trans hr.function,
        hbecomes.strict.trans hr.strict, hbecomes.cells.trans hr.cells, hr.scope, hbinds⟩,
        hstarted⟩⟩, ⟨⟨_, hr.binds⟩, fun hglobal => ?_⟩, ?_⟩
    · have hsame := hglobal.unique hr.binds
      exact absurd hw.realm.global (hsame ▸ (hw.calls k hr.mem).bindings).not_public
    · rintro x ⟨-, s', o, hscope, ho, rfl⟩
      cases hr.scope.symm.trans hscope
      cases ho.unique hr.binds
      exact hown

/-- The default of a parameter is asked for. -/
theorem hands_askDefault (ht : t.Shown S w) (hb : t.Binding w s k n (n + 1)) (hown : own k.bindings.handle) (e : Expr) :
    Hands S own w (t.askDefault s n e) := by
  have hr := hb.onRecord
  refine ⟨⟨⟨ht.callee, ht.closure, ht.receiver, ht.args, ht.callerScope⟩, fun i hi => ?_, fun hbody => (by cases hbody)⟩,
    proper_expression e hr.binds, ?_⟩
  · cases hi
    exact ⟨s, k, ⟨hr.mem, hr.function, hr.strict, hr.cells, hr.scope, hr.binds⟩, hb.waiting, hb.reaches, hb.covers⟩
  · rintro x ⟨-, s', o, hscope, ho, rfl⟩
    cases hr.scope.symm.trans hscope
    cases ho.unique hr.binds
    exact hown

/-- A pattern takes its value. -/
theorem works_bindPattern (hE : E.Fair S) (hb : t.Binding w s k n (n + 1)) {target : Pattern} {default : Option Expr}
    {params : List Param} (hparams : t.closure.function.params.drop n = .pattern target default :: params)
    (hv : w.Shows S v) :
    Works S own w (writePattern E s target v) fun w' _ =>
      ∃ k', t.Binding w' s k' (n + 1) (n + 1) ∧ k'.bindings = k.bindings := by
  obtain ⟨hat, -, hreaches, -⟩ := hb.reaches.here (by simp) hparams
  refine .lawful fun hw => (works_writePattern hE hb.onRecord.binds target hv).narrow.imp
    fun w₁ _ _ _ ⟨_, hnew⟩ => ?_
  obtain ⟨k₁, hb₁, hsame⟩ := hb.beyond hw hnew
  rw [← hb₁.onRecord.function] at hat
  exact ⟨k₁, ⟨hb₁.onRecord, hb₁.waiting, hreaches, fun hsloppy => (hb₁.covers hsloppy).other hat (by simp)⟩, hsame⟩

/-- **Binding parameters**, as far as no default is needed. -/
theorem works_bindParams (hE : E.Fair S) : ∀ (params : List Param) (n : Nat) {w : World} {k : Call}, t.Shown S w →
    t.Binding w s k n n → own k.bindings.handle → t.closure.function.params.drop n = params →
    Works S own w (bindParams E t s n params) (Hands S own)
  | [], n, w, k, ht, hb, hown, hparams => by
    unfold bindParams
    refine works_askBody ht hb.onRecord (fun hsloppy i name hbinds => (hb.covers hsloppy).all ?_ hbinds) hown
    have hdrop : (boundParams t.closure.function.params).drop n = [] := by
      rw [hb.reaches, hparams]
      rfl
    rw [hb.onRecord.function]
    exact List.drop_eq_nil_iff.mp hdrop
  | .rest name :: params, n, w, k, ht, hb, hown, hparams => by
    unfold bindParams
    refine .lawful fun hw => (works_allocArray fun v hv => ht.args v (List.mem_of_mem_drop hv)).narrow.bind
      fun w₁ o hw₁ hacts₁ hmade => ?_
    obtain ⟨ho, hnew⟩ := hmade
    obtain ⟨k₁, hb₁, hsame⟩ := hb.beyond hw hnew
    have hr₁ := hb₁.onRecord
    have hown₁ : own k₁.bindings.handle := hsame ▸ hown
    have hrest : (boundParams k₁.function.params).drop n = [.rest name] := by
      rw [hr₁.function, hb.reaches, hparams]
      rfl
    have hat : (boundParams k₁.function.params)[n]? = some (.rest name) := by
      rw [← List.head?_drop, hrest]
      rfl
    have hlength : (boundParams k₁.function.params).length ≤ n + 1 := by
      have hone := congrArg List.length hrest
      rw [List.length_drop, List.length_singleton] at hone
      omega
    refine .discard_bind (works_declareOpen (v := .object o) (hb₁.opened hw₁ hown₁) ho) fun w₂ _ _ hacts₂ hover => ?_
    refine works_askBody ((ht.next hacts₁).next hacts₂) ⟨hover.calls ▸ hr₁.mem, hr₁.function, hr₁.strict, hr₁.cells,
      hr₁.scope, hacts₂.binds hr₁.binds⟩ (fun hsloppy i name' hbinds => ?_) hown₁
    have hcovers := (hb₁.covers hsloppy).overlay (Nat.le_succ n) le_rfl hat hacts₂.stays hover
    exact (hcovers.other hat (by simp)).all hlength hbinds
  | .simple name default :: params, n, w, k, ht, hb, hown, hparams => by
    have hbound : ∀ {v}, w.Shows S v → Works S own w
        (t.bindSimple s n name v >>= fun _ => bindParams E t s (n + 1) params) (Hands S own) := fun hv =>
      (works_bindSimple hb (Nat.le_succ n) hown hparams hv).bind fun _ _ _ hacts hb₁ =>
        works_bindParams hE params (n + 1) (ht.next hacts) hb₁ hown (hb.reaches.here (by simp) hparams).2.2.2
    unfold bindParams
    cases harg : t.args[n]? with
    | some v => exact hbound (ht.args v (List.mem_of_getElem? harg))
    | none =>
      cases default with
      | none => exact hbound (v := .undefined) trivial
      | some e =>
        exact .pure (hands_askDefault ht ⟨hb.onRecord, hb.waiting, hb.reaches, fun hsloppy =>
          (hb.covers hsloppy).mono le_rfl (Nat.le_succ n)⟩ hown e)
  | .pattern target default :: params, n, w, k, ht, hb, hown, hparams => by
    unfold bindParams
    refine .lawful fun hw => (works_declareAll target.boundNames (hb.opened hw hown)).bind
      fun w₁ _ hw₁ hacts₁ hover => ?_
    have ht₁ := ht.next hacts₁
    have hat : (boundParams k.function.params)[n]? = some (.pattern target default) := by
      rw [hb.onRecord.function]
      exact (hb.reaches.here (by simp) hparams).1
    have hr := hb.onRecord
    have hb₁ : t.Binding w₁ s k n (n + 1) := ⟨⟨hover.calls ▸ hr.mem, hr.function, hr.strict, hr.cells, hr.scope,
      hacts₁.binds hr.binds⟩, hb.waiting, hb.reaches, fun hsloppy =>
        (hb.covers hsloppy).overlay (Nat.le_succ n) le_rfl hat hacts₁.stays hover⟩
    have hbound : ∀ {v}, w₁.Shows S v → Works S own w₁
        (writePattern E s target v >>= fun _ => bindParams E t s (n + 1) params) (Hands S own) := fun hv =>
      (works_bindPattern hE hb₁ hparams hv).bind fun w₂ _ _ hacts₂ hbound => by
        obtain ⟨k₂, hb₂, hsame⟩ := hbound
        exact works_bindParams hE params (n + 1) (ht₁.next hacts₂) hb₂ (hsame ▸ hown)
          (hb.reaches.here (by simp) hparams).2.2.2
    cases harg : t.args[n]? with
    | some v => exact hbound (ht₁.args v (List.mem_of_getElem? harg))
    | none =>
      cases default with
      | none => exact hbound (v := .undefined) trivial
      | some e => exact .pure (hands_askDefault ht₁ hb₁ hown e)

/-- A parameter gets the value of its default, and those after it are bound. -/
theorem works_bindValue (hE : E.Fair S) (ht : t.Shown S w) (hb : t.Binding w s k n (n + 1))
    (hown : own k.bindings.handle) (hv : w.Shows S v) :
    Works S own w (do
      match t.closure.function.params[n]? with
      | some (.simple name _) => t.bindSimple s n name v
      | some (.pattern target _) => writePattern E s target v
      | some (.rest _) | none => throw (.invocation s!"parameter {n} has no default")
      bindParams E t s (n + 1) (t.closure.function.params.drop (n + 1))) (Hands S own) := by
  have hrest : ∀ {w k}, t.Shown S w → t.Binding w s k (n + 1) (n + 1) → own k.bindings.handle →
      Works S own w (bindParams E t s (n + 1) (t.closure.function.params.drop (n + 1))) (Hands S own) :=
    fun ht hb hown => works_bindParams hE _ (n + 1) ht hb hown rfl
  cases hparam : t.closure.function.params[n]? with
  | none => exact .fail fun _ hu => by cases hu
  | some p =>
    have hparams : t.closure.function.params.drop n = p :: t.closure.function.params.drop (n + 1) :=
      (List.drop_eq_getElem_cons (List.getElem?_eq_some_iff.mp hparam).1).trans
        (by rw [(List.getElem?_eq_some_iff.mp hparam).2])
    cases p with
    | simple name default =>
      exact (works_bindSimple hb le_rfl hown hparams hv).bind fun _ _ _ hacts hb₁ => hrest (ht.next hacts) hb₁ hown
    | pattern target default =>
      refine (works_bindPattern hE hb hparams hv).bind fun w₁ _ _ hacts hbound => ?_
      obtain ⟨k₁, hb₁, hsame⟩ := hbound
      exact hrest (ht.next hacts) hb₁ (hsame ▸ hown)
    | rest name => exact .fail fun _ hu => by cases hu

/-- Going on after the default of a parameter. -/
theorem works_bindDefault (hE : E.Fair S) (ht : t.Shown S w) (hb : t.Binding w s k n (n + 1))
    (hown : own k.bindings.handle) (hv : w.Shows S v) : Works S own w (t.bindDefault E n v) (Hands S own) := by
  unfold bindDefault callScope
  rw [hb.onRecord.scope]
  cases hc : t.argCells[n]? with
  | none => exact works_bindValue hE ht hb hown hv
  | some c =>
    -- the global object holds no cell of a call
    have hheld : w.Lawful S → ∀ key, ¬ w.heap.Refers S.realm.globalObject key c := fun hw key hr => by
      have hk := hw.calls k hb.onRecord.mem
      rcases (hk.held n c _ key (hb.onRecord.hasCell hc) hr).2 with ⟨ha, -⟩ | ⟨ho, -⟩
      · exact (hk.arguments _ ha).1 rfl
      · exact (ho ▸ hk.bindings).not_public hw.realm.global
    refine .lawful fun hw => (works_writeCell hv fun hw _ _ => .inr fun key hr => absurd hr (hheld hw key)).narrow.bind
      fun w₁ _ _ hacts hwritten => ?_
    obtain ⟨k₁, hb₁, hsame⟩ := hb.beyond hw hwritten.2
    exact works_bindValue hE (ht.next hacts) hb₁ (hsame ▸ hown) (hacts.value hv)

/-! ### Start and resume -/

/-- **A call starts**, in a scope that declares the variables of its body. -/
theorem works_begin (hE : E.Fair S) (ht : t.Shown S w) : Works S own w (t.begin E) fun w' r =>
    Hands S own w' r ∧ r.1.Furnished w'.heap ∧ ∃ t' : InvocationTask, t'.Asked r := by
  have ht' : ({ t with state := .invoking } : InvocationTask).Shown S w :=
    ⟨ht.callee, ht.closure, ht.receiver, ht.args, ht.callerScope⟩
  refine (works_setUp hE ht').bind_run fun w₁ t₁ hw₁ _ hequipped hran => ?_
  obtain ⟨s, o, a, hequipped, hvars⟩ := hequipped
  obtain ⟨m, m', hrun, hheap⟩ := hran
  refine .after_record { w₁ with calls := t₁.record o a :: w₁.calls } (fun _ => hequipped.entered hw₁ hrun hheap) rfl
    hequipped.owned ?_
  unfold callScope
  rw [hequipped.scope]
  have ht₁ := hequipped.shown
  have hbound : Works S own { w₁ with calls := t₁.record o a :: w₁.calls } (bindParams E t₁ s 0 _) (Hands S own) :=
    works_bindParams hE _ 0
      ⟨ht₁.callee, ht₁.closure, ht₁.receiver, ht₁.args, ht₁.callerScope⟩
      ⟨hequipped.onRecord, rfl, rfl, fun _ => .zero _ _ _⟩ hequipped.entering.owned rfl
  refine .lawful fun hw₂ => (hbound.yields (asked_bindParams hequipped.scope _ 0)).imp
    fun w₃ r _ hacts ⟨hhands, hasked⟩ => ⟨hhands, fun _ => ⟨s, hasked.scope.trans hequipped.scope, ?_⟩, t₁, hasked⟩
  rw [hasked.closure]
  exact fun name hname => hacts.declares hw₂ (hvars name hname)

/-- The value of the body, or the error that it came to. -/
theorem works_bodyValue {c : Completion} (hc : c.Public S.realm w.heap) :
    Works S own w (Proc.ofExcept (bodyValue c)) fun w' v => w' = w ∧ w'.Shows S v := by
  cases c with
  | normal v =>
    refine .pure ⟨rfl, ?_⟩
    cases v with
    | none => trivial
    | some v => exact hc v rfl
  | returned v => exact .pure ⟨rfl, hc⟩
  | thrown v => exact .fail fun _ hx => Error.throw.inj hx ▸ hc
  | broken label v => exact .fail fun _ hu => by cases hu
  | continued label v => exact .fail fun _ hu => by cases hu

theorem goOn_ok (t : InvocationTask) (c : Completion) : t.goOn E (.ok c) = match t.state with
    | .paramBinding index => bindDefault E t index c.value
    | .bodyEvaluating => do return (t, .value (← bodyValue c))
    | state => throw (.driverState (.invocationResumed state.name)) := rfl

/-- **A call goes on** after the default of a parameter or after its body. -/
theorem works_goOn (hE : E.Fair S) (ht : t.Proper S w) (hown : ∀ x, t.Owns w x → own x) {r : Except Error Completion}
    (hr : w.Outputs S r) : Works S own w (t.goOn E r) (Hands S own) := by
  cases r with
  | error e => exact .fail hr
  | ok c =>
    rw [goOn_ok]
    have hunexpected : ∀ state : InvocationState, Works S own w
        (throw (.driverState (.invocationResumed state.name)) : Run (InvocationTask × Step)) (Hands S own) :=
      fun _ => .fail fun _ hu => by cases hu
    cases hstate : t.state with
    | paramBinding n =>
      obtain ⟨s, k, hb⟩ := ht.binding n hstate
      have howned := hown _ ⟨.inl ⟨n, hstate⟩, s, k.bindings, hb.onRecord.scope, hb.onRecord.binds, rfl⟩
      exact works_bindDefault hE ht.shown hb howned (Completion.Public.value hr)
    | bodyEvaluating =>
      refine (works_bodyValue hr).bind fun w₁ v _ _ hvalue => ?_
      obtain ⟨rfl, hv⟩ := hvalue
      exact .pure ⟨ht, fun _ hx => Option.some.inj hx ▸ hv, hown⟩
    | created => exact hunexpected _
    | invoking => exact hunexpected _
    | returned => exact hunexpected _
    | thrown => exact hunexpected _

end InvocationTask

end ScriptCore
