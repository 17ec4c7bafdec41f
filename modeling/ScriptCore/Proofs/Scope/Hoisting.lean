import ScriptCore.Proofs.Scope.Entering
import ScriptCore.Task.Statements

/-! # Hoisting functions

Before its first statement a list of statements binds the functions that it declares itself: in the cells to which their
names are bound already, or in new ones. Of several functions with one name the last is left.

* `declaredFunction`: the function that a list of statements leaves under a name.
* `gives_hoistFunction`: one function is bound.
* `gives_hoistFunctions`: **what is bound when all were.** -/

namespace ScriptCore

variable {h h' h₀ h₁ : Heap} {m : Machine} {o : ObjectRef} {obj : Object} {key : PropertyKey} {c : CellRef}
  {v : Value} {s : ScopeRef} {sc : Scope} {Γ Γ' : Heap.Bindings} {name : String} {f : Function} {cl : Closure}
  {O : ObjectRef → Prop} {C : CellRef → Prop}

/-- The last function with the name that the statements themselves declare. -/
def declaredFunction : List Stmt → String → Option Function
  | [], _ => none
  | .function f :: rest, name => (declaredFunction rest name).or (if f.name = some name then some f else none)
  | _ :: rest, name => declaredFunction rest name

/-! ### Closures -/

namespace Heap

theorem gives_internString (hk : h.WellKept) (name : String) :
    h.Gives (internString name) fun h' _ => h'.WellKept ∧ Untouched h h' := by
  intro r h' hdone
  refine ⟨Routine.keeps_wellKept (.intern _) hk hdone, ?_⟩
  rcases intern_filled hk.valid (Text.ofString name) with ⟨r', hfound, -⟩ | ⟨-, ⟨-, hfailed⟩ | ⟨r', h₁, hmade, hf⟩⟩
  · cases hdone.symm.trans hfound
    exact .refl _ _ _
  · cases hdone.symm.trans hfailed
  · cases hdone.symm.trans hmade
    exact hf.untouched

/-- A closure stays what it is as long as it is not touched. -/
theorem ClosureOf.next (hc : h.ClosureOf o f s) (ht : OnlyTouches O C h h') (hO : ¬ O o) : h'.ClosureOf o f s := by
  obtain ⟨cl, hcl, hrest⟩ := hc
  refine ⟨cl, ?_, hrest⟩
  unfold Heap.closure at hcl ⊢
  cases ho : h.object o with
  | error e => rw [ho] at hcl; cases hcl
  | ok obj => rw [ht.object o obj hO ho, ← ho]; exact hcl

end Heap

theorem gives_defineFunctionNames (hm : h₀.Making o obj h) (name : String) (arity : Nat) :
    m.Gives h (defineFunctionNames o name arity) fun h' _ => ∃ obj', h₀.Making o obj' h' ∧ obj'.kind = obj.kind := by
  refine .bind (.onHeap (Heap.gives_internString hm.kept name)) fun h₁ r hinterned => ?_
  have hm₁ := hm.beside hinterned.1 hinterned.2
  refine .names (.discard_bind (.onHeap (hm₁.gives_define _ _)) fun h₂ _ hdefined => ?_)
  refine .map ((Machine.Gives.onHeap (hdefined.1.gives_define _ _)).imp fun h₃ _ hdefined' => ?_)
  exact ⟨_, hdefined'.1, rfl⟩

theorem gives_allocClosureObject (hk : h.WellKept) (cl : Closure) :
    m.Gives h (allocClosureObject cl) fun h' o => (∃ obj, h.Making o obj h') ∧ h'.closure o = .ok cl := by
  refine .realm (.bind (.onHeap (Heap.gives_allocObject hk _ .function (.closure cl))) fun h₁ o hm => ?_)
  have hplain : m.Gives h₁ allocPlainObject fun h' p => ∃ x, h₁.Making p x h' :=
    .realm ((Machine.Gives.onHeap (Heap.gives_allocObject hm.kept _ .object .ordinary)).imp fun _ _ hp => ⟨_, hp⟩)
  refine .bind hplain fun h₂ p hmade => ?_
  obtain ⟨x, hp⟩ := hmade
  have hm₂ := hm.beside hp.kept hp.untouched
  refine .discard_bind (.onHeap (hm₂.gives_define _ _)) fun h₃ _ hdefined => ?_
  refine .bind (gives_defineFunctionNames hdefined.1 _ _) fun h₄ _ hnamed => ?_
  obtain ⟨obj', hm₄, hkind⟩ := hnamed
  refine .pure ⟨⟨obj', hm₄⟩, ?_⟩
  unfold Heap.closure
  rw [hm₄.object]
  dsimp only [bind, Except.bind]
  rw [hkind]
  rfl

/-- **A closure is made**, and nothing that was there changes. -/
theorem gives_allocClosure (hk : h.WellKept) (f : Function) (s : ScopeRef) :
    m.Gives h (allocClosure f s) fun h' o => h'.WellKept ∧ Heap.Untouched h h' ∧ (∀ x, h.object o ≠ .ok x) ∧
      h'.ClosureOf o f s := by
  have hclosure : ∀ receiver, m.Gives h (allocClosureObject
      { function := f, scope := s, boundScope := none, receiver, returnLastValue := f.isExpression }) fun h' o =>
        h'.WellKept ∧ Heap.Untouched h h' ∧ (∀ x, h.object o ≠ .ok x) ∧ h'.ClosureOf o f s := by
    intro receiver
    refine (gives_allocClosureObject hk _).imp fun h' o hmade => ?_
    obtain ⟨⟨obj, hm⟩, hcl⟩ := hmade
    exact ⟨hm.kept, hm.untouched, hm.fresh, _, hcl, rfl, rfl, rfl⟩
  unfold allocClosure
  cases f.arrow with
  | true =>
    simp only [map_eq_pure_bind, if_true, bind_assoc, pure_bind]
    exact .read fun v _ => hclosure (some v)
  | false =>
    simp only [Bool.false_eq_true, if_false, pure_bind]
    exact hclosure none

/-! ### Binding them -/

/-- **The closure of a function is bound**: in the cell of the name, or in a new one. -/
theorem gives_hoistFunction (hk : h.WellKept) (hl : h.Layer s sc Γ) (f : Function) (name : String) :
    m.Gives h (hoistFunction s sc.object f name) fun h' _ => ∃ c g, h'.WellKept ∧
      h'.Layer s sc (Function.update Γ name (some (c, .object g))) ∧ h'.ClosureOf g f s ∧ g ≠ sc.object ∧
      Heap.OnlyTouches (· = sc.object) (fun x => ∃ v, Γ name = some (x, v)) h h' ∧
      (Γ name = none ∧ (∀ d, h.cell c ≠ .ok d) ∨ ∃ v, Γ name = some (c, v)) := by
  refine .bind (gives_allocClosure hk f s) fun h₁ g hmade => ?_
  obtain ⟨hk₁, ht₁, hfresh, hg⟩ := hmade
  refine .bind (.onHeap fun key h₂ hdone => Heap.keyOfName_names hk₁ hdone) fun h₂ key hnamed => ?_
  obtain ⟨hk₂, hi, hspells⟩ := hnamed
  have ht₂ : Heap.Untouched h h₂ := ht₁.andThen hi.untouched
  have hl₂ := hl.untouched ht₂
  have hg₂ := hg.next hi.untouched id
  have hapart : g ≠ sc.object := by
    rintro rfl
    obtain ⟨x, hx⟩ := hl.live
    exact hfresh x hx
  refine .read fun found hfound => ?_
  cases found with
  | some c =>
    -- The name is bound to the cell, which is written.
    obtain ⟨n, v, hn, hs⟩ := hl₂.only key c hfound
    obtain rfl := hs.name_eq hspells
    refine (Machine.Gives.onHeap fun _ h' hdone => Heap.writeCell_stores hk₂ (hl₂.bound n c v hn).1 hdone).imp
      fun h' _ hwritten => ?_
    obtain ⟨hk', ht', hc⟩ := hwritten
    have ht : Heap.OnlyTouches (· = sc.object) (fun x => ∃ v, Γ n = some (x, v)) h₂ h' :=
      ht'.mono (fun _ _ ho => ho.elim) fun x _ hx _ => ⟨v, hx ▸ hn⟩
    exact ⟨c, g, hk', hl₂.write hn ht' hc, hg₂.next ht' id, hapart,
      ht₂.untouched.andThen ht, .inr ⟨v, hn⟩⟩
  | none =>
    have hnone : Γ name = none := by
      cases hn : Γ name with
      | none => rfl
      | some x =>
        obtain ⟨-, key', hs, hr⟩ := hl₂.bound name x.1 x.2 hn
        cases hs.key_eq hk₂.valid.canonical hspells
        cases hfound.symm.trans hr
    refine .map ((Machine.Gives.onHeap (hl₂.gives_declare hk₂ name (.object g))).imp fun h' c hdeclared => ?_)
    obtain ⟨hk', ht', hnew, hl'⟩ := hdeclared
    refine ⟨c, g, hk', hl', hg₂.next ht' hapart, hapart, ht₂.untouched.trans ht' (fun _ _ ho _ => ho) fun _ _ hc _ => hc.elim,
      .inl ⟨hnone, fun d hd => hnew d (ht₂.cell c d id hd)⟩⟩

/-- **The functions are bound that `μ` says** since the heap was `h` and the scope bound `Γ`: in the cells of the names
that were bound already, and in new ones. Other names are bound as they were. -/
structure Heap.Bindings.Hoists (Γ : Heap.Bindings) (s : ScopeRef) (μ : String → Option Function) (h h' : Heap)
    (Γ' : Heap.Bindings) : Prop where
  bound : ∀ name g, μ name = some g → ∃ c f, Γ' name = some (c, .object f) ∧ h'.ClosureOf f g s ∧
    (Γ name = none ∧ (∀ d, h.cell c ≠ .ok d) ∨ ∃ v, Γ name = some (c, v))
  others : ∀ name, μ name = none → Γ' name = Γ name

/-- The cells of the names that are hoisted. -/
def Heap.Bindings.Hoisted (Γ : Heap.Bindings) (μ : String → Option Function) (c : CellRef) : Prop :=
  ∃ name v, (μ name).isSome = true ∧ Γ name = some (c, v)

/-- **The functions are bound that the statements declare.** -/
theorem gives_hoistFunctions (statements : List Stmt) : ∀ {h : Heap} {Γ : Heap.Bindings}, h.WellKept → h.Layer s sc Γ →
    m.Gives h (hoistFunctions s sc.object statements) fun h' _ => ∃ Γ', h'.WellKept ∧ h'.Layer s sc Γ' ∧
      Heap.OnlyTouches (· = sc.object) (Γ.Hoisted (declaredFunction statements)) h h' ∧
      Γ.Hoists s (declaredFunction statements) h h' Γ' := by
  induction statements with
  | nil =>
    intro h Γ hk hl
    exact .pure ⟨Γ, hk, hl, .refl _ _ _, ⟨nofun, fun _ _ => rfl⟩⟩
  | cons statement rest ih =>
    intro h Γ hk hl
    -- A statement that binds nothing.
    have hskip : declaredFunction (statement :: rest) = declaredFunction rest →
        m.Gives h (hoistFunctions s sc.object rest) fun h' _ => ∃ Γ', h'.WellKept ∧ h'.Layer s sc Γ' ∧
          Heap.OnlyTouches (· = sc.object) (Γ.Hoisted (declaredFunction (statement :: rest))) h h' ∧
          Γ.Hoists s (declaredFunction (statement :: rest)) h h' Γ' := fun hsame => by
      rw [hsame]
      exact ih hk hl
    cases statement with
    | function f =>
      rw [hoistFunctions]
      cases hname : f.name with
      | none =>
        refine hskip ?_
        funext name
        rw [declaredFunction, hname, if_neg nofun, Option.or_none]
      | some name =>
        have hdeclared : ∀ n, declaredFunction (.function f :: rest) n =
            (declaredFunction rest n).or (if name = n then some f else none) := fun n => by
          rw [declaredFunction, hname]
          simp only [Option.some_inj]
        refine .bind (gives_hoistFunction hk hl f name) fun h₁ _ hhoisted => ?_
        obtain ⟨c, g, hk₁, hl₁, hg, hapart, ht₁, hc⟩ := hhoisted
        refine (ih hk₁ hl₁).imp fun h' _ hrest => ?_
        obtain ⟨Γ', hk', hl', ht', hb⟩ := hrest
        refine ⟨Γ', hk', hl', ?_, fun n g' hn => ?_, fun n hn => ?_⟩
        · have hsome : (declaredFunction (.function f :: rest) name).isSome = true := by
            rw [hdeclared, if_pos rfl, Option.isSome_or, Option.isSome_some, Bool.or_true]
          refine (ht₁.mono (fun _ _ ho _ => ho) fun x _ ⟨v, hx⟩ _ => ⟨name, v, hsome, hx⟩).trans ht' (fun _ _ ho _ => ho) ?_
          rintro x d ⟨n, v, hn, hx⟩ hd
          by_cases hsame : n = name
          · rw [hsame, Function.update_self] at hx
            cases hx
            rcases hc with ⟨-, hfresh⟩ | ⟨u, hu⟩
            · exact absurd hd (hfresh d)
            · exact ⟨name, u, hsome, hu⟩
          · rw [Function.update_of_ne hsame] at hx
            refine ⟨n, v, ?_, hx⟩
            rw [hdeclared, Option.isSome_or, hn, Bool.true_or]
        · rw [hdeclared] at hn
          cases hrest : declaredFunction rest n with
          | some g'' =>
            rw [hrest] at hn
            cases hn
            obtain ⟨c', f', hn, hf', hcell⟩ := hb.bound n _ hrest
            refine ⟨c', f', hn, hf', ?_⟩
            by_cases hsame : n = name
            · subst hsame
              rw [Function.update_self] at hcell
              obtain ⟨hx, -⟩ | ⟨v, hx⟩ := hcell
              · cases hx
              · cases hx
                exact hc
            · rw [Function.update_of_ne hsame] at hcell
              refine hcell.imp_left fun hnew => ⟨hnew.1, fun d hd => ?_⟩
              obtain ⟨d', hd'⟩ := ht₁.cells c' d hd
              exact hnew.2 d' hd'
          | none =>
            rw [hrest, Option.none_or] at hn
            split_ifs at hn with hsame
            cases hn
            subst hsame
            exact ⟨c, g, (hb.others _ hrest).trans (Function.update_self ..), hg.next ht' hapart, hc⟩
        · rw [hdeclared] at hn
          obtain ⟨hrest, hother⟩ := Option.or_eq_none_iff.mp hn
          split_ifs at hother with hsame
          rw [hb.others n hrest, Function.update_of_ne (Ne.symm hsame)]
    | _ => exact hskip rfl

end ScriptCore
