import ScriptCore.Proofs.Hiding.Situations
import ScriptCore.Proofs.Scope.Lists

/-! # Function declarations among native functions

Native functions that show no hidden object leave the tasks beneath them, and so the machines that a host comes to while
it drives a run are a trail. A scope inside another keeps what it binds, since nobody deletes from a hidden object; and
closures stay closures. So a declaration finds its name bound there, too, if each list that is entered in the scope
finds each name there in a cell of its own: where one cell is bound under two names, a function that is hoisted under
the one is bound under the other as well.

* `Machine.Veiled.contained`: **native functions that show no hidden object leave the tasks beneath them.**
* `Situation.Moves`, `Situation.Course`: what a host does while it drives a run.
* `Machine.keeps_closure_of_shelters`: **a closure that is bound stays bound**, unless the name is rebound.
* `Situation.Course.declaration_passed`: **a declaration that control passes is bound.** -/

namespace ScriptCore

open Heap (scope_eq_ok text_eq_ok refers_iff)

variable {S : Scene} {R : Realm} {host : Host} {base n k bound : Nat} {bases : List Nat} {m m' n' : Machine}
  {h h' : Heap} {s : ScopeRef} {name : String} {f : Function} {F : Function → Prop} {v : Value}
  {run : Nat → Machine}

/-! ### Courses of a run -/

theorem Outcome.OpensCall.opensOn {r : Outcome Machine (Option Value)} (hr : r.OpensCall S h) : r.OpensOn S.tasks := by
  cases r with
  | stalled => trivial
  | failed e m => exact hr.2.1.tasks
  | done v m =>
    cases v with
    | some v => exact hr.2.1.tasks
    | none =>
      obtain ⟨-, -, -, t, htasks, -⟩ := hr
      exact ⟨_, rfl, htasks⟩

namespace Machine

/-- **Native functions that show no hidden object** leave the tasks beneath them. -/
theorem Veiled.contained (hhost : host.BySyntax) (hnative : host.Tactful) (hm : m.Veiled ⟨R, []⟩)
    (hs : m.heap.Stacked (base :: bases) m.tasks) (bound : Nat) : m.Contained host bound base where
  ready t ts hopen := by
    obtain ⟨us, rest, htasks, hlength, hnested, -⟩ := hs
    rw [m.tasksAbove_eq htasks hlength] at hopen
    rw [hopen] at hnested
    exact hnested.1
  work {st f i} hframes hbase := by
    obtain ⟨T, -, -, hlifts⟩ := hm.atBoundary hs hframes hbase
    have hworked := hlifts.works (host.engine_reticent hhost hnative bound)
    cases hdone : f.work (host.engine bound) i { m.collected with frames := st } with
    | stalled => trivial
    | failed e m₁ => rw [hdone] at hworked; exact hworked.1.tasks
    | done x m₁ => rw [hdone] at hworked; exact hworked.1.tasks
  opens {st f i t q m₁} hframes hbase hdone := by
    obtain ⟨T, -, -, hlifts⟩ := hm.atBoundary hs hframes hbase
    have hE := host.engine_reticent hhost hnative bound
    have hworked := hlifts.works hE
    rw [hdone] at hworked
    obtain ⟨hm₁, hgives⟩ := hworked
    obtain ⟨hveiled, htasks⟩ := (hlifts.continued hm₁ hgives).pushed (some ⟨f.depth, f.quiet⟩)
    have hcall : m₁.heap.Clear q := (Heap.clear_prod.mp hgives.clear).2
    have hscene : Scene.Holds ⟨⟨R, []⟩, t :: st.items.map (·.task)⟩
        { m₁ with frames := m₁.frames.push { f with task := t, input := .waiting }
                  active := some ⟨f.depth, f.quiet⟩ } :=
      ⟨hveiled, htasks.trans (congrArg (t :: ·) hm₁.tasks), rfl⟩
    exact (openCall_ends hnative (hE _) hscene hcall (f.depth + 1) f.quiet).opensOn

end Machine

namespace Situation

/-- **What a host does with a machine** while it drives the innermost run on it. -/
inductive Moves (host : Host) (base : Nat) (m m' : Machine) : Prop where
  /-- The innermost frame is driven over one boundary. -/
  | crossed (bound : Nat) (hrun : (advance host (host.engine bound) base m).state? = some m')
  | collected (hrun : (collectGarbage m).state? = some m')
  /-- The innermost frame is made to fail. -/
  | aborted {e : Error} (he : m.heap.Clear e) (hrun : (abort e m).state? = some m')
  /-- The host does something else. It shows no hidden object, and leaves the frames. -/
  | altered (hh : m.heap.Shelters m'.heap) (hveiled : m'.Veiled ⟨m.realm, []⟩) (hframes : m'.frames = m.frames)

/-- **A course of a run**: from a situation in which at most one frame is open above the base, and has not started, each
machine comes about by a move from the one before. -/
structure Course (host : Host) (base : Nat) (bases : List Nat) (run : Nat → Machine) (n : Nat) : Prop where
  arises : (driven (base :: bases) (run 0)).Arises host
  fresh : ∀ f fs, (run 0).frames.above base = f :: fs → f.input = .start ∧ fs = []
  moves : ∀ i < n, Moves host base (run i) (run (i + 1))

namespace Moves

variable (hmove : Moves host base m m')
include hmove

theorem arises (hhost : host.BySyntax) (hnative : host.Tactful) (hm : (driven (base :: bases) m).Arises host) :
    (driven (base :: bases) m').Arises host := by
  cases hmove with
  | crossed bound hrun => exact hm.crossed bound hrun
  | collected hrun => exact hm.collected hrun
  | aborted he hrun => exact hm.aborted hhost hnative he hrun
  | altered hh hveiled hframes =>
    exact hm.altered hh hveiled (congrArg (·.items.map Frame.task) hframes)

theorem proceeds : m.Proceeds host base m' := by
  cases hmove with
  | crossed bound hrun => exact Machine.proceeds_crossed bound hrun
  | collected hrun => exact Machine.proceeds_collected hrun
  | aborted he hrun => exact Machine.proceeds_aborted hrun
  | altered hh hveiled hframes => exact .of_above (by rw [hframes])

/-- **What a move does to the heap**: garbage is collected, and then what is hidden is left alone. -/
theorem shelters (hhost : host.BySyntax) (hnative : host.Tactful) (hm : (driven (base :: bases) m).Veiled) :
    ∃ n, m.Sweeps n ∧ n.heap.Shelters m'.heap := by
  obtain ⟨hveiled, hstacked⟩ := hm
  have hvalid := hveiled.heap.valid
  cases hmove with
  | collected hrun => exact ⟨m', Machine.collectGarbage_sweeps hvalid hrun, .refl _⟩
  | aborted he hrun => exact ⟨m', Machine.abort_sweeps hrun, .refl _⟩
  | altered hh _ _ => exact ⟨m, .of_heap rfl, hh⟩
  | crossed bound hrun =>
    by_cases hsize : m.frames.size ≤ base
    · rw [advance_noFrame hsize] at hrun
      cases hrun
      exact ⟨m, .of_heap rfl, .refl _⟩
    refine ⟨m.collected, Machine.sweeps_collected hvalid rfl, ?_⟩
    obtain ⟨s, f, hframes, hbase⟩ := Stack.exists_push_of_lt (Nat.lt_of_not_le hsize)
    obtain ⟨T, rfl, -, hlifts⟩ := hveiled.atBoundary hstacked hframes hbase
    have hcrossed := hlifts.turned hhost hnative (host.engine_reticent hhost hnative bound)
    rw [advance_eq_turn hframes hbase] at hrun
    generalize turn host (host.engine bound) T.length f { m.collected with frames := s } = x at hcrossed hrun
    cases x with
    | stalled => cases hrun
    | failed e m₁ => exact hcrossed.elim
    | done y m₁ =>
      cases hrun
      cases y <;> exact hcrossed.1

end Moves

namespace Course

variable (hhost : host.BySyntax) (hnative : host.Tactful)
include hhost hnative

theorem arises_at (hcourse : Course host base bases run n) : ∀ i ≤ n, (driven (base :: bases) (run i)).Arises host := by
  intro i hi
  induction i with
  | zero => exact hcourse.arises
  | succ i ih => exact (hcourse.moves i hi).arises hhost hnative (ih (Nat.le_of_succ_le hi))

theorem veiled_at (hcourse : Course host base bases run n) {i : Nat} (hi : i ≤ n) :
    (driven (base :: bases) (run i)).Veiled :=
  (hcourse.arises_at hhost hnative i hi).veiled hhost hnative

/-- **A course is a trail.** -/
theorem trail (hcourse : Course host base bases run n) : Machine.Trail host base run n where
  fresh := hcourse.fresh
  contained i hi bound := by
    obtain ⟨hveiled, hstacked⟩ := hcourse.veiled_at hhost hnative hi.le
    exact hveiled.contained hhost hnative hstacked bound
  proceeds i hi := (hcourse.moves i hi).proceeds

end Course

end Situation

/-! ### What stays bound -/

/-- A scope inside another keeps what it binds, on a secure heap. -/
theorem Heap.Shelters.boundTo (hh : h.Shelters h') (hs : h'.Secure) (hb : h.BoundTo s name v)
    (hinner : ∀ sc, h.scope s = .ok sc → sc.parent ≠ none) : ∃ v', h'.BoundTo s name v' := by
  obtain ⟨sc, key, c, d, writable, hscope, hspells, hr, -⟩ := hb
  have hhides : h.Hides sc.object := ⟨s, sc, hscope, hinner sc hscope, rfl⟩
  obtain ⟨sc', hscope', hobject, -⟩ := hh.scope hscope
  obtain ⟨c', hr'⟩ := hh.refers hhides hr
  obtain ⟨obj, hobj, hfind⟩ := refers_iff.mp hr'
  obtain ⟨d', hd', hdata⟩ := ((hs.object hobj).2 (hh.hidden hhides)).2 key c' hfind
  have hspells' : h'.Spells key name := hspells.of_texts fun _ _ _ ht => hh.text ht
  unfold Descriptor.isAccessor at hdata
  cases hcontent : d'.content with
  | accessor get set => rw [hcontent] at hdata; cases hdata
  | data v' writable' => exact ⟨v', sc', key, c', d', writable', hscope', hspells', hobject ▸ hr', hd', hcontent⟩

/-- **A closure that is bound stays bound**, unless the name is rebound: garbage may be collected, and what is hidden is
left alone. -/
theorem Machine.keeps_closure_of_shelters (hsweeps : m.Sweeps n') (hh : n'.heap.Shelters m'.heap)
    (hs : m'.heap.Secure) (hheld : s.handle ∈ m.handles) (hb : m.heap.BoundToClosure s name F)
    (hnot : ¬ m.Rebinds m' s name) : m'.heap.BoundToClosure s name F := by
  have hretains := hsweeps.retains _ hheld
  refine keeps_closure_of_bound hb hnot (fun sc hscope hparent => ?_) ?_
  · obtain ⟨v, hv, -⟩ := hb
    refine hh.boundTo hs (Heap.BoundTo.shrunk hsweeps.shrinks hv hretains).1 fun sc' hscope' => ?_
    cases hscope.symm.trans (hsweeps.shrinks.scope hscope')
    exact hparent
  · rintro _ hv ⟨g, f, rfl, hf, hclosure⟩
    obtain ⟨-, hleft⟩ := Heap.BoundTo.shrunk hsweeps.shrinks hv hretains
    exact ⟨g, f, rfl, hf, (hclosure.shrunk (hleft _ (List.mem_singleton_self _))).of_kind (hh.kinds g)⟩

namespace Situation.Course

/-- **A declaration that control passes is bound**, among native functions that show no hidden object, too, unless it is
itself the branch of a conditional or the body of a loop. The list of which it is a statement was entered, and has been
open since; if no move in between has given the name another value but by entering a list that declares it, too, then
right after the declaration the name reads a closure, made in the scope, of a function that such a list declares under
that name. The scope is one that binds each name in a cell of its own whenever a list is entered in it; where there are
no native functions every scope is (`World.Lawful.hosts`). -/
theorem declaration_passed {t : StatementTask} {u : Task} {ts : List Task} (hhost : host.BySyntax)
    (hnative : host.Tactful) (hcourse : Course host base bases run n)
    (hhosts : ∀ i < n, ∀ k list, (run i).Enters host base (run (i + 1)) k list t.scope →
      ∃ sc, (run i).heap.Hosts t.scope sc)
    (hopen : (run n).tasksAbove base = .statement t :: u :: ts) (hstmt : t.stmt = .function f)
    (hname : f.name = some name) (hrun : (advance host (host.engine bound) base (run n)).state? = some m') :
    (∃ v : StatementTask, u = .statement v ∧ v.scope = t.scope ∧ v.stmt.HasBranch (.function f)) ∨
      ∃ i < n, ∃ list, .function f ∈ list ∧ (run i).Enters host base (run (i + 1)) ts.length list t.scope ∧
        (∀ k, i < k → k ≤ n → (run k).OpenAt base ts.length list t.scope) ∧
        ((∀ k, i < k → k < n → (run k).Rebinds (run (k + 1)) t.scope name →
            ∃ g, (run k).Hoists host base (run (k + 1)) t.scope name g) →
          ∃ o g, (∃ j, i ≤ j ∧ j < n ∧ (run j).Hoists host base (run (j + 1)) t.scope name g) ∧
            m'.heap.ClosureOf o g t.scope ∧ m'.Reads t.scope name (.object o)) := by
  have hholds : Machine.Trail.Holds host base run n t.scope name := by
    refine ⟨hhosts, fun i hi F hheld hb hnot => ?_⟩
    obtain ⟨n', hsweeps, hh⟩ := (hcourse.moves i hi).shelters hhost hnative (hcourse.veiled_at hhost hnative hi.le)
    exact Machine.keeps_closure_of_shelters hsweeps hh (hcourse.veiled_at hhost hnative hi).1.heap hheld hb hnot
  rcases (hcourse.trail hhost hnative).declared hhost hholds hopen hstmt hname with
    hbranch | ⟨i, hi, list, hf, henters, hsince, hbound⟩
  · exact .inl hbranch
  refine .inr ⟨i, hi, list, hf, henters, hsince, fun hrebinds => ?_⟩
  obtain ⟨hheld, hbound⟩ := hbound hrebinds
  obtain ⟨hveiled, hstacked⟩ := hcourse.veiled_at hhost hnative le_rfl
  -- the declaration itself does nothing
  obtain ⟨x, fs, habove, htask, -⟩ := List.map_eq_cons_iff.mp hopen
  have hcontained := hveiled.contained hhost hnative hstacked bound
  have hsame := Machine.crossed_declaration hhost hcontained habove htask hstmt hrun
  have hsweeps := Machine.sweeps_collected hveiled.heap.valid hsame
  obtain ⟨_, hbound, o, g, rfl, hg, hclosure⟩ := hbound.shrunk hsweeps.shrinks (hsweeps.retains _ hheld)
  have hvalid : m'.heap.Valid := hsame ▸ hveiled.collected.heap.valid
  exact ⟨o, g, hg, hclosure, hbound.reads hvalid⟩

end Situation.Course

end ScriptCore
