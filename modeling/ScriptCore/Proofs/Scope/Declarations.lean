import ScriptCore.Proofs.Calls.Courses
import ScriptCore.Proofs.Calls.Declaring
import ScriptCore.Proofs.Scope.Lists

/-! # Function declarations that run

When a list of statements is entered its functions are bound, before the first of its statements runs. From then on the
name stays bound in the scope, whatever runs and however often garbage is collected: in an inner scope to some value,
and in the outermost scope as long as the property is not removed. So when control comes to a declaration that is a
statement of the list, the name is bound to a closure, unless it was given another value in between.

A declaration that is itself the branch of a conditional or the body of a loop is a statement of no list, and is never
bound.

* `World.Lawful.hosts`: where there are no native functions, a scope binds each name in a cell of its own.
* `Machine.Moves.keeps_closure`: a closure that is bound stays bound, unless a move rebinds the name.
* `Machine.Course.declaration_bound`: **a declaration that control passes is bound.** -/

namespace ScriptCore

variable {S : Setting} {w : World} {host : Host} {E : Engine} {base n k : Nat} {m m' : Machine} {s : ScopeRef}
  {sc : Scope} {name : String} {f : Function} {F : Function → Prop} {list : List Stmt} {run : Nat → Machine}

/-! ### What a lawful scope binds -/

namespace World.Lawful

variable (hw : w.Lawful S)
include hw

theorem wellKept : w.heap.WellKept := ⟨hw.heap.valid, hw.heap.numbered⟩

/-- **A scope binds each name in a cell of its own.** -/
theorem hosts (hs : w.heap.scope s = .ok sc) : w.heap.Hosts s sc := by
  have hproper := hw.heap.scopes s sc hs
  refine ⟨hw.wellKept, hs, hproper.target, ?_, fun key c hr => hw.heap.cells _ key c hr, fun key key' c hr hr' => ?_⟩
  · cases hparent : sc.parent with
    | none =>
      rw [hproper.outermost hparent]
      obtain ⟨obj, ho, -⟩ := hw.realm.global
      exact ⟨obj, ho⟩
    | some p =>
      obtain ⟨obj, ho, -⟩ := (hproper.inner p hparent).2
      exact ⟨obj, ho⟩
  · by_contra hne
    -- only the object with the arguments of a call shares a cell with that in which the call binds names
    obtain ⟨k, hk, i, -, -, hpair⟩ := hw.pair hr hr' fun hsame => hne hsame.2
    have hboth : k.bindings = sc.object ∧ k.arguments = some sc.object := by
      rcases hpair with ⟨hb, -, ha, -⟩ | ⟨hb, -, ha, -⟩
      · exact ⟨hb.symm, ha⟩
      · exact ⟨hb.symm, ha⟩
    have hprivate := (hw.calls k hk).bindings
    rw [hboth.1] at hprivate
    exact hprivate.not_public ((hw.calls k hk).arguments _ hboth.2).2.1

/-- A scope inside another binds each name that it declares to a value. -/
theorem exists_boundTo (hd : w.heap.Declares s name) : ∃ v, w.heap.BoundTo s name v := by
  obtain ⟨sc, key, c, hs, hparent, hspells, hr⟩ := hd
  obtain ⟨p, hp⟩ := Option.ne_none_iff_exists'.mp hparent
  obtain ⟨-, hprivate⟩ := (hw.heap.scopes s sc hs).inner p hp
  obtain ⟨d, hd⟩ := hw.heap.cells _ key c hr
  have hdata := hw.heap.data _ key c d hprivate hr hd
  unfold Descriptor.isAccessor at hdata
  cases hcontent : d.content with
  | accessor get set => rw [hcontent] at hdata; cases hdata
  | data v writable => exact ⟨v, sc, key, c, d, writable, hs, hspells, hr, hd, hcontent⟩

end World.Lawful

/-- An open task runs in a live scope, which binds each name in a cell of its own. -/
theorem World.Follows.hosts (hw : w.Follows S base m) (henters : m.Enters host base m' k list s) :
    ∃ sc, m.heap.Hosts s sc := by
  obtain ⟨f, fs, bound, habove, -, -, hcode, -⟩ := henters
  obtain ⟨t, htask, rfl, rfl⟩ := Task.code?_eq_statements hcode
  have hstands := hw.stands
  rw [habove] at hstands
  have hproper := hstands.head.task
  rw [htask] at hproper
  obtain ⟨o, sc, hs, -⟩ := StatementsTask.Proper.scope hproper
  exact ⟨sc, hw.describes.heap ▸ hw.lawful.hosts hs⟩

/-! ### Moves -/

namespace Machine

/-- **A move that crosses no boundary** changes nothing on the heap but that it may collect garbage. -/
theorem Moves.sweeps (hv : m.heap.Valid) (hmove : m.Moves host base m') : m.Sweeps m' ∨
    ∃ bound, base < m.frames.size ∧ (advance host (host.engine bound) base m).state? = some m' := by
  cases hmove with
  | crossed bound hrun =>
    by_cases hsize : base < m.frames.size
    · exact .inr ⟨bound, hsize, hrun⟩
    · rw [advance_noFrame (Nat.le_of_not_lt hsize)] at hrun
      cases hrun
      exact .inl (.of_heap rfl)
  | collected hrun => exact .inl (collectGarbage_sweeps hv hrun)
  | aborted he hrun => exact .inl (abort_sweeps hrun)
  | elapsed k => exact .inl (.of_heap rfl)

/-- **A closure that is bound stays bound**, unless the move rebinds the name. -/
theorem Moves.keeps_closure (hhost : host.BySyntax) (hw : w.Follows S base m) (hmove : m.Moves host base m')
    (hheld : s.handle ∈ m.handles) (hb : m.heap.BoundToClosure s name F) (hnot : ¬ m.Rebinds m' s name) :
    m'.heap.BoundToClosure s name F := by
  have hvalid : m.heap.Valid := hw.describes.heap ▸ hw.lawful.heap.valid
  rcases hmove.sweeps hvalid with hsweeps | ⟨bound, hsize, hrun⟩
  · exact hb.shrunk hsweeps.shrinks (hsweeps.retains _ hheld)
  obtain ⟨w₁, w', hw₁, hacts, hw'⟩ := hw.crossed_acts hhost hsize bound hrun
  obtain ⟨hshrinks, hretains⟩ : m.Sweeps m.collected := sweeps_collected hvalid rfl
  refine keeps_closure_of_bound hb hnot (fun sc hs hparent => ?_) ?_
  · obtain ⟨v, hv, -⟩ := hb
    obtain ⟨⟨sc₁, key, c, d, writable, hs₁, hspells, hr, -⟩, -⟩ := Heap.BoundTo.shrunk hshrinks hv (hretains _ hheld)
    cases hs.symm.trans (hshrinks.scope hs₁)
    rw [hw₁.describes.heap] at hs₁ hspells hr
    rw [hw'.describes.heap]
    exact hw'.lawful.exists_boundTo (hacts.declares hw₁.lawful ⟨sc, key, c, hs₁, hparent, hspells, hr⟩)
  · rintro _ hv ⟨g, f, rfl, hf, hclosure⟩
    obtain ⟨-, hleft⟩ := Heap.BoundTo.shrunk hshrinks hv (hretains _ hheld)
    refine ⟨g, f, rfl, hf, (hclosure.shrunk (hleft _ (List.mem_singleton_self _))).of_kind fun obj ho => ?_⟩
    rw [hw₁.describes.heap] at ho
    obtain ⟨obj', ho', hkind, -⟩ := hacts.stays.objects g obj trivial ho
    exact ⟨obj', hw'.describes.heap ▸ ho', hkind⟩

/-- **Along a course** a closure that a scope binds stays bound unless the name is rebound. -/
theorem Course.holds (hhost : host.BySyntax) (hcourse : Course host base run n) (s : ScopeRef) (name : String) :
    Trail.Holds host base run n s name where
  hosts i hi k list henters := by
    obtain ⟨w, hw⟩ := (hcourse.reaches_at i hi.le).follows hhost
    exact hw.hosts henters
  keeps i hi F hheld hb hnot := by
    obtain ⟨w, hw⟩ := (hcourse.reaches_at i hi.le).follows hhost
    exact (hcourse.moves i hi).keeps_closure hhost hw hheld hb hnot

/-! ### Declarations that run -/

/-- **A declaration that runs does nothing**: it is the list that has bound its function. -/
theorem Moves.sweeps_declaration {t : StatementTask} {ts : List Task} (hhost : host.BySyntax) (hw : w.Follows S base m)
    (hmove : m.Moves host base m') (hopen : m.tasksAbove base = .statement t :: ts) (hstmt : t.stmt = .function f) :
    m.Sweeps m' := by
  have hvalid : m.heap.Valid := hw.describes.heap ▸ hw.lawful.heap.valid
  rcases hmove.sweeps hvalid with hsweeps | ⟨bound, -, hrun⟩
  · exact hsweeps
  obtain ⟨x, fs, habove, htask, -⟩ := List.map_eq_cons_iff.mp hopen
  exact sweeps_collected hvalid (crossed_declaration hhost (hw.contained bound) habove htask hstmt hrun)

namespace Course

/-- **A declaration that control passes is bound**, unless it is itself the branch of a conditional or the body of a
loop. The list of which it is a statement was entered, and has been open since; if no move in between has given the
name another value but by entering a list that declares it, too, then right after the declaration the name reads a
closure, made in the scope, of a function that such a list declares under that name. -/
theorem declaration_bound {t : StatementTask} {u : Task} {ts : List Task} (hhost : host.BySyntax)
    (hcourse : Course host base run (n + 1)) (hopen : (run n).tasksAbove base = .statement t :: u :: ts)
    (hstmt : t.stmt = .function f) (hname : f.name = some name) :
    (∃ v : StatementTask, u = .statement v ∧ v.scope = t.scope ∧ v.stmt.HasBranch (.function f)) ∨
      ∃ i < n, ∃ list, .function f ∈ list ∧ (run i).Enters host base (run (i + 1)) ts.length list t.scope ∧
        (∀ k, i < k → k ≤ n → (run k).OpenAt base ts.length list t.scope) ∧
        ((∀ k, i < k → k < n → (run k).Rebinds (run (k + 1)) t.scope name →
            ∃ g, (run k).Hoists host base (run (k + 1)) t.scope name g) →
          ∃ o g, (∃ j, i ≤ j ∧ j < n ∧ (run j).Hoists host base (run (j + 1)) t.scope name g) ∧
            (run (n + 1)).heap.ClosureOf o g t.scope ∧ (run (n + 1)).Reads t.scope name (.object o)) := by
  have hcourse' := hcourse.upTo n.le_succ
  rcases (hcourse'.trail hhost).declared hhost (hcourse'.holds hhost t.scope name) hopen hstmt hname with
    hbranch | ⟨i, hi, list, hf, henters, hsince, hbound⟩
  · exact .inl hbranch
  refine .inr ⟨i, hi, list, hf, henters, hsince, fun hrebinds => ?_⟩
  obtain ⟨hheld, hbound⟩ := hbound hrebinds
  obtain ⟨w, hw⟩ := (hcourse'.reaches_at n le_rfl).follows hhost
  -- the declaration itself does nothing
  have hsweeps := (hcourse.moves n n.lt_succ_self).sweeps_declaration hhost hw hopen hstmt
  obtain ⟨_, hbound, o, g, rfl, hg, hclosure⟩ := hbound.shrunk hsweeps.shrinks (hsweeps.retains _ hheld)
  obtain ⟨w', hw'⟩ := (hcourse.reaches_at (n + 1) le_rfl).follows hhost
  exact ⟨o, g, hg, hclosure, hbound.reads (hw'.describes.heap ▸ hw'.lawful.heap.valid)⟩

end Course

end Machine

/-- The task runs a list of statements. -/
def Task.isList : Task → Bool
  | .statements _ => true
  | _ => false

namespace Machine

/-- The function that is declared under the name where control is, the declaration, and the tasks around it. -/
def declaring? (m : Machine) (name : String) : Option (Function × StatementTask × Task × List Task) :=
  match m.tasksAbove 0 with
  | .statement t :: u :: ts =>
    match t.stmt with
    | .function f => if f.name = some name then some (f, t, u, ts) else none
    | _ => none
  | _ => none

theorem declaring?_eq_some {t : StatementTask} {u : Task} {ts : List Task}
    (hm : m.declaring? name = some (f, t, u, ts)) :
    m.tasksAbove 0 = .statement t :: u :: ts ∧ t.stmt = .function f ∧ f.name = some name := by
  unfold declaring? at hm
  split at hm
  · next htasks =>
    split at hm
    · next hstmt =>
      split_ifs at hm with hname
      cases hm
      exact ⟨htasks, hstmt, hname⟩
    · cases hm
  · cases hm

/-- A program that calls a function in which a `try` statement declares another. -/
def declaredInTry : List Stmt :=
  [.function (.ofBody (some "g") [] (.block
      [.tryCatch [.function (.ofBody (some "f") [] (.block []))] none []])),
    .expr (.call (.ident "g") [])]

namespace Course

/-- A function that is declared in the block of a `try` statement is bound when control has passed the declaration. -/
theorem declaration_bound_tryBlock : ∃ (run : Nat → Machine) (n : Nat) (t : StatementTask) (f g : Function)
    (o : ObjectRef), Course (Host.plain []) 0 run (n + 1) ∧ (∃ u ts, (run n).tasksAbove 0 = .statement t :: u :: ts) ∧
      t.stmt = .function f ∧ f.name = some "f" ∧ g.name = some "f" ∧
      (run (n + 1)).heap.ClosureOf o g t.scope ∧ (run (n + 1)).Reads t.scope "f" (.object o) := by
  have hruns : ((openedProgram .standard declaredInTry).bind fun m =>
      ((m.driven (Host.plain []) 1 0 11).declaring? "f").map fun x =>
        x.2.2.1.isList && decide (x.2.2.2.length = 6) && (List.range 10).all fun i =>
          decide (((m.driven (Host.plain []) 1 0 i).frames.above 0).length ≠ 7)) = some true := by
    decide +kernel
  obtain ⟨m, hopened, hruns⟩ := Option.bind_eq_some_iff.mp hruns
  obtain ⟨⟨f, t, u, ts⟩, hdeclaring, hruns⟩ := Option.map_eq_some_iff.mp hruns
  simp only [Bool.and_eq_true, decide_eq_true_eq, List.all_eq_true, List.mem_range] at hruns
  obtain ⟨⟨hlist, hheight⟩, hlower⟩ := hruns
  obtain ⟨htasks, hstmt, hname⟩ := declaring?_eq_some hdeclaring
  have hcourse := of_openedProgram hopened 1 12
  rcases declaration_bound (Host.bySyntax_plain []) hcourse htasks hstmt hname with ⟨v, rfl, -⟩ | hentered
  · cases hlist
  obtain ⟨i, hi, list, -, henters, -, hbound⟩ := hentered
  -- the list is entered just before
  obtain rfl : i = 10 := by
    obtain ⟨x, fs, -, habove, -, hfs, -⟩ := henters
    by_contra hne
    refine hlower i (by omega) ?_
    rw [habove, List.length_cons, hfs, hheight]
  obtain ⟨o, g, ⟨-, -, -, hg, -⟩, hclosure, hreads⟩ := hbound fun k hik hk => by omega
  exact ⟨_, 11, t, f, g, o, hcourse, ⟨u, ts, htasks⟩, hstmt, hname, hg, hclosure, hreads⟩

end Course

/-- A program in which a function is declared as the branch of a conditional. -/
def declaredAsBranch : List Stmt := [.ifThen (.bool true) (.function (.ofBody (some "f") [] (.block []))) none]

/-- Looking the name up fails because it is not bound. -/
def unresolved (m : Machine) (E : Engine) (s : ScopeRef) (name : String) : Bool :=
  match lookupName E s name m with
  | .failed (.unresolvedReference _) _ => true
  | _ => false

/-- What is not found has no value, and the scope does not bind it. -/
theorem not_reads_of_unresolved (hnone : m.unresolved E s name = true) (v : Value) : ¬ m.Reads s name v := by
  intro hreads
  unfold unresolved at hnone
  rcases hreads E with ⟨h, hfound⟩ | ⟨-, hfull⟩
  · rw [hfound] at hnone
    cases hnone
  · rw [hfull] at hnone
    cases hnone

/-- **A function that is declared as the branch of a conditional is never bound**: control passes the declaration, no
move has given the name a value, and the name reads nothing. -/
theorem branch_declaration_unbound : ∃ (run : Nat → Machine) (n : Nat) (t u : StatementTask) (ts : List Task)
    (f : Function), Course (Host.plain []) 0 run (n + 1) ∧ (run n).tasksAbove 0 = .statement t :: .statement u :: ts ∧
      t.stmt = .function f ∧ f.name = some "f" ∧ u.stmt.HasBranch (.function f) ∧
      (∀ k ≤ n + 1, ∀ v, ¬ (run k).heap.BoundTo t.scope "f" v) ∧ ∀ v, ¬ (run (n + 1)).Reads t.scope "f" v := by
  have hruns : ((openedProgram .standard declaredAsBranch).bind fun m =>
      ((m.driven (Host.plain []) 1 0 4).declaring? "f").map fun x => !x.2.2.1.isList && (List.range 6).all fun k =>
        (m.driven (Host.plain []) 1 0 k).unresolved ((Host.plain []).engine 1) x.2.1.scope "f") = some true := by
    decide +kernel
  obtain ⟨m, hopened, hruns⟩ := Option.bind_eq_some_iff.mp hruns
  obtain ⟨⟨f, t, u, ts⟩, hdeclaring, hruns⟩ := Option.map_eq_some_iff.mp hruns
  simp only [Bool.and_eq_true, List.all_eq_true, List.mem_range, Bool.not_eq_true'] at hruns
  obtain ⟨hlist, hunresolved⟩ := hruns
  obtain ⟨htasks, hstmt, hname⟩ := declaring?_eq_some hdeclaring
  have hhost := Host.bySyntax_plain []
  have hcourse := Course.of_openedProgram hopened 1 5
  have hunbound : ∀ k ≤ 5, ∀ v, ¬ (m.driven (Host.plain []) 1 0 k).heap.BoundTo t.scope "f" v := by
    intro k hk v hbound
    obtain ⟨w, hw⟩ := (hcourse.reaches_at k hk).follows hhost
    exact not_reads_of_unresolved (hunresolved k (by omega)) v (hbound.reads (hw.describes.heap ▸ hw.lawful.heap.valid))
  have htrail := (hcourse.upTo (Nat.le_succ 4)).trail hhost
  rcases htrail.declared_in hhost htasks hstmt with ⟨v, rfl, -, hbranch⟩ | ⟨list, hcode, -⟩
  · exact ⟨_, 4, t, v, ts, f, hcourse, htasks, hstmt, hname, hbranch, hunbound,
      fun v => not_reads_of_unresolved (hunresolved 5 (by omega)) v⟩
  · obtain ⟨x, rfl, -⟩ := Task.code?_eq_statements hcode
    cases hlist

end Machine

end ScriptCore
