import ScriptCore.Proofs.Calls.Reaching
import ScriptCore.Proofs.Hiding.Runs

/-! # Code that is asked for shows no hidden object

A task and a native function have other code run. What they ask the engine for is what their run depends on. If one
asked for code that shows a hidden object, it would do so with an engine, too, that refuses just there; but that engine
shows no hidden object either, and the run would end on a machine that does.

* `Engine.DiffersAt`, `Poses`: what running code, native functions included, asks an engine for.
* `Query.Veiled`: **what is asked for is clear**, and so is the machine on which it is asked.
* `Routine.posed_veiled`, `Tactful.posed_veiled`: what tasks and native functions ask for.
* `Machine.Lifts.posed_veiled`: **what a boundary asks for.** -/

namespace ScriptCore

variable {α : Type} {S : Scene} {G : Ground} {T : List Task} {h : Heap} {E E' : Engine} {host : Host}
  {m m' n n' : Machine} {f : Frame} {q : Query} {i : Option (Except Error Completion)}

/-! ### Asking -/

/-- The engines are the same, but for the answer to the query on the machine `n`. A program that is executed inside a
task is a branch that is evaluated. -/
structure Engine.DiffersAt (q : Query) (n : Machine) (E E' : Engine) : Prop extends E.AgreesBut q n E' where
  start : E'.start = E.start
  step : E'.step = E.step
  run : E'.run = E.run
  execute : ∀ body m, ¬ (q = .branch (m.program body { returnLastValue := true }) ∧ n = m) →
    E'.execute body m = E.execute body m

/-- **The run on `m` asks the engine for `q` on `n`**: it comes to something else with another answer. -/
def Poses (P : Engine → Run α) (E : Engine) (m : Machine) (q : Query) (n : Machine) : Prop :=
  ∃ E', E.DiffersAt q n E' ∧ P E' m ≠ P E m

/-- What is asked for is clear. -/
def Query.Clear (h : Heap) : Query → Prop
  | .branch r => h.Clear r
  | .call callee receiver args => h.Clear callee ∧ h.Clear receiver ∧ h.Clear args

theorem Machine.Veiled.plain (hm : m.Veiled G) : m.Veiled ⟨m.realm, []⟩ :=
  ⟨hm.heap, rfl, hm.realm ▸ hm.clear, by simp, hm.frames⟩

/-- **What is asked for is clear**, and so is the machine on which it is asked. -/
structure Query.Veiled (q : Query) (n : Machine) : Prop where
  machine : n.Veiled ⟨n.realm, []⟩
  clear : q.Clear n.heap

/-- An engine that refuses what shows a hidden object shows none. -/
theorem Engine.reticent_refusing (hE : ∀ S, E.Reticent S) (hq : ¬ q.Veiled n) (e : Error) (n' : Machine) :
    ∀ S, (E.refusing q n e n').Reticent S := fun S => by
  have hsame := E.agreesBut_refusing q n e n'
  refine ⟨fun {h r} hr m hm hS => ?_, fun {h f receiver args} hf hreceiver hargs m hm hS => ?_, (hE S).start,
    (hE S).step, (hE S).run, (hE S).execute⟩
  · by_cases hhere : q = .branch r ∧ n = m
    · obtain ⟨rfl, rfl⟩ := hhere
      subst hm
      exact absurd ⟨hS.veiled.plain, hr⟩ hq
    · rw [hsame.evaluate _ _ hhere]
      exact (hE S).evaluate hr m hm hS
  · by_cases hhere : q = .call f receiver args ∧ n = m
    · obtain ⟨rfl, rfl⟩ := hhere
      subst hm
      exact absurd ⟨hS.veiled.plain, hf, hreceiver, hargs⟩ hq
    · rw [hsame.call _ _ _ _ hhere]
      exact (hE S).call hf hreceiver hargs m hm hS

/-- **What running code asks for is clear.** If it were not, an engine that refuses there would show no hidden object,
and the run would end where no task is active. -/
theorem Routine.posed_veiled {P : Engine → Run α} {Q : Heap → α → Prop} (hP : Routine P)
    (hreticent : ∀ E : Engine, (∀ S, E.Reticent S) → Reticent S h (P E) Q) (hE : ∀ S, E.Reticent S) (hm : m.heap = h)
    (hS : S.Holds m) (hE' : E.AgreesBut q n E') (hne : P E' m ≠ P E m) : q.Veiled n := by
  by_contra hq
  have hran := hreticent _ (Engine.reticent_refusing hE hq .outOfMemory { n with active := none }) m hm hS
  rw [hP.refused E q n .outOfMemory { n with active := none } hE' hne] at hran
  cases hran.2.1.active

/-- **What a native function asks for is clear.** -/
theorem Tactful.posed_veiled {P : Engine → Run α} {Q : Heap → α → Prop} (hP : Tactful S P h Q) (hE : E.Reticent S)
    (hE' : E.DiffersAt q n E') (hm : m.heap = h) (hS : S.Holds m) (hne : P E' m ≠ P E m) : q.Veiled n := by
  induction hP generalizing m with
  | aside hp => exact absurd rfl hne
  | @evaluate r h hr =>
    obtain ⟨rfl, rfl⟩ := not_imp_comm.mp (hE'.evaluate r m) hne
    exact ⟨hS.veiled.plain, hm ▸ hr⟩
  | @call f receiver args h hf hreceiver hargs =>
    obtain ⟨rfl, rfl⟩ := not_imp_comm.mp (hE'.call f receiver args m) hne
    exact ⟨hS.veiled.plain, hm ▸ hf, hm ▸ hreceiver, hm ▸ hargs⟩
  | start r => exact absurd (congrFun (congrFun hE'.start r) m) hne
  | step => exact absurd (congrFun hE'.step m) hne
  | run => exact absurd (congrFun hE'.run m) hne
  | execute body =>
    obtain ⟨rfl, rfl⟩ := not_imp_comm.mp (hE'.execute body m) hne
    have hplain := hS.veiled.plain
    exact ⟨hplain, Heap.clear_request.mpr ⟨(Heap.clear_realm hplain.clear).1,
      Heap.clear_options.mpr ⟨Heap.clear_none, Heap.clear_none⟩⟩⟩
  | @bind α β P F h Q Q' hP _ ihP ihF =>
    have hran := hP.reticent hE m hm hS
    beta_reduce at hne
    by_cases hfirst : P E' m = P E m
    · cases hrun : P E m with
      | failed e m₁ => exact absurd (by rw [Proc.bind_failed hrun, Proc.bind_failed (hfirst.trans hrun)]) hne
      | stalled => exact absurd (by rw [Proc.bind_stalled hrun, Proc.bind_stalled (hfirst.trans hrun)]) hne
      | done a m₁ =>
        rw [hrun] at hran
        rw [Proc.bind_done hrun, Proc.bind_done (hfirst.trans hrun)] at hne
        exact ihF m₁.heap a hran.1 hran.2.2 rfl hran.2.1 hne
    · exact ihP hm hS hfirst
  | attempt _ ihP =>
    refine ihP hm hS fun hsame => hne ?_
    show Proc.attempt _ m = Proc.attempt _ m
    simp only [Proc.attempt, hsame]

/-! ### What a boundary asks for -/

/-- What opening a call asks for: a native function is called at once. -/
theorem openCall_posed (hnative : host.Tactful) (hE : E.Reticent S) (hE' : E.DiffersAt q n E') (hm : S.Holds m)
    {r : CallRequest} (hr : m.heap.Clear r) (depth : Nat) (quiet : Bool)
    (hne : openCall host E' r depth quiet m ≠ openCall host E r depth quiet m) : q.Veiled n := by
  obtain ⟨-, -, k, -, -, -, hcall⟩ | hcall := openCall_cases host m r depth quiet
  · obtain ⟨-, hreceiver, hargs, -⟩ := Heap.clear_call.mp hr
    rw [hcall, hcall, map_eq_pure_bind, map_eq_pure_bind, Proc.bind_eq, Proc.bind_eq] at hne
    exact (tactful_callNative hnative k hreceiver hargs).posed_veiled hE hE' rfl hm fun hsame => hne (by rw [hsame])
  · exact absurd (by rw [hcall, hcall]) hne

namespace Machine.Lifts

/-- What the task of the frame asks for. -/
theorem work_posed (hE : ∀ S, E.Reticent S) (hE' : E.DiffersAt q n E') (hm : m.Lifts G T (f.fed i))
    (hne : f.work E' i m ≠ f.work E i m) : q.Veiled n := by
  obtain ⟨htask, hstored, hi, ts, -, hnested⟩ := hm.fed
  have hwork : ∀ E : Engine, f.work E i m = Proc.bind (crossing i) (fun _ => f.running (f.task.doing E i)) m :=
    fun _ => rfl
  rw [hwork, hwork] at hne
  unfold Proc.bind crossing at hne
  generalize m.monitor.crossed i = crossed at hne
  obtain ⟨x, k⟩ := crossed
  cases x with
  | error e => exact absurd rfl hne
  | ok _ =>
    have hholds : Scene.Holds ⟨G, m.tasks⟩ { m with monitor := k, active := some ⟨f.depth, f.quiet⟩ } :=
      ⟨hm.veiled.congr rfl rfl rfl, rfl, rfl⟩
    refine (f.task.routine_doing i).posed_veiled (m := { m with monitor := k, active := some ⟨f.depth, f.quiet⟩ })
      (fun E hE => Task.reticent_doing hE htask hstored hnested.1 hi) hE rfl hholds hE'.toAgreesBut fun hsame => hne ?_
    dsimp only
    unfold Frame.running
    rw [hsame]

/-- What a frame asks for when it is suspended: a native function is called at once. -/
theorem suspended_posed (hnative : host.Tactful) (hE : ∀ S, E.Reticent S) (hE' : E.DiffersAt q n E')
    (hm : m.Lifts G T f) {c : Suspension} (hc : m.heap.Clear c)
    (hne : suspend host E' f c m ≠ suspend host E f c m) : q.Veiled n := by
  obtain ⟨hveiled, -⟩ := hm.pushed (some ⟨f.depth, f.quiet⟩)
  rw [suspend_eq, suspend_eq] at hne
  cases c with
  | branch r => exact absurd rfl hne
  | call r =>
    refine openCall_posed (S := ⟨G, _⟩) (m := { m with frames := m.frames.push f, active := some ⟨f.depth, f.quiet⟩ })
      hnative (hE _) hE' ⟨hveiled, rfl, rfl⟩ hc (f.depth + 1) f.quiet fun hsame => hne ?_
    simp only [openChild, Bind.bind, Proc.bind, Proc.attempt, hsame]

/-- **What a boundary asks for is clear.** -/
theorem posed_veiled (hnative : host.Tactful) (hE : ∀ S, E.Reticent S) (hE' : E.DiffersAt q n E') (hm : m.Lifts G T f)
    {base : Nat} (hne : turn host E' base f m ≠ turn host E base f m) : q.Veiled n := by
  induction f using Frame.fed_cases with
  | fed f i =>
    rw [turn_fed, turn_fed] at hne
    by_cases hsame : f.work E' i m = f.work E i m
    · have hworked := hm.works hE
      rw [hsame] at hne
      generalize f.work E i m = x at hworked hne
      rcases x with ⟨⟨t, step⟩, m₁⟩ | ⟨e, m₁⟩ | _
      · obtain ⟨hm₁, hgives⟩ := hworked
        cases step with
        | finished c => exact absurd rfl hne
        | suspended c =>
          have hstep := (Heap.clear_prod.mp hgives.clear).2
          refine (hm.continued hm₁ hgives).suspended_posed hnative hE hE' hstep fun hsame => hne ?_
          dsimp only
          rw [hsame]
      · exact absurd rfl hne
      · exact absurd rfl hne
    · exact hm.work_posed hE hE' hsame
  | fail f e hinput => exact absurd (by rw [turn_fail hinput, turn_fail hinput]) hne
  | waiting f hinput => exact absurd (by rw [turn_waiting hinput, turn_waiting hinput]) hne

end Machine.Lifts

end ScriptCore
