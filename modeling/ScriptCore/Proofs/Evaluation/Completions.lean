import ScriptCore.Proofs.Evaluation.Throws

/-! # The values of statement lists and of loops

A list of statements asks for one statement after the other, and a loop for its test and its body in turn. Each
completion may have a value or none, and what the whole ends with has the last value that there was. Here a task is
followed through all that it is told: how its children came out, and which machines they left.

* `Task.Comes`: what a task comes to when it is told one reply after the other.
* `lastValue`: the last value of those that there were.
* `StatementsTask.Ends`, `LoopEnds`: how a list goes on after the statements that completed normally, and a loop
  after the rounds that went on.
* `completions_updateEmpty`: **a list and a loop end with the last value that is not missing**, and where they end. -/

namespace ScriptCore

/-- What a task is told: what became of the child that it asked for, and the machine that this left. -/
structure Reply where
  outcome : Except Error Completion
  machine : Machine

variable {E : Engine} {m m' : Machine} {r : Except Error Step} {replies : List Reply} {last : Option Value}

/-- **A task that has come to `o` comes to `r`** and leaves the machine `m'`, if it is told one reply after the other,
each after it asked for a child. -/
def Task.Comes (E : Engine) : List Reply → Outcome Machine (Except Error Step × Task) → Except Error Step → Machine →
    Prop
  | [], o, r, m' => ∃ t, o = .done (r, t) m'
  | reply :: replies, o, r, m' => ∃ child t m, o = .done (.ok (.suspended child), t) m ∧
      Comes E replies (t.resume E reply.outcome reply.machine) r m'

namespace Task

variable {t : Task} {r₀ : Except Error Step} {reply : Reply}

@[simp] theorem comes_nil : Comes E [] (.done (r₀, t) m) r m' ↔ r = r₀ ∧ m' = m := by
  constructor
  · rintro ⟨t', ⟨⟩⟩
    exact ⟨rfl, rfl⟩
  · rintro ⟨rfl, rfl⟩
    exact ⟨t, rfl⟩

@[simp] theorem comes_suspended {child : Suspension} :
    Comes E (reply :: replies) (.done (.ok (.suspended child), t) m) r m' ↔
      Comes E replies (t.resume E reply.outcome reply.machine) r m' := by
  constructor
  · rintro ⟨child, t', m₁, ⟨⟩, hcomes⟩
    exact hcomes
  · intro hcomes
    exact ⟨child, t, m, rfl, hcomes⟩

/-- A task that asked for a branch is told what became of it. -/
@[simp] theorem comes_ask {request : BranchRequest} :
    Comes E (reply :: replies) (.done (.ok (.ask request), t) m) r m' ↔
      Comes E replies (t.resume E reply.outcome reply.machine) r m' := comes_suspended

/-- A task that has ended is told nothing more. -/
@[simp] theorem comes_finished {c : Completion} : Comes E replies (.done (.ok (.finished c), t) m) r m' ↔
    replies = [] ∧ r = .ok (.finished c) ∧ m' = m := by
  cases replies with
  | nil => simp
  | cons reply replies =>
    refine iff_of_false ?_ nofun
    rintro ⟨child, t', m₁, ⟨⟩, -⟩

@[simp] theorem comes_error {e : Error} : Comes E replies (.done (.error e, t) m) r m' ↔
    replies = [] ∧ r = .error e ∧ m' = m := by
  cases replies with
  | nil => simp
  | cons reply replies =>
    refine iff_of_false ?_ nofun
    rintro ⟨child, t', m₁, ⟨⟩, -⟩

end Task

/-! ### Values, missing or not -/

/-- The last of the values that are not missing. -/
def lastValue (vs : List (Option Value)) : Option Value := (vs.filterMap id).getLast?

theorem lastValue_cons (last v : Option Value) (vs : List (Option Value)) :
    lastValue (last :: v :: vs) = lastValue (v.or last :: vs) := by
  unfold lastValue
  cases v with
  | none => simp
  | some w =>
    cases last with
    | none => simp
    | some u => simp [List.getLast?_cons_cons]

theorem lastValue_single (last : Option Value) : lastValue [last] = last := by
  cases last <;> rfl

theorem lastValue_none_cons (vs : List (Option Value)) : lastValue (none :: vs) = lastValue vs := by
  simp [lastValue]

theorem lastValue_concat (vs : List (Option Value)) (v : Option Value) :
    lastValue (vs ++ [v]) = v.or (lastValue vs) := by
  unfold lastValue
  rw [List.filterMap_append]
  cases v <;> simp

/-- The machine after the last of the replies. -/
def left (m : Machine) (replies : List Reply) : Machine := (replies.map (·.machine)).getLast?.getD m

theorem left_cons (m : Machine) (reply : Reply) (replies : List Reply) :
    left m (reply :: replies) = left reply.machine replies := by
  unfold left
  rw [List.map_cons, List.getLast?_cons, Option.getD_some]

/-! ### Lists of statements -/

/-- The replies are normal completions with the given values. -/
inductive Normally : List Reply → List (Option Value) → Prop where
  | nil : Normally [] []
  | cons {v : Option Value} {m : Machine} {replies : List Reply} {vs : List (Option Value)} (rest : Normally replies vs) :
      Normally (⟨.ok (.normal v), m⟩ :: replies) (v :: vs)

/-- **What is made of an abrupt completion** by a list or a loop whose last value is `last`: a `break` or a `continue`
without a value gets it, and anything else is left as it is. -/
inductive Completion.HandedOn (last : Option Value) : Completion → Completion → Prop where
  | thrown (v : Value) : HandedOn last (.thrown v) (.thrown v)
  | returned (v : Value) : HandedOn last (.returned v) (.returned v)
  | broken (label : Option String) (v : Option Value) : HandedOn last (.broken label v) (.broken label (v.or last))
  | continued (label : Option String) (v : Option Value) :
      HandedOn last (.continued label v) (.continued label (v.or last))

namespace Completion

variable {c d : Completion}

theorem HandedOn.eq_updateEmpty (hd : c.HandedOn last d) : d = c.updateEmpty last := by
  cases hd <;> simp

theorem handedOn_updateEmpty (hc : c.isAbrupt = true) (last : Option Value) : c.HandedOn last (c.updateEmpty last) := by
  cases c with
  | normal v => cases hc
  | thrown v => exact .thrown v
  | returned v => exact .returned v
  | broken label v => rw [updateEmpty_broken]; exact .broken label v
  | continued label v => rw [updateEmpty_continued]; exact .continued label v

end Completion

namespace StatementsTask

variable {t : StatementsTask} {rest : List Stmt}

/-- **How a list goes on** with the statements `rest`, when the last value so far is `last`: it asks for the next
statement; it has none left and ends normally, a function body without a value unless it was asked for; or the next
statement completes abruptly or fails, and so does the list. -/
inductive Ends (t : StatementsTask) (last : Option Value) (m : Machine) :
    List Stmt → List Reply → Except Error Step → Machine → Prop where
  | asks (s : Stmt) (rest : List Stmt) : Ends t last m (s :: rest) [] (.ok (.ask (.statement s t.scope))) m
  | ends : Ends t last m [] []
      (.ok (.finished (if t.kind = .function ∧ t.options.returnLastValue = false then .empty else .normal last))) m
  | abrupt (s : Stmt) (rest : List Stmt) {c d : Completion} (m' : Machine) (hd : c.HandedOn last d) :
      Ends t last m (s :: rest) [⟨.ok c, m'⟩] (.ok (.finished d)) m'
  | fails (s : Stmt) (rest : List Stmt) (e : Error) (m' : Machine) :
      Ends t last m (s :: rest) [⟨.error e, m'⟩] (.error e) m'

/-- **What a list comes to**: some statements complete normally, one after the other, and the list goes on as `Ends`
says. -/
def Says (t : StatementsTask) (last : Option Value) (m : Machine) (list : List Stmt) (replies : List Reply)
    (r : Except Error Step) (m' : Machine) : Prop :=
  ∃ before after vs, replies = before ++ after ∧ Normally before vs ∧ before.length ≤ list.length ∧
    t.Ends (lastValue (last :: vs)) (left m before) (list.drop before.length) after r m'

/-- One more statement completes normally. -/
theorem says_normal (s : Stmt) (v : Option Value) (m₁ : Machine) :
    t.Says last m (s :: rest) (⟨.ok (.normal v), m₁⟩ :: replies) r m' ↔ t.Says (v.or last) m₁ rest replies r m' := by
  constructor
  · rintro ⟨before, after, vs, heq, hnormal, hle, hends⟩
    cases before with
    | nil =>
      obtain rfl : _ = after := heq
      rcases hends with _ | _ | ⟨_, _, _, habrupt⟩ | _
      cases habrupt
    | cons reply before =>
      obtain ⟨rfl, rfl⟩ := List.cons.inj heq
      rcases hnormal with _ | hnormal
      rw [lastValue_cons, left_cons] at hends
      exact ⟨before, after, _, rfl, hnormal, Nat.le_of_succ_le_succ hle, hends⟩
  · rintro ⟨before, after, vs, rfl, hnormal, hle, hends⟩
    refine ⟨_ :: before, after, v :: vs, rfl, .cons hnormal, Nat.succ_le_succ hle, ?_⟩
    rw [lastValue_cons, left_cons]
    exact hends

/-- Anything else that is the first to be said ends the list, or is not said at all. -/
theorem says_iff_ends (hfirst : ∀ v, ∀ reply ∈ replies.head?, reply.outcome ≠ .ok (.normal v)) :
    t.Says last m rest replies r m' ↔ t.Ends last m rest replies r m' := by
  constructor
  · rintro ⟨before, after, vs, rfl, hnormal, hle, hends⟩
    rcases hnormal with _ | hnormal
    · rwa [lastValue_single] at hends
    · exact absurd rfl (hfirst _ _ rfl)
  · intro hends
    refine ⟨[], replies, [], rfl, .nil, Nat.zero_le _, ?_⟩
    rw [lastValue_single]
    exact hends

theorem ending_eq (t : StatementsTask) : t.ending =
    if t.kind = .function ∧ t.options.returnLastValue = false then .empty else .normal t.last := by
  unfold ending
  congr 1
  simp

/-- A list that was told of a normal completion goes on with the value of the statement, or else with its own. -/
theorem resume_normal (t : StatementsTask) (v : Option Value) (m : Machine) :
    (Task.statements t).resume E (.ok (.normal v)) m =
      .done (.ok ({ t with last := v.or t.last } : StatementsTask).advance.2,
        .statements ({ t with last := v.or t.last } : StatementsTask).advance.1) m := by
  cases v <;> rfl

/-- A list that was told of an abrupt completion ends with it. -/
theorem resume_abrupt (t : StatementsTask) {c : Completion} (hc : c.isAbrupt = true) (m : Machine) :
    (Task.statements t).resume E (.ok c) m = .done (.ok (.finished (c.updateEmpty t.last)), .statements t) m := by
  rcases c with _ | _ | _ | ⟨label, _ | v⟩ | ⟨label, _ | v⟩ <;> first | rfl | cases hc

/-- **A list that goes on comes to what `Says` says.** -/
theorem comes_advance (t : StatementsTask) : ∀ (replies : List Reply) (rest : List Stmt) (last : Option Value)
    (m : Machine), Task.Comes E replies (.done (.ok ({ t with rest, last } : StatementsTask).advance.2,
      .statements ({ t with rest, last } : StatementsTask).advance.1) m) r m' ↔ t.Says last m rest replies r m'
  | replies, [], last, m => by
    refine Task.comes_finished.trans ?_
    rw [ending_eq]
    constructor
    · rintro ⟨rfl, rfl, rfl⟩
      exact (says_iff_ends (by simp)).mpr .ends
    · rintro ⟨before, after, vs, rfl, hnormal, hle, hends⟩
      obtain rfl := List.length_eq_zero_iff.mp (Nat.le_zero.mp hle)
      rcases hnormal with _ | _
      rw [lastValue_single] at hends
      cases hends
      exact ⟨rfl, rfl, rfl⟩
  | [], s :: rest, last, m => by
    rw [says_iff_ends (by simp)]
    refine Task.comes_nil.trans ⟨?_, ?_⟩
    · rintro ⟨rfl, rfl⟩
      exact .asks s rest
    · rintro ⟨⟩
      exact ⟨rfl, rfl⟩
  | ⟨.error e, m₁⟩ :: replies, s :: rest, last, m => by
    rw [says_iff_ends (by simp)]
    refine Task.comes_ask.trans (Task.comes_error.trans ⟨?_, ?_⟩)
    · rintro ⟨rfl, rfl, rfl⟩
      exact .fails s rest e _
    · rintro ⟨⟩
      exact ⟨rfl, rfl, rfl⟩
  | ⟨.ok c, m₁⟩ :: replies, s :: rest, last, m => by
    refine Task.comes_ask.trans ?_
    by_cases hc : c.isAbrupt = true
    · have hfirst : ∀ v, c ≠ .normal v := by
        rintro v rfl
        cases hc
      rw [says_iff_ends (by simpa using hfirst), resume_abrupt _ hc, Task.comes_finished]
      constructor
      · rintro ⟨rfl, rfl, rfl⟩
        exact .abrupt s rest _ (Completion.handedOn_updateEmpty hc last)
      · rintro ⟨⟩
        next d hd =>
          obtain rfl := hd.eq_updateEmpty
          exact ⟨rfl, rfl, rfl⟩
    · obtain ⟨v, rfl⟩ : ∃ v, c = .normal v := by
        cases c with
        | normal v => exact ⟨v, rfl⟩
        | _ => exact absurd rfl hc
      rw [says_normal, ← comes_advance t replies rest (v.or last) m₁, resume_normal]
      exact Iff.rfl

theorem hoist_ends (t : StatementsTask) (m : Machine) : t.hoist m ≠ .stalled := by
  intro hstalled
  have hends := (routine_start t).ends (E := Edit.refusing) (fun _ _ => nofun) (fun _ _ _ _ => nofun) m
  exact hends (Proc.bind_stalled hstalled _)

/-- **What a list comes to from its start**: it fails if it cannot hoist, and else it goes on with its first
statement. -/
theorem comes_start (t : StatementsTask) :
    Task.Comes E replies ((Task.statements t).start E m) r m' ↔
      (∃ e, t.hoist m = .failed e m' ∧ replies = [] ∧ r = .error e) ∨
        ∃ m₁, t.hoist m = .done () m₁ ∧ t.Says t.last m₁ t.rest replies r m' := by
  cases hhoist : t.hoist m with
  | stalled => exact absurd hhoist (t.hoist_ends m)
  | failed e m₁ =>
    have hstart : (Task.statements t).start E m = .done (.error e, .statements t) m₁ :=
      Proc.bind_done (Task.keeping_failed (Proc.bind_failed hhoist _)) _
    rw [hstart, Task.comes_error]
    constructor
    · rintro ⟨rfl, rfl, rfl⟩
      exact .inl ⟨e, rfl, rfl, rfl⟩
    · rintro (⟨e, ⟨⟩, rfl, rfl⟩ | ⟨m₁, ⟨⟩, -⟩)
      exact ⟨rfl, rfl, rfl⟩
  | done u m₁ =>
    have hstart : (Task.statements t).start E m = .done (.ok t.advance.2, .statements t.advance.1) m₁ :=
      Proc.bind_done (Task.keeping_done (Proc.bind_done hhoist _)) _
    rw [hstart]
    refine (comes_advance t replies t.rest t.last m₁).trans ⟨fun hsays => .inr ⟨m₁, rfl, hsays⟩, ?_⟩
    rintro (⟨e, ⟨⟩, -⟩ | ⟨_, ⟨⟩, hsays⟩)
    exact hsays

end StatementsTask

/-! ### Loops -/

/-- What the test of a loop came to, if the reply is told to one that asked for its test: the value of the completion is
truthy or not. -/
def Reply.tested (reply : Reply) : Except Error Bool := do
  reply.machine.heap.truthy (← reply.outcome).value

/-- The completion of a body by which a loop goes on, and its value. -/
inductive Completion.GoesOn : Completion → Option Value → Prop where
  | normal (v : Option Value) : GoesOn (.normal v) v
  | continued (v : Option Value) : GoesOn (.continued none v) v

/-- The completion of a body leaves the loop for what is around it: a `return`, a throw, or a `break` or `continue`
with a label. -/
inductive Completion.LeavesLoop : Completion → Prop where
  | returned (v : Value) : LeavesLoop (.returned v)
  | thrown (v : Value) : LeavesLoop (.thrown v)
  | broken (label : String) (v : Option Value) : LeavesLoop (.broken (some label) v)
  | continued (label : String) (v : Option Value) : LeavesLoop (.continued (some label) v)

/-- The replies are rounds of a loop that went on, with the given values of its body. -/
inductive Rounds : List Reply → List (Option Value) → Prop where
  | nil : Rounds [] []
  | cons {test : Reply} {c : Completion} {v : Option Value} {m : Machine} {replies : List Reply}
      {vs : List (Option Value)} (htest : test.tested = .ok true) (hc : c.GoesOn v) (rest : Rounds replies vs) :
      Rounds (test :: ⟨.ok c, m⟩ :: replies) (v :: vs)

/-- **How a loop goes on** after a number of rounds, when the last value so far is `last`: it asks for its test; the
test fails, and so does the loop; the test is falsy, and the loop ends normally; it is truthy, and the loop asks for its
body; the body fails, breaks off the loop, which ends normally, or leaves it. -/
inductive LoopEnds (test : Expr) (body : Stmt) (scope : ScopeRef) (last : Option Value) (m : Machine) :
    List Reply → Except Error Step → Machine → Prop where
  | asksTest : LoopEnds test body scope last m [] (.ok (.ask (.expression test scope))) m
  | testFails {reply : Reply} {e : Error} (htest : reply.tested = .error e) :
      LoopEnds test body scope last m [reply] (.error e) reply.machine
  | falsy {reply : Reply} (htest : reply.tested = .ok false) :
      LoopEnds test body scope last m [reply] (.ok (.finished (.normal last))) reply.machine
  | asksBody {reply : Reply} (htest : reply.tested = .ok true) :
      LoopEnds test body scope last m [reply] (.ok (.ask (.statement body scope))) reply.machine
  | bodyFails {reply : Reply} (htest : reply.tested = .ok true) (e : Error) (m' : Machine) :
      LoopEnds test body scope last m [reply, ⟨.error e, m'⟩] (.error e) m'
  | breaks {reply : Reply} (htest : reply.tested = .ok true) (v : Option Value) (m' : Machine) :
      LoopEnds test body scope last m [reply, ⟨.ok (.broken none v), m'⟩] (.ok (.finished (.normal (v.or last)))) m'
  | leaves {reply : Reply} (htest : reply.tested = .ok true) {c d : Completion} (hc : c.LeavesLoop)
      (hd : c.HandedOn last d) (m' : Machine) : LoopEnds test body scope last m [reply, ⟨.ok c, m'⟩] (.ok (.finished d)) m'

/-- **What a loop comes to**: some rounds go on, and then it goes on as `LoopEnds` says. -/
def LoopSays (test : Expr) (body : Stmt) (scope : ScopeRef) (last : Option Value) (m : Machine) (replies : List Reply)
    (r : Except Error Step) (m' : Machine) : Prop :=
  ∃ before after vs, replies = before ++ after ∧ Rounds before vs ∧
    LoopEnds test body scope (lastValue (last :: vs)) (left m before) after r m'

section Loop

variable {test : Expr} {body : Stmt} {scope : ScopeRef} {reply : Reply} {c : Completion} {v : Option Value}
  {m₁ : Machine}

theorem Completion.cases_loop (c : Completion) : (∃ v, c.GoesOn v) ∨ (∃ v, c = .broken none v) ∨ c.LeavesLoop := by
  rcases c with v | v | v | ⟨_ | label, v⟩ | ⟨_ | label, v⟩
  · exact .inl ⟨v, .normal v⟩
  · exact .inr (.inr (.thrown v))
  · exact .inr (.inr (.returned v))
  · exact .inr (.inl ⟨v, rfl⟩)
  · exact .inr (.inr (.broken label v))
  · exact .inl ⟨v, .continued v⟩
  · exact .inr (.inr (.continued label v))

theorem Completion.GoesOn.unique {w : Option Value} (hv : c.GoesOn v) (hw : c.GoesOn w) : v = w := by
  cases hv <;> cases hw <;> rfl

theorem Completion.LeavesLoop.isAbrupt (hc : c.LeavesLoop) : c.isAbrupt = true := by
  cases hc <;> rfl

/-- One more round goes on. -/
theorem loopSays_round (htest : reply.tested = .ok true) (hc : c.GoesOn v) :
    LoopSays test body scope last m (reply :: ⟨.ok c, m₁⟩ :: replies) r m' ↔
      LoopSays test body scope (v.or last) m₁ replies r m' := by
  constructor
  · rintro ⟨before, after, vs, heq, hrounds, hends⟩
    rcases hrounds with _ | ⟨_, hc', hrounds⟩
    · -- A completion by which the loop goes on does not end it.
      obtain rfl : _ = after := heq
      rcases hends with _ | _ | _ | _ | _ | _ | ⟨_, hleaves⟩
      · cases hc
      · cases hc <;> cases hleaves
    · cases heq
      obtain rfl := hc.unique hc'
      rw [lastValue_cons, left_cons, left_cons] at hends
      exact ⟨_, after, _, rfl, hrounds, hends⟩
  · rintro ⟨before, after, vs, rfl, hrounds, hends⟩
    refine ⟨reply :: ⟨.ok c, m₁⟩ :: before, after, v :: vs, rfl, .cons htest hc hrounds, ?_⟩
    rw [lastValue_cons, left_cons, left_cons]
    exact hends

/-- Replies that do not begin with a round that goes on end the loop, or are not said at all. -/
theorem loopSays_iff_ends (hfirst : ∀ before after vs, replies = before ++ after → Rounds before vs → before = []) :
    LoopSays test body scope last m replies r m' ↔ LoopEnds test body scope last m replies r m' := by
  constructor
  · rintro ⟨before, after, vs, heq, hrounds, hends⟩
    obtain rfl := hfirst before after vs heq hrounds
    obtain rfl : replies = after := heq
    cases hrounds
    rwa [lastValue_single] at hends
  · intro hends
    refine ⟨[], replies, [], rfl, .nil, ?_⟩
    rw [lastValue_single]
    exact hends

/-- A round that went on begins with a truthy test. -/
theorem rounds_untested (htest : reply.tested ≠ .ok true) : ∀ before after vs, reply :: replies = before ++ after →
    Rounds before vs → before = [] := by
  rintro before after vs heq hrounds
  rcases hrounds with _ | ⟨htest', -, -⟩
  · rfl
  · cases heq
    exact absurd htest' htest

/-- A round that went on ends with a completion by which a loop goes on. -/
theorem rounds_unanswered (hanswer : ∀ c v, Completion.GoesOn c v → ∀ answer ∈ replies.head?, answer.outcome ≠ .ok c) :
    ∀ before after vs, reply :: replies = before ++ after → Rounds before vs → before = [] := by
  rintro before after vs heq hrounds
  rcases hrounds with _ | ⟨-, hc, -⟩
  · rfl
  · cases heq
    exact absurd rfl (hanswer _ _ hc _ rfl)

/-- The task of a loop. -/
def loopTask (test : Expr) (body : Stmt) (scope : ScopeRef) (state : StatementState) (last : Option Value) : Task :=
  .statement ⟨.whileLoop test body, scope, state, last⟩

/-- A loop that asked for its test. -/
theorem resume_tested (reply : Reply) (last : Option Value) :
    (loopTask test body scope .whileTest last).resume E reply.outcome reply.machine =
      match reply.tested with
      | .ok true => .done (.ok (.ask (.statement body scope)), loopTask test body scope .whileBody last) reply.machine
      | .ok false => .done (.ok (.finished (.normal last)), loopTask test body scope .whileTest last) reply.machine
      | .error e => .done (.error e, loopTask test body scope .whileTest last) reply.machine := by
  obtain ⟨outcome, m⟩ := reply
  unfold Reply.tested
  cases outcome with
  | error e => rfl
  | ok c =>
    dsimp only [bind, Except.bind]
    have hresume : StatementTask.resume E ⟨.whileLoop test body, scope, .whileTest, last⟩ (.ok c) m =
        match m.heap.truthy c.value with
        | .ok true => .done (⟨.whileLoop test body, scope, .whileBody, last⟩, .ask (.statement body scope)) m
        | .ok false => .done (⟨.whileLoop test body, scope, .whileTest, last⟩, .finished (.normal last)) m
        | .error e => .failed e m := by
      show (Run.readHeap (fun h => h.truthy c.value) >>= _) m = _
      rw [Run.readHeap_bind]
      rcases m.heap.truthy c.value with e | _ | _ <;> rfl
    cases htruthy : m.heap.truthy c.value with
    | error e =>
      rw [htruthy] at hresume
      exact Proc.bind_done (Task.keeping_failed hresume) _
    | ok truthy =>
      rw [htruthy] at hresume
      cases truthy with
      | false => exact Proc.bind_done (Task.keeping_done hresume) _
      | true => exact Proc.bind_done (Task.keeping_done hresume) _

theorem resume_goesOn (hc : c.GoesOn v) (last : Option Value) (m : Machine) :
    (loopTask test body scope .whileBody last).resume E (.ok c) m =
      .done (.ok (.ask (.expression test scope)), loopTask test body scope .whileTest (v.or last)) m := by
  cases hc <;> rfl

theorem resume_leaves (hc : c.LeavesLoop) (last : Option Value) (m : Machine) :
    (loopTask test body scope .whileBody last).resume E (.ok c) m =
      .done (.ok (.finished (c.updateEmpty last)), loopTask test body scope .whileBody last) m := by
  cases hc <;> rfl

/-- A loop that asked for its body after a truthy test, if one more round leads on as it should. -/
theorem comes_body (htest : reply.tested = .ok true) (last : Option Value) (m : Machine)
    (hnext : ∀ c v m₁ rest, replies = ⟨.ok c, m₁⟩ :: rest → c.GoesOn v →
      (Task.Comes E rest (.done (.ok (.ask (.expression test scope)), loopTask test body scope .whileTest (v.or last)) m₁)
        r m' ↔ LoopSays test body scope (v.or last) m₁ rest r m')) :
    Task.Comes E replies (.done (.ok (.ask (.statement body scope)), loopTask test body scope .whileBody last)
        reply.machine) r m' ↔
      LoopSays test body scope last m (reply :: replies) r m' := by
  rcases replies with _ | ⟨⟨e | c, m₁⟩, replies⟩
  · rw [loopSays_iff_ends (rounds_unanswered (by simp))]
    refine Task.comes_nil.trans ⟨?_, fun hends => ?_⟩
    · rintro ⟨rfl, rfl⟩
      exact .asksBody htest
    · cases hends with
      | asksBody h => exact ⟨rfl, rfl⟩
      | testFails h | falsy h => cases htest.symm.trans h
  · rw [loopSays_iff_ends (rounds_unanswered (by simp))]
    refine Task.comes_ask.trans (Task.comes_error.trans ⟨?_, ?_⟩)
    · rintro ⟨rfl, rfl, rfl⟩
      exact .bodyFails htest e _
    · rintro ⟨⟩
      exact ⟨rfl, rfl, rfl⟩
  · refine Task.comes_ask.trans ?_
    rcases c.cases_loop with ⟨v, hc⟩ | ⟨v, rfl⟩ | hc
    · rw [loopSays_round htest hc, resume_goesOn hc]
      exact hnext c v m₁ replies rfl hc
    · have hanswer : ∀ c w, Completion.GoesOn c w → Completion.broken none v ≠ c := by
        rintro c w hgoes rfl
        cases hgoes
      rw [loopSays_iff_ends (rounds_unanswered (by simpa using hanswer))]
      refine Task.comes_finished.trans ⟨?_, fun hends => ?_⟩
      · rintro ⟨rfl, rfl, rfl⟩
        exact .breaks htest v _
      · cases hends with
        | breaks => exact ⟨rfl, rfl, rfl⟩
        | leaves _ hc => cases hc
    · have hanswer : ∀ c' w, Completion.GoesOn c' w → c ≠ c' := by
        rintro c' w hgoes rfl
        cases hgoes <;> cases hc
      rw [loopSays_iff_ends (rounds_unanswered (by simpa using hanswer)), resume_leaves hc]
      refine Task.comes_finished.trans ⟨?_, fun hends => ?_⟩
      · rintro ⟨rfl, rfl, rfl⟩
        exact .leaves htest hc (Completion.handedOn_updateEmpty hc.isAbrupt last) _
      · cases hends with
        | breaks => cases hc
        | leaves _ _ hd => exact ⟨rfl, by rw [hd.eq_updateEmpty], rfl⟩

/-- **A loop that asked for its test comes to what `LoopSays` says.** -/
theorem comes_test : ∀ (replies : List Reply) (last : Option Value) (m : Machine),
    Task.Comes E replies (.done (.ok (.ask (.expression test scope)), loopTask test body scope .whileTest last) m) r m' ↔
      LoopSays test body scope last m replies r m'
  | [], last, m => by
    rw [loopSays_iff_ends fun _ _ _ heq _ => (List.nil_eq_append_iff.mp heq).1, Task.comes_nil]
    constructor
    · rintro ⟨rfl, rfl⟩
      exact .asksTest
    · rintro ⟨⟩
      exact ⟨rfl, rfl⟩
  | reply :: replies, last, m => by
    refine Task.comes_ask.trans ?_
    rw [resume_tested]
    cases htest : reply.tested with
    | error e =>
      rw [loopSays_iff_ends (rounds_untested (by simp [htest]))]
      refine Task.comes_error.trans ⟨?_, fun hends => ?_⟩
      · rintro ⟨rfl, rfl, rfl⟩
        exact .testFails htest
      · cases hends with
        | testFails h => cases htest.symm.trans h; exact ⟨rfl, rfl, rfl⟩
        | falsy h | asksBody h | bodyFails h | breaks h | leaves h => cases htest.symm.trans h
    | ok truthy =>
      cases truthy with
      | false =>
        rw [loopSays_iff_ends (rounds_untested (by simp [htest]))]
        refine Task.comes_finished.trans ⟨?_, fun hends => ?_⟩
        · rintro ⟨rfl, rfl, rfl⟩
          exact .falsy htest
        · cases hends with
          | falsy h => exact ⟨rfl, rfl, rfl⟩
          | testFails h | asksBody h | bodyFails h | breaks h | leaves h => cases htest.symm.trans h
      | true =>
        refine comes_body htest last m fun c v m₁ rest hrest _ => ?_
        exact comes_test rest (v.or last) m₁
  termination_by replies => replies.length
  decreasing_by
    rw [hrest, List.length_cons, List.length_cons]
    omega

/-- A loop from its start. -/
theorem comes_loop (m : Machine) :
    Task.Comes E replies ((loopTask test body scope .start last).start E m) r m' ↔
      LoopSays test body scope last m replies r m' :=
  comes_test replies last m

/-- **A loop ends normally** with a falsy test or a `break` without a label, and not otherwise. -/
theorem loopSays_normal : LoopSays test body scope none m replies (.ok (.finished (.normal v))) m' ↔
    ∃ before after vs, replies = before ++ after ∧ Rounds before vs ∧
      ((∃ reply, after = [reply] ∧ reply.tested = .ok false ∧ m' = reply.machine ∧ v = lastValue vs) ∨
        ∃ reply w, after = [reply, ⟨.ok (.broken none w), m'⟩] ∧ reply.tested = .ok true ∧
          v = lastValue (vs ++ [w])) := by
  constructor
  · rintro ⟨before, after, vs, rfl, hrounds, hends⟩
    rw [lastValue_none_cons] at hends
    refine ⟨before, after, vs, rfl, hrounds, ?_⟩
    generalize hr : (Except.ok (Step.finished (Completion.normal v)) : Except Error Step) = r at hends
    cases hends with
    | falsy h =>
      cases hr
      exact .inl ⟨_, rfl, h, rfl, rfl⟩
    | breaks h w =>
      cases hr
      exact .inr ⟨_, w, rfl, h, (lastValue_concat vs w).symm⟩
    | leaves h hc hd =>
      cases hr
      cases hd
    | asksTest | testFails | asksBody | bodyFails => cases hr
  · rintro ⟨before, _, vs, rfl, hrounds, ⟨reply, rfl, htest, rfl, rfl⟩ | ⟨reply, w, rfl, htest, rfl⟩⟩
    · refine ⟨before, [reply], vs, rfl, hrounds, ?_⟩
      rw [lastValue_none_cons]
      exact .falsy htest
    · refine ⟨before, _, vs, rfl, hrounds, ?_⟩
      rw [lastValue_none_cons, lastValue_concat]
      exact .breaks htest w m'

end Loop

/-- **The values of lists and of loops**, for every list, every loop and whatever becomes of what they ask for.

A list asks for its statements in order, as long as they complete normally. It ends normally with the last value that
there was, if any, after all of them, a function body without one unless it was asked for; with an abrupt completion,
its missing value filled with the last one before, or with an error, at the first that comes.

A loop asks for its test and its body in turn. It ends normally with a falsy test or with a `break` without a label, with
the last value of a round or of the `break`, and not otherwise; other completions than normal ones and a `continue`
without a label leave it, their missing values filled, and errors end it. -/
theorem completions_updateEmpty (E : Engine) (m m' : Machine) (replies : List Reply) (r : Except Error Step) :
    (∀ kind list scope options, StatementsTask.hoist ⟨kind, list, scope, options, list, none⟩ m ≠ .stalled ∧
      (Task.Comes E replies ((Task.statements ⟨kind, list, scope, options, list, none⟩).start E m) r m' ↔
        (∃ e, StatementsTask.hoist ⟨kind, list, scope, options, list, none⟩ m = .failed e m' ∧ replies = [] ∧
          r = .error e) ∨
        ∃ m₁ before after vs, StatementsTask.hoist ⟨kind, list, scope, options, list, none⟩ m = .done () m₁ ∧
          replies = before ++ after ∧ Normally before vs ∧ before.length ≤ list.length ∧
          StatementsTask.Ends ⟨kind, list, scope, options, list, none⟩ (lastValue vs) (left m₁ before)
            (list.drop before.length) after r m')) ∧
    (∀ test body scope,
      Task.Comes E replies ((Task.statement ⟨.whileLoop test body, scope, .start, none⟩).start E m) r m' ↔
        ∃ before after vs, replies = before ++ after ∧ Rounds before vs ∧
          LoopEnds test body scope (lastValue vs) (left m before) after r m') ∧
    ∀ test body scope v, Task.Comes E replies ((Task.statement ⟨.whileLoop test body, scope, .start, none⟩).start E m)
        (.ok (.finished (.normal v))) m' ↔
      ∃ before after vs, replies = before ++ after ∧ Rounds before vs ∧
        ((∃ reply, after = [reply] ∧ reply.tested = .ok false ∧ m' = reply.machine ∧ v = lastValue vs) ∨
          ∃ reply w, after = [reply, ⟨.ok (.broken none w), m'⟩] ∧ reply.tested = .ok true ∧
            v = lastValue (vs ++ [w])) := by
  refine ⟨fun kind list scope options => ⟨StatementsTask.hoist_ends _ m, ?_⟩, fun test body scope => ?_,
    fun test body scope v => ?_⟩
  · refine (StatementsTask.comes_start _).trans (or_congr_right ?_)
    constructor
    · rintro ⟨m₁, hhoist, before, after, vs, heq, hnormal, hle, hends⟩
      rw [lastValue_none_cons] at hends
      exact ⟨m₁, before, after, vs, hhoist, heq, hnormal, hle, hends⟩
    · rintro ⟨m₁, before, after, vs, hhoist, heq, hnormal, hle, hends⟩
      rw [← lastValue_none_cons] at hends
      exact ⟨m₁, hhoist, before, after, vs, heq, hnormal, hle, hends⟩
  · refine (comes_loop m).trans ?_
    unfold LoopSays
    simp only [lastValue_none_cons]
  · exact (comes_loop m).trans loopSays_normal

end ScriptCore
