import ScriptCore.Proofs.Drive.Tasks

/-! # Procedures that do not see the frames

While a task runs, what it does depends on the frames beneath only through the engine. So if two engines
do the same on machines that differ in their frames alone, then everything that takes an engine does. Two
procedures are compared from such machines: they *track* each other when they deliver the same result,
leave machines that again differ in their frames alone, and leave those frames as they were. It may be
allowed that the left or the right one stalls instead.

* `Tracks.bind`: sequences of procedures that track each other do so.
* `Engine.Tracks`: engines that evaluate and call alike.
* `Routine.tracks`: **what running code does on such engines.** -/

namespace ScriptCore

/-- Two outcomes are the same but for the frames, which are `s` and `t`; where `L` or `R` holds, the left
or the right side may have stalled. -/
inductive Tracked {α : Type} (L R : Prop) (a : Option Active) (s t : Stack Frame) :
    Outcome Machine α → Outcome Machine α → Prop where
  | done {v : α} {x : Machine} (ha : x.active = a) :
      Tracked L R a s t (.done v { x with frames := s }) (.done v { x with frames := t })
  | failed {e : Error} {x : Machine} (ha : x.active = a) :
      Tracked L R a s t (.failed e { x with frames := s }) (.failed e { x with frames := t })
  | stalled : Tracked L R a s t .stalled .stalled
  | left {o : Outcome Machine α} (h : L) : Tracked L R a s t .stalled o
  | right {o : Outcome Machine α} (h : R) : Tracked L R a s t o .stalled

variable {α β : Type} {L R : Prop} {E₁ E₂ : Engine}

/-- **The procedures do the same inside a running task**, whatever the frames. -/
def Tracks (L R : Prop) (p q : Run α) : Prop :=
  ∀ (a : Active) (s t : Stack Frame) (m : Machine), m.active = some a →
    Tracked L R (some a) s t (p { m with frames := s }) (q { m with frames := t })

/-- What follows two procedures that came to the same. -/
theorem Tracked.bind {p q : Run α} {f g : α → Run β} {a : Active} {s t : Stack Frame} {m m' : Machine}
    (h : Tracked L R (some a) s t (p m) (q m')) (hf : ∀ v, Tracks L R (f v) (g v)) :
    Tracked L R (some a) s t ((p >>= f) m) ((q >>= g) m') := by
  generalize hp : p m = o, hq : q m' = o' at h
  cases h with
  | @done v x hx =>
    rw [Proc.bind_done hp, Proc.bind_done hq]
    exact hf v a s t x hx
  | failed hx =>
    rw [Proc.bind_failed hp, Proc.bind_failed hq]
    exact .failed hx
  | stalled =>
    rw [Proc.bind_stalled hp, Proc.bind_stalled hq]
    exact .stalled
  | left h => rw [Proc.bind_stalled hp]; exact .left h
  | right h => rw [Proc.bind_stalled hq]; exact .right h

namespace Tracks

variable {p q : Run α} {f g : α → Run β}

theorem pure (v : α) : Tracks L R (Pure.pure v : Run α) (Pure.pure v) := fun _ _ _ _ ha => .done ha

theorem fail (e : Error) : Tracks L R (throw e : Run α) (throw e) := fun _ _ _ _ ha => .failed ha

theorem ofExcept (r : Except Error α) : Tracks L R (Proc.ofExcept r : Run α) (Proc.ofExcept r) := by
  cases r with
  | ok v => exact pure v
  | error e => exact fail e

/-- **Sequences of procedures that track each other.** -/
theorem bind (hp : Tracks L R p q) (hf : ∀ v, Tracks L R (f v) (g v)) :
    Tracks L R (p >>= f) (q >>= g) :=
  fun a s t m ha => (hp a s t m ha).bind hf

theorem discard (hp : Tracks L R p q) : Tracks L R (discard p) (discard q) := by
  show Tracks L R (Function.const α () <$> p) (Function.const α () <$> q)
  rw [map_eq_pure_bind, map_eq_pure_bind]
  exact hp.bind fun _ => pure ()

theorem attempt (hp : Tracks L R p q) : Tracks L R p.attempt q.attempt := by
  intro a s t m ha
  have h := hp a s t m ha
  unfold Proc.attempt
  generalize p { m with frames := s } = o, q { m with frames := t } = o' at h
  cases h with
  | done hx => exact .done hx
  | failed hx => exact .done hx
  | stalled => exact .stalled
  | left h => exact .left h
  | right h => exact .right h

theorem onHeap (p : Proc Heap α) : Tracks L R (Run.onHeap p) (Run.onHeap p) := by
  intro a s t m ha
  obtain ⟨h, realm, monitor, frames, active, observed, console⟩ := m
  simp only [Run.onHeap]
  cases p h with
  | done v h' => exact .done (x := ⟨h', realm, monitor, frames, active, observed, console⟩) ha
  | failed e h' => exact .failed (x := ⟨h', realm, monitor, frames, active, observed, console⟩) ha
  | stalled => exact .stalled

theorem readHeap (f : Heap → Except Error α) : Tracks L R (Run.readHeap f) (Run.readHeap f) :=
  Routine.onHeap_reads f ▸ onHeap (Proc.reads f)

theorem isDebug : Tracks L R Run.isDebug Run.isDebug := fun _ _ _ m ha => .done (x := m) ha

end Tracks

/-- The engines evaluate and call alike, whatever the frames. -/
structure Engine.Tracks (L R : Prop) (E₁ E₂ : Engine) : Prop where
  evaluate : ∀ r, ScriptCore.Tracks L R (E₁.evaluate r) (E₂.evaluate r)
  call : ∀ f receiver args,
    ScriptCore.Tracks L R (E₁.call f receiver args) (E₂.call f receiver args)

/-- **Running code does the same on engines that evaluate and call alike.** -/
theorem Routine.tracks {P : Engine → Run α} (hP : Routine P) (h : Engine.Tracks L R E₁ E₂) :
    Tracks L R (P E₁) (P E₂) := by
  induction hP with
  | pure a => exact .pure a
  | fail e => exact .fail e
  | onHeap hp => exact .onHeap _
  | look f => exact fun _ _ _ m ha => .done (x := m) ha
  | evaluate r => exact h.evaluate r
  | call f receiver args => exact h.call f receiver args
  | bind _ _ ihp ihf => exact ihp.bind ihf

/-- Two runs of the task of `f` came to the same. A task that is suspended is the same on both sides; what
is left of one that ended is of no interest. -/
inductive TaskTracked (L R : Prop) (a : Option Active) (s t : Stack Frame) (f : Frame) :
    Outcome Machine (Except Error Step × Frame) → Outcome Machine (Except Error Step × Frame) → Prop where
  | finished (c : Completion) (u u' : Task) {x : Machine} (ha : x.active = a) :
      TaskTracked L R a s t f (.done (.ok (.finished c), { f with task := u }) { x with frames := s })
        (.done (.ok (.finished c), { f with task := u' }) { x with frames := t })
  | suspended {c : Suspension} {u : Task} {x : Machine} (ha : x.active = a) :
      TaskTracked L R a s t f (.done (.ok (.suspended c), { f with task := u }) { x with frames := s })
        (.done (.ok (.suspended c), { f with task := u }) { x with frames := t })
  | failed (e : Error) (u u' : Task) {x : Machine} (ha : x.active = a) :
      TaskTracked L R a s t f (.done (.error e, { f with task := u }) { x with frames := s })
        (.done (.error e, { f with task := u' }) { x with frames := t })
  | stalled : TaskTracked L R a s t f .stalled .stalled
  | left {o : Outcome Machine (Except Error Step × Frame)} (h : L) : TaskTracked L R a s t f .stalled o
  | right {o : Outcome Machine (Except Error Step × Frame)} (h : R) : TaskTracked L R a s t f o .stalled

end ScriptCore
