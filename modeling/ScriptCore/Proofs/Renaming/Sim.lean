import ScriptCore.Engine
import ScriptCore.Proofs.Renaming.Heap

/-! # Procedures that go alike

Two procedures *go alike* (`Sim`) when from states that are alike they end alike: both deliver results
that are alike, or both fail with errors that are, in states that are alike again under a renaming with
more pairs. There are exceptions: a side may stall, and unless the two sides are one run, one of them
may run out of memory, of which nothing is asked but that it left its surroundings alone.

* `Sim.bind`: sequences of procedures that go alike go alike.
* `Sim.readHeap`, `Sim.onHeap`: reading and lifting.
* `Engine.Sim`: engines that run code alike. Everything that takes an engine is compared under this
  assumption, and the engines of a host satisfy it. -/

namespace ScriptCore

open Renamable (transfer paired)

/-! ### States that are compared -/

/-- A type of states with a notion of being alike. -/
class Comparable (σ : Type) where
  /-- The surroundings, which stay fixed while two procedures run. -/
  Index : Type
  /-- Two states are alike. -/
  rel : Mode → Index → Renaming → σ → σ → Prop
  /-- The left state has its surroundings as they were. -/
  left : Index → σ → Prop
  /-- The right state has its surroundings as they were. -/
  right : Index → σ → Prop

instance : Comparable Heap where
  Index := Unit
  rel M _ := Heap.Alike M
  left _ _ := True
  right _ _ := True

/-- The surroundings of two running tasks: the frames beneath them, and where they stand. -/
structure Site where
  left : Stack Frame
  right : Stack Frame
  active : Active

/-- The machines of two running tasks are alike. -/
structure Machine.Running (M : Mode) (i : Site) (ρ : Renaming) (m₁ m₂ : Machine) : Prop where
  heap : Heap.Alike M ρ m₁.heap m₂.heap
  realm : Alike ρ m₁.realm m₂.realm
  monitor : m₁.monitor = m₂.monitor
  left : m₁.frames = i.left ∧ m₁.active = some i.active
  right : m₂.frames = i.right ∧ m₂.active = some i.active

instance : Comparable Machine where
  Index := Site
  rel := Machine.Running
  left i m := m.frames = i.left ∧ m.active = some i.active
  right i m := m.frames = i.right ∧ m.active = some i.active

/-! ### Outcomes and procedures -/

variable {σ α β : Type} [Comparable σ] {M : Mode} {ρ ρ' : Renaming}
  {Q : Renaming → α → α → Prop} {R : Renaming → β → β → Prop}

/-- Two outcomes meet: both sides end alike, or one ran out of memory, or one stalled. -/
inductive Meets (M : Mode) (i : Comparable.Index σ) (Q : Renaming → α → α → Prop) (ρ : Renaming) :
    Outcome σ α → Outcome σ α → Prop where
  | done {ρ' : Renaming} {a b : α} {s t : σ} (hρ : ρ ≤ ρ') (hs : Comparable.rel M i ρ' s t)
      (hq : Q ρ' a b) : Meets M i Q ρ (.done a s) (.done b t)
  | failed {ρ' : Renaming} {e e' : Error} {s t : σ} (hρ : ρ ≤ ρ') (hs : Comparable.rel M i ρ' s t)
      (he : Alike ρ' e e') : Meets M i Q ρ (.failed e s) (.failed e' t)
  | leftFull {s : σ} {o : Outcome σ α} (hM : ¬ M.lockstep) (hs : Comparable.left i s) :
      Meets M i Q ρ (.failed .outOfMemory s) o
  | rightFull {t : σ} {o : Outcome σ α} (hM : ¬ M.lockstep) (ht : Comparable.right i t) :
      Meets M i Q ρ o (.failed .outOfMemory t)
  | leftStalled {o : Outcome σ α} : Meets M i Q ρ .stalled o
  | rightStalled {o : Outcome σ α} (hM : ¬ M.outlasts) : Meets M i Q ρ o .stalled

/-- **The procedures go alike**, from all states that are alike under at least the pairs of `ρ`. -/
def Sim (M : Mode) (ρ : Renaming) (Q : Renaming → α → α → Prop) (p q : Proc σ α) : Prop :=
  ∀ (i : Comparable.Index σ) (ρ' : Renaming), ρ ≤ ρ' → ∀ s t, Comparable.rel M i ρ' s t →
    Meets M i Q ρ' (p s) (q t)

theorem Meets.weaken {i : Comparable.Index σ} {o o' : Outcome σ α} (h : Meets M i Q ρ' o o')
    (hρ : ρ ≤ ρ') : Meets M i Q ρ o o' := by
  cases h with
  | done h hs hq => exact .done (hρ.trans h) hs hq
  | failed h hs he => exact .failed (hρ.trans h) hs he
  | leftFull hM hs => exact .leftFull hM hs
  | rightFull hM ht => exact .rightFull hM ht
  | leftStalled => exact .leftStalled
  | rightStalled hM => exact .rightStalled hM

/-- Going on from outcomes that meet. -/
theorem Meets.bind {i : Comparable.Index σ} {p q : Proc σ α} {f g : α → Proc σ β} {s t : σ}
    (h : Meets M i Q ρ (p s) (q t))
    (hf : ∀ ρ', ρ ≤ ρ' → ∀ a b, Q ρ' a b → Sim M ρ' R (f a) (g b)) :
    Meets M i R ρ ((p >>= f) s) ((q >>= g) t) := by
  generalize hps : p s = o, hqt : q t = o' at h
  cases h with
  | done hle hs hq =>
    rw [Proc.bind_done hps, Proc.bind_done hqt]
    exact (hf _ hle _ _ hq i _ le_rfl _ _ hs).weaken hle
  | failed hle hs he =>
    rw [Proc.bind_failed hps, Proc.bind_failed hqt]
    exact .failed hle hs he
  | leftFull hM hs => rw [Proc.bind_failed hps]; exact .leftFull hM hs
  | rightFull hM ht => rw [Proc.bind_failed hqt]; exact .rightFull hM ht
  | leftStalled => rw [Proc.bind_stalled hps]; exact .leftStalled
  | rightStalled hM => rw [Proc.bind_stalled hqt]; exact .rightStalled hM

namespace Sim

variable {p q : Proc σ α} {f g : α → Proc σ β}

theorem mono (h : Sim M ρ Q p q) (hρ : ρ ≤ ρ') : Sim M ρ' Q p q :=
  fun i ρ'' h' => h i ρ'' (hρ.trans h')

theorem conseq {Q' : Renaming → α → α → Prop} (h : Sim M ρ Q p q)
    (hQ : ∀ ρ', ρ ≤ ρ' → ∀ a b, Q ρ' a b → Q' ρ' a b) : Sim M ρ Q' p q := by
  intro i ρ' hρ s t hs
  have h := h i ρ' hρ s t hs
  generalize p s = o, q t = o' at h
  cases h with
  | done h hs hq => exact .done h hs (hQ _ (hρ.trans h) _ _ hq)
  | failed h hs he => exact .failed h hs he
  | leftFull hM hs => exact .leftFull hM hs
  | rightFull hM ht => exact .rightFull hM ht
  | leftStalled => exact .leftStalled
  | rightStalled hM => exact .rightStalled hM

theorem pure_of {a b : α} (h : ∀ ρ', ρ ≤ ρ' → Q ρ' a b) :
    Sim M ρ Q (Pure.pure a : Proc σ α) (Pure.pure b) :=
  fun _ ρ' hρ _ _ hs => .done le_rfl hs (h ρ' hρ)

theorem pure [Renamable α] {a b : α} (h : Alike ρ a b) :
    Sim M ρ Alike (Pure.pure a : Proc σ α) (Pure.pure b) :=
  pure_of fun _ hρ => h.mono hρ

theorem fail {e e' : Error} (h : Alike ρ e e') :
    Sim M ρ Q (throw e : Proc σ α) (throw e') :=
  fun _ _ hρ _ _ hs => .failed le_rfl hs (h.mono hρ)

/-- **Sequences of procedures that go alike go alike.** -/
theorem bind (hp : Sim M ρ Q p q)
    (hf : ∀ ρ', ρ ≤ ρ' → ∀ a b, Q ρ' a b → Sim M ρ' R (f a) (g b)) :
    Sim M ρ R (p >>= f) (q >>= g) := by
  intro i ρ' hρ s t hs
  exact (hp i ρ' hρ s t hs).bind fun ρ'' hle => hf ρ'' (hρ.trans hle)

theorem map {f g : α → β} (hp : Sim M ρ Q p q)
    (hf : ∀ ρ', ρ ≤ ρ' → ∀ a b, Q ρ' a b → ∀ ρ'', ρ' ≤ ρ'' → R ρ'' (f a) (g b)) :
    Sim M ρ R (f <$> p) (g <$> q) := by
  rw [map_eq_pure_bind, map_eq_pure_bind]
  exact hp.bind fun ρ' hρ a b hab => pure_of (hf ρ' hρ a b hab)

/-- What follows a procedure that runs only under a condition. -/
theorem after_ite {c : Prop} [Decidable c] {p' q' : Proc σ β} (hp : Sim M ρ Q p q)
    (hrest : ∀ ρ', ρ ≤ ρ' → Sim M ρ' R p' q') :
    Sim M ρ R (if c then p >>= fun _ => p' else p') (if c then q >>= fun _ => q' else q') := by
  split
  · exact hp.bind fun ρ' hρ _ _ _ => hrest ρ' hρ
  · exact hrest ρ le_rfl

theorem discard (hp : Sim M ρ Q p q) : Sim M ρ Alike (discard p) (discard q) :=
  hp.map fun _ _ _ _ _ _ _ => rfl

theorem ofExcept [Renamable α] {r r' : Except Error α} (h : Alike ρ r r') :
    Sim M ρ Alike (Proc.ofExcept r : Proc σ α) (Proc.ofExcept r') := by
  intro i ρ' hρ s t hs
  cases h with
  | ok h => exact .done le_rfl hs (h.mono hρ)
  | error h => exact .failed le_rfl hs (h.mono hρ)

/-! ### Procedures over heaps and machines -/

/-- Reading two heaps. -/
theorem reads [Renamable α] {f g : Heap → Except Error α}
    (h : ∀ ρ', ρ ≤ ρ' → ∀ h₁ h₂, Heap.Alike M ρ' h₁ h₂ → Alike ρ' (f h₁) (g h₂)) :
    Sim M ρ Alike (Proc.reads f) (Proc.reads g) := by
  intro i ρ' hρ h₁ h₂ hh
  have hfg := h ρ' hρ h₁ h₂ hh
  unfold Proc.reads
  generalize f h₁ = r, g h₂ = r' at hfg
  cases hfg with
  | ok hab => exact .done le_rfl hh hab
  | error he => exact .failed le_rfl hh he

/-- A procedure over heaps, run by machines. -/
theorem onHeap {p q : Proc Heap α} (h : Sim M ρ Q p q) :
    Sim M ρ Q (Run.onHeap p) (Run.onHeap q) := by
  intro i ρ' hρ m₁ m₂ hm
  have hpq := h () ρ' hρ _ _ hm.heap
  obtain ⟨_, _, _, _, _, _, _⟩ := m₁
  obtain ⟨_, _, _, _, _, _, _⟩ := m₂
  simp only [Run.onHeap] at hpq ⊢
  generalize p _ = o, q _ = o' at hpq ⊢
  cases hpq with
  | done hle hh hq => exact .done hle ⟨hh, hm.realm.mono hle, hm.monitor, hm.left, hm.right⟩ hq
  | failed hle hh he => exact .failed hle ⟨hh, hm.realm.mono hle, hm.monitor, hm.left, hm.right⟩ he
  | leftFull hM _ => exact .leftFull hM hm.left
  | rightFull hM _ => exact .rightFull hM hm.right
  | leftStalled => exact .leftStalled
  | rightStalled hM => exact .rightStalled hM

/-- Reading the heaps of two machines. -/
theorem readHeap [Renamable α] {f g : Heap → Except Error α}
    (h : ∀ ρ', ρ ≤ ρ' → ∀ h₁ h₂, Heap.Alike M ρ' h₁ h₂ → Alike ρ' (f h₁) (g h₂)) :
    Sim M ρ Alike (Run.readHeap f) (Run.readHeap g) := by
  intro i ρ' hρ m₁ m₂ hm
  have hfg := h ρ' hρ _ _ hm.heap
  simp only [Run.readHeap, Proc.reads]
  generalize f m₁.heap = r, g m₂.heap = r' at hfg
  cases hfg with
  | ok hab => exact .done le_rfl hm hab
  | error he => exact .failed le_rfl hm he

/-- What follows from the heaps being alike may be assumed. -/
theorem assume {P : Prop} {p q : Run α}
    (hP : ∀ ρ', ρ ≤ ρ' → ∀ h₁ h₂, Heap.Alike M ρ' h₁ h₂ → P) (h : P → Sim M ρ Q p q) :
    Sim M ρ Q p q :=
  fun i ρ' hρ m₁ m₂ hm => h (hP ρ' hρ _ _ hm.heap) i ρ' hρ m₁ m₂ hm

theorem realm : Sim M ρ Alike Run.realm Run.realm :=
  fun _ _ _ _ _ hm => .done le_rfl hm hm.realm

theorem names : Sim M ρ Alike Run.names Run.names :=
  fun _ _ _ _ _ hm => .done le_rfl hm hm.realm.2.2.2.2.2.2.2.2.2.1

theorem isDebug : Sim M ρ Alike Run.isDebug Run.isDebug := by
  intro i ρ' hρ m₁ m₂ hm
  unfold Run.isDebug
  rw [hm.monitor]
  exact .done le_rfl hm rfl

end Sim

/-! ### Engines -/

/-- The engines run code alike. -/
structure Engine.Sim (M : Mode) (E₁ E₂ : Engine) : Prop where
  evaluate : ∀ {ρ : Renaming} {r s : BranchRequest}, Alike ρ r s →
    ScriptCore.Sim M ρ Alike (E₁.evaluate r) (E₂.evaluate s)
  call : ∀ {ρ : Renaming} {f f' receiver receiver' : Value} {args args' : List Value},
    Alike ρ f f' → Alike ρ receiver receiver' → Alike ρ args args' →
    ScriptCore.Sim M ρ Alike (E₁.call f receiver args) (E₂.call f' receiver' args')

end ScriptCore
