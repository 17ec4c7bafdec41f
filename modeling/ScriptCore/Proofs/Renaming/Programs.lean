import ScriptCore.Host.Dispatch
import ScriptCore.Proofs.Renaming.Collection

/-! # Programs that are started alike

New machines are alike whatever the limits of their heaps, and they stay so when a program is opened as
the root branch on both.

* `at_create`: new machines.
* `driven_openProgram`: opening a program.
* `startRoot_eq`, `executeOn_eq`: starting and executing a program on a machine without frames. -/

namespace ScriptCore

variable {M : Mode} {ρ : Renaming} {host : Host} {m m₁ m₂ : Machine}

theorem Host.bySyntax_plain (stash : List (String × List Stmt)) : (Host.plain stash).BySyntax :=
  fun _ => rfl

/-- **New machines are alike.** -/
theorem at_create {l₁ l₂ : HeapLimits} {options : MonitorOptions} {now : Nat} {sloppy : Bool}
    (hl : M.lockstep → l₁ = l₂) (h₁ : Machine.create l₁ options now sloppy = .ok m₁)
    (h₂ : Machine.create l₂ options now sloppy = .ok m₂) :
    ∃ ρ, Machine.At M none .empty .empty ρ m₁ m₂ := by
  have hrealm := sim_createRealm (M := M) sloppy () .none le_rfl _ _ (Heap.alike_empty M l₁ l₂ hl)
  unfold Machine.create at h₁ h₂
  generalize Realm.create sloppy (Heap.empty l₁) = o, Realm.create sloppy (Heap.empty l₂) = o' at *
  cases hrealm with
  | @done ρ r s h h' hρ hh hr =>
    cases h₁
    cases h₂
    exact ⟨ρ, hh, hr, rfl, ⟨rfl, rfl⟩, ⟨rfl, rfl⟩⟩
  | failed _ _ _ => cases h₁
  | leftFull _ _ => cases h₁
  | rightFull _ _ => cases h₂
  | leftStalled => cases h₁
  | rightStalled _ => cases h₂

/-- The options name no value of the machine. -/
def BranchOptions.IsBare (o : BranchOptions) : Prop := o.creator = none ∧ o.callee = none

theorem BranchOptions.IsBare.alike {o : BranchOptions} (h : o.IsBare) : Alike ρ o o := by
  obtain ⟨last, creator, name, callee, power⟩ := o
  obtain ⟨rfl, rfl⟩ := h
  exact ⟨.none, .none, rfl, rfl, rfl⟩

/-- A program in the global scope. -/
def Machine.program (m : Machine) (body : List Stmt) (options : BranchOptions) : BranchRequest :=
  { BranchRequest.program body m.realm.globalScope with options }

/-- The machine with a program opened as the root branch. -/
def Machine.openProgram (m : Machine) (body : List Stmt) (options : BranchOptions) : Machine :=
  m.openFrame (Task.ofRequest (m.program body options)) (m.program body options).info 0 false false

/-- **Programs are opened alike.** -/
theorem driven_openProgram (hm : Machine.At M none .empty .empty ρ m₁ m₂) (body : List Stmt)
    {options : BranchOptions} (ho : options.IsBare) :
    Driven M none .empty .empty ρ 0 (m₁.openProgram body options) (m₂.openProgram body options) := by
  have hr : Alike ρ (m₁.program body options) (m₂.program body options) :=
    ⟨(Realm.alike_iff.mp hm.realm).1, ho.alike, rfl, rfl⟩
  obtain ⟨g, g', hat, hg, hgt, hgi⟩ :=
    at_openFrame hm (Task.alike_ofRequest hr) (BranchRequest.alike_info hr) 0 false false
  refine ⟨hat, .base, hg, ?_⟩
  unfold Frame.Fits
  rw [hgi, hgt]
  exact Task.fresh_ofRequest _

theorem startRoot_eq (hhost : host.BySyntax) (hframes : m.frames = .empty) (hactive : m.active = none)
    (r : BranchRequest) :
    host.startRoot r m = .done () (m.openFrame (Task.ofRequest r) r.info 0 false false) := by
  have hget : (get : Run Machine) m = .done m m := rfl
  unfold Host.startRoot
  refine (Proc.bind_done hget _).trans ?_
  rw [if_neg (by rw [hframes, hactive]; decide), hhost r]
  rfl

/-- Starting a program while another one is open changes nothing. -/
theorem startRoot_running (hframes : m.frames.isEmpty = false) (r : BranchRequest) :
    host.startRoot r m = .failed (.driverState .alreadyRunning) m := by
  have hget : (get : Run Machine) m = .done m m := rfl
  unfold Host.startRoot
  refine (Proc.bind_done hget _).trans ?_
  rw [if_pos (by rw [hframes]; rfl)]
  rfl

/-- What the end of a program gives the host that executed it. -/
def endingValue : Outcome Machine Completion → Outcome Machine Value
  | .done c m => Proc.ofExcept (completionValue c) m
  | .failed e m => .failed e m
  | .stalled => .stalled

/-- The options of a program that is executed. -/
def executeOptions : BranchOptions := { returnLastValue := true }

theorem executeOn_eq (hhost : host.BySyntax) (hframes : m.frames = .empty) (hactive : m.active = none)
    (E : Engine) (bound : Nat) (body : List Stmt) :
    host.executeOn E bound body m =
      endingValue (drive host E 0 bound (m.openProgram body executeOptions)) := by
  rw [executeOn_of_inactive hactive]
  refine (Proc.bind_done (startRoot_eq hhost hframes hactive _) _).trans ?_
  show Proc.bind (drive host E 0 bound) _ (m.openProgram body executeOptions) = _
  simp only [Proc.bind]
  cases drive host E 0 bound (m.openProgram body executeOptions) <;> rfl

/-- Executing a program while another one is open changes nothing. -/
theorem executeOn_running (hframes : m.frames.isEmpty = false) (hactive : m.active = none)
    (E : Engine) (bound : Nat) (body : List Stmt) :
    host.executeOn E bound body m = .failed (.driverState .alreadyRunning) m := by
  rw [executeOn_of_inactive hactive]
  exact Proc.bind_failed (startRoot_running hframes _) _

/-! ### Control by the host -/

theorem requireControl_running (hframes : m.frames.isEmpty = false) (hactive : m.active = none) :
    requireControl m = .done () m := by
  have hget : (get : Run Machine) m = .done m m := rfl
  unfold requireControl
  refine (Proc.bind_done hget _).trans ?_
  rw [if_neg (by rw [hactive]; decide), if_neg (by rw [hframes]; decide)]
  rfl

theorem requireControl_idle (hframes : m.frames = .empty) (hactive : m.active = none) :
    requireControl m = .failed (.driverState .notRunning) m := by
  have hget : (get : Run Machine) m = .done m m := rfl
  unfold requireControl
  refine (Proc.bind_done hget _).trans ?_
  rw [if_neg (by rw [hactive]; decide), if_pos (by rw [hframes]; rfl)]
  rfl

/-- A step of a machine with a frame. -/
theorem step_running (host : Host) (hframes : m.frames.isEmpty = false) (hactive : m.active = none) (bound : Nat) :
    (host.engine (bound + 1)).step m = driveVisible host (host.engine bound) bound m := by
  simp only [Host.engine, requireControl_running hframes hactive]

/-- A run of a machine with a frame. -/
theorem run_running (host : Host) (hframes : m.frames.isEmpty = false) (hactive : m.active = none) (bound : Nat) :
    (host.engine (bound + 1)).run m = drive host (host.engine bound) 0 bound m := by
  simp only [Host.engine, requireControl_running hframes hactive]

/-- Stepping and running a machine without frames changes nothing. -/
theorem step_run_idle (host : Host) (hframes : m.frames = .empty) (hactive : m.active = none) (bound : Nat) :
    (host.engine (bound + 1)).step m = .failed (.driverState .notRunning) m ∧
      (host.engine (bound + 1)).run m = .failed (.driverState .notRunning) m := by
  constructor <;> simp only [Host.engine, requireControl_idle hframes hactive]

end ScriptCore
